import HostedLisp.Proofs.Compiler.Forms
import Mathlib.Data.List.Forall2

/-!
# Scopes that are closed

Names come into scope and go out of scope by key, in whatever order, and a function shares all the
names around it anew. Still a form that compiles leaves the stack of every symbol as it was. A form
that fails leaves open what it has opened until then, on top of what there was.

- `Scope.stack`: the meanings of a symbol, the innermost first.
- `Scope.Over`: what there was lies beneath the scopes that are open.
- `balance`: this is a discipline of scopes.
- `CompileM.restored_of_compileAt`: a form that compiles closes every scope it opens.
- `CompileM.leftOpen_of_compileAt`: a form that fails takes nothing away.
-/

namespace HostedLisp

open CompileM List

/-! ## The same meaning later -/

/-- The same meaning later: a shared variable may have been read in between. -/
inductive Alias.Later : Alias → Alias → Prop where
  | same (a : Alias) : Later a a
  | read (id : Nat) (key : Value) (name : String) (used : Bool) :
    Later (.closure id key name used) (.closure id key name true)

namespace Alias.Later

theorem trans {a b c : Alias} (hab : Later a b) (hbc : Later b c) : Later a c := by
  cases hab with
  | same => exact hbc
  | read id key name used =>
    cases hbc with
    | same => exact .read id key name used
    | read => exact .read id key name used

end Alias.Later

/-- The same stack of meanings later. -/
abbrev SameLater : List Alias → List Alias → Prop := List.Forall₂ Alias.Later

namespace SameLater

theorem refl (as : List Alias) : SameLater as as := forall₂_same.mpr fun a _ => .same a

theorem trans {as bs cs : List Alias} (hab : SameLater as bs) (hbc : SameLater bs cs) :
    SameLater as cs := by
  induction hab generalizing cs with
  | nil => exact hbc
  | cons h _ ih =>
    cases hbc with
    | cons h' hrest => exact .cons (h.trans h') (ih hrest)

end SameLater

/-- Note that the innermost meaning was read. -/
def readTop : List Alias → List Alias
  | .closure id c name _ :: rest => .closure id c name true :: rest
  | as => as

theorem sameLater_readTop (as : List Alias) : SameLater as (readTop as) := by
  unfold readTop
  split
  · exact .cons (.read _ _ _ _) (SameLater.refl _)
  · exact SameLater.refl _

/-! ## Entries -/

/-- The entry of a symbol. An entry without meanings, which none of the operations makes, would hide
all later ones. -/
def entryIn (ps : Meanings) (s : Symbol) : Option (List Alias) :=
  (ps.find? fun p => p.1.symbol? == some s).map (·.2)

/-- The meanings of a symbol, the innermost first. -/
def Scope.stack (sc : Scope) (s : Symbol) : List Alias := meanings sc.aliases (.symbol s .nil)

variable {a : Alias}

section Entries

variable {ps : Meanings} {key : Value} {s : Symbol}

theorem meanings_eq (hkey : key.symbol? = some s) : meanings ps key = (entryIn ps s).getD [] := by
  have hsame : (fun p : Value × List Alias => p.1.eqB key) = fun p => p.1.symbol? == some s := by
    funext p
    rw [Bool.eq_iff_iff, Value.eqB_eq_true_iff hkey, beq_iff_eq]
  rw [meanings, entryIn, hsame]

/-- A stack that is not empty is the entry itself. -/
theorem entryIn_of_meanings {as : List Alias} (hkey : key.symbol? = some s)
    (h : meanings ps key = a :: as) : entryIn ps s = some (a :: as) := by
  rw [meanings_eq hkey] at h
  cases hentry : entryIn ps s with
  | none =>
    rw [hentry] at h
    cases h
  | some bs =>
    rw [hentry] at h
    exact congrArg some h

theorem Scope.stack_eq (sc : Scope) (s : Symbol) : sc.stack s = (entryIn sc.aliases s).getD [] :=
  meanings_eq rfl

theorem eqB_iff_of_symbol? {k : Value} (key : Value) (hk : k.symbol? = some s) :
    k.eqB key = true ↔ key.symbol? = some s := by
  cases hkey : key.symbol? with
  | none => simp [Value.eqB_of_symbol? hk hkey]
  | some t => rw [Value.eqB_eq_true_iff hkey, hk, Option.some.injEq, Option.some.injEq, eq_comm]

theorem entryIn_append (as : List Alias) :
    entryIn (ps ++ [(key, as)]) s
      = (entryIn ps s).or (if key.symbol? = some s then some as else none) := by
  simp only [entryIn, find?_append, find?_singleton, beq_iff_eq]
  cases ps.find? fun p => p.1.symbol? == some s with
  | some p => rfl
  | none => split <;> rfl

/-- A change of the entries of a key is seen in the entry of that symbol only. -/
theorem entryIn_map (g : List Alias → List Alias) :
    entryIn (ps.map fun p => if p.1.eqB key then (p.1, g p.2) else p) s
      = if key.symbol? = some s then (entryIn ps s).map g else entryIn ps s := by
  induction ps with
  | nil => simp [entryIn]
  | cons p ps ih =>
    have hfst : (if p.1.eqB key then (p.1, g p.2) else p).1 = p.1 := by split <;> rfl
    cases hp : (p.1.symbol? == some s) with
    | true =>
      have hiff := eqB_iff_of_symbol? key (beq_iff_eq.mp hp)
      simp only [entryIn, map_cons, find?_cons, hfst, hp, Option.map_some]
      by_cases hkey : key.symbol? = some s
      · rw [if_pos hkey, if_pos (hiff.mpr hkey)]
      · rw [if_neg hkey, if_neg fun h => hkey (hiff.mp h)]
    | false =>
      simp only [entryIn, map_cons, find?_cons, hfst, hp] at ih ⊢
      exact ih

theorem entryIn_filter :
    entryIn (ps.filter fun p => !p.1.eqB key) s
      = if key.symbol? = some s then none else entryIn ps s := by
  induction ps with
  | nil => simp [entryIn]
  | cons p ps ih =>
    cases hp : (p.1.symbol? == some s) with
    | true =>
      have hiff := eqB_iff_of_symbol? key (beq_iff_eq.mp hp)
      by_cases hkey : key.symbol? = some s
      · rw [if_pos hkey] at ih ⊢
        rw [filter_cons_of_neg (by simpa using hiff.mpr hkey)]
        exact ih
      · rw [if_neg hkey, filter_cons_of_pos (by simpa using fun h => hkey (hiff.mp h))]
        simp only [entryIn, find?_cons, hp]
    | false =>
      have hskip (qs : Meanings) : entryIn (p :: qs) s = entryIn qs s := by
        simp only [entryIn, find?_cons, hp]
      rw [hskip, ← ih, filter_cons]
      split
      · exact hskip _
      · rfl

end Entries

/-! ## What the operations do to an entry -/

/-- A meaning on top of an entry. -/
def onTop (a : Alias) : Option (List Alias) → Option (List Alias)
  | none => some [a]
  | some [] => some []
  | some as => some (a :: as)

/-- The meaning `a` has come on top of the entry of a key. -/
def Pushed (key : Value) (a : Alias) (ps ps' : Meanings) : Prop := ∀ s,
  entryIn ps' s = if key.symbol? = some s then onTop a (entryIn ps s) else entryIn ps s

/-- The innermost meaning has gone from the entry of a key. -/
def Popped (key : Value) (ps ps' : Meanings) : Prop := ∀ s,
  if key.symbol? = some s then
    ∃ a as, entryIn ps s = some (a :: as) ∧ entryIn ps' s = if as.isEmpty then none else some as
  else entryIn ps' s = entryIn ps s

variable (key : Value) {before after : Scope}

theorem pushAlias_cases (a : Alias) (st : CompileState) :
    (∃ e, pushAlias key a st = .error e st) ∨
      ∃ ps, pushAlias key a st = .ok () { st with scope := { st.scope with aliases := ps } } ∧
        Pushed key a st.scope.aliases ps := by
  rcases aliasesOf_cases key st with ⟨e, he⟩ | hok
  · exact .inl ⟨e, bind_of_error he⟩
  · refine .inr ?_
    rw [pushAlias, bind_of_ok hok]
    cases hmeanings : meanings st.scope.aliases key with
    | nil =>
      refine ⟨_, rfl, fun s => ?_⟩
      rw [entryIn_append]
      split
      · next hkey =>
        rw [meanings_eq hkey] at hmeanings
        cases hentry : entryIn st.scope.aliases s with
        | none => rfl
        | some as =>
          rw [hentry] at hmeanings
          obtain rfl : as = [] := hmeanings
          rfl
      · rw [Option.or_none]
    | cons b bs =>
      refine ⟨_, rfl, fun s => ?_⟩
      refine (entryIn_map (a :: ·)).trans ?_
      split
      · next hkey =>
        rw [entryIn_of_meanings hkey hmeanings]
        rfl
      · rfl

theorem popAlias_cases (st : CompileState) :
    (∃ e, popAlias key st = .error e st) ∨
      ∃ ps, popAlias key st = .ok () { st with scope := { st.scope with aliases := ps } } ∧
        Popped key st.scope.aliases ps := by
  rcases aliasesOf_cases key st with ⟨e, he⟩ | hok
  · exact .inl ⟨e, bind_of_error he⟩
  · rw [popAlias, bind_of_ok hok]
    cases hmeanings : meanings st.scope.aliases key with
    | nil => exact .inl ⟨_, rfl⟩
    | cons a as =>
      cases as with
      | nil =>
        refine .inr ⟨_, rfl, fun s => ?_⟩
        split
        · next hkey =>
          refine ⟨a, [], entryIn_of_meanings hkey hmeanings, ?_⟩
          rw [entryIn_filter, if_pos hkey]
          rfl
        · next hkey => rw [entryIn_filter, if_neg hkey]
      | cons b bs =>
        refine .inr ⟨_, rfl, fun s => ?_⟩
        split
        · next hkey =>
          have hentry := entryIn_of_meanings hkey hmeanings
          refine ⟨a, b :: bs, hentry, (entryIn_map fun _ => b :: bs).trans ?_⟩
          rw [if_pos hkey, hentry]
          rfl
        · next hkey => exact (entryIn_map fun _ => b :: bs).trans (if_neg hkey)

theorem entryIn_markUsed (st : CompileState) (s : Symbol) :
    entryIn (finalState (markUsed key st)).scope.aliases s
      = if key.symbol? = some s then (entryIn st.scope.aliases s).map readTop
        else entryIn st.scope.aliases s := by
  refine Eq.trans (congrArg (entryIn · s) (map_congr_left ?_)) (entryIn_map readTop)
  rintro ⟨k, as⟩ -
  cases as with
  | nil => exact (ite_self _).symm
  | cons a as =>
    cases a
    case closure => rfl
    all_goals exact (ite_self _).symm

/-! ## Stacks that lie beneath others -/

/-- The number of scopes of a symbol that are open. -/
def Opened.height (o : Opened) (s : Symbol) : Nat := o.keys.countP fun key => key.symbol? = some s

theorem Opened.height_enter (o : Opened) (key : Value) (s : Symbol) :
    (o.enter key).height s = o.height s + if key.symbol? = some s then 1 else 0 :=
  Multiset.countP_cons _ _ _

/-- The entry from before lies beneath `n` other meanings. An entry without meanings stays so. -/
inductive EntryOver (n : Nat) : Option (List Alias) → Option (List Alias) → Prop where
  | spoilt : EntryOver n (some []) (some [])
  | live {before now : Option (List Alias)} (hbefore : before ≠ some []) (hnow : now ≠ some [])
    (hheight : n ≤ (now.getD []).length)
    (hsame : SameLater (before.getD []) ((now.getD []).drop n)) :
    EntryOver n before now

namespace EntryOver

variable {n : Nat} {before now : Option (List Alias)}

theorem refl (e : Option (List Alias)) : EntryOver 0 e e := by
  by_cases h : e = some []
  · rw [h]
    exact .spoilt
  · exact .live h h (Nat.zero_le _) (SameLater.refl _)

theorem push (h : EntryOver n before now) (a : Alias) : EntryOver (n + 1) before (onTop a now) := by
  cases h with
  | spoilt => exact .spoilt
  | live hbefore hnow hheight hsame =>
    cases now with
    | none => exact .live hbefore (by simp [onTop]) (Nat.succ_le_succ hheight) hsame
    | some as =>
      cases as with
      | nil => exact absurd rfl hnow
      | cons b bs => exact .live hbefore (by simp [onTop]) (Nat.succ_le_succ hheight) hsame

theorem pop {as : List Alias} (h : EntryOver (n + 1) before (some (a :: as))) :
    EntryOver n before (if as.isEmpty then none else some as) := by
  cases h with
  | live hbefore hnow hheight hsame =>
    cases as <;> exact .live hbefore (by simp) (Nat.le_of_succ_le_succ hheight) hsame

theorem read (h : EntryOver n before now) : EntryOver n before (now.map readTop) := by
  cases h with
  | spoilt => exact .spoilt
  | live hbefore hnow hheight hsame =>
    cases now with
    | none => exact .live hbefore hnow hheight hsame
    | some as =>
      have hlater := sameLater_readTop as
      refine .live hbefore ?_ (by simpa [← hlater.length_eq] using hheight) ?_
      · intro hnil
        refine hnow (congrArg some (eq_nil_of_length_eq_zero ?_))
        rw [hlater.length_eq, Option.some.inj hnil, length_nil]
      · exact hsame.trans (forall₂_drop n hlater)

/-- The stack from before is there, with others on top. -/
theorem exists_append (h : EntryOver n before now) :
    ∃ opened kept, now.getD [] = opened ++ kept ∧ SameLater (before.getD []) kept := by
  cases h with
  | spoilt => exact ⟨[], [], rfl, .nil⟩
  | live _ _ _ hsame => exact ⟨_, _, (take_append_drop n _).symm, hsame⟩

theorem same (h : EntryOver 0 before now) : SameLater (before.getD []) (now.getD []) := by
  cases h with
  | spoilt => exact .nil
  | live _ _ _ hsame => exact hsame

end EntryOver

/-- The list `base` lies beneath `n` other items. -/
def Beneath {α : Type} (n : Nat) (base now : List α) : Prop :=
  ∃ opened, opened.length = n ∧ now = opened ++ base

namespace Beneath

variable {α : Type} {n : Nat} {base now : List α}

theorem refl (base : List α) : Beneath 0 base base := ⟨[], rfl, rfl⟩

theorem push (h : Beneath n base now) (x : α) : Beneath (n + 1) base (x :: now) := by
  obtain ⟨opened, hlen, rfl⟩ := h
  exact ⟨x :: opened, congrArg (· + 1) hlen, rfl⟩

theorem exists_cons (h : Beneath (n + 1) base now) :
    ∃ x rest, now = x :: rest ∧ Beneath n base rest := by
  obtain ⟨opened, hlen, rfl⟩ := h
  cases opened with
  | nil => exact absurd hlen (Nat.succ_ne_zero n).symm
  | cons x opened => exact ⟨x, opened ++ base, rfl, opened, Nat.succ.inj hlen, rfl⟩

theorem eq (h : Beneath 0 base now) : now = base := by
  obtain ⟨opened, hlen, rfl⟩ := h
  rw [eq_nil_of_length_eq_zero hlen, nil_append]

theorem suffix (h : Beneath n base now) : base <:+ now := by
  obtain ⟨opened, -, rfl⟩ := h
  exact suffix_append opened base

end Beneath

/-- What there was in `base` lies beneath the scopes that are open. -/
structure Scope.Over (base : Scope) (o : Opened) (now : Scope) : Prop where
  entries : ∀ s, EntryOver (o.height s) (entryIn base.aliases s) (entryIn now.aliases s)
  recurs : Beneath o.recurs base.recurPoints now.recurPoints
  names : Beneath o.names (base.names.map (·.name)) (now.names.map (·.name))

namespace Scope.Over

variable {base now : Scope} {o : Opened} {key : Value} {ps : Meanings}

theorem refl (sc : Scope) : sc.Over {} sc where
  entries _ := EntryOver.refl _
  recurs := .refl _
  names := .refl _

theorem same (h : base.Over o now) {now' : Scope} (hsame : now.SameStacks now') :
    base.Over o now' where
  entries := by
    rw [hsame.aliases]
    exact h.entries
  recurs := by
    rw [hsame.recurPoints]
    exact h.recurs
  names := by
    rw [hsame.names]
    exact h.names

theorem enter (h : base.Over o now) (hps : Pushed key a now.aliases ps) :
    base.Over (o.enter key) { now with aliases := ps } where
  entries s := by
    rw [hps s, Opened.height_enter]
    split
    · exact (h.entries s).push a
    · exact h.entries s
  recurs := h.recurs
  names := h.names

theorem leave (h : base.Over (o.enter key) now) (hps : Popped key now.aliases ps) :
    base.Over o { now with aliases := ps } where
  entries s := by
    have hentry := h.entries s
    have hs := hps s
    rw [Opened.height_enter] at hentry
    split at hs
    · next hkey =>
      obtain ⟨a, as, hnow, hthen⟩ := hs
      rw [if_pos hkey, hnow] at hentry
      rw [hthen]
      exact hentry.pop
    · next hkey =>
      rw [if_neg hkey] at hentry
      rw [hs]
      exact hentry
  recurs := h.recurs
  names := h.names

end Scope.Over

/-! ## The discipline -/

instance {base : Scope} {o : Opened} : Indifferent fun st => base.Over o st.scope where
  session _ h := h
  scope hsame h := h.same hsame

instance {base : Scope} : Indifferent fun st => ∃ o, base.Over o st.scope where
  session _ h := h
  scope hsame h := h.imp fun _ h => h.same hsame

theorem tracks_pushAlias (base : Scope) (o : Opened) (key : Value) (a : Alias) :
    Tracks (fun st => base.Over o st.scope) (pushAlias key a) (pushAlias key a)
      (fun _ st => base.Over (o.enter key) st.scope) fun st => ∃ o, base.Over o st.scope := by
  intro st h
  rcases pushAlias_cases key a st with ⟨e, he⟩ | ⟨ps, hok, hps⟩
  · rw [he]
    exact ⟨rfl, o, h⟩
  · rw [hok]
    exact ⟨rfl, h.enter hps⟩

theorem tracks_popAlias (base : Scope) (o : Opened) (key : Value) :
    Tracks (fun st => base.Over (o.enter key) st.scope) (popAlias key) (popAlias key)
      (fun _ st => base.Over o st.scope) fun st => ∃ o, base.Over o st.scope := by
  intro st h
  rcases popAlias_cases key st with ⟨e, he⟩ | ⟨ps, hok, hps⟩
  · rw [he]
    exact ⟨rfl, _, h⟩
  · rw [hok]
    exact ⟨rfl, h.leave hps⟩

theorem keeps_newLocal {I : CompileState → Prop} [Indifferent I] (name : String) :
    Keeps I (Special.newLocal key name) := by
  refine .bind (keeps_getAlias? key) fun a => ?_
  extract_lets named
  have hnamed (stem : String) : Keeps I (named stem) := .bind keeps_nextId fun _ => .pure _
  split
  · exact .bind keeps_nextId fun _ => .bind (.pure _) hnamed
  · exact .bind (.pure _) hnamed

/-- What there was when a form began lies beneath the scopes that are open, also after a failure. -/
def balance : Discipline Scope where
  Holds base o st := base.Over o st.scope
  Left base st := ∃ o, base.Over o st.scope
  left h := ⟨_, h⟩
  indifferent _ _ := inferInstance
  indifferent_left _ := inferInstance
  fresh base o name info :=
    .bind (.of_agree (keeps_newLocal _ _) fun _ h => ⟨_, h⟩) fun a =>
      .bind (tracks_pushAlias base o _ a) fun _ => .pure fun _ h => h
  push base o key a _ := tracks_pushAlias base o key a
  pop := tracks_popAlias
  mark base o key := .keeps fun st h => {
    entries := fun s => by
      rw [entryIn_markUsed]
      split
      · exact (h.entries s).read
      · exact h.entries s
    recurs := h.recurs
    names := h.names }
  pushRecur base o p := .modified fun st h => {
    entries := h.entries
    recurs := h.recurs.push p
    names := h.names }
  popRecur base o := by
    intro st h
    obtain ⟨p, rest, hnow, hrest⟩ := h.recurs.exists_cons
    have hscope : scope st = .ok st.scope st := rfl
    rw [popRecur, bind_of_ok hscope, hnow]
    exact ⟨rfl, h.entries, hrest, h.names⟩
  pushName base o name := .modified fun st h => {
    entries := h.entries
    recurs := h.recurs
    names := h.names.push name }
  popName base o := by
    intro st h
    obtain ⟨name, rest, hnow, hrest⟩ := h.names.exists_cons
    obtain ⟨slot, slots, hnames, -, rfl⟩ := map_eq_cons_iff.mp hnow
    have hscope : scope st = .ok st.scope st := rfl
    rw [popName, bind_of_ok hscope, hnames]
    exact ⟨rfl, h.entries, h.recurs, hrest⟩
  -- another compiler works in a scope of its own, which is thrown away
  aside {base o st inner} h _ := ⟨inner, .refl inner, fun _ _ => h⟩

/-! ## Forms that compile -/

/-- The scopes are those from before: every symbol has its meanings, and the points to recur to and
the functions around are the same. -/
structure Scope.Restored (before after : Scope) : Prop where
  meanings : ∀ s, SameLater (before.stack s) (after.stack s)
  recurPoints : after.recurPoints = before.recurPoints
  names : after.names.map (·.name) = before.names.map (·.name)

theorem Scope.Over.restored (h : before.Over {} after) : before.Restored after where
  meanings s := by
    rw [Scope.stack_eq, Scope.stack_eq]
    exact (h.entries s).same
  recurPoints := h.recurs.eq
  names := h.names.eq

namespace CompileM

variable {depth : Nat} {v : Value} {st st' : CompileState}
  {r : EStateM.Result Error CompileState Instrs}

/-- A form that compiles closes every scope it opens. -/
theorem restored_of_compileAt {code : Instrs} (h : compileAt depth v st = .ok code st') :
    st.scope.Restored st'.scope := by
  have hend := (balance.matched_compileAt depth st.scope {} v st (.refl _)).2
  rw [h] at hend
  exact Scope.Over.restored hend

/-- Inside a function `f` that shares the variable `x`. -/
def sharingState : CompileState :=
  { session := {}
    scope := { ns := .module "clojure.lang.ref"
               aliases := [(.sym "x", [.closure 0 (.sym "x") "x" false])]
               recurPoints := [{ label := { id := 0, name := "recurLabel" }, stores := [] }]
               names := [{ name := "f" }] } }

/-- The form `(let* [x x] (loop* [y x] y))`. -/
def shadowingForm : Value :=
  .steppingListOf [.sym "let*", .vectorOf [.sym "x", .sym "x"],
    .steppingListOf [.sym "loop*", .vectorOf [.sym "y", .sym "x"], .sym "y"]]

/-- Whether a form fails to compile. -/
def isRefused (r : EStateM.Result Error CompileState Instrs) : Bool :=
  match r with
  | .ok _ _ => false
  | .error _ _ => true

theorem exists_of_isRefused (h : isRefused r = true) : ∃ e, r = .error e (finalState r) := by
  cases r with
  | ok code st => cases h
  | error e st => exact ⟨e, rfl⟩

theorem exists_of_isRefused_eq_false
    (h : isRefused r = false) : ∃ code, r = .ok code (finalState r) := by
  cases r with
  | ok code st => exact ⟨code, rfl⟩
  | error e st => cases h

/-- The variable `x` is in scope again, and it has been read. -/
theorem restored_of_compileAt_shadowingForm :
    ∃ code st', compileAt 6 shadowingForm sharingState = .ok code st' ∧
      sharingState.scope.Restored st'.scope := by
  obtain ⟨code, hcode⟩ := exists_of_isRefused_eq_false
    (r := compileAt 6 shadowingForm sharingState) (by decide +kernel)
  exact ⟨code, _, hcode, restored_of_compileAt hcode⟩

end CompileM

/-! ## Forms that fail -/

/-- What there was is there, beneath whatever was left open. -/
structure Scope.LeftOpen (before after : Scope) : Prop where
  meanings : ∀ s, ∃ opened kept, after.stack s = opened ++ kept ∧ SameLater (before.stack s) kept
  recurPoints : before.recurPoints <:+ after.recurPoints
  names : before.names.map (·.name) <:+ after.names.map (·.name)

/-- As many scopes are open as before. -/
structure Scope.SameHeights (before after : Scope) : Prop where
  meanings : ∀ s, (after.stack s).length = (before.stack s).length
  recurPoints : after.recurPoints.length = before.recurPoints.length
  names : after.names.length = before.names.length

theorem Scope.Over.leftOpen {o : Opened} (h : before.Over o after) : before.LeftOpen after where
  meanings s := by
    rw [Scope.stack_eq, Scope.stack_eq]
    exact (h.entries s).exists_append
  recurPoints := h.recurs.suffix
  names := h.names.suffix

theorem Scope.Restored.sameHeights (h : before.Restored after) : before.SameHeights after where
  meanings s := (h.meanings s).length_eq.symm
  recurPoints := congrArg List.length h.recurPoints
  names := by simpa using congrArg List.length h.names

theorem Scope.LeftOpen.restored (h : before.LeftOpen after) (hheights : before.SameHeights after) :
    before.Restored after where
  meanings s := by
    obtain ⟨opened, kept, happ, hsame⟩ := h.meanings s
    have hlen := hheights.meanings s
    rw [happ, length_append, hsame.length_eq, Nat.add_eq_right] at hlen
    rw [happ, eq_nil_of_length_eq_zero hlen, nil_append]
    exact hsame
  recurPoints := (h.recurPoints.eq_of_length hheights.recurPoints.symm).symm
  names := (h.names.eq_of_length (by simpa using hheights.names.symm)).symm

namespace CompileM

variable {depth : Nat} {v : Value} {st st' : CompileState}

/-- A form that fails takes nothing away, but may leave open what it has opened. The scopes are
those from before if and only if it has left none open. -/
theorem leftOpen_of_compileAt {e : Error} (h : compileAt depth v st = .error e st') :
    st.scope.LeftOpen st'.scope ∧
      (st.scope.Restored st'.scope ↔ st.scope.SameHeights st'.scope) := by
  have hend := (balance.matched_compileAt depth st.scope {} v st (.refl _)).2
  rw [h] at hend
  obtain ⟨o, hover⟩ := hend
  have hleft := Scope.Over.leftOpen hover
  exact ⟨hleft, fun hres => hres.sameHeights, hleft.restored⟩

/-- The form `(let* [x 1] y)`. -/
def danglingForm : Value := .steppingListOf [.sym "let*", .vectorOf [.sym "x", .int 1], .sym "y"]

/-- A compiler without local names. -/
def bareState : CompileState := { session := {}, scope := { ns := .module "clojure.lang.ref" } }

/-- After the failure for want of a `y` the name `x` has a meaning that it did not have. -/
theorem leftOpen_of_compileAt_danglingForm :
    ∃ e st', compileAt 4 danglingForm bareState = .error e st' ∧
      (bareState.scope.LeftOpen st'.scope ∧
        (bareState.scope.Restored st'.scope ↔ bareState.scope.SameHeights st'.scope)) ∧
      isRefused (compileAt 4 (.sym "x") bareState) = true ∧
      isRefused (compileAt 4 (.sym "x") st') = false := by
  obtain ⟨e, he⟩ := exists_of_isRefused (r := compileAt 4 danglingForm bareState)
    (by decide +kernel)
  exact ⟨e, _, he, leftOpen_of_compileAt he, by decide +kernel, by decide +kernel⟩

end CompileM

end HostedLisp
