import HostedLisp.Proofs.Compiler.Forms
import HostedLisp.Proofs.Compiler.Slots
import Mathlib.Data.List.Flatten

/-!
# The local names in scope

The names of local variables do not always tell them apart: in `(try 1 (catch Ref a2 (let* [a 5]
a2)))` the variable of the handler is called `a2`, and so is that of `a`, which gets the number 2.

- `Scope.locals`: the variables in scope, those that are shadowed included.
- `Sound`: what is kept up about the local names. Each symbol has one entry; each variable is called
  by a number that has been given out; no two variables overwrite each other unless their names are
  confusable.
- `Tidy`: the same of the compiler, with a bound from below on the numbers given out.
- `CompileM.keeps_pushAlias`, `CompileM.keeps_popAlias`, `CompileM.keeps_bindFresh`: entering and
  leaving the scope of a name.
- `soundness`: soundness as a discipline of scopes.
- `CompileM.agree_compileWith`: compilers that agree on the forms inside agree on every form.
- `CompileM.compileWatched`: compiling, with a look at the variables in scope before each form.
- `CompileM.Reached`: the states that a compiler gets into by compiling forms.
- `CompileM.compileWatched_eq`: the look never finds two variables that overwrite each other, unless
  the names of their symbols are confusable.
-/

namespace HostedLisp

open List Machine

/-! ## Variables in scope -/

/-- The variables among the meanings of a local name. Only symbols stand for variables. -/
def localsOf (key : Value) (as : List Alias) : List Local :=
  match key.symbol? with
  | some s => (as.filter fun a => a.slot?.isSome).map (Local.mk s)
  | none => []

/-- The variables among the meanings of local names. -/
def localsIn (ps : Meanings) : List Local := ps.flatMap fun p => localsOf p.1 p.2

/-- The variables in scope, those that are shadowed included. -/
def Scope.locals (s : Scope) : List Local := localsIn s.aliases

/-- No two variables in scope overwrite each other, unless their names are confusable. -/
def Scope.KeptApart (s : Scope) : Prop := s.locals.Pairwise Local.Apart

instance (s : Scope) : Decidable s.KeptApart := inferInstanceAs (Decidable (List.Pairwise _ _))

theorem localsOf_of_none {key : Value} (h : key.symbol? = none) (as : List Alias) :
    localsOf key as = [] := by
  rw [localsOf, h]

variable {s : Symbol} {p : Value × List Alias}

theorem localsOf_of_some {key : Value} (h : key.symbol? = some s) (as : List Alias) :
    localsOf key as = (as.filter fun a => a.slot?.isSome).map (Local.mk s) := by
  rw [localsOf, h]

theorem localsOf_cons (key : Value) (a : Alias) (as : List Alias) :
    localsOf key (a :: as) = localsOf key [a] ++ localsOf key as := by
  cases h : key.symbol? with
  | none => rw [localsOf_of_none h, localsOf_of_none h, localsOf_of_none h, nil_append]
  | some s =>
    rw [localsOf_of_some h, localsOf_of_some h, localsOf_of_some h, ← map_append,
      ← filter_append, singleton_append]

theorem localsOf_cons_of_none {a : Alias} (ha : a.slot? = none) (key : Value) (as : List Alias) :
    localsOf key (a :: as) = localsOf key as := by
  cases h : key.symbol? with
  | none => rw [localsOf_of_none h, localsOf_of_none h]
  | some s =>
    rw [localsOf_of_some h, localsOf_of_some h, filter_cons_of_neg]
    rw [ha]
    exact Bool.false_ne_true

/-- Equal keys stand for the same variables. -/
theorem localsOf_congr {k key : Value} (h : k.eqB key = true) (as : List Alias) :
    localsOf k as = localsOf key as := by
  cases hkey : key.symbol? with
  | none =>
    cases hk : k.symbol? with
    | none => rw [localsOf_of_none hk, localsOf_of_none hkey]
    | some s => exact absurd h (by rw [Value.eqB_of_symbol? hk hkey]; exact Bool.false_ne_true)
  | some s => rw [localsOf_of_some ((Value.eqB_eq_true_iff hkey).mp h), localsOf_of_some hkey]

theorem localsIn_cons (p : Value × List Alias) (ps : Meanings) :
    localsIn (p :: ps) = localsOf p.1 p.2 ++ localsIn ps := flatMap_cons

/-- The symbols among the keys. -/
def symbolsIn (ps : Meanings) : List Symbol := ps.filterMap fun p => p.1.symbol?

theorem mem_symbolsIn {ps : Meanings} (hp : p ∈ ps)
    (hs : p.1.symbol? = some s) : s ∈ symbolsIn ps := mem_filterMap.mpr ⟨p, hp, hs⟩

/-- What holds of the local names all the time: `last` is the last number given out. -/
structure Sound (ps : Meanings) (last : Nat) : Prop where
  symbols : (symbolsIn ps).Nodup
  nonempty : ∀ p ∈ ps, p.2 ≠ []
  numbered : ∀ l ∈ localsIn ps, ∃ n ≤ last, l.Numbered n
  apart : (localsIn ps).Pairwise Local.Apart

namespace Sound

variable {ps ps' : Meanings} {last last' : Nat} {key : Value} {a : Alias}

theorem nil (last : Nat) : Sound [] last where
  symbols := nodup_nil
  nonempty := fun _ hp => absurd hp not_mem_nil
  numbered := fun _ hl => absurd hl not_mem_nil
  apart := .nil

theorem mono (h : Sound ps last) (hle : last ≤ last') : Sound ps last' where
  symbols := h.symbols
  nonempty := h.nonempty
  numbered := fun l hl =>
    let ⟨n, hn, hnum⟩ := h.numbered l hl
    ⟨n, Nat.le_trans hn hle, hnum⟩
  apart := h.apart

/-- A variable of a new number is kept apart from all others. -/
theorem apart_of_lt (h : Sound ps last) {l : Local} {n : Nat} (hl : l.Numbered n) (hn : last < n) :
    ∀ l' ∈ localsIn ps, l.Apart l' := by
  intro l' hl'
  obtain ⟨m, hm, hnum⟩ := h.numbered l' hl'
  exact hl.apart hnum (by omega)

theorem shrink (h : Sound ps last) (hsymbols : (symbolsIn ps').Sublist (symbolsIn ps))
    (hne : ∀ p ∈ ps', p.2 ≠ []) (hlocals : (localsIn ps').Sublist (localsIn ps)) :
    Sound ps' last where
  symbols := h.symbols.sublist hsymbols
  nonempty := hne
  numbered := fun l hl => h.numbered l (hlocals.subset hl)
  apart := h.apart.sublist hlocals

/-- Enter the scope of a name. -/
theorem grow (h : Sound ps last) (hle : last ≤ last') (hsymbols : (symbolsIn ps').Nodup)
    (hne : ∀ p ∈ ps', p.2 ≠ []) (hlocals : (localsIn ps').Perm (localsOf key [a] ++ localsIn ps))
    (hnum : ∀ l ∈ localsOf key [a], ∃ n ≤ last', l.Numbered n)
    (hapart : ∀ l ∈ localsOf key [a], ∀ l' ∈ localsIn ps, l.Apart l') : Sound ps' last' where
  symbols := hsymbols
  nonempty := hne
  numbered := by
    intro l hl
    rcases mem_append.mp (hlocals.subset hl) with hl | hl
    · exact hnum l hl
    · exact (h.mono hle).numbered l hl
  apart := by
    refine List.Pairwise.perm (pairwise_append.mpr ⟨?_, h.apart, hapart⟩) hlocals.symm .symm
    cases hkey : key.symbol? with
    | none => rw [localsOf_of_none hkey]; exact .nil
    | some s =>
      rw [localsOf_of_some hkey]
      exact List.Pairwise.sublist (filter_sublist.map _) (pairwise_singleton _ _)

end Sound

/-! ## Changes of the meanings -/

section Changes

variable {ps : Meanings} {key : Value} {a : Alias}

variable {f : Value × List Alias → Value × List Alias}

theorem symbolsIn_map (hf : ∀ p, (f p).1 = p.1) : symbolsIn (ps.map f) = symbolsIn ps := by
  rw [symbolsIn, filterMap_map]
  exact congrArg (ps.filterMap ·) (funext fun p => by rw [Function.comp_apply, hf])

theorem localsIn_map_sublist
    (hf : ∀ p ∈ ps, (localsOf (f p).1 (f p).2).Sublist (localsOf p.1 p.2)) :
    (localsIn (ps.map f)).Sublist (localsIn ps) := by
  rw [localsIn, flatMap_map]
  exact .flatMap_right ps hf

/-- A symbol has one entry. -/
theorem not_mem_symbolsIn
    (hsymbols : (symbolsIn (p :: ps)).Nodup) (hs : p.1.symbol? = some s) : s ∉ symbolsIn ps := by
  simp only [symbolsIn, filterMap_cons, hs, nodup_cons] at hsymbols
  exact hsymbols.1

theorem symbolsIn_nodup_tail (hsymbols : (symbolsIn (p :: ps)).Nodup) :
    (symbolsIn ps).Nodup := hsymbols.sublist ((sublist_cons_self p ps).filterMap _)

theorem eq_of_nodup {p q : Value × List Alias} (hsymbols : (symbolsIn ps).Nodup)
    (hp : p ∈ ps) (hq : q ∈ ps) (hps : p.1.symbol? = some s) (hqs : q.1.symbol? = some s) :
    p = q := by
  induction ps with
  | nil => exact absurd hp not_mem_nil
  | cons r ps ih =>
    rw [mem_cons] at hp hq
    rcases hp with rfl | hp
    · rcases hq with rfl | hq
      · rfl
      · exact absurd (mem_symbolsIn hq hqs) (not_mem_symbolsIn hsymbols hps)
    · rcases hq with rfl | hq
      · exact absurd (mem_symbolsIn hp hps) (not_mem_symbolsIn hsymbols hqs)
      · exact ih (symbolsIn_nodup_tail hsymbols) hp hq

/-- A new meaning of a name is a new variable of it, or none. -/
theorem localsIn_map_push (hyes : ∀ p, p.1.eqB key = true → f p = (p.1, a :: p.2))
    (hno : ∀ p, p.1.eqB key = false → f p = p) (hsymbols : (symbolsIn ps).Nodup)
    (hfound : ∃ p ∈ ps, p.1.eqB key = true) :
    (localsIn (ps.map f)).Perm (localsOf key [a] ++ localsIn ps) := by
  cases hkey : key.symbol? with
  | none =>
    rw [localsOf_of_none hkey, nil_append]
    refine .of_eq ?_
    rw [localsIn, flatMap_map]
    refine congrArg (ps.flatMap ·) (funext fun p => ?_)
    cases hp : p.1.eqB key with
    | true =>
      rw [hyes p hp, localsOf_congr hp, localsOf_congr hp, localsOf_of_none hkey,
        localsOf_of_none hkey]
    | false => rw [hno p hp]
  | some s =>
    -- a symbol has one entry: behind it nothing changes, before it the induction goes on
    induction ps with
    | nil =>
      obtain ⟨p, hp, -⟩ := hfound
      exact absurd hp not_mem_nil
    | cons p ps ih =>
      rw [map_cons, localsIn_cons, localsIn_cons]
      cases hp : p.1.eqB key with
      | true =>
        have hs := (Value.eqB_eq_true_iff hkey).mp hp
        have hrest : ps.map f = ps := by
          refine (map_congr_left fun q hq => hno q ?_).trans (map_id ps)
          refine Bool.eq_false_iff.mpr fun hqkey => not_mem_symbolsIn hsymbols hs ?_
          exact mem_symbolsIn hq ((Value.eqB_eq_true_iff hkey).mp hqkey)
        rw [hyes p hp, hrest, localsOf_cons, localsOf_congr hp [a], append_assoc]
      | false =>
        obtain ⟨q, hq, hqkey⟩ := hfound
        have hqps : q ∈ ps := by
          rcases mem_cons.mp hq with rfl | hq
          · exact absurd hqkey (by rw [hp]; exact Bool.false_ne_true)
          · exact hq
        have hperm := ih (symbolsIn_nodup_tail hsymbols) ⟨q, hqps, hqkey⟩
        rw [hno p hp]
        exact (hperm.append_left _).trans (perm_append_comm_assoc _ _ _)

end Changes

namespace Sound

variable {ps : Meanings} {last last' : Nat} {key : Value} {a : Alias}

section

variable (h : Sound ps last)

include h

/-- The first meaning of a name. -/
theorem append (hle : last ≤ last') (hnew : ∀ p ∈ ps, p.1.eqB key = false)
    (hnum : ∀ l ∈ localsOf key [a], ∃ n ≤ last', l.Numbered n)
    (hapart : ∀ l ∈ localsOf key [a], ∀ l' ∈ localsIn ps, l.Apart l') :
    Sound (ps ++ [(key, [a])]) last' := by
  refine h.grow hle ?_ ?_ ?_ hnum hapart
  · rw [symbolsIn, filterMap_append]
    cases hkey : key.symbol? with
    | none =>
      simp only [filterMap_cons, hkey, filterMap_nil, append_nil]
      exact h.symbols
    | some s =>
      simp only [filterMap_cons, hkey, filterMap_nil]
      refine nodup_append.mpr ⟨h.symbols, pairwise_singleton _ s, ?_⟩
      rintro t ht _ hs rfl
      obtain rfl := mem_singleton.mp hs
      obtain ⟨p, hp, hps⟩ := mem_filterMap.mp ht
      exact absurd ((Value.eqB_eq_true_iff hkey).mpr hps)
        (by rw [hnew p hp]; exact Bool.false_ne_true)
  · intro p hp
    rcases mem_append.mp hp with hp | hp
    · exact h.nonempty p hp
    · rw [mem_singleton.mp hp]
      exact cons_ne_nil _ _
  · rw [localsIn, flatMap_append, flatMap_singleton]
    exact perm_append_comm

variable {f : Value × List Alias → Value × List Alias}

/-- A meaning on top of others. -/
theorem push (hle : last ≤ last') (hyes : ∀ p, p.1.eqB key = true → f p = (p.1, a :: p.2))
    (hno : ∀ p, p.1.eqB key = false → f p = p) (hfound : ∃ p ∈ ps, p.1.eqB key = true)
    (hnum : ∀ l ∈ localsOf key [a], ∃ n ≤ last', l.Numbered n)
    (hapart : ∀ l ∈ localsOf key [a], ∀ l' ∈ localsIn ps, l.Apart l') : Sound (ps.map f) last' := by
  have hkeys : ∀ p, (f p).1 = p.1 := by
    intro p
    cases hp : p.1.eqB key with
    | true => rw [hyes p hp]
    | false => rw [hno p hp]
  refine h.grow hle ?_ ?_ (localsIn_map_push hyes hno h.symbols hfound) hnum hapart
  · rw [symbolsIn_map hkeys]
    exact h.symbols
  · intro q hq
    obtain ⟨p, hp, rfl⟩ := mem_map.mp hq
    cases hpk : p.1.eqB key with
    | true => rw [hyes p hpk]; exact cons_ne_nil _ _
    | false => rw [hno p hpk]; exact h.nonempty p hp

/-- Changes that keep the keys and bring no variables. -/
theorem remap (hkeys : ∀ p, (f p).1 = p.1) (hne : ∀ p ∈ ps, (f p).2 ≠ [])
    (hlocals : ∀ p ∈ ps, (localsOf (f p).1 (f p).2).Sublist (localsOf p.1 p.2)) :
    Sound (ps.map f) last := by
  refine h.shrink ?_ ?_ (localsIn_map_sublist hlocals)
  · simp only [symbolsIn_map hkeys, List.Sublist.refl]
  · intro q hq
    obtain ⟨p, hp, rfl⟩ := mem_map.mp hq
    exact hne p hp

/-- Take the only meaning off a name. -/
theorem filter (keep : Value × List Alias → Bool) : Sound (ps.filter keep) last := by
  have hsub : (ps.filter keep).Sublist ps := filter_sublist
  exact h.shrink (hsub.filterMap _) (fun p hp => h.nonempty p (hsub.subset hp)) (hsub.flatMap _)

/-- Take the innermost of several meanings off a name. -/
theorem pop {k : Value} {rest : List Alias}
    (hyes : ∀ p, p.1.eqB key = true → f p = (p.1, rest)) (hno : ∀ p, p.1.eqB key = false → f p = p)
    (hfound : ps.find? (fun p => p.1.eqB key) = some (k, a :: rest)) (hrest : rest ≠ []) :
    Sound (ps.map f) last := by
  refine h.remap ?_ ?_ ?_
  · intro p
    cases hp : p.1.eqB key with
    | true => rw [hyes p hp]
    | false => rw [hno p hp]
  · intro p hp
    cases hpk : p.1.eqB key with
    | true => rw [hyes p hpk]; exact hrest
    | false => rw [hno p hpk]; exact h.nonempty p hp
  · intro p hp
    cases hpk : p.1.eqB key with
    | false => simp only [hno p hpk, List.Sublist.refl]
    | true =>
      -- the entry is the one that was found, so its meanings are `rest` and one more
      rw [hyes p hpk]
      cases hkey : key.symbol? with
      | none =>
        rw [localsOf_congr hpk, localsOf_of_none hkey]
        exact nil_sublist _
      | some s =>
        obtain rfl := eq_of_nodup h.symbols hp (mem_of_find?_eq_some hfound)
          ((Value.eqB_eq_true_iff hkey).mp hpk) ((Value.eqB_eq_true_iff hkey).mp (find?_key hfound))
        rw [localsOf_cons]
        exact sublist_append_right _ _

end

end Sound

/-! ## The compiler -/

/-- The local names are sound, and the numbers up to `n` have been given out. -/
structure Tidy (n : Nat) (st : CompileState) : Prop where
  counts : SessionM.CountsFrom n st.session
  sound : Sound st.scope.aliases st.session.lastId

instance {n : Nat} : Indifferent (Tidy n) where
  session hle h := ⟨Nat.le_trans h.counts hle.1, h.sound.mono hle.1⟩
  scope hsame h := ⟨h.counts, by rw [hsame.aliases]; exact h.sound⟩

namespace CompileM

variable {n : Nat}

/-! ### Local names -/

variable {key : Value} {a : Alias}

/-- A name that has no meaning has no entry. -/
theorem eqB_of_meanings_nil {ps : Meanings} {last : Nat} (h : Sound ps last)
    (hnil : meanings ps key = []) : ∀ p ∈ ps, p.1.eqB key = false := by
  intro p hp
  cases hfind : ps.find? (fun p => p.1.eqB key) with
  | none => exact Bool.eq_false_iff.mpr (find?_eq_none.mp hfind p hp)
  | some q =>
    rw [meanings, hfind] at hnil
    exact absurd hnil (h.nonempty q (mem_of_find?_eq_some hfind))

/-- Giving a name another meaning: a new variable has to be numbered and kept apart. -/
theorem tidy_pushAlias {st : CompileState} {last : Nat} (hcounts : SessionM.CountsFrom n st.session)
    (h : Sound st.scope.aliases last) (hle : last ≤ st.session.lastId)
    (hnum : ∀ l ∈ localsOf key [a], ∃ n ≤ st.session.lastId, l.Numbered n)
    (hapart : ∀ l ∈ localsOf key [a], ∀ l' ∈ localsIn st.scope.aliases, l.Apart l') :
    Tidy n (finalState (pushAlias key a st)) := by
  rcases aliasesOf_cases key st with ⟨e, he⟩ | hok
  · rw [pushAlias, bind_of_error he]
    exact ⟨hcounts, h.mono hle⟩
  · rw [pushAlias, bind_of_ok hok]
    cases hmeanings : meanings st.scope.aliases key with
    | nil => exact ⟨hcounts, h.append hle (eqB_of_meanings_nil h hmeanings) hnum hapart⟩
    | cons b bs =>
      obtain ⟨k, hfind⟩ := find?_of_meanings hmeanings
      refine ⟨hcounts, h.push hle ?_ ?_ ⟨_, mem_of_find?_eq_some hfind, find?_key hfind⟩ hnum
        hapart⟩
      · exact fun p hp => if_pos hp
      · exact fun p hp => if_neg (Bool.eq_false_iff.mp hp)

/-- Arguments can be told from all numbered variables, and what is no variable at all brings
none. -/
theorem keeps_pushAlias (hnew : ∀ l ∈ localsOf key [a], ∀ m, l.Numbered m) :
    Keeps (Tidy n) (pushAlias key a) := by
  refine .keeps fun st h => ?_
  exact tidy_pushAlias h.counts h.sound (Nat.le_refl _)
    (fun l hl => ⟨0, Nat.zero_le _, hnew l hl 0⟩)
    fun l hl => h.sound.apart_of_lt (hnew l hl _) (Nat.lt_succ_self _)

theorem keeps_pushArgument (hkey : ∀ t, key.symbol? = some t → t = s) :
    Keeps (Tidy n) (pushAlias key (.argument s.name)) := by
  refine keeps_pushAlias fun l hl m => ?_
  cases hsym : key.symbol? with
  | none =>
    rw [localsOf_of_none hsym] at hl
    exact absurd hl not_mem_nil
  | some t =>
    obtain rfl := hkey t hsym
    rw [localsOf_of_some hsym] at hl
    obtain rfl := mem_singleton.mp hl
    exact .kept t m

theorem keeps_pushOther (ha : a.slot? = none) : Keeps (Tidy n) (pushAlias key a) := by
  refine keeps_pushAlias fun l hl => ?_
  rw [localsOf_cons_of_none ha] at hl
  cases hsym : key.symbol? with
  | none => exact absurd hl (by rw [localsOf_of_none hsym]; exact not_mem_nil)
  | some t => exact absurd hl (by rw [localsOf_of_some hsym]; exact not_mem_nil)

theorem keeps_popAlias (key : Value) : Keeps (Tidy n) (popAlias key) := by
  refine .keeps fun st h => ?_
  rcases aliasesOf_cases key st with ⟨e, he⟩ | hok
  · rw [popAlias, bind_of_error he]
    exact h
  · rw [popAlias, bind_of_ok hok]
    cases hmeanings : meanings st.scope.aliases key with
    | nil => exact h
    | cons a as =>
      cases as with
      | nil => exact ⟨h.counts, h.sound.filter _⟩
      | cons b bs =>
        obtain ⟨k, hfind⟩ := find?_of_meanings hmeanings
        refine ⟨h.counts, h.sound.pop ?_ ?_ hfind (cons_ne_nil b bs)⟩
        · exact fun p hp => if_pos hp
        · exact fun p hp => if_neg (Bool.eq_false_iff.mp hp)

/-- A shared variable is no variable of the machine, used or not. -/
theorem keeps_markUsed (key : Value) : Keeps (Tidy n) (markUsed key) := by
  refine .modified fun st h => ⟨h.counts, h.sound.remap ?_ ?_ ?_⟩
  · rintro ⟨k, as⟩
    dsimp only
    split
    · split <;> rfl
    · rfl
  · rintro ⟨k, as⟩ hp
    dsimp only
    split
    · split
      · exact cons_ne_nil _ _
      · exact h.sound.nonempty _ hp
    · exact h.sound.nonempty _ hp
  · rintro ⟨k, as⟩ hp
    dsimp only
    split
    · split
      · rw [localsOf_cons_of_none rfl, localsOf_cons_of_none rfl]
      · exact .refl _
    · exact .refl _

/-! ### New variables -/

/-- A new variable takes its number from the counter. -/
theorem newLocal_cases (name : String) (info : Value) (st : CompileState) :
    (∃ e, Special.newLocal (.symbol (.plain name) info) name st = .error e st) ∨
      ∃ a st', Special.newLocal (.symbol (.plain name) info) name st = .ok a st' ∧
        st'.scope = st.scope ∧ st.session.lastId < st'.session.lastId ∧
        Local.Numbered ⟨.plain name, a⟩ st'.session.lastId := by
  rcases aliasesOf_cases (.symbol (.plain name) info) st with ⟨e, he⟩ | hok
  · exact .inl ⟨e, bind_of_error (bind_of_error he)⟩
  · have hget : getAlias? (.symbol (.plain name) info) st
        = .ok (meanings st.scope.aliases (.symbol (.plain name) info)).head? st :=
      (bind_of_ok hok).trans rfl
    refine .inr ?_
    rw [Special.newLocal, bind_of_ok hget]
    cases (meanings st.scope.aliases (.symbol (.plain name) info)).head? with
    | none =>
      exact ⟨_, _, rfl, rfl, Nat.lt_succ_self _, Local.numbered_fresh name (Nat.succ_pos _)⟩
    | some b =>
      exact ⟨_, _, rfl, rfl, Nat.lt_succ_of_lt (Nat.lt_succ_self _),
        Local.numbered_shadowing name (Nat.succ_pos _)⟩

theorem keeps_bindFresh (name : String) (info : Value) :
    Keeps (Tidy n) (bindFresh (.symbol (.plain name) info) name) := by
  refine .keeps fun st h => ?_
  rcases newLocal_cases name info st with ⟨e, he⟩ | ⟨a, st', hnew, hscope, hlast, hnum⟩
  · rw [bindFresh, bind_of_error he]
    exact h
  · have hle := Nat.le_of_lt hlast
    have hlocal : ∀ l ∈ localsOf (.symbol (.plain name) info) [a], l = ⟨.plain name, a⟩ := by
      intro l hl
      exact mem_singleton.mp ((filter_sublist.map _).subset hl)
    have hsound : Sound st'.scope.aliases st.session.lastId := hscope ▸ h.sound
    rw [bindFresh, bind_of_ok hnew, finalState_bind_pure]
    exact tidy_pushAlias (Nat.le_trans h.counts hle) hsound hle
      (fun l hl => ⟨_, Nat.le_refl _, hlocal l hl ▸ hnum⟩)
      (fun l hl => hsound.apart_of_lt (hlocal l hl ▸ hnum) hlast)

theorem keeps_pushSuited (ha : a.Suits key) : Keeps (Tidy n) (pushAlias key a) := by
  cases ha with
  | argument s info => exact keeps_pushArgument fun t ht => (Option.some.inj ht).symm
  | nameless hkey name =>
    have hsym : key.symbol? = none := by
      cases hv : key
      case symbol s info => exact absurd hv (hkey s info)
      all_goals rfl
    refine keeps_pushAlias fun l hl => ?_
    exact absurd hl (by rw [localsOf_of_none hsym]; exact not_mem_nil)
  | shared | expansion => exact keeps_pushOther rfl

end CompileM

/-! ## The discipline -/

open CompileM

/-- The local names are sound at all times, whatever is open, also after a failure. -/
def soundness : Discipline Nat where
  Holds n _ := Tidy n
  Left := Tidy
  left h := h
  indifferent _ _ := inferInstance
  indifferent_left _ := inferInstance
  fresh _ _ name info := (keeps_bindFresh name info).tracks
  push _ _ _ _ ha := (keeps_pushSuited ha).tracks
  pop _ _ key := (keeps_popAlias key).tracks
  mark _ _ key := keeps_markUsed key
  pushRecur _ _ _ := .modified fun _ h => ⟨h.counts, h.sound⟩
  popRecur _ _ := by
    refine .bind keeps_scope.tracks fun sc => ?_
    split
    · exact .throw _ fun _ h => h
    · exact .modified fun _ h => ⟨h.counts, h.sound⟩
  pushName _ _ _ := .modified fun _ h => ⟨h.counts, h.sound⟩
  popName _ _ := by
    refine .bind keeps_scope.tracks fun sc => ?_
    split
    · exact .throw _ fun _ h => h
    · exact .modified fun _ h => ⟨h.counts, h.sound⟩
  aside {n o st inner} h hinner := by
    -- numbers never come back, so the scope from before is still sound
    refine ⟨st.session.lastId, ⟨Nat.le_refl _, by rw [hinner]; exact .nil _⟩, fun st' hleft => ?_⟩
    exact ⟨Nat.le_trans h.counts hleft.counts, h.sound.mono hleft.counts⟩

/-- Compilers that agree wherever the local names are sound. -/
def Matched (f g : CompileFn) : Prop := ∀ n v, Agree (Tidy n) (f v) (g v)

theorem CompileM.agree_compileWith {n : Nat} {f g : CompileFn} (h : Matched f g) (v : Value) :
    Agree (Tidy n) (compileWith f v) (compileWith g v) := by
  have hmatched : soundness.Matched f g := fun n _ v => (h n v).tracks
  exact (hmatched.compileWith n {} v).agree

namespace CompileM

/-- The code of a form, but before each form on the way the scope is looked at. Where it is not as
it should be, the form is compiled otherwise. -/
def compileWatched (good : Scope → Prop) [DecidablePred good] (otherwise : CompileFn) :
    (depth : Nat) → CompileFn
  | 0, _ => throw (.fault .recursion)
  | depth + 1, v => do
    if good (← scope) then compileWith (compileWatched good otherwise depth) v else otherwise v

/-- Where the local names are sound, the look finds nothing. -/
theorem matched_compileWatched (otherwise : CompileFn) (depth : Nat) :
    Matched (compileWatched Scope.KeptApart otherwise depth) (compileAt depth) := by
  induction depth with
  | zero => exact fun n v => .throw _
  | succ depth ih =>
    -- looking does not change the state, so the rest is the step from `depth` to `depth + 1`
    intro n v st hst
    have hscope : scope st = .ok st.scope st := rfl
    have hapart : st.scope.KeptApart := hst.sound.apart
    have hlook : compileWatched Scope.KeptApart otherwise (depth + 1) v st
        = compileWith (compileWatched Scope.KeptApart otherwise depth) v st := by
      rw [compileWatched, bind_of_ok hscope, if_pos hapart]
    rw [hlook]
    exact agree_compileWith ih v st hst

/-- The states that a compiler gets into: it starts without local names and compiles one form after
the other, with success or not. In between the session may change, but numbers do not come back. -/
inductive Reached : CompileState → Prop where
  | start {st : CompileState} (hst : st.scope.aliases = []) : Reached st
  | compiled {st : CompileState} (hst : Reached st) (depth : Nat) (v : Value) :
    Reached (finalState (compileAt depth v st))
  | between {st st' : CompileState} (hst : Reached st)
    (hscope : st'.scope.aliases = st.scope.aliases)
    (hcount : st.session.lastId ≤ st'.session.lastId) : Reached st'

theorem Reached.tidy {st : CompileState} (h : Reached st) : Tidy 0 st := by
  induction h with
  | start hst => exact ⟨Nat.zero_le _, by rw [hst]; exact .nil _⟩
  | compiled _ depth v ih => exact (matched_compileWatched compile depth 0 v _ ih).2
  | between _ hscope hcount ih => exact ⟨Nat.zero_le _, by rw [hscope]; exact ih.sound.mono hcount⟩

/-- Whatever would be done at a form where two variables in scope overwrite each other and the names
of their symbols are not confusable: it never comes to that. -/
theorem compileWatched_eq {st : CompileState} (hst : Reached st) (otherwise : CompileFn)
    (depth : Nat)
    (v : Value) : compileWatched Scope.KeptApart otherwise depth v st = compileAt depth v st :=
  (matched_compileWatched otherwise depth 0 v st hst.tidy).1

/-! ## A clash -/

/-- The form `(try 1 (catch Ref a2 (let* [a 5] a2)))`. -/
def handlerForm : Value :=
  .steppingListOf [.sym "try", .int 1, .steppingListOf [.sym "catch", .sym "Ref", .sym "a2",
    .steppingListOf [.sym "let*", .vectorOf [.sym "a", .int 5], .sym "a2"]]]

/-- A compiler at work in a module that has a class `Ref`. -/
def refState : CompileState := { session := {}, scope := { ns := .module "clojure.lang.ref" } }

/-- Whether a form was compiled. -/
def isCompiled : EStateM.Result Error CompileState Instrs → Bool
  | .ok _ _ => true
  | .error _ _ => false

/-- Both variables of the form are called `a2`, which their names allow for. -/
theorem compileWatched_eq_handlerForm :
    Reached refState ∧ isCompiled (compileAt 6 handlerForm refState) = true ∧
      isCompiled (compileWatched (fun s => s.locals.Pairwise fun a b => ¬a.Overwrites b)
        (fun _ => throw (.fault .name)) 6 handlerForm refState) = false ∧
      compileWatched Scope.KeptApart (fun _ => throw (.fault .name)) 6 handlerForm refState
        = compileAt 6 handlerForm refState :=
  ⟨.start rfl, by decide +kernel, by decide +kernel, compileWatched_eq (.start rfl) _ 6 handlerForm⟩

end CompileM

end HostedLisp
