import HostedLisp.Compiler.Compile
import HostedLisp.Proofs.Compiler.Agree
import Mathlib.Algebra.Order.Group.Multiset

/-!
# What special forms are made of

The operations that compile no form themselves leave the stacks of the compiler alone: those of the
local names, of the points to recur to and of the functions around.

Special forms open scopes and close them again. What can be said of the compiler while certain
scopes are open is a discipline, if opening and closing a scope respects it. A failure may come at
any time, so a discipline also says what is left after one.

- `Indifferent`: properties that depend on nothing but these stacks and the counters.
- `CompileM.keeps_fail`, `CompileM.keeps_namesText`: the compiler's own operations keep them.
- `Special.keeps_remaining`, `Special.keeps_parameters`: so does taking forms apart.
- `Special.keeps_access`, `CompileM.keeps_expandMacro?`: so does looking names up.
- `Value.symbol?`: keys that are symbols. Only the symbol itself is equal to a symbol.
- `CompileM.meanings`: the meanings of a local name, the innermost first.
- `Opened`: the scopes that are open.
- `Discipline`: the properties, and that opening and closing a scope respects them.
- `Discipline.Steady`: operations that close all the scopes that they open.
- `Discipline.Matched`: compilers that do the same and are steady.
-/

namespace HostedLisp

open Machine SessionM CompileM

/-- Scopes with the same stacks. The marks on the names of functions do not count. -/
structure Scope.SameStacks (s s' : Scope) : Prop where
  aliases : s'.aliases = s.aliases
  recurPoints : s'.recurPoints = s.recurPoints
  names : s'.names.map (·.name) = s.names.map (·.name)

/-- Properties of the compiler that hold on as long as its stacks are the same and no counter of the
session falls. -/
class Indifferent (I : CompileState → Prop) : Prop where
  session : ∀ {st : CompileState} {s : Session}, SessionM.CountsSince st.session s → I st →
    I { st with session := s }
  scope : ∀ {st : CompileState} {sc : Scope}, st.scope.SameStacks sc → I st →
    I { st with scope := sc }

variable {I : CompileState → Prop} {α : Type}

/-! ## The compiler's own operations -/

namespace CompileM

theorem keeps_lift (r : Except Error α) : Keeps I (lift r) := by
  cases r with
  | ok a => exact .pure a
  | error e => exact .throw e

theorem keeps_scope : Keeps I scope := .bind .get fun _ => .pure _

theorem keeps_aliasesOf (key : Value) : Keeps I (aliasesOf key) :=
  .bind (keeps_lift _) fun _ => .bind keeps_scope fun _ => .pure _

theorem keeps_getAlias? (key : Value) : Keeps I (getAlias? key) :=
  .bind (keeps_aliasesOf key) fun _ => .pure _

theorem keeps_closuresInUse : Keeps I closuresInUse := .bind keeps_scope fun _ => .pure _

theorem keeps_recurPoint : Keeps I recurPoint := by
  refine .bind keeps_scope fun s => ?_
  split
  · exact .pure _
  · exact .throw _

theorem keeps_failPlain (reason : String) : Keeps I (failPlain reason : CompileM α) := .throw _

end CompileM

/-! ## Taking forms apart -/

namespace Special

variable (form : Value) (v : Value)

theorem keeps_rest : Keeps I (rest form) := by
  unfold rest
  split
  · exact .throw _
  · exact keeps_lift _

theorem keeps_head : Keeps I (head form) := keeps_lift _

theorem keeps_stepOn : Keeps I (stepOn form) := by
  unfold stepOn
  split
  · exact keeps_lift _
  · exact .throw _

theorem keeps_item (position : Nat) (form : Value) : Keeps I (item position form) := by
  induction position generalizing form with
  | zero => exact keeps_head form
  | succ k ih => exact .bind (keeps_stepOn form) ih

theorem keeps_size : Keeps I (size form) := keeps_lift _

theorem keeps_remaining : Keeps I (remaining form) := .bind (keeps_lift _) fun _ => .pure _

theorem keeps_loopItems : Keeps I (loopItems v) := by
  unfold loopItems
  split
  all_goals first | exact .throw _ | exact .pure _ | exact keeps_lift _

theorem keeps_stores (keys : List Value) : Keeps I (stores keys) := by
  refine .mapM (fun key => .bind (keeps_getAlias? key) fun a => ?_) keys
  split
  · exact keeps_lift _
  · exact .throw _

theorem keeps_restName (p : Parameters) : Keeps I (restName p) := by
  unfold restName
  split
  · exact .pure _
  · exact .throw _

theorem keeps_clauseName : Keeps I (clauseName v) := by
  unfold clauseName
  split
  all_goals try exact .pure _
  all_goals
    split
    · exact .pure _
    · exact .pure _
    · exact .throw _

theorem keeps_attachDoc (code : Instrs) : Keeps I (attachDoc code) := by
  unfold attachDoc
  split
  · exact .throw _
  · split
    · exact .throw _
    · exact .pure _

theorem keeps_ownName : Keeps I (ownName v) := by
  unfold ownName
  split
  · exact .pure _
  · exact .pure _
  · exact .throw _

end Special

/-! ## Failures and names -/

variable [Indifferent I]

namespace CompileM

theorem keeps_inSession {x : SessionM α}
    (hx : ∀ {J : Session → Prop} [SessionM.Counted J], Keeps J x) : Keeps I (inSession x) := by
  refine .keeps fun st h => ?_
  have hcounts : SessionM.CountsSince st.session (finalState (x st.session)) :=
    (hx st.session ⟨Nat.le_refl _, Nat.le_refl _⟩).2
  have hfinal : finalState (inSession x st) = { st with session := finalState (x st.session) } := by
    unfold inSession EStateM.run
    cases x st.session <;> rfl
  rw [hfinal]
  exact Indifferent.session hcounts h

theorem keeps_modifyScope {f : Scope → Scope} (hf : ∀ s : Scope, s.SameStacks (f s)) :
    Keeps I (modifyScope f) := .modified fun st h => Indifferent.scope (hf st.scope) h

theorem keeps_nextId : Keeps I nextId := keeps_inSession SessionM.keeps_nextId

theorem keeps_newLabel (name : String) : Keeps I (newLabel name) :=
  keeps_inSession (SessionM.keeps_newLabel name)

theorem keeps_text (v : Value) : Keeps I (text v) := keeps_inSession (SessionM.keeps_text v)

/-- Making a name may mark the function around, whose name stays. -/
theorem keeps_namesText (mark : Bool) : Keeps I (namesText mark) := by
  refine .keeps fun st h => ?_
  have hscope : scope st = .ok st.scope st := rfl
  have hnext : I { st with session := { st.session with lastId := st.session.lastId + 1 } } :=
    Indifferent.session ⟨Nat.le_succ _, Nat.le_refl _⟩ h
  rw [namesText, bind_of_ok hscope]
  cases hnames : st.scope.names with
  | nil => exact hnext
  | cons top rest =>
    have hsame : st.scope.SameStacks
        { st.scope with names := { top with marked := true } :: rest } :=
      ⟨rfl, rfl, by rw [hnames]; rfl⟩
    cases hmarked : top.marked with
    | true =>
      simp only [hmarked, ↓reduceIte]
      cases mark with
      | true => exact Indifferent.scope hsame hnext
      | false => exact hnext
    | false =>
      simp only [hmarked, Bool.false_eq_true, ↓reduceIte]
      cases mark with
      | true => exact Indifferent.scope hsame h
      | false => exact h

theorem keeps_metadata? (v : Value) : Keeps I (inSession (metadata? v)) := by
  refine keeps_inSession (.bind (keeps_cell? v) fun c => ?_)
  split <;> exact .pure _

theorem keeps_fail (reason : String) (form : Value) : Keeps I (fail reason form : CompileM α) := by
  refine .bind (keeps_metadata? form) fun data => ?_
  split
  · exact .throw _
  · refine .bind (keeps_lift _) fun line => .bind (keeps_lift _) fun b => ?_
    split
    · exact .bind (keeps_text line) fun _ => .throw _
    · exact .throw _

end CompileM

namespace Special

/-! ## Bindings -/

theorem keeps_bindingItems (what : String) (form vector : Value) :
    Keeps I (bindingItems what form vector) := by
  refine .bind (keeps_lift _) fun items => ?_
  split
  · exact keeps_fail _ _
  · exact .pure _

/-! ## Parameters -/

variable (form : Value)

theorem keeps_parametersFrom (p : Parameters) (xs : List Value) :
    Keeps I (parametersFrom form p xs) := by
  induction xs generalizing p with
  | nil => exact .pure _
  | cons x xs ih =>
    refine .bind (keeps_lift _) fun isRest => ?_
    split
    · exact ih _
    · split
      · exact keeps_fail _ _
      · dsimp only
        split
        · exact ih _
        · exact .bind (keeps_text _) fun _ => keeps_fail _ _

theorem keeps_parameters : Keeps I (parameters form) :=
  .bind (keeps_loopItems form) fun xs => keeps_parametersFrom form {} xs

theorem keeps_takeArgument (p : Parameters) (i : Nat) (name : String) :
    Keeps I (takeArgument p i name) := by
  unfold takeArgument
  split
  · exact .bind (keeps_restName p) fun _ => .bind (keeps_newLabel _) fun _ => .pure _
  · exact .pure _

/-! ## Global names -/

theorem keeps_expandGlobal (ns name : String) : Keeps I (expandGlobal ns name) := by
  refine .bind (keeps_inSession (keeps_moduleNamed? ns)) fun m => ?_
  refine .bind (keeps_inSession (keeps_member? _ name)) fun member => ?_
  split
  · exact .throw _
  · refine .bind (keeps_inSession (keeps_cell? _)) fun c => ?_
    split
    · refine .bind (keeps_lift _) fun dynamic => ?_
      split
      · exact .pure _
      · exact .bind (keeps_inSession (keeps_deref _)) fun _ => .pure _
    · exact .pure _

theorem keeps_expandGlobals (code : Instrs) : Keeps I (expandGlobals code) := by
  induction code with
  | nil => exact .pure _
  | cons i is ih =>
    unfold expandGlobals
    split
    · exact .bind (keeps_expandGlobal _ _) fun _ => .bind ih fun _ => .pure _
    · exact .bind (.pure _) fun _ => .bind ih fun _ => .pure _

theorem keeps_nsName : Keeps I nsName :=
  .bind keeps_scope fun _ => keeps_inSession (keeps_moduleName _)

theorem keeps_moduleFor (qualifier : Symbol) : Keeps I (moduleFor qualifier) := by
  refine .bind keeps_scope fun sc => .bind (keeps_inSession (keeps_cell? _)) fun c => ?_
  -- what follows a choice is proved once, before the cases of the choice
  extract_lets short found
  have hfound (name : String) : Keeps I (found name) :=
    .bind (keeps_inSession (keeps_moduleNamed? name)) fun _ => .pure _
  clear_value short
  split
  · exact .bind (keeps_inSession (keeps_moduleName _)) hfound
  · exact .bind (.pure _) hfound

theorem keeps_globalOf? (m : Value) (name : String) : Keeps I (globalOf? m name) := by
  refine .bind (keeps_inSession (keeps_member? m name)) fun member => ?_
  split
  · exact .pure _
  · exact .bind (keeps_inSession (keeps_moduleName m)) fun _ => .pure _

theorem keeps_resolveHere (s : Symbol) (here : String) : Keeps I (access.resolveHere s here) := by
  refine .bind keeps_scope fun sc => .bind (keeps_globalOf? _ _) fun code => ?_
  split
  · exact .pure _
  · exact .bind (keeps_namesText false) fun _ => keeps_failPlain _

theorem keeps_access (s : Symbol) : Keeps I (access s) := by
  refine .bind keeps_nsName fun here => ?_
  split
  · exact .throw _
  · split
    · exact keeps_resolveHere s here
    · split
      · exact keeps_resolveHere s here
      · refine .bind (keeps_moduleFor _) fun m => .bind (keeps_globalOf? m _) fun code => ?_
        split
        · exact .pure _
        · exact .bind (keeps_text m) fun _ => keeps_failPlain _

/-! ## Guarded code -/

theorem keeps_resultSlot : Keeps I resultSlot := .bind keeps_nextId fun _ => .pure _

theorem keeps_tryFinally (code fin : Instrs) : Keeps I (tryFinally code fin) :=
  .bind (keeps_newLabel _) fun _ => .bind keeps_resultSlot fun _ => .pure _

theorem keeps_handlerLabels (hs : List Handler) : Keeps I (handlerLabels hs) := by
  refine .mapM (fun h => ?_) hs
  exact .bind (keeps_text h.cls) fun _ => keeps_newLabel _

theorem keeps_handlerClause (form clause : Value) (name : String) (known : List Handler) :
    Keeps I (handlerClause form clause name known) := by
  refine .bind (keeps_size clause) fun k => ?_
  split
  · exact keeps_fail _ _
  · refine .bind (keeps_item 1 clause) fun cls => ?_
    split
    · split
      · exact keeps_fail _ _
      · refine .bind (keeps_item 2 clause) fun binder => ?_
        split
        · exact .bind (keeps_item 3 clause) fun _ => .pure _
        · exact keeps_fail _ _
    · exact keeps_fail _ _

/-! ## Small forms -/

theorem keeps_quote : Keeps I (quote form) := by
  refine .bind (keeps_size form) fun k => ?_
  split
  · exact keeps_fail _ _
  · exact .bind (keeps_item 1 form) fun _ => .pure _

/-- Running code prints it and fails. -/
theorem keeps_execute (code : Instrs) (ns : Value) : Keeps I (execute code ns) := by
  unfold execute
  split
  · exact .pure _
  · refine .bind (keeps_expandGlobals code) fun code => ?_
    refine .bind (keeps_inSession (keeps_moduleName ns)) fun home => ?_
    refine .bind (keeps_inSession (keeps_viewer)) fun view => ?_
    refine .bind keeps_scope fun s => .bind (.forM (fun i => ?_) _) fun _ => keeps_lift _
    exact .bind (keeps_lift _) fun line => keeps_inSession (keeps_printLine line)

end Special

/-! ## Macros and line markers -/

namespace CompileM

theorem keeps_isMacro (v : Value) : Keeps I (isMacro v) := by
  unfold isMacro
  split
  · exact .pure _
  · refine .bind (keeps_metadata? v) fun data => ?_
    split
    · exact .pure _
    · refine .bind (keeps_lift _) fun b => ?_
      split
      · exact keeps_lift _
      · exact .pure _

theorem keeps_macroOf? (form : Value) : Keeps I (macroOf? form) := by
  refine .bind (Special.keeps_head form) fun first => ?_
  split
  · split
    · exact .pure _
    · refine .bind keeps_scope fun sc =>
        .bind (keeps_inSession (keeps_findItem _ _)) fun found => ?_
      extract_lets chosen
      have hchosen (val : Value) : Keeps I (chosen val) := by
        refine .bind (keeps_isMacro found) fun b => ?_
        split
        · exact .pure _
        · refine .bind (keeps_isMacro val) fun b => ?_
          split
          · exact .pure _
          · exact .pure _
      refine .bind (keeps_inSession (keeps_cell? _)) fun c => ?_
      split
      · exact .bind (keeps_inSession (keeps_deref _)) hchosen
      · exact .bind (.pure _) hchosen
  · exact .pure _

theorem keeps_expandMacro? (form : Value) : Keeps I (expandMacro? form) := by
  refine .bind (keeps_macroOf? form) fun f => ?_
  split
  · exact .pure _
  · refine .bind (Special.keeps_rest form) fun rest =>
      .bind (Special.keeps_remaining rest) fun args => ?_
    refine .bind (keeps_inSession (keeps_apply _ _)) fun r => ?_
    refine .bind (keeps_metadata? form) fun data => ?_
    split
    · split
      · exact .bind (keeps_lift _) fun _ => .pure _
      · exact .pure _
    · exact .pure _

theorem keeps_lineMarker (v : Value) : Keeps I (lineMarker v) := by
  unfold lineMarker
  extract_lets marked
  have hmarked (data : Option Value) : Keeps I (marked data) := by
    dsimp only [marked]
    split
    · exact .pure _
    · exact .pure _
    · refine .bind (keeps_lift _) fun line => ?_
      split
      · exact .pure _
      · refine .bind keeps_scope fun sc => .bind (keeps_lift _) fun further => ?_
        split
        · exact .bind (keeps_modifyScope fun _ => ⟨rfl, rfl, rfl⟩) fun _ => .pure _
        · exact .pure _
  split
  · split
    · exact .bind (.throw _) hmarked
    · exact .bind (.pure _) hmarked
  · exact .bind (keeps_metadata? _) hmarked

end CompileM

/-! ## Keys that are symbols -/

namespace Value

/-- The symbol that a value is. -/
def symbol? : Value → Option Symbol
  | .symbol s _ => some s
  | _ => none

theorem getD_falseOnMismatch (r : Except Error Bool) :
    (falseOnMismatch r).toOption.getD false = r.toOption.getD false := by
  unfold falseOnMismatch
  split <;> rfl

/-- Only the symbol itself is equal to a symbol, whatever the metadata. -/
theorem eqB_symbol (k : Value) (s : Symbol) (i : Value) :
    k.eqB (.symbol s i) = (k.symbol? == some s) := by
  cases k
  case hashMap m j =>
    refine (getD_falseOnMismatch _).trans ?_
    cases len (.hashMap m j) <;> rfl
  all_goals rfl

theorem eqB_of_symbol? {k key : Value} {s : Symbol} (hk : k.symbol? = some s)
    (hkey : key.symbol? = none) : k.eqB key = false := by
  cases k
  case symbol t j =>
    cases key
    case symbol => cases hkey
    all_goals rfl
  all_goals cases hk

theorem eqB_eq_true_iff {k key : Value} {s : Symbol} (hkey : key.symbol? = some s) :
    k.eqB key = true ↔ k.symbol? = some s := by
  cases key
  case symbol t i =>
    obtain rfl := Option.some.inj hkey
    rw [eqB_symbol, beq_iff_eq]
  all_goals cases hkey

end Value

/-! ## Meanings -/

/-- The meanings of each local name. -/
abbrev Meanings := List (Value × List Alias)

theorem find?_key {ps : Meanings} {key : Value} {p : Value × List Alias}
    (h : ps.find? (fun p => p.1.eqB key) = some p) : p.1.eqB key = true :=
  List.find?_some (p := fun p : Value × List Alias => p.1.eqB key) h

namespace CompileM

/-- The meanings of a local name, none if it has no entry. -/
def meanings (ps : Meanings) (key : Value) : List Alias :=
  ((ps.find? fun p => p.1.eqB key).map (·.2)).getD []

theorem aliasesOf_cases (key : Value) (st : CompileState) :
    (∃ e, aliasesOf key st = .error e st) ∨
      aliasesOf key st = .ok (meanings st.scope.aliases key) st := by
  cases h : key.hash with
  | error e =>
    have hlift : lift key.hash st = .error e st := by
      rw [h]
      rfl
    exact .inl ⟨e, bind_of_error hlift⟩
  | ok code =>
    have hlift : lift key.hash st = .ok code st := by
      rw [h]
      rfl
    exact .inr (bind_of_ok hlift)

theorem find?_of_meanings {ps : Meanings} {key : Value} {a : Alias} {as : List Alias}
    (h : meanings ps key = a :: as) : ∃ k, ps.find? (fun p => p.1.eqB key) = some (k, a :: as) := by
  unfold meanings at h
  cases hfind : ps.find? (fun p => p.1.eqB key) with
  | none =>
    rw [hfind] at h
    cases h
  | some p =>
    rw [hfind] at h
    obtain ⟨k, bs⟩ := p
    cases h
    exact ⟨k, rfl⟩

end CompileM

/-! ## Opening scopes -/

/-- The scopes that are open: those of local names, points to recur to and named functions. -/
structure Opened where
  keys : Multiset Value := 0
  recurs : Nat := 0
  names : Nat := 0

namespace Opened

/-- Enter the scope of a local name. -/
def enter (o : Opened) (key : Value) : Opened := { o with keys := key ::ₘ o.keys }

/-- Enter the scopes of local names. -/
def enterAll (o : Opened) (keys : List Value) : Opened :=
  { o with keys := (keys : Multiset Value) + o.keys }

/-- Open a point to recur to. -/
def inLoop (o : Opened) : Opened := { o with recurs := o.recurs + 1 }

/-- Enter a named function. -/
def inFunction (o : Opened) : Opened := { o with names := o.names + 1 }

variable (o : Opened) (key : Value) (keys : List Value)

@[simp] theorem enterAll_nil : o.enterAll [] = o := by
  simp [enterAll]

theorem enterAll_enter : (o.enter key).enterAll keys = (o.enterAll keys).enter key := by
  simp [enterAll, enter]

theorem enterAll_cons : o.enterAll (key :: keys) = (o.enter key).enterAll keys := by
  rw [enterAll_enter]
  simp only [enterAll, enter, ← Multiset.cons_coe, Multiset.cons_add]

theorem enterAll_concat : o.enterAll (keys ++ [key]) = (o.enterAll keys).enter key := by
  rw [← enterAll_enter, ← enterAll_cons]
  simp only [enterAll, ← Multiset.coe_add, Multiset.add_comm (keys : Multiset Value),
    Multiset.coe_singleton, Multiset.singleton_add, Multiset.cons_coe]

end Opened

/-- What names can be made to stand for, other than new variables: the argument of the same name, a
shared variable or a form. A key that is no symbol has no name. -/
inductive Alias.Suits : Value → Alias → Prop where
  | argument (s : Symbol) (info : Value) : Suits (.symbol s info) (.argument s.name)
  | nameless {key : Value} (hkey : ∀ s info, key ≠ .symbol s info) (name : String) :
    Suits key (.argument name)
  | shared (key : Value) (id : Nat) (c : Value) (name : String) (used : Bool) :
    Suits key (.closure id c name used)
  | expansion (key form : Value) : Suits key (.expansion form)

/-- Make a variable for a symbol and enter its scope. -/
def CompileM.bindFresh (key : Value) (name : String) : CompileM Alias := do
  let a ← Special.newLocal key name
  pushAlias key a
  return a

theorem CompileM.newLocal_bind {α : Type} (key : Value) (name : String) (f : Alias → CompileM α) :
    (Special.newLocal key name >>= fun a => pushAlias key a >>= fun _ => f a)
      = bindFresh key name >>= f := by
  simp only [bindFresh, bind_assoc, pure_bind]

/-! ## Disciplines -/

/-- Properties of the compiler that depend on the scopes that are open, for each index `k`. -/
structure Discipline (κ : Type) where
  /-- What holds while scopes are open. -/
  Holds : κ → Opened → CompileState → Prop
  /-- What is left after a failure. -/
  Left : κ → CompileState → Prop
  left : ∀ {k : κ} {o : Opened} {st : CompileState}, Holds k o st → Left k st
  indifferent : ∀ k o, Indifferent (Holds k o)
  indifferent_left : ∀ k, Indifferent (Left k)
  fresh : ∀ k o name info, Tracks (Holds k o) (bindFresh (.symbol (.plain name) info) name)
    (bindFresh (.symbol (.plain name) info) name)
    (fun _ => Holds k (o.enter (.symbol (.plain name) info))) (Left k)
  push : ∀ k o key a, a.Suits key → Tracks (Holds k o) (pushAlias key a) (pushAlias key a)
    (fun _ => Holds k (o.enter key)) (Left k)
  pop : ∀ k o key, Tracks (Holds k (o.enter key)) (popAlias key) (popAlias key)
    (fun _ => Holds k o) (Left k)
  mark : ∀ k o key, Keeps (Holds k o) (markUsed key)
  pushRecur : ∀ k o p, Tracks (Holds k o) (pushRecur p) (pushRecur p)
    (fun _ => Holds k o.inLoop) (Left k)
  popRecur : ∀ k o, Tracks (Holds k o.inLoop) popRecur popRecur (fun _ => Holds k o) (Left k)
  pushName : ∀ k o name, Tracks (Holds k o) (pushName name) (pushName name)
    (fun _ => Holds k o.inFunction) (Left k)
  popName : ∀ k o, Tracks (Holds k o.inFunction) popName popName (fun _ => Holds k o) (Left k)
  /-- Another compiler can do its work in between, whether it fails or not. -/
  aside : ∀ {k : κ} {o : Opened} {st : CompileState} {inner : Scope}, Holds k o st →
    inner.aliases = [] → ∃ k', Holds k' {} { st with scope := inner } ∧
      ∀ st', Left k' st' → Holds k o { st' with scope := st.scope }

namespace Discipline

variable {κ : Type} (D : Discipline κ) {k : κ} {o : Opened} {α β : Type}

instance : Indifferent (D.Holds k o) := D.indifferent k o

instance : Indifferent (D.Left k) := D.indifferent_left k

/-- With `o` open both do the same, and then the scopes are open that `o'` says. -/
abbrev Follows (k : κ) (o : Opened) (x y : CompileM α) (o' : α → Opened) : Prop :=
  Tracks (D.Holds k o) x y (fun a => D.Holds k (o' a)) (D.Left k)

/-- Both do the same and close the scopes that they open. -/
abbrev Steady (k : κ) (o : Opened) (x y : CompileM α) : Prop := D.Follows k o x y fun _ => o

/-- Compilers that do the same and close the scopes that they open. -/
def Matched (f g : CompileFn) : Prop := ∀ k o v, D.Steady k o (f v) (g v)

variable {D}

theorem keeps {x : CompileM α} (hx : ∀ {I : CompileState → Prop} [Indifferent I], Keeps I x) :
    D.Steady k o x x := .of_agree hx fun _ => D.left

/-- An operation that leaves the stacks alone comes first. -/
theorem step {x : CompileM α} {f g : α → CompileM β} {o' : β → Opened}
    (hx : ∀ {I : CompileState → Prop} [Indifferent I], Keeps I x)
    (hf : ∀ a, D.Follows k o (f a) (g a) o') : D.Follows k o (x >>= f) (x >>= g) o' :=
  .bind (keeps hx) hf

theorem returns (a : α) : D.Steady k o (pure a) (pure a) := .pure fun _ h => h

theorem throws (e : Error) {o' : α → Opened} : D.Follows k o (throw e) (throw e) o' :=
  .throw e fun _ => D.left

theorem fails (reason : String) (form : Value) {o' : α → Opened} :
    D.Follows k o (fail reason form) (fail reason form) o' := by
  refine step (keeps_metadata? form) fun data => ?_
  split
  · exact throws _
  · refine step (keeps_lift _) fun line => step (keeps_lift _) fun b => ?_
    split
    · exact step (keeps_text line) fun _ => throws _
    · exact throws _

/-- Names that come into scope one after the other. -/
theorem enterEach {x : Value → CompileM PUnit}
    (hx : ∀ o key, D.Follows k o (x key) (x key) fun _ => o.enter key) (keys : List Value) :
    D.Follows k o (keys.forM x) (keys.forM x) fun _ => o.enterAll keys := by
  induction keys generalizing o with
  | nil =>
    rw [Opened.enterAll_nil]
    exact returns _
  | cons key keys ih =>
    rw [Opened.enterAll_cons]
    exact .bind (hx o key) fun _ => ih

/-- Scopes can be closed in any order. -/
theorem popAll (keys : List Value) :
    D.Follows k (o.enterAll keys) (popAliases keys) (popAliases keys) fun _ => o := by
  induction keys with
  | nil =>
    rw [Opened.enterAll_nil]
    exact returns _
  | cons key keys ih =>
    rw [Opened.enterAll_cons, Opened.enterAll_enter]
    exact .bind (D.pop k _ key) fun _ => ih

end Discipline

end HostedLisp
