import HostedLisp.Proofs.Compiler.Scopes
import HostedLisp.Proofs.Walk

/-!
# Expressions

Forms that are made for their value: without functions, jumps back, handlers and operations of the
machine.

- `Expression`: the forms.
- `Special.rest_ok`, `Special.item_ok`, `Special.remaining_ok`: their parts.
- `Scope.Fit`: local names that stand for forms stand for expressions.
- `CompileM.compileUnexpanded`: compiling without macros.
-/

namespace HostedLisp

open CompileM

/-! ## Forms -/

namespace Value

/-- Values that are neither names nor collections of forms. -/
def isConstant : Value → Bool
  | .symbol .. | .list .. | .cons .. | .vector .. | .subvector .. | .entry .. | .hashMap ..
  | .arrayMap .. | .treeMap .. => false
  | _ => true

/-- The lists that are compiled as calls. -/
def isCall : Value → Bool
  | .list .. | .cons .. => true
  | _ => false

/-- The calls that are no special forms. -/
def isOrdinaryCall (v : Value) : Bool :=
  v.isCall &&
    match v.first with
    | .ok (.symbol s _) => (Special.named? s).isNone
    | _ => true

/-- What calls something, as the first item of a list: no special form, no operation of the machine
and no member of a thing. -/
def isPlainHead : Value → Bool
  | .symbol s _ =>
    (Special.named? s).isNone && s.ns != some "py.bytecode" && !s.name.startsWith ".-"
      && !(s.name.startsWith "." && s.ns.isNone)
  | _ => true

end Value

/-- The special forms whose items are expressions. -/
def nestingForms : List Symbol :=
  [.plain "do", .plain "if*", ⟨some "py", "if"⟩, .plain "is?", .plain "def"]

/-- The special forms that start with bindings. -/
def bindingForms : List Symbol := [.plain "let*", .plain "loop*"]

/-- Forms that are made for their value. The number of arguments of a call has to fit in a byte. -/
inductive Expression : Value → Prop where
  | constant {v : Value} (hv : v.isConstant = true) : Expression v
  | symbol (s : Symbol) (info : Value) : Expression (.symbol s info)
  | quote {form info : Value} {args : List Value} (hcall : form.isCall = true)
    (hform : form.Walks (.symbol (.plain "quote") info :: args)) : Expression form
  | nested {form info : Value} {s : Symbol} {args : List Value} (hcall : form.isCall = true)
    (hs : s ∈ nestingForms) (hform : form.Walks (.symbol s info :: args))
    (hargs : ∀ x ∈ args, Expression x) : Expression form
  | binding {form info vector : Value} {s : Symbol} {items body : List Value}
    (hcall : form.isCall = true) (hs : s ∈ bindingForms)
    (hform : form.Walks (.symbol s info :: vector :: body)) (hvector : vector.items = .ok items)
    (hitems : ∀ x ∈ items, Expression x) (hbody : ∀ x ∈ body, Expression x) : Expression form
  | call {form first : Value} {args : List Value} (hcall : form.isCall = true)
    (hplain : first.isPlainHead = true) (hform : form.Walks (first :: args))
    (hfirst : Expression first) (hargs : ∀ x ∈ args, Expression x) (hlength : args.length < 256) :
    Expression form
  | vector {v : Value} {items : List Value} (hv : v.isVectorLike = true)
    (hitems : v.items = .ok items)
    (hall : ∀ x ∈ items, Expression x) (hlength : items.length < 256) : Expression v
  | map {v s : Value} {entries : List Value} (hv : v.isMap = true) (hseq : v.seqMethod = .ok s)
    (hentries : s.Walks entries)
    (hkeys : ∀ e ∈ entries, ∀ k x, Value.entryOf e = .ok (k, x) → Expression k)
    (hvalues : ∀ e ∈ entries, ∀ k x, Value.entryOf e = .ok (k, x) → Expression x)
    (hlength : entries.length < 128) : Expression v

theorem Value.walks_steppingListOf (x : Value) (xs : List Value) :
    (steppingListOf (x :: xs)).Walks (x :: xs) := by
  induction xs generalizing x with
  | nil => exact .step Value.noConfusion rfl rfl .done
  | cons y ys ih => exact .step Value.noConfusion rfl (by simp [steppingListOf, next]; omega) (ih y)

theorem Value.isOrdinaryCall_of_isPlainHead {form first : Value} (hcall : form.isCall = true)
    (hfirst : form.first = .ok first) (hplain : first.isPlainHead = true) :
    form.isOrdinaryCall = true := by
  rw [isOrdinaryCall, hcall, hfirst, Bool.true_and]
  cases first
  case symbol s info =>
    simp only [isPlainHead, Bool.and_eq_true] at hplain
    exact hplain.1.1.1
  all_goals rfl

/-! ## The parts of a form -/

theorem Value.Walks.first {form x : Value} {xs : List Value} (h : form.Walks (x :: xs)) :
    form.first = .ok x := by
  cases h with
  | step _ first_eq => exact first_eq

theorem Value.Walks.of_next {form x s : Value} {xs : List Value} (h : form.Walks (x :: xs))
    (hs : form.next = .ok s) : s.Walks xs := by
  cases h with
  | step _ _ next_eq rest =>
    obtain rfl := Except.ok.inj (next_eq.symm.trans hs)
    exact rest

theorem CompileM.lift_ok {α : Type} {r : Except Error α} (st : CompileState) (a : α)
    (st' : CompileState) (h : lift r st = .ok a st') : st' = st ∧ r = .ok a := by
  cases r with
  | ok b =>
    cases h
    exact ⟨rfl, rfl⟩
  | error e => cases h

namespace Special

variable {form : Value} {k : Nat} (st : CompileState)

theorem rest_ok (s : Value) (st' : CompileState) (h : rest form st = .ok s st') :
    st' = st ∧ form.next = .ok s := by
  unfold rest at h
  split at h
  · cases h
  · exact lift_ok st s st' h

theorem stepOn_ok (s : Value) (st' : CompileState) (h : stepOn form st = .ok s st') :
    st' = st ∧ form.next = .ok s := by
  unfold stepOn at h
  split at h
  · exact lift_ok st s st' h
  · cases h

theorem remaining_ok (xs : List Value) (st' : CompileState) (h : remaining form st = .ok xs st') :
    st' = st ∧ form.Walks xs := by
  obtain ⟨r, st₁, hlift, hxs⟩ := exists_of_bind_ok h
  obtain ⟨rfl, hwalk⟩ := lift_ok st r st₁ hlift
  cases hxs
  exact ⟨rfl, Value.walks_of_walk hwalk⟩

theorem item_ok (x : Value) (st' : CompileState) (h : item k form st = .ok x st') :
    st' = st ∧ ∀ xs, form.Walks xs → xs[k]? = some x := by
  induction k generalizing form with
  | zero =>
    obtain ⟨rfl, hfirst⟩ := lift_ok st x st' h
    refine ⟨rfl, fun xs hxs => ?_⟩
    cases hxs with
    | done => cases hfirst
    | step _ first_eq =>
      obtain rfl := Except.ok.inj (first_eq.symm.trans hfirst)
      rfl
  | succ k ih =>
    obtain ⟨s, st₁, hstep, hitem⟩ := exists_of_bind_ok h
    obtain ⟨rfl, hnext⟩ := stepOn_ok st s st₁ hstep
    obtain ⟨rfl, hs⟩ := ih hitem
    refine ⟨rfl, fun xs hxs => ?_⟩
    cases hxs with
    | done => cases hnext
    | step _ _ next_eq rest =>
      obtain rfl := Except.ok.inj (next_eq.symm.trans hnext)
      exact hs _ rest

end Special

/-! ## Local names that stand for forms -/

/-- Local names that stand for forms stand for expressions. -/
def Scope.Fit (sc : Scope) : Prop := ∀ s form, Alias.expansion form ∈ sc.stack s → Expression form

namespace Scope.Fit

variable {sc sc' : Scope} {key : Value} {ps : Meanings}

/-- No other forms have come in. -/
theorem of_entries (h : sc.Fit)
    (hsub : ∀ s form, Alias.expansion form ∈ (entryIn sc'.aliases s).getD [] →
    Alias.expansion form ∈ (entryIn sc.aliases s).getD []) : sc'.Fit := by
  intro s form hform
  rw [stack_eq] at hform
  refine h s form ?_
  rw [stack_eq]
  exact hsub s form hform

theorem of_aliases (h : sc.Fit) (haliases : sc'.aliases = sc.aliases) : sc'.Fit :=
  h.of_entries fun _ _ hform => by rwa [haliases] at hform

theorem push (h : sc.Fit) {a : Alias} (ha : ∀ form, a ≠ .expansion form)
    (hps : Pushed key a sc.aliases ps) : { sc with aliases := ps }.Fit := by
  refine h.of_entries fun s form hform => ?_
  change Alias.expansion form ∈ (entryIn ps s).getD [] at hform
  rw [hps s] at hform
  split at hform
  · unfold onTop at hform
    split at hform
    · rw [Option.getD_some, List.mem_singleton] at hform
      exact absurd hform.symm (ha form)
    · cases hform
    · next heq =>
      rw [Option.getD_some, List.mem_cons] at hform
      rw [heq]
      exact hform.resolve_left fun heq => ha form heq.symm
  · exact hform

theorem pop (h : sc.Fit) (hps : Popped key sc.aliases ps) : { sc with aliases := ps }.Fit := by
  refine h.of_entries fun s form hform => ?_
  change Alias.expansion form ∈ (entryIn ps s).getD [] at hform
  have hs := hps s
  split at hs
  · obtain ⟨a, as, hbefore, hafter⟩ := hs
    rw [hbefore]
    rw [hafter] at hform
    split at hform
    · cases hform
    · exact List.mem_cons_of_mem a hform
  · rw [hs] at hform
    exact hform

theorem mem_readTop {form : Value} {as : List Alias} (h : Alias.expansion form ∈ readTop as) :
    Alias.expansion form ∈ as := by
  unfold readTop at h
  split at h
  · rw [List.mem_cons] at h
    exact List.mem_cons_of_mem _ (h.resolve_left Alias.noConfusion)
  · exact h

theorem read {st : CompileState} (h : st.scope.Fit) (key : Value) :
    (finalState (markUsed key st)).scope.Fit := by
  refine h.of_entries fun s form hform => ?_
  rw [entryIn_markUsed] at hform
  split at hform
  · cases hentry : entryIn st.scope.aliases s with
    | none =>
      rw [hentry] at hform
      cases hform
    | some as =>
      rw [hentry] at hform
      exact mem_readTop hform
  · exact hform

end Scope.Fit

/-! ## Compiling without macros -/

namespace CompileM

/-- Whether a form is the call of a macro, once its line has been noted. -/
def callsMacro (v : Value) (st : CompileState) : Bool :=
  v.isOrdinaryCall &&
    match (do let _ ← lineMarker v; macroOf? v) st with
    | .ok (some _) _ => true
    | _ => false

/-- The code of a form, with a bound on the nesting. The call of a macro is refused, also inside. -/
def compileUnexpanded : (depth : Nat) → CompileFn
  | 0, _ => throw (.fault .recursion)
  | depth + 1, v => fun st =>
    if callsMacro v st then .error (.fault .type) st else compileWith (compileUnexpanded depth) v st

end CompileM

end HostedLisp
