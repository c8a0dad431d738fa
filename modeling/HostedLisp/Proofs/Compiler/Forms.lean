import HostedLisp.Proofs.Compiler.Parts

/-!
# Special forms compiled by compilers that do the same

A special form compiles the forms inside by a given compiler. Two compilers that do the same and
close the scopes that they open give the same code of every special form, and the form closes its
scopes too. This holds for every discipline of scopes.

- `Special.follows_bindLocals`, `Special.follows_shareAll`: opening scopes.
- `Special.steady_letStar`, `Special.steady_fnStar`, `Special.steady_tryForm`: one result for each
  special form.
- `Discipline.Matched.compileWith`: the same for forms of any kind.
-/

namespace HostedLisp

open Machine CompileM Discipline Special SessionM

variable {κ : Type} {D : Discipline κ} {k : κ} {o : Opened} {f g : CompileFn}

namespace Special

variable {α : Type}

/-- A form of the wrong size is refused. -/
theorem sized {p : Int → Prop} [DecidablePred p] {reason : String} {v form : Value}
    {x y : Int → CompileM α} {o' : α → Opened} (hxy : ∀ n, D.Follows k o (x n) (y n) o') :
    D.Follows k o (size v >>= fun n => if p n then fail reason form else x n)
      (size v >>= fun n => if p n then fail reason form else y n) o' := by
  refine step (keeps_size v) fun n => ?_
  split
  · exact fails _ _
  · exact hxy n

variable (h : D.Matched f g) (form : Value)

include h

theorem steady_each (forms : List Value) : D.Steady k o (each f forms) (each g forms) :=
  .mapM (h _ _) forms

theorem steady_body : D.Steady k o (body f form) (body g form) :=
  step (keeps_remaining form) fun forms => .bind (steady_each h forms) fun _ => returns _

/-! ## Local variables and loops -/

/-- Every variable gets a number of its own before it comes into scope. -/
theorem follows_bindLocals : ∀ (code : Instrs) (keys items : List Value),
    D.Follows k (o.enterAll keys) (bindLocals f form code keys items)
      (bindLocals g form code keys items) fun bound => o.enterAll bound.2
  | _, _, [] => .pure fun _ hst => hst
  | _, _, [_] => .pure fun _ hst => hst
  | code, keys, key :: value :: others => by
    unfold bindLocals
    split
    · refine .bind (h _ _ value) fun c => ?_
      -- a discipline may hold only once the number just taken is in use, so both are one step
      rw [newLocal_bind, newLocal_bind]
      refine .bind (D.fresh k _ _ _) fun a => step (keeps_lift _) fun store => ?_
      rw [← Opened.enterAll_concat]
      exact follows_bindLocals _ _ others
    · exact fails _ _

theorem follows_bindings (items : List Value) :
    D.Follows k o (bindLocals f form [] [] items) (bindLocals g form [] [] items)
      fun bound => o.enterAll bound.2 := by
  have hall := follows_bindLocals (k := k) (o := o) h form [] [] items
  rwa [Opened.enterAll_nil] at hall

theorem steady_letStar : D.Steady k o (letStar f form) (letStar g form) := by
  refine sized fun _ => ?_
  refine step (keeps_rest form) fun form => step (keeps_head form) fun vector => ?_
  split
  · exact fails _ _
  · refine step (keeps_bindingItems _ form vector) fun items => ?_
    refine .bind (follows_bindings h form items) fun bound => ?_
    exact step (keeps_rest form) fun form => .bind (steady_body h form) fun inner =>
      .bind (popAll _) fun _ => returns _

theorem steady_loopStar : D.Steady k o (loopStar f form) (loopStar g form) := by
  refine sized fun _ => ?_
  refine step (keeps_rest form) fun form => step (keeps_head form) fun vector => ?_
  split
  · refine step (keeps_bindingItems _ form _) fun items => ?_
    refine .bind (follows_bindings h form items) fun bound => ?_
    refine step (keeps_rest form) fun form => step (keeps_newLabel _) fun label => ?_
    refine step (keeps_stores _) fun stores => .bind (D.pushRecur k _ _) fun _ => ?_
    exact .bind (steady_body h form) fun inner => .bind (D.popRecur k _) fun _ =>
      .bind (popAll _) fun _ => returns _
  · exact fails _ _

theorem steady_recur : D.Steady k o (recur f form) (recur g form) := by
  refine step (keeps_rest form) fun rest => step (keeps_remaining rest) fun args => ?_
  refine step keeps_recurPoint fun p => ?_
  split
  · exact fails _ _
  · exact .bind (steady_each h args) fun code => step keeps_recurPoint fun p => returns _

omit h in
theorem follows_bindExpansions (form : Value) : ∀ keys items : List Value,
    D.Follows k (o.enterAll keys) (bindExpansions form keys items) (bindExpansions form keys items)
      fun keys => o.enterAll keys
  | _, [] => .pure fun _ hst => hst
  | _, [_] => fails _ _
  | keys, key :: value :: others => by
    refine .bind (D.push k _ key _ (.expansion key value)) fun _ => ?_
    rw [← Opened.enterAll_concat]
    exact follows_bindExpansions form (keys ++ [key]) others

theorem steady_letMacro : D.Steady k o (letMacro f form) (letMacro g form) := by
  refine sized fun _ => ?_
  refine step (keeps_rest form) fun form => step (keeps_head form) fun first => ?_
  refine step (keeps_lift _) fun seq => step (keeps_remaining seq) fun items => ?_
  have hbind := follows_bindExpansions (D := D) (k := k) (o := o) form [] items
  rw [Opened.enterAll_nil] at hbind
  refine .bind hbind fun keys => ?_
  exact step (keeps_rest form) fun rest => .bind (steady_body h rest) fun code =>
    .bind (popAll keys) fun _ => returns _

/-! ## Functions -/

omit h in
theorem follows_pushParameters (keys : List Value) :
    D.Follows k o (pushParameters keys) (pushParameters keys) fun _ => o.enterAll keys := by
  refine enterEach (fun o key => ?_) keys
  split
  · exact D.push k o _ _ (.argument _ _)
  · exact throws _

theorem steady_function (name : Symbol) (form whole : Value) :
    D.Steady k o (function f name form whole) (function g name form whole) := by
  refine step (keeps_head form) fun first => step (keeps_parameters first) fun p => ?_
  refine .bind (follows_pushParameters p.keys) fun _ => step (keeps_metadata? whole) fun data => ?_
  -- the line is read in one of three ways, and a rest argument is brought into shape first
  extract_lets withLine withLine'
  have hline (line : Value) :
      D.Follows k (o.enterAll p.keys) (withLine line) (withLine' line) fun _ => o := by
    dsimp -zeta only [withLine, withLine']
    extract_lets line withRest withRest'
    have hrest (clean : Instrs) :
        D.Follows k (o.enterAll p.keys) (withRest clean) (withRest' clean) fun _ => o := by
      refine step (keeps_newLabel _) fun label => step (keeps_stores _) fun back => ?_
      refine .bind (D.pushRecur k _ _) fun _ => step (keeps_rest form) fun rest => ?_
      refine .bind (steady_body h rest) fun inner => .bind (D.popRecur k _) fun _ => ?_
      refine .bind (popAll p.keys) fun _ => step keeps_closuresInUse fun cells => ?_
      refine step (keeps_expandGlobals _) fun code => step keeps_nsName fun ns => ?_
      refine step keeps_scope fun sc => ?_
      split
      · exact keeps (keeps_lift _)
      · exact returns _
    split
    · exact step (keeps_restName p) fun name => step (keeps_newLabel _) fun clean =>
        .bind (returns _) hrest
    · exact .bind (returns _) hrest
  split
  · exact .bind (throws _) hline
  · exact .bind (returns _) hline
  · exact step (keeps_lift _) hline

theorem steady_overload : D.Steady k o (overload f form) (overload g form) := by
  refine step (keeps_lift _) fun form => sized fun _ => ?_
  refine step (keeps_head form) fun first => ?_
  split
  · refine step (keeps_rest form) fun inner => step (keeps_parameters _) fun p => ?_
    refine step (keeps_newLabel _) fun finish => ?_
    refine step (.mapM (fun _ => keeps_takeArgument p _ _) _) fun takes => ?_
    refine .bind (follows_pushParameters p.keys) fun _ => step (keeps_newLabel _) fun label => ?_
    refine step (keeps_stores _) fun back => .bind (D.pushRecur k _ _) fun _ => ?_
    exact .bind (steady_body h inner) fun code => .bind (D.popRecur k _) fun _ =>
      .bind (popAll _) fun _ => returns _
  · exact fails _ _

theorem steady_overloads : D.Steady k o (overloads f form) (overloads g form) :=
  step (keeps_remaining form) fun forms => .bind (.mapM (steady_overload h) forms) fun _ => throws _

omit h in
/-- A shared variable is a closure. -/
theorem follows_newClosure {key : Value} {name : String} {x y : Nat × Alias → CompileM α}
    {o' : α → Opened}
    (hxy : ∀ id, D.Follows k o (x (id, .closure id key name false))
      (y (id, .closure id key name false)) o') :
    D.Follows k o (newClosure key name >>= x) (newClosure key name >>= y) o' := by
  simp only [newClosure, bind_assoc, pure_bind]
  exact step keeps_scope fun s => step (keeps_modifyScope fun _ => ⟨rfl, rfl, rfl⟩) fun _ =>
    hxy s.closures

omit h in
theorem follows_shareAll : D.Follows k o shareAll shareAll fun keys => o.enterAll keys := by
  refine step keeps_scope fun s => .bind (enterEach (fun o key => ?_) _) fun _ =>
    .pure fun _ hst => hst
  split
  all_goals exact .bind (returns _) fun _ => follows_newClosure fun _ => D.push k o _ _ (.shared ..)

theorem steady_readAlias (key : Value) (a : Alias) :
    D.Steady k o (readAlias f key a) (readAlias g key a) := by
  unfold readAlias
  split
  · exact h _ _ _
  · exact .bind (.of_agree (D.mark k o key) fun _ => D.left) fun _ => returns _
  · exact returns _

theorem steady_loadCells (own : Nat) (cells : List (Nat × Value × String)) :
    D.Steady k o (loadCells f own cells) (loadCells g own cells) := by
  induction cells with
  | nil => exact returns _
  | cons cell others ih =>
    obtain ⟨id, key, name⟩ := cell
    unfold loadCells
    split
    · exact .bind (returns _) fun _ => .bind ih fun _ => returns _
    · refine step (keeps_getAlias? key) fun a => ?_
      split
      · exact .bind (throws _) fun _ => .bind ih fun _ => returns _
      · exact .bind (steady_readAlias h key _) fun _ => .bind (returns _) fun _ =>
          .bind ih fun _ => returns _

/-- What is open while a function is compiled, with a name of its own or without. -/
def inFunctionIf (pushed : Bool) (o : Opened) : Opened := if pushed then o.inFunction else o

theorem steady_fnStar : D.Steady k o (fnStar f form) (fnStar g form) := by
  refine .bind follows_shareAll fun shared => sized fun _ => ?_
  -- with a name or without, for one list of parameters or several, the same steps follow
  extract_lets whole named named'
  have hnamed : ∀ x, D.Follows k (inFunctionIf x.2.1 (o.enterAll shared)) (named x) (named' x)
      fun _ => o := by
    rintro ⟨name, pushed, form⟩
    dsimp -zeta only [named, named']
    extract_lets key
    refine follows_newClosure fun own => ?_
    refine .bind (D.push k _ key _ (.shared ..)) fun _ => step (keeps_head form) fun first => ?_
    refine step (keeps_size form) fun n => ?_
    extract_lets coded coded'
    have hcoded (code : Instrs) : D.Follows k ((inFunctionIf pushed (o.enterAll shared)).enter key)
        (coded code) (coded' code) fun _ => o := by
      dsimp -zeta only [coded, coded']
      extract_lets left left'
      have hleft (u : Unit) : D.Follows k ((o.enterAll shared).enter key) (left u) (left' u)
          fun _ => o := by
        rw [← Opened.enterAll_enter]
        refine step keeps_closuresInUse fun cells => .bind (popAll shared) fun _ => ?_
        extract_lets done
        have hdone (code : Instrs) : D.Follows k (o.enter key) (done code) (done code) fun _ => o :=
          .bind (D.pop k o key) fun _ => returns _
        split
        · exact .bind (returns _) hdone
        · exact .bind (steady_loadCells h own cells) fun _ => .bind (returns _) hdone
      cases pushed with
      | true => exact .bind (D.popName k ((o.enterAll shared).enter key)) hleft
      | false => exact hleft ()
    split
    · exact .bind (steady_function h name form whole) hcoded
    · split
      · exact step (keeps_loopItems first) fun _ => .bind (steady_function h name _ whole) hcoded
      · exact .bind (steady_overloads h form) hcoded
  refine step (keeps_rest form) fun rest => step (keeps_head rest) fun first => ?_
  split
  · exact .bind (D.pushName k _ _) fun _ => step (keeps_rest rest) fun _ =>
      hnamed (_, true, _)
  · exact step (keeps_namesText true) fun _ => hnamed (_, false, _)

/-! ## Guarded code -/

/-- The variable of a handler keeps its name. -/
theorem steady_handlers (slot : String) (first finish unhandled : Label)
    (isFirst : Bool) (hs : List (Handler × Label)) :
    D.Steady k o (handlers f slot first finish unhandled isFirst hs)
      (handlers g slot first finish unhandled isFirst hs) := by
  induction hs generalizing isFirst with
  | nil => exact returns _
  | cons x others ih =>
    unfold handlers
    split
    next s info hbinder =>
      rw [hbinder]
      exact .bind (D.push k o _ _ (.argument s info)) fun _ => .bind (h _ _ _) fun cls =>
        .bind (h _ _ _) fun code => .bind (D.pop k o _) fun _ => .bind (ih false) fun _ => returns _
    next hbinder =>
      -- a binder that is no symbol stands for no variable, and the form is refused
      exact .bind (D.push k o _ _ (.nameless hbinder "")) fun _ =>
        .bind (h _ _ _) fun cls => throws _

theorem steady_tryCatch (code : Instrs) (hs : List Handler) :
    D.Steady k o (tryCatch f code hs) (tryCatch g code hs) := by
  unfold tryCatch
  split
  · exact throws _
  · refine step (keeps_handlerLabels hs) fun labels => step (keeps_newLabel _) fun finish => ?_
    refine step (keeps_newLabel _) fun unhandled => step (keeps_newLabel _) fun first => ?_
    exact step keeps_resultSlot fun slot => .bind (steady_handlers h _ _ _ _ _ _) fun _ => returns _

theorem steady_tryCatchFinally (code : Instrs) (hs : List Handler) (fin : Instrs) :
    D.Steady k o (tryCatchFinally f code hs fin) (tryCatchFinally g code hs fin) := by
  unfold tryCatchFinally
  split
  · exact throws _
  · refine step (keeps_handlerLabels hs) fun labels => step (keeps_newLabel _) fun final => ?_
    refine step (keeps_newLabel _) fun unhandled => step (keeps_newLabel _) fun first => ?_
    refine step (keeps_newLabel _) fun normal => step keeps_resultSlot fun slot => ?_
    exact .bind (steady_handlers h _ _ _ _ _ _) fun _ => returns _

theorem steady_clauses (c : Clauses) (items : List Value) :
    D.Steady k o (clauses f form c items) (clauses g form c items) := by
  induction items generalizing c with
  | nil => exact returns _
  | cons clause others ih =>
    refine step (keeps_clauseName clause) fun name => ?_
    split
    iterate 2
      · exact step (keeps_handlerClause _ _ _ _) fun _ => ih _
    iterate 2
      · refine sized fun _ => step (keeps_lift _) fun known => ?_
        split
        · exact fails _ _
        · exact step (keeps_item 1 clause) fun _ => ih _
    · exact .bind (h _ _ clause) fun _ => ih _

theorem steady_tryForm : D.Steady k o (tryForm f form) (tryForm g form) := by
  refine step (keeps_rest form) fun form => ?_
  split
  · exact returns _
  · refine step (keeps_head _) fun first => .bind (h _ _ first) fun code => ?_
    refine step (keeps_rest _) fun form => ?_
    split
    · exact returns _
    · refine step (keeps_remaining _) fun items => .bind (steady_clauses h _ _ items) fun c => ?_
      refine step (keeps_lift _) fun hasFinal => step (keeps_lift _) fun hasElse => ?_
      split
      · exact .bind (h _ _ _) fun fin => keeps (keeps_tryFinally _ fin)
      · exact steady_tryCatch h _ _
      · exact fails _ _
      · exact .bind (h _ _ _) fun fin => steady_tryCatchFinally h _ _ fin
      · exact returns _
      · exact throws _

/-! ## Literal operations -/

/-- Work in another scope and go back. -/
def aside {α : Type} (inner outer : Scope) (x : CompileM (Except Error α)) : CompileM α := do
  modifyScope fun _ => inner
  let r ← x
  modifyScope fun _ => outer
  lift r

omit h in
/-- Whatever the inner compiler ends with, the one outside goes on as before. -/
theorem steady_aside {x y : CompileM (Except Error α)} {inner : Scope}
    {st : CompileState} (hinner : inner.aliases = []) (hst : D.Holds k o st)
    (hxy : ∀ k', Tracks (D.Holds k' {}) x y (fun _ => D.Left k') fun _ => False) :
    aside inner st.scope x st = aside inner st.scope y st ∧
      EndsIn (fun _ => D.Holds k o) (D.Left k) (aside inner st.scope y st) := by
  obtain ⟨k', hbare, hback⟩ := D.aside hst hinner
  have henter : modifyScope (fun _ => inner) st = .ok () { st with scope := inner } := rfl
  obtain ⟨hsame, hend⟩ := hxy k' _ hbare
  rw [aside, aside, bind_of_ok henter, bind_of_ok henter]
  cases hy : y { st with scope := inner } with
  | error e st' =>
    rw [hy] at hend
    exact hend.elim
  | ok r st' =>
    rw [hy] at hsame hend
    have hleave : modifyScope (fun _ => st.scope) st' = .ok () { st' with scope := st.scope } := rfl
    rw [bind_of_ok hsame, bind_of_ok hy, bind_of_ok hleave]
    exact (keeps (keeps_lift r) : D.Steady k o _ _) _ (hback st' hend)

omit h in
theorem coreScope_cases (st : CompileState) :
    (∃ e st', coreScope st = .error e st') ∨
      ∃ inner s, coreScope st = .ok inner { st with session := s } ∧ inner.aliases = [] := by
  unfold coreScope
  cases hopen : openNamespace "clojure.core" st.session with
  | ok ns s =>
    have hin : inSession (openNamespace "clojure.core") st = .ok ns { st with session := s } := by
      rw [inSession, EStateM.run, hopen]
    rw [bind_of_ok hin]
    exact .inr ⟨_, s, rfl, rfl⟩
  | error e s =>
    have hin : inSession (openNamespace "clojure.core") st = .error e { st with session := s } := by
      rw [inSession, EStateM.run, hopen]
    exact .inl ⟨e, _, bind_of_error hin⟩

omit h in
theorem keeps_coreScope {I : CompileState → Prop} [Indifferent I] : Keeps I coreScope :=
  .bind (keeps_inSession (keeps_openNamespace _)) fun _ => .pure _

/-- The compiler that evaluates a form starts without local names. -/
theorem steady_evaluate : D.Steady k o (evaluate f form) (evaluate g form) := by
  intro st hst
  have hscope : scope st = .ok st.scope st := rfl
  obtain ⟨-, hcoreEnd⟩ := (keeps keeps_coreScope : D.Steady k o coreScope coreScope) st hst
  rw [evaluate, evaluate, bind_of_ok hscope, bind_of_ok hscope]
  rcases coreScope_cases st with ⟨e, st', hcore⟩ | ⟨inner, s, hcore, hinner⟩
  · rw [hcore] at hcoreEnd
    rw [bind_of_error hcore, bind_of_error hcore]
    exact ⟨rfl, hcoreEnd⟩
  · rw [hcore] at hcoreEnd
    rw [bind_of_ok hcore, bind_of_ok hcore]
    refine steady_aside hinner hcoreEnd fun k' => ?_
    refine .tryCatch (E := D.Left k') ?_ fun e => .pure fun _ hleft => hleft
    exact .bind (h k' {} form) fun code => .bind (keeps (keeps_expandGlobals code)) fun code =>
      .bind (keeps (keeps_execute code _)) fun _ => .pure fun _ hst => D.left hst

theorem steady_operationArgument (op : Opcode) (form : Value) :
    D.Steady k o (operationArgument f op form) (operationArgument g op form) := by
  refine step (keeps_head form) fun arg => ?_
  extract_lets isPlain
  split
  · exact fails _ _
  · exact steady_evaluate h arg

theorem steady_operation (name : String) :
    D.Steady k o (operation f form name) (operation g form name) := by
  unfold operation
  split
  · split
    · exact throws _
    · split
      · exact step (keeps_rest form) fun _ => throws _
      · exact fails _ _
  · refine step (keeps_rest form) fun args => ?_
    extract_lets ready ready'
    have hready : ∀ x, D.Steady k o (ready x) (ready' x) := by
      rintro ⟨arg, args⟩
      dsimp -zeta only [ready, ready']
      refine step (keeps_lift _) fun effect => ?_
      extract_lets checked checked'
      have hchecked (refused : Bool) : D.Steady k o (checked refused) (checked' refused) := by
        dsimp only [checked, checked']
        split
        · exact fails _ _
        · exact step (keeps_remaining args) fun forms =>
            .bind (steady_each h forms) fun _ => returns _
      split
      · exact .bind (returns _) hchecked
      · exact step (keeps_size args) fun _ => .bind (returns _) hchecked
    split
    · exact .bind (returns _) hready
    · exact .bind (steady_operationArgument h _ args) fun _ => step (keeps_rest args) fun _ =>
        .bind (returns _) hready

/-! ## Names and members -/

theorem steady_symbol (v : Value) (s : Symbol) : D.Steady k o (symbol f v s) (symbol g v s) := by
  refine step (keeps_getAlias? v) fun a => ?_
  split
  · exact steady_readAlias h v _
  · exact keeps (keeps_access s)

theorem steady_memberOf (target : Value) (name : String) :
    D.Steady k o (memberOf f target name) (memberOf g target name) := by
  unfold memberOf
  split
  · exact h _ _ _
  · exact h _ _ _
  · refine step (keeps_moduleFor _) fun m => step (keeps_globalOf? m name) fun code => ?_
    split
    · exact returns _
    · exact throws _
  · exact throws _

theorem steady_methodAccess (name : String) :
    D.Steady k o (methodAccess f form name) (methodAccess g form name) := by
  refine sized fun _ => ?_
  refine step (keeps_item 1 form) fun target => .bind (h _ _ target) fun code => ?_
  refine step (keeps_stepOn form) fun form => step (keeps_rest form) fun rest => ?_
  exact step (keeps_remaining rest) fun args => .bind (steady_each h args) fun _ => returns _

theorem steady_propertyAccess (name : String) :
    D.Steady k o (propertyAccess f form name) (propertyAccess g form name) := by
  refine sized fun _ => ?_
  exact step (keeps_item 1 form) fun target => .bind (h _ _ target) fun _ => returns _

theorem steady_dot : D.Steady k o (dot f form) (dot g form) := by
  refine sized fun _ => ?_
  refine step (keeps_item 1 form) fun target => step (keeps_item 2 form) fun member => ?_
  extract_lets known known'
  have hknown : ∀ x, D.Steady k o (known x) (known' x) := by
    rintro ⟨name?, args⟩
    refine step (keeps_getAlias? target) fun a => ?_
    split
    · refine .bind (steady_readAlias h target _) fun code => ?_
      split
      · exact returns _
      · exact throws _
    · exact .bind (steady_memberOf h target _) fun _ => returns _
    · exact throws _
  split
  · exact .bind (returns _) hknown
  · split
    · refine step (keeps_head _) fun first => ?_
      split
      · refine step (keeps_size _) fun n => ?_
        split
        · exact step (keeps_rest _) fun rest => step (keeps_remaining rest) fun forms =>
            .bind (steady_each h forms) fun _ => .bind (returns _) hknown
        · exact .bind (returns _) fun _ => .bind (returns _) hknown
      · exact .bind (fails _ _) hknown
    · exact .bind (returns _) hknown

/-! ## Simple forms -/

theorem steady_inNs : D.Steady k o (inNs f form) (inNs g form) := by
  refine step (keeps_rest form) fun args => sized fun _ => ?_
  refine step (keeps_head args) fun ns => ?_
  split
  · exact .bind (returns _) fun _ => returns _
  · exact .bind (h _ _ _) fun _ => returns _

theorem steady_define : D.Steady k o (define f form) (define g form) := by
  refine sized fun _ => ?_
  refine step (keeps_item 1 form) fun name => ?_
  extract_lets withValue withValue'
  have hvalue (value : Value) : D.Steady k o (withValue value) (withValue' value) := by
    dsimp -zeta only [withValue, withValue']
    split
    · refine .bind (D.pushName k o _) fun _ => step keeps_scope fun sc => ?_
      refine step (keeps_inSession (keeps_intern _ _)) fun var => ?_
      split
      · refine step (keeps_inSession (keeps_updateVar _ _)) fun _ => ?_
        extract_lets done
        have hdone (code : Instrs) : D.Follows k o.inFunction (done code) (done code) fun _ => o :=
          step (keeps_inSession (keeps_setInfo _ _)) fun _ =>
            .bind (D.popName k o) fun _ => returns _
        split
        · refine .bind (h _ _ value) fun code => ?_
          extract_lets bound
          have hbound (u : Unit) : D.Follows k o.inFunction (bound u) (bound u) fun _ => o :=
            .bind (returns _) hdone
          split
          · refine step (keeps_head value) fun first => step (keeps_ownName first) fun own => ?_
            split
            · exact step (keeps_attachDoc code) hbound
            · exact hbound ()
          · exact hbound ()
        · exact .bind (returns _) hdone
      · exact throws _
    · exact throws _
  split
  · exact step (keeps_item 2 form) hvalue
  · exact .bind (returns _) hvalue

theorem steady_conditionParts : D.Steady k o (conditionParts f form) (conditionParts g form) := by
  refine sized fun _ => ?_
  refine step (keeps_item 1 form) fun c => .bind (h _ _ c) fun condition => ?_
  refine step (keeps_item 2 form) fun y => .bind (h _ _ y) fun yes => ?_
  split
  · exact .bind (returns _) fun _ => returns _
  · exact step (keeps_item 3 form) fun x => .bind (h _ _ x) fun _ => returns _

theorem steady_machineIf : D.Steady k o (machineIf f form) (machineIf g form) :=
  .bind (steady_conditionParts h form) fun _ => step (keeps_newLabel _) fun _ =>
    step (keeps_newLabel _) fun _ => returns _

theorem steady_ifStar : D.Steady k o (ifStar f form) (ifStar g form) :=
  .bind (steady_conditionParts h form) fun _ => step (keeps_newLabel _) fun _ =>
    step (keeps_newLabel _) fun _ => step keeps_nextId fun _ => returns _

theorem steady_isSame : D.Steady k o (isSame f form) (isSame g form) := by
  refine sized fun _ => ?_
  refine step (keeps_item 1 form) fun a => step (keeps_item 2 form) fun b => ?_
  exact .bind (h _ _ a) fun _ => .bind (h _ _ b) fun _ => returns _

theorem steady_throwForm : D.Steady k o (throwForm f form) (throwForm g form) := by
  refine sized fun _ => ?_
  exact step (keeps_item 1 form) fun x => .bind (h _ _ x) fun _ => returns _

theorem steady_kwApply : D.Steady k o (kwApply f form) (kwApply g form) := by
  refine sized fun _ => ?_
  refine step (keeps_rest form) fun form => step (keeps_head form) fun fn => ?_
  refine step (keeps_rest form) fun form => step (keeps_head form) fun kws => ?_
  refine step (keeps_rest form) fun rest => step (keeps_remaining rest) fun args => ?_
  exact .bind (steady_each h _) fun _ => .bind (h _ _ kws) fun _ => returns _

theorem steady_applyTo : D.Steady k o (applyTo f form) (applyTo g form) :=
  step (keeps_rest form) fun rest => step (keeps_remaining rest) fun args =>
    .bind (steady_each h args) fun _ => returns _

theorem steady_vector : D.Steady k o (vector f form) (vector g form) :=
  .bind (h _ _ _) fun _ => step (keeps_loopItems form) fun items =>
    .bind (steady_each h items) fun _ => returns _

theorem steady_map : D.Steady k o (map f form) (map g form) := by
  refine step (keeps_lift _) fun seq => step (keeps_remaining seq) fun entries => ?_
  refine .bind (h _ _ _) fun fn => .bind (.mapM (fun e => ?_) entries) fun _ => returns _
  exact step (keeps_lift _) fun kv => .bind (h _ _ _) fun _ => .bind (h _ _ _) fun _ => returns _

/-- The special forms of all names. -/
theorem steady_named? {s : Symbol} {special : CompileFn → Value → CompileM Instrs}
    (hs : named? s = some special) (form : Value) :
    D.Steady k o (special f form) (special g form) := by
  unfold named? at hs
  split at hs <;> cases hs
  · exact steady_inNs h form
  · exact steady_define h form
  · exact steady_kwApply h form
  · exact steady_loopStar h form
  · exact steady_letStar h form
  · exact steady_dot h form
  · exact keeps (keeps_quote form)
  · exact steady_machineIf h form
  · exact steady_ifStar h form
  · exact step (keeps_rest form) fun rest => steady_body h rest
  · exact steady_fnStar h form
  · exact steady_recur h form
  · exact steady_isSame h form
  · exact steady_throwForm h form
  · exact steady_applyTo h form
  · exact steady_letMacro h form
  · exact returns _
  · exact steady_tryForm h form

end Special

/-! ## Forms of any kind -/

namespace CompileM

/-- The call of what the first item stands for. -/
def plainCall (compile : CompileFn) (form first : Value) : CompileM Instrs := do
  let fn ← compile first
  let args ← each compile (← remaining (← rest form))
  return fn ++ args.flatten ++ [callWith args.length]

theorem steady_compileList (h : D.Matched f g) (form : Value) :
    D.Steady k o (compileList f form) (compileList g form) := by
  refine step (keeps_head form) fun first => step (keeps_lift _) fun _ => ?_
  dsimp only
  split
  · next special hspecial =>
    split at hspecial
    · exact steady_named? h hspecial form
    · cases hspecial
  · refine step (keeps_expandMacro? form) fun expanded => ?_
    have hplain : D.Steady k o (plainCall f form first) (plainCall g form first) :=
      .bind (h _ _ first) fun fn => step (keeps_rest form) fun rest =>
        step (keeps_remaining rest) fun forms =>
          .bind (steady_each h forms) fun _ => returns _
    split
    · exact h _ _ _
    · split
      · split
        · exact steady_operation h form _
        · split
          · exact steady_propertyAccess h form _
          · split
            · exact steady_methodAccess h form _
            · exact hplain
      · exact hplain

theorem steady_compileValue (h : D.Matched f g) (v : Value) :
    D.Steady k o (compileValue f v) (compileValue g v) := by
  unfold compileValue
  split
  all_goals try exact returns _
  all_goals try exact steady_compileList h _
  all_goals try exact steady_vector h _
  all_goals try exact steady_map h _
  · exact steady_symbol h _ _
  · refine step (keeps_inSession (keeps_cell? v)) fun c => ?_
    split
    · exact returns _
    · exact step (keeps_inSession keeps_viewer) fun _ => throws _

end CompileM

/-- Two compilers that do the same on the forms inside do the same on every form. What is announced
after a failure changes nothing. -/
theorem Discipline.Matched.compileWith (h : D.Matched f g) :
    D.Matched (CompileM.compileWith f) (CompileM.compileWith g) := by
  intro k o v
  refine .tryCatch (E := D.Left k) (step (keeps_lineMarker v) fun marker =>
    .bind (steady_compileValue h v) fun _ => returns _) fun e => ?_
  exact .bind (.of_agree (keeps_text v) fun _ => id) fun _ =>
    .bind (.of_agree (keeps_inSession (keeps_printLine _)) fun _ => id) fun _ =>
      .throw e fun _ => id

/-- The compiler itself closes the scopes that it opens. -/
theorem Discipline.matched_compileAt (depth : Nat) :
    D.Matched (compileAt depth) (compileAt depth) := by
  induction depth with
  | zero => exact fun k o v => throws _
  | succ depth ih => exact ih.compileWith

end HostedLisp
