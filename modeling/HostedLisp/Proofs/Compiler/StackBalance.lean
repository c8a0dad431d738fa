import HostedLisp.Proofs.Code.Expansion
import HostedLisp.Proofs.Compiler.Expressions

/-!
# The code of expressions is balanced

The code of an expression leaves one value on the stack and touches nothing below. Each form takes
the labels that it needs from the counter of the session, so that the labels of forms that are
compiled one after the other come from ranges that follow each other.

- `From`, `Emits`: the labels that are free before a form, and its code with the labels it took.
- `Emitting`: compilers whose code of expressions is balanced.
- `Special.emits_letStar`, `Special.emits_ifStar`, `Special.emits_define`: one result for each
  special form, given such a compiler for the forms inside.
- `CompileM.balanced_of_compileAt`: the code of an expression is balanced.
-/

namespace HostedLisp

open Machine CompileM Code Special List

/-! ## Free labels -/

/-- The labels from `L` on are free. -/
structure From (L : Nat) (st : CompileState) : Prop where
  labels : L ≤ st.session.labels
  fit : st.scope.Fit

/-- Something holds of the first label that is free. -/
def Yields (C : Nat → Prop) (st : CompileState) : Prop := st.scope.Fit ∧ C st.session.labels

/-- The code takes its labels from `L` on, and the first that is free comes after them. -/
abbrev Emits (L m n : Nat) (code : Instrs) : CompileState → Prop :=
  Yields fun L' => Segment L L' m n code

/-- The code leaves one value. -/
abbrev Leaves (L : Nat) (x y : CompileM Instrs) : Prop := Refines (From L) x y (Emits L 0 1)

/-- Code of expressions that leaves one value. The second compiler does what the first one does, as
long as that does not give up. -/
def Emitting (f g : CompileFn) : Prop := ∀ L v, Expression v → Leaves L (f v) (g v)

instance (L : Nat) : Indifferent (From L) where
  session hcounts h := ⟨Nat.le_trans h.labels hcounts.2, h.fit⟩
  scope hsame h := ⟨h.labels, h.fit.of_aliases hsame.aliases⟩

namespace From

variable {α β : Type} {L L' m n : Nat} {Q : β → CompileState → Prop}

/-- What comes next uses the labels that are free then. -/
theorem follow {P : CompileState → Prop} {C : α → Nat → Prop} {x y : CompileM α}
    {f g : α → CompileM β} (hx : Refines P x y fun a => Yields (C a))
    (hf : ∀ a L, C a L → Refines (From L) (f a) (g a) Q) : Refines P (x >>= f) (y >>= g) Q :=
  .bind hx fun a st hst => hf a _ hst.2 st ⟨Nat.le_refl _, hst.1⟩

theorem emit {code : Instrs} (h : Segment L L' m n code) :
    Refines (From L') (pure code : CompileM Instrs) (pure code) (Emits L m n) :=
  .pure fun _ hst => ⟨hst.fit, h.widen (Nat.le_refl L) hst.labels⟩

theorem step {x : CompileM α} {f g : α → CompileM β} (hx : Keeps (From L) x)
    (hf : ∀ a, Refines (From L) (f a) (g a) Q) : Refines (From L) (x >>= f) (x >>= g) Q :=
  .bind (.of_keeps hx) hf

theorem fails {P : CompileState → Prop} (reason : String) (form : Value) :
    Refines P (fail reason form) (fail reason form) Q := by
  refine .bind (.self _) fun data => ?_
  split
  · exact .throw _
  · refine .bind (.self _) fun line => .bind (.self _) fun b => ?_
    split
    · exact .bind (.self _) fun _ => .throw _
    · exact .throw _

theorem refines_newLabel (name : String) : Refines (From L) (newLabel name) (newLabel name) fun l =>
    Yields fun L' => L ≤ l.id ∧ l.id < L' := by
  intro st hst l st' h
  cases h
  exact ⟨rfl, hst.fit, hst.labels, Nat.lt_succ_self _⟩

/-! ## Scopes -/

theorem keeps_pushAlias (key : Value) {a : Alias} (ha : ∀ form, a ≠ .expansion form) :
    Keeps (From L) (pushAlias key a) := by
  refine .keeps fun st hst => ?_
  rcases pushAlias_cases key a st with ⟨e, he⟩ | ⟨ps, hok, hps⟩
  · rw [he]
    exact hst
  · rw [hok]
    exact ⟨hst.labels, hst.fit.push ha hps⟩

theorem keeps_popAliases (keys : List Value) : Keeps (From L) (popAliases keys) := by
  refine .forM (fun key => .keeps fun st hst => ?_) keys
  rcases popAlias_cases key st with ⟨e, he⟩ | ⟨ps, hok, hps⟩
  · rw [he]
    exact hst
  · rw [hok]
    exact ⟨hst.labels, hst.fit.pop hps⟩

theorem keeps_markUsed (key : Value) : Keeps (From L) (markUsed key) :=
  .keeps fun _ hst => ⟨hst.labels, hst.fit.read key⟩

/-- Only the local names matter. -/
theorem keeps_modifyRest {f : Scope → Scope} (hf : ∀ sc, (f sc).aliases = sc.aliases) :
    Keeps (From L) (modifyScope f) :=
  .modified fun st hst => ⟨hst.labels, hst.fit.of_aliases (hf st.scope)⟩

theorem keeps_pushRecur (p : RecurPoint) : Keeps (From L) (pushRecur p) :=
  keeps_modifyRest fun _ => rfl

theorem keeps_popRecur : Keeps (From L) popRecur := by
  refine .bind keeps_scope fun sc => ?_
  split
  · exact .throw _
  · exact keeps_modifyRest fun _ => rfl

theorem keeps_pushName (name : String) : Keeps (From L) (pushName name) :=
  keeps_modifyRest fun _ => rfl

theorem keeps_popName : Keeps (From L) popName := by
  refine .bind keeps_scope fun sc => ?_
  split
  · exact .throw _
  · exact keeps_modifyRest fun _ => rfl

end From

open From

variable {f g : CompileFn} {L : Nat} {form : Value}

namespace Special

/-! ## Forms in sequence -/

variable {forms : List Value} {form : Value}

/-- Each of the pieces leaves `k` values. -/
theorem emits_mapM {x y : Value → CompileM Instrs} {k : Nat}
    (hxy : ∀ v ∈ forms, ∀ L, Refines (From L) (x v) (y v) (Emits L 0 k)) :
    Refines (From L) (forms.mapM x) (forms.mapM y) fun codes =>
      Yields fun L' => Segments k L codes L' ∧ codes.length = forms.length := by
  induction forms generalizing L with
  | nil => exact .pure fun st hst => ⟨hst.fit, .nil hst.labels, rfl⟩
  | cons v vs ih =>
    rw [mapM_cons, mapM_cons]
    refine follow (hxy v mem_cons_self L) fun code L₁ hcode => ?_
    refine follow (ih fun w hw => hxy w (mem_cons_of_mem v hw)) fun codes L₂ hcodes => ?_
    refine .pure fun st hst => ⟨hst.fit, .cons hcode (hcodes.1.widen hst.labels), ?_⟩
    rw [length_cons, length_cons, hcodes.2]

theorem emits_each (hf : Emitting f g) (hforms : ∀ x ∈ forms, Expression x) :
    Refines (From L) (each f forms) (each g forms) fun codes =>
      Yields fun L' => Segments 1 L codes L' ∧ codes.length = forms.length :=
  emits_mapM fun v hv L => hf L v (hforms v hv)

theorem emits_body (hf : Emitting f g) (hform : form.Walks forms)
    (hforms : ∀ x ∈ forms, Expression x) : Leaves L (body f form) (body g form) := by
  refine .known remaining_ok fun xs hxs => ?_
  rw [hxs.unique hform]
  exact follow (emits_each hf hforms) fun codes L₁ hcodes => emit hcodes.1.sequence

/-! ## The parts of a form -/

section Parts

variable {α : Type} {form first : Value} {args : List Value} {Q : α → CompileState → Prop}
  {x y : Value → CompileM α}

variable {P : CompileState → Prop}

/-- An item after the first one is an expression. -/
theorem refines_item (k : Nat) (hform : form.Walks (first :: args))
    (hargs : ∀ x ∈ args, Expression x) (hxy : ∀ v, Expression v → Refines P (x v) (y v) Q) :
    Refines P (item (k + 1) form >>= x) (item (k + 1) form >>= y) Q :=
  .known item_ok fun v hv => by
    have hmem : args[k]? = some v := hv (first :: args) hform
    exact hxy v (hargs v (mem_of_getElem? hmem))

theorem refines_rest (hform : form.Walks (first :: args))
    (hxy : ∀ s, s.Walks args → Refines P (x s) (y s) Q) :
    Refines P (rest form >>= x) (rest form >>= y) Q :=
  .known rest_ok fun s hs => hxy s (hform.of_next hs)

theorem refines_head (hform : form.Walks (first :: args)) (hxy : Refines P (x first) (y first) Q) :
    Refines P (head form >>= x) (head form >>= y) Q := by
  refine .known lift_ok fun v hv => ?_
  obtain rfl := Except.ok.inj (hform.first.symm.trans hv)
  exact hxy

end Parts

/-! ## Local variables -/

theorem refines_newLocal (key : Value) (name : String) :
    Refines (From L) (newLocal key name) (newLocal key name) fun a st =>
      (∃ slot, a = .renamed slot) ∧ From L st := by
  refine step (keeps_getAlias? key) fun a => ?_
  extract_lets named
  have hnamed (stem : String) : Refines (From L) (named stem) (named stem) fun a st =>
      (∃ slot, a = .renamed slot) ∧ From L st :=
    step keeps_nextId fun _ => .pure fun _ hst => ⟨⟨_, rfl⟩, hst⟩
  split
  · exact step keeps_nextId fun _ => .returned (hnamed _)
  · exact .returned (hnamed _)

/-- Each value is stored right after it is computed. -/
theorem emits_bindLocals (hf : Emitting f g) (form : Value) {L₁ : Nat} {code : Instrs}
    (hcode : Segment L L₁ 0 0 code) (keys : List Value) : ∀ {items : List Value},
    (∀ x ∈ items, Expression x) →
    Refines (From L₁) (bindLocals f form code keys items) (bindLocals g form code keys items)
      fun bound => Emits L 0 0 bound.1
  | [], _ => .pure fun _ hst => ⟨hst.fit, hcode.widen (Nat.le_refl L) hst.labels⟩
  | [_], _ => .pure fun _ hst => ⟨hst.fit, hcode.widen (Nat.le_refl L) hst.labels⟩
  | key :: value :: others, hitems => by
    have hvalue : Expression value := hitems value (by simp)
    have hothers : ∀ x ∈ others, Expression x := fun x hx => hitems x (by simp [hx])
    unfold bindLocals
    split
    · refine follow (hf L₁ value hvalue) fun c L₂ hc => ?_
      refine .bind (refines_newLocal _ _) fun a => .given fun ha => ?_
      obtain ⟨slot, rfl⟩ := ha
      refine step (keeps_pushAlias _ fun _ => Alias.noConfusion) fun _ => ?_
      refine .known lift_ok fun store hstore => ?_
      cases hstore
      have hstored : Segment L₂ L₂ (0 + 1) (0 + 0) [named .storeFast slot] := .fixed L₂ 0 rfl _
      exact emits_bindLocals hf form ((hcode.append hc).append hstored) _ hothers
    · exact fails _ _

theorem emits_bindings (hf : Emitting f g) (form : Value) {items : List Value}
    (hitems : ∀ x ∈ items, Expression x) :
    Refines (From L) (bindLocals f form [] [] items) (bindLocals g form [] [] items)
      fun bound => Emits L 0 0 bound.1 := emits_bindLocals hf form (.nil L 0) [] hitems

theorem bindingItems_ok {what : String} {vector : Value} (st : CompileState) (items : List Value)
    (st' : CompileState) (h : bindingItems what form vector st = .ok items st') :
    st' = st ∧ vector.items = .ok items := by
  obtain ⟨xs, st₁, hlift, hxs⟩ := exists_of_bind_ok h
  obtain ⟨rfl, hitems⟩ := lift_ok st xs st₁ hlift
  split at hxs
  · exact (fails (P := fun _ => True) (Q := fun _ _ => False) _ _ st₁ trivial _ _ hxs).2.elim
  · cases hxs
    exact ⟨rfl, hitems⟩

section Bindings

variable {form info vector : Value} {s : Symbol} {items forms : List Value} (hf : Emitting f g)
  (hform : form.Walks (.symbol s info :: vector :: forms)) (hvector : vector.items = .ok items)
  (hitems : ∀ x ∈ items, Expression x) (hforms : ∀ x ∈ forms, Expression x)

include hf hform hvector hitems hforms

theorem emits_letStar : Leaves L (letStar f form) (letStar g form) := by
  refine step (keeps_size form) fun n => ?_
  split
  · exact fails _ _
  · refine refines_rest hform fun form hform => refines_head hform ?_
    split
    · exact fails _ _
    · refine .known bindingItems_ok fun items' hitems' => ?_
      obtain rfl := Except.ok.inj (hvector.symm.trans hitems')
      refine follow (emits_bindings hf form hitems) fun bound L₁ hbound => ?_
      refine refines_rest hform fun rest hrest => ?_
      refine follow (emits_body hf hrest hforms) fun inner L₂ hinner => ?_
      exact step (keeps_popAliases _) fun _ => emit (hbound.append hinner)

/-- Nothing jumps to the label of the loop. -/
theorem emits_loopStar : Leaves L (loopStar f form) (loopStar g form) := by
  refine step (keeps_size form) fun n => ?_
  split
  · exact fails _ _
  · refine refines_rest hform fun form hform => refines_head hform ?_
    split
    · refine .known bindingItems_ok fun items' hitems' => ?_
      obtain rfl := Except.ok.inj (hvector.symm.trans hitems')
      refine follow (emits_bindings hf form hitems) fun bound L₁ hbound => ?_
      refine refines_rest hform fun rest hrest => ?_
      refine follow (refines_newLabel _) fun label L₂ hlabel => ?_
      refine step (keeps_stores _) fun stores => step (keeps_pushRecur _) fun _ => ?_
      refine follow (emits_body hf hrest hforms) fun inner L₃ hinner => ?_
      refine step keeps_popRecur fun _ => step (keeps_popAliases _) fun _ => ?_
      have hlanding : Segment L₁ L₂ 0 0 [landing label] :=
        (Segment.label label 0).widen hlabel.1 hlabel.2
      exact emit ((hbound.append hlanding).append hinner)
    · exact fails _ _

/-- The special forms that start with bindings. -/
theorem emits_binding (hs : s ∈ bindingForms) : ∃ special, named? s = some special ∧
    Leaves L (special f form) (special g form) := by
  simp only [bindingForms, mem_cons, not_mem_nil, or_false] at hs
  rcases hs with rfl | rfl
  · exact ⟨_, rfl, emits_letStar hf hform hvector hitems hforms⟩
  · exact ⟨_, rfl, emits_loopStar hf hform hvector hitems hforms⟩

end Bindings

/-! ## Conditionals and small forms -/

theorem emits_quote : Leaves L (quote form) (quote form) := by
  refine step (keeps_size form) fun n => ?_
  split
  · exact fails _ _
  · exact step (keeps_item 1 form) fun v => emit (.constant L v)

section Nesting

variable {form info : Value} {s : Symbol} {args : List Value} (hf : Emitting f g)
  (hform : form.Walks (.symbol s info :: args)) (hargs : ∀ x ∈ args, Expression x)

include hf hform hargs

theorem emits_conditionParts :
    Refines (From L) (conditionParts f form) (conditionParts g form) fun parts => Yields fun L' =>
      ∃ L₁ L₂, Segment L L₁ 0 1 parts.1 ∧ Segment L₁ L₂ 0 1 parts.2.1 ∧
      Segment L₂ L' 0 1 parts.2.2 := by
  refine step (keeps_size form) fun n => ?_
  split
  · exact fails _ _
  · refine refines_item 0 hform hargs fun c hc => ?_
    refine follow (hf L c hc) fun condition L₁ hcondition => ?_
    refine refines_item 1 hform hargs fun y hy => ?_
    refine follow (hf L₁ y hy) fun yes L₂ hyes => ?_
    have hparts {L₃ : Nat} {no : Instrs} (hno : Segment L₂ L₃ 0 1 no) (st : CompileState)
        (hst : From L₃ st) : Yields (fun L' => ∃ L₁ L₂, Segment L L₁ 0 1 condition ∧
          Segment L₁ L₂ 0 1 yes ∧ Segment L₂ L' 0 1 no) st :=
      ⟨hst.fit, L₁, L₂, hcondition, hyes, hno.widen (Nat.le_refl L₂) hst.labels⟩
    split
    · exact .returned (.pure (hparts (.constant L₂ .nil)))
    · refine refines_item 2 hform hargs fun x hx => ?_
      exact follow (hf L₂ x hx) fun no L₃ hno => .pure (hparts hno)

theorem emits_machineIf : Leaves L (machineIf f form) (machineIf g form) := by
  refine follow (emits_conditionParts hf hform hargs) fun parts L₃ hparts => ?_
  obtain ⟨L₁, L₂, hcondition, hyes, hno⟩ := hparts
  refine follow (refines_newLabel _) fun otherwise L₄ hotherwise => ?_
  refine follow (refines_newLabel _) fun finish L₅ hfinish => ?_
  have hbranch := Segment.branch hyes hno hotherwise.1 (Nat.lt_of_lt_of_le hotherwise.2 hfinish.1)
  exact emit ((hcondition.append hbranch).widen (Nat.le_refl L) hfinish.2)

theorem emits_ifStar : Leaves L (ifStar f form) (ifStar g form) := by
  refine follow (emits_conditionParts hf hform hargs) fun parts L₃ hparts => ?_
  obtain ⟨L₁, L₂, hcondition, hyes, hno⟩ := hparts
  refine follow (refines_newLabel _) fun otherwise L₄ hotherwise => ?_
  refine follow (refines_newLabel _) fun finish L₅ hfinish => ?_
  refine step keeps_nextId fun id => ?_
  have htest := Segment.test ("p0__" ++ Nat.repr id ++ "#") hcondition hyes hno hotherwise.1
    (Nat.lt_of_lt_of_le hotherwise.2 hfinish.1)
  exact emit (htest.widen (Nat.le_refl L) hfinish.2)

theorem emits_isSame : Leaves L (isSame f form) (isSame g form) := by
  refine step (keeps_size form) fun n => ?_
  split
  · exact fails _ _
  · refine refines_item 0 hform hargs fun a ha => refines_item 1 hform hargs fun b hb => ?_
    refine follow (hf L a ha) fun first L₁ hfirst => ?_
    refine follow (hf L₁ b hb) fun second L₂ hsecond => ?_
    have hcompare : Segment L₂ L₂ (0 + 2) (0 + 1) [named .compareOp "is"] := .fixed L₂ 0 rfl _
    exact emit ((hfirst.append (hsecond.raise 1)).append hcompare)

/-- The var is called with the value, or it is the value itself. -/
theorem emits_define : Leaves L (define f form) (define g form) := by
  refine step (keeps_size form) fun n => ?_
  split
  · exact fails _ _
  · refine step (keeps_item 1 form) fun name => ?_
    extract_lets withValue withValue'
    have hvalue (value : Value) (hx : Expression value) :
        Leaves L (withValue value) (withValue' value) := by
      dsimp -zeta only [withValue, withValue']
      split
      · refine step (keeps_pushName _) fun _ => step keeps_scope fun sc => ?_
        refine step (keeps_inSession (SessionM.keeps_intern _ _)) fun var => ?_
        split
        · next a =>
          refine step (keeps_inSession (SessionM.keeps_updateVar _ _)) fun _ => ?_
          extract_lets done
          have hdone {L₁ : Nat} {code : Instrs} (hcode : Segment L L₁ 0 1 code) :
              Refines (From L₁) (done code) (done code) (Emits L 0 1) :=
            step (keeps_inSession (SessionM.keeps_setInfo _ _)) fun _ =>
              step keeps_popName fun _ => emit hcode
          split
          · refine follow (hf L value hx) fun code L₁ hcode => ?_
            have hbindRoot : Segment L L (0 + 1) (0 + 1) [named .loadAttr "bindRoot"] :=
              .fixed L 0 rfl _
            have hcall : Segment L₁ L₁ (1 + 1) 1 [callWith 1] := .call L₁ rfl rfl (by decide)
            have hall := ((Segment.constant L (.ref a)).append hbindRoot).append
              ((hcode.raise 1).append hcall)
            extract_lets bound
            have hbound (u : Unit) : Refines (From L₁) (bound u) (bound u) (Emits L 0 1) :=
              .returned (hdone hall)
            split
            · refine step (keeps_head value) fun first => step (keeps_ownName first) fun own => ?_
              split
              · exact step (keeps_attachDoc code) hbound
              · exact hbound ()
            · exact hbound ()
          · exact .returned (hdone (.constant L (.ref a)))
        · exact .throw _
      · exact .throw _
    split
    · exact refines_item 1 hform hargs hvalue
    · exact .returned (hvalue .nil (.constant rfl))

/-- The special forms whose items are expressions. -/
theorem emits_nesting (hs : s ∈ nestingForms) : ∃ special, named? s = some special ∧
    Leaves L (special f form) (special g form) := by
  simp only [nestingForms, mem_cons, not_mem_nil, or_false] at hs
  rcases hs with rfl | rfl | rfl | rfl | rfl
  · exact ⟨_, rfl, refines_rest hform fun rest hrest => emits_body hf hrest hargs⟩
  · exact ⟨_, rfl, emits_ifStar hf hform hargs⟩
  · exact ⟨_, rfl, emits_machineIf hf hform hargs⟩
  · exact ⟨_, rfl, emits_isSame hf hform hargs⟩
  · exact ⟨_, rfl, emits_define hf hform hargs⟩

end Nesting

/-! ## Collections -/

theorem loopItems_ok (hform : form.isVectorLike = true) (st : CompileState) (items : List Value)
    (st' : CompileState) (h : loopItems form st = .ok items st') :
    st' = st ∧ form.items = .ok items := by
  cases form with
  | vector | subvector => exact lift_ok st items st' h
  | entry => cases h
  | _ => cases hform

theorem emits_vector (hf : Emitting f g) {items : List Value} (hform : form.isVectorLike = true)
    (hitems : form.items = .ok items) (hall : ∀ x ∈ items, Expression x)
    (hlength : items.length < 256) : Leaves L (vector f form) (vector g form) := by
  refine follow (hf L _ (.symbol _ _)) fun fn L₁ hfn => ?_
  refine .known (loopItems_ok hform) fun items' hitems' => ?_
  obtain rfl := Except.ok.inj (hitems.symm.trans hitems')
  refine follow (emits_each hf hall) fun codes L₂ hcodes => ?_
  have hargs := hcodes.1.flatten 1
  rw [hcodes.2, Nat.one_mul] at hargs
  exact emit ((hfn.append hargs).append (.call L₂ rfl rfl hlength))

theorem emits_map (hf : Emitting f g) {seq : Value} {entries : List Value}
    (hseq : form.seqMethod = .ok seq) (hentries : seq.Walks entries)
    (hkeys : ∀ e ∈ entries, ∀ k x, Value.entryOf e = .ok (k, x) → Expression k)
    (hvalues : ∀ e ∈ entries, ∀ k x, Value.entryOf e = .ok (k, x) → Expression x)
    (hlength : entries.length < 128) :
    Leaves L (map f form) (map g form) := by
  refine .known lift_ok fun seq' hseq' => ?_
  obtain rfl := Except.ok.inj (hseq.symm.trans hseq')
  refine .known remaining_ok fun entries' hentries' => ?_
  rw [hentries'.unique hentries]
  refine follow (hf L _ (.symbol _ _)) fun fn L₁ hfn => ?_
  -- two values for each entry
  refine follow (emits_mapM (k := 2) fun e he L => .known lift_ok fun kv hkv => ?_)
    fun parts L₂ hparts => ?_
  · refine follow (hf L kv.1 (hkeys e he kv.1 kv.2 hkv)) fun key L₁ hkey => ?_
    refine follow (hf L₁ kv.2 (hvalues e he kv.1 kv.2 hkv)) fun value L₂ hvalue => ?_
    exact emit (hkey.append (hvalue.raise 1))
  have hall := hparts.1.flatten 1
  rw [hparts.2] at hall
  have harg : Value.int (2 * entries.length) = .int ((2 * entries.length : Nat) : Int) :=
    congrArg Value.int (by omega)
  exact emit ((hfn.append hall).append (.call L₂ rfl harg (by omega)))

/-! ## Names -/

theorem refines_globalOf? (m : Value) (name : String) :
    Refines (From L) (globalOf? m name) (globalOf? m name) fun code? st =>
      (∀ code, code? = some code → Segment L L 0 1 code) ∧ From L st := by
  refine step (keeps_inSession (SessionM.keeps_member? m name)) fun member => ?_
  split
  · exact .pure fun _ hst => ⟨fun code hcode => (by cases hcode), hst⟩
  · refine step (keeps_inSession (SessionM.keeps_moduleName m)) fun home => ?_
    refine .pure fun _ hst => ⟨fun code hcode => ?_, hst⟩
    cases hcode
    exact .global L rfl

theorem emits_resolveHere (s : Symbol) (here : String) :
    Leaves L (access.resolveHere s here) (access.resolveHere s here) := by
  refine step keeps_scope fun sc => .bind (refines_globalOf? _ _) fun code? =>
    .given fun hcode => ?_
  split
  · exact emit (hcode _ rfl)
  · exact step (keeps_namesText false) fun _ => .throw _

theorem emits_access (s : Symbol) : Leaves L (access s) (access s) := by
  refine step keeps_nsName fun here => ?_
  split
  · exact .throw _
  · split
    · exact emits_resolveHere s here
    · split
      · exact emits_resolveHere s here
      · refine step (keeps_moduleFor _) fun m => ?_
        refine .bind (refines_globalOf? m _) fun code? => .given fun hcode => ?_
        split
        · exact emit (hcode _ rfl)
        · exact step (keeps_text m) fun _ => .throw _

/-- A name that stands for a form stands for an expression. -/
theorem refines_getAlias? {key : Value} {s : Symbol} (hkey : key.symbol? = some s) :
    Refines (From L) (getAlias? key) (getAlias? key) fun a? st =>
      (∀ form, a? = some (.expansion form) → Expression form) ∧ From L st := by
  intro st hst a? st' h
  refine ⟨h, ?_⟩
  rcases aliasesOf_cases key st with ⟨e, he⟩ | hok
  · rw [getAlias?, bind_of_error he] at h
    cases h
  · rw [getAlias?, bind_of_ok hok] at h
    cases h
    refine ⟨fun form hform => hst.fit s form ?_, hst⟩
    rw [Scope.stack_eq, ← meanings_eq hkey]
    exact mem_of_head? hform

theorem emits_readAlias (hf : Emitting f g) (key : Value) {a : Alias}
    (ha : ∀ form, a = .expansion form → Expression form) :
    Leaves L (readAlias f key a) (readAlias g key a) := by
  have hload {o : Opcode} (ho : o.fixedEffect = some (0, 1)) (name : String) :
      Segment L L (0 + 0) (0 + 1) [named o name] := .fixed L 0 ho (.str name)
  cases a with
  | argument name | renamed name => exact emit (hload rfl name)
  | closure id c name used => exact step (keeps_markUsed key) fun _ => emit (hload rfl name)
  | expansion form => exact hf L form (ha form rfl)

theorem emits_symbol (hf : Emitting f g) (s : Symbol) (info : Value) :
    Leaves L (symbol f (.symbol s info) s) (symbol g (.symbol s info) s) := by
  refine .bind (refines_getAlias? rfl) fun a? => .given fun ha => ?_
  split
  · exact emits_readAlias hf _ fun form hform => ha form (congrArg some hform)
  · exact emits_access s

end Special

/-! ## Forms of any kind -/

namespace CompileM

/-- No macro is called, now that the line of the form has been noted. -/
def Macroless (v : Value) (st : CompileState) : Prop :=
  v.isOrdinaryCall = true → ∀ m st', macroOf? v st ≠ .ok (some m) st'

theorem compileValue_of_isCall (hcall : form.isCall = true) (f : CompileFn) :
    compileValue f form = compileList f form := by
  cases form with
  | list | cons => rfl
  | _ => cases hcall

theorem emits_special {info : Value} {s : Symbol} {args : List Value} (hcall : form.isCall = true)
    (hform : form.Walks (.symbol s info :: args)) (h : ∃ special, named? s = some special ∧
      Leaves L (special f form) (special g form)) :
    Leaves L (compileValue f form) (compileValue g form) := by
  obtain ⟨special, hs, hspecial⟩ := h
  rw [compileValue_of_isCall hcall, compileValue_of_isCall hcall]
  refine refines_head hform (step (keeps_lift _) fun _ => ?_)
  dsimp only
  rw [hs]
  exact hspecial

theorem refines_expandMacro? (hcall : form.isOrdinaryCall = true) :
    Refines (fun st => From L st ∧ Macroless form st) (expandMacro? form) (expandMacro? form)
      fun r st => r = none ∧ From L st := by
  rintro st ⟨hst, hmacroless⟩ r st' h
  refine ⟨h, ?_⟩
  obtain ⟨m?, st₁, hm, hrest⟩ := exists_of_bind_ok h
  cases m? with
  | some m => exact absurd hm (hmacroless hcall m st₁)
  | none =>
    cases hrest
    exact ⟨rfl, ((Refines.of_keeps (keeps_macroOf? form)) st hst none st' hm).2⟩

theorem emits_call (hf : Emitting f g) {first : Value} {args : List Value}
    (hcall : form.isCall = true) (hplain : first.isPlainHead = true)
    (hform : form.Walks (first :: args)) (hfirst : Expression first)
    (hargs : ∀ x ∈ args, Expression x) (hlength : args.length < 256) :
    Refines (fun st => From L st ∧ Macroless form st) (compileList f form) (compileList g form)
      (Emits L 0 1) := by
  refine refines_head hform (.known lift_ok fun _ _ => ?_)
  have hordinary := Value.isOrdinaryCall_of_isPlainHead hcall hform.first hplain
  have hall : Leaves L (plainCall f form first) (plainCall g form first) := by
    refine follow (hf L first hfirst) fun fn L₁ hfn => ?_
    refine refines_rest hform fun rest hrest => .known remaining_ok fun forms hforms => ?_
    rw [hforms.unique hrest]
    refine follow (emits_each hf hargs) fun codes L₂ hcodes => ?_
    have hcode := hcodes.1.flatten 1
    rw [Nat.one_mul] at hcode
    rw [← hcodes.2] at hlength
    exact emit ((hfn.append hcode).append (.call L₂ rfl rfl hlength))
  -- the head rules out the special forms, the operations of the machine and the members
  cases first with
  | symbol s info =>
    simp only [Value.isPlainHead, Bool.and_eq_true, Option.isNone_iff_eq_none, bne_iff_ne,
      Bool.not_eq_true'] at hplain
    obtain ⟨⟨⟨hspecial, hmachine⟩, hproperty⟩, hmethod⟩ := hplain
    dsimp only
    rw [hspecial]
    refine .bind (refines_expandMacro? hordinary) fun r => .given fun hr => ?_
    subst hr
    simp only [hmachine, hproperty, hmethod, Bool.false_eq_true, ↓reduceIte]
    exact hall
  | _ =>
    refine .bind (refines_expandMacro? hordinary) fun r => .given fun hr => ?_
    subst hr
    exact hall

variable {v : Value}

theorem emits_constant (hv : v.isConstant = true) :
    Leaves L (compileValue f v) (compileValue g v) := by
  unfold compileValue
  split
  all_goals try exact emit (.constant L _)
  all_goals try exact absurd hv Bool.false_ne_true
  refine step (keeps_inSession (SessionM.keeps_cell? v)) fun c => ?_
  split
  · exact emit (.constant L _)
  · exact step (keeps_inSession SessionM.keeps_viewer) fun _ => .throw _

theorem compileValue_of_isVectorLike (hv : v.isVectorLike = true) (f : CompileFn) :
    compileValue f v = vector f v := by
  cases v with
  | vector | subvector | entry => rfl
  | _ => cases hv

theorem compileValue_of_isMap (hv : v.isMap = true) (f : CompileFn) :
    compileValue f v = map f v := by
  cases v with
  | hashMap | arrayMap | treeMap => rfl
  | _ => cases hv

theorem emits_compileValue (hf : Emitting f g) (hv : Expression v) :
    Refines (fun st => From L st ∧ Macroless v st) (compileValue f v) (compileValue g v)
      (Emits L 0 1) := by
  have hfrom : ∀ st, From L st ∧ Macroless v st → From L st := fun _ => And.left
  cases hv with
  | constant hv => exact (emits_constant hv).weaken hfrom
  | symbol s info => exact (emits_symbol hf s info).weaken hfrom
  | quote hcall hform =>
    exact (emits_special hcall hform ⟨_, rfl, emits_quote⟩).weaken hfrom
  | nested hcall hs hform hargs =>
    exact (emits_special hcall hform (emits_nesting hf hform hargs hs)).weaken hfrom
  | binding hcall hs hform hvector hitems hbody =>
    exact (emits_special hcall hform
      (emits_binding hf hform hvector hitems hbody hs)).weaken hfrom
  | call hcall hplain hform hfirst hargs hlength =>
    rw [compileValue_of_isCall hcall, compileValue_of_isCall hcall]
    exact emits_call hf hcall hplain hform hfirst hargs hlength
  | vector hv hitems hall hlength =>
    rw [compileValue_of_isVectorLike hv, compileValue_of_isVectorLike hv]
    exact (emits_vector hf hv hitems hall hlength).weaken hfrom
  | map hv hseq hentries hkeys hvalues hlength =>
    rw [compileValue_of_isMap hv, compileValue_of_isMap hv]
    exact (emits_map hf hseq hentries hkeys hvalues hlength).weaken hfrom

/-! ## Line markers -/

theorem refines_lineMarker (v : Value) : Refines (From L) (lineMarker v) (lineMarker v)
    fun marker st => Segment L L 0 0 marker ∧ From L st := by
  unfold lineMarker
  extract_lets marked
  have hnone (st : CompileState) (hst : From L st) : Segment L L 0 0 [] ∧ From L st :=
    ⟨.nil L 0, hst⟩
  have hmarked (data : Option Value) : Refines (From L) (marked data) (marked data)
      fun marker st => Segment L L 0 0 marker ∧ From L st := by
    dsimp only [marked]
    split
    · exact .pure hnone
    · exact .pure hnone
    · refine step (keeps_lift _) fun line => ?_
      split
      · exact .pure hnone
      · refine step keeps_scope fun sc => step (keeps_lift _) fun further => ?_
        split
        · exact step (keeps_modifyRest fun _ => rfl) fun _ =>
            .pure fun _ hst => ⟨.marker L 0 rfl, hst⟩
        · exact .pure hnone
  split
  · split
    · exact .bind (.throw _) fun _ => hmarked _
    · exact .returned (hmarked none)
  · exact step (keeps_metadata? _) hmarked

/-- Noting the line of a form is what comes before looking for a macro. -/
theorem macroless_of_lineMarker {marker : Instrs} {st st' : CompileState}
    (hcalls : callsMacro v st = false) (h : lineMarker v st = .ok marker st') :
    Macroless v st' := by
  intro hcall m st'' hm
  rw [callsMacro, hcall, bind_of_ok h, hm] at hcalls
  cases hcalls

theorem emits_compileWith (hf : Emitting f g) (hv : Expression v) :
    Refines (fun st => From L st ∧ callsMacro v st = false) (compileWith f v) (compileWith g v)
      (Emits L 0 1) := by
  have hmarker : Refines (fun st => From L st ∧ callsMacro v st = false)
      (lineMarker v) (lineMarker v)
      fun marker st => Segment L L 0 0 marker ∧ From L st ∧ Macroless v st := by
    rintro st ⟨hst, hcalls⟩ marker st' h
    obtain ⟨-, hsegment, hst'⟩ := refines_lineMarker v st hst marker st' h
    exact ⟨h, hsegment, hst', macroless_of_lineMarker hcalls h⟩
  refine .tryCatch (.bind hmarker fun marker => .given fun hmarker => ?_) fun e => ?_
  · refine follow (emits_compileValue hf hv) fun code L₁ hcode => ?_
    cases code with
    | nil => exact emit hcode
    | cons i is => exact emit (hmarker.append hcode)
  · exact .bind (.self _) fun _ => .bind (.self _) fun _ => .throw e

theorem emitting_compileUnexpanded (depth : Nat) :
    Emitting (compileUnexpanded depth) (compileAt depth) := by
  induction depth with
  | zero => exact fun L v _ => .throw _
  | succ depth ih =>
    intro L v hv st hst code st' h
    rw [compileUnexpanded] at h
    dsimp only at h
    split at h
    · cases h
    · next hcalls => exact emits_compileWith ih hv st ⟨hst, Bool.eq_false_iff.mpr hcalls⟩ code st' h

/-- The code of an expression is balanced, once its references to global names are expanded. No call
of a macro may be met on the way: it could stand for any form. -/
theorem balanced_of_compileAt {depth : Nat} {v : Value} {st st' : CompileState} {code : Instrs}
    (hv : Expression v) (hfit : st.scope.Fit)
    (hplain : isRefused (compileUnexpanded depth v st) = false)
    (h : compileAt depth v st = .ok code st') {expanded : Instrs} {st₁ st₂ : CompileState}
    (hexpand : expandGlobals code st₁ = .ok expanded st₂) : Balanced expanded := by
  obtain ⟨code', hcode'⟩ := exists_of_isRefused_eq_false hplain
  obtain ⟨hsame, -, hsegment⟩ :=
    emitting_compileUnexpanded depth st.session.labels v hv st ⟨Nat.le_refl _, hfit⟩ _ _ hcode'
  rw [h] at hsame
  cases hsame
  exact (expands_expandGlobals hexpand).balanced hsegment

/-- The form `(let* [x 1] (if* x (do "a" (x 2)) [(is? x nil)]))`. -/
def nestedForm : Value :=
  .steppingListOf [.sym "let*", .vectorOf [.sym "x", .int 1],
    .steppingListOf [.sym "if*", .sym "x",
      .steppingListOf [.sym "do", .str "a", .steppingListOf [.sym "x", .int 2]],
      .vectorOf [.steppingListOf [.sym "is?", .sym "x", .nil]]]]

theorem expression_nestedForm : Expression nestedForm := by
  have hx : Expression (.sym "x") := .symbol _ _
  have hone : Expression (.int 1) := .constant rfl
  have htwo : Expression (.int 2) := .constant rfl
  have htext : Expression (.str "a") := .constant rfl
  have hnil : Expression .nil := .constant rfl
  have hcall : Expression (.steppingListOf [.sym "x", .int 2]) :=
    .call rfl (by decide +kernel) (Value.walks_steppingListOf _ _) hx (by simp [htwo]) (by decide)
  have hsame : Expression (.steppingListOf [.sym "is?", .sym "x", .nil]) :=
    .nested rfl (by decide) (Value.walks_steppingListOf _ _) (by simp [hx, hnil])
  have hvector : Expression (.vectorOf [.steppingListOf [.sym "is?", .sym "x", .nil]]) :=
    .vector rfl (rfl : _ = Except.ok [_]) (by simp [hsame]) (by decide)
  have hdo : Expression (.steppingListOf [.sym "do", .str "a",
    .steppingListOf [.sym "x", .int 2]]) :=
    .nested rfl (by decide) (Value.walks_steppingListOf _ _) (by simp [htext, hcall])
  refine .binding rfl (by decide) (Value.walks_steppingListOf _ _) (rfl : _ = Except.ok [_, _])
    (by simp [hx, hone]) ?_
  simp only [forall_mem_singleton]
  exact .nested rfl (by decide) (Value.walks_steppingListOf _ _) (by simp [hx, hdo, hvector])

theorem balanced_of_compileAt_nestedForm :
    ∃ code st' expanded st'', compileAt 6 nestedForm bareState = .ok code st' ∧
      expandGlobals code st' = .ok expanded st'' ∧ Balanced expanded := by
  obtain ⟨expanded, hexpanded⟩ := exists_of_isRefused_eq_false
    (r := (compileAt 6 nestedForm >>= expandGlobals) bareState) (by decide +kernel)
  obtain ⟨code, st', hcode, hexpand⟩ := exists_of_bind_ok hexpanded
  refine ⟨code, st', expanded, _, hcode, hexpand, ?_⟩
  refine balanced_of_compileAt expression_nestedForm ?_ (by decide +kernel) hcode hexpand
  intro s form hform
  cases hform

end CompileM

end HostedLisp
