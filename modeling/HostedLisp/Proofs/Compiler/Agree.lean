import HostedLisp.Compiler.Scope

/-!
# Operations that agree

Two operations agree under an invariant if from every state with it they do the same, and the
invariant still holds in the end, also after a failure. An operation that agrees with itself keeps
the invariant. More generally, what holds after a success may depend on the result, and be another
thing than what holds after a failure.

Calling a value makes new cells and at most a new frame: the cells that are there stay as they are.
Whatever else a session does for the compiler, the counters that numbers and labels are taken from
never fall.

- `Agree`, `Keeps`: the definitions.
- `Agree.bind`, `Agree.mapM`: agreement of parts is agreement of the whole.
- `Tracks`, `Tracks.bind`, `Tracks.tryCatch`: the same with different ends.
- `Refines`, `Refines.bind`, `Refines.tryCatch`: one operation does what another one does as long as
  it does not fail.
- `SessionM.Lasting`, `SessionM.Counted`: properties that these two kinds of operations keep.
- `SessionM.keeps_apply`: calling a value keeps every lasting property.
- `SessionM.keeps_intern`: what the compiler uses beyond that keeps the counted ones.
-/

namespace HostedLisp

variable {ε σ α β : Type} {I : σ → Prop}

/-- The state that an operation ends in. -/
def finalState : EStateM.Result ε σ α → σ
  | .ok _ s | .error _ s => s

variable {x : EStateM ε σ α} {f : α → EStateM ε σ β} {a : α}

theorem bind_of_ok {s s' : σ} (h : x s = .ok a s') : (x >>= f) s = f a s' := by
  show EStateM.bind x f s = f a s'
  delta EStateM.bind
  rw [h]

theorem bind_of_error {s s' : σ} {e : ε} (h : x s = .error e s') : (x >>= f) s = .error e s' := by
  show EStateM.bind x f s = .error e s'
  delta EStateM.bind
  rw [h]

theorem exists_of_bind_ok {s s'' : σ} {b : β} (h : (x >>= f) s = .ok b s'') :
    ∃ a s', x s = .ok a s' ∧ f a s' = .ok b s'' := by
  cases hx : x s with
  | ok a s' =>
    rw [bind_of_ok hx] at h
    exact ⟨a, s', rfl, h⟩
  | error e s' =>
    rw [bind_of_error hx] at h
    cases h

theorem finalState_bind_pure (x : EStateM ε σ α) (f : α → β) (s : σ) :
    finalState ((x >>= fun a => pure (f a)) s) = finalState (x s) := by
  cases h : x s with
  | ok a s' =>
    rw [bind_of_ok h]
    rfl
  | error e s' =>
    rw [bind_of_error h]
    rfl

/-- From states with `I` both do the same and end in a state with `I`. -/
def Agree (I : σ → Prop) (x y : EStateM ε σ α) : Prop := ∀ s, I s → x s = y s ∧ I (finalState (y s))

/-- From states with `I` the operation ends in a state with `I`. -/
abbrev Keeps (I : σ → Prop) (x : EStateM ε σ α) : Prop := Agree I x x

namespace Agree

theorem keeps (h : ∀ s, I s → I (finalState (x s))) : Keeps I x := fun s hs => ⟨rfl, h s hs⟩

theorem pure (a : α) : Keeps I (Pure.pure a : EStateM ε σ α) := keeps fun _ hs => hs

theorem throw (e : ε) : Keeps I (MonadExcept.throw e : EStateM ε σ α) := keeps fun _ hs => hs

theorem get : Keeps I (MonadState.get : EStateM ε σ σ) := keeps fun _ hs => hs

theorem modified {f : σ → σ} (h : ∀ s, I s → I (f s)) : Keeps I (modify f : EStateM ε σ PUnit) :=
  keeps h

end Agree

/-! ## Different ends -/

/-- What holds in the end: `Q` with a result, `E` after a failure. -/
def EndsIn (Q : α → σ → Prop) (E : σ → Prop) : EStateM.Result ε σ α → Prop
  | .ok a s => Q a s
  | .error _ s => E s

/-- From states with `P` both do the same, and end as `Q` and `E` say. -/
def Tracks (P : σ → Prop) (x y : EStateM ε σ α) (Q : α → σ → Prop) (E : σ → Prop) : Prop :=
  ∀ s, P s → x s = y s ∧ EndsIn Q E (y s)

namespace Tracks

variable {P E E' : σ → Prop} {Q : α → σ → Prop}

theorem pure (h : ∀ s, P s → Q a s) : Tracks P (Pure.pure a : EStateM ε σ α) (Pure.pure a) Q E :=
  fun s hs => ⟨rfl, h s hs⟩

theorem throw (e : ε) (h : ∀ s, P s → E s) :
    Tracks P (MonadExcept.throw e : EStateM ε σ α) (MonadExcept.throw e) Q E :=
  fun s hs => ⟨rfl, h s hs⟩

theorem modified {f : σ → σ} {R : PUnit → σ → Prop} (h : ∀ s, P s → R ⟨⟩ (f s)) :
    Tracks P (modify f : EStateM ε σ PUnit) (modify f) R E := fun s hs => ⟨rfl, h s hs⟩

variable {x y : EStateM ε σ α}

theorem of_agree (h : Agree I x y) (hE : ∀ s, I s → E s) : Tracks I x y (fun _ => I) E := by
  intro s hs
  obtain ⟨hxy, hs'⟩ := h s hs
  refine ⟨hxy, ?_⟩
  cases hy : y s with
  | ok a s' =>
    rw [hy] at hs'
    exact hs'
  | error e s' =>
    rw [hy] at hs'
    exact hE s' hs'

theorem agree (h : Tracks I x y (fun _ => I) I) : Agree I x y := by
  intro s hs
  obtain ⟨hxy, hend⟩ := h s hs
  refine ⟨hxy, ?_⟩
  cases hy : y s with
  | ok | error =>
    rw [hy] at hend
    exact hend

theorem bind {f g : α → EStateM ε σ β} {R : β → σ → Prop} (hx : Tracks P x y Q E)
    (hf : ∀ a, Tracks (Q a) (f a) (g a) R E) : Tracks P (x >>= f) (y >>= g) R E := by
  intro s hs
  obtain ⟨hxy, hend⟩ := hx s hs
  cases hy : y s with
  | ok a s' =>
    rw [hy] at hxy hend
    rw [bind_of_ok hxy, bind_of_ok hy]
    exact hf a s' hend
  | error e s' =>
    rw [hy] at hxy hend
    rw [bind_of_error hxy, bind_of_error hy]
    exact ⟨rfl, hend⟩

/-- The handler starts where the failure left off. -/
theorem tryCatch {f g : ε → EStateM ε σ α} (hx : Tracks P x y Q E)
    (hf : ∀ e, Tracks E (f e) (g e) Q E') :
    Tracks P (MonadExcept.tryCatch x f) (MonadExcept.tryCatch y g) Q E' := by
  intro s hs
  obtain ⟨hxy, hend⟩ := hx s hs
  show EStateM.tryCatch x f s = EStateM.tryCatch y g s ∧ EndsIn Q E' (EStateM.tryCatch y g s)
  delta EStateM.tryCatch
  rw [hxy]
  cases hy : y s with
  | ok a s' =>
    rw [hy] at hend
    exact ⟨rfl, hend⟩
  | error e s' =>
    rw [hy] at hend
    exact hf e s' hend

theorem mapM {f g : α → EStateM ε σ β} (h : ∀ a, Tracks P (f a) (g a) (fun _ => P) E)
    (xs : List α) : Tracks P (xs.mapM f) (xs.mapM g) (fun _ => P) E := by
  induction xs with
  | nil => exact pure fun _ hs => hs
  | cons x xs ih =>
    rw [List.mapM_cons, List.mapM_cons]
    exact bind (h x) fun _ => bind ih fun _ => pure fun _ hs => hs

end Tracks

namespace Agree

theorem tracks {y : EStateM ε σ α} (h : Agree I x y) : Tracks I x y (fun _ => I) I :=
  .of_agree h fun _ hs => hs

theorem bind {y : EStateM ε σ α} {f g : α → EStateM ε σ β} (hx : Agree I x y)
    (hf : ∀ a, Agree I (f a) (g a)) :
    Agree I (x >>= f) (y >>= g) := (hx.tracks.bind fun a => (hf a).tracks).agree

theorem mapM {f g : α → EStateM ε σ β} (h : ∀ a, Agree I (f a) (g a)) (xs : List α) :
    Agree I (xs.mapM f) (xs.mapM g) := (Tracks.mapM (fun a => (h a).tracks) xs).agree

theorem forM {f g : α → EStateM ε σ PUnit} (h : ∀ a, Agree I (f a) (g a)) (xs : List α) :
    Agree I (xs.forM f) (xs.forM g) := by
  induction xs with
  | nil => exact pure _
  | cons x xs ih => exact bind (h x) fun _ => ih

theorem foldlM {f g : β → α → EStateM ε σ β} (h : ∀ b a, Agree I (f b a) (g b a)) (b : β)
    (xs : List α) : Agree I (xs.foldlM f b) (xs.foldlM g b) := by
  induction xs generalizing b with
  | nil => exact pure b
  | cons x xs ih =>
    exact bind (h b x) fun b' => ih b'

end Agree

/-! ## Operations that may give up -/

/-- From states with `P`, if `x` succeeds then `y` does the same, and `Q` holds in the end. -/
def Refines (P : σ → Prop) (x y : EStateM ε σ α) (Q : α → σ → Prop) : Prop :=
  ∀ s, P s → ∀ a s', x s = .ok a s' → y s = .ok a s' ∧ Q a s'

namespace Refines

variable {P P' : σ → Prop} {Q : α → σ → Prop} {R : β → σ → Prop}

theorem pure (h : ∀ s, P s → Q a s) : Refines P (Pure.pure a : EStateM ε σ α) (Pure.pure a) Q := by
  intro s hs b s' hb
  cases hb
  exact ⟨rfl, h s hs⟩

theorem throw (e : ε) {y : EStateM ε σ α} : Refines P (MonadExcept.throw e) y Q := by
  intro s _ b s' hb
  cases hb

theorem self (x : EStateM ε σ α) : Refines P x x fun _ _ => True := fun _ _ _ _ ha => ⟨ha, trivial⟩

theorem of_keeps (h : Keeps I x) : Refines I x x fun _ => I := by
  intro s hs a s' ha
  have hfinal := (h s hs).2
  rw [ha] at hfinal
  exact ⟨ha, hfinal⟩

variable {x y : EStateM ε σ α} {f g : α → EStateM ε σ β}

theorem weaken (h : Refines P x y Q) (hP : ∀ s, P' s → P s) :
    Refines P' x y Q := fun s hs => h s (hP s hs)

theorem given {F : Prop} (h : F → Refines P x y Q) :
    Refines (fun s => F ∧ P s) x y Q := fun s hs => h hs.1 s hs.2

theorem bind (hx : Refines P x y Q) (hf : ∀ a, Refines (Q a) (f a) (g a) R) :
    Refines P (x >>= f) (y >>= g) R := by
  intro s hs b s'' hb
  obtain ⟨a, s', hxs, hrest⟩ := exists_of_bind_ok hb
  obtain ⟨hys, hQ⟩ := hx s hs a s' hxs
  rw [bind_of_ok hys]
  exact hf a s' hQ b s'' hrest

theorem returned (h : Refines P (f a) (g a) R) :
    Refines P (Pure.pure a >>= f) (Pure.pure a >>= g) R := by
  exact h

/-- An operation that keeps the state comes first, and something is known of its result. -/
theorem known {F : α → Prop} (hx : ∀ s a s', x s = .ok a s' → s' = s ∧ F a)
    (hf : ∀ a, F a → Refines P (f a) (g a) R) : Refines P (x >>= f) (x >>= g) R := by
  intro s hs b s'' hb
  obtain ⟨a, s', hxs, hrest⟩ := exists_of_bind_ok hb
  obtain ⟨rfl, ha⟩ := hx s a s' hxs
  rw [bind_of_ok hxs]
  exact hf a ha _ hs b s'' hrest

/-- A handler that always fails makes no difference to a success. -/
theorem tryCatch {f g : ε → EStateM ε σ α} (hx : Refines P x y Q)
    (hf : ∀ e, Refines (fun _ => True) (f e) (f e) fun _ _ => False) :
    Refines P (MonadExcept.tryCatch x f) (MonadExcept.tryCatch y g) Q := by
  intro s hs a s' ha
  change EStateM.tryCatch x f s = .ok a s' at ha
  show EStateM.tryCatch y g s = .ok a s' ∧ Q a s'
  delta EStateM.tryCatch at ha ⊢
  cases hxs : x s with
  | ok b s₁ =>
    rw [hxs] at ha
    cases ha
    obtain ⟨hys, hQ⟩ := hx s hs a s' hxs
    rw [hys]
    exact ⟨rfl, hQ⟩
  | error e s₁ =>
    rw [hxs] at ha
    exact (hf e _ trivial a s' ha).2.elim

end Refines

namespace SessionM

/-- Properties that hold on when cells are added or the frame of a thread is changed. -/
class Lasting (J : Session → Prop) : Prop where
  alloc : ∀ {s : Session} (c : Cell), J s → J { s with cells := s.cells.push c }
  frames : ∀ {s : Session} (fs : List (Nat × Address)), J s → J { s with frames := fs }

/-- Properties that hold on as long as no counter falls. -/
class Counted (J : Session → Prop) : Prop where
  mono : ∀ {s s' : Session}, s.lastId ≤ s'.lastId → s.labels ≤ s'.labels → J s → J s'

instance (priority := low) {J : Session → Prop} [Counted J] : Lasting J where
  alloc _ := Counted.mono (Nat.le_refl _) (Nat.le_refl _)
  frames _ := Counted.mono (Nat.le_refl _) (Nat.le_refl _)

/-- The numbers up to `n` have been given out. -/
def CountsFrom (n : Nat) (s : Session) : Prop := n ≤ s.lastId

/-- Neither counter has fallen since a session. -/
def CountsSince (s₀ s : Session) : Prop := s₀.lastId ≤ s.lastId ∧ s₀.labels ≤ s.labels

instance (s₀ : Session) : Counted (CountsSince s₀) where
  mono hlast hlabels h := ⟨Nat.le_trans h.1 hlast, Nat.le_trans h.2 hlabels⟩

variable {J : Session → Prop}

theorem keeps_lift {α : Type} (r : Except Error α) : Keeps J (lift r) := by
  cases r with
  | ok a => exact .pure a
  | error e => exact .throw e

/-! ## Questions change nothing -/

variable (a : Address) (v : Value)

theorem keeps_fetch : Keeps J (fetch a) := by
  refine .bind .get fun s => ?_
  split
  · exact .pure _
  · exact .throw _

theorem fetch_of_some {a : Address} {c : Cell} {s : Session} (h : s.cells[a]? = some c) :
    fetch a s = .ok c s := by
  have hget : (get : SessionM Session) s = .ok s s := rfl
  rw [fetch, bind_of_ok hget, h]
  rfl

theorem keeps_viewer : Keeps J viewer := .bind .get fun _ => .pure _

theorem keeps_text : Keeps J (text v) := .bind keeps_viewer fun _ => keeps_lift _

theorem keeps_describe : Keeps J (describe v) := .bind .get fun _ => keeps_lift _

theorem keeps_cell? : Keeps J (cell? v) := by
  unfold cell?
  split
  · exact .bind (keeps_fetch _) fun _ => .pure _
  · exact .pure _

theorem keeps_contentAt {α : Type} (kind : Cell → Option α) : Keeps J (contentAt kind a) := by
  refine .bind (keeps_fetch a) fun c => ?_
  split
  · exact .pure _
  · exact .throw _

theorem keeps_moduleNamed? (name : String) : Keeps J (moduleNamed? name) := by
  refine .bind .get fun s => ?_
  split
  · exact .pure _
  · exact .pure _

theorem keeps_moduleName (m : Value) : Keeps J (moduleName m) := by
  unfold moduleName
  split
  · exact .bind (keeps_contentAt _ _) fun _ => .pure _
  iterate 4
    · exact .pure _
  · exact .throw _

theorem keeps_member? (m : Value) (name : String) : Keeps J (member? m name) := by
  unfold member?
  split
  · refine .bind (keeps_fetch _) fun c => ?_
    split
    · split
      · exact .pure _
      · exact .pure _
    · exact .pure _
  · split
    · exact .pure _
    · exact .pure _
  · exact .pure _

theorem keeps_findNamespace (name home : Value) : Keeps J (findNamespace name home) := by
  refine .bind (keeps_lift _) fun p => .bind (keeps_cell? _) fun c => ?_
  dsimp only
  split
  · exact .pure _
  · exact .bind (keeps_moduleNamed? _) fun _ => .pure _

theorem keeps_findItem (ns : Value) (s : Symbol) : Keeps J (findItem ns s) := by
  refine .bind (keeps_moduleName ns) fun here => ?_
  split
  · exact .bind (keeps_member? _ _) fun _ => .pure _
  · split
    · exact .bind (keeps_member? _ _) fun _ => .pure _
    · exact .bind (keeps_findNamespace _ _) fun m => .bind (keeps_member? _ _) fun _ => .pure _

theorem keeps_typeOf : Keeps J (typeOf v) := by
  refine .bind .get fun s => ?_
  split
  · refine .bind (keeps_fetch _) fun c => ?_
    split
    · exact .pure _
    · exact .pure _
  · exact .pure _

theorem keeps_heritageAt (depth : Nat) (t : Value) : Keeps J (heritageAt depth t) := by
  induction depth generalizing t with
  | zero => exact .throw _
  | succ depth ih =>
    unfold heritageAt
    split
    · refine .bind (keeps_fetch _) fun c => ?_
      split
      · exact .bind (.mapM ih _) fun _ => .pure _
      · exact .pure _
    · exact .pure _
    · exact .pure _

theorem keeps_typeMember? (t : Value) (name : String) : Keeps J (typeMember? t name) := by
  refine .bind (keeps_heritageAt _ t) fun ts => .foldlM (fun found t => ?_) _ _
  refine .bind (keeps_cell? t) fun c => ?_
  split
  · exact .pure _
  · exact .pure _

theorem keeps_implementation? (p : ProtocolFn) (t : Value) : Keeps J (implementation? p t) := by
  refine .bind (keeps_heritageAt _ t) fun ts => ?_
  split
  · exact .pure _
  · split
    · refine .bind (keeps_lift _) fun b => ?_
      split
      · exact .pure _
      · exact .pure _
    · exact .pure _

/-! ## Values of vars and calls -/

section

variable [Lasting J]

theorem keeps_alloc (c : Cell) : Keeps J (alloc c) := .keeps fun _ h => Lasting.alloc c h

theorem keeps_allocRef (c : Cell) : Keeps J (allocRef c) := .bind (keeps_alloc c) fun _ => .pure _

theorem keeps_currentFrame : Keeps J currentFrame := by
  refine .bind .get fun s => ?_
  split
  · exact .pure _
  · exact .bind (keeps_alloc _) fun a => .bind (.modified fun _ h => Lasting.frames _ h)
      fun _ => .pure a

theorem keeps_boxOf? (a : Address) : Keeps J (boxOf? a) := by
  refine .bind (keeps_contentAt a _) fun v => ?_
  split
  · exact .bind keeps_currentFrame fun f => .bind (keeps_contentAt f _) fun _ => .pure _
  · exact .pure _

theorem keeps_deref (a : Address) : Keeps J (deref a) := by
  refine .bind (keeps_boxOf? a) fun b => ?_
  split
  · exact .bind (keeps_contentAt a _) fun _ => .pure _
  · refine .bind (keeps_fetch _) fun c => ?_
    split
    · exact .pure _
    · exact .throw _

theorem keeps_applyAt (depth : Nat) (f : Value) (args : List Value) :
    Keeps J (applyAt depth f args) := by
  induction depth generalizing f args with
  | zero => exact .throw _
  | succ depth ih =>
    unfold applyAt
    split
    · exact .bind keeps_viewer fun _ => keeps_lift _
    · split
      · exact .pure _
      · exact .pure _
      iterate 2
        · refine .bind (keeps_lift _) fun found => ?_
          split
          · exact keeps_lift _
          · exact .pure _
      · exact .throw _
    · split
      · exact keeps_lift _
      · exact .throw _
    iterate 2
      · split
        · exact keeps_lift _
        · exact keeps_lift _
        · exact .throw _
    · split
      · exact keeps_lift _
      · exact keeps_lift _
      · exact .pure _
    · split
      · exact keeps_lift _
      · exact .throw _
    · refine .bind (keeps_fetch _) fun c => ?_
      split
      · exact .bind (keeps_deref _) fun g => ih g _
      · exact .bind (keeps_text _) fun _ => .throw _
      · split
        · exact .pure _
        · exact .throw _
      · split
        iterate 2
          · exact .bind .get fun _ => .bind (keeps_lift _) fun _ => keeps_lift _
        · exact .throw _
      · exact .bind (ih _ _) fun chosen => .bind (keeps_lift _) fun _ => .throw _
      · split
        · exact .throw _
        · refine .bind (keeps_typeOf _) fun t => .bind (keeps_implementation? _ t) fun g => ?_
          split
          · exact ih _ _
          · refine .bind (keeps_lift _) fun hasDefault => ?_
            split
            · exact ih _ _
            · exact .bind .get fun _ => .throw _
      · exact keeps_allocRef _
      · refine .bind (keeps_typeMember? _ _) fun g => ?_
        split
        · exact ih _ _
        · exact .throw _
      · exact .throw _
    · exact .throw _

theorem keeps_apply (f : Value) (args : List Value) : Keeps J (apply f args) :=
  keeps_applyAt _ f args

end

/-! ## Counters and changes of cells -/

section

variable [Counted J]

variable (a : Address) (name : String)

theorem keeps_store (c : Cell) : Keeps J (store a c) :=
  .modified fun s h => Counted.mono (Nat.le_refl s.lastId) (Nat.le_refl s.labels) h

/-- The counter goes up. -/
theorem keeps_nextId : Keeps J nextId := 
  .keeps fun s h => Counted.mono (Nat.le_succ s.lastId) (Nat.le_refl s.labels) h

theorem keeps_newLabel : Keeps J (newLabel name) :=
  .keeps fun s h => Counted.mono (Nat.le_refl s.lastId) (Nat.le_succ s.labels) h

theorem keeps_printLine (line : String) : Keeps J (printLine line) :=
  .modified fun s h => Counted.mono (Nat.le_refl s.lastId) (Nat.le_refl s.labels) h

theorem keeps_makeVar (ns sym : Value) (root : Option Value) : Keeps J (makeVar ns sym root) := by
  refine .bind (keeps_alloc _) fun a => ?_
  dsimp only
  split
  · exact .bind (.pure _) fun _ => .bind (keeps_store _ _) fun _ => .pure _
  · exact .bind (keeps_allocRef _) fun _ => .bind (keeps_store _ _) fun _ => .pure _

theorem keeps_updateVar (f : Var → Var) : Keeps J (updateVar a f) :=
  .bind (keeps_contentAt a _) fun _ => keeps_store _ _

theorem keeps_setInfo (data : Value) : Keeps J (setInfo a data) := by
  refine .bind (keeps_updateVar a _) fun _ => .bind (keeps_lift _) fun b => ?_
  split
  · refine .bind (keeps_lift _) fun c => ?_
    split
    · exact keeps_updateVar a _
    · exact .pure _
  · exact .pure _

theorem keeps_setMember (v : Value) : Keeps J (setMember a name v) :=
  .bind (keeps_contentAt a _) fun _ => keeps_store _ _

theorem keeps_openNamespace : Keeps J (openNamespace name) := by
  refine .bind (keeps_moduleNamed? name) fun m => ?_
  split
  · exact .pure _
  · refine .bind (keeps_alloc _) fun a =>
      .bind (.modified fun s h => Counted.mono (Nat.le_refl s.lastId) (Nat.le_refl s.labels) h)
        fun _ => ?_
    split
    · exact .bind (keeps_makeVar _ _ _) fun _ => .bind (keeps_updateVar _ _) fun _ =>
        .bind (keeps_setMember _ _ _) fun _ => .bind (keeps_makeVar _ _ _) fun _ =>
        .bind (keeps_updateVar _ _) fun _ => .bind (keeps_setMember _ _ _) fun _ => .pure _
    · exact .pure _

theorem keeps_intern (ns sym : Value) : Keeps J (intern ns sym) := by
  refine .bind (keeps_lift _) fun p => ?_
  obtain ⟨s, info⟩ := p
  have hfresh (a : Address) : Keeps J
      (makeVar ns (.symbol s info) none >>= fun v =>
        setMember a s.name (.ref v) >>= fun _ => pure (Value.ref v)) :=
    .bind (keeps_makeVar _ _ _) fun _ => .bind (keeps_setMember _ _ _) fun _ => .pure _
  dsimp only
  split
  · exact .throw _
  · split
    · refine .bind (keeps_fetch _) fun c => ?_
      split
      · refine .bind (keeps_member? _ _) fun m => ?_
        split
        · exact hfresh _
        · exact hfresh _
        · refine .bind (keeps_cell? _) fun d => ?_
          split
          · refine .bind (keeps_moduleName _) fun home => ?_
            split
            · exact .pure _
            · exact hfresh _
          · exact .bind (keeps_describe _) fun _ => .throw _
      · exact .throw _
    · exact .throw _
    · exact .throw _

end

end SessionM

end HostedLisp
