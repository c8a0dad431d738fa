import HostedLisp.Proofs.Stm.Actions

/-!
# What a commit does

- `View.offer`: the value that the commit of a try gives a reference.
- `reapply_ends`: functions for a reference are called again, on its latest value.
- `publish_ends`: a value is made visible, and the values before it stay in their order.
- `Committed`: what a commit does that succeeds.
- `commit_ends`: a commit that does not succeed makes nothing visible.
-/

namespace HostedLisp.Stm

open List Function View

variable {w : World} {t r : Nat}

/-! ## Keys -/

variable {β : Type} {l : List (Nat × β)} {i : Nat} (call : Caller) {x : Ref} {v v' : View}
  {E : Signal → World → Prop}

theorem keys_insertAt (k : Nat) (b : β) (l : List (Nat × β)) :
    (insertAt k b l).map (·.1) =
      if k ∈ l.map (·.1) then l.map (·.1) else l.map (·.1) ++ [k] := by
  induction l with
  | nil => rfl
  | cons p l ih =>
    rw [insertAt]
    by_cases hp : p.1 = k
    · simp [hp]
    · have hk : k ≠ p.1 := Ne.symm hp
      rw [if_neg hp, map_cons, ih, map_cons]
      by_cases hmem : k ∈ l.map (·.1)
      · rw [if_pos hmem, if_pos (mem_cons_of_mem _ hmem)]
      · rw [if_neg hmem, if_neg (by simp [hk, hmem]), cons_append]

theorem nodup_insertAt {k : Nat} {b : β} (h : (l.map (·.1)).Nodup) :
    ((insertAt k b l).map (·.1)).Nodup := by
  rw [keys_insertAt]
  split
  · exact h
  · next hk =>
    refine nodup_append.mpr ⟨h, pairwise_singleton .., fun a ha b hb hab => hk ?_⟩
    rwa [← mem_singleton.mp hb, ← hab]

/-- The last of some entries with different keys is the one for its key. -/
theorem lookup_concat {p : Nat × β} (h : p.1 ∉ l.map (·.1)) (q : Nat) :
    (l ++ [p]).lookup q = if q = p.1 then some p.2 else l.lookup q := by
  rw [lookup_append, lookup_cons_eq]
  split
  · next hq =>
    rw [SharedLock.lookup_none_iff.mpr (hq ▸ h)]
    rfl
  · rw [lookup_nil, Option.or_none]

/-- In a list of entries with different keys, no key comes up twice. -/
theorem not_mem_done {l done rest : List (Nat × β)} {p : Nat × β} (hnodup : (l.map (·.1)).Nodup)
    (h : l = done ++ p :: rest) : p.1 ∉ done.map (·.1) := by
  rw [h, map_append, map_cons, nodup_append] at hnodup
  exact fun hmem => hnodup.2.2 _ hmem _ (mem_cons_self ..) rfl

/-! ## The values that a commit gives -/

/-- The latest value of a reference. -/
def View.current (v : View) (r : Nat) : Value := ((v.ref r).map Ref.current).getD .nil

/-- The value that the commit of a try gives a reference, where the functions for the references in
`done` have been called again. -/
def View.offer (call : Caller) (v : View) (t : Nat) (done : List (Nat × List (Value × Value)))
    (r : Nat) : Except Error (Option Value) :=
  if r ∈ (v.txn t).sets then .ok ((v.txn t).values.lookup r)
  else
    match done.lookup r with
    | none => .ok ((v.txn t).values.lookup r)
    | some changes =>
      (changes.foldlM (fun u (f, args) => change call f args u) (v.current r)).map some

theorem lockForCommit_ends (t r : Nat) :
    Ends (lockForCommit t r) w (fun _ w' => w'.view = w.view) fun _ w' => w'.view = w.view := by
  unfold lockForCommit
  refine Ends.bind ((lockSoon_ends t r).mono (fun _ _ h => h.1) fun _ _ h => h) fun _ w₁ h₁ => ?_
  refine ends_updateTxn ((view_modify_txn fun x => ?_).trans h₁)
  rfl

/-- The functions for a reference have been called again by the try `i`, and no other try that is
not over has it. -/
def Reapplied (call : Caller) (t r i : Nat) (changes : List (Value × Value)) (v v' : View) : Prop :=
  ∃ x u status, v.ref r = some x ∧
    changes.foldlM (fun u (f, args) => change call f args u) x.current = .ok u ∧
    Kills i v.status status ∧ (∀ j, x.owner = some j → j ≠ i → (status j).isLive = false) ∧
    v' = changeTxn { v with status := status } t fun y =>
      { y with values := insertAt r u y.values }

theorem Kills.trans {old mid new : Nat → Status} (h : Kills i old mid) (h' : Kills i mid new) :
    Kills i old new := by
  intro j
  rcases h' j with hj | hj
  · rw [hj]
    exact h j
  · exact .inr hj

/-- A try that is over stays so. -/
theorem Kills.dead {i j : Nat} {old new : Nat → Status} (h : Kills i old new)
    (hj : (old j).isLive = false) : (new j).isLive = false := by
  rcases h j with hj' | ⟨-, hj'⟩
  · rwa [hj']
  · rw [hj']
    rfl

theorem Kills.yields {v : View} {status : Nat → Status} (h : Kills i v.status status) :
    Yields t v { v with status := status } := by
  refine ⟨rfl, rfl, rfl, rfl, fun _ _ => rfl, .inl rfl, id, fun j => ?_⟩
  rcases h j with hj | ⟨-, hj⟩
  · exact .inl hj
  · refine .inr (.inl ?_)
    show (status j).isLive = false
    rw [hj]
    rfl

theorem reapply_ends (hself : (w.view.txn t).self = some i) (r : Nat)
    (changes : List (Value × Value)) :
    Ends (reapply call t r changes) w (fun _ w' => Reapplied call t r i changes w.view w'.view)
      fun _ w' => Yields t w.view w'.view := by
  unfold reapply
  refine Ends.txnOf_bind ?_
  refine (releaseEnsured_ends t r).then (fun _ _ h => .of_eq h) fun _ w₁ h₁ => ?_
  refine Ends.bind ((lockForCommit_ends t r).mono (fun _ _ h => h.trans h₁)
    fun _ _ h => .of_eq (h.trans h₁)) fun _ w₂ h₂ => ?_
  extract_lets call' conflict
  -- the calls, once rivals are out of the way
  have hcall : ∀ (w₃ : World) x status, w.view.ref r = some x → Kills i w.view.status status →
      (∀ j, x.owner = some j → j ≠ i → (status j).isLive = false) →
      w₃.view = { w.view with status := status } →
      Ends (call' ()) w₃ (fun _ w' => Reapplied call t r i changes w.view w'.view)
        fun _ w' => Yields t w.view w'.view := by
    intro w₃ x status hx hkills hrivals h₃
    have hyields : Yields t w.view w₃.view := h₃ ▸ hkills.yields
    refine Ends.refAt_bind (fun y hy => ?_) fun _ => hyields
    have hcurrent : y.current = x.current := by
      have hcore : w₃.view.ref r = some y.core := congrArg (Option.map Ref.core) hy
      rw [h₃] at hcore
      obtain rfl := Option.some.inj (hx.symm.trans hcore)
      rfl
    rw [hcurrent]
    refine Ends.bind (Q := fun u w' => w₃ = w' ∧
      changes.foldlM (fun u (f, args) => change call f args u) x.current = .ok u)
      (ends_lift (fun u hu => ⟨rfl, hu⟩) fun _ _ => hyields) ?_
    rintro u _ ⟨rfl, hu⟩
    have ht : t < w₃.txns.size := by
      refine lt_of_self (i := i) ?_
      rw [h₃]
      exact hself
    refine (remember_ends ht r u).mono (fun _ w' h => ?_) fun _ _ h => h
    exact ⟨x, u, status, hx, hu, hkills, hrivals, by rw [h, h₃]⟩
  -- a rival is killed, or the commit is given up
  have hconflict : ∀ w₃ : World, w₃.view = w.view → Ends (conflict ()) w₃
      (fun _ w' => Reapplied call t r i changes w.view w'.view)
      fun _ w' => Yields t w.view w'.view := by
    intro w₃ h₃
    refine (rival?_ends t r).then (fun _ _ h => .of_eq (h.1 ▸ h₃)) ?_
    rintro rival _ ⟨rfl, x, hx, hrival⟩
    rw [show w₃.status = w₃.view.status from rfl, h₃] at hrival
    rw [h₃] at hx
    cases rival with
    | none =>
      refine hcall w₃ x w.view.status hx (.refl _ _) (fun j hj hne => ?_) h₃
      exact hrival j hj fun hc => hne (Option.some.inj (hc.symm.trans hself))
    | some other =>
      obtain ⟨howner, hother, -⟩ := hrival
      have hne : other ≠ i := fun h => hother (h ▸ hself)
      refine Ends.bind (barge_ends t other) fun won w₄ h₄ => ?_
      cases won with
      | false => exact Ends.throw_bind (.of_eq (h₄ ▸ h₃))
      | true =>
        obtain ⟨-, hview, -⟩ := h₄
        refine hcall w₄ x (update w.view.status other .killed) hx
          ((Kills.refl _ _).kill hne) (fun j hj _ => ?_) ?_
        · obtain rfl := Option.some.inj (hj.symm.trans howner)
          rw [update_self]
          rfl
        · rw [hview, h₃]
          rfl
  split
  · refine Ends.bind ((changed_ends t r).mono (fun _ _ h => h.1) fun _ _ h => .of_eq (h.1 ▸ h₂)) ?_
    rintro b _ rfl
    split
    · exact Ends.throw_bind (.of_eq h₂)
    · exact hconflict _ h₂
  · exact hconflict _ h₂

/-- The functions for the references in `done` have been called again by the try `i`. -/
structure Recomputed (call : Caller) (t i : Nat) (done : List (Nat × List (Value × Value)))
    (v v' : View) : Prop where
  ref : v'.ref = v.ref
  clock : v'.clock = v.clock
  tries : v'.tries = v.tries
  threads : v'.threads = v.threads
  others : ∀ u, u ≠ t → v'.txn u = v.txn u
  self : v'.txn t = { v.txn t with values := (v'.txn t).values }
  nodup : ((v'.txn t).values.map (·.1)).Nodup
  offered : ∀ r, v.offer call t done r = .ok ((v'.txn t).values.lookup r)
  status : Kills i v.status v'.status
  rivals : ∀ r ∈ done.map (·.1), r ∉ (v.txn t).sets → ∀ x, v.ref r = some x → ∀ j,
    x.owner = some j → j ≠ i → (v'.status j).isLive = false

namespace Recomputed

variable {call : Caller} {i : Nat} {done : List (Nat × List (Value × Value))} {v v' v'' : View}
  {changes : List (Value × Value)}

theorem nil (h : ((v.txn t).values.map (·.1)).Nodup) : Recomputed call t i [] v v where
  ref := rfl
  clock := rfl
  tries := rfl
  threads := rfl
  others _ _ := rfl
  self := rfl
  nodup := h
  offered r := by
    unfold offer
    split <;> rfl
  status := .refl _ _
  rivals r hr := nomatch hr

theorem offer_concat_of_ne {q : Nat} (hr : r ∉ done.map (·.1)) (hq : q ≠ r) :
    v.offer call t (done ++ [(r, changes)]) q = v.offer call t done q := by
  unfold offer
  rw [lookup_concat hr, if_neg hq]

/-- The functions for a reference that was taken are not called again. -/
theorem skip (h : Recomputed call t i done v v') (hset : r ∈ (v.txn t).sets)
    (hr : r ∉ done.map (·.1)) : Recomputed call t i (done ++ [(r, changes)]) v v' := by
  refine { h with offered := fun q => ?_, rivals := fun q hq hnot => ?_ }
  · by_cases hq : q = r
    · have hoffer := h.offered r
      unfold offer at hoffer ⊢
      rw [if_pos hset] at hoffer
      rw [hq, if_pos hset, hoffer]
    · rw [offer_concat_of_ne hr hq, h.offered]
  · rw [map_append, mem_append] at hq
    rcases hq with hq | hq
    · exact h.rivals q hq hnot
    · obtain rfl := mem_singleton.mp hq
      exact absurd hset hnot

theorem step (h : Recomputed call t i done v v') (hset : r ∉ (v.txn t).sets)
    (hr : r ∉ done.map (·.1)) (h' : Reapplied call t r i changes v' v'') :
    Recomputed call t i (done ++ [(r, changes)]) v v'' := by
  obtain ⟨x, u, status, hx, hu, hkills, hrivals, rfl⟩ := h'
  have htxn : ((changeTxn { v' with status := status } t fun y =>
      { y with values := insertAt r u y.values }).txn t) =
      { v'.txn t with values := insertAt r u (v'.txn t).values } := changeTxn_txn_self ..
  rw [h.ref] at hx
  constructor
  case ref => exact h.ref
  case clock => exact h.clock
  case tries => exact h.tries
  case threads => exact h.threads
  case others =>
    intro q hq
    rw [changeTxn_txn_of_ne hq]
    exact h.others q hq
  case self =>
    rw [htxn, h.self]
  case nodup =>
    rw [htxn]
    exact nodup_insertAt h.nodup
  case offered =>
    intro q
    rw [htxn]
    show _ = Except.ok ((insertAt r u (v'.txn t).values).lookup q)
    rw [lookup_insertAt]
    by_cases hq : q = r
    · rw [if_pos hq, hq]
      unfold offer current
      rw [if_neg hset, lookup_concat hr, if_pos rfl, hx]
      show Except.map some (changes.foldlM _ x.current) = _
      rw [hu]
      rfl
    · rw [if_neg hq, offer_concat_of_ne hr hq, h.offered]
  case status => exact h.status.trans hkills
  case rivals =>
    intro q hq hnot y hy j hj hne
    rw [map_append, mem_append] at hq
    rcases hq with hq | hq
    · exact hkills.dead (h.rivals q hq hnot y hy j hj hne)
    · obtain rfl := mem_singleton.mp hq
      obtain rfl := Option.some.inj (hx.symm.trans hy)
      exact hrivals j hj hne

end Recomputed

/-! ## Making values visible -/

/-- The number of values to keep can be compared with any other number. -/
def Ref.Bounded (x : Ref) : Prop := ∀ n : Nat, ∃ b, Value.less (.int n) x.minHistory = .ok b

/-- A new value comes first, and of the values before it only the oldest may go. -/
theorem Ref.commit_ok (h : x.Bounded) (ver : Version) :
    ∃ y older, x.commit ver = .ok y ∧ older <+: x.history ∧
      y.core = { x.core with history := ver :: older } := by
  unfold Ref.commit
  split
  · exact ⟨_, [], rfl, nil_prefix, rfl⟩
  · have hgrows : ∃ b, x.grows = .ok b := by
      unfold Ref.grows
      split
      · exact ⟨true, rfl⟩
      · exact h _
    obtain ⟨b, hb⟩ := hgrows
    rw [hb]
    cases b with
    | true => exact ⟨_, x.history, rfl, prefix_refl _, rfl⟩
    | false => exact ⟨_, x.history.dropLast, rfl, dropLast_prefix _, rfl⟩

/-- What becomes of a reference that gets a new value with a point, or none. -/
def Renewed (point : Nat) (new : Option Value) (x y : Option Ref) : Prop :=
  match new with
  | none => y = x
  | some u => ∃ z older, x = some z ∧ older <+: z.history ∧
      y = some { z with history := ⟨u, point⟩ :: older }

/-- The values of the references in `done` have been made visible. -/
structure Published (point : Nat) (done : List (Nat × Value)) (v v' : View) : Prop where
  frame : v' = { v with ref := v'.ref }
  ref : ∀ r, Renewed point (done.lookup r) (v.ref r) (v'.ref r)

theorem publish_ends (hx : w.view.ref r = some x) (hbounded : x.Bounded) (ver : Version) :
    Ends (publish r ver) w (fun _ w' => ∃ older, older <+: x.history ∧
      w'.view = w.view.changeRef r fun _ => { x with history := ver :: older }) E := by
  unfold publish
  obtain ⟨y, hy, rfl⟩ := Option.map_eq_some_iff.mp hx
  refine Ends.refAt_bind (fun z hz => ?_) fun hn => nomatch hn.symm.trans hy
  obtain rfl := Option.some.inj (hy.symm.trans hz)
  obtain ⟨y', older, hcommit, hinitial, hcore⟩ := Ref.commit_ok (x := y) hbounded ver
  rw [hcommit]
  refine Ends.bind (Q := fun z w' => w = w' ∧ z = y') (ends_lift (fun z hz => ⟨rfl, ?_⟩) ?_) ?_
  · exact (Except.ok.inj hz).symm
  · exact fun e he => nomatch he
  rintro _ _ ⟨rfl, rfl⟩
  exact ends_updateRef ⟨older, hinitial, view_changeRef fun _ => hcore⟩

theorem Published.ref_of_not_mem {point : Nat} {done : List (Nat × Value)}
    (h : Published point done v v') (hr : r ∉ done.map (·.1)) : v'.ref r = v.ref r := by
  have hrenewed := h.ref r
  rwa [SharedLock.lookup_none_iff.mpr hr] at hrenewed

theorem Published.step {point : Nat} {done : List (Nat × Value)} {u : Value} {older : List Version}
    (h : Published point done v v') (hr : r ∉ done.map (·.1)) (hx : v.ref r = some x)
    (hinitial : older <+: x.history) :
    Published point (done ++ [(r, u)]) v
      (v'.changeRef r fun _ => { x with history := ⟨u, point⟩ :: older }) where
  frame := by
    rw [h.frame]
    rfl
  ref q := by
    rw [lookup_concat hr]
    by_cases hq : q = r
    · rw [if_pos hq, hq, changeRef_ref_self]
      exact ⟨x, older, hx, hinitial, by rw [h.ref_of_not_mem hr, hx]; rfl⟩
    · rw [if_neg hq, changeRef_ref_of_ne hq]
      exact h.ref q

/-- Whether a validator, if there is one, accepts a value. -/
def Accepts (call : Caller) (validator u : Value) : Prop :=
  validator = .nil ∨ ∃ b, call validator [u] = .ok b ∧ b.holds = true

theorem validate_ends (validator u : Value) :
    Ends (validate call validator u) w (fun _ w' => w = w' ∧ Accepts call validator u)
      fun _ w' => w = w' := by
  unfold validate
  split
  · exact Ends.pure ⟨rfl, .inl rfl⟩
  · refine Ends.bind (Q := fun b w' => w = w' ∧ call validator [u] = .ok b)
      (ends_lift (fun _ h => ⟨rfl, h⟩) fun _ _ => rfl) ?_
    rintro b _ ⟨rfl, hb⟩
    split
    · next hholds => exact Ends.pure ⟨rfl, .inr ⟨b, hb, hholds⟩⟩
    · exact ends_fail rfl

/-! ## Committing -/

theorem Yields.trans {v v' v'' : View} (h : Yields t v v') (h' : Yields t v' v'') :
    Yields t v v'' where
  ref := h'.ref.trans h.ref
  clock := h'.clock.trans h.clock
  tries := h'.tries.trans h.tries
  threads := h'.threads.trans h.threads
  others u hu := (h'.others u hu).trans (h.others u hu)
  self := by
    rcases h'.self with hself | hnone
    · rw [hself]
      exact h.self
    · exact .inr hnone
  resting hrest := h'.resting (h.resting hrest)
  status i := by
    rcases h'.status i with heq | hdead | hself
    · rw [heq]
      exact h.status i
    · exact .inr (.inl hdead)
    · rcases h.self with hsame | hnone
      · exact .inr (.inr (hsame.symm.trans hself))
      · exact nomatch hnone.symm.trans hself

theorem Recomputed.self_eq {call : Caller} {done : List (Nat × List (Value × Value))}
    (h : Recomputed call t i done v v') : (v'.txn t).self = (v.txn t).self := by
  rw [h.self]

theorem Recomputed.yields {call : Caller} {done : List (Nat × List (Value × Value))}
    (hself : (v.txn t).self = some i) (h : Recomputed call t i done v v') : Yields t v v' :=
  { h with
    self := .inl h.self_eq
    resting := fun _ => Txn.resting_of_self (h.self_eq.trans hself)
    status := h.status.yields.status }

/-- The functions for all references that were not taken are called again. -/
theorem recompute_ends (hself : (w.view.txn t).self = some i)
    (hcommutes : ((w.view.txn t).commutes.map (·.1)).Nodup)
    (hvalues : ((w.view.txn t).values.map (·.1)).Nodup) :
    Ends (ForIn.forIn (w.view.txn t).commutes PUnit.unit fun (r, changes) _ =>
        if !(w.view.txn t).sets.contains r then do
          reapply call t r changes
          pure (.yield PUnit.unit)
        else pure (.yield PUnit.unit)) w
      (fun _ w' => Recomputed call t i (w.view.txn t).commutes w.view w'.view)
      fun _ w' => Yields t w.view w'.view := by
  refine Ends.forIn (I := fun done w' => Recomputed call t i done w.view w'.view) (.nil hvalues) ?_
  rintro done ⟨r, changes⟩ rest w₁ hdone h₁
  have hr : r ∉ done.map (·.1) := not_mem_done hcommutes hdone
  show Ends (if (!(w.view.txn t).sets.contains r) = true then _ else _) w₁ _ _
  split
  · next hset =>
    have hnot : r ∉ (w.view.txn t).sets := fun hmem => by
      rw [contains_iff_mem.mpr hmem] at hset
      cases hset
    refine Ends.bind ((reapply_ends call (h₁.self_eq.trans hself) r changes).mono
      (fun _ _ h => h) fun _ _ h => (h₁.yields hself).trans h) fun _ w₂ h₂ => ?_
    exact Ends.pure ⟨rfl, h₁.step hnot hr h₂⟩
  · next hset =>
    refine Ends.pure ⟨rfl, h₁.skip ?_ hr⟩
    rw [Bool.not_eq_true, Bool.not_eq_false'] at hset
    exact contains_iff_mem.mp hset

/-- Checking values tells that their references are there and accept them. -/
theorem validateAll_ends (values : List (Nat × Value)) :
    Ends (ForIn.forIn values PUnit.unit fun (r, u) _ => do
        let x ← refAt r
        validate call x.validator u
        pure (.yield PUnit.unit)) w
      (fun _ w' => w = w' ∧ ∀ p ∈ values, ∃ x, w.view.ref p.1 = some x ∧
        Accepts call x.validator p.2) fun _ w' => w = w' := by
  refine Ends.forIn (I := fun (done : List (Nat × Value)) w' => w = w' ∧ ∀ p ∈ done, ∃ x,
    w.view.ref p.1 = some x ∧ Accepts call x.validator p.2) ⟨rfl, fun _ h => nomatch h⟩ ?_
  rintro done ⟨r, u⟩ rest _ - ⟨rfl, hdone⟩
  refine Ends.refAt_bind (fun x hx => ?_) fun _ => rfl
  refine Ends.bind (validate_ends call x.validator u) ?_
  rintro _ _ ⟨rfl, haccepts⟩
  refine Ends.pure ⟨rfl, rfl, fun p hp => ?_⟩
  rcases mem_append.mp hp with hp | hp
  · exact hdone p hp
  · obtain rfl := mem_singleton.mp hp
    exact ⟨x.core, congrArg (Option.map Ref.core) hx, haccepts⟩

/-- Where all references are there, making values visible does not fail halfway. -/
theorem publishAll_ends {values : List (Nat × Value)} (hnodup : (values.map (·.1)).Nodup)
    (hrefs : ∀ p ∈ values, ∃ x, w.view.ref p.1 = some x)
    (hbounded : ∀ r x, w.view.ref r = some x → x.Bounded) (point : Nat) :
    Ends (ForIn.forIn values PUnit.unit fun (r, u) _ => do
        publish r ⟨u, point⟩
        pure (.yield PUnit.unit)) w
      (fun _ w' => Published point values w.view w'.view) E := by
  refine Ends.forIn (I := fun done w' => Published point done w.view w'.view) ⟨rfl, fun _ => rfl⟩ ?_
  rintro done ⟨r, u⟩ rest w₁ hdone h₁
  have hr : r ∉ done.map (·.1) := not_mem_done hnodup hdone
  obtain ⟨x, hx⟩ := hrefs (r, u) (by rw [hdone]; simp)
  have hx₁ : w₁.view.ref r = some x := h₁.ref_of_not_mem hr ▸ hx
  refine Ends.bind (publish_ends hx₁ (hbounded r x hx) ⟨u, point⟩) fun _ w₂ h₂ => ?_
  obtain ⟨older, hinitial, hview⟩ := h₂
  exact Ends.pure ⟨rfl, hview ▸ h₁.step hr hx hinitial⟩

/-- What a commit of the try `i` does: every reference gets the value that the try offers, and all
these values have the same point. -/
structure Committed (call : Caller) (t i : Nat) (v v' : View) : Prop where
  self : (v.txn t).self = some i
  running : v.status i = .running
  clock : v'.clock = v.clock + 1
  tries : v'.tries = v.tries
  threads : v'.threads = v.threads
  others : ∀ u, u ≠ t → v'.txn u = v.txn u
  kept : (v'.txn t).self = some i
  committed : v'.status i = .committed
  status : ∀ j, j ≠ i → v'.status j = v.status j ∨ v'.status j = .killed
  rivals : ∀ r, r ∉ (v.txn t).sets → ((v.txn t).commutes.lookup r).isSome = true →
    ∀ x, v.ref r = some x → ∀ j, x.owner = some j → j ≠ i → (v'.status j).isLive = false
  ref : ∀ r, ∃ new, v.offer call t (v.txn t).commutes r = .ok new ∧
    Renewed v.clock new (v.ref r) (v'.ref r) ∧
    ∀ u, new = some u → ∀ x, v.ref r = some x → Accepts call x.validator u

theorem Committed.live {call : Caller} (h : Committed call t i v v') :
    v.LiveIn t i := ⟨h.self, congrArg Status.isLive h.running⟩

theorem committing_yields {v : View} (hself : (v.txn t).self = some i) (s : Status) :
    Yields t v (v.setStatus i s) := by
  refine ⟨rfl, rfl, rfl, rfl, fun _ _ => rfl, .inl rfl, id, fun j => ?_⟩
  by_cases hj : j = i
  · exact .inr (.inr (hj ▸ hself))
  · exact .inl (update_of_ne hj ..)

/-- The steps of a commit put together. -/
theorem committed_of_published {call : Caller} {v v₂ v₄ : View} (hself : (v.txn t).self = some i)
    (hrunning : v.status i = .running)
    (h₂ : Recomputed call t i (v.txn t).commutes (v.setStatus i .committing) v₂)
    (hvalid : ∀ p ∈ (v₂.txn t).values, ∃ x, v₂.ref p.1 = some x ∧ Accepts call x.validator p.2)
    (h₄ : Published v₂.clock (v₂.txn t).values { v₂ with clock := v₂.clock + 1 } v₄) :
    Committed call t i v (v₄.setStatus i .committed) where
  self := hself
  running := hrunning
  clock := by
    rw [h₄.frame]
    exact congrArg (· + 1) h₂.clock
  tries := by
    rw [h₄.frame]
    exact h₂.tries
  threads := by
    rw [h₄.frame]
    exact h₂.threads
  others u hu := by
    rw [h₄.frame]
    exact h₂.others u hu
  kept := by
    rw [h₄.frame]
    exact h₂.self_eq.trans hself
  committed := update_self ..
  status j hj := by
    have hsame : (v₄.setStatus i .committed).status j = v₂.status j := by
      rw [h₄.frame]
      exact update_of_ne hj ..
    rw [hsame]
    rcases h₂.status j with h | ⟨-, h⟩
    · refine .inl (h.trans ?_)
      exact update_of_ne hj ..
    · exact .inr h
  rivals r hnot hsome x hx j hj hne := by
    have hsame : (v₄.setStatus i .committed).status j = v₂.status j := by
      rw [h₄.frame]
      exact update_of_ne hne ..
    rw [hsame]
    refine h₂.rivals r (of_not_not fun hc => ?_) hnot x hx j hj hne
    rw [SharedLock.lookup_none_iff.mpr hc] at hsome
    cases hsome
  ref r := by
    refine ⟨(v₂.txn t).values.lookup r, h₂.offered r, ?_, fun u hu x hx => ?_⟩
    · have hrenewed := h₄.ref r
      rw [h₂.clock, show ref { v₂ with clock := v₂.clock + 1 } r = v.ref r from
        congrFun h₂.ref r] at hrenewed
      exact hrenewed
    · obtain ⟨before, after, hsplit, -⟩ := lookup_eq_some_iff.mp hu
      obtain ⟨y, hy, haccepts⟩ := hvalid (r, u)
        (hsplit ▸ mem_append_right _ (mem_cons_self ..))
      obtain rfl := Option.some.inj (hx.symm.trans ((congrFun h₂.ref r).symm.trans hy))
      exact haccepts

/-- A commit gives all references their new values, or none. -/
theorem commit_ends
    (hnodup : ∀ i, w.view.LiveIn t i → ((w.view.txn t).commutes.map (·.1)).Nodup ∧
      ((w.view.txn t).values.map (·.1)).Nodup)
    (hbounded : ∀ r x, w.view.ref r = some x → x.Bounded) :
    Ends (commit call t) w
      (fun b w' => if b then ∃ i, Committed call t i w.view w'.view else w'.view = w.view)
      fun _ w' => Yields t w.view w'.view := by
  unfold commit
  refine Ends.txnOf_bind ?_
  split
  · exact ends_fail (.of_eq rfl)
  · next i hself =>
    refine Ends.statusOf_bind ?_
    split
    · next hrunning =>
      have hlive : (w.status i).isLive = true := congrArg Status.isLive hrunning
      have hlt := lt_of_isLive hlive
      obtain ⟨hcommutes, hvalues⟩ := hnodup i ⟨hself, hlive⟩
      refine Ends.bind (Q := fun _ w' => w'.view = w.view.setStatus i .committing)
        (ends_setStatus (view_setStatus hlt)) fun _ w₁ h₁ => ?_
      have htxn₁ : w₁.view.txn t = w.view.txn t := by rw [h₁]; rfl
      have hself₁ : (w₁.view.txn t).self = some i := htxn₁ ▸ hself
      have hyields₁ : Yields t w.view w₁.view := h₁ ▸ committing_yields hself .committing
      refine Ends.txnOf_bind ?_
      -- the functions are called again
      refine Ends.bind ((recompute_ends call hself₁ (htxn₁ ▸ hcommutes) (htxn₁ ▸ hvalues)).mono
        (fun _ _ h => h) fun _ _ h => hyields₁.trans h) fun _ w₂ h₂ => ?_
      have hyields₂ : Yields t w.view w₂.view := hyields₁.trans (h₂.yields hself₁)
      -- what was taken is locked
      refine Ends.bind (Ends.forIn (I := fun _ w' => w'.view = w₂.view) rfl fun _ r _ w₃ _ h₃ => ?_)
        fun _ w₃ h₃ => ?_
      · refine Ends.bind ((lockForCommit_ends t r).mono (fun _ _ h => h.trans h₃)
          fun _ _ h => (?_ : Yields ..)) fun _ w' h => Ends.pure ⟨rfl, h⟩
        rw [h, h₃]
        exact hyields₂
      refine Ends.txnOf_bind ?_
      -- all values are checked before any is made visible
      refine (validateAll_ends call _).then (fun _ _ h => ?_) ?_
      · rw [← h, h₃]
        exact hyields₂
      rintro _ _ ⟨rfl, hvalid⟩
      have hrefs : ∀ p ∈ (w₃.txn t).values, ∃ x, w₃.view.ref p.1 = some x := fun p hp =>
        (hvalid p hp).imp fun _ h => h.1
      refine Ends.nextPoint_bind ?_
      have hnodup : ((w₃.view.txn t).values.map (·.1)).Nodup := h₃ ▸ h₂.nodup
      have href₃ : w₃.view.ref = w.view.ref := by rw [h₃, h₂.ref, h₁]; rfl
      refine Ends.bind (publishAll_ends (w := { w₃ with clock := w₃.clock + 1 }) hnodup hrefs
        (fun r x hx => hbounded r x (href₃ ▸ hx)) w₃.clock) fun _ w₄ h₄ => ?_
      have htries : w₄.tries.size = w.tries.size := by
        show w₄.view.tries = w.view.tries
        rw [h₄.frame]
        show w₃.view.tries = w.view.tries
        rw [h₃, h₂.tries, h₁]
        rfl
      refine Ends.bind (Q := fun _ w' => w'.view = w₄.view.setStatus i .committed)
        (ends_setStatus (view_setStatus (htries ▸ hlt))) fun _ w₅ h₅ => Ends.pure ⟨i, ?_⟩
      have hpublished : Published w₂.view.clock (w₂.view.txn t).values
          { w₂.view with clock := w₂.view.clock + 1 } w₄.view := h₃ ▸ h₄
      rw [h₁] at h₂
      rw [h₅]
      exact committed_of_published hself hrunning h₂ (h₃ ▸ hvalid) hpublished
    · exact Ends.pure rfl

end HostedLisp.Stm
