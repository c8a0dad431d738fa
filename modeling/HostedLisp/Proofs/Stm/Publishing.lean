import HostedLisp.Proofs.Stm.Courses

/-!
# Commits among other threads

A commit locks whatever it will change before it takes its point, so that nobody reads for that
point meanwhile and nobody else adds to the past of what it changes.

- `Locking`: a transaction that is being committed. `InCommit`: how a commit may end.
- `reapplySteps_safe`, `lockForCommitSteps_safe`: locks are taken, one for each change.
- `Pointed`: the point of a commit is greater than all that was committed or read where it has
  locks.
- `commitSteps_safe`, `finishSteps_safe`: a commit, and the end of a try, which gives back all
  locks.
-/

namespace HostedLisp.Stm

open SharedLock Course List

variable {α β : Type} {w w' : World} {g g' : Chronicle} {t u r i : Nat} {mine : Stake}
variable {own : Txn → Txn → Prop} {X X' : Txn} {e h k : Nat → Nat} {F : Fact} {P : Nat → Prop}
variable {Q : α → World → Chronicle → Prop} {E E' : Signal → World → World → Chronicle → Prop}

/-! ## Locking -/

/-- A thread in a commit holds what is locked and what is ensured. -/
abbrev Holding (t : Nat) (mine : Stake) (k : Nat → Nat) (F : Fact) (X : Txn) :
    World → Chronicle → Prop := At t mine X (holds X.locked fun _ => 0) (holds X.ensures k) F

/-- How a commit may end. -/
def InCommit (t : Nat) (mine : Stake) (k : Nat → Nat) (F : Fact) (i : Nat) (w : World)
    (g : Chronicle) : Prop := ∃ X, X.self = some i ∧ Holding t mine k F X w g

theorem holds_ne_zero {xs : List Nat} (h : r ∈ xs) : holds xs (fun _ => 0) r ≠ 0 :=
  Nat.ne_of_gt (count_pos_iff.2 h)

section

variable (hat : Holding t mine k F X w g) (hs : Sane w g)

include hat hs

section

variable (hself : X.self = some i)

include hself

theorem lockForCommitSteps_safe :
    Safe t mine (Keeping P) (fun _ => Holding t mine k F { X with locked := X.locked ++ [r] })
      (fun _ _ => InCommit t mine k F i) (lockForCommitSteps t r) w g := by
  refine (lockSoonSteps_safe hat hs).then (fun s b w g hm => ?_) fun _ w g hat hs => ?_
  · rcases hm with hm | hm
    · exact ⟨X, hself, hm.2.2.2⟩
    · exact ⟨X, hself, hm.2.2⟩
  · refine hat.updateTxn_last hs rfl rfl hat.backed (.of_eq rfl rfl rfl) fun w g hat => ?_
    show At t mine _ (holds (X.locked ++ [r]) fun _ => 0) _ F w g
    rw [holds_append]
    exact hat

theorem recheckSteps_safe (hheld : r ∈ X.locked) (ensured : Bool) :
    Safe t mine own (fun _ => Holding t mine k F X) (fun _ _ => InCommit t mine k F i)
      (recheckSteps t r ensured) w g := by
  have hpos := holds_ne_zero hheld
  unfold recheckSteps
  split
  · refine hat.changed_bind hs (.inl hpos) fun b w g hat hs => ?_
    cases b with
    | true => exact hat.fails hs fun w g hat => ⟨X, hself, hat⟩
    | false => exact hat.done hs fun w g hat => hat
  · exact hat.done hs fun w g hat => hat

variable {call : Caller} {point : Nat} {changes : List (Value × Value)}

theorem recomputeSteps_safe (hheld : r ∈ X.locked) :
    Safe t mine (Keeping P)
      (fun _ w g => ∃ v, Holding t mine k F { X with values := insertAt r v X.values } w g)
      (fun _ _ => InCommit t mine k F i) (recomputeSteps call t r changes) w g := by
  have hpos := holds_ne_zero hheld
  refine (winSteps_safe hat hs hpos).bind fun won w g hat hs => ?_
  cases won with
  | true =>
    refine hat.refAt_bind hs (.inl hpos) fun x w g hat hs _ => ?_
    refine hat.lift_bind hs (fun s w g hat => ⟨X, hself, hat⟩) fun v w g hat hs _ => ?_
    exact hat.updateTxn_last hs rfl rfl hat.backed (.of_eq rfl rfl rfl) fun w g hat => ⟨v, hat⟩
  | false => exact hat.fails hs fun w g hat => ⟨X, hself, hat⟩

/-- Functions are called again under the lock of their reference. -/
theorem reapplySteps_safe (hr : r ∈ X.commutes.map (·.1)) :
    Safe t mine (Keeping P)
      (fun _ w g => ∃ v, Holding t mine k F { X with
        ensures := X.ensures.erase r, locked := X.locked ++ [r],
        values := insertAt r v X.values } w g)
      (fun _ _ => InCommit t mine k F i) (reapplySteps call t r changes) w g := by
  refine hat.txnOf_bind hs fun w g hat hs => ?_
  have herase : Keeping P X { X with ensures := X.ensures.erase r } :=
    .erase fun q _ hq hc => hq (hc ▸ hr)
  refine (releaseEnsuredSteps_safe hat hs herase).bind fun _ w g hat hs => ?_
  refine (lockForCommitSteps_safe (X := { X with ensures := X.ensures.erase r }) hat hs hself).bind
    fun _ w g hat hs => ?_
  have hheld : r ∈ X.locked ++ [r] := mem_append_right _ (mem_singleton_self r)
  refine (recheckSteps_safe hat hs hself hheld _).bind fun _ w g hat hs => ?_
  exact recomputeSteps_safe hat hs hself hheld

end

/-- What has become of a transaction `X` once the references of which `D` holds are locked. -/
structure Locking (i : Nat) (X : Txn) (D : Nat → Prop) (X' : Txn) : Prop where
  self : X'.self = some i
  sets : X'.sets = X.sets
  commutes : X'.commutes = X.commutes
  covered : ∀ r ∈ X'.values.map (·.1), r ∈ X.sets ∨ r ∈ X.commutes.map (·.1)
  nodup : (X'.values.map (·.1)).Nodup
  locked : ∀ r, D r → r ∈ X'.locked

omit hat hs in
theorem lasting_holding {R : Txn → Prop} :
    Lasting t mine fun w g => ∃ X, R X ∧ Holding t mine k F X w g where
  bears w g w' g' h _ hb := by
    obtain ⟨X, hR, hat⟩ := h
    exact ⟨X, hR, hat.bears hb⟩
  backed w g h := by
    obtain ⟨X, -, hat⟩ := h
    exact Stance.lasting.backed w g hat

/-- All functions are called again, but for references that are taken. -/
theorem reapplyAll_safe (hX : Tidy X) (hself : X.self = some i) :
    Safe t mine (Keeping P)
      (fun _ w g => ∃ X', Locking i X (fun r => r ∈ X.commutes.map (·.1) ∧ r ∉ X.sets) X' ∧
        Holding t mine k F X' w g)
      (fun _ _ => InCommit t mine k F i) 
      (each X.commutes (reapplyUntakenSteps call t X.sets)) w g := by
  refine Safe.each (I := fun (done : List (Nat × List (Value × Value))) w g =>
    ∃ X', Locking i X (fun r => r ∈ done.map (·.1) ∧ r ∉ X.sets) X' ∧ Holding t mine k F X' w g)
    lasting_holding ?_ hs fun done c rest w g hsplit hI hs => ?_
  · exact ⟨X, ⟨hself, rfl, rfl, hX.covered, hX.nodup, fun r hr => absurd hr.1 (by simp)⟩, hat⟩
  obtain ⟨X', hlocking, hat⟩ := hI
  have hdone : ∀ r, r ∈ (done ++ [c]).map (·.1) ↔ r ∈ done.map (·.1) ∨ r = c.1 := by
    intro r
    rw [map_append, mem_append, map_singleton, mem_singleton]
  unfold reapplyUntakenSteps
  split
  · next hset =>
    -- it is taken, and will be locked in the second round
    refine hat.done hs fun w g hat => ⟨X', { hlocking with locked := fun r hr => ?_ }, hat⟩
    obtain ⟨hin, hout⟩ := hr
    rcases (hdone r).1 hin with hin | rfl
    · exact hlocking.locked r ⟨hin, hout⟩
    · exact absurd (contains_iff_mem.1 hset) hout
  · have hc : c.1 ∈ X.commutes.map (·.1) := by
      rw [hsplit]
      simp
    refine (reapplySteps_safe hat hs hlocking.self (hlocking.commutes ▸ hc)).mono
      (fun _ w g hv => ?_) fun _ _ _ _ h => h
    obtain ⟨v, hat⟩ := hv
    refine ⟨{ X' with
        ensures := X'.ensures.erase c.1, locked := X'.locked ++ [c.1],
        values := insertAt c.1 v X'.values },
      ⟨hlocking.self, hlocking.sets, hlocking.commutes, fun r hr => ?_,
        nodup_insertAt hlocking.nodup, fun r hr => ?_⟩, hat⟩
    · rcases mem_keys_insertAt.1 hr with rfl | hr
      · exact .inr hc
      · exact hlocking.covered r hr
    · obtain ⟨hin, hout⟩ := hr
      rcases (hdone r).1 hin with hin | rfl
      · exact mem_append_left _ (hlocking.locked r ⟨hin, hout⟩)
      · exact mem_append_right _ (mem_singleton_self _)

omit hat hs in
/-- All references that are taken are locked. -/
theorem lockAll_safe {D : Nat → Prop} {sets : List Nat} (hat : Holding t mine k F X' w g)
    (hs : Sane w g) (hX : Locking i X D X') :
    Safe t mine (Keeping P)
      (fun _ w g => ∃ X', Locking i X (fun r => D r ∨ r ∈ sets) X' ∧ Holding t mine k F X' w g)
      (fun _ _ => InCommit t mine k F i) (each sets (lockForCommitSteps t)) w g := by
  refine Safe.each (I := fun done w g => ∃ X', Locking i X (fun r => D r ∨ r ∈ done) X' ∧
    Holding t mine k F X' w g) lasting_holding ?_ hs fun done r rest w g _ hI hs => ?_
  · exact ⟨X', { hX with locked := fun r hr => hX.locked r (hr.resolve_right (by simp)) }, hat⟩
  obtain ⟨X'', hlocking, hat⟩ := hI
  refine (lockForCommitSteps_safe hat hs hlocking.self).mono (fun _ w g hat => ⟨_, ?_, hat⟩)
    fun _ _ _ _ h => h
  refine { hlocking with locked := fun q hq => ?_ }
  rcases hq with hq | hq
  · exact mem_append_left _ (hlocking.locked q (.inl hq))
  · rcases mem_append.1 hq with hq | hq
    · exact mem_append_left _ (hlocking.locked q (.inr hq))
    · exact mem_append_right _ hq

/-! ## Making values visible -/

/-- New values are checked. -/
theorem validateAll_safe (hself : X.self = some i) (values : List (Nat × Value)) :
    Safe t mine own (fun _ => Holding t mine k F X) (fun _ _ => InCommit t mine k F i)
      (each values (validateSteps call)) w g := by
  refine Safe.each (I := fun _ => Holding t mine k F X) Stance.lasting hat hs
    fun done c rest w g _ hat hs => ?_
  refine hat.calm_bind hs .refAt (fun _ _ _ _ hat _ => ⟨X, hself, hat⟩) fun x w g hat hs => ?_
  exact hat.calm_bind hs (.validate call x.validator c.2) (fun _ _ _ _ hat _ => ⟨X, hself, hat⟩)
    fun _ w g hat hs => hat.done hs fun w g hat => hat

end

/-- A point that was taken is greater than all that was committed or read, where a thread has
locks. -/
structure Pointed (t : Nat) (mine : Stake) (k : Nat → Nat) (F : Fact) (X : Txn) (point : Nat)
    (refs : List Nat) (w : World) (g : Chronicle) : Prop where
  holding : Holding t mine k F X w g
  taken : point < w.clock
  locked : ∀ r ∈ refs, r ∈ X.locked
  floor : ∀ r ∈ refs, (g r).floor < point
  log : ∀ r ∈ refs, ∀ v ∈ (g r).log, v.point < point

theorem Pointed.lasting {refs : List Nat} : Lasting t mine (Pointed t mine k F X point refs) where
  bears w g w' g' h _ hb := by
    have hpast : ∀ r ∈ refs, g' r = g r := by
      intro r hr
      exact hb.past r (h.holding.holdsLock (holds_ne_zero (h.locked r hr)))
    refine ⟨h.holding.bears hb, Nat.lt_of_lt_of_le h.taken hb.clock, h.locked, fun r hr => ?_,
      fun r hr => ?_⟩
    · rw [hpast r hr]
      exact h.floor r hr
    · rw [hpast r hr]
      exact h.log r hr
  backed w g h := Stance.lasting.backed w g h.holding

/-- A new value comes first, and the lock stays. -/
theorem Ref.commit_eq_ok {x y : Ref} {ver : Version} (h : x.commit ver = .ok y) :
    y.lock = x.lock ∧ ∃ older, older.IsPrefix x.history ∧ y.history = ver :: older := by
  unfold Ref.commit at h
  split at h
  · cases h
    exact ⟨rfl, [], nil_prefix, rfl⟩
  · cases hgrows : x.grows with
    | error err =>
      rw [hgrows] at h
      cases h
    | ok b =>
      rw [hgrows] at h
      cases b with
      | true =>
        cases h
        exact ⟨rfl, x.history, prefix_refl _, rfl⟩
      | false =>
        cases h
        exact ⟨rfl, x.history.dropLast, dropLast_prefix _, rfl⟩

/-- A value is added to the past of a reference whose lock is owned. -/
theorem Pointed.publish (own : Txn → Txn → Prop) {rest : List Nat} {v : Value}
    (h : Pointed t mine k F X point (r :: rest) w g) (hr : r ∉ rest) (hs : Sane w g) :
    Ends (Stm.publish r ⟨v, point⟩) w
      (fun _ w' => ∃ g', Fair t own w w' g g' ∧ Pointed t mine k F X point rest w' g')
      fun _ w' => w' = w := by
  unfold Stm.publish
  refine Ends.refAt_bind (fun x hx => ?_) fun _ => rfl
  cases hcommit : x.commit ⟨v, point⟩ with
  | error err => rfl
  | ok y =>
    obtain ⟨hlock, older, holder, hhistory⟩ := Ref.commit_eq_ok hcommit
    have hin : r ∈ r :: rest := mem_cons_self
    have hown : HoldsLock t r w := h.holding.holdsLock (holds_ne_zero (h.locked r hin))
    let p : Past := ⟨⟨v, point⟩ :: (g r).log, (g r).floor⟩
    have hgrows : (g r).Grows p := by
      refine ⟨Nat.le_refl _, [⟨v, point⟩], rfl, fun u hu => ?_⟩
      rw [mem_singleton.1 hu]
      exact h.floor r hin
    -- the point is new, so what was read before stays the latest value there
    have hfair : Fair t own w (w.withRef r fun _ => y) g (Function.update g r p) := by
      refine fair_modify hs (.inr hown) hgrows (pairwise_cons.2 ⟨h.log r hin, hs.falling r⟩)
        (forall_mem_cons.2 ⟨h.taken, hs.below r⟩) (hs.floor_lt r) (fun z hz => ?_) fun u hu => ?_
      · cases hx.symm.trans hz
        rw [hlock, hhistory]
        exact ⟨Moves.refl (hs.lawful r x hx) t, cons_ne_nil _ _,
          cons_prefix_cons.2 ⟨rfl, holder.trans (hs.kept r x hx)⟩⟩
      · rcases mem_cons.1 hu with rfl | hu
        · exact .inr ⟨x, hx, by rw [hhistory]; exact mem_cons_self⟩
        · exact .inl hu
    have hsame : ∀ q ∈ rest, Function.update g r p q = g q := by
      intro q hq
      have hne : q ≠ r := fun hc => hr (hc ▸ hq)
      exact Function.update_of_ne hne ..
    refine ⟨Function.update g r p, hfair, ?_, h.taken,
      fun q hq => h.locked q (mem_cons_of_mem _ hq), fun q hq => ?_, fun q hq => ?_⟩
    · refine (h.holding.updateRef fun z hz => ?_).learn
        (F.endures g _ hfair.spares.grows h.holding.fact)
      cases hx.symm.trans hz
      exact hlock
    · rw [hsame q hq]
      exact h.floor q (mem_cons_of_mem _ hq)
    · rw [hsame q hq]
      exact h.log q (mem_cons_of_mem _ hq)

/-- All new values are made visible. -/
theorem publishAll_safe {values : List (Nat × Value)} (hself : X.self = some i)
    (hnodup : (values.map (·.1)).Nodup) (h : Pointed t mine k F X point (values.map (·.1)) w g)
    (hs : Sane w g) :
    Safe t mine own (fun _ => Holding t mine k F X) (fun _ _ => InCommit t mine k F i)
      (each values fun c => atom (Stm.publish c.1 ⟨c.2, point⟩)) w g := by
  induction values generalizing w g with
  | nil => exact h.holding.done hs fun w g hat => hat
  | cons c values ih =>
    obtain ⟨hc, hnodup⟩ := nodup_cons.1 hnodup
    refine Safe.act Pointed.lasting h hs fun w g h hs _ => (h.publish own hc hs).mono
      (fun _ w' hw => ?_) fun s w' hw => ?_
    · obtain ⟨g', hfair, h'⟩ := hw
      exact ⟨g', hfair, ih hnodup h' hfair.sane⟩
    · subst hw
      exact ⟨g, .refl hs, X, hself, h.holding⟩

/-- A point is taken under all locks. -/
theorem nextPoint_bind {next : Nat → Course α} {refs : List Nat} (hat : Holding t mine k F X w g)
    (hs : Sane w g) (hlocked : ∀ r ∈ refs, r ∈ X.locked)
    (hnext : ∀ point w g, Pointed t mine k F X point refs w g → Sane w g →
      Safe t mine own Q E (next point) w g) :
    Safe t mine own Q E ((atom nextPoint).bind next) w g := by
  refine hat.step hs fun w g hat hs => ?_
  have hfair : Fair t own w { w with clock := w.clock + 1 } g g := fair_clock hs
  refine ⟨g, hfair, hnext w.clock _ g ⟨?_, Nat.lt_succ_self _, hlocked, fun r _ => hs.floor_lt r,
    fun r _ => hs.below r⟩ hfair.sane⟩
  exact { hat with point := fun hself => Nat.lt_succ_of_lt (hat.point hself) }

/-! ## Commits -/

/-- A thread at the end of a try. -/
def Closing (t : Nat) (mine : Stake) (k : Nat → Nat) (F : Fact) (w : World) (g : Chronicle) :
    Prop :=
  ∃ X, (X.self = none → Tidy X) ∧ Holding t mine k F X w g

theorem InCommit.closing (h : InCommit t mine k F i w g) : Closing t mine k F w g := by
  obtain ⟨X, hself, hat⟩ := h
  exact ⟨X, fun hc => (by cases hself.symm.trans hc), hat⟩

theorem Between.closing (h : Between t mine k F w g) : Closing t mine k F w g := by
  obtain ⟨X, hX, hat⟩ := h
  refine ⟨X, fun _ => hX, ?_⟩
  rw [Holding, hX.locked, holds_nil]
  exact hat

/-- The status of the own try is set. -/
theorem Stance.setStatus_fair (own : Txn → Txn → Prop) {s : Status} (hat : At t mine X e h F w g)
    (hs : Sane w g) (hself : X.self = some i) {E : Signal → World → Prop} :
    Ends (Stm.setStatus i s) w (fun _ w' => Fair t own w w' g g ∧ At t mine X e h F w' g) E := by
  refine ends_setStatus ⟨fair_setStatus hs (.inl ?_), hat.setStatus (.inl hself)⟩
  rw [hat.txn]
  exact hself

theorem beginCommit_bind {next : Bool → Course α} (hat : At t mine X e h F w g) (hs : Sane w g)
    (hself : X.self = some i)
    (hnext : ∀ b w g, At t mine X e h F w g → Sane w g → Safe t mine own Q E (next b) w g) :
    Safe t mine own Q E ((atom (beginCommit i)).bind next) w g := by
  refine hat.step hs fun w g hat hs => Ends.statusOf_bind ?_
  split
  · exact (hat.setStatus_fair own hs hself).bind fun _ w' h =>
      Ends.pure ⟨g, h.1, hnext true w' g h.2 h.1.sane⟩
  · exact Ends.pure ⟨g, .refl hs, hnext false w g hat hs⟩

theorem commitSteps_safe (hat : At t mine X (fun _ => 0) (holds X.ensures k) F w g) (hs : Sane w g)
    (hX : Tidy X) :
    Safe t mine (Keeping P) (fun _ => Closing t mine k F) (fun _ _ => Closing t mine k F)
      (commitSteps call t) w g := by
  refine hat.txnOf_bind hs fun w g hat hs => ?_
  cases hself : X.self with
  | none => exact hat.fails hs fun w g hat => Between.closing ⟨X, hX, hat⟩
  | some i =>
    refine beginCommit_bind hat hs hself fun b w g hat hs => ?_
    cases b with
    | false => exact hat.done hs fun w g hat => Between.closing ⟨X, hX, hat⟩
    | true =>
      -- nothing is locked yet
      have hat : Holding t mine k F X w g := by
        rw [Holding, hX.locked, holds_nil]
        exact hat
      refine hat.txnOf_bind hs fun w g hat hs => ?_
      refine (reapplyAll_safe hat hs hX hself).then (fun _ _ _ _ h => h.closing)
        fun _ w g hl hs => ?_
      obtain ⟨X', hX', hat⟩ := hl
      refine (lockAll_safe hat hs hX').then (fun _ _ _ _ h => h.closing) fun _ w g hl hs => ?_
      obtain ⟨X'', hX'', hat⟩ := hl
      refine hat.txnOf_bind hs fun w g hat hs => ?_
      refine (validateAll_safe hat hs hX''.self X''.values).then (fun _ _ _ _ h => h.closing)
        fun _ w g hat hs => ?_
      -- whatever has a new value was locked in one of the two rounds
      have hlocked : ∀ r ∈ X''.values.map (·.1), r ∈ X''.locked := by
        intro r hr
        by_cases hset : r ∈ X.sets
        · exact hX''.locked r (.inr hset)
        · exact hX''.locked r (.inl ⟨(hX''.covered r hr).resolve_left hset, hset⟩)
      refine nextPoint_bind hat hs hlocked fun point w g hpointed hs => ?_
      refine (publishAll_safe hX''.self hX''.nodup hpointed hs).then (fun _ _ _ _ h => h.closing)
        fun _ w g hat hs => ?_
      refine hat.step hs fun w g hat hs =>
        (hat.setStatus_fair (Keeping P) hs hX''.self).mono (fun _ w' h => ?_) fun _ _ h => h
      exact ⟨g, h.1, h.2.done h.1.sane fun w g hat => InCommit.closing ⟨X'', hX''.self, hat⟩⟩

/-! ## The end of a try -/

theorem unlockAll_safe {xs : List Nat} (hat : At t mine X (holds xs e) h F w g) (hs : Sane w g) :
    Safe t mine own (fun _ => At t mine X e h F) E (each xs (unlockSteps t)) w g := by
  induction xs generalizing w g with
  | nil =>
    rw [holds_nil] at hat
    exact hat.done hs fun w g hat => hat
  | cons r xs ih =>
    rw [holds_cons] at hat
    exact (unlockSteps_safe hat hs).bind fun _ w g hat hs => ih hat hs

theorem unlockSharedAll_safe {xs : List Nat} (hfirm : ¬mine.firm)
    (hat : At t mine X e (holds xs h) F w g) (hs : Sane w g) :
    Safe t mine own (fun _ => At t mine X e h F) E (each xs (unlockSharedSteps t)) w g := by
  induction xs generalizing w g with
  | nil =>
    rw [holds_nil] at hat
    exact hat.done hs fun w g hat => hat
  | cons r xs ih =>
    rw [holds_cons] at hat
    exact (unlockSharedSteps_safe hat hs fun hc => absurd hc hfirm).bind fun _ w g hat hs =>
      ih hat hs

/-- The same tries, but holds may be given back. -/
def Stake.loose (mine : Stake) : Stake := ⟨mine.tries, False⟩

theorem Stance.loosen (hat : At t mine X e h F w g) : At t mine.loose X e h F w g :=
  { hat with backed := fun hc => hc.elim }

theorem Stance.tighten (hat : At t mine.loose X e h F w g) (hback : ∀ r, X.ensures.count r ≤ h r) :
    At t mine X e h F w g := { hat with backed := fun _ => hback }

/-- The end of a try gives back all its locks. -/
theorem finishSteps_safe {committed : Bool} (hc : Closing t mine k F w g) (hs : Sane w g) :
    Safe t mine.loose (Keeping P) (fun _ w g => Between t mine k F w g ∧ (w.txn t).self = none) E
      (finishSteps t committed) w g := by
  obtain ⟨X, hX, hat⟩ := hc
  -- from here on the thread gives back what it has ensured, so it can not promise to hold it
  refine hat.loosen.txnOf_bind hs fun w g hat hs => ?_
  have hreverse : holds X.locked.reverse (fun _ => 0) = holds X.locked fun _ => 0 := by
    funext q
    unfold holds
    rw [count_reverse]
  have hat : At t mine.loose X (holds X.locked.reverse fun _ => 0) (holds X.ensures k) F w g := by
    rw [hreverse]
    exact hat
  refine (unlockAll_safe hat hs).bind fun _ w g hat hs => ?_
  refine (unlockSharedAll_safe (fun hc => hc) hat hs).bind fun _ w g hat hs => ?_
  have hlive : (if committed then Status.committed else Status.abandoned).isLive = false := by
    cases committed <;> rfl
  have hended : Tidy X.ended ∧ X.ended.ensures = [] := by
    unfold Txn.ended
    cases hself : X.self with
    | none => exact ⟨hX hself, (hX hself).free hself⟩
    | some i => exact ⟨⟨rfl, fun _ h => absurd h (by simp), nodup_nil, fun _ => rfl⟩, rfl⟩
  refine hat.step hs fun w g hat hs => (stop_fair hat hs hlive (Keeping.ended (P := P) X)).mono
    (fun _ w' h => ⟨g, h.1, h.2.done h.1.sane fun w g hat => ⟨⟨X.ended, hended.1, ?_⟩, ?_⟩⟩)
      fun _ _ h => h
  · rw [hended.2, holds_nil]
    refine hat.tighten fun r => ?_
    rw [hended.2]
    exact Nat.zero_le _
  · rw [hat.txn]
    exact X.ended_self

end HostedLisp.Stm
