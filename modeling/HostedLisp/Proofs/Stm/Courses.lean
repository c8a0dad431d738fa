import HostedLisp.Proofs.Stm.Commit
import HostedLisp.Proofs.Stm.Holding
import HostedLisp.Proofs.Walk

/-!
# Requests of transactions among other threads

- `Keeps`, `Keeping`: what a step leaves of what is ensured.
- `Tidy`: a transaction between two requests. `Left`: what a request that fails leaves behind.
- `readSteps_safe`, `writeSteps_safe`, `commuteSteps_safe`, `ensureSteps_safe`: what a try does with
  a reference, whatever other threads do.
- `Request.writes`, `Request.leaves`, `Request.Answers`: what a request does.
- `derefSteps_safe`, `alterSteps_safe`: reading and changing.
- `Calm`: a step that keeps what a thread knows of itself. `ask_calm`: requests that take no lock.
- `askSteps_safe`: all requests.
-/

namespace HostedLisp.Stm

open SharedLock Course List

variable {α β : Type} {w w' : World} {g g' : Chronicle} {t u r : Nat} {mine : Stake}
variable {own : Txn → Txn → Prop} {X : Txn} {e h k : Nat → Nat} {F : Fact} {P : Nat → Prop}
variable {Q : α → World → Chronicle → Prop} {E E' : Signal → World → World → Chronicle → Prop}

/-! ## What stays ensured -/

/-- A reference to which no function is kept stays ensured in the same try. -/
def Keeps (r : Nat) (X X' : Txn) : Prop :=
  X'.self = none ∨ X'.self = X.self ∧ (r ∈ X.ensures → r ∉ X.commutes.map (·.1) →
    r ∈ X'.ensures ∧ r ∉ X'.commutes.map (·.1))

theorem Keeps.refl (r : Nat) (X : Txn) : Keeps r X X := .inr ⟨rfl, fun hr hc => ⟨hr, hc⟩⟩

theorem Keeps.self {X X' : Txn} {i : Nat} (h : Keeps r X X') (hi : X'.self = some i) :
    X.self = some i := by
  rcases h with hnone | ⟨hsame, -⟩
  · cases hnone.symm.trans hi
  · exact hsame ▸ hi

/-- References stay ensured. -/
def Keeping (P : Nat → Prop) (X X' : Txn) : Prop := ∀ r, P r → Keeps r X X'

theorem Keeping.ended (X : Txn) : Keeping P X X.ended := fun _ _ => .inl X.ended_self

/-- A change of something else. -/
theorem Keeping.of_eq {X' : Txn} (hself : X'.self = X.self) (hensures : X'.ensures = X.ensures)
    (hcommutes : X'.commutes = X.commutes) : Keeping P X X' := by
  refine fun _ _ => .inr ⟨hself, fun hr hc => ?_⟩
  rw [hensures, hcommutes]
  exact ⟨hr, hc⟩

theorem Keeping.erase (hr : ∀ q, P q → q ∉ X.commutes.map (·.1) → q ≠ r) :
    Keeping P X { X with ensures := X.ensures.erase r } :=
  fun q hq => .inr ⟨rfl, fun hin hc => ⟨(mem_erase_of_ne (hr q hq hc)).2 hin, hc⟩⟩

/-! ## Between requests -/

/-- A transaction between two requests: nothing is locked, each new value was set or comes from a
function that is kept, and without a try there is nothing. -/
structure Tidy (X : Txn) : Prop where
  locked : X.locked = []
  covered : ∀ r ∈ X.values.map (·.1), r ∈ X.sets ∨ r ∈ X.commutes.map (·.1)
  nodup : (X.values.map (·.1)).Nodup
  free : X.self = none → X.ensures = []

theorem Tidy.ended (hX : Tidy X) : Tidy X.ended := by
  unfold Txn.ended
  split
  · exact ⟨rfl, fun _ h => absurd h (by simp), nodup_nil, fun _ => rfl⟩
  · exact hX

/-- The shared holds that are forgotten because a try is over. -/
def lost (t : Nat) (b w : World) (r : Nat) : Nat :=
  if (b.txn t).self.isSome ∧ (w.txn t).self.isNone then (b.txn t).ensures.count r else 0

/-- A thread between two requests has the holds of what is ensured, and others that were left. -/
def Between (t : Nat) (mine : Stake) (k : Nat → Nat) (F : Fact) (w : World) (g : Chronicle) :
    Prop :=
  ∃ X, Tidy X ∧ At t mine X (fun _ => 0) (holds X.ensures k) F w g

/-- What a request that fails leaves. -/
def Left (t : Nat) (mine : Stake) (k : Nat → Nat) (F : Fact) (b w : World) (g : Chronicle) : Prop :=
  Between t mine (fun r => k r + lost t b w r) F w g

variable {b : World} {next : Unit → Course α}

theorem Left.of_at (hat : At t mine X (fun _ => 0) (holds X.ensures k) F w g) (hX : Tidy X)
    (hb : (b.txn t).self = X.self) : Left t mine k F b w g := by
  have hlost : ∀ r, lost t b w r = 0 := by
    intro r
    unfold lost
    rw [hat.txn, hb]
    refine if_neg fun hc => ?_
    cases hself : X.self <;> simp [hself] at hc
  refine ⟨X, hX, ?_⟩
  simp only [hlost]
  exact hat

theorem Left.of_missing {s : Signal}
    (hm : Missing t r mine X (fun _ => 0) (holds X.ensures k) F s b w g) (hX : Tidy X) :
    Left t mine k F b w g := by
  obtain ⟨-, rfl, -, hat⟩ := hm
  exact .of_at hat hX hat.self_eq

theorem Left.of_again {s : Signal} (hm : Again t mine X (fun _ => 0) (holds X.ensures k) F s b w g)
    (hX : Tidy X) : Left t mine k F b w g := by
  obtain ⟨-, rfl, hat⟩ := hm
  exact .of_at hat hX hat.self_eq

/-! ## Rules -/

/-- Something lacks what it is asked for. -/
def Signal.isAttributeFault : Signal → Bool
  | .failed (.fault .attribute) => true
  | _ => false

theorem Safe.then {p : Course β} {f : β → Course α} {R : β → World → Chronicle → Prop}
    (hp : Safe t mine own R E p w g) (hE : ∀ s b w g, E s b w g → E' s b w g)
    (hf : ∀ a w g, R a w g → Sane w g → Safe t mine own Q E' (f a) w g) :
    Safe t mine own Q E' (p.bind f) w g := (hp.mono (fun _ _ _ h => h) hE).bind hf

/-- Two steps in one. -/
theorem Fair.trans {w'' : World} (h : Fair t own w w' g g) (hsame : w'.txn t = w.txn t)
    (h' : Fair t own w' w'' g g) : Fair t own w w'' g g := by
  obtain ⟨hspares, -, -, -⟩ := h
  obtain ⟨hspares', hsane', hown, hshown⟩ := h'
  refine ⟨⟨hspares'.refs.trans hspares.refs, hspares'.threads.trans hspares.threads,
    fun u hu => (hspares'.txn u hu).trans (hspares.txn u hu),
    Nat.le_trans hspares.clock hspares'.clock, Nat.le_trans hspares.tries hspares'.tries,
    fun r x hx => ?_, fun _ => .inl rfl, fun _ => .refl _,
    fun i hi hself => ?_⟩, hsane', hsame ▸ hown, hshown⟩
  · obtain ⟨y, hy, hkept⟩ := hspares.locks r x hx
    obtain ⟨z, hz, hkept'⟩ := hspares'.locks r y hy
    exact ⟨z, hz, fun u hu => (hkept u hu).trans (hkept' u hu)⟩
  · rcases hspares'.status i (Nat.lt_of_lt_of_le hi hspares.tries) (hsame ▸ hself) with hs | hs
    · rw [hs]
      exact hspares.status i hi hself
    · exact .inr hs

section

variable (hat : At t mine X e h F w g) (hs : Sane w g)

include hat hs

/-- A reference of which a thread has a hold is there. -/
theorem Stance.refAt_bind {next : Ref → Course α} (hheld : e r ≠ 0 ∨ h r ≠ 0)
    (hnext : ∀ x w g, At t mine X e h F w g → Sane w g → w.refs[r]? = some x →
      Safe t mine own Q E (next x) w g) : Safe t mine own Q E ((atom (refAt r)).bind next) w g := by
  refine hat.look hs fun w g hat hs => ?_
  rw [← bind_pure (refAt r)]
  refine Ends.refAt_bind (fun x hx => ⟨rfl, hnext x w g hat hs hx⟩) fun hn => ?_
  obtain ⟨he, hh⟩ := hat.real r hn
  exact hheld.elim (fun hc => absurd he hc) fun hc => absurd hh hc

/-- Whether a reference has changed, where a thread has a hold of it. -/
theorem Stance.changed_bind {next : Bool → Course α} (hheld : e r ≠ 0 ∨ h r ≠ 0)
    (hnext : ∀ b w g, At t mine X e h F w g → Sane w g → Safe t mine own Q E (next b) w g) :
    Safe t mine own Q E ((atom (changed t r)).bind next) w g := by
  refine hat.look hs fun w g hat hs => ?_
  unfold changed
  refine Ends.refAt_bind (fun x hx => Ends.txnOf_bind ⟨rfl, hnext _ w g hat hs⟩) fun hn => ?_
  obtain ⟨he, hh⟩ := hat.real r hn
  exact hheld.elim (fun hc => absurd he hc) fun hc => absurd hh hc

/-- Going on only in a try that is not over. -/
theorem Stance.requireLive_bind
    (hE : ∀ w g, At t mine X e h F w g → Dead t w → E .retry w w g)
    (hnext : ∀ w g, At t mine X e h F w g → Sane w g → X.self ≠ none →
      Safe t mine own Q E (next ()) w g) :
    Safe t mine own Q E ((atom (requireLive t)).bind next) w g := by
  refine hat.look hs fun w g hat hs => (requireLive_looks w).mono (fun _ w' hw => ?_)
    fun s w' hw => ?_
  · exact ⟨hw.1, hnext w g hat hs (hat.txn ▸ hw.2)⟩
  · obtain ⟨rfl, rfl, hdead⟩ := hw
    exact ⟨rfl, hE _ g hat hdead⟩

theorem Stance.requireTransaction_bind
    (hE : ∀ s w g, At t mine X e h F w g → s.isAttributeFault = false → E s w w g)
    (hnext : ∀ w g, At t mine X e h F w g → Sane w g → X.self ≠ none →
      Safe t mine own Q E (next ()) w g) :
    Safe t mine own Q E ((atom (requireTransaction t)).bind next) w g := by
  refine hat.look hs fun w g hat hs => ?_
  unfold requireTransaction
  refine Ends.txnOf_bind ?_
  rw [hat.txn]
  cases hself : X.self with
  | none => exact ends_fail ⟨rfl, hE _ w g hat rfl⟩
  | some i => exact Ends.pure ⟨rfl, hnext w g hat hs (by rw [hself]; exact fun hc => by cases hc)⟩

/-- Something that may fail. -/
theorem Stance.lift_bind {x : Except Error β} {next : β → Course α}
    (hE : ∀ s w g, At t mine X e h F w g → E s w w g)
    (hnext : ∀ b w g, At t mine X e h F w g → Sane w g → x = .ok b →
      Safe t mine own Q E (next b) w g) : Safe t mine own Q E ((atom (lift x)).bind next) w g :=
  hat.look hs fun w g hat hs =>
    ends_lift (fun b hb => ⟨rfl, hnext b w g hat hs hb⟩) fun _ _ => ⟨rfl, hE _ w g hat⟩

/-- The last change of the own transaction. -/
theorem Stance.updateTxn_last {f : Txn → Txn} {Q : Unit → World → Chronicle → Prop}
    (hself : (f X).self = X.self) (hpoint : (f X).readPoint = X.readPoint)
    (hback : mine.firm → ∀ r, (f X).ensures.count r ≤ h r) (hown : own X (f X))
    (hQ : ∀ w g, At t mine (f X) e h F w g → Q () w g) :
    Safe t mine own Q E (atom (Stm.updateTxn t f)) w g :=
  hat.updateTxn_bind hs hself hpoint hback hown fun _ _ hat hs => hat.done hs hQ

/-! ## Reading -/

/-- A reader found no value that was old enough. -/
def Faulted (r : Nat) (b w : World) : Prop :=
  ∀ x : Ref, b.refs[r]? = some x → ∃ y : Ref, w.refs[r]? = some y ∧ y.faults = x.faults + 1

/-- How reading fails: there is no such reference, or the try is over and nothing changes, or no
value was old enough. -/
def ReadFails (t r : Nat) (s : Signal) (b w : World) : Prop :=
  s = .failed (.fault .index) ∧ b.refs[r]? = none ∨
    s = .retry ∧ (Dead t b ∧ w = b ∨ Faulted r b w)

/-- What a read gives in a try that has no new value of a reference is what the reference had at the
read point, for good. -/
def Fact.read (X : Txn) (r : Nat) (v : Value) : Fact :=
  ⟨fun g => X.values.lookup r = Option.none → (g r).Latest X.readPoint v,
    fun _ _ hg h hn => (h hn).grows (hg r)⟩

theorem missed_ends (own : Txn → Txn → Prop) {Q : Value → World → Prop} :
    Ends (missed r) w Q fun s w' =>
      s = .retry ∧ Fair t own w w' g g ∧ At t mine X e h F w' g ∧ Faulted r w w' := by
  unfold missed
  refine Ends.bind (Q := fun _ w' => Fair t own w w' g g ∧ At t mine X e h F w' g ∧ Faulted r w w')
    (ends_updateRef ⟨?_, ?_, fun x hx => ?_⟩) fun _ w' h' => ends_throw ⟨rfl, h'⟩
  · exact fair_modify_ref hs fun x hx => ⟨Moves.refl (hs.lawful r x hx) t, rfl⟩
  · exact hat.updateRef fun _ _ => rfl
  · refine ⟨{ x with faults := x.faults + 1 }, ?_, rfl⟩
    rw [Array.getElem?_modify, if_pos rfl, hx]
    rfl

theorem readSteps_safe :
    Safe t mine own (fun v => At t mine X e h (F.and (.read X r v)))
      (fun s b w g => ReadFails t r s b w ∧ At t mine X e h F w g ∧ (b.txn t).self = X.self)
      (readSteps t r) w g := by
  refine hat.requireLive_bind hs (fun w g hat hdead => ?_) fun w g hat hs hself => ?_
  · exact ⟨.inr ⟨rfl, .inl ⟨hdead, rfl⟩⟩, hat, hat.self_eq⟩
  refine hat.txnOf_bind hs fun w g hat hs => ?_
  cases hlookup : X.values.lookup r with
  | some v =>
    refine hat.done hs fun w g hat => hat.learn ⟨hat.fact, fun hn => ?_⟩
    cases hlookup.symm.trans hn
  | none =>
    refine (lockSteps_safe hat hs).then (fun s b w g hm => ?_) fun _ w g hat hs => ?_
    · obtain ⟨rfl, rfl, hn, hat⟩ := hm
      exact ⟨.inl ⟨rfl, hn⟩, hat, hat.self_eq⟩
    -- the lock is owned: what the reference gives now is final
    refine hat.step hs fun w g hat hs => ?_
    rw [← bind_pure (refAt r)]
    refine Ends.refAt_bind (fun x hx => ?_) fun hn => ?_
    · have hlock := hat.holdsLock (r := r) (by simp)
      obtain ⟨g', hfair, hgives⟩ := fair_read own hs hlock hx (hat.point hself)
      refine ⟨g', hfair, ?_⟩
      have hat : At t mine X (plus e r) h (F.and (.gives r X.readPoint x)) w g' :=
        hat.learn ⟨F.endures g g' hfair.spares.grows hat.fact, hgives⟩
      have hbound := hs.bound r x hx
      refine (unlockSteps_safe hat hfair.sane).bind fun _ w g hat hs => ?_
      rw [if_neg (by simpa using hbound)]
      cases hvalue : x.valueBefore? X.readPoint with
      | some v =>
        exact hat.done hs fun w g hat => hat.learn ⟨hat.fact.1, fun _ => hat.fact.2 v hvalue⟩
      | none =>
        refine hat.step hs fun w g hat hs => (missed_ends hat hs own).mono (fun _ _ h => h)
          fun s w' h => ?_
        obtain ⟨rfl, hfair, hafter, hfault⟩ := h
        exact ⟨g, hfair, .inr ⟨rfl, .inr hfault⟩, hafter.learn hafter.fact.1, hat.self_eq⟩
    · have hzero := (hat.real r hn).1
      simp at hzero

/-! ## Writing -/

/-- Stopping the rival that has taken a reference. -/
theorem winSteps_safe (hheld : e r ≠ 0) :
    Safe t mine own (fun _ => At t mine X e h F) E (winSteps t r) w g := by
  refine hat.look hs fun w g hat hs => (rival?_ends t r).mono (fun rival w' hw => ⟨hw.1.symm, ?_⟩)
    fun _ _ hw => absurd (hat.real r hw.2.2).1 hheld
  cases rival with
  | none => exact hat.done hs fun _ _ h => h
  | some other =>
    exact hat.step hs fun w g hat hs => (barge_fair hat hs).mono
      (fun _ w' h => ⟨g, h.1, h.2.done h.1.sane fun _ _ h => h⟩) fun _ _ h => h

theorem markOwner_bind
    (hnext : ∀ w g, At t mine X e h F w g → Sane w g → Safe t mine own Q E (next ()) w g) :
    Safe t mine own Q E ((atom (markOwner t r)).bind next) w g := by
  refine hat.step hs fun w g hat hs => Ends.txnOf_bind (ends_updateRef ?_)
  have hfair : Fair t own w
      (w.withRef r fun x => { x with owner := (w.txn t).self }) g g :=
    fair_modify_ref hs fun x hx => ⟨Moves.refl (hs.lawful r x hx) t, rfl⟩
  exact ⟨g, hfair, hnext _ g (hat.updateRef fun _ _ => rfl) hfair.sane⟩

theorem isTaken_bind {next : Bool → Course α} (hheld : h r ≠ 0)
    (hnext : ∀ b w g, At t mine X e h F w g → Sane w g → Safe t mine own Q E (next b) w g) :
    Safe t mine own Q E ((atom (isTaken r)).bind next) w g := by
  refine hat.look hs fun w g hat hs => ?_
  unfold isTaken
  refine Ends.refAt_bind (fun x hx => ?_) fun hn => absurd (hat.real r hn).2 hheld
  cases x.owner with
  | none => exact Ends.pure ⟨rfl, hnext _ w g hat hs⟩
  | some i => exact Ends.statusOf_bind (Ends.pure ⟨rfl, hnext _ w g hat hs⟩)

end

/-- Letting others change a reference again takes away the hold of what was ensured. -/
theorem releaseEnsuredSteps_safe (hat : At t mine X e (holds X.ensures k) F w g) (hs : Sane w g)
    (hown : own X { X with ensures := X.ensures.erase r }) :
    Safe t mine own
      (fun _ =>
        At t mine { X with ensures := X.ensures.erase r } e (holds (X.ensures.erase r) k) F) E
      (releaseEnsuredSteps t r) w g := by
  refine hat.txnOf_bind hs fun w g hat hs => ?_
  split
  · next hr =>
    refine hat.updateTxn_bind hs rfl rfl (fun hf q => ?_) hown fun w g hat hs =>
      unlockSharedSteps_safe ?_ hs fun _ => count_le_holds ..
    · exact Nat.le_trans (erase_sublist.count_le q) (hat.backed hf q)
    · rwa [← holds_erase k (contains_iff_mem.1 hr)]
  · next hr =>
    rw [erase_of_not_mem fun hc => hr (contains_iff_mem.2 hc)]
    exact hat.done hs fun _ _ hat => hat

section

variable (hat : At t mine X (fun _ => 0) (holds X.ensures k) F w g) (hs : Sane w g)

include hat hs

/-- A try that has lost a reference to a rival forgets what it has ensured. -/
theorem surrender_safe {Q : Unit → World → Chronicle → Prop} (hX : Tidy X) :
    Safe t mine (Keeping P) Q (fun _ b w g => Left t mine k F b w g) (atom (surrender t)) w g := by
  refine hat.step hs fun w g hat hs => ?_
  unfold surrender
  refine (stop_fair hat hs rfl (Keeping.ended (P := P) X)).bind fun _ w' h =>
    ends_throw ⟨g, h.1, X.ended, hX.ended, ?_⟩
  have hholds : holds X.ended.ensures (fun r => k r + lost t w w' r) = holds X.ensures k := by
    funext q
    unfold holds lost
    rw [h.2.txn, hat.txn]
    cases hself : X.self with
    | none =>
      have hfree := hX.free hself
      simp [Txn.ended, hself, hfree]
    | some i =>
      simp [Txn.ended, hself]
      omega
  rw [hholds]
  exact h.2

/-- Taking a reference gives back the hold of what was ensured there. -/
theorem takeOwnershipSteps_safe (hX : Tidy X) (hr : ¬P r) :
    Safe t mine (Keeping P) (fun _ => At t mine { X with ensures := X.ensures.erase r } (fun _ => 0)
        (holds (X.ensures.erase r) k) F)
      (fun _ b w g => Left t mine k F b w g) (takeOwnershipSteps t r) w g := by
  have herase : Keeping P X { X with ensures := X.ensures.erase r } :=
    .erase fun q hq _ hc => hr (hc ▸ hq)
  have hX' : Tidy { X with ensures := X.ensures.erase r } :=
    ⟨hX.locked, hX.covered, hX.nodup, fun hself => by simp [hX.free hself]⟩
  -- between these two steps the reference is not held at all
  refine (releaseEnsuredSteps_safe hat hs herase).bind fun _ w g hat hs => ?_
  refine (lockSoonSteps_safe hat hs).then (fun s b w g hm => ?_) fun _ w g hat hs => ?_
  · rcases hm with hm | hm
    · exact .of_missing hm hX'
    · exact .of_again hm hX'
  refine hat.changed_bind hs (.inl (by simp)) fun b w g hat hs => ?_
  cases b with
  | true =>
    refine (unlockSteps_safe hat hs).bind fun _ w g hat hs => ?_
    exact hat.fails hs fun w g hat => .of_at hat hX' hat.self_eq
  | false =>
    refine (winSteps_safe hat hs (by simp)).bind fun won w g hat hs => ?_
    cases won with
    | true => exact markOwner_bind hat hs fun w g hat hs => unlockSteps_safe hat hs
    | false => exact (unlockSteps_safe hat hs).bind fun _ w g hat hs => surrender_safe hat hs hX'

omit hat hs in
theorem mem_keys_insertAt {k q : Nat} {b : β} {l : List (Nat × β)} :
    q ∈ (insertAt k b l).map (·.1) ↔ q = k ∨ q ∈ l.map (·.1) := by
  rw [keys_insertAt]
  split
  · next hk =>
    refine ⟨.inr, fun hq => hq.elim (fun hq => hq ▸ hk) fun hq => hq⟩
  · rw [mem_append, mem_singleton, or_comm]

omit hat hs in
theorem Tidy.remember (hX : Tidy X) (v : Value) (hr : r ∈ X.sets ∨ r ∈ X.commutes.map (·.1)) :
    Tidy { X with values := insertAt r v X.values } := by
  refine ⟨hX.locked, fun q hq => ?_, nodup_insertAt hX.nodup, hX.free⟩
  rcases mem_keys_insertAt.1 hq with rfl | hq
  · exact hr
  · exact hX.covered q hq

/-- The last step of a write. -/
theorem remember_safe {v : Value} (hX : Tidy { X with values := insertAt r v X.values }) :
    Safe t mine (Keeping P) (fun a w g => a = v ∧ Between t mine k F w g) E
      ((atom (remember t r v)).bind fun _ => .done v) w g :=
  hat.updateTxn_bind hs rfl rfl hat.backed (.of_eq rfl rfl rfl) fun _ _ hat hs =>
    hat.done hs fun _ _ hat =>
    ⟨rfl, _, hX, hat⟩

theorem writeSteps_safe {v : Value} (hX : Tidy X) (hr : ¬P r) :
    Safe t mine (Keeping P) (fun a w g => a = v ∧ Between t mine k F w g)
      (fun _ b w g => Left t mine k F b w g) (writeSteps t r v) w g := by
  refine hat.requireLive_bind hs (fun w g hat _ => ?_) fun w g hat hs _ => ?_
  · exact .of_at hat hX hat.self_eq
  refine hat.txnOf_bind hs fun w g hat hs => ?_
  split
  · exact hat.fails hs fun w g hat => .of_at hat hX hat.self_eq
  unfold claimSteps
  split
  · next hset =>
    exact remember_safe hat hs (hX.remember v (.inl (contains_iff_mem.1 hset)))
  · refine hat.updateTxn_bind hs rfl rfl hat.backed (.of_eq rfl rfl rfl) fun w g hat hs => ?_
    have hX' : Tidy { X with sets := X.sets ++ [r] } :=
      ⟨hX.locked, fun q hq => (hX.covered q hq).imp (mem_append_left _) fun h => h, hX.nodup,
        hX.free⟩
    refine (takeOwnershipSteps_safe hat hs hX' hr).bind fun _ w g hat hs => ?_
    refine remember_safe hat hs ?_
    have hX'' := hX'.remember v (.inl (mem_append_right X.sets (mem_singleton_self r)))
    exact ⟨hX''.locked, hX''.covered, hX''.nodup, fun hself => by simp [hX.free hself]⟩

/-! ## Commuting -/

/-- A transaction that is tidy once a function is kept for a reference. -/
def TidySoon (r : Nat) (X : Txn) : Prop :=
  ∀ changes, Tidy { X with commutes := insertAt r changes X.commutes }

omit hat hs in
theorem Tidy.soon (hX : Tidy X) (r : Nat) : TidySoon r X := fun _ =>
  ⟨hX.locked, fun q hq => (hX.covered q hq).imp_right fun h => mem_keys_insertAt.2 (.inr h),
    hX.nodup, hX.free⟩

omit hat hs in
theorem TidySoon.remember (hX : TidySoon r X) (v : Value) :
    TidySoon r { X with values := insertAt r v X.values } := fun changes =>
  (hX changes).remember v (.inr (mem_keys_insertAt.2 (.inl rfl)))

/-- The latest value of a reference is fetched, unless there is a new one. -/
theorem fetchSteps_safe (hX : Tidy X) (known : Bool) :
    Safe t mine (Keeping P)
      (fun _ w g => ∃ X, TidySoon r X ∧ At t mine X (fun _ => 0) (holds X.ensures k) F w g)
      (fun _ b w g => Left t mine k F b w g) (fetchSteps t r known) w g := by
  cases known with
  | true => exact hat.done hs fun w g hat => ⟨X, hX.soon r, hat⟩
  | false =>
    refine (lockSharedSteps_safe hat hs).then (fun _ _ _ _ hm => .of_missing hm hX)
      fun _ w g hat hs => ?_
    refine hat.refAt_bind hs (.inr (by simp)) fun x w g hat hs _ => ?_
    refine (unlockSharedSteps_safe hat hs fun _ => count_le_holds ..).bind fun _ w g hat hs => ?_
    exact hat.updateTxn_last hs rfl rfl hat.backed (.of_eq rfl rfl rfl) fun w g hat =>
      ⟨_, (hX.soon r).remember x.current, hat⟩

theorem commuteSteps_safe {call : Caller} {f args : Value} (hX : Tidy X) (hr : ¬P r) :
    Safe t mine (Keeping P) (fun _ => Between t mine k F) (fun _ b w g => Left t mine k F b w g)
      (commuteSteps call t r f args) w g := by
  refine hat.requireLive_bind hs (fun w g hat _ => ?_) fun w g hat hs _ => ?_
  · exact .of_at hat hX hat.self_eq
  refine hat.txnOf_bind hs fun w g hat hs => ?_
  refine (fetchSteps_safe hat hs hX _).bind fun _ w g hfetched hs => ?_
  obtain ⟨X', hX', hat⟩ := hfetched
  refine hat.txnOf_bind hs fun w g hat hs => ?_
  refine hat.updateTxn_bind hs rfl rfl hat.backed (fun q hq => ?_) fun w g hat hs => ?_
  · refine .inr ⟨rfl, fun hin hc => ⟨hin, fun hc' => ?_⟩⟩
    rcases mem_keys_insertAt.1 hc' with rfl | hc'
    · exact hr hq
    · exact hc hc'
  have hX'' := hX' ((X'.commutes.lookup r).getD [] ++ [(f, args)])
  refine hat.lift_bind hs (fun s w g hat => ?_) fun v w g hat hs _ => ?_
  · exact .of_at hat hX'' hat.self_eq
  · exact (remember_safe hat hs (hX''.remember v (.inr (mem_keys_insertAt.2 (.inl rfl))))).mono
      (fun _ _ _ h => h.2) fun _ _ _ _ h => h

/-! ## Ensuring -/

/-- A reference that is ensured is held. If a live try has taken it, the hold is left. -/
theorem ensureSteps_safe (hX : Tidy X) :
    Safe t mine (Keeping P) (fun _ w g => Between t mine k F w g ∧ r ∈ (w.txn t).ensures)
      (fun s b w g => Left t mine (if s.isAttributeFault then plus k r else k) F b w g)
      (ensureSteps t r) w g := by
  refine hat.requireLive_bind hs (fun w g hat _ => ?_) fun w g hat hs hself => ?_
  · exact .of_at hat hX hat.self_eq
  refine hat.txnOf_bind hs fun w g hat hs => ?_
  split
  · next hin =>
    refine hat.done hs fun w g hat => ⟨⟨X, hX, hat⟩, ?_⟩
    rw [hat.txn]
    exact contains_iff_mem.1 hin
  refine (lockSharedSteps_safe hat hs).then (fun s b w g hm => ?_) fun _ w g hat hs => ?_
  · have hsignal := hm.1
    subst hsignal
    exact .of_missing hm hX
  refine hat.changed_bind hs (.inr (by simp)) fun b w g hat hs => ?_
  cases b with
  | true =>
    -- changed since the read point: the hold is given back
    refine (unlockSharedSteps_safe hat hs fun _ => count_le_holds ..).bind fun _ w g hat hs => ?_
    exact hat.fails hs fun w g hat => .of_at hat hX hat.self_eq
  | false =>
    refine isTaken_bind hat hs (by simp) fun b w g hat hs => ?_
    cases b with
    | true =>
      -- taken by a live try: the request fails with its hold, which is not among what is ensured
      refine hat.fails hs fun w g hat => .of_at ?_ hX hat.self_eq
      show At t mine X (fun _ => 0) (holds X.ensures (plus k r)) F w g
      rw [holds_plus]
      exact hat
    | false =>
      refine hat.updateTxn_last hs rfl rfl (fun _ q => ?_) (fun q _ => ?_) fun w g hat =>
        ⟨⟨{ X with ensures := X.ensures ++ [r] }, ?_, ?_⟩, ?_⟩
      · rw [← holds_append]
        exact count_le_holds ..
      · exact .inr ⟨rfl, fun hin hc => ⟨mem_append_left _ hin, hc⟩⟩
      · exact ⟨hX.locked, hX.covered, hX.nodup, fun hc => absurd hc hself⟩
      · rw [holds_append]
        exact hat
      · rw [hat.txn]
        exact mem_append_right _ (mem_singleton_self r)

end

/-! ## All requests -/

/-- A request that writes to its reference. -/
def Request.writes (q : Request) : Prop := q.name = "refSet" ∨ q.name = "alter" ∨ q.name = "commute"

/-- How many shared holds of a reference a request leaves that fails. -/
def Request.leaves (q : Request) (s : Signal) (k : Nat → Nat) : Nat → Nat :=
  if q.name = "touch" ∧ s.isAttributeFault then plus k q.ref else k

/-- A request that answers with the value of its reference, or with what a function makes of it. -/
def Request.reads (q : Request) : Prop := q.name = "deref" ∨ q.name = "alter"

/-- How an answer comes from the value that was read. -/
def Request.From (call : Caller) (q : Request) (u v : Value) : Prop :=
  q.name = "deref" ∧ v = u ∨
    ∃ f args rest, q.name = "alter" ∧ q.args = [f, args] ∧ argumentsOf args = .ok rest ∧
      call f (u :: rest) = .ok v

/-- What a request answers in a try that has no new value of its reference. -/
def Request.Answers (call : Caller) (q : Request) (X : Txn) (v : Value) (g : Chronicle) : Prop :=
  q.reads → ∃ u, (g q.ref).Latest X.readPoint u ∧ q.From call u v

theorem Between.weaken {F' : Fact} (hb : Between t mine k F' w g) (hF : F'.Holds g → F.Holds g) :
    Between t mine k F w g := by
  obtain ⟨X, hX, hat⟩ := hb
  exact ⟨X, hX, hat.learn (hF hat.fact)⟩

variable {call : Caller} {q : Request}

section

variable (hat : At t mine X (fun _ => 0) (holds X.ensures k) F w g) (hs : Sane w g) (hX : Tidy X)

include hat hs hX

/-- Looking at a reference. -/
theorem glanceSteps_safe {f : Ref → Value} :
    Safe t mine own (fun _ => Between t mine k F) (fun _ b w g => Left t mine k F b w g)
      (glanceSteps t r f) w g := by
  refine (lockSharedSteps_safe hat hs).then (fun _ _ _ _ hm => .of_missing hm hX)
    fun _ w g hat hs => ?_
  refine (unlockSharedSteps_safe hat hs fun _ => count_le_holds ..).bind fun _ w g hat hs =>
    hat.look hs fun w g hat hs => ?_
  rw [← bind_pure (refAt r)]
  refine Ends.refAt_bind (fun x hx => ⟨rfl, hat.done hs fun w g hat => ⟨X, hX, hat⟩⟩) fun hn => ?_
  exact ⟨rfl, .of_at hat hX hat.self_eq⟩

theorem derefSteps_safe :
    Safe t mine own
      (fun v w g => Between t mine k F w g ∧
        (X.self ≠ none → X.values.lookup r = none → (g r).Latest X.readPoint v))
      (fun s b w g => Left t mine k F b w g ∧ (X.self ≠ none → ReadFails t r s b w))
      (derefSteps t r) w g := by
  refine hat.txnOf_bind hs fun w g hat hs => ?_
  split
  · refine (readSteps_safe hat hs).mono (fun v w g hat => ?_) fun s b w g hfails => ?_
    · exact ⟨⟨X, hX, hat.learn hat.fact.1⟩, fun _ hnone => hat.fact.2 hnone⟩
    · exact ⟨.of_at hfails.2.1 hX hfails.2.2, fun _ => hfails.1⟩
  · next hself =>
    have hself : X.self = none := by simpa using hself
    have hno : ∀ {p : Prop}, X.self ≠ none → p := fun hc => absurd hself hc
    refine (lockSharedSteps_safe hat hs).then (fun s b w g hm => ?_) fun _ w g hat hs => ?_
    · exact ⟨.of_missing hm hX, hno⟩
    refine hat.refAt_bind hs (.inr (by simp)) fun x w g hat hs _ => ?_
    refine (unlockSharedSteps_safe hat hs fun _ => count_le_holds ..).bind fun _ w g hat hs => ?_
    split
    · exact hat.fails hs fun w g hat => ⟨.of_at hat hX hat.self_eq, hno⟩
    · exact hat.done hs fun w g hat => ⟨⟨X, hX, hat⟩, hno⟩

theorem alterSteps_safe {f args : Value} (hr : ¬P r) :
    Safe t mine (Keeping P)
      (fun v w g => Between t mine k F w g ∧ (X.values.lookup r = none →
        ∃ u, (g r).Latest X.readPoint u ∧ change call f args u = .ok v))
      (fun _ b w g => Left t mine k F b w g) (alterSteps call t r f args) w g := by
  refine hat.requireTransaction_bind hs (fun s w g hat _ => ?_) fun w g hat hs _ => ?_
  · exact .of_at hat hX hat.self_eq
  refine (readSteps_safe hat hs).then (fun s b w g hfails => ?_) fun u w g hat hs => ?_
  · exact .of_at hfails.2.1 hX hfails.2.2
  refine hat.lift_bind hs (fun s w g hat => ?_) fun v w g hat hs hv => ?_
  · exact .of_at (hat.learn hat.fact.1) hX hat.self_eq
  refine (writeSteps_safe hat hs hX hr).mono (fun a w g hw => ?_) fun _ b w g hl => ?_
  · obtain ⟨rfl, hb⟩ := hw
    refine ⟨hb.weaken fun hF => hF.1, fun hnone => ⟨u, ?_, hv⟩⟩
    obtain ⟨_, _, hat⟩ := hb
    exact hat.fact.2 hnone
  · exact Between.weaken hl fun hF => hF.1

end

/-- A step that keeps what a thread knows of itself. -/
def Calm (t : Nat) (mine : Stake) (own : Txn → Txn → Prop) (X : Txn) (e h : Nat → Nat) (F : Fact)
    (x : StmM α) : Prop :=
  ∀ w g, At t mine X e h F w g → Sane w g → Ends x w
    (fun _ w' => Fair t own w w' g g ∧ At t mine X e h F w' g)
    fun _ w' => Fair t own w w' g g ∧ At t mine X e h F w' g

theorem Calm.pure (a : α) : Calm t mine own X e h F (Pure.pure a) :=
  fun _ _ hat hs => Ends.pure ⟨.refl hs, hat⟩

theorem Calm.fail (err : Error) : Calm (α := α) t mine own X e h F (Stm.fail err) :=
  fun _ _ hat hs => ends_fail ⟨.refl hs, hat⟩

theorem Calm.bind {x : StmM β} {f : β → StmM α} (hx : Calm t mine own X e h F x)
    (hf : ∀ b, Calm t mine own X e h F (f b)) : Calm t mine own X e h F (x >>= f) := by
  intro w g hat hs
  refine Ends.bind (hx w g hat hs) fun b w' h => ?_
  have hsame : w'.txn t = w.txn t := h.2.txn.trans hat.txn.symm
  exact (hf b w' g h.2 h.1.sane).mono (fun _ _ h' => ⟨h.1.trans hsame h'.1, h'.2⟩)
    fun _ _ h' => ⟨h.1.trans hsame h'.1, h'.2⟩

theorem Calm.refAt : Calm t mine own X e h F (Stm.refAt r) := by
  intro w g hat hs
  rw [← bind_pure (Stm.refAt r)]
  exact Ends.refAt_bind (fun _ _ => ⟨.refl hs, hat⟩) fun _ => ⟨.refl hs, hat⟩

theorem Calm.lift (x : Except Error α) : Calm t mine own X e h F (Stm.lift x) :=
  fun _ _ hat hs => ends_lift (fun _ _ => ⟨.refl hs, hat⟩) fun _ _ => ⟨.refl hs, hat⟩

/-- Changing a reference, but not its lock nor its history. -/
theorem Calm.updateRef {f : Ref → Ref} (hlock : ∀ x, (f x).lock = x.lock)
    (hhistory : ∀ x, (f x).history = x.history) : Calm t mine own X e h F (Stm.updateRef r f) :=
  fun _ _ hat hs => updateRef_ends hat hs hlock hhistory

theorem Calm.validate (call : Caller) (f v : Value) :
    Calm t mine own X e h F (Stm.validate call f v) := by
  intro w g hat hs
  refine (validate_ends call f v).mono (fun _ w' hw => ?_) fun _ w' hw => ?_
  · rw [← hw.1]
    exact ⟨.refl hs, hat⟩
  · rw [← hw]
    exact ⟨.refl hs, hat⟩

theorem Calm.quietly {x : StmM Unit} (hx : Calm t mine own X e h F x) :
    Calm t mine own X e h F (Stm.quietly x) := hx.bind fun _ => .pure _

theorem Stance.calm_bind {x : StmM β} {next : β → Course α} (hat : At t mine X e h F w g)
    (hs : Sane w g) (hx : Calm t mine own X e h F x)
    (hE : ∀ s b w g, At t mine X e h F w g → (b.txn t).self = X.self → E s b w g)
    (hnext : ∀ b w g, At t mine X e h F w g → Sane w g → Safe t mine own Q E (next b) w g) :
    Safe t mine own Q E ((atom x).bind next) w g := by
  refine hat.step hs fun w g hat hs => (hx w g hat hs).mono (fun b w' h => ?_) fun s w' h => ?_
  · exact ⟨g, h.1, hnext b w' g h.2 h.1.sane⟩
  · exact ⟨g, h.1, hE s w w' g h.2 hat.self_eq⟩

/-- Cutting the history of a reference. -/
theorem trim_bind {next : Unit → Course α} (hat : At t mine X e h F w g) (hs : Sane w g)
    (hnext : ∀ w g, At t mine X e h F w g → Sane w g → Safe t mine own Q E (next ()) w g) :
    Safe t mine own Q E ((atom (updateRef r Ref.trim)).bind next) w g := by
  refine hat.step hs fun w g hat hs => ends_updateRef ?_
  have hfair : Fair t own w (w.withRef r Ref.trim) g (Function.update g r (g r)) := by
    refine fair_modify hs (.inl rfl) (.refl _) (hs.falling r) (hs.below r) (hs.floor_lt r)
      (fun x hx => ⟨Moves.refl (hs.lawful r x hx) t, fun hc => ?_, ?_⟩) fun _ => .inl
    · exact hs.bound r x hx ((take_eq_nil_iff.1 hc).resolve_left (by simp))
    · exact (List.take_prefix 1 x.history).trans (hs.kept r x hx)
  rw [Function.update_eq_self] at hfair
  exact ⟨g, hfair, hnext _ g (hat.updateRef fun _ _ => rfl) hfair.sane⟩

/-- Requests that take locks, with the number of arguments. -/
def locking : List (String × Nat) := [
  ("deref", 0), ("refSet", 1), ("alter", 2), ("commute", 2), ("touch", 0), ("isBound", 0),
  ("trimHistory", 0), ("historyCount", 0), ("setValidator", 1)]

/-- A request that takes no lock. -/
theorem ask_calm (hplain : (q.name, q.args.length) ∉ locking) (hbound : q.name ≠ "unbind") :
    Calm t mine own X e h F (ask call t q.ref q.name q.args) := by
  obtain ⟨r, name, args⟩ := q
  unfold ask
  dsimp only at hplain hbound ⊢
  split
  case h_1 | h_2 | h_3 | h_4 | h_5 | h_6 | h_7 | h_8 | h_13 =>
    exact absurd (by simp [locking]) hplain
  case h_9 | h_14 | h_18 | h_22 | h_25 | h_26 => exact .bind .refAt fun _ => .pure _
  case h_10 | h_23 => exact .quietly (.updateRef (fun _ => rfl) fun _ => rfl)
  case h_11 => exact .pure _
  case h_12 | h_17 => exact .fail _
  case h_15 => exact .quietly (.bind .refAt fun _ => .validate _ _ _)
  case h_16 => exact .quietly (.validate _ _ _)
  case h_19 | h_20 =>
    exact .bind .refAt fun _ => .bind (.lift _) fun _ =>
      .bind (.updateRef (fun _ => rfl) fun _ => rfl) fun _ => .pure _
  case h_21 => exact .quietly (.bind .refAt fun _ => .lift _)
  case h_24 =>
    exact .quietly (.bind .refAt fun _ => .bind (.lift _) fun _ =>
      .updateRef (fun _ => rfl) fun _ => rfl)
  case h_27 => exact absurd rfl hbound
  case h_28 =>
    split
    · exact .fail _
    · exact .fail _

/-- With other numbers of arguments these requests fail. -/
theorem ask_of_excess {name : String} {args : List Value} (hplain : (name, args.length) ∉ locking)
    (hname : name ∈ ["touch", "deref", "alter"]) :
    ask call t r name args = fail (.fault .type) := by
  simp only [mem_cons, not_mem_nil, or_false] at hname
  rcases hname with rfl | rfl | rfl
  iterate 2
    · cases args with
      | nil => exact absurd (by simp [locking]) hplain
      | cons a rest => simp [ask, requests]
  · rcases args with _ | ⟨a, _ | ⟨b, _ | ⟨c, rest⟩⟩⟩
    · simp [ask, requests]
    · simp [ask, requests]
    · exact absurd (by simp [locking]) hplain
    · simp [ask, requests]

/-- A request that is answered: what is touched is ensured, and a try reads what was there at its
read point. -/
structure Granted (call : Caller) (t : Nat) (mine : Stake) (k : Nat → Nat) (F : Fact) (X : Txn)
    (q : Request) (v : Value) (w : World) (g : Chronicle) : Prop where
  between : Between t mine k F w g
  touched : q.name = "touch" → q.ref ∈ (w.txn t).ensures
  read : X.self ≠ none → X.values.lookup q.ref = none → q.Answers call X v g

/-- A request that fails: its reads fail as they should. -/
structure Refused (t : Nat) (mine : Stake) (k : Nat → Nat) (F : Fact) (X : Txn) (q : Request)
    (s : Signal) (b w : World) (g : Chronicle) : Prop where
  left : Left t mine (q.leaves s k) F b w g
  read : q.name = "deref" → q.args = [] → X.self ≠ none → ReadFails t q.ref s b w

theorem Between.granted {v : Value} (hb : Between t mine k F w g)
    (hname : q.name ∉ ["touch", "deref", "alter"] := by simp) :
    Granted call t mine k F X q v w g := by
  simp only [mem_cons, not_mem_nil, or_false, not_or] at hname
  exact ⟨hb, fun hc => absurd hc hname.1, fun _ _ hreads =>
    hreads.elim (fun hc => absurd hc hname.2.1) fun hc => absurd hc hname.2.2⟩

theorem Left.refused {s : Signal} {b : World} (hl : Left t mine k F b w g)
    (htouch : q.name = "touch" → s.isAttributeFault = false := by simp)
    (hderef : q.name = "deref" → q.args ≠ [] := by simp) : Refused t mine k F X q s b w g := by
  have hleaves : q.leaves s k = k := if_neg fun hc => by simp [htouch hc.1] at hc
  refine ⟨?_, fun hc hargs => absurd hargs (hderef hc)⟩
  rw [hleaves]
  exact hl

/-- Whatever is asked. -/
theorem askSteps_safe (hat : At t mine X (fun _ => 0) (holds X.ensures k) F w g) (hs : Sane w g)
    (hX : Tidy X) (hbound : q.name ≠ "unbind") :
    Safe t mine (Keeping fun r => q.writes → r ≠ q.ref) (Granted call t mine k F X q)
      (Refused t mine k F X q) (askSteps call t q) w g := by
  obtain ⟨r, name, args⟩ := q
  have hsame : ∀ {w : World} {g : Chronicle}, At t mine X (fun _ => 0) (holds X.ensures k) F w g →
      Left t mine k F w w g := fun hat => .of_at hat hX hat.self_eq
  unfold askSteps
  dsimp only
  split
  case h_1 =>
    refine (derefSteps_safe hat hs hX).mono (fun v w g hv => ?_) fun s b w g hl => ?_
    · exact ⟨hv.1, fun hc => absurd hc (by simp),
        fun hself hnone _ => ⟨v, hv.2 hself hnone, .inl ⟨rfl, rfl⟩⟩⟩
    · exact ⟨hl.1, fun _ _ => hl.2⟩
  case h_2 v =>
    refine hat.requireTransaction_bind hs (fun s w g hat _ => ?_) fun w g hat hs _ => ?_
    · exact (hsame hat).refused
    · refine (writeSteps_safe hat hs hX ?_).mono (fun _ _ _ h => h.2.granted)
        fun _ _ _ _ h => h.refused
      exact fun hc => hc (.inl rfl) rfl
  case h_3 f args =>
    refine (alterSteps_safe hat hs hX ?_).mono (fun v w g hv => ?_)
      fun _ _ _ _ h => h.refused
    · exact fun hc => hc (.inr (.inl rfl)) rfl
    · refine ⟨hv.1, fun hc => absurd hc (by simp), fun _ hnone _ => ?_⟩
      obtain ⟨u, hlatest, hchange⟩ := hv.2 hnone
      obtain ⟨rest, hrest, hcall⟩ := bind_eq_ok hchange
      exact ⟨u, hlatest, .inr ⟨f, args, rest, rfl, rfl, hrest, hcall⟩⟩
  case h_4 f args =>
    refine hat.requireTransaction_bind hs (fun s w g hat _ => ?_) fun w g hat hs _ => ?_
    · exact (hsame hat).refused
    · refine (commuteSteps_safe hat hs hX ?_).mono (fun _ _ _ h => h.granted)
        fun _ _ _ _ h => h.refused
      exact fun hc => hc (.inr (.inr rfl)) rfl
  case h_5 =>
    -- the only request that may leave a hold behind
    refine hat.requireTransaction_bind hs (fun s w g hat hno => ?_) fun w g hat hs _ => ?_
    · exact (hsame hat).refused fun _ => hno
    refine (ensureSteps_safe hat hs hX).then (fun s b w g hl => ?_) fun _ w g hb hs => ?_
    · exact ⟨by simpa [Request.leaves] using hl, fun hc => absurd hc (by simp)⟩
    obtain ⟨⟨X', hX', hat⟩, hin⟩ := hb
    rw [hat.txn] at hin
    refine hat.done hs fun w g hat => ⟨⟨X', hX', hat⟩, fun _ => ?_, fun _ _ hreads => ?_⟩
    · rw [hat.txn]
      exact hin
    · simp [Request.reads] at hreads
  case h_6 | h_8 =>
    exact (glanceSteps_safe hat hs hX).mono (fun _ _ _ h => h.granted)
      fun _ _ _ _ h => h.refused
  case h_7 =>
    refine (lockSteps_safe hat hs).then (fun s b w g hm => ?_) fun _ w g hat hs => ?_
    · exact (Left.of_missing hm hX).refused
    refine trim_bind hat hs fun w g hat hs => ?_
    refine (unlockSteps_safe hat hs).bind fun _ w g hat hs => hat.done hs fun w g hat => ?_
    exact Between.granted ⟨X, hX, hat⟩
  case h_9 f =>
    refine (derefSteps_safe hat hs hX).then (fun s b w g hl => ?_) fun v w g hb hs => ?_
    · exact hl.1.refused
    obtain ⟨⟨X', hX', hat⟩, -⟩ := hb
    refine hat.calm_bind hs (.validate call f v) (fun s b w g hat hb => ?_) fun _ w g hat hs => ?_
    · exact (Left.of_at hat hX' hb).refused
    refine hat.calm_bind hs (.updateRef (fun _ => rfl) fun _ => rfl) (fun s b w g hat hb => ?_)
      fun _ w g hat hs => hat.done hs fun w g hat => Between.granted ⟨X', hX', hat⟩
    exact (Left.of_at hat hX' hb).refused
  case h_10 h1 h2 h3 h4 h5 h6 h7 h8 h9 =>
    -- all other requests are one step each
    have hplain : (name, args.length) ∉ locking := by
      intro hc
      simp only [locking, mem_cons, Prod.mk.injEq, not_mem_nil, or_false,
        length_eq_zero_iff, length_eq_one_iff, length_eq_two] at hc
      rcases hc with ⟨hn, hl⟩ | ⟨hn, _, hl⟩ | ⟨hn, _, _, hl⟩ | ⟨hn, _, _, hl⟩ | ⟨hn, hl⟩ |
        ⟨hn, hl⟩ | ⟨hn, hl⟩ | ⟨hn, hl⟩ | ⟨hn, _, hl⟩
      · exact h1 hn hl
      · exact h2 _ hn hl
      · exact h3 _ _ hn hl
      · exact h4 _ _ hn hl
      · exact h5 hn hl
      · exact h6 hn hl
      · exact h7 hn hl
      · exact h8 hn hl
      · exact h9 _ hn hl
    by_cases hname : name ∈ ["touch", "deref", "alter"]
    · rw [ask_of_excess hplain hname]
      exact hat.fails hs fun w g hat => (hsame hat).refused (fun _ => rfl) fun hn hl => h1 hn hl
    · refine hat.calm_bind hs (ask_calm (q := ⟨r, name, args⟩) hplain hbound)
        (fun s b w g hat hb => ?_)
        fun v w g hat hs => hat.done hs fun w g hat => Between.granted ⟨X, hX, hat⟩ hname
      exact (Left.of_at hat hX hb).refused
        (fun hn => absurd (mem_cons.2 (.inl hn)) hname) fun hn hl => h1 hn hl

end HostedLisp.Stm
