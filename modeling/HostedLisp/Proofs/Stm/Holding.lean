import HostedLisp.Proofs.Stm.Interference
import HostedLisp.Proofs.Stm.Actions

/-!
# What a thread holds, and its single steps

- `plus`, `holds`: numbers of holds by reference.
- `Fact`: what stays true as the past of references grows.
- `Stance`, `At`: what a thread knows of itself: its transaction, its holds, its tries, a fact.
- `fair_modify` and so on: changes of the world that are fair.
- `lockSteps_safe`, `unlockSteps_safe` and so on: locks add holds and take them away.
- `Stance.step`, `Stance.look`: a step of a thread that knows where it stands.
- `updateTxn_ends`, `updateRef_ends`, `barge_fair`, `stop_fair` and so on: what the single steps do.
- `Latest`: the value of a reference before a point, for good.
-/

namespace HostedLisp.Stm

open SharedLock Function Course List

variable {α β : Type} {w w' : World} {g g' : Chronicle} {t u r : Nat} {mine : Stake}
variable {own : Txn → Txn → Prop}

/-! ## Numbers of holds -/

/-- One more hold of a reference. -/
def plus (e : Nat → Nat) (r : Nat) : Nat → Nat := fun q => if q = r then e q + 1 else e q

/-- A hold for each time that a reference is in a list, on top of others. -/
def holds (xs : List Nat) (k : Nat → Nat) : Nat → Nat := fun q => xs.count q + k q

@[simp] theorem plus_self (e : Nat → Nat) (r : Nat) : plus e r r = e r + 1 := if_pos rfl

theorem plus_of_ne (e : Nat → Nat) {q r : Nat} (h : q ≠ r) : plus e r q = e q := if_neg h

variable (k : Nat → Nat) (xs : List Nat) {x : Ref} {f : Ref → Ref}
  {E : Signal → World → World → Chronicle → Prop}

@[simp] theorem holds_nil : holds [] k = k := by
  funext q
  simp [holds]

theorem holds_cons (r : Nat) : holds (r :: xs) k = plus (holds xs k) r := by
  funext q
  unfold holds plus
  rw [count_cons]
  by_cases hq : q = r
  · subst hq
    simp only [beq_self_eq_true, if_true]
    omega
  · have hne : (r == q) = false := beq_false_of_ne (Ne.symm hq)
    simp [hq, hne]

theorem holds_append (r : Nat) : holds (xs ++ [r]) k = plus (holds xs k) r := by
  rw [← holds_cons]
  funext q
  unfold holds
  rw [(perm_append_singleton r xs).count_eq]

theorem count_le_holds (r : Nat) : xs.count r ≤ holds xs k r := Nat.le_add_right ..

theorem holds_plus (r : Nat) : holds xs (plus k r) = plus (holds xs k) r := by
  funext q
  unfold holds plus
  split
  · exact (Nat.add_assoc ..).symm
  · rfl

theorem holds_erase {xs : List Nat} (h : r ∈ xs) : holds xs k = plus (holds (xs.erase r) k) r := by
  rw [← holds_cons]
  funext q
  unfold holds
  rw [(perm_cons_erase h).count_eq]

/-! ## What a thread knows of itself -/

/-- Something about the past of references that stays true as it grows. -/
structure Fact where
  Holds : Chronicle → Prop
  endures : ∀ g g', (∀ r, (g r).Grows (g' r)) → Holds g → Holds g'

/-- Nothing in particular. -/
def Fact.none : Fact := ⟨fun _ => True, fun _ _ _ _ => trivial⟩

/-- What a thread knows of itself: its transaction `X`, its exclusive and shared holds, of which it
may be in line for some, its tries, and a fact. -/
structure Stance (t : Nat) (mine : Stake) (X : Txn) (e h : Nat → Nat) (line : Nat → Option Nat)
    (F : Fact) (w : World) (g : Chronicle) : Prop where
  thread : t < w.txns.size
  txn : w.txn t = X
  stands : ∀ (r : Nat) (x : Ref), w.refs[r]? = some x →
    Standing.Kept ⟨e r, h r, line r⟩ (x.lock.standing t)
  real : ∀ r, w.refs[r]? = none → e r = 0 ∧ h r = 0
  point : X.self ≠ none → X.readPoint < w.clock
  self_mine : ∀ i, X.self = some i → i ∈ mine.tries
  known : ∀ i ∈ mine.tries, i < w.tries.size
  settled : ∀ i ∈ mine.tries, X.self ≠ some i → (w.status i).isLive = false
  backed : mine.firm → ∀ r, X.ensures.count r ≤ h r
  fact : F.Holds g

/-- A stance that is not in line. -/
abbrev At (t : Nat) (mine : Stake) (X : Txn) (e h : Nat → Nat) (F : Fact) :
    World → Chronicle → Prop := Stance t mine X e h (fun _ => none) F

variable {X : Txn} {e h : Nat → Nat} {line : Nat → Option Nat} {F : Fact}

theorem Stance.self_eq (hat : Stance t mine X e h line F w g) : (w.txn t).self = X.self :=
  congrArg Txn.self hat.txn

theorem Stance.standing (hat : At t mine X e h F w g) (hx : w.refs[r]? = some x) :
    x.lock.standing t = ⟨e r, h r, none⟩ := by
  obtain ⟨he, hh, hticket⟩ := hat.stands r x hx
  cases hstanding : x.lock.standing t
  simp_all

theorem Stance.at_of_out (hst : Stance t mine X e h line F w g)
    (hout : ∀ (r : Nat) (x : Ref), w.refs[r]? = some x → (x.lock.standing t).ticket = none) :
    At t mine X e h F w g :=
  { hst with stands := fun r x hx =>
      ⟨(hst.stands r x hx).1, (hst.stands r x hx).2.1, .inl (hout r x hx)⟩ }

theorem refs_none_iff {q : Nat} (hsize : w'.refs.size = w.refs.size) :
    w'.refs[q]? = none ↔ w.refs[q]? = none := by
  rw [Array.getElem?_eq_none_iff, Array.getElem?_eq_none_iff, hsize]

theorem modify_ref {q : Nat} {y : Ref} (hy : (w.refs.modify r f)[q]? = some y) :
    (q = r ∧ ∃ x, w.refs[r]? = some x ∧ y = f x) ∨ q ≠ r ∧ w.refs[q]? = some y := by
  rw [Array.getElem?_modify] at hy
  split at hy
  · next hq =>
    subst hq
    obtain ⟨x, hx, rfl⟩ := Option.map_eq_some_iff.1 hy
    exact .inl ⟨rfl, x, hx, rfl⟩
  · next hq => exact .inr ⟨Ne.symm hq, hy⟩

/-- What a thread knows of itself stays true while others act. -/
theorem Stance.bears (hst : Stance t mine X e h line F w g) (hb : Bears t mine w w' g g') :
    Stance t mine X e h line F w' g' := by
  refine ⟨hb.threads ▸ hst.thread, hb.txn.trans hst.txn, fun r y hy => ?_, fun r hr => ?_,
    fun hself => Nat.lt_of_lt_of_le (hst.point hself) hb.clock, hst.self_mine,
    fun i hi => Nat.lt_of_lt_of_le (hst.known i hi) hb.tries, fun i hi hself => ?_, hst.backed,
    F.endures g g' hb.grows hst.fact⟩
  · have hsome : w.refs[r]? ≠ none := by
      rw [ne_eq, ← refs_none_iff hb.refs, hy]
      exact fun hc => by cases hc
    obtain ⟨x, hx⟩ := Option.ne_none_iff_exists'.1 hsome
    obtain ⟨z, hz, hkept⟩ := hb.locks r x hx
    cases hy.symm.trans hz
    exact (hst.stands r x hx).trans hkept
  · exact hst.real r ((refs_none_iff hb.refs).1 hr)
  · rcases hb.status i hi (hst.known i hi) with hs | hs
    · rw [hs]
      exact hst.settled i hi hself
    · rw [hs]
      rfl

theorem Stance.lasting : Lasting t mine (Stance t mine X e h line F) where
  bears _ _ _ _ hst _ hb := hst.bears hb
  backed w g hst hfirm r x hx := by
    rw [hst.txn, (hst.stands r x hx).2.1]
    exact Int.ofNat_le.2 (hst.backed hfirm r)

/-- The end of a course. -/
theorem Stance.done (hat : At t mine X e h F w g) (hs : Sane w g) {Q : α → World → Chronicle → Prop}
    {a : α} (hQ : ∀ w g, At t mine X e h F w g → Q a w g) : Safe t mine own Q E (.done a) w g :=
  Safe.done Stance.lasting hat hs hQ

theorem Stance.holdsLock (hat : At t mine X e h F w g) (hpos : e r ≠ 0) : HoldsLock t r w := by
  cases hx : w.refs[r]? with
  | none => exact absurd (hat.real r hx).1 hpos
  | some x =>
    refine ⟨x, hx, owner_of_exclusive ?_ ?_⟩
    · rw [hat.standing hx]
    · rw [hat.standing hx]
      exact Int.natCast_ne_zero.2 hpos

/-! ## Fair changes -/

section

variable (hs : Sane w g)

include hs

theorem Sane.update {p : Past} (hfalling : p.log.Pairwise fun v v' => v'.point < v.point)
    (hbelow : ∀ v ∈ p.log, v.point < w.clock) (hfloor : p.floor < w.clock)
    (hx : ∀ x, w.refs[r]? = some x →
      (f x).lock.Lawful ∧ (f x).history ≠ [] ∧ (f x).history.IsPrefix p.log) :
    Sane (w.withRef r f) (update g r p) := by
  refine ⟨fun q y hy => ?_, fun q y hy => ?_, fun q y hy => ?_, fun q => ?_, fun q => ?_,
    fun q => ?_⟩
  · rcases modify_ref hy with ⟨rfl, x, hr, rfl⟩ | ⟨-, hy⟩
    · exact (hx x hr).1
    · exact hs.lawful q y hy
  · rcases modify_ref hy with ⟨rfl, x, hr, rfl⟩ | ⟨-, hy⟩
    · exact (hx x hr).2.1
    · exact hs.bound q y hy
  · rcases modify_ref hy with ⟨rfl, x, hr, rfl⟩ | ⟨hq, hy⟩
    · rw [update_self]
      exact (hx x hr).2.2
    · rw [update_of_ne hq]
      exact hs.kept q y hy
  · rw [update_apply]
    split
    · exact hfalling
    · exact hs.falling q
  · rw [update_apply]
    split
    · exact hbelow
    · exact hs.below q
  · rw [update_apply]
    split
    · exact hfloor
    · exact hs.floor_lt q

/-- A change of a reference is fair if it keeps the standing of others, and if only who owns the
lock adds to the past. -/
theorem fair_modify {p : Past} (hpast : p = g r ∨ HoldsLock t r w)
    (hgrows : (g r).Grows p) (hfalling : p.log.Pairwise fun v v' => v'.point < v.point)
    (hbelow : ∀ v ∈ p.log, v.point < w.clock) (hfloor : p.floor < w.clock)
    (hx : ∀ x, w.refs[r]? = some x → Moves t x.lock (f x).lock ∧
      (f x).history ≠ [] ∧ (f x).history.IsPrefix p.log)
    (hshown : ∀ v ∈ p.log, v ∈ (g r).log ∨ ∃ x, w.refs[r]? = some x ∧ v ∈ (f x).history) :
    Fair t own w (w.withRef r f) g (update g r p) := by
  -- the goals left: locks of others, who adds to the past, that it grows, and that it was to
  -- be seen
  refine ⟨⟨Array.size_modify, rfl, fun _ _ => rfl, Nat.le_refl _, Nat.le_refl _, fun q x hq => ?_,
    fun q => ?_, fun q => ?_, fun _ _ _ => .inl rfl⟩,
    hs.update hfalling hbelow hfloor fun x hr => ⟨(hx x hr).1.lawful, (hx x hr).2⟩, .inl rfl,
    fun q v hv => ?_⟩
  · rw [Array.getElem?_modify]
    split
    · next hr =>
      subst hr
      exact ⟨f x, by rw [hq]; rfl, (hx x hq).1.others⟩
    · exact ⟨x, hq, fun _ _ => .refl _⟩
  · by_cases hq : q = r
    · subst hq
      rw [update_self]
      exact hpast
    · exact .inl (update_of_ne hq ..)
  · by_cases hq : q = r
    · subst hq
      rw [update_self]
      exact hgrows
    · rw [update_of_ne hq]
      exact .refl _
  · by_cases hq : q = r
    · subst hq
      rw [update_self] at hv
      refine (hshown v hv).imp_right fun h => ?_
      obtain ⟨x, hx, hv⟩ := h
      exact ⟨f x, by rw [Array.getElem?_modify, if_pos rfl, hx]; rfl, hv⟩
    · rw [update_of_ne hq] at hv
      exact .inl hv

/-- A change of a reference that keeps its history and moves its lock. -/
theorem fair_modify_ref
    (hx : ∀ x, w.refs[r]? = some x → Moves t x.lock (f x).lock ∧ (f x).history = x.history) :
    Fair t own w (w.withRef r f) g g := by
  have hfair : Fair t own w (w.withRef r f) g (update g r (g r)) := by
    refine fair_modify hs (.inl rfl) (.refl _) (hs.falling r) (hs.below r) (hs.floor_lt r)
      (fun x hr => ⟨(hx x hr).1, ?_, ?_⟩) fun _ => .inl
    · rw [(hx x hr).2]
      exact hs.bound r x hr
    · rw [(hx x hr).2]
      exact hs.kept r x hr
  rwa [update_eq_self] at hfair

omit hs in
/-- A thread may change its own transaction. -/
theorem Fair.updateTxn {f : Txn → Txn} (h : Fair t own w w' g g') (hsame : w'.txn t = w.txn t)
    (hown : own (w.txn t) (f (w.txn t))) : Fair t own w (w'.withTxn t f) g g' := by
  refine ⟨{ h.spares with
    threads := Array.size_modify.trans h.spares.threads, txn := fun u hu => ?_ },
    { h.sane with }, ?_, h.shown⟩
  · rw [txn_modify, if_neg fun hc => hu hc.1.symm]
    exact h.spares.txn u hu
  · rw [txn_modify, hsame]
    split
    · exact .inr hown
    · exact .inl rfl

/-- A thread may change the status of its own try, and stop others. -/
theorem fair_setStatus {i : Nat} {s : Status} (hi : (w.txn t).self = some i ∨ s = .killed) :
    Fair t own w (w.withStatus i s) g g := by
  refine ⟨{ Spares.refl t w g with
      tries := Nat.le_of_eq Array.size_modify.symm, status := fun j hj hself => ?_ },
    { hs with }, .inl rfl,
    fun _ _ => .inl⟩
  unfold World.status
  rw [Array.getElem?_modify]
  split
  · next hij =>
    subst hij
    rcases hi with hi | rfl
    · exact absurd hi hself
    · exact .inr (by simp [hj])
  · exact .inl rfl

/-- The clock may go on. -/
theorem Sane.tick : Sane { w with clock := w.clock + 1 } g :=
  { hs with
    below := fun r v hv => Nat.lt_succ_of_lt (hs.below r v hv)
    floor_lt := fun r => Nat.lt_succ_of_lt (hs.floor_lt r) }

theorem fair_clock : Fair t own w { w with clock := w.clock + 1 } g g :=
  ⟨{ Spares.refl t w g with clock := Nat.le_succ _ }, hs.tick, .inl rfl, fun _ _ => .inl⟩

/-! ## Locks -/

/-- In line for one reference. -/
def inLine (r k : Nat) : Nat → Option Nat := fun q => if q = r then some k else none

omit hs in
/-- Another lock changes the holds of one reference. -/
theorem Stance.withLock {line' : Nat → Option Nat} {l : SharedLock Nat}
    (hst : Stance t mine X e h line F w g) (e' h' : Nat → Nat) (hx : w.refs[r]? = some x)
    (hstanding : Standing.Kept ⟨e' r, h' r, line' r⟩ (l.standing t))
    (hsame : ∀ q, q ≠ r → e' q = e q ∧ h' q = h q ∧ line' q = line q)
    (hback : mine.firm → X.ensures.count r ≤ h' r) :
    Stance t mine X e' h' line' F (w.withLock r l) g := by
  refine { hst with
    stands := fun q y hy => ?_, real := fun q hq => ?_, backed := fun hfirm q => ?_ }
  · rcases modify_ref hy with ⟨rfl, z, hz, rfl⟩ | ⟨hq, hy⟩
    · cases hx.symm.trans hz
      exact hstanding
    · obtain ⟨he, hh, hl⟩ := hsame q hq
      rw [he, hh, hl]
      exact hst.stands q y hy
  · have hnone : w.refs[q]? = none := (refs_none_iff (w := w) Array.size_modify).1 hq
    have hne : q ≠ r := fun hc => by
      rw [hc, hx] at hnone
      cases hnone
    obtain ⟨he, hh, -⟩ := hsame q hne
    rw [he, hh]
    exact hst.real q hnone
  · by_cases hq : q = r
    · rw [hq]
      exact hback hfirm
    · rw [(hsame q hq).2.1]
      exact hst.backed hfirm q

theorem fair_withLock {l : SharedLock Nat} (hx : w.refs[r]? = some x)
    (hmoves : Moves t x.lock l) : Fair t own w (w.withLock r l) g g := by
  refine fair_modify_ref hs fun y hy => ⟨?_, rfl⟩
  cases hx.symm.trans hy
  exact hmoves

end

/-- What asking for a lock leads to: the holds are there, or the thread is in line for them. -/
def Asked (t r : Nat) (mine : Stake) (own : Txn → Txn → Prop) (X : Txn) (e h : Nat → Nat) (F : Fact)
    (w : World) (g : Chronicle) (ticket : Option Nat) (w' : World) : Prop :=
  Fair t own w w' g g ∧
    match ticket with
    | none => At t mine X e h F w' g
    | some k => Stance t mine X e h (inLine r k) F w' g

/-- There is no such reference, and nothing is changed. -/
def Missing (t r : Nat) (mine : Stake) (X : Txn) (e h : Nat → Nat) (F : Fact)
    (s : Signal) (b w : World) (g : Chronicle) : Prop :=
  s = .failed (.fault .index) ∧ w = b ∧ w.refs[r]? = none ∧ At t mine X e h F w g

section

variable (hat : At t mine X e h F w g) (hs : Sane w g)

include hat hs

theorem asked_of_grants {e' h' : Nat → Nat} {a : SharedLock.Attempt Nat} (hx : w.refs[r]? = some x)
    (hgrants : a.Grants t x.lock { exclusive := e' r, shared := h' r, ticket := none })
    (hsame : ∀ q, q ≠ r → e' q = e q ∧ h' q = h q) (hmore : h r ≤ h' r)
    {E : Signal → World → Prop} :
    Ends (noteAttempt r a) w (Asked t r mine own X e' h' F w g) E := by
  have hback : mine.firm → X.ensures.count r ≤ h' r :=
    fun hfirm => Nat.le_trans (hat.backed hfirm r) hmore
  cases a with
  | held l =>
    obtain ⟨hmoves, hstanding⟩ := hgrants
    refine ⟨fair_withLock hs hx hmoves, hat.withLock e' h' hx ?_ (fun q hq => ?_) hback⟩
    · rw [hstanding]
      exact .refl _
    · exact ⟨(hsame q hq).1, (hsame q hq).2, rfl⟩
  | waits l k =>
    obtain ⟨hmoves, hstanding⟩ := hgrants
    refine ⟨fair_withLock hs hx hmoves, hat.withLock e' h' hx ?_ (fun q hq => ?_) hback⟩
    · rw [inLine, if_pos rfl]
      exact hstanding
    · exact ⟨(hsame q hq).1, (hsame q hq).2, if_neg hq⟩

theorem askToOwn_ends (c : Chance) :
    Ends (askToOwn t r c) w (Asked t r mine own X (plus e r) h F w g)
      fun s w' => Missing t r mine X e h F s w w' g := by
  unfold askToOwn
  refine Ends.refAt_bind (fun x hx => ?_) fun hn => ⟨rfl, rfl, hn, hat⟩
  refine asked_of_grants hat hs hx ?_ (fun q hq => ⟨plus_of_ne e hq, rfl⟩) (Nat.le_refl _)
  have hgrants := acquire_spec (hs.lawful r x hx) (by rw [hat.standing hx]) c.ownerFirst
  rw [hat.standing hx] at hgrants
  rw [plus_self, Int.natCast_add]
  exact hgrants

theorem askToShare_ends :
    Ends (askToShare t r) w (Asked t r mine own X e (plus h r) F w g)
      fun s w' => Missing t r mine X e h F s w w' g := by
  unfold askToShare
  refine Ends.refAt_bind (fun x hx => ?_) fun hn => ⟨rfl, rfl, hn, hat⟩
  refine asked_of_grants hat hs hx ?_ (fun q hq => ⟨rfl, plus_of_ne h hq⟩) (by simp)
  have hgrants := acquireShared_spec (hs.lawful r x hx) (by rw [hat.standing hx])
  rw [hat.standing hx] at hgrants
  rw [plus_self, Int.natCast_add]
  exact hgrants

omit hat hs in
/-- Who is let in has the holds. -/
theorem Stance.let_in {k : Nat} (hst : Stance t mine X e h (inLine r k) F w g)
    (hx : w.refs[r]? = some x) (hout : t ∉ x.lock.waitingThreads) : At t mine X e h F w g := by
  refine hst.at_of_out fun q y hy => ?_
  by_cases hq : q = r
  · subst hq
    cases hx.symm.trans hy
    exact ticket_none_iff_waiting.2 hout
  · have hticket := (hst.stands q y hy).2.2
    simpa [inLine, hq] using hticket

variable {Q : α → World → Chronicle → Prop}

omit hat hs in
theorem wait_safe {k : Nat} (hst : Stance t mine X e h (inLine r k) F w g) {p : Course α}
    (hnext : ∀ w g, At t mine X e h F w g → Sane w g → Safe t mine own Q E p w g) :
    Safe t mine own Q E (.wait t r p) w g :=
  fun w' g' hb hs' =>
    have hst' := hst.bears hb
    ⟨Stance.lasting.backed w' g' hst', fun _ hx hout => hnext w' g' (hst'.let_in hx hout) hs'⟩

/-- Asking for a lock is safe if what comes next is, whether the holds are there or not. -/
theorem ask_safe {e' h' : Nat → Nat} {x : Chance → StmM (Option Nat)}
    (hask : ∀ w g, At t mine X e h F w g → Sane w g → ∀ c, Ends (x c) w
      (Asked t r mine own X e' h' F w g) fun s w' => Missing t r mine X e h F s w w' g)
    (hE : ∀ s b w g, Missing t r mine X e h F s b w g → E s b w g) {next : Option Nat → Course Unit}
    (hdone : next none = .done ()) (hnext : ∀ k w g, Stance t mine X e' h' (inLine r k) F w g →
      Safe t mine own (fun _ => At t mine X e' h' F) E (next (some k)) w g) :
    Safe t mine own (fun _ => At t mine X e' h' F) E (.act x next) w g := by
  refine Safe.act Stance.lasting hat hs fun w g hat hs c => ?_
  refine (hask w g hat hs c).mono (fun ticket w' hasked => ⟨g, hasked.1, ?_⟩) fun s w' hmiss => ?_
  · cases ticket with
    | none => exact hdone ▸ Stance.done hasked.2 hasked.1.sane fun _ _ h => h
    | some k => exact hnext k w' g hasked.2
  · refine ⟨g, ?_, hE s w w' g hmiss⟩
    rw [hmiss.2.1]
    exact .refl hs

/-- A lock adds an exclusive hold. -/
theorem lockSteps_safe :
    Safe t mine own (fun _ => At t mine X (plus e r) h F) (Missing t r mine X e h F)
      (lockSteps t r) w g :=
  ask_safe hat hs (fun _ _ hat hs c => askToOwn_ends hat hs c) (fun _ _ _ _ h => h) rfl
    fun _ _ _ hst => wait_safe hst fun _ _ hat hs => hat.done hs fun _ _ h => h

theorem lockSharedSteps_safe :
    Safe t mine own (fun _ => At t mine X e (plus h r) F) (Missing t r mine X e h F)
      (lockSharedSteps t r) w g :=
  ask_safe hat hs (fun _ _ hat hs _ => askToShare_ends hat hs) (fun _ _ _ _ h => h) rfl
    fun _ _ _ hst => wait_safe hst fun _ _ hat hs => hat.done hs fun _ _ h => h

/-- A try that begins again, with the same holds. -/
def Again (t : Nat) (mine : Stake) (X : Txn) (e h : Nat → Nat) (F : Fact)
    (s : Signal) (b w : World) (g : Chronicle) : Prop := s = .retry ∧ w = b ∧ At t mine X e h F w g

theorem retry_safe : Safe t mine own Q (Again t mine X e h F) (.atom (throw .retry)) w g :=
  Safe.act Stance.lasting hat hs fun _ g hat hs _ => ends_throw ⟨g, .refl hs, rfl, rfl, hat⟩

/-- A lock adds an exclusive hold, or the thread has waited too long and has its holds as before. -/
theorem lockSoonSteps_safe :
    Safe t mine own (fun _ => At t mine X (plus e r) h F)
      (fun s b w g => Missing t r mine X e h F s b w g ∨ Again t mine X e h F s b w g)
      (lockSoonSteps t r) w g := by
  refine ask_safe hat hs (fun _ _ hat hs c => askToOwn_ends hat hs c) (fun _ _ _ _ h => .inl h) rfl
    fun k w g hst => ?_
  intro w' g' hb hs'
  have hst := hst.bears hb
  refine ⟨Stance.lasting.backed w' g' hst, fun x hx => ⟨fun hout => ?_, fun hin coin => ?_⟩⟩
  · exact (hst.let_in hx hout).done hs' fun _ _ h => h
  -- who gives up has an exclusive hold less
  obtain ⟨hexclusive, hshared, hticket⟩ := hst.stands r x hx
  have hline : (x.lock.standing t).ticket ≠ none := by
    rw [ne_eq, ticket_none_iff_waiting]
    exact fun hc => hc hin
  have hticket : (x.lock.standing t).ticket = some k := by
    simpa [inLine, hline] using hticket
  rw [plus_self] at hexclusive
  have hsome : (x.lock.standing t).exclusive ≠ 0 := by
    rw [hexclusive]
    exact Int.natCast_ne_zero.2 (Nat.succ_ne_zero _)
  obtain ⟨hmoves, hafter⟩ := giveUp_spec (hs'.lawful r x hx) hticket hsome coin
  have hless : (x.lock.standing t).exclusive - 1 = e r := by
    rw [hexclusive]
    exact Int.add_sub_cancel (e r : Int) 1
  rw [hless, hshared] at hafter
  have hfair : Fair t own w' _ g' g' := fair_withLock hs' hx hmoves
  refine ⟨g', hfair, ?_⟩
  cases hagain : (x.lock.giveUp coin k).2 with
  | true =>
    -- its shared holds are still in line, and it waits for them before it begins again
    rw [hagain] at hafter
    refine wait_safe (k := k) (hst.withLock e h hx ?_ (fun q hq => ?_) fun hf => hst.backed hf r)
      fun w g hat hs => (retry_safe hat hs).mono (fun _ _ _ h => h) fun _ _ _ _ h => .inr h
    · rw [hafter, inLine, if_pos rfl]
      exact .refl _
    · exact ⟨(plus_of_ne e hq).symm, rfl, rfl⟩
  | false =>
    rw [hagain] at hafter
    refine (retry_safe (hst.withLock e h hx ?_ (fun q hq => ?_) fun hf => hst.backed hf r)
      hfair.sane).mono (fun _ _ _ h => h) fun _ _ _ _ h => .inr h
    · rw [hafter]
      exact .refl _
    · exact ⟨(plus_of_ne e hq).symm, rfl, (if_neg hq).symm⟩

end

/-- Giving back a lock takes an exclusive hold away. -/
theorem unlockSteps_safe (hat : At t mine X (plus e r) h F w g) (hs : Sane w g) :
    Safe t mine own (fun _ => At t mine X e h F) E (unlockSteps t r) w g := by
  refine Safe.act Stance.lasting hat hs fun w g hat hs c => ?_
  unfold giveBack
  refine Ends.refAt_bind (fun x hx => ?_) fun hn => ?_
  · have hstanding := hat.standing hx
    rw [plus_self] at hstanding
    obtain ⟨l, hl, hmoves, hafter⟩ := release?_spec (hs.lawful r x hx) (by rw [hstanding])
      (by rw [hstanding]; exact Int.natCast_pos.2 (Nat.succ_pos _)) c.ownerFirst
    rw [hl]
    have hfair : Fair t own w _ g g := fair_withLock hs hx hmoves
    refine ⟨g, hfair, (hat.withLock e h hx ?_ (fun q hq => ?_)
      fun hf => hat.backed hf r).done hfair.sane fun _ _ h => h⟩
    · rw [hafter, hstanding]
      exact ⟨Int.add_sub_cancel (e r : Int) 1, rfl, .inl rfl⟩
    · exact ⟨(plus_of_ne e hq).symm, rfl, rfl⟩
  · have hzero := (hat.real r hn).1
    rw [plus_self] at hzero
    cases hzero

/-- Giving back a shared lock takes a shared hold away. -/
theorem unlockSharedSteps_safe (hat : At t mine X e (plus h r) F w g) (hs : Sane w g)
    (hback : mine.firm → X.ensures.count r ≤ h r) :
    Safe t mine own (fun _ => At t mine X e h F) E (unlockSharedSteps t r) w g := by
  refine Safe.act Stance.lasting hat hs fun w g hat hs c => ?_
  unfold giveBackShared
  refine Ends.refAt_bind (fun x hx => ?_) fun hn => ?_
  · have hstanding := hat.standing hx
    rw [plus_self] at hstanding
    obtain ⟨l, hl, hmoves, hafter⟩ := releaseShared?_spec (hs.lawful r x hx) (by rw [hstanding])
      (by rw [hstanding]; exact Int.natCast_pos.2 (Nat.succ_pos _)) c.ownerFirst
    rw [hl]
    have hfair : Fair t own w _ g g := fair_withLock hs hx hmoves
    refine ⟨g, hfair, (hat.withLock e h hx ?_ (fun q hq => ?_) hback).done
      hfair.sane fun _ _ h => h⟩
    · rw [hafter, hstanding]
      exact ⟨rfl, Int.add_sub_cancel (h r : Int) 1, .inl rfl⟩
    · exact ⟨rfl, (plus_of_ne h hq).symm, rfl⟩
  · have hzero := (hat.real r hn).2
    rw [plus_self] at hzero
    cases hzero

variable {Q : α → World → Chronicle → Prop}

/-! ## Steps -/

section

variable (hat : At t mine X e h F w g) (hs : Sane w g)

include hat hs

variable {next : β → Course α}

/-- A step of a thread that knows where it stands. -/
theorem Stance.step {x : StmM β} (hstep : ∀ w g, At t mine X e h F w g → Sane w g → Ends x w
      (fun b w' => ∃ g', Fair t own w w' g g' ∧ Safe t mine own Q E (next b) w' g')
      fun s w' => ∃ g', Fair t own w w' g g' ∧ E s w w' g') :
    Safe t mine own Q E ((atom x).bind next) w g :=
  Safe.act Stance.lasting hat hs fun w g hat hs _ => hstep w g hat hs

/-- A step that changes nothing. -/
theorem Stance.look {x : StmM β} (hstep : ∀ w g, At t mine X e h F w g → Sane w g → Ends x w
      (fun b w' => w' = w ∧ Safe t mine own Q E (next b) w g) fun s w' => w' = w ∧ E s w w g) :
    Safe t mine own Q E ((atom x).bind next) w g := by
  refine hat.step hs fun w g hat hs => (hstep w g hat hs).mono (fun b w' hb => ?_) fun s w' hb => ?_
  · obtain ⟨rfl, hsafe⟩ := hb
    exact ⟨g, .refl hs, hsafe⟩
  · obtain ⟨rfl, hE⟩ := hb
    exact ⟨g, .refl hs, hE⟩

omit hs in
/-- Another fact. -/
theorem Stance.learn {F' : Fact} (hF : F'.Holds g') : At t mine X e h F' w g' :=
  { hat with fact := hF }

/-- Looking at the own transaction. -/
theorem Stance.txnOf_bind {next : Txn → Course α}
    (hnext : ∀ w g, At t mine X e h F w g → Sane w g → Safe t mine own Q E (next X) w g) :
    Safe t mine own Q E ((atom (txnOf t)).bind next) w g := by
  refine hat.look hs fun w g hat hs => ⟨rfl, ?_⟩
  have hX : (w.txns[t]?.getD {}) = X := hat.txn
  show Safe t mine own Q E (next (w.txns[t]?.getD {})) w g
  rw [hX]
  exact hnext w g hat hs

/-- A failure changes nothing. -/
theorem Stance.fails {s : Signal} (hE : ∀ w g, At t mine X e h F w g → E s w w g) :
    Safe t mine own Q E (atom (throw s)) w g :=
  Safe.act Stance.lasting hat hs fun w g hat hs _ => ends_throw ⟨g, .refl hs, hE w g hat⟩

/-! ## The own transaction -/

variable {f : Txn → Txn} {point : Nat}

section

variable (hself : (f X).self = X.self) (hpoint : (f X).readPoint = X.readPoint)
  (hback : mine.firm → ∀ r, (f X).ensures.count r ≤ h r)

include hself hpoint hback

omit hs in
theorem Stance.updateTxn : At t mine (f X) e h F (w.withTxn t f) g := by
  refine ⟨?_, ?_, hat.stands, hat.real, fun hs => ?_, fun i hi => ?_, hat.known, fun i hi hs => ?_,
    hback, hat.fact⟩
  · rw [Array.size_modify]
    exact hat.thread
  · rw [txn_modify, if_pos ⟨rfl, hat.thread⟩, hat.txn]
  · rw [hpoint]
    exact hat.point (hself ▸ hs)
  · exact hat.self_mine i (hself ▸ hi)
  · exact hat.settled i hi (hself ▸ hs)

theorem updateTxn_ends (hown : own X (f X)) {E : Signal → World → Prop} :
    Ends (updateTxn t f) w (fun _ w' => Fair t own w w' g g ∧ At t mine (f X) e h F w' g) E := by
  refine ends_updateTxn ⟨(Fair.refl hs).updateTxn rfl ?_, hat.updateTxn hself hpoint hback⟩
  rw [hat.txn]
  exact hown

/-- Changing the own transaction, and then going on. -/
theorem Stance.updateTxn_bind {next : Unit → Course α} (hown : own X (f X))
    (hnext : ∀ w g, At t mine (f X) e h F w g → Sane w g → Safe t mine own Q E (next ()) w g) :
    Safe t mine own Q E ((atom (Stm.updateTxn t f)).bind next) w g := by
  refine hat.step hs fun w g hat hs => ?_
  refine (updateTxn_ends hat hs hself hpoint hback hown).mono (fun _ w' h => ?_) fun _ _ h => h
  exact ⟨g, h.1, hnext w' g h.2 h.1.sane⟩

end

/-! ## References -/

omit hs in
theorem Stance.updateRef {f : Ref → Ref} (hlock : ∀ x, w.refs[r]? = some x → (f x).lock = x.lock) :
    At t mine X e h F (w.withRef r f) g := by
  refine { hat with stands := fun q y hy => ?_, real := fun q hq => ?_ }
  · rcases modify_ref hy with ⟨rfl, x, hx, rfl⟩ | ⟨-, hy⟩
    · rw [hlock x hx]
      exact hat.stands q x hx
    · exact hat.stands q y hy
  · exact hat.real q ((refs_none_iff (w := w) Array.size_modify).1 hq)

/-- A change of a reference that keeps its lock and its history. -/
theorem updateRef_ends {f : Ref → Ref} (hlock : ∀ x, (f x).lock = x.lock)
    (hhistory : ∀ x, (f x).history = x.history) {E : Signal → World → Prop} :
    Ends (updateRef r f) w (fun _ w' => Fair t own w w' g g ∧ At t mine X e h F w' g) E := by
  refine ends_updateRef ⟨fair_modify_ref hs fun x hx => ⟨?_, hhistory x⟩,
    hat.updateRef fun x _ => hlock x⟩
  rw [hlock]
  exact Moves.refl (hs.lawful r x hx) t

/-! ## Tries -/

/-- The present try of a thread is over. -/
def Dead (t : Nat) (w : World) : Prop := ∀ i, (w.txn t).self = some i → (w.status i).isLive = false

omit hat hs in
theorem requireLive_looks (w : World) :
    Ends (requireLive t) w (fun _ w' => w' = w ∧ (w.txn t).self ≠ none)
      fun s w' => w' = w ∧ s = .retry ∧ Dead t w := by
  refine (requireLive_ends t).mono (fun _ _ h => ⟨h.1.symm, fun hc => ?_⟩) fun _ _ h =>
    ⟨h.1.symm, h.2.1, fun i hi => ?_⟩
  · obtain ⟨i, hi⟩ := h.2
    cases hc.symm.trans hi.1
  · exact Bool.eq_false_iff.2 fun hlive => h.2.2 i ⟨hi, hlive⟩

omit hs in
theorem Stance.setStatus {i : Nat} {s : Status} (hi : X.self = some i ∨ s = .killed) :
    At t mine X e h F (w.withStatus i s) g := by
  refine { hat with known := fun j hj => ?_, settled := fun j hj hself => ?_ }
  · rw [Array.size_modify]
    exact hat.known j hj
  · have hold := hat.settled j hj hself
    unfold World.status at hold ⊢
    rw [Array.getElem?_modify]
    split
    · next hij =>
      subst hij
      rcases hi with hi | rfl
      · exact absurd hi hself
      · have hlt := hat.known _ hj
        simp [hlt, Status.isLive]
    · exact hold

/-- Stopping a rival. -/
theorem barge_fair {other : Nat} {E : Signal → World → Prop} :
    Ends (barge t other) w (fun _ w' => Fair t own w w' g g ∧ At t mine X e h F w' g) E := by
  unfold barge
  refine Ends.get_bind ?_
  split
  · refine Ends.txnOf_bind ?_
    split
    · exact ⟨fair_setStatus hs (.inr rfl), hat.setStatus (.inr rfl)⟩
    · exact ⟨.refl hs, hat⟩
  · exact ⟨.refl hs, hat⟩

/-- A transaction without its try. -/
def Txn.ended (X : Txn) : Txn := if X.self.isSome then { readPoint := X.readPoint } else X

omit hat hs in
@[simp] theorem Txn.ended_self (X : Txn) : X.ended.self = none := by
  unfold Txn.ended
  split
  · rfl
  · next h => simpa using h

/-- Ending a try: what it has done is forgotten, and it is over. -/
theorem stop_fair {s : Status} (hlive : s.isLive = false) (hown : own X X.ended)
    {E : Signal → World → Prop} :
    Ends (stop t s) w (fun _ w' => Fair t own w w' g g ∧ At t mine X.ended e h F w' g) E := by
  unfold stop
  refine Ends.txnOf_bind ?_
  rw [hat.txn]
  cases hself : X.self with
  | none =>
    have hended : X.ended = X := if_neg (by simp [hself])
    rw [hended]
    exact Ends.pure ⟨.refl hs, hat⟩
  | some i =>
    have hended : X.ended = { readPoint := X.readPoint } := if_pos (by simp [hself])
    rw [hended] at hown ⊢
    have hstatus := hat.setStatus (s := s) (.inl hself)
    have hfair : Fair t own w (w.withStatus i s) g g :=
      fair_setStatus hs (.inl (by rw [hat.txn]; exact hself))
    refine ⟨hfair.updateTxn (f := fun x => { readPoint := x.readPoint }) rfl ?_, ?_⟩
    · rw [hat.txn]
      exact hown
    · refine ⟨?_, ?_, hat.stands, hat.real, fun hc => absurd rfl hc, fun j hj => ?_, hstatus.known,
        fun j hj _ => ?_, fun _ _ => Nat.zero_le _, hat.fact⟩
      · rw [Array.size_modify]
        exact hat.thread
      · rw [txn_modify, if_pos ⟨rfl, hat.thread⟩]
        show ({ readPoint := (w.txn t).readPoint } : Txn) = _
        rw [hat.txn]
      · cases hj
      · -- the try that ends here is settled now, and the other ones were before
        by_cases hij : i = j
        · have hlt := hat.known j hj
          subst hij
          show ((w.withStatus i s).status i).isLive = false
          rw [status_modify hlt, Function.update_self]
          exact hlive
        · exact hstatus.settled j hj fun hc => hij (Option.some.inj (hself.symm.trans hc))

end

/-! ## What was read is final -/

/-- Both facts. -/
def Fact.and (F F' : Fact) : Fact :=
  ⟨fun g => F.Holds g ∧ F'.Holds g, fun g g' hg h =>
    ⟨F.endures g g' hg h.1, F'.endures g g' hg h.2⟩⟩

/-- A value is that of a reference before a point, of all that were ever committed and will be. -/
def Past.Latest (p : Past) (point : Nat) (v : Value) : Prop :=
  point ≤ p.floor ∧
    ∃ x ∈ p.log, x.value = v ∧ x.point < point ∧ ∀ y ∈ p.log, y.point < point → y.point ≤ x.point

theorem Past.Latest.grows {p p' : Past} {v : Value} (h : p.Latest point v) (hgrows : p.Grows p') :
    p'.Latest point v := by
  obtain ⟨hfloor, x, hx, hv, hlt, hmax⟩ := h
  obtain ⟨hle, new, hlog, hnew⟩ := hgrows
  refine ⟨Nat.le_trans hfloor hle, x, ?_, hv, hlt, fun y hy hylt => ?_⟩
  · rw [hlog]
    exact mem_append_right _ hx
  · rw [hlog] at hy
    rcases mem_append.1 hy with hy | hy
    · have := hnew y hy
      omega
    · exact hmax y hy hylt

/-- What a reference gives for a point is final. -/
def Fact.gives (r point : Nat) (x : Ref) : Fact :=
  ⟨fun g => ∀ v, x.valueBefore? point = some v → (g r).Latest point v,
    fun _ _ hg h v hv => (h v hv).grows (hg r)⟩

/-- The greatest point below another one comes first in a list that falls. -/
theorem valueBefore?_latest {x : Ref} {log : List Version} {v : Value}
    (hkept : x.history.IsPrefix log) (hfalling : log.Pairwise fun v v' => v'.point < v.point)
    (hv : x.valueBefore? point = some v) :
    ∃ y ∈ log, y.value = v ∧ y.point < point ∧ ∀ z ∈ log, z.point < point → z.point ≤ y.point := by
  obtain ⟨y, hy, rfl⟩ := Option.map_eq_some_iff.1 hv
  obtain ⟨hlt, before, after, hsplit, hbefore⟩ := find?_eq_some_iff_append.1 hy
  obtain ⟨rest, rfl⟩ := hkept
  have hlt : y.point < point := of_decide_eq_true hlt
  refine ⟨y, ?_, rfl, hlt, fun z hz hzlt => ?_⟩
  · rw [hsplit]
    simp
  · rw [hsplit, append_assoc, cons_append] at hz hfalling
    rcases mem_append.1 hz with hz | hz
    · have := hbefore z hz
      simp at this
      omega
    · rcases mem_cons.1 hz with rfl | hz
      · exact Nat.le_refl _
      · have hpair := (pairwise_cons.1 (pairwise_append.1 hfalling).2.1).1 z hz
        exact Nat.le_of_lt hpair

/-- Who owns a lock may read for a point, which makes what comes before it final. -/
theorem fair_read (own : Txn → Txn → Prop) {x : Ref} (hs : Sane w g) (hown : HoldsLock t r w)
    (hx : w.refs[r]? = some x) (hpoint : point < w.clock) :
    ∃ g', Fair t own w w g g' ∧ (Fact.gives r point x).Holds g' := by
  let p : Past := ⟨(g r).log, max (g r).floor point⟩
  have hgrows : (g r).Grows p := ⟨Nat.le_max_left .., [], rfl, fun _ h => absurd h (by simp)⟩
  have hfair : Fair t own w (w.withRef r fun x => x) g (update g r p) :=
    fair_modify hs (.inr hown) hgrows (hs.falling r) (hs.below r)
      (Nat.max_lt.2 ⟨hs.floor_lt r, hpoint⟩)
      (fun y hy => ⟨Moves.refl (hs.lawful r y hy) t, hs.bound r y hy, hs.kept r y hy⟩) fun _ => .inl
  have hsame : w.refs.modify r (fun x => x) = w.refs := by
    refine Array.ext_getElem? fun i => ?_
    rw [Array.getElem?_modify]
    split
    · exact Option.map_id' ..
    · rfl
  rw [World.withRef, hsame] at hfair
  refine ⟨update g r p, hfair, fun v hv => ?_⟩
  rw [Function.update_self]
  exact ⟨Nat.le_max_right .., valueBefore?_latest (hs.kept r x hx) (hs.falling r) hv⟩

end HostedLisp.Stm
