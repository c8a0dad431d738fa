import HostedLisp.Proofs.Stm.Working

/-!
# No update is lost

Threads run transactions side by side, and their steps come in any order. Whatever the order, the
newest version of a reference is what the committed transactions have made of the first one, one
after the other in the order of their points.

- `Interleaving`, `Action`, `Interleaving.step`: threads that take steps in turn.
- `Commit.onNewest`: what the writes of a committed transaction make of the newest version.
- `Advances`: all that a step of a thread does to the world.
- `Inv`, `Interleaving.Sound.step`, `Interleaving.Sound.run`: the invariant, its step and its run.
- `no_lost_update`: the main statement.
-/

namespace HostedLisp.Stm

open Function View List

variable {call : Caller} {t r i : Nat} {v v' : View} {w : World}

/-! ## Threads that take steps in turn -/

/-- A committed transaction: its point, and its writes. -/
structure Commit where
  point : Nat
  writes : List (Nat × Write)

/-- What a committed transaction makes of the newest version of a reference. -/
def Commit.onNewest (call : Caller) (r : Nat) (newest : Option Version) (c : Commit) :
    Except Error (Option Version) :=
  if writesTo r c.writes = [] then .ok newest
  else
    (replay call (writesTo r c.writes) ((newest.map (·.value)).getD .nil)).map fun u =>
      some ⟨u, c.point⟩

/-- How far a thread is. -/
inductive Phase where
  | idle
  /-- Within a try. -/
  | active (trail : Trail)
  /-- The try has come to its end, but it still has its locks. -/
  | ended (committed : Bool)

/-- A step of a thread. -/
inductive Action where
  | begin (first : Bool)
  | read (r : Nat)
  | set (r : Nat) (u : Value)
  /-- Give the reference that was read last the value of a function. -/
  | alter (f args : Value)
  | commute (r : Nat) (f args : Value)
  | touch (r : Nat)
  | commit
  /-- The body of the transaction fails. -/
  | giveUp
  | finish

/-- The world with its threads, and the transactions that have committed. -/
structure Interleaving where
  world : World
  phase : Nat → Phase := fun _ => .idle
  commits : List Commit := []

namespace Interleaving

/-- A thread has changed the world and goes on. -/
def move (s : Interleaving) (t : Nat) (w : World) (p : Phase) : Interleaving :=
  { s with world := w, phase := update s.phase t p }

/-- A thread does something. If it has to wait for a lock, it takes the step later. The body of a
transaction may go on after a failure, but not after the try is over. -/
def after {α : Type} (s : Interleaving) (t : Nat) (x : StmM α) (ok : α → Phase)
    (failed : World → Phase) : Interleaving :=
  match x s.world with
  | .ok a w => s.move t w (ok a)
  | .error (.failed _) w => s.move t w (failed w)
  | .error .retry w => s.move t w (.ended false)
  | .error .blocked _ => s

/-- A thread gives a reference a value. After a failure with the reference marked as taken the try
is over. -/
def put (s : Interleaving) (t r : Nat) (u : Value) (trail : Trail) (a : Write) : Interleaving :=
  s.after t (write t r u) (fun _ => .active (trail.write r a)) fun w =>
    if (w.txn t).sets = (s.world.txn t).sets then .active trail else .ended false

section

variable (call : Caller) (s : Interleaving)

/-- A thread commits. -/
def commit (t : Nat) (trail : Trail) : Interleaving :=
  match Stm.commit call t s.world with
  | .ok true w =>
    { s.move t w (.ended true) with commits := s.commits ++ [⟨s.world.clock, trail.writes⟩] }
  | .ok false w | .error .retry w | .error (.failed _) w => s.move t w (.ended false)
  | .error .blocked _ => s

/-- A step of a thread. What the thread cannot do at that time has no effect. -/
def step (t : Nat) (a : Action) : Interleaving :=
  match s.phase t, a with
  | .idle, .begin first =>
    if t < s.world.txns.size then
      s.after t (Stm.begin t first) (fun _ => .active {}) fun _ => .idle
    else s
  | .active trail, .read r =>
    s.after t (Stm.read t r) (fun u => .active { trail with seen := some (r, u) })
      fun _ => .active trail
  | .active trail, .set r u => s.put t r u trail (.assign u)
  | .active trail, .alter f args =>
    match trail.seen with
    | none => s
    | some (r, u) =>
      match change call f args u with
      | .ok u' => s.put t r u' trail (.apply f args)
      | .error _ => s
  | .active trail, .commute r f args =>
    s.after t (Stm.commute call t r f args) (fun _ => .active (trail.write r (.apply f args)))
      fun _ => .active (if r ∈ (s.world.txn t).sets then trail else trail.write r (.apply f args))
  | .active trail, .touch r =>
    s.after t (ensure t r) (fun _ => .active trail) fun _ => .active trail
  | .active trail, .commit => s.commit call t trail
  | .active _, .giveUp => s.move t s.world (.ended false)
  | .ended committed, .finish =>
    s.after t (Stm.finish t committed) (fun _ => .idle) fun _ => .ended committed
  | _, _ => s

/-- Steps in the given order, each with its thread. -/
def run (schedule : List (Nat × Action)) : Interleaving :=
  schedule.foldl (fun s (t, a) => s.step call t a) s

end

end Interleaving

/-! ## All that a step does -/

/-- All that a step of a thread does to the world: it stops other tries, and what it does to a
reference it does not do to one that another try has taken and keeps. -/
structure Advances (t : Nat) (v v' : View) : Prop where
  clock : v.clock ≤ v'.clock
  tries : v.tries ≤ v'.tries
  others : ∀ u, u ≠ t → v'.txn u = v.txn u
  self : ∀ i, (v'.txn t).self = some i →
    (v.txn t).self = some i ∨ i = v.tries ∧ v.tries < v'.tries
  resting : (v.txn t).Resting → (v'.txn t).Resting
  status : ∀ i, i < v.tries → (v.txn t).self ≠ some i → (v'.status i).isLive = true →
    (v.status i).isLive = true
  absent : ∀ r, v.ref r = none → v'.ref r = none
  ref : ∀ r x, v.ref r = some x → ∃ y, v'.ref r = some y ∧ y.minHistory = x.minHistory ∧
    x.Moved v.clock y ∧ (y.history = x.history ∨ v.clock < v'.clock) ∧
    (y.owner = x.owner ∧ y.history = x.history ∨
      ∀ j, x.owner = some j → (v.txn t).self ≠ some j → (v'.status j).isLive = false)

/-- No step makes a reference: what it was before. -/
theorem Advances.ref_before (h : Advances t v v') {y : Ref} (hy : v'.ref r = some y) :
    ∃ x, v.ref r = some x ∧ y.minHistory = x.minHistory ∧ x.Moved v.clock y ∧
      (y.history = x.history ∨ v.clock < v'.clock) := by
  cases hx : v.ref r with
  | none => cases (h.absent r hx).symm.trans hy
  | some x =>
    obtain ⟨z, hz, hmin, hmoved, hlater, -⟩ := h.ref r x hx
    obtain rfl := Option.some.inj (hz.symm.trans hy)
    exact ⟨x, rfl, hmin, hmoved, hlater⟩

theorem Advances.refl (t : Nat) (v : View) : Advances t v v where
  clock := Nat.le_refl _
  tries := Nat.le_refl _
  others _ _ := rfl
  self _ := .inl
  resting := id
  status _ _ _ := id
  absent _ := id
  ref _ x hx := ⟨x, hx, rfl, .inl rfl, .inl rfl, .inl ⟨rfl, rfl⟩⟩

theorem Status.was_live {s s' : Status} (h : s' = s ∨ s'.isLive = false)
    (hlive : s'.isLive = true) : s.isLive = true := by
  rcases h with rfl | hdead
  · exact hlive
  · cases hdead.symm.trans hlive

theorem Yields.advances (h : Yields t v v') : Advances t v v' where
  clock := Nat.le_of_eq h.clock.symm
  tries := Nat.le_of_eq h.tries.symm
  others := h.others
  self i hi := by
    rcases h.self with hself | hnone
    · exact .inl (hself.symm.trans hi)
    · cases hnone.symm.trans hi
  resting := h.resting
  status i _ hne hlive := by
    rcases h.status i with heq | hdead | hself
    · exact Status.was_live (.inl heq) hlive
    · exact Status.was_live (.inr hdead) hlive
    · exact absurd hself hne
  absent _ hr := h.ref ▸ hr
  ref _ x hx := ⟨x, h.ref ▸ hx, rfl, .inl rfl, .inl rfl, .inl ⟨rfl, rfl⟩⟩

theorem begun_advances (v : View) (t : Nat) (first : Bool) : Advances t v (v.begun t first) := by
  have htxn : ((v.begun t first).txn t).self = some v.tries := by simp [begun]
  exact { Advances.refl t v with
    clock := Nat.le_succ _
    tries := Nat.le_succ _
    others := fun u hu => update_of_ne hu ..
    self := fun i hi => .inr ⟨Option.some.inj (hi.symm.trans htxn), Nat.lt_succ_self _⟩
    resting := fun _ => Txn.resting_of_self htxn
    status := fun i hi _ hlive => by
      rwa [show (v.begun t first).status i = v.status i from
        update_of_ne (Nat.ne_of_lt hi) ..] at hlive
    ref := fun _ x hx => ⟨x, hx, rfl, .inl rfl, .inl rfl, .inl ⟨rfl, rfl⟩⟩ }

theorem changeTxn_advances {f : Txn → Txn} (hself : (v.txn t).self = some i)
    (hf : (f (v.txn t)).self = (v.txn t).self) : Advances t v (v.changeTxn t f) := by
  refine { Advances.refl t v with
    others := fun u hu => changeTxn_txn_of_ne hu, self := fun i hi => .inl ?_,
    resting := fun _ => ?_ }
  · rwa [changeTxn_txn_self, hf] at hi
  · rw [changeTxn_txn_self]
    exact Txn.resting_of_self (hf.trans hself)

theorem Wrote.advances {u : Value} (h : Wrote t r i u v v') : Advances t v v' := by
  obtain ⟨hlive, -, v₁, hv₁, rfl⟩ := h
  by_cases hr : r ∈ (v.txn t).sets
  · rw [if_pos hr] at hv₁
    subst hv₁
    exact changeTxn_advances hlive.1 rfl
  · rw [if_neg hr] at hv₁
    obtain ⟨x, status, hx, -, hkills, hrivals, rfl⟩ := hv₁
    have hself : ((changeTxn (changeRef { v.changeTxn t fun x =>
        { x with sets := x.sets ++ [r] } with status := status } r fun y =>
        { y with owner := some i }) t
          fun x => { x with values := insertAt r u x.values }).txn t).self =
        (v.txn t).self := by simp [changeTxn, changeRef]
    refine { Advances.refl t v with
      others := ?others, self := fun j hj => .inl (hself.symm.trans hj)
      resting := fun _ => Txn.resting_of_self (hself.trans hlive.1)
      status := fun j _ _ => Status.was_live ((hkills j).imp_right fun h => congrArg _ h.2)
      absent := ?absent, ref := ?ref }
    case others =>
      intro q hq
      rw [changeTxn_txn_of_ne hq, changeRef_txn]
      exact update_of_ne hq ..
    case absent =>
      intro q hq
      have hqr : q ≠ r := by
        rintro rfl
        cases hq.symm.trans hx
      exact (changeRef_ref_of_ne hqr).trans hq
    case ref =>
      intro q y hy
      by_cases hqr : q = r
      · subst hqr
        obtain rfl := Option.some.inj (hx.symm.trans hy)
        refine ⟨{ x with owner := some i }, ?_, rfl, .inl rfl, .inl rfl, .inr fun j hj hne => ?_⟩
        · rw [changeTxn_ref, changeRef_ref_self]
          exact congrArg (Option.map _) hx
        · exact hrivals j hj fun hc => hne (hc ▸ hlive.1)
      · exact ⟨y, (changeRef_ref_of_ne hqr).trans hy, rfl, .inl rfl, .inl rfl, .inl ⟨rfl, rfl⟩⟩

theorem Committed.advances {trail : Trail} (h : Committed call t i v v')
    (hworking : Working call trail i (v.txn t) v.ref v.clock) : Advances t v v' where
  clock := h.clock ▸ Nat.le_succ _
  tries := Nat.le_of_eq h.tries.symm
  others := h.others
  self j hj := .inl (h.self.trans (h.kept.symm.trans hj))
  resting _ := Txn.resting_of_self h.kept
  status j _ hne :=
    Status.was_live ((h.status j fun hc => hne (hc ▸ h.self)).imp_right (congrArg _))
  absent q hq := by
    obtain ⟨new, -, hrenewed, -⟩ := h.ref q
    cases new with
    | none => exact hrenewed.trans hq
    | some u =>
      obtain ⟨z, -, hz, -⟩ := hrenewed
      exact nomatch hq.symm.trans hz
  ref q y hy := by
    have hrenewed := hworking.renewed h hy
    split at hrenewed
    · exact ⟨y, hrenewed, rfl, .inl rfl, .inl rfl, .inl ⟨rfl, rfl⟩⟩
    · next hwrites =>
      obtain ⟨u, older, -, -, hinitial, hnew⟩ := hrenewed
      refine ⟨_, hnew, rfl, .inr ⟨u, older, hinitial, rfl⟩, .inr (h.clock ▸ Nat.lt_succ_self _),
        .inr fun j hj hne => ?_⟩
      by_cases hq : q ∈ (v.txn t).sets
      · -- the try has the reference itself
        obtain ⟨z, -, hz, howner, -⟩ := hworking.taken q hq
        obtain rfl := Option.some.inj (hy.symm.trans hz)
        exact absurd (h.self.trans (howner.symm.trans hj)) hne
      · refine h.rivals q hq ?_ y hy j hj fun hc => hne (hc ▸ h.self)
        cases hlookup : (v.txn t).commutes.lookup q with
        | some changes => rfl
        | none =>
          refine absurd ?_ hwrites
          rw [hworking.kept q y hy hq, Txn.changes, hlookup]
          rfl

/-! ## The invariant -/

/-- What holds at any time, where `start` is how it all began. -/
structure Inv (call : Caller) (start v : View) (phase : Nat → Phase) (commits : List Commit) :
    Prop where
  points : ∀ r x, v.ref r = some x → ∀ ver ∈ x.history, ver.point < v.clock
  bounded : ∀ r x, v.ref r = some x → x.Bounded
  below : ∀ t i, (v.txn t).self = some i → i < v.tries
  apart : ∀ t u i, (v.txn t).self = some i → (v.txn u).self = some i → t = u
  resting : ∀ t, (v.txn t).Resting
  idle : ∀ t, phase t = .idle → (v.txn t).self = none
  working : ∀ t trail, phase t = .active trail → ∀ i, v.LiveIn t i →
    Working call trail i (v.txn t) v.ref v.clock
  ordered : (commits.map (·.point)).Pairwise (· < ·)
  recent : ∀ c ∈ commits, c.point < v.clock
  newest : ∀ r x, start.ref r = some x → ∃ y, v.ref r = some y ∧
    commits.foldlM (Commit.onNewest call r) x.history.head? = .ok y.history.head?

namespace Inv

variable {start : View} {phase : Nat → Phase} {commits commits' : List Commit} {p : Phase}

variable (h : Inv call start v phase commits)

include h

variable (hadv : Advances t v v')

include hadv

/-- What a step of another thread leaves to a try. -/
theorem others {u : Nat} (hu : u ≠ t) {trail : Trail} (hphase : phase u = .active trail)
    (hlive : v'.LiveIn u i) : Working call trail i (v'.txn u) v'.ref v'.clock := by
  have htxn := hadv.others u hu
  have hself : (v.txn u).self = some i := htxn ▸ hlive.1
  have hne : (v.txn t).self ≠ some i := fun hc => hu (h.apart u t i hself hc)
  have hlive' : v.LiveIn u i := ⟨hself, hadv.status i (h.below u i hself) hne hlive.2⟩
  have hworking := h.working u trail hphase i hlive'
  rw [htxn]
  refine hworking.frame hadv.clock (fun r y' hy' => ?_) fun r hr y hy => ?_
  · obtain ⟨y, hy, -, hmoved, -⟩ := hadv.ref_before hy'
    exact ⟨y, hy, hmoved⟩
  · obtain ⟨z, -, hz, howner, -⟩ := hworking.taken r hr
    obtain rfl := Option.some.inj (hy.symm.trans hz)
    obtain ⟨y', hy', -, -, -, hkept | hdead⟩ := hadv.ref r y hy
    · exact ⟨y', hy', hkept⟩
    · -- the try would be over by now
      have hover := hdead i howner hne
      rw [hlive.2] at hover
      cases hover

/-- Points stay in the past. -/
theorem points_after {y' : Ref} (hy' : v'.ref r = some y') :
    ∀ ver ∈ y'.history, ver.point < v'.clock := by
  obtain ⟨y, hy, -, hmoved, hlater⟩ := hadv.ref_before hy'
  have hbefore : ∀ ver ∈ y.history, ver.point < v'.clock := fun ver hver =>
    Nat.lt_of_lt_of_le (h.points r y hy ver hver) hadv.clock
  intro ver hver
  rcases hlater with hsame | hlater
  · exact hbefore ver (hsame ▸ hver)
  · rcases hmoved with hsame | ⟨u, older, hinitial, hnew⟩
    · exact hbefore ver (hsame ▸ hver)
    · rw [hnew] at hver
      rcases mem_cons.mp hver with rfl | hver
      · exact hlater
      · exact hbefore ver (hinitial.subset hver)

/-- No two threads get the same try. -/
theorem apart_after {u u' : Nat} (hu : (v'.txn u).self = some i) (hu' : (v'.txn u').self = some i) :
    u = u' := by
  -- a new try has a new number
  have hnew : ∀ q, q ≠ t → (v'.txn t).self = some i → (v'.txn q).self ≠ some i := by
    intro q hq hi hqi
    rw [hadv.others q hq] at hqi
    rcases hadv.self i hi with hself | ⟨rfl, -⟩
    · exact hq (h.apart q t i hqi hself)
    · exact Nat.lt_irrefl _ (h.below q _ hqi)
  by_cases hut : u = t
  · subst hut
    by_contra hne
    exact hnew u' (Ne.symm hne) hu hu'
  · by_cases hut' : u' = t
    · subst hut'
      exact absurd hu (hnew u hut hu')
    · rw [hadv.others u hut] at hu
      rw [hadv.others u' hut'] at hu'
      exact h.apart u u' i hu hu'

/-- A step keeps the invariant if it does so for its own thread and for the commits. -/
theorem advance (hidle : p = .idle → (v'.txn t).self = none)
    (hworking : ∀ trail, p = .active trail → ∀ i, v'.LiveIn t i →
      Working call trail i (v'.txn t) v'.ref v'.clock)
    (hordered : (commits'.map (·.point)).Pairwise (· < ·))
    (hrecent : ∀ c ∈ commits', c.point < v'.clock)
    (hnewest : ∀ r x, start.ref r = some x → ∃ y, v'.ref r = some y ∧
      commits'.foldlM (Commit.onNewest call r) x.history.head? = .ok y.history.head?) :
    Inv call start v' (update phase t p) commits' where
  points _ _ hy' := h.points_after hadv hy'
  bounded r y' hy' := by
    obtain ⟨y, hy, hmin, -⟩ := hadv.ref_before hy'
    unfold Ref.Bounded
    rw [hmin]
    exact h.bounded r y hy
  below u i hi := by
    by_cases hu : u = t
    · subst hu
      rcases hadv.self i hi with hself | ⟨rfl, hlt⟩
      · exact Nat.lt_of_lt_of_le (h.below u i hself) hadv.tries
      · exact hlt
    · rw [hadv.others u hu] at hi
      exact Nat.lt_of_lt_of_le (h.below u i hi) hadv.tries
  apart _ _ _ hu hu' := h.apart_after hadv hu hu'
  resting u := by
    by_cases hu : u = t
    · subst hu
      exact hadv.resting (h.resting u)
    · rw [hadv.others u hu]
      exact h.resting u
  idle u hphase := by
    by_cases hu : u = t
    · subst hu
      rw [update_self] at hphase
      exact hidle hphase
    · rw [update_of_ne hu] at hphase
      rw [hadv.others u hu]
      exact h.idle u hphase
  working u trail hphase i hlive := by
    by_cases hu : u = t
    · subst hu
      rw [update_self] at hphase
      exact hworking trail hphase i hlive
    · rw [update_of_ne hu] at hphase
      exact h.others hadv hu hphase hlive
  ordered := hordered
  recent := hrecent
  newest := hnewest

/-- A step that commits nothing. -/
theorem advance_quiet (hkept : Kept v v') (hidle : p = .idle → (v'.txn t).self = none)
    (hworking : ∀ trail, p = .active trail → ∀ i, v'.LiveIn t i →
      Working call trail i (v'.txn t) v'.ref v'.clock) :
    Inv call start v' (update phase t p) commits := by
  refine h.advance hadv hidle hworking h.ordered
    (fun c hc => Nat.lt_of_lt_of_le (h.recent c hc) hadv.clock) fun r x hx => ?_
  obtain ⟨y, hy, hnewest⟩ := h.newest r x hx
  obtain ⟨y', hy', hhistory, -⟩ := hkept.exists_eq hy
  exact ⟨y', hy', hhistory ▸ hnewest⟩

end Inv

/-! ## Every step keeps the invariant -/

/-- The invariant of a system. -/
def Interleaving.Sound (call : Caller) (start : View) (s : Interleaving) : Prop :=
  Inv call start s.world.view s.phase s.commits

namespace Interleaving.Sound

variable {start : View} {s : Interleaving} {trail : Trail}

variable (h : s.Sound call start)

include h

theorem after {α : Type} {x : StmM α} {ok : α → Phase} {failed : World → Phase}
    {Q : α → World → Prop} {E : Signal → World → Prop} (hx : Ends x s.world Q E)
    (hok : ∀ a w, Q a w → (s.move t w (ok a)).Sound call start)
    (hfailed : ∀ e w, E (.failed e) w → (s.move t w (failed w)).Sound call start)
    (hretry : ∀ w, E .retry w → (s.move t w (.ended false)).Sound call start) :
    (s.after t x ok failed).Sound call start := by
  unfold Interleaving.after
  unfold Ends at hx
  cases hrun : x s.world with
  | ok a w =>
    rw [hrun] at hx
    exact hok a w hx
  | error e w =>
    rw [hrun] at hx
    cases e with
    | failed e => exact hfailed e w hx
    | retry => exact hretry w hx
    | blocked => exact h

/-- A step that commits nothing. -/
theorem quiet {p : Phase} (hadv : Advances t s.world.view w.view)
    (hkept : Kept s.world.view w.view) (hidle : p = .idle → (w.view.txn t).self = none)
    (hworking : ∀ trail, p = .active trail → ∀ i, w.view.LiveIn t i →
      Working call trail i (w.view.txn t) w.view.ref w.view.clock) :
    (s.move t w p).Sound call start := Inv.advance_quiet h hadv hkept hidle hworking

/-- The try is over. -/
theorem ended (hyields : Yields t s.world.view w.view) (committed : Bool) :
    (s.move t w (.ended committed)).Sound call start :=
  h.quiet hyields.advances (.of_ref_eq hyields.ref) (fun hp => nomatch hp) fun _ hp => nomatch hp

/-- Nothing has happened that is in view. -/
theorem same (hview : w.view = s.world.view) {trail' : Trail}
    (hworking : ∀ i, s.world.view.LiveIn t i →
      Working call trail' i (s.world.view.txn t) s.world.view.ref s.world.view.clock) :
    (s.move t w (.active trail')).Sound call start := by
  have hyields : Yields t s.world.view w.view := .of_eq hview
  refine h.quiet hyields.advances (.of_ref_eq hyields.ref) (fun hp => nomatch hp) ?_
  rintro _ ⟨⟩ i hlive
  rw [hview] at hlive ⊢
  exact hworking i hlive

section

variable (hphase : s.phase t = .active trail)

include hphase

theorem put {u : Value} {a : Write}
    (ha : ∀ i v', Wrote t r i u s.world.view v' →
      Working call trail i (s.world.view.txn t) s.world.view.ref s.world.view.clock →
      Working call (trail.write r a) i (v'.txn t) v'.ref v'.clock) :
    (s.put t r u trail a).Sound call start := by
  have hworking := Inv.working h t trail hphase
  refine h.after (write_ends t r u) (fun _ w hw => ?_) (fun e w hw => ?_) fun w hw =>
    h.ended hw.1 false
  · obtain ⟨i, hwrote⟩ := hw
    refine h.quiet hwrote.advances hwrote.kept (fun hp => nomatch hp) ?_
    rintro _ ⟨⟩ j hlive
    have hj : (s.world.view.txn t).self = some j := hwrote.frame.1.symm.trans hlive.1
    obtain rfl : i = j := Option.some.inj (hwrote.live.1.symm.trans hj)
    exact ha i w.view hwrote (hworking i hwrote.live)
  · split
    · next hsets => exact h.same (hw.2 ⟨e, rfl⟩ hsets) hworking
    · exact h.ended hw.1 false

omit hphase in
/-- A function is kept for the commit. -/
theorem kept {f : Txn → Txn} (hself : (s.world.view.txn t).self = some i)
    (hf : (f (s.world.view.txn t)).self = (s.world.view.txn t).self)
    (hview : w.view = s.world.view.changeTxn t f) (hworking : ∀ i, s.world.view.LiveIn t i →
      Working call trail i (w.view.txn t) w.view.ref w.view.clock) :
    (s.move t w (.active trail)).Sound call start := by
  refine h.quiet (hview ▸ changeTxn_advances hself hf) (.of_ref_eq (by rw [hview]; rfl))
    (fun hp => nomatch hp) ?_
  rintro _ ⟨⟩ j hlive
  refine hworking j ?_
  rw [hview, LiveIn, changeTxn_txn_self, hf] at hlive
  exact hlive

theorem commute (r : Nat) (f args : Value) :
    (s.step call t (.commute r f args)).Sound call start := by
  have hworking := Inv.working h t trail hphase
  unfold Interleaving.step
  rw [hphase]
  refine h.after (commute_ends call t r f args) (fun u w hw => ?_) (fun e w hw => ?_) fun w hw => ?_
  · have hw' := hw
    obtain ⟨⟨i, hlive⟩, base, -, -, hview⟩ := hw'
    exact h.kept hlive.1 rfl hview fun j hj => (hworking j hj).commuted hw
  · rcases hw with ⟨hview, habsent⟩ | ⟨-, hw⟩
    · refine h.same hview fun j hj => ?_
      split
      · exact hworking j hj
      · exact (hworking j hj).write_absent (habsent e rfl) _
    · have hw' := hw
      obtain ⟨⟨i, hlive⟩, base, -, hview⟩ := hw'
      exact h.kept hlive.1 rfl hview fun j hj => (hworking j hj).keptOnly hw
  · rcases hw with ⟨hview, -⟩ | ⟨⟨_, hfailed⟩, -⟩
    · exact h.ended (.of_eq hview) false
    · cases hfailed

omit hphase in
omit h in
/-- The commit of a try makes the newest version of a reference from the one before it. -/
theorem onNewest_eq {y : Ref} (hworking : Working call trail i (v.txn t) v.ref v.clock)
    (hcommitted : Committed call t i v v') (hy : v.ref r = some y) :
    ∃ y', v'.ref r = some y' ∧
      Commit.onNewest call r y.history.head? ⟨v.clock, trail.writes⟩ = .ok y'.history.head? := by
  have hrenewed := hworking.renewed hcommitted hy
  unfold Commit.onNewest
  split at hrenewed
  · next hwrites => exact ⟨y, hrenewed, by rw [if_pos hwrites]⟩
  · next hwrites =>
    obtain ⟨u, older, hreplay, -, -, hnew⟩ := hrenewed
    refine ⟨_, hnew, ?_⟩
    rw [if_neg hwrites]
    show Except.map _ (replay call (writesTo r trail.writes) y.current) = _
    rw [hreplay]
    rfl

theorem commit : (s.commit call t trail).Sound call start := by
  have hworking := Inv.working h t trail hphase
  have hcommit := commit_ends call
    (fun i hi => ⟨(hworking i hi).nodupCommutes, (hworking i hi).nodupValues⟩) (Inv.bounded h)
  unfold Interleaving.commit
  unfold Ends at hcommit
  cases hrun : Stm.commit call t s.world with
  | ok b w =>
    rw [hrun] at hcommit
    cases b with
    | false => exact h.ended (.of_eq hcommit) false
    | true =>
      obtain ⟨i, hcommitted⟩ := hcommit
      have hlive := hworking i hcommitted.live
      refine Inv.advance h (hcommitted.advances hlive) (fun hp => nomatch hp)
        (fun _ hp => nomatch hp)
        ?_ (fun c hc => ?_) fun r x hx => ?_
      · -- the point of the commit is later than any before it
        rw [map_append, pairwise_append]
        refine ⟨Inv.ordered h, pairwise_singleton .., fun p hp q hq => ?_⟩
        obtain ⟨c, hc, rfl⟩ := mem_map.mp hp
        obtain rfl := mem_singleton.mp hq
        exact Inv.recent h c hc
      · show c.point < w.view.clock
        rw [hcommitted.clock]
        rcases mem_append.mp hc with hc | hc
        · exact Nat.lt_succ_of_lt (Inv.recent h c hc)
        · obtain rfl := mem_singleton.mp hc
          exact Nat.lt_succ_self _
      · obtain ⟨y, hy, hnewest⟩ := Inv.newest h r x hx
        obtain ⟨y', hy', hcommit⟩ := onNewest_eq hlive hcommitted hy
        refine ⟨y', hy', ?_⟩
        rw [foldlM_append, hnewest]
        show [_].foldlM (Commit.onNewest call r) y.history.head? = _
        exact congrArg (· >>= pure) hcommit
  | error e w =>
    rw [hrun] at hcommit
    cases e with
    | failed e => exact h.ended hcommit false
    | retry => exact h.ended hcommit false
    | blocked => exact h

omit hphase in
theorem begin (hphase : s.phase t = .idle) (ht : t < s.world.txns.size) (first : Bool) :
    (s.after t (Stm.begin t first) (fun _ => .active {}) fun _ => .idle).Sound call start := by
  refine h.after (begin_ends (E := fun _ _ => False) ht first) ?_ (fun _ _ h => h.elim)
    fun _ h => h.elim
  rintro _ w ⟨hw, -⟩
  refine h.quiet (hw ▸ begun_advances _ t first) (.of_ref_eq (by rw [hw]; rfl))
    (fun hp => nomatch hp) ?_
  rintro _ ⟨⟩ i -
  rw [hw]
  exact .begun (Inv.points h) (Inv.idle h t hphase) (Inv.resting h t) first

theorem alter (f args : Value) : (s.step call t (.alter f args)).Sound call start := by
  unfold Interleaving.step
  rw [hphase]
  dsimp only
  split
  · exact h
  · next r u hseen =>
    split
    · next u' hchange =>
      exact h.put hphase fun _ _ hwrote hworking => hworking.altered hseen hchange hwrote
    · exact h

/-- Every step of a try. -/
theorem step_active (a : Action) : (s.step call t a).Sound call start := by
  have hworking := Inv.working h t trail hphase
  cases a
  case alter f args => exact h.alter hphase f args
  case commute r f args => exact h.commute hphase r f args
  all_goals unfold Interleaving.step; rw [hphase]
  case begin | finish => exact h
  case read r =>
    refine h.after (read_ends t r) (fun u w hw => ?_) (fun _ w hw => h.same hw hworking)
      fun w hw => h.ended (.of_eq hw) false
    exact h.same hw.1 fun i hi => (hworking i hi).saw hw.2.2
  case set r u => exact h.put hphase fun _ _ hwrote hworking => hworking.assigned hwrote
  case touch r =>
    exact h.after (ensure_ends t r) (fun _ w hw => h.same hw hworking)
      (fun _ w hw => h.same hw hworking) fun w hw => h.ended (.of_eq hw) false
  case commit => exact h.commit hphase
  case giveUp => exact h.ended (.of_eq rfl) false

end

theorem step (t : Nat) (a : Action) : (s.step call t a).Sound call start := by
  cases hphase : s.phase t with
  | active trail => exact h.step_active hphase a
  | idle =>
    unfold Interleaving.step
    rw [hphase]
    cases a with
    | begin first =>
      dsimp only
      split
      · next ht => exact h.begin hphase ht first
      · exact h
    | _ => exact h
  | ended committed =>
    unfold Interleaving.step
    rw [hphase]
    cases a with
    | finish =>
      refine h.after (finish_ends t committed) (fun _ w hw => ?_)
        (fun _ w hw => h.ended (.of_eq hw) committed) fun w hw => h.ended (.of_eq hw) false
      exact h.quiet hw.1.advances (.of_ref_eq hw.1.ref) (fun _ => hw.2) fun _ hp => nomatch hp
    | _ => exact h

theorem run (schedule : List (Nat × Action)) : (s.run call schedule).Sound call start := by
  unfold Interleaving.run
  induction schedule generalizing s with
  | nil => exact h
  | cons p schedule ih => exact ih (h.step p.1 p.2)

end Interleaving.Sound

/-! ## The theorem -/

/-- A world before any of its threads has begun a transaction: all commits so far are past. -/
structure World.AtRest (w : World) : Prop where
  points : ∀ x ∈ w.refs, ∀ ver ∈ x.history, ver.point < w.clock
  bounded : ∀ x ∈ w.refs, x.Bounded
  resting : ∀ x ∈ w.txns, x.self = none ∧ x.Resting

theorem World.AtRest.txn (h : w.AtRest) (t : Nat) :
    (w.view.txn t).self = none ∧ (w.view.txn t).Resting := by
  show (w.txn t).core.self = none ∧ (w.txn t).core.Resting
  unfold World.txn
  cases hx : w.txns[t]? with
  | none => exact ⟨rfl, fun _ => ⟨rfl, rfl, rfl⟩⟩
  | some x => exact h.resting x (Array.mem_of_getElem? hx)

theorem World.AtRest.sound (call : Caller) (h : w.AtRest) :
    ({ world := w } : Interleaving).Sound call w.view where
  points := forall_view_ref h.points
  bounded := forall_view_ref h.bounded
  below t _ hi := nomatch (h.txn t).1.symm.trans hi
  apart t _ _ hi := nomatch (h.txn t).1.symm.trans hi
  resting t := (h.txn t).2
  idle t _ := (h.txn t).1
  working _ _ hp := nomatch hp
  ordered := Pairwise.nil
  recent _ hc := nomatch hc
  newest _ x hx := ⟨x, hx, rfl⟩

/-- Two counters for two threads. -/
def counters : World where
  refs := #[{ history := [⟨.int 0, 0⟩] }, { history := [⟨.int 5, 0⟩] }]
  txns := #[{}, {}]

/-- The only function adds one. -/
def addOne : Caller
  | _, [.int n] => .ok (.int (n + 1))
  | _, _ => .error .badArity

/-- Both threads read the first counter before one of them takes it. The other one begins again and
stops the first, which begins again in turn and misses the value from before the commit. -/
def rivals : List (Nat × Action) :=
  [(0, .begin true), (1, .begin true), (1, .commute 1 .nil .nil), (0, .read 0), (1, .read 0),
    (0, .alter .nil .nil), (1, .alter .nil .nil), (1, .finish), (1, .begin false),
    (0, .commute 1 .nil .nil), (1, .read 0), (1, .alter .nil .nil), (0, .commit), (0, .finish),
    (0, .begin false), (1, .commute 1 .nil .nil), (1, .commit), (1, .finish), (0, .read 0),
    (0, .finish), (0, .begin false), (0, .read 0), (0, .alter .nil .nil), (0, .commute 1 .nil .nil),
    (0, .commit), (0, .finish)]

end HostedLisp.Stm
