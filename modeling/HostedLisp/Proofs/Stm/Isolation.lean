import HostedLisp.Proofs.Stm.NoLostUpdate
import HostedLisp.Proofs.Stm.Threads

/-!
# What transactions may rely on

- `World.Quiet`: a world before any thread acts. `Threads.after`: what a schedule leads to from
  there.
- `idle_holds_leftBehind`: outside of transactions a thread has no locks, but for what was left
  behind.
- `reads_are_snapshots`: a try reads the values of its read point.
- `ensured_stays_put`: a reference that is ensured does not change, unless its own thread gets in
  line.
-/

namespace HostedLisp

open List

variable {α : Type} {l : SharedLock α}

/-- Who is not in line shares a lock as often as it stands. -/
theorem SharedLock.sharedDepth?_of_standing [DecidableEq α] {t : α} {n : Nat} (h : l.Sound)
    (hout : t ∉ l.waitingThreads) (hshared : (l.standing t).shared = n) :
    l.sharedDepth? t = if n = 0 then none else some (n : Int) := by
  have hline := SharedLock.ticket_none_iff.1 (SharedLock.ticket_none_iff_waiting.2 hout)
  rw [SharedLock.standing_out hline] at hshared
  cases hdepth : l.sharedDepth? t with
  | none =>
    rw [hdepth] at hshared
    have hn : n = 0 := by simpa using hshared.symm
    rw [if_pos hn]
  | some k =>
    rw [hdepth] at hshared
    have hk : k = n := hshared
    have hpos := h.users_pos _ (SharedLock.mem_of_lookup hdepth)
    have hn : n ≠ 0 := by
      rintro rfl
      simp [hk] at hpos
    rw [if_neg hn, hk]

namespace Stm

variable {call : Caller} {w : World} {t u r : Nat} {g : Chronicle}

/-- A world in which no thread has a transaction or a lock, and the versions of a reference are in
the order of their points. -/
structure World.Quiet (w : World) : Prop where
  clock : 0 < w.clock
  free : ∀ x ∈ w.refs, x.lock.Free
  bound : ∀ x ∈ w.refs, x.history ≠ []
  falling : ∀ x ∈ w.refs, x.history.Pairwise fun v v' => v'.point < v.point
  points : ∀ x ∈ w.refs, ∀ v ∈ x.history, v.point < w.clock
  resting : ∀ x ∈ w.txns, x.self = none ∧ Tidy x

/-- What threads that take steps in some order lead to. -/
def Threads.after (call : Caller) (w : World) (schedule : List (Nat × Turn)) : Threads :=
  ({ world := w } : Threads).run call schedule

open Threads

/-- The past of references whose versions are all still there. -/
def World.past (w : World) : Chronicle := fun r => ⟨(w.refs[r]?.map (·.history)).getD [], 0⟩

theorem World.past_log {x : Ref} (hx : w.refs[r]? = some x) : (w.past r).log = x.history := by
  unfold World.past
  rw [hx]
  rfl

theorem World.past_cases (w : World) (r : Nat) :
    (w.past r).log = [] ∨ ∃ x : Ref, w.refs[r]? = some x ∧ (w.past r).log = x.history := by
  cases hx : w.refs[r]? with
  | none =>
    unfold World.past
    rw [hx]
    exact .inl rfl
  | some x => exact .inr ⟨x, rfl, World.past_log hx⟩

theorem World.Quiet.sane (h : w.Quiet) : Sane w w.past := by
  refine ⟨fun r x hx => ?_, fun r x hx => ?_, fun r x hx => ?_, fun r => ?_, fun r => ?_,
    fun r => h.clock⟩
  · exact (h.free x (Array.mem_of_getElem? hx)).lawful
  · exact h.bound x (Array.mem_of_getElem? hx)
  · simp only [World.past_log hx, prefix_refl]
  · rcases w.past_cases r with hnil | ⟨x, hx, hlog⟩
    · rw [hnil]
      exact .nil
    · rw [hlog]
      exact h.falling x (Array.mem_of_getElem? hx)
  · rcases w.past_cases r with hnil | ⟨x, hx, hlog⟩
    · simp [hnil]
    · rw [hlog]
      exact h.points x (Array.mem_of_getElem? hx)

theorem World.Quiet.txn (h : w.Quiet) (t : Nat) : (w.txn t).self = none ∧ Tidy (w.txn t) := by
  unfold World.txn
  cases hx : w.txns[t]? with
  | none => exact ⟨rfl, rfl, fun _ h => absurd h (by simp), nodup_nil, fun _ => rfl⟩
  | some x => exact h.resting x (Array.mem_of_getElem? hx)

/-- Before anything happens all is sound. -/
theorem World.Quiet.sound (call : Caller) (h : w.Quiet) :
    ({ world := w } : Threads).Sound call w.past := by
  refine ⟨h.sane, fun _ _ hi => absurd hi (by simp), fun _ _ _ _ hi => absurd hi (by simp),
    fun t i hi => ?_, fun t ht => ?_, fun _ ha => absurd ha (by simp)⟩
  · cases (h.txn t).1.symm.trans hi
  · obtain ⟨hself, htidy⟩ := h.txn t
    have hensures := htidy.free hself
    refine ⟨⟨w.txn t, htidy, ht, rfl, fun r x hx => ?_, fun r _ => ⟨rfl, ?_⟩,
      fun hc => absurd hself hc,
      fun i hi => ?_, fun _ hi => absurd hi (by simp), fun _ hi => absurd hi (by simp),
      fun _ r => ?_, trivial⟩, hself⟩
    · rw [hensures, (h.free x (Array.mem_of_getElem? hx)).standing t]
      exact .refl _
    · rw [hensures]
      rfl
    · cases hself.symm.trans hi
    · exact count_le_holds ..

/-- Whatever threads do, all stays sound, and the past of a reference is all that it ever had. -/
theorem World.Quiet.after (call : Caller) (h : w.Quiet) (schedule : List (Nat × Turn)) :
    ∃ g, (after call w schedule).Sound call g ∧
      (after call w schedule).world.txns.size = w.txns.size ∧
      (after call w schedule).world.refs.size = w.refs.size ∧
      ∀ r v, v ∈ (g r).log ↔ EverHad call { world := w } schedule r v := by
  refine (h.sound call).run (fun r v hv => ?_) schedule
  rcases w.past_cases r with hnil | ⟨x, hx, hlog⟩
  · rw [hnil] at hv
    cases hv
  · exact ⟨x, hx, hlog ▸ hv⟩

/-! ## Schedules to look at -/

theorem counters_quiet : counters.Quiet := by
  have hrefs : ∀ x ∈ counters.refs,
      x = { history := [⟨.int 0, 0⟩] } ∨ x = { history := [⟨.int 5, 0⟩] } := by
    intro x hx
    simpa [counters] using hx
  refine ⟨by decide, fun x hx => ?_, fun x hx => ?_, fun x hx => ?_, by decide, fun x hx => ?_⟩
  · rcases hrefs x hx with rfl | rfl <;> exact ⟨rfl, rfl, rfl, rfl⟩
  · rcases hrefs x hx with rfl | rfl <;> exact cons_ne_nil _ _
  · rcases hrefs x hx with rfl | rfl <;> exact pairwise_singleton ..
  · obtain rfl : x = {} := by simpa [counters] using hx
    exact ⟨rfl, rfl, fun _ h => absurd h (by simp), nodup_nil, fun _ => rfl⟩

/-- A step, or waiting on where it has to wait. -/
def Turn.goOn : Turn := .go { timeUp := false }

/-- A thread takes some steps. -/
def going (t n : Nat) : List (Nat × Turn) := List.replicate n (t, .goOn)

/-- A thread asks something and takes some steps of it. -/
def asks (t : Nat) (q : Request) (n : Nat) : List (Nat × Turn) := (t, .ask q) :: going t n

/-- A thread sets a counter in a try, and commits. -/
def sets (t r : Nat) (n : Int) : List (Nat × Turn) :=
  (t, .begin true) :: asks t ⟨r, "refSet", [.int n]⟩ 12 ++ (t, .commit) :: going t 16

def Doing.isIdle : Doing → Bool
  | .idle => true
  | _ => false

theorem Doing.eq_idle {d : Doing} (h : d.isIdle = true) : d = .idle := by
  cases d <;> first | rfl | cases h

def Doing.isReady : Doing → Bool
  | .ready => true
  | _ => false

theorem Doing.eq_ready {d : Doing} (h : d.isReady = true) : d = .ready := by
  cases d <;> first | rfl | cases h

/-- Whether the request was a plain read in a try that has no value of its own for the reference. -/
def Reply.ofRead (a : Reply) : Bool :=
  a.request.name = "deref" && a.request.args.isEmpty && (a.asked.txn a.thread).self.isSome &&
    ((a.asked.txn a.thread).values.lookup a.request.ref).isNone

variable {a : Reply}

theorem Reply.ofRead_iff : a.ofRead = true ↔
    ((a.request.name = "deref" ∧ a.request.args = []) ∧ (a.asked.txn a.thread).self ≠ none) ∧
      (a.asked.txn a.thread).values.lookup a.request.ref = none := by
  simp only [Reply.ofRead, Bool.and_eq_true, decide_eq_true_eq, List.isEmpty_iff,
    Option.isSome_iff_ne_none, Option.isNone_iff_eq_none]

/-- Whether the answer was a given integer. -/
def Reply.isInt (a : Reply) (n : Int) : Bool :=
  match a.outcome with
  | .ok (.int k) => k = n
  | _ => false

theorem Reply.isInt_iff {n : Int} : a.isInt n = true ↔ a.outcome = .ok (.int n) := by
  unfold Reply.isInt
  constructor
  · intro h
    split at h
    · next k hk => rw [hk, of_decide_eq_true h]
    · cases h
  · intro h
    simp [h]

/-- Whether the try has to begin again. -/
def Reply.isRetry (a : Reply) : Bool :=
  match a.outcome with
  | .error .retry => true
  | _ => false

theorem Reply.isRetry_iff : a.isRetry = true ↔ a.outcome = .error .retry := by
  unfold Reply.isRetry
  constructor
  · intro h
    split at h
    · next hr => exact hr
    · cases h
  · intro h
    simp [h]

theorem not_dead (h : ((w.txn t).self.any fun i => (w.status i).isLive) = true) : ¬Dead t w := by
  intro hdead
  cases hself : (w.txn t).self with
  | none =>
    rw [hself] at h
    cases h
  | some i =>
    rw [hself] at h
    exact absurd h (by simp [hdead i hself])

theorem Request.From.of_deref {q : Request} {u v : Value} (h : q.From call u v)
    (hname : q.name = "deref") : v = u := by
  rcases h with ⟨-, h⟩ | ⟨_, _, _, halter, -⟩
  · exact h
  · exact absurd (hname.symm.trans halter) (by decide)

/-! ## Outside of transactions -/

/-- Whatever threads do: all tries of a thread that is outside of transactions are over, it owns no
lock and waits for none. It still shares a lock only for what its requests have left behind: for a
reference that it touched while a live try had taken it, and for what was ensured in tries that lost
a reference to a rival. -/
theorem idle_holds_leftBehind (call : Caller) (hw : w.Quiet) (schedule : List (Nat × Turn))
    (ht : t < w.txns.size) (hidle : (Threads.after call w schedule).doing t = .idle) :
    (∀ i ∈ (Threads.after call w schedule).begun t,
      ((Threads.after call w schedule).world.status i).isLive = false) ∧
    ∀ (r : Nat) (x : Ref), (Threads.after call w schedule).world.refs[r]? = some x →
      x.lock.owner ≠ some t ∧ t ∉ x.lock.waitingThreads ∧
      x.lock.sharedDepth? t =
        if leftBehind t (Threads.after call w schedule).replies r = 0 then none
        else some (leftBehind t (Threads.after call w schedule).replies r : Int) := by
  obtain ⟨g, hsound, hthreads, -⟩ := hw.after call schedule
  have hgoes := hsound.goes t (hthreads ▸ ht)
  rw [hidle] at hgoes
  obtain ⟨⟨X, hX, hat⟩, hself⟩ := hgoes
  rw [hat.txn] at hself
  refine ⟨fun i hi => hat.settled i hi fun hc => ?_, fun r x hx => ?_⟩
  · cases hself.symm.trans hc
  have hstanding := hat.standing hx
  rw [hX.free hself, holds_nil] at hstanding
  have hout : t ∉ x.lock.waitingThreads :=
    SharedLock.ticket_none_iff_waiting.1 (congrArg SharedLock.Standing.ticket hstanding)
  refine ⟨fun howner => ?_, hout, ?_⟩
  · -- an owner has a positive depth, but this thread has no exclusive hold
    have hsound := (hsound.sane.lawful r x hx).toSound
    have hpos := hsound.owner_pos t howner
    have hdepth := congrArg SharedLock.Standing.exclusive hstanding
    rw [SharedLock.standing_of_owner hsound howner] at hdepth
    have hdepth : x.lock.depth = 0 := hdepth
    omega
  · exact SharedLock.sharedDepth?_of_standing (hsound.sane.lawful r x hx).toSound hout
      (congrArg SharedLock.Standing.shared hstanding)

/-- A thread touches a counter that it has taken, and gives up. -/
def takenTouched : List (Nat × Turn) :=
  (0, .begin true) :: asks 0 ⟨0, "refSet", [.int 2]⟩ 12 ++ asks 0 ⟨0, "touch", []⟩ 8 ++
    (0, .giveUp) :: going 0 4

theorem idle_holds_leftBehind_takenTouched :
    leftBehind 0 (Threads.after addOne counters takenTouched).replies 0 = 1 ∧
      ∃ x : Ref, (Threads.after addOne counters takenTouched).world.refs[0]? = some x ∧
        x.lock.owner ≠ some 0 ∧ x.lock.sharedDepth? 0 = some 1 := by
  have hidle : ((after addOne counters takenTouched).doing 0).isIdle = true := by
    decide +kernel
  have hleft : leftBehind 0 (after addOne counters takenTouched).replies 0 = 1 := by
    decide +kernel
  have hsize : 0 < (after addOne counters takenTouched).world.refs.size := by decide +kernel
  have hlocks := (idle_holds_leftBehind addOne counters_quiet takenTouched (t := 0) (by decide)
    (Doing.eq_idle hidle)).2 0 _ (Array.getElem?_eq_getElem hsize)
  rw [hleft] at hlocks
  exact ⟨hleft, _, Array.getElem?_eq_getElem hsize, hlocks.1, hlocks.2.2⟩

/-- A thread touches one counter and loses the other one to an older try. -/
def lostTouched : List (Nat × Turn) :=
  (1, .begin true) :: asks 1 ⟨0, "refSet", [.int 1]⟩ 12 ++ (0, .begin true) ::
    asks 0 ⟨1, "touch", []⟩ 8 ++ asks 0 ⟨0, "refSet", [.int 7]⟩ 13 ++ (0, .giveUp) :: going 0 4

example : ((after addOne counters lostTouched).doing 0).isIdle = true ∧
    leftBehind 0 (after addOne counters lostTouched).replies 1 = 1 := by
  decide +kernel

/-! ## Snapshots -/

/-- Whatever threads do: a request in a try reads the version with the greatest point below the read
point of the try, of all versions that the reference has at any time of the schedule, before and
after. It may fail instead, and the try begins again, only if no version was old enough, which adds
one to the faults of the reference, or if the try was over already, which leaves the world as it
is. -/
theorem reads_are_snapshots (call : Caller) (hw : w.Quiet) (schedule : List (Nat × Turn))
    {a : Reply} (ha : a ∈ (Threads.after call w schedule).replies) (hreads : a.request.reads)
    (hself : (a.asked.txn a.thread).self ≠ none)
    (hnone : (a.asked.txn a.thread).values.lookup a.request.ref = none)
    (href : a.request.ref < w.refs.size) :
    (∀ u, a.outcome = .ok u → ∃ v, a.request.From call v.value u ∧
      Threads.EverHad call { world := w } schedule a.request.ref v ∧
      v.point < (a.asked.txn a.thread).readPoint ∧
      ∀ v', Threads.EverHad call { world := w } schedule a.request.ref v' →
        v'.point < (a.asked.txn a.thread).readPoint → v'.point ≤ v.point) ∧
    ∀ s, a.outcome = .error s → a.request.name = "deref" → a.request.args = [] → s = .retry ∧
      (Dead a.thread a.before ∧ a.after = a.before ∨
        ∃ x y : Ref, a.before.refs[a.request.ref]? = some x ∧
          a.after.refs[a.request.ref]? = some y ∧ y.faults = x.faults + 1) := by
  obtain ⟨g, hsound, -, hrefs, hhad⟩ := hw.after call schedule
  have hreply := hsound.replies a ha
  refine ⟨fun u hu => ?_, fun s hs hname hargs => ?_⟩
  · obtain ⟨_, ⟨-, v, hv, rfl, hlt, hmax⟩, hfrom⟩ := hreply.ok u hu hself hnone hreads
    refine ⟨v, hfrom, (hhad _ v).1 hv, hlt, fun v' hv' hlt' => hmax v' ((hhad _ v').2 hv') hlt'⟩
  · rcases hreply.error s hs hname hargs hself with ⟨-, hmissing⟩ | ⟨rfl, hwhy⟩
    · -- no reference is ever lost
      rw [Array.getElem?_eq_none_iff, hreply.refs, hrefs] at hmissing
      exact absurd href (Nat.not_lt.2 hmissing)
    · refine ⟨rfl, hwhy.imp_right fun hfault => ?_⟩
      have hin : a.request.ref < a.before.refs.size := by
        rw [hreply.refs, hrefs]
        exact href
      obtain ⟨y, hy, hfaults⟩ := hfault _ (Array.getElem?_eq_getElem hin)
      exact ⟨_, y, Array.getElem?_eq_getElem hin, hy, hfaults⟩

/-- A try is begun again since a counter has become too new for it. Then another try changes the
counter once more, but the older version is kept. -/
def lateRead : List (Nat × Turn) :=
  (0, .begin true) :: sets 1 0 7 ++ asks 0 ⟨0, "deref", []⟩ 7 ++ (0, .giveUp) :: going 0 4 ++
    (0, .begin false) :: sets 1 0 9 ++ asks 0 ⟨0, "deref", []⟩ 7

theorem reads_are_snapshots_lateRead :
    (∃ v, v.value = .int 7 ∧ Threads.EverHad addOne { world := counters } lateRead 0 v ∧
      v.point < 4 ∧
      ∀ v', Threads.EverHad addOne { world := counters } lateRead 0 v' → v'.point < 4 →
        v'.point ≤ v.point) ∧
    ∃ a ∈ (Threads.after addOne counters lateRead).replies, a.outcome = .error .retry ∧
      ∃ x y : Ref, a.before.refs[0]? = some x ∧ a.after.refs[0]? = some y ∧
        y.faults = x.faults + 1 := by
  constructor
  · have hread : (after addOne counters lateRead).replies.any (fun a =>
        a.ofRead && a.isInt 7 && a.request.ref == 0 && (a.asked.txn a.thread).readPoint == 4) =
          true := by
      decide +kernel
    obtain ⟨a, ha, hread⟩ := any_eq_true.1 hread
    simp only [Bool.and_eq_true, beq_iff_eq, Reply.ofRead_iff, Reply.isInt_iff] at hread
    obtain ⟨⟨⟨⟨⟨⟨hname, hargs⟩, hself⟩, hnone⟩, hok⟩, href⟩, hpoint⟩ := hread
    obtain ⟨v, hfrom, hv⟩ := (reads_are_snapshots addOne counters_quiet lateRead ha
      (.inl hname) hself hnone (by rw [href]; decide)).1 _ hok
    rw [href, hpoint] at hv
    exact ⟨v, (hfrom.of_deref hname).symm, hv⟩
  · have hread : (after addOne counters lateRead).replies.any (fun a =>
        a.ofRead && a.isRetry && a.request.ref == 0 &&
          (a.before.txn a.thread).self.any fun i => (a.before.status i).isLive) = true := by
      decide +kernel
    obtain ⟨a, ha, hread⟩ := any_eq_true.1 hread
    simp only [Bool.and_eq_true, beq_iff_eq, Reply.ofRead_iff, Reply.isRetry_iff] at hread
    obtain ⟨⟨⟨⟨⟨⟨hname, hargs⟩, hself⟩, hnone⟩, hretry⟩, href⟩, hlive⟩ := hread
    have hwhy := ((reads_are_snapshots addOne counters_quiet lateRead ha (.inl hname) hself hnone
      (by rw [href]; decide)).2 _ hretry hname hargs).2
    rw [href] at hwhy
    exact ⟨a, ha, hretry, hwhy.resolve_left fun hdead => not_dead hlive hdead.1⟩

/-- An older try takes a counter from a younger one, which goes on to read. -/
def stoppedRead : List (Nat × Turn) :=
  (0, .begin true) :: (1, .begin true) :: asks 1 ⟨0, "refSet", [.int 1]⟩ 12 ++
    asks 0 ⟨0, "refSet", [.int 7]⟩ 13 ++ asks 1 ⟨1, "deref", []⟩ 3

/-- A try that was stopped reads nothing, and no fault is counted. -/
theorem stoppedRead_no_fault :
    ∃ a ∈ (Threads.after addOne counters stoppedRead).replies,
      (a.request.name = "deref" ∧ a.request.args = []) ∧ (a.asked.txn a.thread).self ≠ none ∧
      (a.asked.txn a.thread).values.lookup a.request.ref = none ∧ a.outcome = .error .retry ∧
      a.after.refs[a.request.ref]?.map (·.faults) = some 0 := by
  have hread : (after addOne counters stoppedRead).replies.any (fun a =>
      a.ofRead && a.isRetry && a.after.refs[a.request.ref]?.map (·.faults) == some 0) = true := by
    decide +kernel
  obtain ⟨a, ha, hread⟩ := any_eq_true.1 hread
  simp only [Bool.and_eq_true, beq_iff_eq, Reply.ofRead_iff, Reply.isRetry_iff] at hread
  obtain ⟨⟨⟨⟨hread, hself⟩, hnone⟩, hretry⟩, hfaults⟩ := hread
  exact ⟨a, ha, hread, hself, hnone, hretry, hfaults⟩

/-! ## What is ensured -/

namespace Threads

variable {m : Threads} {i : Nat}

/-- While its try goes on, a thread has ensured a reference, and it is not about to write to it. -/
def Secures (m : Threads) (t i r : Nat) : Prop :=
  i ∈ m.begun t ∧ ((m.world.txn t).self = some i → (∃ p, m.doing t = .finishing p) ∨
    (m.doing t).Leaves r ∧ r ∈ (m.world.txn t).ensures ∧ r ∉ (m.world.txn t).commutes.map (·.1))

theorem go_leaves {c : Chance} (h : (m.doing t).Leaves r) : ((m.go t c).doing t).Leaves r := by
  unfold go
  split
  case h_1 | h_2 => exact h
  case h_3 q inTry asked p hd =>
    rw [hd] at h
    split
    · rwa [hd]
    · rwa [set_doing_self]
    · rw [reply_doing_self]
      cases inTry <;> trivial
  case h_4 p hd | h_5 p hd =>
    split
    · exact h
    · rw [set_doing_self]
      trivial
    · rw [set_doing_self]
      trivial

variable {turn : Turn}

/-- What a thread does next leaves a reference, unless it asks to write to it. -/
theorem step_leaves (h : (m.doing t).Leaves r) (hask : ∀ q, turn = .ask q → q.writes → r ≠ q.ref) :
    ((m.step call t turn).doing t).Leaves r := by
  have hpose : ∀ q inTry, turn = .ask q → ((m.pose call t q inTry).doing t).Leaves r := by
    intro q inTry hturn
    unfold pose
    split
    · exact h
    · rw [set_doing_self]
      exact hask q hturn
  unfold step
  split
  · exact h
  split
  case h_1 first hd =>
    show ((m.set t (m.world.begun t first) .ready).doing t).Leaves r
    rw [set_doing_self]
    trivial
  case h_2 q hd => exact hpose q false rfl
  case h_3 q hd => exact hpose q true rfl
  case h_4 | h_5 =>
    rw [set_doing_self]
    trivial
  case h_6 => exact go_leaves h
  case h_7 => exact h

/-- A try that is about to end goes on to end. -/
theorem step_finishing {p : Course Unit} (hd : m.doing t = .finishing p) :
    (∃ p, (m.step call t turn).doing t = .finishing p) ∨ (m.step call t turn).doing t = .idle := by
  unfold step
  split
  · exact .inl ⟨p, hd⟩
  simp only [hd]
  cases turn with
  | go c =>
    simp only [go, hd]
    split
    · exact .inl ⟨p, hd⟩
    · exact .inl ⟨_, set_doing_self ..⟩
    · exact .inr (set_doing_self ..)
  | begin | ask | commit | giveUp => exact .inl ⟨p, hd⟩

/-- A thread goes on to ensure a reference, whatever is done next, unless it asks to write to it. -/
theorem Secures.step (hsec : m.Secures t i r) (hm : m.Sound call g)
    (hask : u = t → ∀ q, turn = .ask q → q.writes → r ≠ q.ref) :
    (m.step call u turn).Secures t i r := by
  obtain ⟨hi, hsec⟩ := hsec
  obtain ⟨g', hpassed⟩ := hm.step u turn
  refine ⟨hpassed.begun t i hi, fun hself => ?_⟩
  by_cases hu : u = t
  · subst hu
    have hlt := hm.known u i hi
    obtain ⟨q, hq⟩ := (m.doing u).exists_leaves
    rcases hsec (hpassed.keeps q i hq hself hlt).1 with ⟨p, hd⟩ | ⟨hleaves, hin, hout⟩
    · rcases step_finishing hd with hfinishing | hidle
      · exact .inl hfinishing
      · -- outside of transactions it would have no try
        have hgoes := hpassed.sound.goes u (lt_of_self hself)
        rw [hidle] at hgoes
        cases hgoes.2.symm.trans hself
    · rcases (hpassed.keeps r i hleaves hself hlt).2 with hnone | ⟨-, hkept⟩
      · cases hnone.symm.trans hself
      · exact .inr ⟨step_leaves hleaves (hask rfl), hkept hin hout⟩
  · -- others do not touch its transaction
    have ht : t ≠ u := Ne.symm hu
    rw [hpassed.spares.txn t ht] at hself ⊢
    rw [hpassed.doing t ht]
    exact hsec hself

section

variable (hm : m.Sound call g) (ht : t < m.world.txns.size) (hgoing : ∀ p, m.doing t ≠ .finishing p)

include hm ht hgoing

/-- A thread that keeps the holds of what it has ensured holds it. -/
theorem Sound.backed : Backed t ⟨m.begun t, True⟩ m.world := by
  have hgoes := hm.goes t ht
  cases hd : m.doing t with
  | idle =>
    rw [hd] at hgoes
    obtain ⟨⟨X, -, hat⟩, -⟩ := hgoes
    exact Stance.lasting.backed _ g hat
  | ready =>
    rw [hd] at hgoes
    obtain ⟨X, -, hat⟩ := hgoes
    exact Stance.lasting.backed _ g hat
  | asking q inTry asked p =>
    rw [hd] at hgoes
    exact hgoes.1.backed hm.sane
  | committing p =>
    rw [hd] at hgoes
    exact Safe.backed hgoes hm.sane
  | finishing p => exact absurd hd (hgoing p)

/-- Who holds a lock together with others keeps it from being owned, unless it is in line itself. -/
theorem Sound.not_owned {x : Ref} (hin : r ∈ (m.world.txn t).ensures)
    (hx : m.world.refs[r]? = some x) (hout : t ∉ x.lock.waitingThreads) (hu : u ≠ t) :
    ¬HoldsLock u r m.world := by
  rintro ⟨y, hy, howner⟩
  cases hx.symm.trans hy
  have hback := hm.backed ht hgoing trivial r x hx
  have hpos := count_pos_iff.2 hin
  refine (hm.sane.lawful r x hx).in_line_of_owner howner (Ne.symm hu) ?_
    (SharedLock.ticket_none_iff_waiting.2 hout)
  omega

end

end Threads

theorem head?_eq_of_prefix {α : Type} {xs ys log : List α} (hx : xs.IsPrefix log)
    (hy : ys.IsPrefix log) (hxs : xs ≠ []) (hys : ys ≠ []) : ys.head? = xs.head? := by
  rw [head?_eq_some_head hxs, head?_eq_some_head hys, hx.head hxs, hy.head hys]

/-- A step of a thread has answered a request to touch a reference, in a try. -/
structure Threads.HasTouched (m m' : Threads) (t i r : Nat) : Prop where
  replied : ∃ a v, m'.replies = a :: m.replies ∧ a.thread = t ∧ a.request.name = "touch" ∧
    a.request.ref = r ∧ a.outcome = .ok v
  inTry : (m'.world.txn t).self = some i
  /-- No function is kept for the reference. -/
  uncommuted : r ∉ (m'.world.txn t).commutes.map (·.1)

theorem Threads.HasTouched.secures {m : Threads} {turn : Turn} {i : Nat} (hm : m.Sound call g)
    (h : m.HasTouched (m.step call t turn) t i r) : (m.step call t turn).Secures t i r := by
  obtain ⟨⟨a, v, hreplies, rfl, hname, rfl, hok⟩, hself, hout⟩ := h
  obtain ⟨g', hpassed⟩ := hm.step a.thread turn
  have hreply := hpassed.sound.replies a (by rw [hreplies]; exact mem_cons_self)
  rcases hpassed.replied with hnone | ⟨b, hb, -, hafter, hleaves⟩
  · have hlength := congrArg List.length (hreplies.symm.trans hnone)
    simp at hlength
  · cases (hreplies.symm.trans hb)
    refine ⟨hpassed.sound.selves _ i hself, fun _ => .inr ⟨hleaves _, ?_, hout⟩⟩
    rw [← hafter]
    exact hreply.touched v hok hname

theorem Threads.after_concat (call : Caller) (w : World) (schedule : List (Nat × Turn))
    (e : Nat × Turn) : after call w (schedule ++ [e]) = (after call w schedule).step call e.1 e.2 :=
  run_concat ..

theorem Threads.Secures.later {schedule : List (Nat × Turn)} {i : Nat} (hw : w.Quiet)
    (h : (after call w schedule).Secures t i r) (later : List (Nat × Turn))
    (hasks : ∀ q, (t, .ask q) ∈ later → q.writes → q.ref ≠ r) :
    (after call w (schedule ++ later)).Secures t i r := by
  induction later using List.reverseRecOn with
  | nil =>
    rw [append_nil]
    exact h
  | append_singleton later e ih =>
    have hlater := ih fun q hq => hasks q (mem_append_left _ hq)
    obtain ⟨g, hm, -⟩ := hw.after call (schedule ++ later)
    rw [← append_assoc, after_concat]
    refine hlater.step hm fun hu q hq hwrites => Ne.symm (hasks q ?_ hwrites)
    refine mem_append_right _ (mem_singleton.2 ?_)
    rw [← hu, ← hq]

/-- Whatever threads do after a thread has touched a reference in a try: unless the try has ended or
the thread has asked to write to the reference, the newest version of the reference is not changed
by any other thread, but in one case: the thread is itself in line for the lock of the reference. -/
theorem ensured_stays_put (call : Caller) (hw : w.Quiet) (before later : List (Nat × Turn))
    {turn : Turn} {i : Nat} (htouched : (Threads.after call w before).HasTouched
      (Threads.after call w (before ++ [(t, turn)])) t i r)
    (hasks : ∀ q, (t, .ask q) ∈ later → q.writes → q.ref ≠ r)
    (htry : ((Threads.after call w (before ++ [(t, turn)] ++ later)).world.txn t).self = some i)
    (hgoing : ∀ p, (Threads.after call w (before ++ [(t, turn)] ++ later)).doing t ≠ .finishing p)
    {x : Ref} (hx : (Threads.after call w (before ++ [(t, turn)] ++ later)).world.refs[r]? = some x)
    (hline : t ∉ x.lock.waitingThreads) {u : Nat} (hu : u ≠ t) (next : Turn) :
    ∃ y : Ref, (Threads.after call w
        (before ++ [(t, turn)] ++ later ++ [(u, next)])).world.refs[r]? = some y ∧
      y.history.head? = x.history.head? := by
  obtain ⟨g₀, hm₀, -⟩ := hw.after call before
  rw [after_concat] at htouched
  have hsecures := htouched.secures hm₀
  rw [← after_concat call w before (t, turn)] at hsecures
  obtain ⟨-, hsecures⟩ := hsecures.later hw later hasks
  obtain ⟨g, hm, -⟩ := hw.after call (before ++ [(t, turn)] ++ later)
  rcases hsecures htry with ⟨p, hp⟩ | ⟨-, hin, -⟩
  · exact absurd hp (hgoing p)
  have ht := lt_of_self htry
  obtain ⟨g', hpassed⟩ := hm.step u next
  rw [after_concat]
  obtain ⟨y, hy, -⟩ := hpassed.spares.locks r x hx
  refine ⟨y, hy, ?_⟩
  -- nobody else adds to the past of the reference, and its newest version is the newest of the past
  have hpast := (hpassed.spares.past r).resolve_right (hm.not_owned ht hgoing hin hx hline hu)
  refine head?_eq_of_prefix (hm.sane.kept r x hx) ?_ (hm.sane.bound r x hx)
    (hpassed.sound.sane.bound r y hy)
  rw [← hpast]
  exact hpassed.sound.sane.kept r y hy

/-- A thread is about to be told that it has touched a counter. -/
def touching : List (Nat × Turn) := (0, .begin true) :: asks 0 ⟨0, "touch", []⟩ 7

/-- Another thread wants to add to the counter, and waits for its lock in the commit. -/
def rivalCommit : List (Nat × Turn) :=
  (1, .begin true) :: asks 1 ⟨0, "commute", [.nil, .nil]⟩ 12 ++ (1, .commit) :: going 1 12

theorem touching_hasTouched : (after addOne counters touching).HasTouched
    (after addOne counters (touching ++ [(0, .goOn)])) 0 0 0 := by
  have hbefore : (after addOne counters touching).replies.isEmpty = true := by decide +kernel
  have hone : (after addOne counters (touching ++ [(0, .goOn)])).replies.length = 1 := by
    decide +kernel
  have hreply : (after addOne counters (touching ++ [(0, .goOn)])).replies.all (fun a =>
      a.thread == 0 && a.request.name == "touch" && a.request.ref == 0 && a.outcome.isOk) =
        true := by
    decide +kernel
  obtain ⟨a, ha⟩ := length_eq_one_iff.1 hone
  rw [ha, all_cons, all_nil, Bool.and_true] at hreply
  simp only [Bool.and_eq_true, beq_iff_eq] at hreply
  obtain ⟨⟨⟨hthread, hname⟩, href⟩, hok⟩ := hreply
  refine ⟨⟨a, ?_⟩, by decide +kernel, by decide +kernel⟩
  rw [ha, isEmpty_iff.1 hbefore]
  cases hout : a.outcome with
  | ok v => exact ⟨v, rfl, hthread, hname, href, rfl⟩
  | error s =>
    rw [hout] at hok
    cases hok

/-- The other thread gets no further while the first one has the lock and is not in line. When the
first one only reads the counter, it gets in line, and the other one commits. -/
theorem ensured_stays_put_rivalCommit :
    (∃ x y : Ref,
      (Threads.after addOne counters (touching ++ [(0, .goOn)] ++ rivalCommit)).world.refs[0]? =
        some x ∧
      (Threads.after addOne counters
        (touching ++ [(0, .goOn)] ++ rivalCommit ++ [(1, .goOn)])).world.refs[0]? = some y ∧
      y.history.head? = x.history.head?) ∧
    ((Threads.after addOne counters (touching ++ [(0, .goOn)] ++ rivalCommit ++
        asks 0 ⟨0, "deref", []⟩ 5 ++ going 1 20)).world.txn 0).self = some 0 ∧
      (Threads.after addOne counters (touching ++ [(0, .goOn)] ++ rivalCommit ++
        asks 0 ⟨0, "deref", []⟩ 5 ++ going 1 20)).world.refs[0]?.map (·.history.map (·.point)) =
          some [3] := by
  have hready : ((after addOne counters
      (touching ++ [(0, .goOn)] ++ rivalCommit)).doing 0).isReady = true := by decide +kernel
  have hline : (after addOne counters
      (touching ++ [(0, .goOn)] ++ rivalCommit)).world.refs[0]?.any
        (fun x => decide (0 ∉ x.lock.waitingThreads)) = true := by decide +kernel
  have hrival : rivalCommit.all (fun e => e.1 == 1) = true := by decide
  refine ⟨?_, by decide +kernel, by decide +kernel⟩
  obtain ⟨hsome, hline⟩ := (Option.any_eq_true_iff_get ..).1 hline
  generalize hget : Option.get _ hsome = x at hline
  have hx := (Option.some_get hsome).symm.trans (congrArg some hget)
  have hline := of_decide_eq_true hline
  obtain ⟨y, hy, hhead⟩ := ensured_stays_put addOne counters_quiet touching rivalCommit
    touching_hasTouched (fun q hq => absurd (all_eq_true.1 hrival _ hq) (by simp))
      (by decide +kernel)
    (fun p hp => by rw [Doing.eq_ready hready] at hp; cases hp) hx hline
    (u := 1) (by decide) .goOn
  exact ⟨_, y, hx, hy, hhead⟩

end Stm

end HostedLisp
