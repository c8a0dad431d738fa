import HostedLisp.Proofs.Lock.Operations
import Mathlib.Logic.Function.Basic

/-!
# Threads that use one lock

Any number of threads make calls on a lock, and their steps come in any order. A call that has to
wait looks from time to time whether it has got the lock, and its time may be over. Whoever is let
in where an owner and users both could is up to a coin at each step.

- `SharedLock.Usage`, `SharedLock.Event`, `SharedLock.Usage.step`: threads that take steps in turn.
- `SharedLock.Usage.due`: where a thread has to stand after the calls that have succeeded.
- `SharedLock.Usage.Fits`: the invariant, with its step (`Fits.step`) and its run (`Fits.run`).
- `SharedLock.usage_invariant`: the main statement.
-/

namespace HostedLisp.SharedLock

open List Function

variable {α : Type} [DecidableEq α] {l l' : SharedLock α} {t : α}

/-! ## The depth of a lock without an owner -/

/-- Without an owner there is no depth. -/
def DepthOwned (l : SharedLock α) : Prop := l.owner = none → l.depth = 0

omit [DecidableEq α] in
theorem depthOwned_of_owner {l : SharedLock α} {o : α} (h : l.owner = some o) : DepthOwned l :=
  fun hc => by cases h.symm.trans hc

theorem letInUsers_depthOwned (h : DepthOwned l) : DepthOwned l.letInUsers := by
  have hfold (ws : List (Waiting α)) (l : SharedLock α) (h : DepthOwned l) :
      DepthOwned (ws.foldl (fun l w => l.setShared w.thread w.shared) l) := by
    induction ws generalizing l with
    | nil => exact h
    | cons w ws ih => exact ih _ h
  exact hfold _ _ h

theorem letIn_depthOwned (h : DepthOwned l) (coin : Bool) : DepthOwned (l.letIn coin) := by
  unfold letIn
  split
  · exact h
  · split
    · exact letInUsers_depthOwned h
    · next w rest _ =>
      split
      · exact h
      · split
        · refine depthOwned_of_owner (o := w.thread) ?_
          unfold letInOwner
          split <;> rfl
        · exact letInUsers_depthOwned h

/-- The lock after asking for it. -/
def Attempt.lock : Attempt α → SharedLock α
  | .held l | .waits l _ => l

theorem acquire_depthOwned (h : DepthOwned l) (coin : Bool) :
    DepthOwned (l.acquire coin t).lock := by
  unfold acquire
  split
  · next howner => exact depthOwned_of_owner howner
  · split <;> split
    · exact depthOwned_of_owner rfl
    · exact letIn_depthOwned (by exact h) coin
    · exact depthOwned_of_owner rfl
    · exact h

theorem acquireShared_depthOwned (h : DepthOwned l) : DepthOwned (l.acquireShared t).lock := by
  unfold acquireShared
  split
  · exact h
  · split
    · exact h
    · split <;> exact h

/-- Who has to wait to share a lock has no hold on it. -/
theorem acquireShared_waits {k : Nat} (h : l.acquireShared t = .waits l' k) :
    l.sharedDepth? t = none ∧ l.owner ≠ some t := by
  unfold acquireShared at h
  split at h
  · cases h
  · next hnone =>
    split at h
    · cases h
    · next howner => exact ⟨hnone, howner⟩

theorem release?_depthOwned (h : Sound l) (coin : Bool)
    (hl' : l.release? coin t = some l') : DepthOwned l' := by
  unfold release? at hl'
  split at hl'
  · next howner =>
    dsimp only at hl'
    split at hl' <;> cases hl'
    · exact depthOwned_of_owner howner
    · have hpos := h.owner_pos t howner
      refine letIn_depthOwned (fun _ => ?_) coin
      dsimp only at *
      omega
  · cases hl'

theorem releaseShared?_depthOwned (h : DepthOwned l) (coin : Bool)
    (hl' : l.releaseShared? coin t = some l') : DepthOwned l' := by
  unfold releaseShared? at hl'
  split at hl'
  · cases hl'
  · split at hl' <;> cases hl'
    · exact h
    · exact letIn_depthOwned (by exact h) coin

theorem giveUp_depthOwned (h : DepthOwned l) (coin : Bool) (k : Nat) :
    DepthOwned (l.giveUp coin k).1 := by
  unfold giveUp
  split
  · exact letIn_depthOwned (by exact h) coin
  · split
    · exact h
    · dsimp only
      split
      · split <;> exact letIn_depthOwned (by exact h) coin
      · exact letIn_depthOwned (by exact h) coin

/-- A call that waits to share a lock leaves nothing behind. -/
theorem giveUp_user_spec {k : Nat} (h : Lawful l) (hticket : (l.standing t).ticket = some k)
    (hexclusive : (l.standing t).exclusive = 0) (coin : Bool) :
    Moves t l (l.giveUp coin k).1 ∧ (l.giveUp coin k).1.standing t = ⟨0, 0, none⟩ ∧
      (l.giveUp coin k).2 = false := by
  have hmem := ((mem_line hticket).resolve_left fun hc => hc.1 hexclusive).2
  have hline := mem_append_left l.waitingOwners hmem
  have hany : (l.waitingUsers.any fun w => w.ticket = k) = true :=
    any_eq_true.2 ⟨_, hmem, decide_eq_true rfl⟩
  have hsame : l.waitingOwners.filter (fun w => w.ticket ≠ k) = l.waitingOwners := by
    refine filter_eq_self.2 fun v hv => decide_eq_true fun hc => ?_
    have heq := h.eq_of_ticket (mem_append_right _ hv) hline hc
    exact h.apart (mem_map_of_mem hmem) (heq ▸ mem_map_of_mem hv)
  obtain ⟨hsound, hout, hothers⟩ := leave_spec h.toSound hline
  have hleave : ({ l with waitingUsers := l.waitingUsers.filter fun w => w.ticket ≠ k } :
      SharedLock α) = l.leave k := by rw [leave, hsame]
  have hself : (l.leave k).standing t = ⟨0, 0, none⟩ := by
    have hdepth : (l.leave k).sharedDepth? t = none := lookup_none_iff.2 (h.line_users _ hline)
    have howner : (l.leave k).owner ≠ some t := h.line_owner _ hline
    rw [standing_out hout, if_neg howner, hdepth]
    rfl
  rw [giveUp, if_pos hany, hleave]
  refine ⟨Moves.letIn hsound hothers coin, ?_, rfl⟩
  rw [letIn_standing hsound coin (by rw [hself]), hself]

/-! ## Threads that take steps in turn -/

/-- What a thread can ask of a lock. -/
inductive Ask where
  | acquire
  | acquireShared
  | release
  | releaseShared
  deriving DecidableEq

/-- The call of a thread. -/
inductive Call where
  | returned
  /-- In line with a ticket. A call that has lost waits for the shared holds that its thread had. -/
  | waiting (ticket : Nat) (ask : Ask) (lost : Bool)

/-- A step of a thread. -/
inductive Event where
  | call (ask : Ask)
  /-- A call that waits looks whether it has got the lock. -/
  | look (timeIsUp : Bool)

/-- Threads that use one lock. -/
structure Usage (α : Type) where
  lock : SharedLock α := {}
  call : α → Call := fun _ => .returned
  /-- How many calls of each kind have succeeded. -/
  done : α → Ask → Nat := fun _ _ => 0

namespace Usage

variable (s : Usage α)

/-- A step of a thread leaves the lock and its call like this. -/
def move (t : α) (l : SharedLock α) (c : Call) : Usage α :=
  { s with lock := l, call := update s.call t c }

/-- A call returns with success. -/
def succeed (t : α) (l : SharedLock α) (a : Ask) : Usage α :=
  { s.move t l .returned with
    done := update s.done t (update (s.done t) a (s.done t a + 1)) }

/-- A thread has asked for a hold. -/
def attempt (t : α) (a : Ask) : Attempt α → Usage α
  | .held l => s.succeed t l a
  | .waits l k => s.move t l (.waiting k a false)

/-- A thread has given back a hold; without one the call fails. -/
def giveBack (t : α) (a : Ask) : Option (SharedLock α) → Usage α
  | some l => s.succeed t l a
  | none => s

/-- A step of a thread. A thread whose call waits makes no other call. -/
def step (coin : Bool) (s : Usage α) (t : α) (e : Event) : Usage α :=
  match s.call t, e with
  | .returned, .call .acquire => s.attempt t .acquire (s.lock.acquire coin t)
  | .returned, .call .acquireShared => s.attempt t .acquireShared (s.lock.acquireShared t)
  | .returned, .call .release => s.giveBack t .release (s.lock.release? coin t)
  | .returned, .call .releaseShared => s.giveBack t .releaseShared (s.lock.releaseShared? coin t)
  | .waiting k a lost, .look timeIsUp =>
    if t ∉ s.lock.waitingThreads then
      if lost then s.move t s.lock .returned else s.succeed t s.lock a
    else if timeIsUp && !lost then
      let (l, again) := s.lock.giveUp coin k
      s.move t l (if again then .waiting k a true else .returned)
    else s
  | _, _ => s

/-- Steps in the given order, each with its thread and its coin. -/
def run (schedule : List (α × Bool × Event)) : Usage α :=
  schedule.foldl (fun s x => s.step x.2.1 x.1 x.2.2) s

/-! ## Where a thread has to stand -/

/-- What a call that succeeds does to the holds of its thread. -/
def gain (h : Standing) : Ask → Standing
  | .acquire => { h with exclusive := h.exclusive + 1 }
  | .acquireShared => { h with shared := h.shared + 1 }
  | .release => { h with exclusive := h.exclusive - 1 }
  | .releaseShared => { h with shared := h.shared - 1 }

/-- The holds that a thread has after the calls that have succeeded. -/
def holds (t : α) : Standing :=
  ⟨s.done t .acquire - s.done t .release, s.done t .acquireShared - s.done t .releaseShared, none⟩

/-- Where a thread with the given holds has to stand during its call. -/
def due (h : Standing) : Call → Standing
  | .returned => h
  | .waiting k a false => { gain h a with ticket := some k }
  | .waiting k _ true => { h with ticket := some k }

/-- Who waits has asked for a hold that it could not have at once. -/
def Asked (h : Standing) : Call → Prop
  | .returned => True
  | .waiting _ a lost => a = .acquire ∧ 0 ≤ h.exclusive ∨
    a = .acquireShared ∧ h.shared = 0 ∧ h.exclusive = 0 ∧ lost = false

/-- The invariant: everybody stands where it has to, and there is no depth without an owner. -/
structure Fits : Prop where
  lawful : Lawful s.lock
  depth : DepthOwned s.lock
  stands : ∀ t, (due (s.holds t) (s.call t)).Kept (s.lock.standing t)
  asked : ∀ t, Asked (s.holds t) (s.call t)

variable {s} {u : α} {a : Ask}

theorem holds_succeed (a : Ask) : (s.succeed t l a).holds t = gain (s.holds t) a := by
  cases a <;> simp [holds, succeed, gain] <;> omega

section

variable (h : Fits s)

include h

/-- A step of a thread keeps the invariant if it does so for the thread itself. -/
theorem Fits.advance {s' : Usage α} (hmoves : Moves t s.lock s'.lock)
    (hdepth : DepthOwned s'.lock) (hcall : ∀ u, u ≠ t → s'.call u = s.call u)
    (hdone : ∀ u, u ≠ t → s'.done u = s.done u)
    (hself : (due (s'.holds t) (s'.call t)).Kept (s'.lock.standing t))
    (hasked : Asked (s'.holds t) (s'.call t)) : Fits s' := by
  have hholds (u : α) (hu : u ≠ t) : s'.holds u = s.holds u := by simp only [holds, hdone u hu]
  refine ⟨hmoves.lawful, hdepth, fun u => ?_, fun u => ?_⟩ <;> by_cases hu : u = t
  · exact hu ▸ hself
  · rw [hcall u hu, hholds u hu]
    exact (h.stands u).trans (hmoves.others u hu)
  · exact hu ▸ hasked
  · rw [hcall u hu, hholds u hu]
    exact h.asked u

theorem Fits.move {c : Call} (hmoves : Moves t s.lock l) (hdepth : DepthOwned l)
    (hself : (due (s.holds t) c).Kept (l.standing t)) (hasked : Asked (s.holds t) c) :
    Fits (s.move t l c) := by
  have hcall : (s.move t l c).call t = c := update_self ..
  exact h.advance hmoves hdepth (fun _ hu => update_of_ne hu ..) (fun _ _ => rfl)
    (hcall.symm ▸ hself) (hcall.symm ▸ hasked)

theorem Fits.succeed (hmoves : Moves t s.lock l) (hdepth : DepthOwned l)
    (hself : l.standing t = gain (s.holds t) a) : Fits (s.succeed t l a) := by
  have hcall : (s.succeed t l a).call t = .returned := update_self ..
  refine h.advance hmoves hdepth (fun _ hu => update_of_ne hu ..)
    (fun _ hu => update_of_ne hu ..) ?_ (by rw [hcall]; trivial)
  rw [hcall, holds_succeed, ← hself]
  exact .refl _

/-- A thread whose call has returned has the holds of its calls. -/
theorem Fits.standing_eq (hcall : s.call t = .returned) : s.lock.standing t = s.holds t := by
  have hstands := h.stands t
  rw [hcall] at hstands
  exact hstands.eq_of_out rfl

theorem Fits.exclusive_nonneg (hcall : s.call t = .returned) : 0 ≤ (s.holds t).exclusive := by
  rw [← h.standing_eq hcall, standing_out]
  · split
    · next howner => exact Int.le_of_lt (h.lawful.owner_pos t howner)
    · exact Int.le_refl 0
  · exact ticket_none_iff.1 (by rw [h.standing_eq hcall]; rfl)

theorem Fits.attempt {x : Attempt α} (hgrants : x.Grants t s.lock (gain (s.holds t) a))
    (hdepth : DepthOwned x.lock)
    (hasked : ∀ l k, x = .waits l k → Asked (s.holds t) (.waiting k a false)) :
    Fits (s.attempt t a x) := by
  cases x with
  | held l =>
    refine h.succeed hgrants.1 hdepth (hgrants.2.trans ?_)
    cases a <;> rfl
  | waits l k => exact h.move hgrants.1 hdepth hgrants.2 (hasked l k rfl)

/-- A call that waits looks again. -/
theorem Fits.look {k : Nat} {lost : Bool} (hcall : s.call t = .waiting k a lost)
    (coin timeIsUp : Bool) : Fits (s.step coin t (.look timeIsUp)) := by
  have hstands := h.stands t
  have hasked := h.asked t
  rw [hcall] at hstands hasked
  simp only [step, hcall]
  split
  · next hout =>
    -- it is not in line any more, so it has got what it waited for
    obtain ⟨he, hs, -⟩ := hstands
    have hticket := ticket_none_iff_waiting.2 hout
    cases lost with
    | true => exact h.move (.refl h.lawful t) h.depth ⟨he, hs, .inl hticket⟩ trivial
    | false =>
      refine h.succeed (.refl h.lawful t) h.depth ?_
      cases a <;> cases hl : s.lock.standing t <;> simp_all [gain, holds, due]
  · next hin =>
    split
    · next htime =>
      obtain ⟨-, rfl⟩ : timeIsUp = true ∧ lost = false := by simpa using htime
      obtain ⟨he, hs, hticket⟩ := hstands
      have hticket := hticket.resolve_right (mt ticket_none_iff_waiting.1 hin)
      rcases hasked with ⟨rfl, hpos⟩ | ⟨rfl, hshared, hexclusive, -⟩
      · -- the shared holds stay, or the call goes on waiting for them
        obtain ⟨hmoves, hself⟩ := giveUp_spec h.lawful hticket
          (by rw [he]; exact Int.ne_of_gt (Int.lt_add_one_of_le hpos)) coin
        refine h.move hmoves (giveUp_depthOwned h.depth coin k) ?_ ?_
        · rw [hself, he, hs]
          split <;> simp [holds, gain, due, Standing.Kept]
        · split
          · exact .inl ⟨rfl, hpos⟩
          · trivial
      · obtain ⟨hmoves, hself, hagain⟩ := giveUp_user_spec h.lawful hticket
          (he.trans hexclusive) coin
        simp only [hagain]
        refine h.move hmoves (giveUp_depthOwned h.depth coin k) ?_ trivial
        rw [hself]
        exact ⟨hexclusive.symm, hshared.symm, .inl rfl⟩
    · exact h

/-- A call begins. -/
theorem Fits.call (hcall : s.call t = .returned) (coin : Bool) (a : Ask) :
    Fits (s.step coin t (.call a)) := by
  have hself := h.standing_eq hcall
  have hout : (s.lock.standing t).ticket = none := by rw [hself]; rfl
  have hline := standing_out (ticket_none_iff.1 hout)
  cases a <;> simp only [step, hcall]
  case acquire =>
    refine h.attempt ?_ (acquire_depthOwned h.depth coin) fun _ _ _ =>
      .inl ⟨rfl, h.exclusive_nonneg hcall⟩
    exact hself ▸ acquire_spec h.lawful hout coin
  case acquireShared =>
    refine h.attempt (hself ▸ acquireShared_spec h.lawful hout) (acquireShared_depthOwned h.depth)
      fun l k hwaits => ?_
    obtain ⟨hnone, howner⟩ := acquireShared_waits hwaits
    rw [← hself, hline, hnone, if_neg howner]
    exact .inr ⟨rfl, rfl, rfl, rfl⟩
  case release =>
    cases hl : s.lock.release? coin t with
    | none => exact h
    | some l =>
      have howner : s.lock.owner = some t := by
        by_contra hc
        rw [release?, if_neg hc] at hl
        cases hl
      obtain ⟨l', hl', hmoves, hself'⟩ := release?_spec h.lawful hout
        (by rw [hline, if_pos howner]; exact h.lawful.owner_pos t howner) coin
      cases hl.symm.trans hl'
      exact h.succeed hmoves (release?_depthOwned h.lawful.toSound coin hl)
        (by rw [hself', hself]; rfl)
  case releaseShared =>
    cases hl : s.lock.releaseShared? coin t with
    | none => exact h
    | some l =>
      obtain ⟨n, hn⟩ : ∃ n, s.lock.sharedDepth? t = some n := by
        cases hn : s.lock.sharedDepth? t with
        | none =>
          rw [releaseShared?, hn] at hl
          cases hl
        | some n => exact ⟨n, rfl⟩
      obtain ⟨l', hl', hmoves, hself'⟩ := releaseShared?_spec h.lawful hout
        (by rw [hline, hn]; exact h.lawful.users_pos _ (mem_of_lookup hn)) coin
      cases hl.symm.trans hl'
      exact h.succeed hmoves (releaseShared?_depthOwned h.depth coin hl)
        (by rw [hself', hself]; rfl)

theorem Fits.step (coin : Bool) (t : α) (e : Event) : Fits (s.step coin t e) := by
  cases hcall : s.call t <;> cases e
  case returned.call a => exact h.call hcall coin a
  case waiting.look timeIsUp => exact h.look hcall coin timeIsUp
  all_goals
    simp only [Usage.step, hcall]
    exact h

theorem Fits.run (schedule : List (α × Bool × Event)) : Fits (s.run schedule) := by
  induction schedule generalizing s with
  | nil => exact h
  | cons x schedule ih => exact ih (h.step ..)

end

theorem fits_start : Fits ({} : Usage α) where
  lawful := Free.lawful ⟨rfl, rfl, rfl, rfl⟩
  depth _ := rfl
  stands _ := .refl _
  asked _ := trivial

end Usage

/-! ## The main statement -/

/-- Holders and waiters fit together. -/
structure Orderly (l : SharedLock α) : Prop where
  owner_alone : ∀ t, l.owner = some t → ∀ u ∈ l.users, u.1 = t
  depth_pos : 0 < l.depth ↔ l.owner.isSome
  users_pos : ∀ u ∈ l.users, 0 < u.2
  /-- Nobody waits for a lock that nobody holds. -/
  held : l.owner = none → l.users = [] → l.waitingThreads = []
  /-- Nobody waits to share a lock that nobody has or wants for itself. -/
  shared_at_once : l.owner = none → l.waitingOwners = [] → l.waitingUsers = []
  /-- Nobody waits twice. -/
  once : l.waitingThreads.Nodup

omit [DecidableEq α] in
theorem waitingThreads_eq : l.waitingThreads = l.line.map (·.thread) := map_append.symm

theorem Usage.Fits.orderly {s : Usage α} (h : s.Fits) : Orderly s.lock where
  owner_alone := h.lawful.owner_alone
  depth_pos := by
    cases howner : s.lock.owner with
    | none => simp [h.depth howner]
    | some t => simpa using h.lawful.owner_pos t howner
  users_pos := h.lawful.users_pos
  held ho hu := by rw [waitingThreads_eq, h.lawful.held ho hu, map_nil]
  shared_at_once := h.lawful.shared_at_once
  once := waitingThreads_eq ▸ h.lawful.line_nodup

theorem hasTwins_of_nodup {ts : List α} (h : ts.Nodup) : hasTwins ts = false := by
  fun_induction hasTwins ts with
  | case1 x y rest ih =>
    have hne : x ≠ y := fun hc => (nodup_cons.1 h).1 (hc ▸ mem_cons_self)
    simp [hne, ih (nodup_cons.1 h).2]
  | case2 => rfl

omit [DecidableEq α] in
/-- Who owns a lock that is also shared is the only one to share it. -/
theorem Sound.users_eq {o : α} (h : Sound l) (howner : l.owner = some o) (husers : l.users ≠ []) :
    l.users.map (·.1) = [o] := by
  have halone : ∀ u ∈ l.users.map (·.1), u = o := by simpa using h.owner_alone o howner
  have heq := eq_replicate_of_mem halone
  have hone : (l.users.map (·.1)).length = 1 := by
    have hle := nodup_replicate.1 (heq ▸ h.users_nodup)
    exact Nat.le_antisymm hle (length_pos_iff.2 (mt map_eq_nil_iff.1 husers))
  rwa [hone] at heq

/-- The lock's own check succeeds, in whatever order it sorts the threads. -/
theorem Usage.Fits.invariant? {s : Usage α} (h : s.Fits) (order : α → α → Bool) :
    s.lock.invariant? (some order) = some true := by
  have horderly := h.orderly
  unfold SharedLock.invariant?
  split
  · next hc =>
    obtain ⟨⟨howner, husers⟩, hne⟩ : (s.lock.owner.isSome ∧ s.lock.users ≠ []) ∧
      s.lock.users.map (·.1) ≠ s.lock.owner.toList := by simpa [hasOwner, hasUsers] using hc
    obtain ⟨o, howner⟩ := Option.isSome_iff_exists.1 howner
    exact absurd (h.lawful.users_eq howner husers) (by simpa [howner] using hne)
  split
  · next hc =>
    have hwaiting : s.lock.waitingThreads = [] := by
      refine horderly.held ?_ ?_ <;> simp_all [hasOwner, hasUsers]
    simpa [waitingThreads, hasWaitingOwners, hasWaitingUsers, and_comm] using hwaiting
  split
  · next hc =>
    have hdepth := horderly.depth_pos
    cases howner : s.lock.owner <;> simp_all [hasOwner]
    omega
  split
  · next hc =>
    obtain ⟨u, hu, hle⟩ := any_eq_true.1 hc
    exact absurd (horderly.users_pos u hu) (by simpa using hle)
  split
  · next hc =>
    have hnone : s.lock.waitingUsers = [] := by
      refine horderly.shared_at_once ?_ ?_ <;> simp_all [hasOwner, hasWaitingOwners]
    simp [hasWaitingUsers, hnone] at hc
  have hsorted : hasTwins (s.lock.waitingThreads.mergeSort order) = false :=
    hasTwins_of_nodup ((mergeSort_perm ..).nodup_iff.2 horderly.once)
  split <;> simp_all

/-- However the steps of the threads come, however their time-outs fall and whoever is let in first:
holders and waiters fit together, which the lock's own check confirms, and a thread whose call has
returned has as many holds of each kind as it has successfully asked for and not given back. -/
theorem usage_invariant (schedule : List (α × Bool × Event)) (t : α) :
    let s := ({} : Usage α).run schedule
    s.lock.Orderly ∧ (∀ order, s.lock.invariant? (some order) = some true) ∧
      (s.call t = .returned →
        (if s.lock.owner = some t then s.lock.depth else 0) =
            (s.done t .acquire : Int) - s.done t .release ∧
          (s.lock.sharedDepth? t).getD 0 =
            (s.done t .acquireShared : Int) - s.done t .releaseShared) := by
  intro s
  have h : s.Fits := Usage.fits_start.run schedule
  refine ⟨h.orderly, h.invariant?, fun hcall => ?_⟩
  have hself := h.standing_eq hcall
  have hout : t ∉ s.lock.line.map (·.thread) := ticket_none_iff.1 (by rw [hself]; rfl)
  rw [standing_out hout] at hself
  exact ⟨congrArg Standing.exclusive hself, congrArg Standing.shared hself⟩

end HostedLisp.SharedLock
