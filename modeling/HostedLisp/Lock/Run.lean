import HostedLisp.Error
import HostedLisp.Lock.Basic
import HostedLisp.Number.Basic

/-!
# Threads that share a lock

Threads make calls on one lock, one step after another. A call that cannot go on waits until it gets
the lock or its time is over; time passes when a thread sleeps or when a step waits.

- `LockRun`: the lock, the calls that wait or have ended, and the clock.
- `LockRun.settle`, `LockRun.advance`: calls go on that have got the lock, or time passes.
- `LockRun.step`: one step of a thread.
-/

namespace HostedLisp

/-- The state of a call that did not return at once. -/
inductive LockCall where
  /-- Waits with a ticket, up to a point in time. A call that has lost waits for the shared holds of
  its thread. -/
  | waiting (ticket : Nat) (limit : Option (Rat × Rat)) (lost : Bool)
  | ended (result : Except Error Bool)

/-- Threads that share a lock. -/
structure LockRun where
  lock : SharedLock String := {}
  /-- Whether the invariant is checked before and after each call. -/
  checked : Bool := false
  /-- Whether calls are logged. -/
  logged : Bool := false
  log : Array String := #[]
  calls : List (String × LockCall) := []
  clock : Rat := 0

abbrev LockM := EStateM Error LockRun

inductive LockAnswer where
  | nothing
  | truth (b : Bool)
  | text (s : String)
  /-- The call waits. -/
  | pending

namespace LockRun

/-- A number of seconds with two decimals, where a half goes to the even neighbour. -/
def seconds (q : Rat) : String :=
  let hundredths := q * 100
  let low := hundredths.floor
  let rest := hundredths - low
  let n := if rest < 1 / 2 || (rest == 1 / 2 && low % 2 == 0) then low else low + 1
  let digits := Nat.repr (n.natAbs % 100)
  (if n < 0 then "-" else "") ++ Nat.repr (n.natAbs / 100) ++ "."
    ++ (if digits.length < 2 then "0" ++ digits else digits)

def describe (r : LockRun) : String := r.lock.text id

variable (t : String)

/-- Log what a thread does. -/
def note (what : String) : LockM Unit := do
  let r ← get
  if r.logged then
    let line := t ++ " @ ADDR " ++ what ++ " " ++ r.describe ++ " @ ADDR in "
    set { r with log := r.log.push line }

/-- The invariant. Threads have no order. -/
def invariant : LockM Bool := do
  match (← get).lock.invariant? none with
  | some b => return b
  | none => fault .type

/-- Check the invariant where that is wanted. -/
def check : LockM Unit := do
  if (← get).checked then
    if ← invariant then return () else fault .assertion

def setLock (l : SharedLock String) : LockM Unit := modify fun r => { r with lock := l }

/-- Ask for the lock, in a way that is named in the log. The answer is the ticket of a call that has
to wait. -/
def ask (way : String) (attempt : SharedLock String → SharedLock.Attempt String) :
    LockM (Option Nat) := do
  note t ("acquiring " ++ way)
  check
  match attempt (← get).lock with
  | .held l =>
    setLock l
    check
    note t ("acquired " ++ way)
    return none
  | .waits l ticket =>
    setLock l
    check
    note t ("waiting for " ++ way)
    return some ticket

/-- Give a hold back, in a way that is named in the log. -/
def giveBack (way : String) (release : SharedLock String → Option (SharedLock String)) :
    LockM Unit := do
  note t ("releasing " ++ way)
  check
  match release (← get).lock with
  | none => throw (.signal .general "Current thread has not acquired the lock")
  | some l =>
    setLock l
    check
    note t ("released " ++ way)

def setCall (c : LockCall) : LockM Unit :=
  modify fun r => { r with calls := (r.calls.filter fun (u, _) => u ≠ t) ++ [(t, c)] }

def dropCall : LockM Unit := modify fun r => { r with calls := r.calls.filter fun (u, _) => u ≠ t }

/-- Run something that may fail and keep its result. -/
def attempt {β : Type} (x : LockM β) : LockM (Except Error β) :=
  tryCatch (do return Except.ok (← x)) fun e => return .error e

/-- Run the end of a call and keep its result. -/
def finish (x : LockM Bool) : LockM Unit := do setCall t (.ended (← attempt x))

/-- Let the calls go on that have got the lock. -/
def settle : LockM Unit := do
  for (t, c) in (← get).calls do
    match c with
    | .waiting ticket _ lost =>
      if !(← get).lock.isWaiting ticket then
        finish t do
          check
          note t "acquired"
          return !lost
    | .ended _ => pure ()

/-- A call has waited long enough. -/
def timeOut (ticket : Nat) (timeout : Rat) : LockM Unit := do
  let (l, again) := (← get).lock.giveUp true ticket
  setLock l
  finish t do
    check
    note t ("timed out in " ++ seconds timeout ++ " second(s) waiting for")
    return false
  match again, (← get).calls.lookup t with
  | true, some (.ended (.ok _)) =>
    let held := (l.waitingUsers.find? (·.ticket = ticket)).map (·.shared)
    note t ("acquiring " ++ Nat.repr (held.getD 0).natAbs ++ " previously owned shared lock(s) for")
    setCall t (.waiting ticket none true)
  | _, _ => pure ()
  settle

/-- The call whose time is over first, up to a point in time. -/
def nextLimit? (r : LockRun) (until_ : Rat) : Option (String × Nat × Rat × Rat) :=
  r.calls.foldl (fun best (t, c) =>
    match c with
    | .waiting ticket (some (limit, timeout)) _ =>
      if limit ≤ until_ then
        match best with
        | some (_, _, other, _) => if limit < other then some (t, ticket, limit, timeout) else best
        | none => some (t, ticket, limit, timeout)
      else best
    | _ => best) none

/-- Let time pass up to a point. Each call can end once, so their number bounds the steps. -/
def advance (until_ : Rat) : (fuel : Nat) → LockM Unit
  | 0 => modify fun r => { r with clock := until_ }
  | fuel + 1 => do
    match (← get).nextLimit? until_ with
    | none => modify fun r => { r with clock := until_ }
    | some (t, ticket, limit, timeout) =>
      modify fun r => { r with clock := limit }
      timeOut t ticket timeout
      advance until_ fuel

def pass (until_ : Rat) : LockM Unit := do advance until_ (← get).calls.length

/-- Wait for a thread's call to end, as far as time alone can end it. -/
def await : LockM LockAnswer := do
  match (← get).calls.lookup t with
  | some (.waiting _ (some (limit, _)) _) => pass limit
  | _ => pure ()
  match (← get).calls.lookup t with
  | some (.ended (.ok b)) =>
    dropCall t
    return .truth b
  | some (.ended (.error e)) =>
    dropCall t
    throw e
  | some (.waiting ..) => return .pending
  | none => return .nothing

/-- Start a call that may have to wait. -/
def start (timeout : Option Rat) (x : LockM (Option Nat)) : LockM Unit := do
  match ← attempt x with
  | .error e => setCall t (.ended (.error e))
  | .ok none => setCall t (.ended (.ok true))
  | .ok (some ticket) =>
    let now := (← get).clock
    setCall t (.waiting ticket (timeout.map fun s => (now + s, s)) false)

/-- The calls that ask for the lock. -/
def asking? : String → Option (LockM (Option Nat))
  | "acquire" => some (ask t "exclusive" fun l => l.acquire true t)
  | "acquire_shared" => some (ask t "shared" fun l => l.acquireShared t)
  | _ => none

/-- A call that returns at once. -/
def simple : String → LockM LockAnswer
  | "release" => do
    giveBack t "exclusive" fun l => l.release? true t
    return .nothing
  | "release_shared" => do
    giveBack t "shared" fun l => l.releaseShared? true t
    return .nothing
  | "_invariant" => do return .truth (← invariant)
  | "debug_dump" | "_debug_dump" => do return .text (← get).describe
  | "_has_owner" => do return .truth (← get).lock.hasOwner
  | "_has_users" => do return .truth (← get).lock.hasUsers
  | "_has_pending_owners" => do return .truth (← get).lock.hasWaitingOwners
  | "_has_pending_users" => do return .truth (← get).lock.hasWaitingUsers
  | _ => fault .attribute

/-- One step of a thread. An action that starts with a tilde is not waited for. -/
def step (action : String) (number : Option Rat) : LockM LockAnswer := do
  match action with
  | "join" => await t
  | "sleep" =>
    pass ((← get).clock + number.getD 0)
    return .nothing
  | action =>
    let background := action.startsWith "~"
    let action := if background then String.ofList (action.toList.drop 1) else action
    match asking? t action with
    | some x =>
      start t number x
      settle
      if background then return .pending else await t
    | none =>
      let r ← attempt (simple t action)
      settle
      match r with
      | .ok a => return a
      | .error e => throw e

end LockRun

end HostedLisp
