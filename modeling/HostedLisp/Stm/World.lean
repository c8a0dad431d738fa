import HostedLisp.Arith
import HostedLisp.Lock.Basic

/-!
# References that change in transactions

A reference keeps its latest committed values, newest first. Every try of a transaction and every
commit takes a point of one common order; a try reads the values that were committed before its
point.

- `Version`, `Ref`: committed values and the reference that keeps them.
- `Try`, `Txn`: a try of a transaction, and what the transaction of a thread has done in it.
- `World`: all references and transactions.
- `StmM`: actions on a world, which may end the try.
-/

namespace HostedLisp.Stm

/-- A committed value and the point of its commit. -/
structure Version where
  value : Value
  point : Nat
  deriving Inhabited

/-- A reference. -/
structure Ref where
  /-- The committed values, newest first. There is none in a reference that is unbound. -/
  history : List Version
  /-- How many reads found no value that was old enough, since the history last grew. -/
  faults : Nat := 0
  /-- The try that last took the reference in order to write to it. -/
  owner : Option Nat := none
  /-- The number of values to keep. -/
  minHistory : Value := .int 0
  lock : SharedLock Nat := {}
  validator : Value := .nil
  watches : Value.Table := .empty
  info : Value := .nil
  deriving Inhabited

namespace Ref

/-- The greatest number of values that are kept for slow readers. -/
def maxHistory : Nat := 10

/-- The latest value; nil in a reference that is unbound. -/
def current (r : Ref) : Value := (r.history.head?.map (·.value)).getD .nil

/-- Whether a value was committed after a point. -/
def changedSince (r : Ref) (point : Nat) : Bool :=
  match r.history with
  | v :: _ => v.point > point
  | [] => false

/-- The latest value that was committed before a point. -/
def valueBefore? (r : Ref) (point : Nat) : Option Value :=
  (r.history.find? (·.point < point)).map (·.value)

/-- Whether the next commit makes the history longer: readers have missed an older value and there
is room, or fewer values are kept than wanted. -/
def grows (r : Ref) : Except Error Bool :=
  if r.faults > 0 ∧ r.history.length < maxHistory then return true
  else Value.less (.int r.history.length) r.minHistory

/-- Commit a value. It comes first; the oldest one goes unless the history grows. -/
def commit (r : Ref) (v : Version) : Except Error Ref := do
  if r.history.isEmpty then return { r with history := [v] }
  else if ← r.grows then return { r with history := v :: r.history, faults := 0 }
  else return { r with history := v :: r.history.dropLast }

/-- Keep only the latest value. -/
def trim (r : Ref) : Ref := { r with history := r.history.take 1 }

end Ref

/-- What became of a try. -/
inductive Status where
  | running
  | committing
  | abandoned
  /-- An older transaction needed what it had taken. -/
  | killed
  | committed
  deriving DecidableEq, Repr, Inhabited

/-- Whether a try is not over. -/
def Status.isLive : Status → Bool
  | .running | .committing => true
  | _ => false

/-- A try of a transaction. -/
structure Try where
  status : Status
  /-- The point at which its transaction began. All tries but the first count as older than any
  other. -/
  start : Int
  deriving Inhabited

/-- What the transaction of a thread has done in its present try. -/
structure Txn where
  /-- The point whose values are read. -/
  readPoint : Nat := 0
  start : Int := -1
  /-- The present try; there is none outside of a transaction. -/
  self : Option Nat := none
  /-- New values, in the order in which the references were first written. -/
  values : List (Nat × Value) := []
  /-- References that were taken. -/
  sets : List Nat := []
  /-- Functions with their arguments, to be called again at the commit. -/
  commutes : List (Nat × List (Value × Value)) := []
  /-- References that nobody else may change. -/
  ensures : List Nat := []
  /-- References that are locked for the commit. -/
  locked : List Nat := []
  deriving Inhabited

/-- All references and transactions. Threads are numbered. -/
structure World where
  refs : Array Ref
  tries : Array Try := #[]
  txns : Array Txn := #[{}]
  /-- The next point. -/
  clock : Nat := 1
  deriving Inhabited

/-- How an action ends that does not give a result. -/
inductive Signal where
  /-- The try is over, and the transaction begins again. -/
  | retry
  /-- The thread waits for a lock. -/
  | blocked
  | failed (e : Error)

/-- Actions on a world. -/
abbrev StmM := EStateM Signal World

/-- A way to call functions. -/
abbrev Caller := Value → List Value → Except Error Value

def fail {α : Type} (e : Error) : StmM α := throw (.failed e)

/-- Something that may fail. -/
def lift {α : Type} (x : Except Error α) : StmM α :=
  match x with
  | .ok a => return a
  | .error e => fail e

def refAt (r : Nat) : StmM Ref := do
  match (← get).refs[r]? with
  | some x => return x
  | none => fail (.fault .index)

def updateRef (r : Nat) (f : Ref → Ref) : StmM Unit :=
  modify fun w => { w with refs := w.refs.modify r f }

def txnOf (t : Nat) : StmM Txn := do return (← get).txns[t]?.getD {}

def updateTxn (t : Nat) (f : Txn → Txn) : StmM Unit :=
  modify fun w => { w with txns := w.txns.modify t f }

def newThread : StmM Nat := do
  let w ← get
  set { w with txns := w.txns.push {} }
  return w.txns.size

/-- The next point of the common order. -/
def nextPoint : StmM Nat := do
  let w ← get
  set { w with clock := w.clock + 1 }
  return w.clock

def statusOf (i : Nat) : StmM Status := do
  return ((← get).tries[i]?.map (·.status)).getD .abandoned

def setStatus (i : Nat) (s : Status) : StmM Unit :=
  modify fun w => { w with tries := w.tries.modify i fun x => { x with status := s } }

/-! ## Locks -/

def setLock (r : Nat) (l : SharedLock Nat) : StmM Unit := updateRef r fun x => { x with lock := l }

/-- Lock a reference for a thread alone. -/
def lock (t r : Nat) : StmM Unit := do
  match (← refAt r).lock.acquire true t with
  | .held l => setLock r l
  | .waits l _ =>
    setLock r l
    throw .blocked

/-- Lock a reference for a thread alone, or begin the transaction again if that takes too long. -/
def lockSoon (t r : Nat) : StmM Unit := do
  match (← refAt r).lock.acquire true t with
  | .held l => setLock r l
  | .waits l ticket =>
    let (l, waits) := l.giveUp true ticket
    setLock r l
    throw (if waits then .blocked else .retry)

/-- Take back a lock. -/
def unlock (t r : Nat) : StmM Unit := do
  match (← refAt r).lock.release? true t with
  | some l => setLock r l
  | none => fail (.signal .general "Current thread has not acquired the lock")

/-- Lock a reference together with others. -/
def lockShared (t r : Nat) : StmM Unit := do
  match (← refAt r).lock.acquireShared t with
  | .held l => setLock r l
  | .waits l _ =>
    setLock r l
    throw .blocked

/-- Take back a shared lock. -/
def unlockShared (t r : Nat) : StmM Unit := do
  match (← refAt r).lock.releaseShared? true t with
  | some l => setLock r l
  | none => fail (.signal .general "Current thread has not acquired the lock")

end HostedLisp.Stm
