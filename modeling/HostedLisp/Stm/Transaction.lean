import HostedLisp.Session.Apply
import HostedLisp.Stm.World

/-!
# Transactions

A transaction is tried until a try commits. Within a try the reads see the values of one point, and
new values are seen by nobody else before the commit.

- `Stm.begin`, `Stm.finish`: start and end of a try.
- `Stm.read`, `Stm.write`, `Stm.commute`, `Stm.ensure`: what a try does with a reference.
- `Stm.takeOwnership`, `Stm.barge`: conflicts between tries that write to the same reference.
- `Stm.commit`: makes the new values of a try visible, all with the same point.
- `Stm.deref`: the value of a reference, in a transaction or outside.
- `Stm.ask`: any request by its name.
-/

namespace HostedLisp.Stm

/-! ## Tries -/

variable (call : Caller) (t r : Nat)

/-- Begin a try. The first one fixes the age of the transaction. -/
def begin (first : Bool) : StmM Unit := do
  let point ← nextPoint
  updateTxn t fun x => { x with readPoint := point, start := if first then point else x.start }
  let start := (← txnOf t).start
  let w ← get
  set { w with tries := w.tries.push { status := .running, start := start } }
  updateTxn t fun x => { x with self := some w.tries.size }

/-- End the present try of a thread, if there is one, and forget what it did. -/
def stop (status : Status) : StmM Unit := do
  match (← txnOf t).self with
  | none => return ()
  | some i =>
    setStatus i status
    updateTxn t fun x => { readPoint := x.readPoint }

/-- Go on only in a try that is not over. -/
def requireLive : StmM Unit := do
  match (← txnOf t).self with
  | none => throw .retry
  | some i => if (← statusOf i).isLive then return () else throw .retry

/-- Go on only inside of a transaction. -/
def requireTransaction : StmM Unit := do
  if (← txnOf t).self.isNone then fail (.signal .illegalState "No transaction running.")

/-! ## Conflicts -/

/-- Stop another try that is running, if this transaction is older. -/
def barge (other : Nat) : StmM Bool := do
  let w ← get
  match w.tries[other]? with
  | some x =>
    if (← txnOf t).start < x.start ∧ x.status = .running then
      setStatus other .killed
      return true
    else return false
  | none => return false

/-- The try of another transaction that has taken a reference and is not over. -/
def rival? : StmM (Option Nat) := do
  match (← refAt r).owner with
  | none => return none
  | some i =>
    if (← txnOf t).self = some i then return none
    else if (← statusOf i).isLive then return some i
    else return none

/-- Let others change a reference again. -/
def releaseEnsured : StmM Unit := do
  if (← txnOf t).ensures.contains r then
    updateTxn t fun x => { x with ensures := x.ensures.erase r }
    unlockShared t r

/-- Whether a reference has changed since the try began. -/
def changed : StmM Bool := do
  return (← refAt r).changedSince (← txnOf t).readPoint

/-- Take a reference in order to write to it. The try is over if it has changed in the meantime or
belongs to an older transaction. -/
def takeOwnership : StmM Unit := do
  releaseEnsured t r
  lockSoon t r
  if ← changed t r then
    unlock t r
    throw .retry
  else
    let lost ← match ← rival? t r with
      | none => pure false
      | some other => do pure !(← barge t other)
    if lost then
      unlock t r
      -- what the try has ensured is forgotten and stays locked
      stop t .abandoned
      throw .retry
    else
      let me := (← txnOf t).self
      updateRef r fun x => { x with owner := me }
      unlock t r

/-! ## Reading and writing -/

/-- Set the value at a key; a new key goes to the end. -/
def insertAt {β : Type} (k : Nat) (v : β) : List (Nat × β) → List (Nat × β)
  | [] => [(k, v)]
  | (j, w) :: rest => if j = k then (j, v) :: rest else (j, w) :: insertAt k v rest

/-- Remember the new value of a reference. -/
def remember (v : Value) : StmM Unit :=
  updateTxn t fun x => { x with values := insertAt r v x.values }

/-- The value of a reference in a try: the new one, or that of the point at which the try began. If
that is no longer kept, the try is over and the history is to grow. -/
def read : StmM Value := do
  requireLive t
  let txn ← txnOf t
  match txn.values.lookup r with
  | some v => return v
  | none =>
    lock t r
    let ref ← refAt r
    unlock t r
    if ref.history.isEmpty then
      fail (.signal .illegalState
        "('Ref in transaction doRef is unbound! ', <clojure.lang.ref.Ref object at 0xADDR>)")
    else
      match ref.valueBefore? txn.readPoint with
      | some v => return v
      | none =>
        updateRef r fun x => { x with faults := x.faults + 1 }
        throw .retry

/-- Give a reference a new value. -/
def write (v : Value) : StmM Value := do
  requireLive t
  let txn ← txnOf t
  if txn.commutes.any (·.1 = r) then
    fail (.signal .illegalState "Can't set/alter a ref in a transaction after a commute!")
  else
    if !txn.sets.contains r then
      updateTxn t fun x => { x with sets := x.sets ++ [r] }
      takeOwnership t r
    remember t r v
    return v

/-- The arguments that follow the value of a reference. -/
def argumentsOf (args : Value) : Except Error (List Value) := do
  return (← Value.walk (← args.seq)).toList

/-- Call a function with the value of a reference and further arguments. -/
def change (f args v : Value) : Except Error Value := do
  call f (v :: (← argumentsOf args))

/-- Change a reference by a function that is called again at the commit, with the value of then. -/
def commute (f args : Value) : StmM Value := do
  requireLive t
  if ((← txnOf t).values.lookup r).isNone then
    lockShared t r
    let v := (← refAt r).current
    unlockShared t r
    remember t r v
  let txn ← txnOf t
  let before := (txn.commutes.lookup r).getD []
  updateTxn t fun x => { x with commutes := insertAt r (before ++ [(f, args)]) x.commutes }
  let v ← lift (change call f args ((txn.values.lookup r).getD .nil))
  remember t r v
  return v

/-- Nobody else may change a reference until the try is over. This fails, with the lock kept, if a
live try has taken the reference. -/
def ensure : StmM Unit := do
  requireLive t
  if !(← txnOf t).ensures.contains r then
    lockShared t r
    if ← changed t r then
      unlockShared t r
      throw .retry
    let taken ← match (← refAt r).owner with
      | none => pure false
      | some i => do pure (← statusOf i).isLive
    if taken then fail (.fault .attribute)
    else updateTxn t fun x => { x with ensures := x.ensures ++ [r] }

/-! ## Committing -/

/-- Lock a reference for the commit. -/
def lockForCommit : StmM Unit := do
  lockSoon t r
  updateTxn t fun x => { x with locked := x.locked ++ [r] }

/-- Call the functions for a reference again, on its latest value. -/
def reapply (changes : List (Value × Value)) : StmM Unit := do
  let ensured := (← txnOf t).ensures.contains r
  releaseEnsured t r
  lockForCommit t r
  if ensured then
    if ← changed t r then throw .retry
  match ← rival? t r with
  | none => pure ()
  | some other => if !(← barge t other) then throw .retry
  let latest := (← refAt r).current
  remember t r (← lift (changes.foldlM (fun v (f, args) => change call f args v) latest))

def validate (validator v : Value) : StmM Unit := do
  match validator with
  | .nil => return ()
  | f =>
    if (← lift (call f [v])).holds then return ()
    else fail (.signal .illegalState "Invalid reference state")

/-- Make the new value of a reference visible. -/
def publish (v : Version) : StmM Unit := do
  let ref ← lift ((← refAt r).commit v)
  updateRef r fun _ => ref

/-- Make the new values of the present try visible, all with the same point, unless the try was
stopped by another transaction. -/
def commit : StmM Bool := do
  match (← txnOf t).self with
  | none => fail (.fault .attribute)
  | some i =>
    if (← statusOf i) = .running then
      setStatus i .committing
      let txn ← txnOf t
      for (r, changes) in txn.commutes do
        if !txn.sets.contains r then reapply call t r changes
      for r in txn.sets do lockForCommit t r
      let values := (← txnOf t).values
      for (r, v) in values do validate call (← refAt r).validator v
      let point ← nextPoint
      for (r, v) in values do publish r ⟨v, point⟩
      setStatus i .committed
      return true
    else return false

/-- End a try: take back its locks and forget what it did. -/
def finish (committed : Bool) : StmM Unit := do
  let txn ← txnOf t
  for r in txn.locked.reverse do unlock t r
  for r in txn.ensures do unlockShared t r
  stop t (if committed then .committed else .abandoned)

/-! ## What a thread asks of a reference -/

/-- The value of a reference: in a transaction that of the try, otherwise the latest. -/
def deref (t r : Nat) : StmM Value := do
  if (← txnOf t).self.isSome then read t r
  else
    lockShared t r
    let ref ← refAt r
    unlockShared t r
    if ref.history.isEmpty then
      fail (.signal .illegalState "Accessing unbound ref in currentVal!")
    else return ref.current

/-- Change a reference by a function of its value. -/
def alter (call : Caller) (t r : Nat) (f args : Value) : StmM Value := do
  requireTransaction t
  let v ← read t r
  let v ← lift (change call f args v)
  write t r v

/-- How a reference shows itself. -/
def self : Value := .thing "clojure.lang.ref" "Ref"

/-- An action without an answer. -/
def quietly (x : StmM Unit) : StmM Value := do
  x
  return .nil

/-- What can be asked of a reference, with the number of arguments. -/
def requests : List (String × Nat) := [
  ("deref", 0), ("refSet", 1), ("alter", 2), ("commute", 2), ("touch", 0), ("isBound", 0),
  ("trimHistory", 0), ("historyCount", 0), ("minHistory", 0), ("setMinHistory", 1),
  ("maxHistory", 0), ("setMaxHistory", 1), ("setValidator", 1), ("getValidator", 0),
  ("getWatches", 0), ("addWatch", 2), ("removeWatch", 1), ("notifyWatches", 2), ("meta", 0),
  ("resetMeta", 1), ("alterMeta", 3), ("history", 0), ("faults", 0), ("unbind", 0)]

/-- Ask something of a reference. -/
def ask (call : Caller) (t r : Nat) (request : String) (args : List Value) : StmM Value := do
  match request, args with
  | "deref", [] => deref t r
  | "refSet", [v] => do
    requireTransaction t
    write t r v
  | "alter", [f, args] => alter call t r f args
  | "commute", [f, args] => do
    requireTransaction t
    commute call t r f args
  | "touch", [] => quietly do
    requireTransaction t
    ensure t r
  | "isBound", [] => do
    lockShared t r
    unlockShared t r
    return .bool !(← refAt r).history.isEmpty
  | "trimHistory", [] => quietly do
    lock t r
    updateRef r Ref.trim
    unlock t r
  | "historyCount", [] => do
    lockShared t r
    unlockShared t r
    return .int (← refAt r).history.length
  | "minHistory", [] => do return (← refAt r).minHistory
  | "setMinHistory", [n] => quietly (updateRef r fun x => { x with minHistory := n })
  | "maxHistory", [] => return .int Ref.maxHistory
  -- the greatest number cannot be set
  | "setMaxHistory", [_] => fail (.fault .name)
  | "setValidator", [f] => quietly do
    validate call f (← deref t r)
    updateRef r fun x => { x with validator := f }
  | "getValidator", [] => do return (← refAt r).validator
  | "validate", [v] => quietly do validate call (← refAt r).validator v
  | "validate", [f, v] => quietly (validate call f v)
  | "validate", _ => fail .badArity
  | "getWatches", [] => do return .hashMap (← refAt r).watches .nil
  | "addWatch", [k, f] => do
    let watches ← lift (Value.tableInsert (← refAt r).watches k f)
    updateRef r fun x => { x with watches := watches }
    return self
  | "removeWatch", [k] => do
    let watches ← lift (Value.tableErase (← refAt r).watches k)
    updateRef r fun x => { x with watches := watches }
    return self
  | "notifyWatches", [_, _] => quietly do lift (Value.tellWatches (← refAt r).watches)
  | "meta", [] => do return (← refAt r).info
  | "resetMeta", [data] => quietly (updateRef r fun x => { x with info := data })
  | "alterMeta", [f, a, b] => quietly do
    let data ← lift (call f [(← refAt r).info, a, b])
    updateRef r fun x => { x with info := data }
  | "history", [] => do
    return .array ((← refAt r).history.map fun v => .array [v.value, .int v.point])
  | "faults", [] => do return .int (← refAt r).faults
  | "unbind", [] => quietly (updateRef r fun x => { x with history := [] })
  | request, _ =>
    if requests.any (·.1 = request) then fail (.fault .type) else fail (.fault .attribute)

end HostedLisp.Stm
