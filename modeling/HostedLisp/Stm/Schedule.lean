import HostedLisp.Stm.Transaction

/-!
# Threads with transactions

A script is run by one thread, and its steps may run transactions on other threads: to their end, or
up to a pause.

- `Step`: a step of a script or of the body of a transaction.
- `Answer`: what a step answers.
- `Task`: a transaction on its way.
- `Schedule.runScript`: the answers of a script.
-/

namespace HostedLisp.Stm

/-- A step of a script or of the body of a transaction. -/
inductive Step where
  /-- A transaction of this thread. -/
  | transaction (body : List Step)
  /-- A transaction of another thread, run to its end. -/
  | elsewhere (body : List Step)
  /-- A transaction of another thread, run until it pauses. -/
  | spawn (name : String) (body : List Step)
  /-- Let a transaction go on that pauses. -/
  | resume (name : String)
  | pause
  /-- A step of one try only. -/
  | only (attempt : Nat) (step : Step)
  | fail
  | ask (ref : Int) (request : String) (args : List Value)

/-- What a step answers. -/
inductive Answer where
  | value (v : Value)
  | failure (e : Error)
  /-- The try was over. -/
  | retry
  | skipped
  | paused
  | spawned
  /-- The thread waits for a lock. -/
  | blocked
  /-- The answers of each try of a transaction, and its result. -/
  | report (attempts : List (List Answer)) (result : Except Error Answer)
  deriving Inhabited

/-- A transaction on its way. -/
structure Task where
  thread : Nat
  body : List Step
  /-- Tries are counted from one. -/
  attempt : Nat := 1
  /-- What is left of the present try; nothing is known before it begins. -/
  rest : Option (List Step) := none
  /-- The answers of the present try. -/
  answers : List Answer := []
  /-- The answers of the tries before it. -/
  attempts : List (List Answer) := []
  deriving Inhabited

/-- The number of tries after which a transaction fails. -/
def retryLimit : Nat := 10000

/-- The world and the transactions that pause in it or have ended. -/
structure Schedule where
  world : World
  tasks : List (String × (Task ⊕ Answer)) := []
  /-- How often the body of a transaction lets itself be tried again before it throws. -/
  retries : Nat := retryLimit
  deriving Inhabited

/-- How a step of a transaction ends. -/
inductive Outcome where
  | said (a : Answer)
  | pause
  | stop (s : Signal)

namespace Schedule

/-- Do something in the world. -/
def stm {α : Type} (x : StmM α) : StateM Schedule (Except Signal α) := do
  let s ← get
  match x.run s.world with
  | .ok a w => do
    set { s with world := w }
    return .ok a
  | .error e w => do
    set { s with world := w }
    return .error e

/-- End the present try and report. -/
def conclude (task : Task) (committed : Bool) (answers : List Answer)
    (result : Except Error Answer) : StateM Schedule (Task ⊕ Answer) := do
  let _ ← stm (finish task.thread committed)
  return .inr (.report (task.attempts ++ [answers]) result)

/-- End the present try; another one follows. -/
def tryAgain (task : Task) (answers : List Answer) : StateM Schedule Task := do
  let _ ← stm (finish task.thread false)
  return { task with
    attempt := task.attempt + 1
    rest := none
    answers := []
    attempts := task.attempts ++ [answers] }

/-- Let a transaction go on until it pauses or ends. Each try takes a step for its begin, each of
its steps and its end, so the number of tries bounds the steps. -/
def advance (call : Caller) (perform : (thread attempt : Nat) → Step → StateM Schedule Outcome) :
    (fuel : Nat) → Task → StateM Schedule (Task ⊕ Answer)
  | 0, _ => return .inr .blocked
  | fuel + 1, task => do
    match task.rest with
    | none =>
      -- the failure for too many tries names something undefined
      if task.attempt > retryLimit then return .inr (.report task.attempts (.error (.fault .name)))
      else
        let _ ← stm (begin task.thread (task.attempt = 1))
        if task.attempt > (← get).retries + 1 then
          let _ ← stm (finish task.thread false)
          return .inr (.report task.attempts (.error (.fault .thrown)))
        else advance call perform fuel { task with rest := some task.body }
    | some (step :: rest) =>
      let task := { task with rest := some rest }
      match ← perform task.thread task.attempt step with
      | .said a => advance call perform fuel { task with answers := task.answers ++ [a] }
      | .pause => return .inl { task with answers := task.answers ++ [.paused] }
      | .stop .retry => advance call perform fuel (← tryAgain task (task.answers ++ [.retry]))
      | .stop (.failed e) => conclude task false (task.answers ++ [.failure e]) (.error e)
      | .stop .blocked => return .inr .blocked
    | some [] =>
      match ← stm (commit call task.thread) with
      | .ok true =>
        conclude task true task.answers (.ok (task.answers.getLast?.getD (.value .nil)))
      | .ok false | .error .retry => advance call perform fuel (← tryAgain task task.answers)
      | .error (.failed e) => conclude task false task.answers (.error e)
      | .error .blocked => return .inr .blocked

/-- Enough steps for all tries of a transaction. -/
def advanceLimit (retries : Nat) (task : Task) : Nat := (retries + 3) * (task.body.length + 3)

/-- Run a transaction up to its end. There is nobody to wake it if it pauses, so it goes on. -/
def toEnd (go : Task → StateM Schedule (Task ⊕ Answer)) :
    (fuel : Nat) → Task → StateM Schedule Answer
  | 0, _ => return .blocked
  | fuel + 1, task => do
    match ← go task with
    | .inl task => toEnd go fuel task
    | .inr a => return a

/-- A reference by its position; negative positions count from the end. -/
def refNumber? (s : Schedule) (i : Int) : Option Nat :=
  let n := s.world.refs.size
  if 0 ≤ i ∧ i < n then some i.toNat
  else if i < 0 ∧ 0 ≤ i + n then some (i + n).toNat
  else none

/-- Remember a transaction under its name. -/
def keep (name : String) (x : Task ⊕ Answer) : StateM Schedule Unit :=
  modify fun s => { s with tasks := (name, x) :: s.tasks.filter (·.1 ≠ name) }

/-- Do a step, with a bound on how deep transactions are nested. Other threads only run in the first
try of a transaction. -/
def perform (call : Caller) : (depth : Nat) → (thread attempt : Nat) → Step →
    StateM Schedule Outcome
  | 0, _, _, _ => return .stop .blocked
  | depth + 1, thread, attempt, step => do
    let go (task : Task) : StateM Schedule (Task ⊕ Answer) := do
      advance call (perform call depth) (advanceLimit (← get).retries task) task
    let onThread (thread : Nat) (body : List Step) : StateM Schedule Answer :=
      toEnd go (body.length + 1) { thread := thread, body := body }
    let created : StateM Schedule Nat := do
      match ← stm newThread with
      | .ok t => return t
      | .error _ => return 0
    let first := attempt = 1
    match step with
    | .transaction body =>
      match ← stm (txnOf thread) with
      | .ok { self := some _, .. } => return .said (.report [] (.error (.fault .name)))
      | _ => return .said (← onThread thread body)
    | .elsewhere body =>
      if first then return .said (← onThread (← created) body) else return .said .skipped
    | .spawn name body =>
      if first then
        keep name (← go { thread := ← created, body := body })
        return .said .spawned
      else return .said .skipped
    | .resume name =>
      if first then
        match (← get).tasks.lookup name with
        | none => return .stop (.failed (.fault .key))
        | some (.inr a) => return .said a
        | some (.inl task) =>
          modify fun s => { s with tasks := s.tasks.filter (·.1 ≠ name) }
          let x ← go task
          keep name x
          match x with
          | .inl _ => return .said .paused
          | .inr a => return .said a
      else return .said .skipped
    | .pause => if first then return .pause else return .said .skipped
    | .only n step =>
      if attempt = n then perform call depth thread 1 step else return .said .skipped
    | .fail => return .stop (.failed (.fault .thrown))
    | .ask i request args =>
      match (← get).refNumber? i with
      | none => return .stop (.failed (.fault .index))
      | some r =>
        match ← stm (ask call thread r request args) with
        | .ok v => return .said (.value v)
        | .error s => return .stop s

mutual

/-- The number of steps in a step. -/
def stepSize : Step → Nat
  | .transaction body | .elsewhere body | .spawn _ body => stepsSize body + 1
  | .only _ step => stepSize step + 1
  | _ => 1

/-- The number of steps in a body. -/
def stepsSize : List Step → Nat
  | [] => 0
  | step :: rest => stepSize step + stepsSize rest

end

/-- The answer of a step outside of transactions. -/
def answerOf : Outcome → Answer
  | .said a => a
  | .pause => .paused
  | .stop .retry => .failure (.signal .transactionRetry "")
  | .stop .blocked => .blocked
  | .stop (.failed e) => .failure e

/-- The answers of a script on references with initial values. -/
def runScript (call : Caller) (retries : Nat) (values : List Value) (script : List Step) :
    List Answer :=
  let refs := values.map fun v => { history := [⟨v, 0⟩] : Ref }
  let steps : StateM Schedule (List Answer) := script.mapM fun step => do
    return answerOf (← perform call (stepsSize script + 1) 0 1 step)
  (steps.run { world := { refs := refs.toArray }, retries }).1

end Schedule

end HostedLisp.Stm
