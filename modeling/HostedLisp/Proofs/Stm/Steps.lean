import HostedLisp.Proofs.Stm.View

/-!
# Actions step by step

What a thread does with references, cut into the steps between which other threads may act. A step
looks at or changes one thing that threads share. A thread that has to wait for a lock stays in line
until it is let in.

- `Chance`: what is decided by chance in a step.
- `Course`: the steps of an action. `Course.step`: one step of it.
- `Course.alone`: all steps of a thread that nobody else gets in the way of.
- `readSteps`, `writeSteps`, `commuteSteps`, `ensureSteps`, `commitSteps`, `finishSteps`,
  `askSteps`: the steps of the actions.
- `alone_eq_step`: what is done alone is done step by step. `read_alone`, `write_alone` and so on:
  taken alone, the steps are the actions.
-/

namespace HostedLisp.Stm

variable {α β : Type}

/-- What is decided by chance: who is let in first, and whether a thread has waited long enough. -/
structure Chance where
  ownerFirst : Bool := true
  timeUp : Bool := true

/-- The world with another lock for a reference. -/
def World.withLock (w : World) (r : Nat) (l : SharedLock Nat) : World :=
  { w with refs := w.refs.modify r fun x => { x with lock := l } }

/-- The steps of an action. Other threads may act before each of them. -/
inductive Course (α : Type) : Type 1 where
  | done (a : α)
  | act {β : Type} (x : Chance → StmM β) (next : β → Course α)
  /-- Wait until a thread is let in. -/
  | wait (t r : Nat) (next : Course α)
  /-- Wait no longer than for a while, with a ticket. What comes next depends on whether the thread
  was let in, or else on whether it has to go on waiting for shared holds. -/
  | waitAWhile (t r ticket : Nat) (next : Option Bool → Course α)

namespace Course

/-- One course after the other. -/
def bind : Course α → (α → Course β) → Course β
  | done a, f => f a
  | act x next, f => act x fun b => (next b).bind f
  | wait t r next, f => wait t r (next.bind f)
  | waitAWhile t r k next, f => waitAWhile t r k fun b => (next b).bind f

instance : Monad Course where
  pure := done
  bind := bind

/-- A course of one step that is not up to chance. -/
def atom (x : StmM α) : Course α := act (fun _ => x) done

/-- A course of one step. -/
def chancy (x : Chance → StmM α) : Course α := act x done

/-- A course for each item in turn. -/
def each (xs : List β) (f : β → Course Unit) : Course Unit :=
  match xs with
  | [] => done ()
  | x :: xs => (f x).bind fun _ => each xs f

/-- What one step of a course leads to. -/
inductive Move (α : Type) : Type 1 where
  /-- It has to wait. -/
  | stuck
  | on (rest : Course α) (w : World)
  | ended (outcome : Except Signal α) (w : World)

/-- One step of a course. -/
def step (c : Chance) (w : World) : Course α → Move α
  | done a => .ended (.ok a) w
  | act x next =>
    match x c w with
    | .ok b w' => .on (next b) w'
    | .error e w' => .ended (.error e) w'
  | wait t r next =>
    match w.refs[r]? with
    | none => .stuck
    | some x => if t ∈ x.lock.waitingThreads then .stuck else .on next w
  | waitAWhile t r k next =>
    match w.refs[r]? with
    | none => .stuck
    | some x =>
      if t ∉ x.lock.waitingThreads then .on (next none) w
      else if c.timeUp then
        let (l, again) := x.lock.giveUp c.ownerFirst k
        .on (next (some again)) (w.withLock r l)
      else .stuck

/-- All steps of a thread that nobody else gets in the way of: nobody lets it in, and time is always
up. -/
def alone : Course α → StmM α
  | done a => pure a
  | act x next => do (next (← x {})).alone
  | wait _ _ _ => throw .blocked
  | waitAWhile _ r k next => do
    let (l, again) := (← refAt r).lock.giveUp true k
    setLock r l
    (next (some again)).alone

/-- Whether the thread of a course is in line where it waits. -/
def InLine (w : World) : Course α → Prop
  | wait t r _ => ∃ x : Ref, w.refs[r]? = some x ∧ t ∈ x.lock.waitingThreads
  | waitAWhile t r _ _ => ∃ x : Ref, w.refs[r]? = some x ∧ t ∈ x.lock.waitingThreads
  | _ => True

/-- What a thread does alone from a step on. -/
def Move.alone (w : World) : Move α → EStateM.Result Signal World α
  | .stuck => .error .blocked w
  | .on rest w' => rest.alone w'
  | .ended (.ok a) w' => .ok a w'
  | .ended (.error s) w' => .error s w'

end Course

variable (call : Caller) (t r : Nat) (changes : List (Value × Value))

open Course

/-! ## Locks -/

/-- Note how asking for a lock went. A call that has to wait has a ticket. -/
def noteAttempt : SharedLock.Attempt Nat → StmM (Option Nat)
  | .held l => do
    setLock r l
    return none
  | .waits l k => do
    setLock r l
    return some k

/-- Ask to own the lock of a reference. -/
def askToOwn (c : Chance) : StmM (Option Nat) := do
  noteAttempt r ((← refAt r).lock.acquire c.ownerFirst t)

/-- Ask to share the lock of a reference. -/
def askToShare : StmM (Option Nat) := do
  noteAttempt r ((← refAt r).lock.acquireShared t)

/-- Take back a lock. -/
def giveBack (c : Chance) : StmM Unit := do
  match (← refAt r).lock.release? c.ownerFirst t with
  | some l => setLock r l
  | none => fail (.signal .general "Current thread has not acquired the lock")

/-- Take back a shared lock. -/
def giveBackShared (c : Chance) : StmM Unit := do
  match (← refAt r).lock.releaseShared? c.ownerFirst t with
  | some l => setLock r l
  | none => fail (.signal .general "Current thread has not acquired the lock")

/-- The steps of `lock`. -/
def lockSteps : Course Unit :=
  (chancy (askToOwn t r)).bind fun
    | none => done ()
    | some _ => wait t r (done ())

/-- What comes after waiting for a while: to go on, or to begin the transaction again. -/
def afterAWhile : Option Bool → Course Unit
  | none => done ()
  | some true => wait t r (atom (throw .retry))
  | some false => atom (throw .retry)

/-- The steps of `lockSoon`. -/
def lockSoonSteps : Course Unit :=
  (chancy (askToOwn t r)).bind fun
    | none => done ()
    | some k => waitAWhile t r k (afterAWhile t r)

/-- The steps of `lockShared`. -/
def lockSharedSteps : Course Unit :=
  (atom (askToShare t r)).bind fun
    | none => done ()
    | some _ => wait t r (done ())

/-- The steps of `unlock`. -/
def unlockSteps : Course Unit := chancy (giveBack t r)

/-- The steps of `unlockShared`. -/
def unlockSharedSteps : Course Unit := chancy (giveBackShared t r)

/-! ## Reading and writing -/

/-- Take a reference for the present try. -/
def markOwner : StmM Unit := do
  let me := (← txnOf t).self
  updateRef r fun x => { x with owner := me }

/-- End a try that has lost a reference to a rival. -/
def surrender : StmM Unit := do
  stop t .abandoned
  throw .retry

/-- Note that a reader found no value that was old enough. -/
def missed : StmM Value := do
  updateRef r fun x => { x with faults := x.faults + 1 }
  throw .retry

/-- Whether a live try has taken a reference. -/
def isTaken : StmM Bool := do
  match (← refAt r).owner with
  | none => pure false
  | some i => do pure (← statusOf i).isLive

/-- Stop the rival that has taken a reference, if there is one. -/
def winSteps : Course Bool :=
  (atom (rival? t r)).bind fun
    | none => done true
    | some other => atom (barge t other)

/-- The steps of `releaseEnsured`. -/
def releaseEnsuredSteps : Course Unit :=
  (atom (txnOf t)).bind fun x =>
    if x.ensures.contains r then
      (atom (updateTxn t fun x => { x with ensures := x.ensures.erase r })).bind fun _ =>
        unlockSharedSteps t r
    else done ()

/-- The steps of `takeOwnership`. -/
def takeOwnershipSteps : Course Unit := do
  releaseEnsuredSteps t r
  lockSoonSteps t r
  if ← atom (changed t r) then
    unlockSteps t r
    atom (throw .retry)
  else if ← winSteps t r then
    atom (markOwner t r)
    unlockSteps t r
  else
    unlockSteps t r
    atom (surrender t)

/-- The steps of `read`. -/
def readSteps : Course Value := do
  atom (requireLive t)
  let txn ← atom (txnOf t)
  match txn.values.lookup r with
  | some v => return v
  | none =>
    lockSteps t r
    let ref ← atom (refAt r)
    unlockSteps t r
    if ref.history.isEmpty then
      atom (fail (.signal .illegalState
        "('Ref in transaction doRef is unbound! ', <clojure.lang.ref.Ref object at 0xADDR>)"))
    else
      match ref.valueBefore? txn.readPoint with
      | some v => return v
      | none => atom (missed r)

/-- The steps that make sure that a reference is taken. -/
def claimSteps (known : Bool) : Course Unit :=
  if known then done ()
  else
    (atom (updateTxn t fun x => { x with sets := x.sets ++ [r] })).bind fun _ =>
      takeOwnershipSteps t r

/-- The steps of `write`. -/
def writeSteps (v : Value) : Course Value := do
  atom (requireLive t)
  let txn ← atom (txnOf t)
  if txn.commutes.any (·.1 = r) then
    atom (fail (.signal .illegalState "Can't set/alter a ref in a transaction after a commute!"))
  else
    claimSteps t r (txn.sets.contains r)
    atom (remember t r v)
    return v

/-- The steps that fetch the latest value of a reference. -/
def fetchSteps (known : Bool) : Course Unit :=
  if known then done ()
  else do
    lockSharedSteps t r
    let x ← atom (refAt r)
    unlockSharedSteps t r
    atom (remember t r x.current)

/-- The steps of `commute`. -/
def commuteSteps (f args : Value) : Course Value := do
  atom (requireLive t)
  let txn ← atom (txnOf t)
  fetchSteps t r (txn.values.lookup r).isSome
  let txn ← atom (txnOf t)
  let before := (txn.commutes.lookup r).getD []
  atom (updateTxn t fun x => { x with commutes := insertAt r (before ++ [(f, args)]) x.commutes })
  let v ← atom (lift (change call f args ((txn.values.lookup r).getD .nil)))
  atom (remember t r v)
  return v

/-- The steps of `ensure`. -/
def ensureSteps : Course Unit := do
  atom (requireLive t)
  let txn ← atom (txnOf t)
  if txn.ensures.contains r then done ()
  else
    lockSharedSteps t r
    if ← atom (changed t r) then
      unlockSharedSteps t r
      atom (throw .retry)
    else if ← atom (isTaken r) then atom (fail (.fault .attribute))
    else atom (updateTxn t fun x => { x with ensures := x.ensures ++ [r] })

/-! ## Committing -/

/-- Begin to commit, unless the try was stopped. -/
def beginCommit (i : Nat) : StmM Bool := do
  if (← statusOf i) = .running then
    setStatus i .committing
    return true
  else return false

/-- The steps of `lockForCommit`. -/
def lockForCommitSteps : Course Unit :=
  (lockSoonSteps t r).bind fun _ => atom (updateTxn t fun x => { x with locked := x.locked ++ [r] })

/-- Begin again if a reference that was ensured has changed. -/
def recheckSteps (ensured : Bool) : Course Unit :=
  if ensured then
    (atom (changed t r)).bind fun
      | true => atom (throw .retry)
      | false => done ()
  else done ()

/-- Call the functions for a reference again, unless a rival keeps it. -/
def recomputeSteps : Course Unit := do
  if ← winSteps t r then
    let x ← atom (refAt r)
    let v ← atom (lift (changes.foldlM (fun v (f, args) => change call f args v) x.current))
    atom (remember t r v)
  else atom (throw .retry)

/-- The steps of `reapply`. -/
def reapplySteps : Course Unit := do
  let txn ← atom (txnOf t)
  releaseEnsuredSteps t r
  lockForCommitSteps t r
  recheckSteps t r (txn.ensures.contains r)
  recomputeSteps call t r changes

/-- The steps that call the functions for a reference again, unless it is taken. -/
def reapplyUntakenSteps (sets : List Nat)
    (c : Nat × List (Value × Value)) : Course Unit :=
  if sets.contains c.1 then done () else reapplySteps call t c.1 c.2

/-- The steps that check a value. -/
def validateSteps (c : Nat × Value) : Course Unit :=
  (atom (refAt c.1)).bind fun x => atom (validate call x.validator c.2)

/-- The steps of `commit`. -/
def commitSteps : Course Bool := do
  let txn ← atom (txnOf t)
  match txn.self with
  | none => atom (fail (.fault .attribute))
  | some i =>
    if ← atom (beginCommit i) then
      let txn ← atom (txnOf t)
      each txn.commutes (reapplyUntakenSteps call t txn.sets)
      each txn.sets (lockForCommitSteps t)
      let txn ← atom (txnOf t)
      each txn.values (validateSteps call)
      let point ← atom nextPoint
      each txn.values fun c => atom (publish c.1 ⟨c.2, point⟩)
      atom (setStatus i .committed)
      return true
    else return false

/-- The steps of `finish`. -/
def finishSteps (committed : Bool) : Course Unit := do
  let txn ← atom (txnOf t)
  each txn.locked.reverse (unlockSteps t)
  each txn.ensures (unlockSharedSteps t)
  atom (stop t (if committed then .committed else .abandoned))

/-! ## Requests -/

/-- Something that is asked of a reference. -/
structure Request where
  ref : Nat
  name : String
  args : List Value := []

/-- The steps of `deref`. -/
def derefSteps : Course Value := do
  let txn ← atom (txnOf t)
  if txn.self.isSome then readSteps t r
  else
    lockSharedSteps t r
    let ref ← atom (refAt r)
    unlockSharedSteps t r
    if ref.history.isEmpty then
      atom (fail (.signal .illegalState "Accessing unbound ref in currentVal!"))
    else return ref.current

/-- The steps of `alter`. -/
def alterSteps (f args : Value) : Course Value := do
  atom (requireTransaction t)
  let v ← readSteps t r
  let v ← atom (lift (change call f args v))
  writeSteps t r v

/-- The steps of looking at a reference that is locked before, but not meanwhile. -/
def glanceSteps (f : Ref → Value) : Course Value := do
  lockSharedSteps t r
  unlockSharedSteps t r
  let x ← atom (refAt r)
  return f x

/-- The steps of a request. One that takes no lock is a single step. -/
def askSteps (q : Request) : Course Value :=
  match q.name, q.args with
  | "deref", [] => derefSteps t q.ref
  | "refSet", [v] => do
    atom (requireTransaction t)
    writeSteps t q.ref v
  | "alter", [f, args] => alterSteps call t q.ref f args
  | "commute", [f, args] => do
    atom (requireTransaction t)
    commuteSteps call t q.ref f args
  | "touch", [] => do
    atom (requireTransaction t)
    ensureSteps t q.ref
    return .nil
  | "isBound", [] => glanceSteps t q.ref fun x => .bool !x.history.isEmpty
  | "trimHistory", [] => do
    lockSteps t q.ref
    atom (updateRef q.ref Ref.trim)
    unlockSteps t q.ref
    return .nil
  | "historyCount", [] => glanceSteps t q.ref fun x => .int x.history.length
  | "setValidator", [f] => do
    let v ← derefSteps t q.ref
    atom (validate call f v)
    atom (updateRef q.ref fun x => { x with validator := f })
    return .nil
  | name, args => atom (ask call t q.ref name args)

/-! ## The steps taken alone -/

@[simp] theorem alone_done (a : α) : (done a).alone = pure a := rfl

@[simp] theorem alone_pure (a : α) : (pure a : Course α).alone = pure a := rfl

@[simp] theorem alone_atom (x : StmM α) : (atom x).alone = x := bind_pure x

@[simp] theorem alone_chancy (x : Chance → StmM α) : (chancy x).alone = x {} := bind_pure (x {})

@[simp] theorem alone_ite (c : Prop) [Decidable c] (p q : Course α) :
    (if c then p else q).alone = if c then p.alone else q.alone := apply_ite ..

variable (p : Course α) (w : World)

theorem alone_bind (f : α → Course β) : (p.bind f).alone = p.alone >>= fun a => (f a).alone := by
  induction p with
  | done a => exact (pure_bind a fun a => (f a).alone).symm
  | act x next ih =>
    show (x {} >>= fun b => ((next b).bind f).alone) = (x {} >>= fun b => (next b).alone) >>= _
    rw [bind_assoc]
    exact bind_congr ih
  | wait t r next => rfl
  | waitAWhile t r k next ih =>
    show (refAt r >>= fun x => setLock r (x.lock.giveUp true k).1 >>= fun _ =>
      ((next (some (x.lock.giveUp true k).2)).bind f).alone) =
      (refAt r >>= fun x => setLock r (x.lock.giveUp true k).1 >>= fun _ =>
        (next (some (x.lock.giveUp true k).2)).alone) >>= _
    rw [bind_assoc]
    refine bind_congr fun x => ?_
    exact bind_congr fun _ => ih _

@[simp] theorem alone_bind' (f : α → Course β) :
    (p >>= f).alone = p.alone >>= fun a => (f a).alone := alone_bind p f

theorem alone_each {body : β → PUnit → StmM (ForInStep PUnit)} {f : β → Course Unit}
    (h : ∀ x, body x ⟨⟩ = (f x).alone >>= fun _ => pure (.yield ⟨⟩)) (xs : List β) :
    (each xs f).alone = ForIn.forIn xs PUnit.unit body := by
  induction xs with
  | nil => rfl
  | cons x xs ih =>
    rw [each, alone_bind, ih, List.forIn_cons, h, bind_assoc]
    rfl

theorem get_bind_apply (f : World → StmM α) : ((get : StmM World) >>= f) w = f w w := rfl

theorem refAt_bind_of_some {w : World} {r : Nat} {x : Ref} (hx : w.refs[r]? = some x)
    (f : Ref → StmM α) : (refAt r >>= f) w = f x w := by
  unfold refAt
  rw [bind_assoc, get_bind_apply, hx]
  rfl

theorem refAt_bind_of_none {w : World} {r : Nat} (hx : w.refs[r]? = none) (f : Ref → StmM α) :
    (refAt r >>= f) w = .error (.failed (.fault .index)) w := by
  unfold refAt
  rw [bind_assoc, get_bind_apply, hx]
  rfl

/-- What a thread does alone, step by step. -/
theorem alone_eq_step (h : p.InLine w) : p.alone w = (p.step {} w).alone w := by
  cases p with
  | done a => rfl
  | act x next =>
    show EStateM.bind (x {}) (fun b => (next b).alone) w = _
    unfold EStateM.bind
    simp only [step]
    cases x {} w <;> rfl
  | wait t r next =>
    obtain ⟨x, hx, hin⟩ := h
    simp only [step, hx, if_pos hin]
    rfl
  | waitAWhile t r k next =>
    obtain ⟨x, hx, hin⟩ := h
    simp only [step, hx, if_neg (not_not_intro hin)]
    exact refAt_bind_of_some hx _

theorem lock_alone : (lockSteps t r).alone = lock t r := by
  unfold lockSteps lock askToOwn
  rw [alone_bind, alone_chancy, bind_assoc]
  refine bind_congr fun x => ?_
  cases x.lock.acquire true t with
  | held l => rfl
  | waits l k => rfl

theorem lockShared_alone : (lockSharedSteps t r).alone = lockShared t r := by
  unfold lockSharedSteps lockShared askToShare
  rw [alone_bind, alone_atom, bind_assoc]
  refine bind_congr fun x => ?_
  cases x.lock.acquireShared t with
  | held l => rfl
  | waits l k => rfl

theorem unlock_alone : (unlockSteps t r).alone = unlock t r := alone_chancy _

theorem unlockShared_alone : (unlockSharedSteps t r).alone = unlockShared t r := alone_chancy _

theorem refs_withLock {w : World} {r : Nat} {x : Ref} (hx : w.refs[r]? = some x)
    (l : SharedLock Nat) : (w.withLock r l).refs[r]? = some { x with lock := l } := by
  show (w.refs.modify r _)[r]? = _
  rw [Array.getElem?_modify, if_pos rfl, hx]
  rfl

theorem withLock_withLock (r : Nat) (l l' : SharedLock Nat) :
    (w.withLock r l).withLock r l' = w.withLock r l' := by
  unfold World.withLock
  congr 1
  refine Array.ext_getElem? fun i => ?_
  rw [Array.getElem?_modify, Array.getElem?_modify, Array.getElem?_modify]
  split
  · rw [Option.map_map]
    rfl
  · rfl

theorem lockSoon_alone : (lockSoonSteps t r).alone = lockSoon t r := by
  unfold lockSoonSteps lockSoon askToOwn
  rw [alone_bind, alone_chancy, bind_assoc]
  funext w
  cases hx : w.refs[r]? with
  | none => rw [refAt_bind_of_none hx, refAt_bind_of_none hx]
  | some x =>
    rw [refAt_bind_of_some hx, refAt_bind_of_some hx]
    cases x.lock.acquire true t with
    | held l => rfl
    | waits l k =>
      -- the call gets in line and gives up at once
      refine (refAt_bind_of_some (refs_withLock hx l) _).trans ?_
      have hsignal : ∀ again w', (afterAWhile t r (some again)).alone w' =
          .error (if again then .blocked else .retry) w' := by
        intro again w'
        cases again <;> rfl
      exact (hsignal _ _).trans (congrArg _ (withLock_withLock w r l _))

theorem releaseEnsured_alone : (releaseEnsuredSteps t r).alone = releaseEnsured t r := by
  unfold releaseEnsuredSteps releaseEnsured
  simp only [alone_bind, alone_atom, alone_ite, alone_done, unlockShared_alone]

theorem win_alone : (winSteps t r).alone = rival? t r >>= fun
    | none => pure true
    | some other => barge t other := by
  unfold winSteps
  refine bind_congr fun other => ?_
  cases other with
  | none => rfl
  | some other => exact alone_atom _

theorem takeOwnership_alone : (takeOwnershipSteps t r).alone = takeOwnership t r := by
  unfold takeOwnershipSteps takeOwnership
  simp only [alone_bind', alone_atom, alone_ite, releaseEnsured_alone, lockSoon_alone, unlock_alone,
    win_alone, bind_assoc]
  refine bind_congr fun _ => bind_congr fun _ => bind_congr fun b => ?_
  split
  · rfl
  · refine bind_congr fun other => ?_
    cases other with
    | none => simp [markOwner]
    | some other =>
      refine bind_congr fun won => ?_
      cases won <;> simp [markOwner, surrender]

theorem read_alone : (readSteps t r).alone = read t r := by
  unfold readSteps read
  simp only [alone_bind', alone_atom]
  refine bind_congr fun _ => bind_congr fun x => ?_
  cases x.values.lookup r with
  | some v => rfl
  | none =>
    simp only [alone_bind', alone_atom, lock_alone, unlock_alone]
    refine bind_congr fun _ => bind_congr fun ref => bind_congr fun _ => ?_
    split
    · rw [alone_atom]
    · cases ref.valueBefore? x.readPoint with
      | some v => rfl
      | none => exact alone_atom _

theorem write_alone (v : Value) : (writeSteps t r v).alone = write t r v := by
  unfold writeSteps write
  simp only [claimSteps, alone_bind', alone_bind, alone_atom, alone_ite, alone_done,
    takeOwnership_alone]
  refine bind_congr fun _ => bind_congr fun x => ?_
  cases x.sets.contains r <;> simp

theorem commute_alone (f args : Value) :
    (commuteSteps call t r f args).alone = commute call t r f args := by
  unfold commuteSteps commute fetchSteps
  simp only [alone_bind', alone_atom]
  refine bind_congr fun _ => bind_congr fun x => ?_
  cases x.values.lookup r
  · simp [lockShared_alone, unlockShared_alone]
  · simp

theorem ensure_alone : (ensureSteps t r).alone = ensure t r := by
  unfold ensureSteps ensure
  simp only [alone_bind', alone_atom]
  refine bind_congr fun _ => bind_congr fun x => ?_
  cases x.ensures.contains r
  · simp only [Bool.false_eq_true, if_false, Bool.not_false, if_true, alone_bind', alone_atom,
      lockShared_alone]
    refine bind_congr fun _ => bind_congr fun b => ?_
    cases b
    · simp only [Bool.false_eq_true, if_false, alone_bind', alone_atom, isTaken, bind_assoc]
      refine bind_congr fun y => ?_
      cases y.owner with
      | none => simp only [pure_bind, Bool.false_eq_true, if_false, alone_atom]
      | some i =>
        simp only [bind_assoc, pure_bind]
        refine bind_congr fun s => ?_
        cases s.isLive <;> exact alone_atom _
    · rfl
  · rfl

theorem lockForCommit_alone : (lockForCommitSteps t r).alone = lockForCommit t r := by
  unfold lockForCommitSteps lockForCommit
  rw [alone_bind, lockSoon_alone, alone_atom]

theorem recompute_alone :
    (recomputeSteps call t r changes).alone = (do
      match ← rival? t r with
      | none => pure ()
      | some other => if !(← barge t other) then throw .retry
      let latest := (← refAt r).current
      remember t r (← lift (changes.foldlM (fun v (f, args) => change call f args v) latest))) := by
  unfold recomputeSteps
  rw [alone_bind', win_alone, bind_assoc]
  refine bind_congr fun other => ?_
  cases other with
  | none => simp only [pure_bind, if_true, alone_bind', alone_atom]
  | some other =>
    refine bind_congr fun won => ?_
    cases won
    · rfl
    · simp only [if_true, alone_bind', alone_atom, Bool.not_true, Bool.false_eq_true, if_false]

theorem reapply_alone : (reapplySteps call t r changes).alone = reapply call t r changes := by
  unfold reapplySteps reapply recheckSteps
  simp only [alone_bind', alone_atom, releaseEnsured_alone, lockForCommit_alone, recompute_alone]
  refine bind_congr fun x => bind_congr fun _ => bind_congr fun _ => ?_
  cases x.ensures.contains r
  · rfl
  · simp only [if_true, alone_bind, alone_atom, bind_assoc]
    refine bind_congr fun b => ?_
    cases b <;> rfl

theorem commit_alone : (commitSteps call t).alone = commit call t := by
  unfold commitSteps commit
  simp only [alone_bind', alone_atom]
  refine bind_congr fun x => ?_
  cases x.self with
  | none => exact alone_atom _
  | some i =>
    simp only [alone_bind', alone_atom, beginCommit, bind_assoc]
    refine bind_congr fun s => ?_
    split
    · simp only [bind_assoc, pure_bind, if_true, alone_bind', alone_atom]
      refine bind_congr fun _ => bind_congr fun x => ?_
      rw [← alone_each (f := reapplyUntakenSteps call t x.sets) fun c => ?_]
      · rw [← alone_each (f := lockForCommitSteps t) fun r => by rw [lockForCommit_alone]]
        refine bind_congr fun _ => bind_congr fun _ => bind_congr fun y => ?_
        rw [← alone_each (f := validateSteps call) fun c => ?_]
        · refine bind_congr fun _ => bind_congr fun point => ?_
          rw [← alone_each fun c => by rw [alone_atom]]
          rfl
        · rw [validateSteps, alone_bind, alone_atom, bind_assoc]
          simp only [alone_atom]
      · rw [reapplyUntakenSteps]
        cases x.sets.contains c.1
        · simp [reapply_alone]
        · rfl
    · rfl

theorem finish_alone (committed : Bool) : (finishSteps t committed).alone = finish t committed := by
  unfold finishSteps finish
  simp only [alone_bind', alone_atom]
  refine bind_congr fun x => ?_
  rw [← alone_each (f := unlockSteps t) fun r => by rw [unlock_alone],
    ← alone_each (f := unlockSharedSteps t) fun r => by rw [unlockShared_alone]]

theorem deref_alone : (derefSteps t r).alone = deref t r := by
  unfold derefSteps deref
  simp only [alone_bind', alone_atom, alone_ite, alone_pure, read_alone, lockShared_alone,
    unlockShared_alone]

theorem alter_alone (f args : Value) :
    (alterSteps call t r f args).alone = alter call t r f args := by
  unfold alterSteps alter
  simp only [alone_bind', alone_atom, read_alone, write_alone]

/-- Taken alone, the steps of a request are the request. -/
theorem ask_alone (q : Request) : (askSteps call t q).alone = ask call t q.ref q.name q.args := by
  obtain ⟨r, name, args⟩ := q
  unfold askSteps
  dsimp only
  split
  · exact deref_alone t r
  · simp only [alone_bind', alone_atom, write_alone]
    rfl
  · exact alter_alone call t r _ _
  · simp only [alone_bind', alone_atom, commute_alone]
    rfl
  · simp only [alone_bind', alone_atom, ensure_alone]
    exact (bind_assoc (requireTransaction t) _ _).symm
  · simp only [glanceSteps, alone_bind', alone_atom, lockShared_alone, unlockShared_alone]
    rfl
  · simp only [alone_bind', alone_atom, lock_alone, unlock_alone]
    refine Eq.trans ?_ (bind_assoc (lock t r) _ _).symm
    refine bind_congr fun _ => ?_
    exact (bind_assoc (updateRef r Ref.trim) _ _).symm
  · simp only [glanceSteps, alone_bind', alone_atom, lockShared_alone, unlockShared_alone]
    rfl
  · simp only [alone_bind', alone_atom, deref_alone]
    refine Eq.trans ?_ (bind_assoc (deref t r) _ _).symm
    refine bind_congr fun v => ?_
    exact (bind_assoc (validate call _ v) _ _).symm
  · exact alone_atom _

end HostedLisp.Stm
