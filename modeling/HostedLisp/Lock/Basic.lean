/-!
# Shared locks

A lock that one thread holds exclusively or many hold together. A thread may hold it several times
and in both ways; who cannot have it waits in line.

- `SharedLock`: who holds a lock and who waits for it.
- `SharedLock.acquire`, `SharedLock.acquireShared`: asking for a lock.
- `SharedLock.release?`, `SharedLock.releaseShared?`: giving a hold back.
- `SharedLock.giveUp`: what a thread leaves behind that has waited long enough.
- `SharedLock.invariant?`: the check that holders and waiters fit together.
- `SharedLock.text`: a printable description.
-/

namespace HostedLisp

/-- A thread in line, with the ticket of the call that waits and the shared holds it will be
given. -/
structure Waiting (α : Type) where
  thread : α
  ticket : Nat
  shared : Int
  deriving DecidableEq, Repr, Inhabited

/-- Who holds a lock and who waits for it. Waiting threads are in the order of their arrival. -/
structure SharedLock (α : Type) where
  owner : Option α := none
  /-- How many times the owner holds the lock. -/
  depth : Int := 0
  /-- Who holds the lock together with others, and how many times. -/
  users : List (α × Int) := []
  waitingOwners : List (Waiting α) := []
  waitingUsers : List (Waiting α) := []
  /-- The number of tickets given out. -/
  tickets : Nat := 0
  deriving Repr, Inhabited

namespace SharedLock

variable {α : Type} [DecidableEq α] (ownerFirst : Bool) (l : SharedLock α) (t : α)

/-- Whether somebody holds the lock exclusively. -/
def hasOwner : Bool := l.owner.isSome

/-- Whether somebody holds the lock together with others. -/
def hasUsers : Bool := !l.users.isEmpty

/-- Whether somebody waits to own the lock. -/
def hasWaitingOwners : Bool := !l.waitingOwners.isEmpty

/-- Whether somebody waits to share the lock. -/
def hasWaitingUsers : Bool := !l.waitingUsers.isEmpty

def sharedDepth? : Option Int := l.users.lookup t

def setShared (n : Int) : SharedLock α :=
  { l with users :=
      if (l.users.lookup t).isSome then l.users.map fun (u, k) => if u = t then (u, n) else (u, k)
      else l.users ++ [(t, n)] }

def dropShared : SharedLock α := { l with users := l.users.filter fun (u, _) => u ≠ t }

/-! ## Letting waiting threads in -/

/-- Everybody who waits to share the lock gets it. -/
def letInUsers : SharedLock α :=
  l.waitingUsers.foldl (fun l w => l.setShared w.thread w.shared) { l with waitingUsers := [] }

/-- The first of those who wait to own the lock gets it, and the shared holds it had before. -/
def letInOwner (w : Waiting α) (rest : List (Waiting α)) : SharedLock α :=
  let l := { l with owner := some w.thread, depth := 1, waitingOwners := rest }
  if w.shared > 0 then l.setShared w.thread w.shared else l

/-- Let in who may go on after a hold was given back. Where an owner and users both could, the coin
`ownerFirst` decides. -/
def letIn : SharedLock α :=
  if l.hasOwner then l
  else
    match l.waitingOwners with
    | [] => l.letInUsers
    | w :: rest =>
      if l.hasUsers then l
      else if l.waitingUsers.isEmpty || ownerFirst then l.letInOwner w rest
      else l.letInUsers

/-! ## Asking for the lock -/

/-- What became of asking: the lock is held, or the call waits with a ticket. -/
inductive Attempt (α : Type) where
  | held (l : SharedLock α)
  | waits (l : SharedLock α) (ticket : Nat)

def queueOwner (shared : Int) : SharedLock α :=
  { l with
    waitingOwners := l.waitingOwners ++ [⟨t, l.tickets, shared⟩]
    tickets := l.tickets + 1 }

def queueUser : SharedLock α :=
  { l with
    waitingUsers := l.waitingUsers ++ [⟨t, l.tickets, 1⟩]
    tickets := l.tickets + 1 }

/-- Ask to own the lock. A thread that shares it with others gives its shared holds away while it
waits. -/
def acquire : Attempt α :=
  if l.owner = some t then .held { l with depth := l.depth + 1 }
  else
    match l.sharedDepth? t with
    | some n =>
      if l.users.map (·.1) = [t] && !l.hasWaitingUsers && !l.hasWaitingOwners then
        .held { l with owner := some t, depth := 1 }
      else .waits (((l.dropShared t).queueOwner t n).letIn ownerFirst) l.tickets
    | none =>
      if !l.hasOwner && !l.hasUsers then .held { l with owner := some t, depth := 1 }
      else .waits (l.queueOwner t 0) l.tickets

/-- Ask to share the lock. Nobody new gets in before those who wait to own it. -/
def acquireShared : Attempt α :=
  match l.sharedDepth? t with
  | some n => .held (l.setShared t (n + 1))
  | none =>
    if l.owner = some t then .held (l.setShared t 1)
    else if !l.hasOwner && !l.hasWaitingOwners then .held (l.setShared t 1)
    else .waits (l.queueUser t) l.tickets

/-! ## Giving it back -/

/-- Give back one exclusive hold; `none` if the thread has none. -/
def release? : Option (SharedLock α) :=
  if l.owner = some t then
    let l := { l with depth := l.depth - 1 }
    if l.depth > 0 then some l else some ({ l with owner := none }.letIn ownerFirst)
  else none

/-- Give back one shared hold; `none` if the thread has none. -/
def releaseShared? : Option (SharedLock α) :=
  match l.sharedDepth? t with
  | none => none
  | some n =>
    if n - 1 > 0 then some (l.setShared t (n - 1))
    else some ((l.dropShared t).letIn ownerFirst)

/-! ## Waiting -/

/-- Whether the call with a ticket still waits. -/
def isWaiting (ticket : Nat) : Bool :=
  l.waitingUsers.any (·.ticket = ticket) || l.waitingOwners.any (·.ticket = ticket)

/-- Take a call out of the line. The answer tells whether it has to go on waiting for the shared
holds that the thread had before. -/
def giveUp (ticket : Nat) : SharedLock α × Bool :=
  if l.waitingUsers.any (·.ticket = ticket) then
    ({ l with waitingUsers := l.waitingUsers.filter (·.ticket ≠ ticket) }.letIn ownerFirst, false)
  else
    match l.waitingOwners.find? (·.ticket = ticket) with
    | none => (l, false)
    | some w =>
      let l := { l with waitingOwners := l.waitingOwners.filter (·.ticket ≠ ticket) }
      if w.shared > 0 then
        if l.hasOwner then
          ({ l with waitingUsers := l.waitingUsers ++ [w] }.letIn ownerFirst, true)
        else ((l.setShared w.thread w.shared).letIn ownerFirst, false)
      else (l.letIn ownerFirst, false)

/-! ## The invariant -/

/-- The threads in line, those who wait to share the lock first. -/
def waitingThreads : List α := l.waitingUsers.map (·.thread) ++ l.waitingOwners.map (·.thread)

/-- Whether two neighbours are the same. -/
def hasTwins : List α → Bool
  | x :: y :: rest => x = y || hasTwins (y :: rest)
  | _ => false

/-- The check that holders and waiters fit together. The last part looks for a thread that waits
twice by sorting; threads without an `order` cannot be sorted, which is no answer. -/
def invariant? (order : Option (α → α → Bool)) (l : SharedLock α) : Option Bool :=
  if l.hasOwner && l.hasUsers && l.users.map (·.1) ≠ l.owner.toList then some false
  else if !l.hasOwner && !l.hasUsers then some (!l.hasWaitingOwners && !l.hasWaitingUsers)
  else if l.hasOwner && l.depth ≤ 0 || !l.hasOwner && l.depth > 0 then some false
  else if l.users.any fun (_, n) => n ≤ 0 then some false
  else if !l.hasOwner && !l.hasWaitingOwners && l.hasWaitingUsers then some false
  else
    match l.waitingThreads, order with
    | [], _ | [_], _ => some true
    | _, none => none
    | ts, some le => some (!hasTwins (ts.mergeSort le))

/-! ## Printing -/

/-- A thread and a number. -/
def entryText (name : α → String) (t : α) (n : Int) : String :=
  name t ++ ":" ++ (if n < 0 then "-" ++ Nat.repr n.natAbs else Nat.repr n.natAbs)

/-- A printable description: owner and waiting owners, users and waiting users. -/
def text (name : α → String) (l : SharedLock α) : String :=
  let owner := match l.owner with
    | some t => entryText name t l.depth
    | none => ""
  let line (ws : List (Waiting α)) :=
    ", ".intercalate (ws.map fun w => entryText name w.thread w.shared)
  let users := (l.users.map fun (t, n) => entryText name t n).mergeSort fun a b => a ≤ b
  "SharedLock(Ex:[" ++ owner ++ "] (" ++ line l.waitingOwners ++ "), Sh:[" ++ ", ".intercalate users
    ++ "] (" ++ line l.waitingUsers ++ "))"

end SharedLock

end HostedLisp
