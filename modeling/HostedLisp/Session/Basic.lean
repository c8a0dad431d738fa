import HostedLisp.Session.Cell

/-!
# Sessions and threads

A session holds everything that has a state. Operations that fail keep what they have changed.

Each thread has a stack of frames. A frame binds vars to boxes; frames on top of it share its boxes
unless they bind a var anew.

- `Session`: the cells by address, the namespaces by name, the counters.
- `SessionM`: operations on a session.
- `SessionM.alloc`, `SessionM.fetch`, `SessionM.store`: cells.
- `SessionM.currentFrame`: the frame of the thread that runs.
- `SessionM.boxOf?`: the box that a var is bound to.
- `SessionM.deref`: the value of a var.
- `SessionM.onThread`: run something on a thread of its own.
-/

namespace HostedLisp

/-- Everything that has a state. -/
structure Session where
  cells : Array Cell := #[]
  namespaces : List (String × Address) := []
  /-- The number given out last for a generated name. -/
  lastId : Nat := 0
  /-- The number of labels made so far. -/
  labels : Nat := 0
  /-- The number of kinds of things that writers know to write. -/
  writableKinds : Nat := 0
  /-- What the shared empty set holds. -/
  emptySet : Value.Table := .empty
  /-- The thread that runs. -/
  thread : Nat := 0
  /-- The number of threads started so far. -/
  threads : Nat := 0
  /-- The binding frame of each thread that has one. -/
  frames : List (Nat × Address) := []
  /-- The texts printed so far. -/
  output : Array String := #[]
  deriving Inhabited

/-- Operations on a session. -/
abbrev SessionM := EStateM Error Session

namespace SessionM

/-- An operation that changes nothing. -/
def lift {α : Type} (r : Except Error α) : SessionM α :=
  match r with
  | .ok a => return a
  | .error e => throw e

/-- Make a cell. -/
def alloc (c : Cell) : SessionM Address := do
  let s ← get
  set { s with cells := s.cells.push c }
  return s.cells.size

/-- Make a cell and refer to it. -/
def allocRef (c : Cell) : SessionM Value := do return .ref (← alloc c)

/-- The cell at an address. -/
def fetch (a : Address) : SessionM Cell := do
  match (← get).cells[a]? with
  | some c => return c
  | none => fault .attribute

/-- The cell that a value refers to. -/
def cell? (v : Value) : SessionM (Option Cell) := do
  match v with
  | .ref a => return some (← fetch a)
  | _ => return none

/-- What an address holds, where it has to be of one kind. -/
def contentAt {α : Type} (kind : Cell → Option α) (a : Address) : SessionM α := do
  match kind (← fetch a) with
  | some x => return x
  | none => fault .attribute

/-- The same for a value that refers to it, with the address. -/
def contentOf {α : Type} (kind : Cell → Option α) (v : Value) : SessionM (Address × α) := do
  match v with
  | .ref a => return (a, ← contentAt kind a)
  | _ => fault .attribute

/-- A whole number. -/
def intOf (v : Value) : SessionM Int := do
  match v.asInt? with
  | some n => return n
  | none => fault .type

/-- A plain text. -/
def plainText (v : Value) : SessionM String := do
  match v with
  | .str s => return s
  | _ => fault .type

/-- Change the cell at an address. -/
def store (a : Address) (c : Cell) : SessionM Unit :=
  modify fun s => { s with cells := s.cells.setIfInBounds a c }

/-- Put something into a box. -/
def fillBox (box v : Value) : SessionM Unit := do
  let (a, _) ← contentOf (fun
    | .box v => some v
    | _ => none) box
  store a (.box v)

/-- A fresh number for a generated name. -/
def nextId : SessionM Nat := do
  let s ← get
  set { s with lastId := s.lastId + 1 }
  return s.lastId + 1

def newLabel (name : String) : SessionM Machine.Label := do
  let s ← get
  set { s with labels := s.labels + 1 }
  return { id := s.labels, name := name, hashable := false }

def print (text : String) : SessionM Unit := modify fun s => { s with output := s.output.push text }

def printLine (line : String) : SessionM Unit := print (line ++ "\n")

/-! ## Threads and their bindings -/

/-- The frame of the thread that runs; a new thread starts with an empty one. -/
def currentFrame : SessionM Address := do
  let s ← get
  match s.frames.lookup s.thread with
  | some a => return a
  | none =>
    let a ← alloc (.frame {})
    modify fun s => { s with frames := (s.thread, a) :: s.frames }
    return a

def setFrame (a : Address) : SessionM Unit :=
  modify fun s =>
    { s with frames := (s.thread, a) :: s.frames.filter fun (t, _) => t ≠ s.thread }

def frameAt : Address → SessionM Frame := contentAt fun
  | .frame f => some f
  | _ => none

def varAt : Address → SessionM Var := contentAt fun
  | .var v => some v
  | _ => none

/-- The box that a var is bound to on this thread. -/
def boxOf? (a : Address) : SessionM (Option Address) := do
  if (← varAt a).threadBound then
    return (← frameAt (← currentFrame)).bindings.lookup a
  else return none

/-- The value of a var: that of its box, or else its root. -/
def deref (a : Address) : SessionM Value := do
  match ← boxOf? a with
  | none => return (← varAt a).root
  | some b =>
    match ← fetch b with
    | .threadBox _ v => return v
    | _ => fault .attribute

/-- Run something on a thread of its own. -/
def onThread {α : Type} (x : SessionM α) : SessionM α := do
  let outer := (← get).thread
  modify fun s => { s with thread := s.threads + 1, threads := s.threads + 1 }
  let r ← tryCatch (do return Except.ok (ε := Error) (← x)) fun e => return .error e
  modify fun s => { s with thread := outer }
  lift r

end SessionM

end HostedLisp
