import HostedLisp.Reader.Read
import HostedLisp.Session.Namespaces
import HostedLisp.Session.Apply

/-!
# Reading in a session

- `Session.currentNamespace`: what the reader has to know of a namespace.
- `SessionM.runReader`: run a part of the reader.
- `SessionM.readString`: the first form of a text.
- `SessionM.readerTake`, `SessionM.readerBack`: a position in a text.
- `SessionM.streamNext`: the sequence of the characters of a stream, read on demand. Asking again
  gives the same sequence.
- `SessionM.movingNext`, `SessionM.movingBack`: a sequence that moves along another one.
-/

namespace HostedLisp

namespace Session

/-- Whom a name of a namespace belongs to. -/
def ownerOf (s : Session) (members : List (String × Value)) (ns name : String) : NameOwner :=
  let found := match members.lookup name with
    | some v => some v
    | none => objectMember? ns name
  match found with
  | none | some .nil => .nobody
  | some (.ref a) =>
    match s.cells[a]? with
    | some (.var v) =>
      match s.nameOf? v.ns with
      | some n => .namespace n
      | none => .foreign
    | _ => .foreign
  | some _ => .foreign

/-- What the reader has to know of a namespace. -/
def currentNamespace (s : Session) (ns : Value) : CurrentNamespace :=
  match ns with
  | .ref a =>
    match s.cells[a]? with
    | some (.namespace n) => .inside n.name (s.ownerOf n.members n.name)
    | _ => .none
  | .module n => .inside n (s.ownerOf ((hostModules.lookup n).getD []) n)
  | _ => .none

def readEnv (s : Session) (current : CurrentNamespace) : ReadEnv :=
  { current := current, view := s.view, emptySet := s.emptySet }

end Session

namespace SessionM

def runReader {α : Type} (current : CurrentNamespace) (st : ReadState) (x : ReadM α) :
    SessionM (α × ReadState) := do
  let s ← get
  match x.run (s.readEnv current) { st with lastId := s.lastId } with
  | .ok a st =>
    modify fun s => { s with lastId := st.lastId }
    return (a, st)
  | .error e st =>
    modify fun s => { s with lastId := st.lastId }
    throw e

/-- The first form of a text; nil if it has none. -/
def readString (current : CurrentNamespace) (text : String) : SessionM Value := do
  let (v, _) ← runReader current { cursor := .ofString text } Reader.next?
  return v.getD .nil

/-! ## Readers -/

def readerAt : Value → SessionM (Address × Cursor) := contentOf fun
  | .textReader c => some c
  | _ => none

/-- A character, or the empty text at the end. -/
def charOrEnd (c : Option Char) : Value := .str ((c.map Char.toString).getD "")

variable (v : Value)

def readerTake : SessionM Value := do
  let (a, c) ← readerAt v
  let (ch, c) := c.take
  store a (.textReader c)
  return charOrEnd ch

/-- The character that a reader took last. -/
def readerCurrent : SessionM Value := do
  let (_, c) ← readerAt v
  if c.pos = 0 && c.source.isEmpty then fault .index else return charOrEnd c.current?

def readerBack : SessionM Unit := do
  let (a, c) ← readerAt v
  match c.back? with
  | some c => store a (.textReader c)
  | none => throw (.signal .illegalAccess "")

/-! ## Streams -/

def streamAt : Value → SessionM (Address × StreamSeq) := contentOf fun
  | .streamSeq s => some s
  | _ => none

def readStream (a : Option Address) : SessionM (Option Char) := do
  match a with
  | none => fault .attribute
  | some a =>
    match ← fetch a with
    | .textStream (c :: rest) n =>
      store a (.textStream rest (n + 1))
      return some c
    | .textStream [] _ => return none
    | _ => fault .attribute

/-- The sequence of the characters of a text. -/
def openStream (text : String) : SessionM Value := do
  let stream ← alloc (.textStream text.toList 0)
  let c ← readStream (some stream)
  allocRef (.streamSeq
    { stream := some stream, line := .int 1, col := .int 1, current := charOrEnd c })

/-- The place after a character: a new line starts with its line feed. -/
def placeAfter (s : StreamSeq) (c : Char) : SessionM (Value × Value) := do
  if c = '\n' then return (← lift (s.line.add (.int 1)), .int 1)
  else return (s.line, ← lift (s.col.add (.int 1)))

/-- What follows in a stream sequence; nil at the end. -/
def streamNext : SessionM Value := do
  let (a, s) ← streamAt v
  match s.next with
  | some n => return .ref n
  | none =>
    match ← readStream s.stream with
    | none => return .nil
    | some c =>
      let (line, col) ← placeAfter s c
      let n ← alloc (.streamSeq
        { stream := s.stream, line := line, col := col, current := .char c })
      store a (.streamSeq { s with next := some n })
      return .ref n

/-- What follows in a stream sequence, put in the place of another one. -/
def streamReuse (v other : Value) : SessionM Value := do
  let (_, s) ← streamAt v
  match ← readStream s.stream with
  | none => return .nil
  | some c =>
    let (line, col) ← placeAfter s c
    let (a, _) ← streamAt other
    store a (.streamSeq { stream := s.stream, line := line, col := col, current := .char c })
    return other

/-- The number of characters read from the stream of a sequence. -/
def streamTold : SessionM Nat := do
  let (_, s) ← streamAt v
  match s.stream with
  | none => fault .attribute
  | some a =>
    match ← fetch a with
    | .textStream _ n => return n
    | _ => fault .attribute

def atLineStart : SessionM Bool := do
  let (_, s) ← streamAt v
  lift (s.col.eq (.int 1))

def atLineEnd : SessionM Bool := do
  match ← streamNext v with
  | .nil => return true
  | n => atLineStart n

/-- Whether a stream sequence is equal to something: to its character, or to any sequence of the
same stream. -/
def streamEq (v other : Value) : SessionM Bool := do
  let (a, s) ← streamAt v
  match other with
  | .nil => return false
  | .ref b =>
    if a = b then return true
    else
      let (_, t) ← streamAt other
      return s.stream.isSome && s.stream = t.stream
  | other =>
    match other.codes? with
    | some _ => lift (s.current.eq other)
    | none => fault .attribute

/-! ## Moving sequences -/

/-- The parts of a moving sequence. -/
def movingAt : Value → SessionM (Address × Value × Value) := contentOf fun
  | .movingSeq current previous => some (current, previous)
  | _ => none

def isStream : SessionM Bool := do
  match ← cell? v with
  | some (.streamSeq _) => return true
  | _ => return false

/-- Move a moving sequence along. Once it has moved, it reuses the place it comes from. -/
def movingNext : SessionM Value := do
  let (a, current, previous) ← movingAt v
  store a (.movingSeq current current)
  let n ← match previous with
    | .nil => if ← isStream current then streamNext current else lift current.next
    | previous => streamReuse current previous
  store a (.movingSeq n current)
  return n

/-- Let a moving sequence go back. -/
def movingBack : SessionM Unit := do
  let (a, _, previous) ← movingAt v
  match previous with
  | .nil => throw (.signal .invalidArgument "Can only go back once")
  | previous => store a (.movingSeq previous .nil)

/-! ## Stepping through sequences of any kind -/

def firstOf : SessionM Value := do
  match ← cell? v with
  | some (.streamSeq s) => return s.current
  | some (.textReader _) => readerCurrent v
  | some (.movingSeq current _) =>
    if ← isStream current then return (← streamAt current).2.current else lift current.first
  | some _ => fault .attribute
  | none => lift v.first

/-- The items of a stream or moving sequence to its end. -/
def walkStream (acc : Array Value) : (fuel : Nat) → Value → SessionM (Array Value)
  | 0, _ => fault .recursion
  | fuel + 1, v => do
    let x ← firstOf v
    let n ← match ← cell? v with
      | some (.movingSeq ..) => movingNext v
      | some _ => streamNext v
      | none => lift v.next
    match n with
    | .nil => return acc.push x
    | n => walkStream (acc.push x) fuel n

end SessionM

end HostedLisp
