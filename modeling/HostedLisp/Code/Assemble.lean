import HostedLisp.Code.StackSize
import HostedLisp.Printing
import HostedLisp.Collection.Vectors

/-!
# Code units

Turning code into octets and a table of lines. The result cannot be handed to the machine, so
loading always fails; how far it gets tells what is wrong with the code.

- `Code.listing`: a piece of code as a table with a line for each operation.
- `Code.pairText`: an instruction as it prints itself.
- `Code.lineStarts`: the offsets at which lines start, read from a line table.
- `Code.flags`: the flags of a code unit.
- `Code.lineSteps`: the entries of the line table for one line marker.
- `Code.assemble`: the octets and the line table.
- `Code.load`: the failure that loading ends with.
- `Code.Record`: the parts that are kept of a function whose code is empty.
- `Code.ofRecord`: the code unit that they describe.
- `Code.lineTable`: the places where lines start, from a table written as text.
-/

namespace HostedLisp.Code

open Machine

/-! ## Listings -/

def padLeft (width : Nat) (s : String) : String :=
  String.ofList (List.replicate (width - s.length) ' ') ++ s

def padRight (width : Nat) (s : String) : String :=
  s ++ String.ofList (List.replicate (width - s.length) ' ')

/-- The numbers of the operations that labels stand before. -/
def labelTargets (pos : Nat) (pending : List Label) (acc : Places) :
    List (Instr Value) → Except Error Places
  | [] => return acc
  | i :: rest => do
    match i.op with
    | .label l => labelTargets (pos + 1) (l :: pending) acc rest
    | .lineMarker => labelTargets (pos + 1) pending acc rest
    | _ =>
      if pending.all (·.hashable) then
        labelTargets (pos + 1) [] (pending.foldl (fun acc l => (l.name, pos) :: acc) acc) rest
      else fault .type

def argumentText (view : Viewer) (targets : Places) (o : Opcode) (arg : Value) :
    Except Error String := do
  match o.operand with
  | .constant => arg.inspect view
  | .jump =>
    let _ ← arg.hash
    match arg with
    | .label l =>
      match targets.lookup l.name with
      | some n => return "to " ++ Nat.repr n
      | none => arg.inspect view
    | _ => arg.inspect view
  | .none => return ""
  | _ => arg.shown view

def listingFrom (view : Viewer) (targets : Places) (pos : Nat) (line : Option Value)
    (label : Bool) : List (Instr Value) → Except Error String
  | [] => return ""
  | i :: rest => do
    match i.op with
    | .lineMarker => return "\n" ++ (← listingFrom view targets (pos + 1) (some i.arg) label rest)
    | .label _ => listingFrom view targets (pos + 1) line true rest
    | .global .. => fault .type
    | .code o =>
      let lineText ← match line with
        | none | some .nil => pure ""
        | some n => n.shown view
      let arg ← argumentText view targets o i.arg
      return padLeft 3 lineText ++ "     " ++ padLeft 2 (if label then ">>" else "") ++ " "
        ++ padLeft 4 (Nat.repr pos) ++ " " ++ padRight 20 o.name ++ " " ++ arg ++ "\n"
        ++ (← listingFrom view targets (pos + 1) none false rest)

/-- A piece of code as a table. -/
def listing (view : Viewer) (code : List (Instr Value)) : Except Error String := do
  listingFrom view (← labelTargets 0 [] [] code) 0 none false code

/-- An instruction as it prints itself. -/
def pairText (view : Viewer) (i : Instr Value) : Except Error String := do
  let op ← match i.op with
    | .code o => pure o.name
    | .lineMarker => pure "SetLineno"
    | .label l => (Value.label l).inspect view
    | .global ns name => pure ("GblPtr<" ++ ns ++ "/" ++ name ++ ">")
  let arg ← i.arg.inspect view
  match i.op, i.pairing with
  | .global .., _ => return op
  | _, .pair => return "(" ++ op ++ ", " ++ arg ++ ")"
  | _, .list => return "[" ++ op ++ ", " ++ arg ++ "]"

/-- The offsets at which lines start: a table holds steps of octets and lines in turn. -/
def lineStarts (offset : Nat) (line : Int) : List Nat → List (Nat × Int)
  | b :: l :: rest =>
    if b = 0 then lineStarts offset (line + l) rest
    else (offset, line) :: lineStarts (offset + b) (line + l) rest
  | _ => [(offset, line)]

/-! ## Assembling -/

def operations (code : List (Instr Value)) : List Opcode :=
  code.filterMap fun i => match i.op with
    | .code o => some o
    | _ => none

variable (nested : CodeUnit Value → Error) (u : CodeUnit Value)

/-- The flags of a code unit: fast locals, new locals, rest arguments, keyword arguments, generator,
no shared variables. -/
def flags : Int :=
  let ops := operations u.instrs
  let bit (b : Bool) (n : Int) : Int := if b then n else 0
  let byName (o : Opcode) : Bool := o == .storeName || o == .loadName || o == .deleteName
  bit (!ops.any byName) 1 + bit u.newlocals 2 + bit u.varargs 4 + bit u.varkwargs 8
    + bit (ops.contains .yieldValue) 32 + bit (!ops.any fun o => o.operand == .free) 64

/-- The comparison operators, by their numbers. -/
def comparisons : List String := ["<", "<=", "==", "!=", ">", ">="]

/-- The number of an item in a table, which is added if it is missing. -/
def indexIn (same : Value → Value → Bool) (table : Array Value) (x : Value) : Array Value × Nat :=
  match table.findIdx? (same · x) with
  | some i => (table, i)
  | none => (table.push x, table.size)

def octet (n : Int) : Except Error Nat :=
  if 0 ≤ n ∧ n ≤ 255 then return n.toNat else fault .overflow

/-- The entries of the line table for a step over `bytes` octets and `lines` lines. -/
def lineSteps (bytes lines : Int) : Except Error (List Nat) := do
  if bytes = 0 ∧ lines = 0 then return [0, 0]
  else
    let wide := if bytes > 255 then (bytes - 1) / 255 else 0
    let bytes := bytes - 255 * wide
    let start := (List.replicate wide.toNat [255, 0]).flatten
    let tall := if lines > 255 then (lines - 1) / 255 else 0
    let lines := lines - 255 * tall
    let first ← if tall > 0 then do pure [← octet bytes, 255] else pure []
    let middle := first ++ (List.replicate (tall.toNat - 1) [0, 255]).flatten
    let bytes := if tall > 0 then 0 else bytes
    let last ← if bytes ≠ 0 ∨ lines ≠ 0 then do pure [← octet bytes, ← octet lines] else pure []
    return start ++ middle ++ last

/-- Code on its way to octets. -/
structure Assembly where
  octets : Array Nat := #[]
  lineTable : Array Nat := #[]
  lastLine : Int
  lastPlace : Nat := 0
  consts : Array Value
  names : Array Value := #[]
  locals : Array Value
  cells : Array Value
  /-- Where jumps stand and what they jump to. -/
  jumps : List (Nat × Value) := []
  labels : Places := []

def Assembly.emit (a : Assembly) (o : Opcode) (arg : Value) : Except Error Assembly := do
  -- the argument must be comparable with numbers before the operation itself is written
  let large ← Value.less (.int 0xFFFF) arg
  let bytes (n : Int) (shift : Nat) : Nat := (n / Int.ofNat (Nat.pow 2 shift) % 256).toNat
  let start ← if large then
      match arg.asInt? with
      | some n => pure (a.octets ++ #[144, bytes n 16, bytes n 24])
      | none => fault .type
    else pure a.octets
  let code ← octet o.number
  match arg.asInt? with
  | some n => return { a with octets := start ++ #[code, bytes n 0, bytes n 8] }
  | none => fault .type

/-- The shared variables that the code owns itself. -/
def ownCells : Except Error (List Value) := do
  let used ← u.instrs.filterMapM fun i => do
    match i.op with
    | .code o =>
      if o.operand == .free && !u.freevars.any (·.eqB i.arg) then
        let _ ← i.arg.hash
        return some i.arg
      else return none
    | _ => return none
  return used.foldl (fun acc x => if acc.any (·.eqB x) then acc else acc ++ [x]) []

/-- Assemble one instruction; `next` is the operation after it and `nested` the failure of loading
a nested code unit. -/
def step (ownCount : Nat) (a : Assembly) (i : Instr Value) (next : Option Op) :
    Except Error Assembly := do
  match i.op with
  | .label l => return { a with labels := (l.name, a.octets.size) :: a.labels }
  | .lineMarker =>
    let lines ← Value.sub i.arg (.int a.lastLine)
    match lines with
    | .int lines =>
      let steps ← lineSteps (Int.ofNat (a.octets.size - a.lastPlace)) lines
      return { a with
        lineTable := a.lineTable ++ steps.toArray
        lastLine := a.lastLine + lines
        lastPlace := a.octets.size }
    | _ => fault .type
  | .global .. => fault .type
  | .code o =>
    match o.operand with
    | .none => return { a with octets := a.octets.push (← octet o.number) }
    | .plain => a.emit o i.arg
    | .constant =>
      let makes := match next with
        | some (.code o) => o.makesFunction
        | _ => false
      match i.arg, makes with
      | .code inner, true => throw (nested inner)
      | arg, _ =>
        let (consts, n) := indexIn Value.same a.consts arg
        Assembly.emit { a with consts := consts } o (.int n)
    | .name =>
      let (names, n) := indexIn Value.eqB a.names i.arg
      Assembly.emit { a with names := names } o (.int n)
    | .jump =>
      Assembly.emit { a with jumps := a.jumps ++ [(a.octets.size, i.arg)] } o (.int 0)
    | .localVar =>
      let (locals, n) := indexIn Value.eqB a.locals i.arg
      Assembly.emit { a with locals := locals } o (.int n)
    | .comparison =>
      match comparisons.findIdx? fun c => Value.eqB (.str c) i.arg with
      | some n => a.emit o (.int n)
      | none => fault .index
    | .free =>
      match u.freevars.findIdx? fun x => x.eqB i.arg with
      | some n => a.emit o (.int (Int.ofNat (n + ownCount)))
      | none =>
        let (cells, n) := indexIn Value.eqB a.cells i.arg
        Assembly.emit { a with cells := cells } o (.int n)

def steps (ownCount : Nat) (a : Assembly) : List (Instr Value) → Except Error Assembly
  | [] => return a
  | i :: rest => do
    let a ← step nested u ownCount a i (rest.head?.map (·.op))
    steps ownCount a rest

/-- Assemble a code unit, given the failure of loading a nested one. -/
def assembleWith : Except Error Assembly := do
  let _ ← stackSize u.instrs
  let own ← ownCells u
  for x in u.args do
    let _ ← x.hash
  let start : Assembly :=
    { lastLine := u.firstLine
      consts := #[(u.docstring.map Value.str).getD .nil]
      locals := u.args.toArray
      cells := (u.args.filter fun x => own.any (·.eqB x)).toArray }
  let a ← steps nested u own.length start u.instrs
  -- every jump must lead somewhere
  for (_, target) in a.jumps do
    let _ ← place a.labels target
  return a

/-- The failure that loading a code unit ends with, with a bound on the nesting. -/
def loadFailure : (depth : Nat) → CodeUnit Value → Error
  | 0, _ => .fault .recursion
  | depth + 1, u =>
    match assembleWith (loadFailure depth) u with
    | .error e => e
    -- all went well, but the octets cannot be handed over
    | .ok _ => .fault .attribute

/-- The octets and the line table of a code unit. -/
def assemble : Except Error Assembly := assembleWith (loadFailure Value.depthLimit) u

/-- Loading a code unit fails: with what is wrong with it, or else because the octets cannot be
handed over. -/
def load {α : Type} (u : CodeUnit Value) : Except Error α := throw (loadFailure Value.depthLimit u)

/-! ## Code units from recorded parts -/

/-- What is kept of a function. -/
structure Record where
  consts : List Value
  varnames : List Value
  argcount : Int
  flags : Int
  freevars : List Value
  firstLine : Int
  name : String
  file : String

def hasFlag (flags : Int) (bit : Nat) : Bool := (flags >>> bit) % 2 == 1

/-- The unit that a record describes. The names of all arguments stand in front of the other names,
and a text in front of the constants is documentation. -/
def ofRecord (r : Record) : CodeUnit Value :=
  let varargs := hasFlag r.flags 2
  let varkwargs := hasFlag r.flags 3
  let count := r.argcount + (if varargs then 1 else 0) + (if varkwargs then 1 else 0)
  { instrs := []
    freevars := r.freevars
    args := ItemArray.run r.varnames 0 count
    varargs := varargs
    varkwargs := varkwargs
    newlocals := hasFlag r.flags 1
    name := r.name
    file := r.file
    firstLine := r.firstLine
    docstring := match r.consts with
      | .str s :: _ => some s
      | _ => none }

/-- The parts of a unit other than its code. -/
def parts (u : CodeUnit Value) : List Value := [
  .tuple u.freevars, .tuple u.args, .bool u.varargs, .bool u.varkwargs, .bool u.newlocals,
  .str u.name, .int u.firstLine, (u.docstring.map Value.str).getD .nil]

/-- The places where lines start. -/
def lineTable (table : String) (firstLine : Int) : Value :=
  .array ((lineStarts 0 firstLine (table.toList.map Char.toNat)).map fun (offset, line) =>
    .tuple [.int offset, .int line])

/-- The effect of an operation on the stack. -/
def effectOf (op arg : Value) : Except Error Value := do
  match op with
  | .opcode o =>
    let (pop, push) ← effect o arg
    return .tuple [.int pop, .int push]
  | op =>
    let _ ← op.hash
    fault .value

/-- Whether a value can stand for an operation: everything but a label and the line marker. -/
def isOperation : Value → Bool
  | .label _ | .lineMarker => false
  | _ => true

/-- Take compiled code apart. Code that was compiled elsewhere has a table of lines that cannot be
read. -/
def takeApart (v : Value) : Except Error Value :=
  match v with
  | .thing "builtins" "code" => fault .type
  | _ => fault .attribute

end HostedLisp.Code
