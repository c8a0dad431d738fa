import HostedLisp.Equality

/-!
# Stack effects and stack size

How many values an operation pops and pushes.

The greatest height that the stack of a piece of code reaches, found by following every path. The
stack is kept as one count for each open block, the innermost first. A label that is reached twice
must be reached with the same stack.

- `Opcode.effect`: the effect of an operation with a whole number for its argument.
- `Code.effect`: the effect of an operation with any argument.
- `Code.labelPlaces`: where the labels stand.
- `Code.nextStacks`: where an instruction can go on, and with which stack.
- `Code.stackSize`: the greatest height.
-/

namespace HostedLisp

namespace Machine.Opcode

/-- The effect of a call: the function, positional arguments in the low byte, pairs of keyword
arguments in the high byte, and `extra` more. -/
def callEffect (arg : Int) (extra : Int) : Option (Int × Int) :=
  if arg > 0xFFFF then none
  else some (extra + 1 + arg % 256 + 2 * (arg / 256 % 256), 1)

/-- How many values an operation pops and pushes, with a whole number for its argument. Operations
that do not simply go on to the next one have no effect in this sense. -/
def effect (o : Opcode) (arg : Int) : Option (Int × Int) :=
  match o.fixedEffect with
  | some (pop, push) => some (pop, push)
  | none =>
    match o with
    | callFunction => callEffect arg 0
    | callFunctionVar | callFunctionKw => callEffect arg 1
    | callFunctionVarKw => callEffect arg 2
    | buildTuple | buildList | buildSlice => some (arg, 1)
    | unpackSequence => some (1, arg)
    | dupTopx => some (arg, arg * 2)
    | raiseVarargs | makeFunction => some (1 + arg, 1)
    | makeClosure => some (2 + arg, 1)
    | _ => none

/-- Operations whose effect needs a number for an argument. -/
def countsArgument : Opcode → Bool
  | callFunction | callFunctionVar | callFunctionKw | callFunctionVarKw | buildTuple | buildList
  | buildSlice | unpackSequence | dupTopx | raiseVarargs | makeFunction | makeClosure => true
  | _ => false

/-- Operations that may go on elsewhere than at the next one. -/
def hasFlow (o : Opcode) : Bool := o.fixedEffect.isNone && (!o.countsArgument || o == dupTopx)

end Machine.Opcode

namespace Code

open Machine

/-- The effect of an operation with any argument. -/
def effect (o : Opcode) (arg : Value) : Except Error (Int × Int) :=
  match o.fixedEffect with
  | some (pop, push) => return (pop, push)
  | none =>
    match arg with
    | .nil => fault .value
    | arg =>
      if o.countsArgument then
        match arg.asInt? with
        | none => fault .type
        | some n =>
          match o.effect n with
          | some e => return e
          | none => fault .value
      else fault .value

/-- The counts of the open blocks, the innermost first. -/
abbrev Stack := List Int

/-- Where the labels stand; of two with the same name the later one counts. -/
abbrev Places := List (String × Nat)

/-- Where the labels stand. Only hashable labels can be looked up. -/
def labelPlacesFrom (pos : Nat) (acc : Places) : List (Instr Value) → Except Error Places
  | [] => return acc
  | i :: rest =>
    match i.op with
    | .label l =>
      if l.hashable then labelPlacesFrom (pos + 1) ((l.name, pos) :: acc) rest
      else fault .type
    | _ => labelPlacesFrom (pos + 1) acc rest

def labelPlaces (code : List (Instr Value)) : Except Error Places := labelPlacesFrom 0 [] code

/-- Where the label given as an argument stands. -/
def place (places : Places) (arg : Value) : Except Error Nat := do
  let _ ← arg.hash
  match arg with
  | .label l =>
    match places.lookup l.name with
    | some p => return p
    | none => fault .key
  | _ => fault .key

/-- The places that blocks with a final part lead to. -/
def finalPlaces (places : Places) : List (Instr Value) → Except Error (List Nat)
  | [] => return []
  | i :: rest => do
    match i.op with
    | .code .setupFinally =>
      let p ← place places i.arg
      return p :: (← finalPlaces places rest)
    | _ => finalPlaces places rest

/-- Add to the count of the innermost block, which cannot fall below zero. -/
def grow (stack : Stack) (n : Int) : Except Error Stack :=
  match stack with
  | [] => fault .index
  | top :: rest => if top + n < 0 then fault .value else return (top + n) :: rest

/-- Where an operation can go on, and with which stack. -/
def nextStacks (places : Places) (pos : Nat) (o : Opcode) (arg : Value) (stack : Stack) :
    Except Error (List (Nat × Stack)) := do
  match o with
  | .stopCode | .returnValue | .raiseVarargs => return []
  | .jumpForward | .jumpAbsolute => return [(← place places arg, stack)]
  | .popJumpIfFalse | .popJumpIfTrue =>
    let p ← place places arg
    let s ← grow stack (-1)
    return [(p, s), (pos + 1, s)]
  | .jumpIfTrueOrPop | .jumpIfFalseOrPop =>
    let p ← place places arg
    return [(p, stack), (pos + 1, ← grow stack (-1))]
  | .forIter =>
    let p ← place places arg
    return [(p, ← grow stack (-1)), (pos + 1, ← grow stack 1)]
  | .breakLoop => return []
  | .continueLoop => return [(← place places arg, stack.tail)]
  | .setupLoop => return [(← place places arg, stack), (pos + 1, 0 :: stack)]
  | .setupExcept =>
    let p ← place places arg
    return [(p, ← grow stack 3), (pos + 1, 0 :: stack)]
  | .setupFinally =>
    let p ← place places arg
    return [(p, ← grow stack 1), (pos + 1, 0 :: stack)]
  | .popBlock => return [(pos + 1, stack.tail)]
  | .endFinally => return [(pos + 1, ← grow stack (-3))]
  | .withCleanup => return [(pos + 1, ← grow stack (-1))]
  | o =>
    if o.hasFlow then fault .assertion
    else
      let (pop, push) ← effect o arg
      return [(pos + 1, ← grow stack (push - pop))]

/-- The sum of all counts. -/
def height (stack : Stack) : Int := stack.foldl (· + ·) 0

/-- Follow every path from the open positions, the one opened last first. `seen` holds the stacks
that labels were reached with. -/
def explore (code : Array (Instr Value)) (places : Places) (finals : List Nat) :
    (fuel : Nat) → (seen : List (Nat × Stack)) → (best : Int) → List (Nat × Stack) →
    Except Error Int
  | 0, _, best, _ => return best
  | _ + 1, _, best, [] => return best
  | fuel + 1, seen, best, (pos, stack) :: rest => do
    let best := max best (height stack)
    match code[pos]? with
    | none => fault .index
    | some i =>
      match i.op with
      | .label _ =>
        let stack ← if finals.contains pos then
            match stack with
            | [] => fault .index
            | top :: below => pure ((top + 2) :: below)
          else pure stack
        match seen.lookup pos with
        | some old =>
          if old = stack then explore code places finals fuel seen best rest
          else fault .value
        | none =>
          explore code places finals fuel ((pos, stack) :: seen) best ((pos + 1, stack) :: rest)
      | .lineMarker => explore code places finals fuel seen best ((pos + 1, stack) :: rest)
      | .global .. => fault .type
      | .code o =>
        let next ← nextStacks places pos o i.arg stack
        explore code places finals fuel seen best (next.reverse ++ rest)

def stackSize (code : List (Instr Value)) : Except Error Int := do
  let places ← labelPlaces code
  let finals ← finalPlaces places code
  -- each instruction is opened once, and once more for each jump to it
  explore code.toArray places finals (4 * code.length + 8) [] 0 [(0, [0])]

end Code

end HostedLisp
