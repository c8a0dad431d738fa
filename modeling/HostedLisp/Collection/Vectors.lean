import HostedLisp.Arith

/-!
# Arrays and vectors

A negative index counts from the end; the bounds of a run are moved into range.

Vectors, the slices of vectors, and entries, which are vectors of two.

- `ItemArray.run`, `ItemArray.splice`: a run of items, and putting other items in its place.
- `ItemArray.copyRun`, `ItemArray.setItem`, `ItemArray.removePair`: the array steps of hash tries.
- `Value.nthAt`: the item at an index given as a value.
- `Value.assocN`, `Value.push`, `Value.popLast`, `Value.peekLast`: replacing, adding and dropping.
- `Value.slice`: a slice; a slice of a slice refers to the vector underneath.
-/

namespace HostedLisp

open Coll

namespace ItemArray

/-- A bound of a run, moved into range. -/
def bound (n : Nat) (i : Int) : Nat :=
  if i < 0 then (i + n).toNat else Nat.min i.toNat n

/-- The items from `a` up to `b`. -/
def run (xs : List Value) (a b : Int) : List Value :=
  let a := bound xs.length a
  let b := bound xs.length b
  (xs.take b).drop a

/-- Put other items in the place of those from `a` up to `b`. -/
def splice (xs : List Value) (a b : Int) (ys : List Value) : List Value :=
  let a := bound xs.length a
  let b := Nat.max a (bound xs.length b)
  xs.take a ++ ys ++ xs.drop b

def setItem (xs : List Value) (i : Int) (x : Value) : Except Error (List Value) :=
  let k := if i < 0 then i + xs.length else i
  if k < 0 ∨ k ≥ xs.length then fault .index else return xs.set k.toNat x

/-- Put the items of `src` from `srcPos` up to `stop` in the place of those of `dest` from
`destPos` up to `stop`. -/
def copyRun (src : List Value) (srcPos : Int) (dest : List Value) (destPos stop : Int) :
    List Value := splice dest destPos stop (run src srcPos stop)

/-- Leave out the pair at place `i`. -/
def removePair (xs : List Value) (i : Int) : List Value :=
  run xs 0 (2 * i) ++ run xs (2 * (i + 1)) xs.length

/-- An array of nothing. -/
def blank (n : Int) : List Value := List.replicate n.toNat .nil

end ItemArray

namespace Value

def atMost (a b : Value) : Except Error Bool :=
  match a.asNumber?, b.asNumber? with
  | some x, some y => return x.lt y || x.eq y
  | _, _ => fault .type

/-- Whether a number is not negative and below a bound. -/
def isBelow (i : Value) (bound : Int) : Except Error Bool := do
  if ← atMost (.int 0) i then less i (.int bound) else return false

/-- What stands in for an item that is not there. -/
def orOutOfBounds (default : Option Value) : Except Error Value :=
  match default with
  | some d => return d
  | none => throw .outOfBounds

/-- The item of a vector at an index, or a default for an index outside. Slices take no default. -/
def nthAt : (v i : Value) → (default : Option Value) → Except Error Value
  | .vector xs info, i, default => do
    if ← isBelow i xs.count then
      match i.asInt? with
      | some k => nth (.vector xs info) k
      | none => fault .type
    else orOutOfBounds default
  | .subvector base start stop _, i, _ => do
    if ← less i (.int 0) then throw .outOfBounds
    else
      let k ← add (.int start) i
      if ← atMost (.int stop) k then throw .outOfBounds else nthAt base k none
  | .entry .., _, _ => throw (.abstractIn "MapEntry")
  | _, _, _ => fault .attribute

/-- The vector of the two parts of an entry. -/
def entryVector (key val : Value) : Value := vectorOf [key, val]

/-- Replace the item of a plain vector at an index, or append when the index is the count. -/
def vectorSet (xs : Vector Value) (info i x : Value) : Except Error Value := do
  if ← isBelow i xs.count then
    match i.asInt? with
    | some k =>
      match xs.set? k.toNat x with
      | some ys => return .vector ys info
      | none => throw .outOfBounds
    | none => fault .type
  else if ← eq i (.int xs.count) then return .vector (xs.push x) info
  else throw .outOfBounds

/-- Replace the item at an index of what a slice may stand on. -/
def baseSet (base i x : Value) : Except Error Value :=
  match base with
  | .vector xs info => vectorSet xs info i x
  | .entry k v => vectorSet (.ofList [k, v]) .nil i x
  | _ => fault .attribute

def push (v x : Value) : Except Error Value :=
  match v with
  | .vector xs info => return .vector (xs.push x) info
  | .subvector base start stop info => do
    return .subvector (← baseSet base (.int stop) x) start (stop + 1) info
  | .entry k w => return vectorOf [k, w, x]
  | _ => fault .attribute

/-- Replace the item at an index, or append when the index is the count. -/
def assocN (v i x : Value) : Except Error Value :=
  match v with
  | .subvector base start stop info => do
    if ← less i (.int 0) then throw .outOfBounds
    else
      let k ← add (.int start) i
      if ← less (.int stop) k then throw .outOfBounds
      else if ← eq k (.int stop) then push v x
      else return .subvector (← baseSet base k x) start stop info
  | _ => baseSet v i x

/-- Drop the last item. Dropping the second part of an entry leaves a vector. -/
def popLast (v : Value) : Except Error Value :=
  match v with
  | .vector xs info =>
    match xs.pop? with
    | some ys => return .vector ys info
    | none => throw (.signal .illegalState "Can't pop empty vector")
  | .subvector base start stop info =>
    if stop - 1 = start then return vectorOf [] else return .subvector base start (stop - 1) info
  | .entry k _ => return vectorOf [k]
  | _ => fault .attribute

/-- The last item, nil if there is none. -/
def peekLast (v : Value) : Except Error Value := do
  let n ← v.indexedLen
  if n = 0 then return .nil else nth v (n - 1)

/-- The block of items that an index falls into. -/
def blockAt (xs : Vector Value) (i : Value) : Except Error Value := do
  if ← isBelow i xs.count then
    if ← atMost (.int xs.tailStart) i then return .array xs.tail
    else match i.asInt? with
      | some k => return .array ((xs.block? k.toNat).getD [])
      | none => fault .type
  else throw .outOfBounds

/-- The items of a vector from `start` up to `stop`. A slice of a slice refers to the vector
underneath. -/
def sliceOf (info v : Value) (start stop : Int) : Value :=
  match v with
  | .subvector base offset _ _ => .subvector base (start + offset) (stop + offset) info
  | v => .subvector v start stop info

/-- A slice within bounds; an empty one is the empty vector. -/
def slice (v start stop : Value) : Except Error Value := do
  let outside : Error := .signal .general "Index out of range"
  if ← less stop start then throw outside
  else if ← less start (.int 0) then throw outside
  else if ← less (.int (← v.len)) stop then throw outside
  else if ← eq start stop then return vectorOf []
  else
    match start.asInt?, stop.asInt? with
    | some a, some b => return sliceOf .nil v a b
    | _, _ => fault .type

end Value

end HostedLisp
