import HostedLisp.Collection.Vectors

/-!
# Operations on maps

Trees of values under a comparator. The nodes of the tree are the entries of the map.

Hash maps, sorted maps and array maps. An array map lists keys and values in turn; looking a key up
in one never finds it, so binding a key always adds to it.

- `Comparator.order`: what a tree has to know of a comparator.
- `Value.treeInsert`, `Value.treeInsertNew`, `Value.treeErase`: adding and removing keys.
- `Value.treeEntry`, `Value.treeGet`: looking keys up.
- `Value.treeFrom`: walking a map in either direction from a key.
- `Value.assoc`, `Value.without`: binding and removing keys.
- `Value.valAt`, `Value.entryAt`, `Value.containsKey`: looking keys up.
- `Value.addBinding`: adding an entry, a pair or all entries of a sequence.
-/

namespace HostedLisp

open Coll

variable [Identity] [Orders]

/-! ## Sorted maps -/

/-- What a tree has to know of a comparator. -/
def Comparator.order (c : Comparator) : TreeOrder Error Value :=
  { compare := c.compare
    accessor := fun _ => .method
    invariantViolation := .signal .unsupportedOperation "Invariant violation"
    missingNode := .fault .attribute }

namespace Value

/-- A tree as a value; the empty tree is nil. -/
def ofTree : Tree Value Value → Value
  | .empty => .nil
  | t => .treeNode t

/-- The tree that a value stands for. -/
def tree? : Value → Option (Tree Value Value)
  | .nil => some .empty
  | .treeNode t => some t
  | _ => none

/-- A node without a value binds its key to nil. -/
def ofSlot (v : Value) : Option Value := if v.isNil then none else some v

/-- Whether a node holds the same value already. -/
def sameSlot (a b : Option Value) : Bool := Identity.is (a.getD .nil) (b.getD .nil)

/-- One more or one less than a count, which has to be a number. -/
def countPlus (count : Value) (n : Int) : Except Error Value := add count (.int n)

variable (c : Comparator) (t : Tree Value Value)

/-- Bind a key in a sorted map. The key stored first is kept. -/
def treeInsert (count info key val : Value) : Except Error Value := do
  match ← t.insert? c.order key (ofSlot val) with
  | .added t => return .treeMap c t.blacken (← countPlus count 1) info
  | .present _ old =>
    if sameSlot old (ofSlot val) then return .treeMap c t count info
    else return .treeMap c (← t.replace c.order key (ofSlot val)) count info

def treeInsertNew (count info key val : Value) : Except Error Value := do
  match ← t.insert? c.order key (ofSlot val) with
  | .added t => return .treeMap c t.blacken (← countPlus count 1) info
  -- the failure for a key that is there already names something undefined
  | .present .. => fault .name

def treeErase (count info key : Value) : Except Error Value := do
  match ← t.remove c.order key with
  | .absent => return .treeMap c t count info
  | .removed .empty => return .treeMap c .empty (.int 0) info
  | .removed t => return .treeMap c t.blacken (← countPlus count (-1)) info

/-- The node of a key, nil if there is none. -/
def treeEntry (key : Value) : Except Error Value := do
  return ofTree (← t.find? c.order key)

/-- The value of a key, or a default. -/
def treeGet (key default : Value) : Except Error Value := do
  match ← t.find? c.order key with
  | .node _ _ _ v _ _ => return v.getD .nil
  | .empty => return default

/-- The nodes from a key on. -/
def treeFrom (count key : Value) (ascending : Bool) : Except Error Value := do
  if ← less (.int 0) count then
    match ← t.stackFrom c.order key ascending [] with
    | [] => return .nil
    | stack => return .treeSeq stack ascending (-1) .nil
  else return .nil

/-- The key of a node, nil if there is none. -/
def treeKey : Tree Value Value → Value
  | .node _ _ k _ _ _ => k
  | .empty => .nil

end Value

namespace Value

/-! ## Array maps -/

/-- The longest array that an array map still adds to. -/
def arrayMapLimit : Nat := 16

/-- The search for a key: it looks past the end of an array that is too short, and finds nothing in
a longer one. -/
def arrayMapSearch (items : List Value) : Except Error Unit :=
  if items.length < 2 then fault .index else return ()

/-- Bind a key in an array map. The result holds the new array as its only item. -/
def arrayMapInsert (items : List Value) (fixed : Bool) (key val : Value) : Except Error Value := do
  arrayMapSearch items
  if items.length > arrayMapLimit then fault .recursion
  else if fixed then fault .attribute
  else return .arrayMap [.array (items ++ [key, val])] true .nil

/-- The number of bindings of an array. -/
def pairCount (n : Int) : Value := .float (Float.ofInt n / 2.0)

/-- The entries of an array of keys and values, and the failure that a key without a value
ends them with. -/
def arrayEntries : List Value → List Value × Option Error
  | [] => ([], none)
  | [_] => ([], some (.fault .index))
  | k :: v :: rest =>
    let (es, e) := arrayEntries rest
    (.entry k v :: es, e)

/-! ## All maps -/

/-- What is no map is not asked for keys. The kinds of vectors leave the question to their heirs. -/
def refusesKeys {α : Type} : Value → Except Error α
  | .vector .. => throw (.abstractIn "PersistentVector")
  | .subvector .. => throw (.abstractIn "SubVec")
  | .entry .. => throw (.abstractIn "MapEntry")
  | _ => fault .attribute

/-- Bind a key, or replace the item of a vector. -/
def assoc (m key val : Value) : Except Error Value :=
  match m with
  | .hashMap t info => do return .hashMap (← tableInsert t key val) info
  | .arrayMap items fixed _ => arrayMapInsert items fixed key val
  | .treeMap c t count info => treeInsert c t count info key val
  | .vector .. => assocN m key val
  | _ => m.refusesKeys

def without (m key : Value) : Except Error Value :=
  match m with
  | .hashMap t info => do return .hashMap (← tableErase t key) info
  | .arrayMap items _ _ => do
    arrayMapSearch items
    return m
  | .treeMap c t count info => treeErase c t count info key
  | _ => fault .attribute

/-- The value of a key, or a default. -/
def valAt (m key default : Value) : Except Error Value :=
  match m with
  | .hashMap t _ => do return (← tableGet? t key).getD default
  | .arrayMap items _ _ => do
    arrayMapSearch items
    return default
  | .treeMap c t _ _ => treeGet c t key default
  | _ => m.refusesKeys

/-- The entry of a key, nil if there is none. Among hash maps, an entry whose value is nil is not
told from a missing one, nor is the entry of nil. -/
def entryAt (m key default : Value) : Except Error Value :=
  match m with
  | .hashMap t _ => do
    if t.root.isSome then
      let _ ← key.hash
    match t.findInNodes? keying key with
    | .error e => throw (trieError e)
    | .ok found =>
      match found.getD default with
      | .nil => return .nil
      | v => return .entry key v
  | .arrayMap items _ _ => do
    arrayMapSearch items
    return .nil
  | .treeMap c t _ _ => treeEntry c t key
  | _ => m.refusesKeys

def containsKey (m key : Value) : Except Error Bool :=
  match m with
  | .hashMap t _ => do return (← tableGet? t key).isSome
  | .arrayMap items _ _ => do
    arrayMapSearch items
    return false
  | .treeMap c t _ _ => do return !(← treeEntry c t key).isNil
  | _ => m.refusesKeys

def addEntries (m : Value) : List Value → Except Error Value
  | [] => return m
  | e :: rest => do
    let (k, v) ← entryOf e
    addEntries (← assoc m k v) rest

/-- Add an entry, a pair, or all entries of a collection to a map. -/
def addBinding (m x : Value) : Except Error Value :=
  match x with
  | .entry k v => assoc m k v
  | .vector .. | .subvector .. => do
    if (← x.indexedLen) = 2 then assoc m (← nth x 0) (← nth x 1)
    else throw (.signal .invalidArgument "Vector arg to map conj must be a pair")
  | x => do addEntries m (← walk (← seqMethod x)).toList

/-- The bindings of a map as a dictionary; a later key replaces an equal earlier one. -/
def toDict (m : Value) : Except Error Value := do
  let entries ← (← walk (← seqMethod m)).toList.mapM entryOf
  let pairs ← entries.foldlM (fun (acc : List (Value × Value)) (k, v) => do
    let _ ← k.hash
    if (← pairFind? eq k acc).isSome then
      acc.mapM fun (j, w) => do return if ← eq j k then (j, v) else (j, w)
    else return acc ++ [(k, v)]) []
  return .dict pairs

/-- The hash of an array map, mixed from the hashes of its keys and values in turn. -/
def arrayMapHash (items : List Value) : Except Error Int := do
  let (entries, failure) := arrayEntries items
  let h ← entries.foldlM (fun h e => do
    let (k, v) ← entryOf e
    let hk ← if k.isNil then pure 0 else k.hash
    let hv ← if v.isNil then pure 0 else v.hash
    return xorInt (h + hk) hv) 0
  match failure with
  | none => return h
  | some e => throw e

end Value

end HostedLisp
