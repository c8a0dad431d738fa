import HostedLisp.Collection.Maps
import HostedLisp.Printing

/-!
# Sequences and collections of any kind

- `Value.more`, `Value.hashSum`: what sequences offer besides `first` and `next`.
- `Value.conj`, `Value.pop`, `Value.peek`: adding to, dropping from and looking at the end of a
  collection where it is cheap.
- `Value.isMember`, `Value.iterate`: membership and enumeration.
- `Value.subscript`: the item of a collection under an index or a key.
- `Value.mapFromArgs`: a map from keys and values in turn, or from one indexed collection of them.
- `Value.setWithCheck`: a set from distinct elements.
-/

namespace HostedLisp.Value

open Coll

/-- Make a list that has an item in front. -/
def consList (x rest : Value) : Value :=
  match rest with
  | .list _ _ _ n info => .list .plain x rest (n + 1) info
  | .emptyList info => .list .plain x .nil 1 info
  | _ => .list .plain x .nil 1 .nil

/-- What follows the first item, as a sequence that may be empty. -/
def more (s : Value) : Except Error Value :=
  match s with
  | .emptyList _ => return s
  | .cons _ .nil _ => return .emptyList .nil
  | .cons _ rest _ => return rest
  | s => do
    match ← next s with
    | .nil => return .emptyList .nil
    | r => return r

/-- The hash of a sequence by its items. -/
def hashSum (s : Value) : Except Error Int := do
  let hs ← (← walk s).toList.mapM hash
  return hs.foldl (fun h x => 31 * h + x) 1

/-- Add an item in the manner of the collection: vectors at the end, lists and sequences in front,
maps and sets by key. -/
def conj (coll x : Value) : Except Error Value :=
  match coll with
  | .vector .. | .subvector .. | .entry .. => push coll x
  | .list .. | .emptyList _ => return consList x coll
  | .cons .. | .indexSeq .. | .keySeq .. | .valSeq .. | .trieSeq .. | .treeSeq .. | .arraySeq .. =>
    return .cons x coll .nil
  | .hashMap .. | .arrayMap .. | .treeMap .. => addBinding coll x
  | .hashSet m info => do return .hashSet (← setInsert m x) info
  | _ => fault .attribute

/-- Remove an element of a set. -/
def disjoin (s x : Value) : Except Error Value :=
  match s with
  | .hashSet m info => do
    match ← tableGet? m x with
    | none => return s
    | some _ => return .hashSet (← tableErase m x) info
  | _ => fault .attribute

/-- The item that `pop` would drop. -/
def peek (coll : Value) : Except Error Value :=
  match coll with
  | .vector .. | .subvector .. | .entry .. => peekLast coll
  | .list _ x _ _ _ => return x
  | .emptyList _ => return .nil
  | _ => fault .attribute

/-- Drop the item at the cheap end. -/
def pop (coll : Value) : Except Error Value :=
  match coll with
  | .vector .. | .subvector .. | .entry .. => popLast coll
  | .list .bare _ .nil _ _ => fault .attribute
  | .list _ _ .nil _ info => return .emptyList info
  | .list _ _ rest _ _ => return rest
  | .emptyList _ => throw (.signal .illegalState "Can't pop an empty list")
  | _ => fault .attribute

/-- The keys of a map in the order of its sequence. -/
def keyList (m : Value) : Except Error (List Value) := do
  (← walk (← seqMethod m)).toList.mapM fun e => do return (← entryOf e).1

/-- Whether an item is in a collection: a key of a map, an element of a set, an item of a sequence,
a part of a string, a place of an entry. -/
def isMember (coll x : Value) : Except Error Bool :=
  match coll with
  | .hashMap .. | .arrayMap .. | .treeMap .. => containsKey coll x
  | .hashSet m _ => do return (← tableGet? m x).isSome
  | .dict pairs => do
    let _ ← x.hash
    return (← pairFind? eq x pairs).isSome
  | .tuple xs | .array xs => memberOf eq x xs
  | .entry .. => do if ← eq x (.int 0) then return true else eq x (.int 1)
  | .vector .. | .subvector .. | .list .. | .cons .. | .indexSeq .. | .keySeq .. | .valSeq ..
  | .trieSeq .. | .treeSeq .. | .arraySeq .. => do memberOf eq x (← coll.items)
  | .str _ | .wide _ | .numeral _ =>
    match x.codes?, coll.codes? with
    | some part, some whole => return isRunOf part whole
    | _, _ => fault .type
  | .bytes b =>
    match x with
    | .bytes part => return isRunOf part b
    | x =>
      match x.asInt? with
      | some n => if 0 ≤ n ∧ n < 256 then return b.contains n.toNat else fault .value
      | none => fault .type
  | _ => fault .type

/-- The items of a collection one after the other: the keys of maps and dictionaries. -/
def iterate (coll : Value) : Except Error (List Value) :=
  match coll with
  | .vector .. | .subvector .. => coll.items
  | .list .. | .cons .. | .indexSeq .. | .keySeq .. | .valSeq .. | .trieSeq .. | .treeSeq .. => do
    return (← walk coll).toList
  -- asking for the size comes first
  | .arraySeq .. => throw (.abstractIn "Seq")
  | .arrayMap .. => throw (.abstractIn "PersistentArrayMap")
  | .treeMap .. => throw (.abstractIn "PersistentTreeMap")
  | .entry .. => throw (.abstractIn "MapEntry")
  | .hashMap .. => do
    let _ ← coll.len
    keyList coll
  | .tuple xs | .array xs => return xs
  | .dict pairs => return pairs.map (·.1)
  | .str s | .numeral s => return s.toList.map char
  | .wide codes => return codes.map fun c => ofCodes [c]
  | .bytes b => return b.map fun n : Nat => .int n
  | _ => fault .type

/-! ## Building collections -/

/-- An index must be an integer. -/
def asIndex (i : Value) : Except Error Int :=
  match i.asInt? with
  | some n => return n
  | none => fault .type

/-- The item of a sequence at a position, nil past its end. -/
def seqItem (s i : Value) : Except Error Value := do
  let xs ← walk s
  let hit := xs.toList.zipIdx.find? fun (_, k) => match i.asNumber? with
    | some n => Number.eq (.exact (k : Nat)) n
    | none => false
  return (hit.map (·.1)).getD .nil

/-- The item of a collection under an index or a key. -/
def subscript (v i : Value) : Except Error Value :=
  match v with
  | .vector .. | .subvector .. => nthAt v i none
  | .entry k w => do
    if ← eq i (.int 0) then return k
    else if ← eq i (.int 1) then return w
    else throw .outOfBounds
  | .list .. | .cons .. | .indexSeq .. | .keySeq .. | .valSeq .. | .trieSeq .. | .treeSeq ..
  | .arraySeq .. => seqItem v i
  | .hashMap m _ | .hashSet m _ => do return (← tableGet? m i).getD .nil
  | .arrayMap .. | .treeMap .. => valAt v i .nil
  | .str _ | .wide _ | .numeral _ | .bytes _ | .tuple _ | .array _ => do
    indexedItem v (← asIndex i)
  | .dict pairs => do
    let _ ← i.hash
    match ← pairFind? eq i pairs with
    | some w => return w
    | none => fault .key
  | _ => fault .type

/-- The collections that know their size and have items by position or key. -/
def isIndexable : Value → Bool
  | .vector .. | .subvector .. | .entry .. | .list .. | .cons .. | .indexSeq .. | .arraySeq ..
  | .hashMap .. | .hashSet .. | .arrayMap .. | .treeMap .. | .str _ | .wide _ | .numeral _
  | .bytes _
  | .tuple _ | .array _ | .dict _ => true
  | _ => false

/-- Bind the items of a collection pairwise, up to its size. -/
def bindPairs (source : Value) (size : Nat) (m : Table) : (fuel i : Nat) → Except Error Table
  | 0, _ => return m
  | fuel + 1, i => do
    if i < size then
      let k ← subscript source (.int i)
      let v ← subscript source (.int (i + 1))
      bindPairs source size (← tableInsert m k v) fuel (i + 2)
    else return m

/-- Bind the items of a list pairwise; a key without a value is missing its partner. -/
def bindArgs (m : Table) : List Value → Except Error Table
  | [] => return m
  | [_] => fault .index
  | k :: v :: rest => do bindArgs (← tableInsert m k v) rest

/-- The table of the keys and values given in turn. A single indexed collection stands for its
items. -/
def tableFromArgs (start : Table) (args : List Value) : Except Error Table := do
  match args with
  | [.dict pairs] =>
    pairs.foldlM (fun m (k, v) => do
      if (← tableGet? m k).isSome then throw (.signal .invalidArgument "Duplicate key")
      else tableInsert m k v) start
  | [only] =>
    if only.isIndexable then
      let n ← only.len
      bindPairs only n.toNat start (n.toNat + 1) 0
    else bindArgs start [only]
  | args => bindArgs start args

/-- The map of the keys and values given in turn. -/
def mapFromArgs (args : List Value) : Except Error Value := do
  return .hashMap (← tableFromArgs .empty args) .nil

/-- Add elements that must be distinct, where `i` are in already. -/
def insertDistinct (view : Viewer) (m : Table) (i : Nat) : List Value → Except Error Table
  | [] => return m
  | x :: rest => do
    let m ← setInsert m x
    if m.count < 0 then fault .value
    else if m.count ≠ (i : Int) + 1 then
      throw (.signal .illegalArgument ("Duplicate key: " ++ (← x.shown view)))
    else insertDistinct view m (i + 1) rest

/-- The set of distinct elements. -/
def setWithCheck (view : Viewer) (start : Table) (xs : List Value) : Except Error Value := do
  return .hashSet (← insertDistinct view start 0 xs) .nil

end HostedLisp.Value
