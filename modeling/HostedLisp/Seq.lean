import HostedLisp.Error
import HostedLisp.Value

/-!
# Sequences

Walking collections item by item. A step is `first` and `next`; `next` answers nil at the end.

- `Value.seq`: the sequence of a collection, nil when it has no items.
- `Value.first`, `Value.next`: one step.
- `Value.walk`, `Value.items`: all items, by stepping to the end.
- `Value.len`, `Value.nth`, `Value.itemAt`: sizes and positions.
-/

namespace HostedLisp.Value

open Coll

/-- Metadata is nil when there is none. -/
def isNil : Value → Bool
  | nil => true
  | _ => false

def isEmptyList : Value → Bool
  | .emptyList _ => true
  | _ => false

def vectorOf (xs : List Value) : Value := .vector (.ofList xs) .nil

def listOf (xs : List Value) : Value :=
  (xs.foldr (fun x (rest, n) => (.list .plain x rest (n + 1) .nil, n + 1))
    ((.nil, 0) : Value × Int)).1 |> fun
    | .nil => .emptyList .nil
    | l => l

/-- A string of one character. -/
def char (c : Char) : Value := .str c.toString

/-- A string of code points, kept as text if none of them is a surrogate. -/
def ofCodes (codes : List Nat) : Value :=
  if codes.any (fun n => 0xd800 ≤ n && n ≤ 0xdfff) then .wide codes
  else .str (String.ofList (codes.map Char.ofNat))

def codes? : Value → Option (List Nat)
  | .str s | .numeral s => some (s.toList.map Char.toNat)
  | .wide codes => some codes
  | _ => none

/-- A count; a negative one is a bad value. -/
def checkedLen (n : Int) : Except Error Int :=
  if n < 0 then fault .value else return n

/-- Pick an item of an array, counting from the end for a negative index. -/
def arrayItem (xs : List Value) (i : Int) : Except Error Value :=
  let k := if i < 0 then i + xs.length else i
  if k < 0 then fault .index
  else match xs[k.toNat]? with
    | some x => return x
    | none => fault .index

/-- The item of a vector at an index, from the front only. -/
def nth : Value → Int → Except Error Value
  | .vector v _, i =>
    if i < 0 then throw .outOfBounds
    else match v.get? i.toNat with
      | some x => return x
      | none => throw .outOfBounds
  | .subvector base start stop _, i =>
    if i < 0 ∨ start + i ≥ stop then throw .outOfBounds else nth base (start + i)
  | .entry .., _ => throw (.abstractIn "MapEntry")
  | _, _ => fault .attribute

/-- The key and the value of an entry of a map. -/
def entryOf : Value → Except Error (Value × Value)
  | .entry k v => return (k, v)
  -- the value of a tree node is not reachable this way
  | .treeNode (.node _ _ k _ _ _) => return (k, .nil)
  | _ => fault .attribute

/-- The number of items of the sources that indexed sequences walk. -/
def indexedLen : Value → Except Error Int
  | .vector v _ => return v.count
  | .subvector _ start stop _ => checkedLen (stop - start)
  | .entry .. => return 2
  | .str s | .numeral s => return s.length
  | .wide codes => return codes.length
  | .bytes b => return b.length
  | .tuple xs | .array xs => return xs.length
  | .dict kvs => return kvs.length
  | .emptyList _ => return 0
  | .list _ _ _ n _ => checkedLen n
  | _ => fault .type

def indexedItem (source : Value) (i : Int) : Except Error Value :=
  match source with
  | .vector .. | .subvector .. => nth source i
  | .entry k v => if i = 0 then return k else if i = 1 then return v else throw .outOfBounds
  | .tuple xs | .array xs => arrayItem xs i
  | .str s | .numeral s => arrayItem (s.toList.map char) i
  | .wide codes => arrayItem (codes.map fun c => ofCodes [c]) i
  | .bytes b => arrayItem (b.map fun n : Nat => .int n) i
  | _ => fault .type

/-- The sequence of the bindings of a hash table. -/
def tableSeq (m : HashMap Value Value) : Value :=
  let dense := match m.root with
    | some (.array ..) => true
    | _ => false
  let rest := match m.nodeEntries with
    | [] => nil
    | es => .trieSeq dense es .nil
  match m.nilValue with
  | some v => .cons (.entry .nil v) rest .nil
  | none => rest

def keysOf : Value → Value
  | .nil => .nil
  | s => .keySeq s .nil

def valsOf : Value → Value
  | .nil => .nil
  | s => .valSeq s .nil

/-- The sequence of a tree map, from either end. -/
def treeSeqOf (tree : Tree Value Value) (ascending : Bool) (count : Value) : Except Error Value :=
  match count with
  | .int n =>
    if n > 0 then
      return .treeSeq (tree.pushEdge ascending []) ascending n .nil
    else return .nil
  | _ => fault .type

/-- The sequence that a collection gives of itself. -/
def seqMethod : Value → Except Error Value
  | s@(.list ..) | s@(.cons ..) | s@(.indexSeq ..) | s@(.keySeq ..) | s@(.valSeq ..)
  | s@(.trieSeq ..) | s@(.treeSeq ..) | s@(.arraySeq ..) => return s
  | .emptyList _ => return .nil
  | .entry k v => return .indexSeq (vectorOf [k, v]) 0
  | v@(.vector ..) | v@(.subvector ..) => do
    if (← indexedLen v) = 0 then return .nil else return .indexSeq v 0
  | .hashMap m _ => return tableSeq m
  | .hashSet m _ => return keysOf (tableSeq m)
  -- the sequence of an array map is asked for with one argument too few
  | .arrayMap .. => fault .index
  | .treeMap _ tree count _ => treeSeqOf tree true count
  | _ => fault .attribute

/-- A class without sequences was asked for one. -/
def notSeqable (v : Value) : Error :=
  .signal .protocol ("clojure.protocolsseq not extended to handle: " ++ match v with
    | .ref _ => ""
    | v => v.className.shown)

/-- The kinds of values that have sequences. -/
def isSeqable : Value → Bool
  | .nil | .str _ | .wide _ | .tuple _ | .array _ | .list .. | .emptyList _ | .cons .. | .vector ..
  | .subvector .. | .entry .. | .hashMap .. | .hashSet .. | .arrayMap .. | .treeMap ..
  | .indexSeq ..
  | .keySeq .. | .valSeq .. | .trieSeq .. | .treeSeq .. | .arraySeq .. => true
  | _ => false

/-- The sequence of any value that has one. Sorted maps are not taken up by the sequence protocol:
they only have their own method. -/
def seq (v : Value) : Except Error Value :=
  match v with
  | .nil => return .nil
  | .treeMap .. => throw (.abstractIn "PersistentTreeMap")
  | .str _ | .wide _ | .tuple _ | .array _ => do
    if (← indexedLen v) = 0 then return .nil else return .indexSeq v 0
  | _ => if v.isSeqable then seqMethod v else throw v.notSeqable

def first : Value → Except Error Value
  | .list _ x _ _ _ | .cons x _ _ => return x
  | .emptyList _ => return .nil
  | .indexSeq source i => indexedItem source i
  | .keySeq s _ => do return (← entryOf (← first s)).1
  | .valSeq s _ => do return (← entryOf (← first s)).2
  | .trieSeq _ ((k, v) :: _) _ => return .entry k v
  | .treeSeq (t :: _) _ _ _ => return .treeNode t
  | .arraySeq items i _ => do return .entry (← arrayItem items i) (← arrayItem items (i + 1))
  | _ => fault .attribute

/-- The sequence after the first item; nil at the end. -/
def next : Value → Except Error Value
  | .list _ _ rest n _ => return if n = 1 then .nil else rest
  | .emptyList _ => return .nil
  | .cons _ .nil _ => return .nil
  | .cons _ rest _ => seqMethod rest
  | .indexSeq source i => do
    if i ≥ (← indexedLen source) - 1 then return .nil else return .indexSeq source (i + 1)
  | .keySeq s _ => do return keysOf (← next s)
  | .valSeq s _ => do return valsOf (← next s)
  | .trieSeq _ [_] _ => return .nil
  | .trieSeq dense (_ :: rest) _ => return .trieSeq dense rest .nil
  | .treeSeq stack ascending n _ =>
    match Tree.advance ascending stack with
    | [] => return .nil
    | stack => return .treeSeq stack ascending (n - 1) .nil
  | .arraySeq .. => fault .index
  | _ => fault .type

/-- More steps than any stream has. -/
def walkLimit : Nat := 10000000000

/-- How many steps walking a sequence can take, or the sequence of a collection. -/
def extent : Value → Nat
  | .list _ _ rest _ _ | .cons _ rest _ => extent rest + 1
  | .indexSeq source i => max 1 ((indexedLen source).toOption.getD 0 - i).toNat
  | .keySeq s _ | .valSeq s _ => extent s
  | .trieSeq _ es _ => es.length
  | .treeSeq stack ascending _ _ => Tree.allAhead ascending stack
  | .vector v _ => v.count
  | .subvector _ start stop _ => (stop - start).toNat
  | .entry .. => 2
  | .hashMap m _ | .hashSet m _ => m.nodeEntries.length + 1
  | .treeMap _ tree _ _ => tree.size
  | _ => 0

/-- All items of a sequence by stepping, gathered in an array. -/
def walkInto (acc : Array Value) : (fuel : Nat) → Value → Except Error (Array Value)
  | _, .nil => return acc
  | 0, _ => fault .recursion
  | fuel + 1, s => do
    let x ← first s
    walkInto (acc.push x) fuel (← next s)

def walk (s : Value) : Except Error (Array Value) := walkInto #[] (extent s + 1) s

/-- The items of a collection in the order of its sequence. -/
def items (v : Value) : Except Error (List Value) := do
  match v with
  | .vector xs _ => return xs.toList
  | .treeMap .. => return (← walk (← seqMethod v)).toList
  | _ => return (← walk (← seq v)).toList

/-- The number of items, for the kinds of values that know it. -/
def len (v : Value) : Except Error Int :=
  match v with
  | .cons .. => do return (← walk v).size
  | .indexSeq source i => do checkedLen ((← indexedLen source) - i)
  | .hashMap m _ | .hashSet m _ => checkedLen m.count
  | .arrayMap .. => throw (.abstractIn "PersistentArrayMap")
  | .treeMap .. => throw (.abstractIn "PersistentTreeMap")
  | .arraySeq .. => throw (.abstractIn "Seq")
  | _ => indexedLen v

end HostedLisp.Value
