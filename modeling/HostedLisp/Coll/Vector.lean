/-!
# Bit-partitioned vectors

A vector keeps its last (at most 32) items in a tail and the rest in a tree whose branches and
leaves are 32 wide, so that appending, replacing and dropping the last item touch one path only.

- `VectorNode`: a node of the tree; leaves hold items, branches hold the children present so far.
- `Vector`: count, depth of the tree, root and tail.
- `Vector.get?`, `push`, `set?`, `pop?`: the operations; `Vector.toList` is the view they are read
  through.
-/

namespace HostedLisp.Coll

/-- A node of the vector tree. Branches list only the children that exist, which fill from the
left. -/
inductive VectorNode (α : Type) where
  | leaf (items : List α)
  | branch (children : List (VectorNode α))

namespace VectorNode

variable {α : Type}

/-- Which child of a node at height `depth` leads to index `i`. -/
def slot (depth i : Nat) : Nat := (i >>> (5 * depth)) % 32

/-- The leaf that holds index `i`, below a node of the given height. -/
def leafFor : Nat → VectorNode α → Nat → Option (List α)
  | 0, leaf items, _ => some items
  | d + 1, branch children, i => (children[slot (d + 1) i]?).bind (leafFor d · i)
  | _, _, _ => none

/-- Replace the item at index `i`. -/
def set : Nat → VectorNode α → Nat → α → VectorNode α
  | 0, leaf items, i, a => leaf (items.set (i % 32) a)
  | d + 1, branch children, i, a =>
    branch (children.modify (slot (d + 1) i) fun child => set d child i a)
  | _, node, _, _ => node

/-- A path of single-child branches of height `depth` that leads to `node`. -/
def path : Nat → VectorNode α → VectorNode α
  | 0, node => node
  | d + 1, node => branch [path d node]

/-- Put `node` into place `k`, which is an existing child or the first free place. -/
def put (children : List (VectorNode α)) (k : Nat) (node : VectorNode α) : List (VectorNode α) :=
  if k < children.length then children.set k node else children ++ [node]

/-- Hang a full leaf under a branch of height `depth`, in a vector of `count` items. -/
def pushLeaf (count : Nat) : Nat → VectorNode α → VectorNode α → VectorNode α
  | 1, branch children, full => branch (put children (slot 1 (count - 1)) full)
  | d + 2, branch children, full =>
    let k := slot (d + 2) (count - 1)
    let child := match children[k]? with
      | some child => pushLeaf count (d + 1) child full
      | none => path (d + 1) full
    branch (put children k child)
  | _, node, _ => node

/-- Remove the rightmost leaf below a branch of height `depth`; `none` when nothing is left of
it. -/
def popLeaf (count : Nat) : Nat → VectorNode α → Option (VectorNode α)
  | 0, _ => none
  | 1, branch children =>
    let k := slot 1 (count - 2)
    if k = 0 then none else some (branch (children.take k))
  | d + 2, branch children =>
    let k := slot (d + 2) (count - 2)
    match (children[k]?).bind (popLeaf count (d + 1)) with
    | some child => some (branch (children.set k child))
    | none => if k = 0 then none else some (branch (children.take k))
  | _ + 1, leaf _ => none

/-- The items below a node of the given height, from left to right. -/
def items : Nat → VectorNode α → List α
  | _, leaf xs => xs
  | 0, branch _ => []
  | d + 1, branch children => children.flatMap (items d)

end VectorNode

/-- A persistent vector of `count` items. -/
structure Vector (α : Type) where
  /-- Number of items. -/
  count : Nat
  /-- Height of `root`; the least is one. -/
  depth : Nat
  root : VectorNode α
  /-- The items from index `tailStart` on. -/
  tail : List α

namespace Vector

variable {α : Type}

def empty : Vector α := ⟨0, 1, .branch [], []⟩

instance : Inhabited (Vector α) := ⟨empty⟩

variable (v : Vector α)

/-- The index of the first item of the tail: a multiple of 32. -/
def tailStart : Nat := if v.count < 32 then 0 else ((v.count - 1) / 32) * 32

/-- The block of at most 32 items that index `i` falls into. -/
def block? (i : Nat) : Option (List α) :=
  if i < v.count then
    if v.tailStart ≤ i then some v.tail else v.root.leafFor v.depth i
  else none

def get? (i : Nat) : Option α := (v.block? i).bind fun block => block[i % 32]?

/-- Append an item. A full tail moves into the tree, which grows by a level when it is full too. -/
def push (a : α) : Vector α :=
  if v.count - v.tailStart < 32 then
    { v with count := v.count + 1, tail := v.tail ++ [a] }
  else
    let full := VectorNode.leaf v.tail
    if v.count / 32 > 1 <<< (5 * v.depth) then
      ⟨v.count + 1, v.depth + 1, .branch [v.root, .path v.depth full], [a]⟩
    else
      ⟨v.count + 1, v.depth, v.root.pushLeaf v.count v.depth full, [a]⟩

/-- Replace the item at index `i`, or append when `i` is the count. -/
def set? (i : Nat) (a : α) : Option (Vector α) :=
  if i < v.count then
    if v.tailStart ≤ i then
      some { v with tail := v.tail.set (i % 32) a }
    else
      some { v with root := v.root.set v.depth i a }
  else if i = v.count then some (v.push a)
  else none

/-- A vector given by its parts, where a root with a single child gives way to that child. -/
def lowered (count depth : Nat) (root : VectorNode α) (tail : List α) : Vector α :=
  match root with
  | .branch [only] =>
    if depth > 1 then ⟨count, depth - 1, only, tail⟩ else ⟨count, depth, root, tail⟩
  | _ => ⟨count, depth, root, tail⟩

/-- Drop the last item. When the tail runs out, the last leaf of the tree becomes the tail. -/
def pop? : Option (Vector α) :=
  if v.count = 0 then none
  else if v.count = 1 then some empty
  else if v.count - v.tailStart > 1 then
    some { v with count := v.count - 1, tail := v.tail.dropLast }
  else
    let tail := (v.block? (v.count - 2)).getD []
    let root := (v.root.popLeaf v.count v.depth).getD (.branch [])
    some (lowered (v.count - 1) v.depth root tail)

def toList : List α := v.root.items v.depth ++ v.tail

def ofList (xs : List α) : Vector α := xs.foldl push empty

/-- The number of index bits that the tree resolves. -/
def shift : Nat := 5 * v.depth

end Vector

end HostedLisp.Coll
