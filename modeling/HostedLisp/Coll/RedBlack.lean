/-!
# Red-black trees

The tree under sorted maps. A node may lack a value, which stands for a binding to nil, and it
remembers whether it was built with room for children.

- `Tree`: the trees; `Tree.red` and `Tree.black` build nodes in their usual shape.
- `TreeOrder`: the comparison and the few things that depend on the kind of keys.
- `Tree.insert?`, `replace`, `remove`: updates. Comparing keys may fail, so they live in `Except`.
-/

namespace HostedLisp.Coll

inductive Color where
  | red
  | black
  deriving DecidableEq, Repr

/-- A red-black tree. `branch` tells a node with room for children from a leaf. -/
inductive Tree (K V : Type) where
  | empty
  | node (color : Color) (branch : Bool) (key : K) (val : Option V) (left right : Tree K V)

/-- What the tree needs to know about its keys. Reddening a black leaf without a value leaves
`accessor` in place of the key. -/
structure TreeOrder (ε K : Type) where
  compare : K → K → Except ε Int
  accessor : K → K
  /-- Raised where the colours of the tree do not fit. -/
  invariantViolation : ε
  /-- Raised where a node is asked for of an empty tree. -/
  missingNode : ε

namespace Tree

variable {ε K V : Type}

instance : Inhabited (Tree K V) := ⟨empty⟩

def isEmpty : Tree K V → Bool
  | empty => true
  | node .. => false

/-- A node of the given colour, a leaf when both subtrees are empty. -/
def mk (color : Color) (key : K) (val : Option V) (left right : Tree K V) : Tree K V :=
  node color (!(left.isEmpty && right.isEmpty)) key val left right

def red (key : K) (val : Option V) (left right : Tree K V) : Tree K V := mk .red key val left right

def black (key : K) (val : Option V) (left right : Tree K V) : Tree K V :=
  mk .black key val left right

def isRed : Tree K V → Bool
  | node .red .. => true
  | _ => false

def isBlack : Tree K V → Bool
  | node .black .. => true
  | _ => false

def blacken : Tree K V → Tree K V
  | node .red b k v l r => node .black b k v l r
  | t => t

/-- The tree with a red root; it must be black before. -/
def redden (order : TreeOrder ε K) : Tree K V → Except ε (Tree K V)
  | empty => throw order.missingNode
  | node .red .. => throw order.invariantViolation
  | node .black false k none _ _ => pure (node .red false (order.accessor k) none empty empty)
  | node .black b k v l r => pure (node .red b k v l r)

/-- Join a new left subtree `ins` to a black parent, mending a red pair on its outer or inner
side. -/
def balanceLeft (ins : Tree K V) (key : K) (val : Option V) (right : Tree K V) : Tree K V :=
  match ins with
  | node .red true k v (node .red b' lk lv ll lr) r =>
    red k v (node .black b' lk lv ll lr) (black key val r right)
  | node .red true k v l (node .red _ rk rv rl rr) =>
    red rk rv (black k v l rl) (black key val rr right)
  | _ => black key val ins right

/-- Join a new right subtree `ins` to a black parent. -/
def balanceRight (key : K) (val : Option V) (left ins : Tree K V) : Tree K V :=
  match ins with
  | node .red true k v l (node .red b' rk rv rl rr) =>
    red k v (black key val left l) (node .black b' rk rv rl rr)
  | node .red true k v (node .red _ lk lv ll lr) r =>
    red lk lv (black key val left ll) (black k v lr r)
  | _ => black key val left ins

/-- Give a node a new left subtree after an insertion there. -/
def addLeft (color : Color) (key : K) (val : Option V) (ins right : Tree K V) : Tree K V :=
  match color with
  | .black => balanceLeft ins key val right
  | .red => red key val ins right

/-- Give a node a new right subtree after an insertion there. -/
def addRight (color : Color) (key : K) (val : Option V) (left ins : Tree K V) : Tree K V :=
  match color with
  | .black => balanceRight key val left ins
  | .red => red key val left ins

/-- The outcome of an insertion: the new tree, or the binding already there. -/
inductive Insertion (K V : Type) where
  | added (tree : Tree K V)
  | present (key : K) (val : Option V)

variable (order : TreeOrder ε K) (key : K) (val : Option V)

/-- Add a key; a key that compares equal to one in the tree is only reported. -/
def insert? : Tree K V → Except ε (Insertion K V)
  | empty => pure (.added (red key val empty empty))
  | node color _ k v l r => do
    let c ← order.compare key k
    if c = 0 then return .present k v
    else if c < 0 then
      match ← insert? l with
      | .added ins => return .added (addLeft color k v ins r)
      | found => return found
    else
      match ← insert? r with
      | .added ins => return .added (addRight color k v l ins)
      | found => return found

/-- Set the value of a key that is in the tree. -/
def replace : Tree K V → Except ε (Tree K V)
  | empty => throw order.missingNode
  | node color _ k v l r => do
    let c ← order.compare key k
    let l' ← if c < 0 then replace l else pure l
    let r' ← if c > 0 then replace r else pure r
    return mk color k (if c = 0 then val else v) l' r'

/-- The node whose key compares equal to `key`. -/
def find? : Tree K V → Except ε (Tree K V)
  | empty => pure empty
  | t@(node _ _ k _ l r) => do
    let c ← order.compare key k
    if c = 0 then return t
    else if c < 0 then find? l
    else find? r

/-- Rebuild a black node whose left subtree `ins` may have a red pair at its top. -/
def leftBalance (ins right : Tree K V) : Tree K V :=
  match ins with
  | node .red _ k v (node .red b' lk lv ll lr) r =>
    red k v (node .black b' lk lv ll lr) (black key val r right)
  | node .red _ k v l (node .red _ rk rv rl rr) =>
    red rk rv (black k v l rl) (black key val rr right)
  | _ => black key val ins right

/-- Rebuild a black node whose right subtree `ins` may have a red pair at its top. -/
def rightBalance (left ins : Tree K V) : Tree K V :=
  match ins with
  | node .red _ k v l (node .red b' rk rv rl rr) =>
    red k v (black key val left l) (node .black b' rk rv rl rr)
  | node .red _ k v (node .red _ lk lv ll lr) r =>
    red lk lv (black key val left ll) (black k v lr r)
  | _ => black key val left ins

/-- Rebuild a node whose left subtree lost a black level. -/
def balanceLeftDel (del right : Tree K V) : Except ε (Tree K V) :=
  match del with
  | node .red b dk dv dl dr => pure (red key val (node .black b dk dv dl dr) right)
  | _ =>
    match right with
    | node .black .. => do return rightBalance key val del (← redden order right)
    | node .red _ rk rv (node .black _ lk lv ll lr) rr => do
      return red lk lv (black key val del ll) (rightBalance rk rv lr (← redden order rr))
    | _ => throw order.invariantViolation

/-- Rebuild a node whose right subtree lost a black level. -/
def balanceRightDel (left del : Tree K V) : Except ε (Tree K V) :=
  match del with
  | node .red b dk dv dl dr => pure (red key val left (node .black b dk dv dl dr))
  | _ =>
    match left with
    | node .black .. => do return leftBalance key val (← redden order left) del
    | node .red _ lk lv ll (node .black _ rk rv rl rr) => do
      return red rk rv (leftBalance lk lv (← redden order ll) rl) (black key val rr del)
    | _ => throw order.invariantViolation

def size : Tree K V → Nat
  | empty => 0
  | node _ _ _ _ l r => l.size + r.size + 1

/-- Join two trees where every key of the first is before every key of the second. -/
def append (left right : Tree K V) : Except ε (Tree K V) :=
  match left, right with
  | empty, right => pure right
  | left, empty => pure left
  | node .red _ lk lv ll lr, node .red _ rk rv rl rr => do
    match ← append lr rl with
    | node .red _ ak av al ar => return red ak av (red lk lv ll al) (red rk rv ar rr)
    | app => return red lk lv ll (red rk rv app rr)
  | node .red _ lk lv ll lr, node .black rb rk rv rl rr => do
    return red lk lv ll (← append lr (node .black rb rk rv rl rr))
  | node .black lb lk lv ll lr, node .red _ rk rv rl rr => do
    return red rk rv (← append (node .black lb lk lv ll lr) rl) rr
  | node .black _ lk lv ll lr, node .black _ rk rv rl rr => do
    match ← append lr rl with
    | node .red _ ak av al ar => return red ak av (black lk lv ll al) (black rk rv ar rr)
    | app => balanceLeftDel order lk lv ll (black rk rv app rr)
termination_by left.size + right.size
decreasing_by all_goals (simp only [size]; omega)

/-- The outcome of a removal: the key was not there, or the tree that is left. -/
inductive Removal (K V : Type) where
  | absent
  | removed (tree : Tree K V)

/-- Remove the node whose key compares equal to `key`. -/
def remove : Tree K V → Except ε (Removal K V)
  | empty => pure .absent
  | node _ _ k v l r => do
    let c ← order.compare key k
    if c = 0 then return .removed (← append order l r)
    else if c < 0 then
      match ← remove l with
      | .absent => return .absent
      | .removed del =>
        if l.isBlack then return .removed (← balanceLeftDel order k v del r)
        else return .removed (red k v del r)
    else
      match ← remove r with
      | .absent => return .absent
      | .removed del =>
        if r.isBlack then return .removed (← balanceRightDel order k v l del)
        else return .removed (red k v l del)

def min : Tree K V → Tree K V
  | empty => empty
  | t@(node _ _ _ _ empty _) => t
  | node _ _ _ _ l _ => l.min

def max : Tree K V → Tree K V
  | empty => empty
  | t@(node _ _ _ _ _ empty) => t
  | node _ _ _ _ _ r => r.max

def depth : Tree K V → Nat
  | empty => 0
  | node _ _ _ _ l r => 1 + Nat.max l.depth r.depth

/-- The bindings from the least key to the greatest. -/
def toList : Tree K V → List (K × Option V)
  | empty => []
  | node _ _ k v l r => l.toList ++ (k, v) :: r.toList

/-- Put a tree and the nodes on its left edge (its right edge when descending) on a walk's stack. -/
def pushEdge (ascending : Bool) (stack : List (Tree K V)) : Tree K V → List (Tree K V)
  | empty => stack
  | t@(node _ _ _ _ l r) =>
    if ascending then pushEdge ascending (t :: stack) l else pushEdge ascending (t :: stack) r

/-- Advance a walk past the node on top of its stack. -/
def advance (ascending : Bool) : List (Tree K V) → List (Tree K V)
  | node _ _ _ _ l r :: stack => pushEdge ascending stack (if ascending then r else l)
  | stack => stack.drop 1

/-- How many nodes a walk meets while a node of its stack is the lowest: the node, and those on the
side that comes after it. -/
def ahead (ascending : Bool) : Tree K V → Nat
  | empty => 1
  | node _ _ _ _ l r => (if ascending then r.size else l.size) + 1

/-- How many nodes a walk with this stack meets. -/
def allAhead (ascending : Bool) : List (Tree K V) → Nat
  | [] => 0
  | t :: stack => t.ahead ascending + allAhead ascending stack

/-- The stack of a walk that starts at the first key not before `key` (not after it when
descending). -/
def stackFrom (ascending : Bool) (stack : List (Tree K V)) : Tree K V → Except ε (List (Tree K V))
  | empty => pure stack
  | t@(node _ _ k _ l r) => do
    let c ← order.compare key k
    if c = 0 then return t :: stack
    else if ascending then
      if c < 0 then stackFrom ascending (t :: stack) l
      else stackFrom ascending stack r
    else
      if c > 0 then stackFrom ascending (t :: stack) r
      else stackFrom ascending stack l

end Tree

end HostedLisp.Coll
