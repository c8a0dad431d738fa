import HostedLisp.Session.Apply

/-!
# Trie nodes that are changed in place

The nodes of hash tries as things of a session. A node made by a persistent operation is shared;
the editing operations change a node in place if its `edit` mark is theirs, and else a copy.

- `SessionM.nodeFind`, `nodeInsert`, `nodeErase`: the persistent operations.
- `SessionM.nodeInsertEd`, `nodeEraseEd`: the editing operations. They hand one argument too many
  to the nodes below, so that they fail there.
- `SessionM.nodeEntries`: the bindings below a node.
- `SessionM.ofTrie`, `SessionM.toTrie?`: from and to the nodes of hash maps.
-/

namespace HostedLisp.SessionM

open Coll ItemArray

/-- The node that a value refers to. -/
def trieCell : Value → SessionM (Address × TrieCell) := contentOf fun
  | .trieNode n => some n
  | _ => none

def newNode (edit : Value) (shape : TrieShape) (slots : List Value) : SessionM Value :=
  allocRef (.trieNode { edit := edit, shape := shape, slots := slots })

/-- The node without slots. Its mark is that of nobody. -/
def emptyNode : SessionM Value := newNode (.int (-1)) (.sparse 0) []

/-- The slot of a hash at a shift, which must not be negative. -/
def slotOf (hash shift : Int) : Except Error Nat :=
  if shift < 0 then fault .value else return hashSlot hash shift.toNat

def bitOf (slot : Nat) : Int := Int.ofNat (1 <<< slot)

def hasBit (bits : Int) (slot : Nat) : Bool := (bits >>> slot) % 2 == 1

/-- Where the pair of a bit stands. -/
def pairIndex (bits : Int) (slot : Nat) : Int := bitCount (maskBits bits ((1 <<< slot) - 1))

/-- A bitmap with one bit more; the bit is not set before. -/
def withBit (bits : Int) (slot : Nat) : Int := if hasBit bits slot then bits else bits + bitOf slot

/-- A bitmap with one bit turned over. -/
def flipBit (bits : Int) (bit : Int) : Int := Value.xorInt bits bit

def item (xs : List Value) (i : Int) : SessionM Value := lift (Value.arrayItem xs i)

/-- The pair at place `i`. -/
def pairAt (xs : List Value) (i : Int) : SessionM (Value × Value) := do
  return (← item xs (2 * i), ← item xs (2 * i + 1))

/-- Note in a box that a binding was added or removed: the box then holds itself. -/
def tick (box : Option Value) : SessionM Unit := box.forM fun b => fillBox b b

/-- The position of a key among the pairs of a collision node. -/
def collisionFind (slots : List Value) (count : Int) (key : Value) : Except Error Int :=
  go (count.toNat) 0
where
  /-- Look at the pairs from `i` on. -/
  go : (fuel : Nat) → (i : Int) → Except Error Int
    | 0, _ => return -1
    | fuel + 1, i => do
      if ← Value.eq (← Value.arrayItem slots i) key then return i else go fuel (i + 2)

/-- The levels a path can have. -/
def nodeLevels : Nat := 64

def nodeFind (hash : Int) (key default : Value) :
    (fuel : Nat) → (node : Value) → (shift : Int) → SessionM Value
  | 0, _, _ => fault .recursion
  | fuel + 1, node, shift => do
    let (_, n) ← trieCell node
    match n.shape with
    | .dense _ =>
      match ← item n.slots (← lift (slotOf hash shift)) with
      | .nil => return default
      | child => nodeFind hash key default fuel child (shift + 5)
    | .sparse bits =>
      let slot ← lift (slotOf hash shift)
      if hasBit bits slot then
        let (k, v) ← pairAt n.slots (pairIndex bits slot)
        if k.isNil then nodeFind hash key default fuel v (shift + 5)
        else if ← lift (Value.eq key k) then return v
        else return default
      else return default
    | .collision _ count =>
      let i ← lift (collisionFind n.slots count key)
      if i < 0 then return default else item n.slots (i + 1)

/-- The node itself or a copy that may be changed. A copied sparse node has room for one pair more
and keeps its mark. -/
def editable (self edit : Value) : SessionM (Address × TrieCell) := do
  let (a, n) ← trieCell self
  let copy (c : TrieCell) : SessionM (Address × TrieCell) := do return (← alloc (.trieNode c), c)
  match n.shape with
  | .dense _ =>
    if ← lift (Value.eq n.edit edit) then return (a, n) else copy { n with edit := edit }
  | .sparse bits =>
    if n.edit.same edit then return (a, n)
    else
      let k := bitCount bits
      let room := blank (if k ≥ 0 then 2 * (k + 1) else 4)
      copy { n with slots := copyRun n.slots 0 room 0 (2 * k) }
  | .collision .. =>
    if n.edit.same edit then return (a, n)
    else copy { n with edit := edit, slots := n.slots ++ [.nil, .nil] }

/-- Change a node in place. -/
def overwrite (a : Address) (n : TrieCell) (shape : TrieShape) (slots : List Value) :
    SessionM Value := do
  store a (.trieNode { n with shape := shape, slots := slots })
  return .ref a

/-- Change the slots of a node or of a copy of it. -/
def editSlots (self edit : Value) (changes : List (Int × Value)) : SessionM Value := do
  let (a, n) ← editable self edit
  overwrite a n n.shape (← lift (changes.foldlM (fun xs (i, x) => setItem xs i x) n.slots))

/-- Put a pair into a sparse node that has room, or into a copy of it. -/
def editIn (self edit : Value) (bits : Int) (slot : Nat) (key val : Value) : SessionM Value := do
  let i := pairIndex bits slot
  let (a, n) ← editable self edit
  let moved := copyRun n.slots (2 * i) n.slots (2 * (i + 1)) (2 * (bitCount bits - i))
  let slots ← lift (setItem (← lift (setItem moved (2 * i) key)) (2 * i + 1) val)
  overwrite a n (.sparse (withBit bits slot)) slots

/-- Put one binding into the node without slots by editing, which leaves room for three more. -/
def roomyNode (shift hash : Int) (key val : Value) : SessionM Value := do
  let slot ← lift (slotOf hash shift)
  newNode (.int (-1)) (.sparse (bitOf slot)) ([key, val] ++ blank 6)

/-- The nodes of a dense node made from the pairs of a sparse one. -/
def spreadPairs (bits : Int) (slots : List Value) (wrap : Int → Value → Value → SessionM Value) :
    (todo : List Nat) → (j : Int) → (nodes : List Value) → SessionM (List Value)
  | [], _, nodes => return nodes
  | i :: todo, j, nodes => do
    if hasBit bits i then
      let k ← item slots j
      let v ← item slots (j + 1)
      let child ← if k.isNil then pure v else wrap (← lift k.hash) k v
      spreadPairs bits slots wrap todo (j + 2) (nodes.set i child)
    else spreadPairs bits slots wrap todo j nodes

/-- A node for two bindings, built by editing. -/
def joinNodes (edit : Value) : (fuel : Nat) → (shift : Int) → (k₁ v₁ : Value) → (hash₂ : Int) →
    (k₂ v₂ : Value) → SessionM Value
  | 0, _, _, _, _, _, _ => throw (.signal .general "Shift max reached")
  | fuel + 1, shift, k₁, v₁, hash₂, k₂, v₂ => do
    if shift > 64 then throw (.signal .general "Shift max reached")
    let hash₁ ← lift k₁.hash
    if hash₁ = hash₂ then newNode .nil (.collision hash₁ 2) [k₁, v₁, k₂, v₂]
    else
      let first ← roomyNode shift hash₁ k₁ v₁
      let slot₁ ← lift (slotOf hash₁ shift)
      let slot₂ ← lift (slotOf hash₂ shift)
      let bits := bitOf slot₁
      let (_, n) ← trieCell first
      if slot₁ = slot₂ then
        -- the two keys meet again one level down
        let child ← joinNodes edit fuel (shift + 5) k₁ v₁ hash₂ k₂ v₂
        let i := pairIndex bits slot₁
        editSlots first edit [(2 * i, .nil), (2 * i + 1, child)]
      else
        let count := bitCount bits
        if count * 2 < n.slots.length then editIn first edit bits slot₂ k₂ v₂
        else
          let fresh ← roomyNode (shift + 5) hash₂ k₂ v₂
          let nodes ← spreadPairs bits n.slots (roomyNode (shift + 5)) (List.range 32) 0
            ((blank 32).set slot₂ fresh)
          newNode edit (.dense (count + 1)) nodes

/-- A sparse node with one binding. -/
def singleNode (shift hash : Int) (key val : Value) : SessionM Value := do
  let slot ← lift (slotOf hash shift)
  newNode .nil (.sparse (bitOf slot)) [key, val]

def nodeInsert (hash : Int) (key val : Value) (box : Option Value) :
    (fuel : Nat) → (self : Value) → (shift : Int) → SessionM Value
  | 0, _, _ => fault .recursion
  | fuel + 1, self, shift => do
    let (_, n) ← trieCell self
    match n.shape with
    | .dense count =>
      let slot ← lift (slotOf hash shift)
      match ← item n.slots slot with
      | .nil =>
        let child ← singleNode (shift + 5) hash key val
        tick box
        newNode .nil (.dense (count + 1)) (n.slots.set slot child)
      | child =>
        let child' ← nodeInsert hash key val box fuel child (shift + 5)
        if child'.same child then return self
        else newNode .nil (.dense count) (n.slots.set slot child')
    | .sparse bits => insertSparse fuel self n bits shift
    | .collision own count =>
      if hash = own then
        let i ← lift (collisionFind n.slots count key)
        if i ≥ 0 then
          if ← lift (Value.eq (← item n.slots (i + 1)) val) then return self
          else newNode .nil n.shape (← lift (setItem n.slots (i + 1) val))
        else
          tick box
          newNode n.edit (.collision own (count + 1)) (n.slots ++ [key, val])
      else
        let slot ← lift (slotOf own shift)
        let above : TrieCell :=
          { edit := .nil, shape := .sparse (bitOf slot), slots := [.nil, self] }
        let top ← allocRef (.trieNode above)
        insertSparse fuel top above (bitOf slot) shift
where
  /-- Bind a key below a sparse node. -/
  insertSparse (fuel : Nat) (self : Value) (n : TrieCell) (bits shift : Int) : SessionM Value := do
    let slot ← lift (slotOf hash shift)
    let i := pairIndex bits slot
    if hasBit bits slot then
      let (k, v) ← pairAt n.slots i
      if k.isNil then
        let child ← nodeInsert hash key val box fuel v (shift + 5)
        if child.same v then return self
        else newNode .nil n.shape (← lift (setItem n.slots (2 * i + 1) child))
      else if ← lift (Value.eq key k) then
        if val.same v then return self
        else newNode .nil n.shape (← lift (setItem n.slots (2 * i + 1) val))
      else
        tick box
        let child ← joinNodes .nil nodeLevels (shift + 5) k v hash key val
        let slots ← lift (setItem (← lift (setItem n.slots (2 * i) .nil)) (2 * i + 1) child)
        newNode .nil n.shape slots
    else
      let count := bitCount bits
      if count ≥ 16 then
        let fresh ← singleNode (shift + 5) hash key val
        tick box
        let nodes ← spreadPairs bits n.slots (singleNode (shift + 5)) (List.range 32) 0
          ((blank 32).set slot fresh)
        newNode .nil (.dense (count + 1)) nodes
      else
        tick box
        newNode .nil (.sparse (withBit bits slot))
          (run n.slots 0 (2 * i) ++ [key, val] ++ run n.slots (2 * i) n.slots.length)

/-- Remove a key below a node; nil if nothing is left. -/
def nodeErase (hash : Int) (key : Value) :
    (fuel : Nat) → (self : Value) → (shift : Int) → SessionM Value
  | 0, _, _ => fault .recursion
  | fuel + 1, self, shift => do
    let (_, n) ← trieCell self
    match n.shape with
    | .dense count =>
      let slot ← lift (slotOf hash shift)
      match ← item n.slots slot with
      | .nil => return self
      | child =>
        match ← nodeErase hash key fuel child (shift + 5) with
        | .nil => return self
        | child' => newNode .nil (.dense count) (n.slots.set slot child')
    | .sparse bits =>
      let slot ← lift (slotOf hash shift)
      if hasBit bits slot then
        let i := pairIndex bits slot
        let (k, v) ← pairAt n.slots i
        let smaller := newNode .nil (.sparse (flipBit bits (bitOf slot))) (removePair n.slots i)
        if k.isNil then
          let child ← nodeErase hash key fuel v (shift + 5)
          if child.same v then return self
          else if !child.isNil then
            newNode .nil n.shape (← lift (setItem n.slots (2 * i + 1) child))
          else if bits = bitOf slot then return .nil
          else smaller
        else if ← lift (Value.eq key k) then smaller
        else return self
      else return self
    | .collision _ count =>
      let i ← lift (collisionFind n.slots count key)
      if i < 0 then return self
      else if count = 1 then return .nil
      else fault .type

/-- Take the pair at place `i` out of a sparse node or of a copy of it; nil if it was the only
one. -/
def editOut (self edit : Value) (bit i : Int) : SessionM Value := do
  let (_, n) ← trieCell self
  match n.shape with
  | .sparse bits =>
    if bits = bit then return .nil
    else
      let (a, m) ← editable self edit
      let size : Int := m.slots.length
      let moved := copyRun m.slots (2 * (i + 1)) m.slots (2 * i) (size - 2 * (i + 1))
      let last : Int := moved.length
      let slots ← lift (setItem (← lift (setItem moved (last - 2) .nil)) (last - 1) .nil)
      overwrite a m (.sparse (flipBit bits bit)) slots
  | _ => fault .attribute

/-- A call with one argument too many. -/
def overfull {α : Type} (node : Value) : SessionM α := do
  let _ ← trieCell node
  fault .type

/-- Bind a key below a node by editing. -/
def nodeInsertEd (edit : Value) (shift hash : Int) (key val : Value) (box : Option Value)
    (self : Value) : SessionM Value := do
  let (a, n) ← trieCell self
  match n.shape with
  | .dense count =>
    let slot ← lift (slotOf hash shift)
    match ← item n.slots slot with
    | .nil =>
      let child ← roomyNode (shift + 5) hash key val
      tick box
      let (b, m) ← editable self edit
      overwrite b m (.dense (count + 1)) (m.slots.set slot child)
    | child => overfull child
  | .sparse bits => insertSparse a n bits
  | .collision own count =>
    if hash = own then
      let i ← lift (collisionFind n.slots count key)
      if i ≥ 0 then
        if ← lift (Value.eq (← item n.slots (i + 1)) val) then return self
        else editSlots self edit [(i + 1, val)]
      else if n.slots.length > 2 * count then
        tick box
        let r ← editSlots self edit [(2 * count, key), (2 * count + 1, val)]
        let (b, m) ← trieCell r
        store b (.trieNode { m with shape := .collision own (count + 1) })
        return r
      else
        tick box
        let grown : TrieCell :=
          { n with shape := .collision own (count + 1), slots := n.slots ++ [key, val] }
        if n.edit.same edit then
          store a (.trieNode grown)
          return self
        else allocRef (.trieNode { grown with edit := edit })
    else
      let slot ← lift (slotOf own shift)
      let above : TrieCell :=
        { edit := edit, shape := .sparse (bitOf slot), slots := [.nil, self, .nil, .nil] }
      insertSparse (← alloc (.trieNode above)) above (bitOf slot)
where
  /-- Bind a key below a sparse node. -/
  insertSparse (a : Address) (n : TrieCell) (bits : Int) : SessionM Value := do
    let node : Value := .ref a
    let slot ← lift (slotOf hash shift)
    let i := pairIndex bits slot
    if hasBit bits slot then
      let (k, v) ← pairAt n.slots i
      if k.isNil then overfull v
      else if ← lift (Value.eq key k) then
        if ← lift (Value.eq val v) then return node
        else editSlots node edit [(2 * i + 1, val)]
      else
        tick box
        let child ← joinNodes edit nodeLevels (shift + 5) k v hash key val
        editSlots node edit [(2 * i, .nil), (2 * i + 1, child)]
    else
      let count := bitCount bits
      if count * 2 < n.slots.length then
        tick box
        editIn node edit bits slot key val
      else if count ≥ 16 then
        let fresh ← roomyNode (shift + 5) hash key val
        tick box
        let nodes ← spreadPairs bits n.slots (roomyNode (shift + 5)) (List.range 32) 0
          ((blank 32).set slot fresh)
        newNode edit (.dense (count + 1)) nodes
      else
        let room := copyRun n.slots 0 (blank (2 * (count + 4))) 0 (2 * i)
        let room ← lift (setItem room (2 * i) key)
        tick box
        let room ← lift (setItem room (2 * i + 1) val)
        let room := copyRun n.slots (2 * i) room (2 * (i + 1)) (2 * (count - i))
        let (b, m) ← editable node edit
        overwrite b m (.sparse (withBit bits slot)) room

/-- Remove a key below a node by editing; nil if nothing is left. -/
def nodeEraseEd (edit : Value) (shift hash : Int) (key : Value) (box : Option Value)
    (self : Value) : SessionM Value := do
  let (_, n) ← trieCell self
  match n.shape with
  | .dense _ =>
    match ← item n.slots (← lift (slotOf hash shift)) with
    | .nil => return self
    | child => overfull child
  | .sparse bits =>
    let slot ← lift (slotOf hash shift)
    if hasBit bits slot then
      let i := pairIndex bits slot
      let (k, v) ← pairAt n.slots i
      if k.isNil then overfull v
      else if ← lift (Value.eq key k) then
        tick box
        editOut self n.edit (bitOf slot) i
      else return self
    else return self
  | .collision own count =>
    let i ← lift (collisionFind n.slots count key)
    if i < 0 then return self
    else
      tick box
      if count = 1 then return .nil
      else
        let (a, m) ← editable self edit
        let last := 2 * count
        let xs ← lift (setItem m.slots i (← item m.slots (last - 2)))
        let xs ← lift (setItem xs (i + 1) (← item xs (last - 1)))
        let xs ← lift (setItem xs (last - 2) .nil)
        let xs ← lift (setItem xs (last - 1) .nil)
        overwrite a m (.collision own (count - 1)) xs

/-- A sparse node of nothing, made when a dense node shrinks. -/
def packNode (self edit : Value) (at_ : Int) : SessionM Value := do
  let (_, n) ← trieCell self
  match n.shape with
  | .dense count =>
    let room := 2 * (count - 1)
    let vacant (xs : List Value) : List Value := xs.filter Value.isNil
    let before := run n.slots 0 at_
    let holes := (vacant before).length + (vacant (run n.slots (at_ + 1) n.slots.length)).length
    if (holes : Int) > 0 ∧ 2 * (holes : Int) - 1 ≥ room then fault .index
    else
      let bits := (before.zipIdx.filter fun (x, _) => x.isNil).foldl
        (fun bits (_, i) => bits + bitOf i) 0
      newNode edit (.sparse bits) (blank room)
  | _ => fault .attribute

def nodeEntries : (fuel : Nat) → (node : Value) → SessionM (List (Value × Value))
  | 0, _ => fault .recursion
  | fuel + 1, node => do
    let (_, n) ← trieCell node
    match n.shape with
    | .dense _ =>
      let parts ← n.slots.mapM fun child =>
        if child.isNil then pure [] else nodeEntries fuel child
      return parts.flatten
    | _ => pairEntries fuel n.slots
where
  /-- The bindings of pairs and of the nodes that stand in them. -/
  pairEntries (fuel : Nat) : List Value → SessionM (List (Value × Value))
    | [] => return []
    | [_] => fault .index
    | k :: v :: rest => do
      let here ← if !k.isNil then pure [(k, v)]
        else if v.isNil then pure []
        else nodeEntries fuel v
      return here ++ (← pairEntries fuel rest)

def nodeSeq (node : Value) : SessionM Value := do
  let (_, n) ← trieCell node
  let dense := match n.shape with
    | .dense _ => true
    | _ => false
  match ← nodeEntries nodeLevels node with
  | [] => return .nil
  | es => return .trieSeq dense es .nil

mutual

/-- Make nodes of a session from those of a hash map. -/
def ofTrie : TrieNode Value Value → SessionM Value
  | .bitmap bits slots => do newNode .nil (.sparse bits) (← ofSlots slots)
  | .array count children => do newNode .nil (.dense count) (← ofChildren children)
  | .collision hash count slots => do newNode .nil (.collision hash count) (← ofSlots slots)

/-- The pairs of slots. -/
def ofSlots : List (TrieSlot Value Value) → SessionM (List Value)
  | [] => return []
  | .vacant :: rest => do return [.nil, .nil] ++ (← ofSlots rest)
  | .entry k v :: rest => do return [k, v] ++ (← ofSlots rest)
  | .child n :: rest => do
    let n ← ofTrie n
    return [.nil, n] ++ (← ofSlots rest)

/-- The children of a dense node. -/
def ofChildren : List (Option (TrieNode Value Value)) → SessionM (List Value)
  | [] => return []
  | none :: rest => do return .nil :: (← ofChildren rest)
  | some n :: rest => do
    let n ← ofTrie n
    return n :: (← ofChildren rest)

end

/-- The slots of pairs, given what becomes of the nodes in them. -/
def toSlots (convert : Value → SessionM (TrieNode Value Value)) :
    List Value → SessionM (List (TrieSlot Value Value))
  | k :: v :: rest => do
    let slot ← if !k.isNil then pure (TrieSlot.entry k v)
      else if v.isNil then pure .vacant
      else do pure (.child (← convert v))
    return slot :: (← toSlots convert rest)
  | _ => return []

/-- Make a node of a hash map from one of the session. -/
def toTrie : (fuel : Nat) → (node : Value) → SessionM (TrieNode Value Value)
  | 0, _ => fault .recursion
  | fuel + 1, node => do
    let (_, n) ← trieCell node
    match n.shape with
    | .sparse bits => return .bitmap bits.toNat (← toSlots (toTrie fuel) n.slots)
    | .dense count =>
      let children ← n.slots.mapM fun c => do
        if c.isNil then return none else return some (← toTrie fuel c)
      return .array count children
    | .collision hash count => return .collision hash count.toNat (← toSlots (toTrie fuel) n.slots)

/-- A node spelled out with all that is below it; other values are left as they are. -/
def nodeOutline : (fuel : Nat) → Value → SessionM Value
  | 0, _ => fault .recursion
  | fuel + 1, v => do
    match ← cell? v with
    | some (.trieNode n) =>
      let slots : Value := .array (← n.slots.mapM (nodeOutline fuel))
      match n.shape with
      | .sparse bits => return .array [.str "bitmap", .int bits, slots]
      | .dense count => return .array [.str "array", .int count, slots]
      | .collision _ count => return .array [.str "collision", .int count, slots]
    | _ => return v

end HostedLisp.SessionM
