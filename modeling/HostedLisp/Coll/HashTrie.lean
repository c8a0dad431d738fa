/-!
# Hash tries

`bitCount` folds neighbouring groups of bits together and multiplies the byte counts into the top
byte. The product is not cut to 32 bits, so a word whose set bits reach past the lowest byte counts
as a large number. Bitmap nodes use this count both for addressing slots and for deciding when they
are full.

A hash map is a trie over the five-bit groups of a key's hash. Sparse nodes hold a bitmap and only
the slots in use, dense nodes hold 32 optional children, and keys of one hash share a collision
node.

- `Keying`: how keys are hashed and compared. The trie is parametric in it.
- `TrieNode`, `TrieSlot`: the nodes.
- `TrieNode.find?`, `insert`, `erase`: lookup and path-copying updates. `erase` reports whether the
  node changed, because a map counts an entry as removed exactly when its root changed.
- `HashMap`: a trie together with a count and the binding of the nil key, which no node stores.
-/

namespace HostedLisp.Coll

/-- The bits of a word, in two's complement of unbounded width, that a 32-bit mask selects. -/
def maskBits (word : Int) (mask : Nat) : Int := Int.ofNat ((word % Nat.pow 2 32).toNat &&& mask)

/-- The parallel bit count of a word, with the product of the last step kept in full. -/
def bitCount (word : Int) : Int :=
  let pairs := word - maskBits (word.shiftRight 1) 0x55555555
  let nibbles := maskBits pairs 0x33333333 + maskBits (pairs.shiftRight 2) 0x33333333
  (maskBits (nibbles + nibbles.shiftRight 4) 0x0F0F0F0F * 0x01010101).shiftRight 24

/-- The five bits of a hash that choose a slot at the given shift. -/
def hashSlot (hash : Int) (shift : Nat) : Nat := ((hash >>> shift) % 32).toNat

/-- The bit of a bitmap that stands for the slot of a hash. -/
def hashBit (hash : Int) (shift : Nat) : Nat := 1 <<< hashSlot hash shift

/-- How a trie treats its keys and values. `valEq` decides whether a new value is worth storing. -/
structure Keying (K V : Type) where
  isNil : K → Bool
  hash : K → Int
  eq : K → K → Bool
  valEq : V → V → Bool

mutual

inductive TrieNode (K V : Type) where
  /-- A slot for every set bit, in the order of the bits; unused slots may follow. -/
  | bitmap (bits : Nat) (slots : List (TrieSlot K V))
  /-- A child for each of the 32 hash groups. -/
  | array (count : Int) (children : List (Option (TrieNode K V)))
  /-- The `count` bindings of keys that share one hash; unused slots may follow. -/
  | collision (hash : Int) (count : Nat) (slots : List (TrieSlot K V))

/-- A slot of a sparse node. -/
inductive TrieSlot (K V : Type) where
  | vacant
  | entry (key : K) (val : V)
  | child (node : TrieNode K V)

end

/-- Why an operation on a trie could not be carried out. -/
inductive TrieFailure where
  /-- The bit count pointed past the slots of a node. -/
  | slotOutOfRange
  /-- A set bit whose slot is vacant. -/
  | vacantSlot
  /-- The hash bits ran out before two keys were told apart. -/
  | shiftExhausted
  /-- A binding cannot be taken out of a collision node with others left. -/
  | collisionRemoval
  deriving DecidableEq, Repr

/-- The outcome of putting a binding into a node. -/
structure TrieInsertion (K V : Type) where
  node : TrieNode K V
  /-- Whether the key was new. -/
  added : Bool

/-- The outcome of taking a key out of a node. -/
inductive TrieRemoval (K V : Type) where
  | unchanged
  | changed (node : TrieNode K V)
  /-- Nothing is left of the node. -/
  | gone

namespace TrieNode

variable {K V : Type}

/-- The sparse node without slots. -/
def empty : TrieNode K V := .bitmap 0 []

instance : Inhabited (TrieNode K V) := ⟨empty⟩

/-- Where the slot of `bit` stands in a sparse node. -/
def slotIndex (bits bit : Nat) : Nat := (bitCount (bits &&& (bit - 1))).toNat

/-- A sparse node with one binding. -/
def single (shift : Nat) (hash : Int) (key : K) (val : V) : TrieNode K V :=
  .bitmap (hashBit hash shift) [.entry key val]

/-- A sparse node with one binding and room for three more. -/
def roomy (shift : Nat) (hash : Int) (key : K) (val : V) : TrieNode K V :=
  .bitmap (hashBit hash shift) [.entry key val, .vacant, .vacant, .vacant]

/-- The children of a dense node made from the slots of a sparse one: a slot per set bit from `i`
on, each binding in a node of its own built by `wrap`. -/
def spread (wrap : K → V → TrieNode K V) (bits : Nat) :
    List Nat → List (TrieSlot K V) → Except TrieFailure (List (Option (TrieNode K V)))
  | [], _ => pure []
  | i :: is, slots =>
    if bits.testBit i then
      match slots with
      | [] => throw .slotOutOfRange
      | .vacant :: rest => do return none :: (← spread wrap bits is rest)
      | .entry k v :: rest => do return some (wrap k v) :: (← spread wrap bits is rest)
      | .child n :: rest => do return some n :: (← spread wrap bits is rest)
    else do return none :: (← spread wrap bits is slots)

variable (keying : Keying K V) (hash : Int) (key : K) (val : V)

/-- A node for two bindings whose keys differ, where `hash₂` is the hash of the second key. Padding
is left in the slots as the in-place insertions that build the node leave it. -/
def join : (fuel : Nat) → (shift : Nat) → K → V → (hash₂ : Int) → K → V →
    Except TrieFailure (TrieNode K V)
  | 0, _, _, _, _, _, _ => throw .shiftExhausted
  | fuel + 1, shift, k₁, v₁, hash₂, k₂, v₂ =>
    if shift > 64 then throw .shiftExhausted
    else
      let hash₁ := keying.hash k₁
      if hash₁ = hash₂ then
        return .collision hash₁ 2 [.entry k₁ v₁, .entry k₂ v₂]
      else
        let bit₁ := hashBit hash₁ shift
        let bit₂ := hashBit hash₂ shift
        let n := bitCount bit₁
        if bit₁ = bit₂ then do
          let child ← join fuel (shift + 5) k₁ v₁ hash₂ k₂ v₂
          return .bitmap bit₁ (.child child :: List.replicate (min n 4).toNat .vacant)
        else
          if n < 4 then
            if bit₁ < bit₂ then
              return .bitmap (bit₁ ||| bit₂) [.entry k₁ v₁, .entry k₂ v₂]
            else
              return .bitmap (bit₁ ||| bit₂) [.entry k₂ v₂, .entry k₁ v₁, .vacant]
          else do
            let wrap := fun k v => roomy (shift + 5) (keying.hash k) k v
            let children ← spread wrap bit₁ (List.range 32)
              [.entry k₁ v₁, .vacant, .vacant, .vacant]
            return .array (n + 1)
              (children.set (hashSlot hash₂ shift) (some (roomy (shift + 5) hash₂ k₂ v₂)))

/-- The position of a key among the first `count` slots of a collision node. -/
def collisionIndex : (count : Nat) → List (TrieSlot K V) → (i : Nat) →
    Except TrieFailure (Option Nat)
  | 0, _, _ => pure none
  | _ + 1, [], _ => throw .slotOutOfRange
  | n + 1, .entry k _ :: rest, i =>
    if keying.eq k key then pure (some i) else collisionIndex n rest (i + 1)
  | n + 1, _ :: rest, i => collisionIndex n rest (i + 1)

/-- The levels a path can have before the hash bits are certainly used up. -/
def maxLevels : Nat := 32

def find? : (fuel : Nat) → (shift : Nat) → TrieNode K V → Except TrieFailure (Option V)
  | 0, _, _ => throw .shiftExhausted
  | fuel + 1, shift, .bitmap bits slots =>
    let bit := hashBit hash shift
    if bits &&& bit = 0 then pure none
    else
      match slots[slotIndex bits bit]? with
      | none => throw .slotOutOfRange
      | some .vacant => throw .vacantSlot
      | some (.child n) => find? fuel (shift + 5) n
      | some (.entry k v) => pure (if keying.eq key k then some v else none)
  | fuel + 1, shift, .array _ children =>
    match children[hashSlot hash shift]? with
    | none => throw .slotOutOfRange
    | some none => pure none
    | some (some n) => find? fuel (shift + 5) n
  | _ + 1, _, .collision _ count slots => do
    match ← collisionIndex keying key count slots 0 with
    | none => pure none
    | some i =>
      match slots[i]? with
      | some (.entry _ v) => pure (some v)
      | _ => throw .slotOutOfRange

def insert : (fuel : Nat) → (shift : Nat) → TrieNode K V → Except TrieFailure (TrieInsertion K V)
  | 0, _, _ => throw .shiftExhausted
  | fuel + 1, shift, .bitmap bits slots =>
    let bit := hashBit hash shift
    let i := slotIndex bits bit
    if bits &&& bit = 0 then
      let n := bitCount bits
      if n ≥ 16 then do
        let wrap := fun k v => single (shift + 5) (keying.hash k) k v
        let children ← spread wrap bits (List.range 32) slots
        return ⟨.array (n + 1)
          (children.set (hashSlot hash shift) (some (single (shift + 5) hash key val))), true⟩
      else
        return ⟨.bitmap (bits ||| bit) (slots.take i ++ [.entry key val] ++ slots.drop i), true⟩
    else
      match slots[i]? with
      | none => throw .slotOutOfRange
      | some .vacant => throw .vacantSlot
      | some (.child n) => do
        let r ← insert fuel (shift + 5) n
        return ⟨.bitmap bits (slots.set i (.child r.node)), r.added⟩
      | some (.entry k v) =>
        if keying.eq key k then
          return ⟨.bitmap bits (slots.set i (.entry k val)), false⟩
        else do
          let n ← join keying fuel (shift + 5) k v hash key val
          return ⟨.bitmap bits (slots.set i (.child n)), true⟩
  | fuel + 1, shift, .array count children =>
    let i := hashSlot hash shift
    match children[i]? with
    | none => throw .slotOutOfRange
    | some none =>
      return ⟨.array (count + 1) (children.set i (some (single (shift + 5) hash key val))), true⟩
    | some (some n) => do
      let r ← insert fuel (shift + 5) n
      return ⟨.array count (children.set i (some r.node)), r.added⟩
  | fuel + 1, shift, .collision own count slots =>
    if hash = own then do
      match ← collisionIndex keying key count slots 0 with
      | some i =>
        match slots[i]? with
        | some (.entry k v) =>
          if keying.valEq v val then return ⟨.collision own count slots, false⟩
          else return ⟨.collision own count (slots.set i (.entry k val)), false⟩
        | _ => throw .slotOutOfRange
      | none => return ⟨.collision own (count + 1) (slots ++ [.entry key val]), true⟩
    else
      -- the node moves below a sparse node, one level further down each time the groups agree
      let bit := hashBit hash shift
      let ownBit := hashBit own shift
      if bit = ownBit then do
        let r ← insert fuel (shift + 5) (.collision own count slots)
        return ⟨.bitmap ownBit [.child r.node], r.added⟩
      else
        let n := bitCount ownBit
        if n ≥ 16 then do
          let wrap := fun k v => single (shift + 5) (keying.hash k) k v
          let children ← spread wrap ownBit (List.range 32) [.child (.collision own count slots)]
          return ⟨.array (n + 1)
            (children.set (hashSlot hash shift) (some (single (shift + 5) hash key val))), true⟩
        else
          let i := slotIndex ownBit bit
          let old : List (TrieSlot K V) := [.child (.collision own count slots)]
          return ⟨.bitmap (ownBit ||| bit) (old.take i ++ [.entry key val] ++ old.drop i), true⟩

/-- Take a key out. A dense node whose child is not emptied always counts as changed. -/
def erase : (fuel : Nat) → (shift : Nat) → TrieNode K V → Except TrieFailure (TrieRemoval K V)
  | 0, _, _ => throw .shiftExhausted
  | fuel + 1, shift, .bitmap bits slots =>
    let bit := hashBit hash shift
    if bits &&& bit = 0 then pure .unchanged
    else
      let i := slotIndex bits bit
      let removed := TrieNode.bitmap (bits ^^^ bit) (slots.take i ++ slots.drop (i + 1))
      match slots[i]? with
      | none => throw .slotOutOfRange
      | some .vacant => throw .vacantSlot
      | some (.child n) => do
        match ← erase fuel (shift + 5) n with
        | .unchanged => return .unchanged
        | .changed n => return .changed (.bitmap bits (slots.set i (.child n)))
        | .gone => if bits = bit then return .gone else return .changed removed
      | some (.entry k _) =>
        if keying.eq key k then pure (.changed removed) else pure .unchanged
  | fuel + 1, shift, .array count children =>
    let i := hashSlot hash shift
    match children[i]? with
    | none => throw .slotOutOfRange
    | some none => pure .unchanged
    | some (some n) => do
      match ← erase fuel (shift + 5) n with
      | .gone => return .unchanged
      | .unchanged => return .changed (.array count children)
      | .changed n => return .changed (.array count (children.set i (some n)))
  | _ + 1, _, .collision _ count slots => do
    match ← collisionIndex keying key count slots 0 with
    | none => return .unchanged
    | some _ => if count = 1 then return .gone else throw .collisionRemoval

mutual

/-- The bindings of a node in the order of its slots. -/
def entries : TrieNode K V → List (K × V)
  | .bitmap _ slots => slotEntries slots
  | .array _ children => childEntries children
  | .collision _ _ slots => slotEntries slots

/-- The bindings below a list of slots. -/
def slotEntries : List (TrieSlot K V) → List (K × V)
  | [] => []
  | .vacant :: rest => slotEntries rest
  | .entry k v :: rest => (k, v) :: slotEntries rest
  | .child n :: rest => entries n ++ slotEntries rest

/-- The bindings below a list of optional children. -/
def childEntries : List (Option (TrieNode K V)) → List (K × V)
  | [] => []
  | none :: rest => childEntries rest
  | some n :: rest => entries n ++ childEntries rest

end

end TrieNode

/-- A persistent hash map. -/
structure HashMap (K V : Type) where
  count : Int
  root : Option (TrieNode K V)
  /-- The value of the nil key, if it is bound. -/
  nilValue : Option V

namespace HashMap

variable {K V : Type}

def empty : HashMap K V := ⟨0, none, none⟩

instance : Inhabited (HashMap K V) := ⟨empty⟩

variable (keying : Keying K V) (m : HashMap K V) (key : K)

def insert (val : V) : Except TrieFailure (HashMap K V) :=
  if keying.isNil key then
    match m.nilValue with
    | some old => pure (if keying.valEq val old then m else { m with nilValue := some val })
    | none => pure { m with count := m.count + 1, nilValue := some val }
  else do
    let r ← (m.root.getD .empty).insert keying (keying.hash key) key val TrieNode.maxLevels 0
    return { m with count := if r.added then m.count + 1 else m.count, root := some r.node }

/-- Remove the binding of `key`. The count drops whenever the root changed. -/
def erase : Except TrieFailure (HashMap K V) :=
  if keying.isNil key then
    match m.nilValue with
    | some _ => pure { m with count := m.count - 1, nilValue := none }
    | none => pure m
  else
    match m.root with
    | none => pure m
    | some root => do
      match ← root.erase keying (keying.hash key) key TrieNode.maxLevels 0 with
      | .unchanged => return m
      | .changed n => return { m with count := m.count - 1, root := some n }
      | .gone => return { m with count := m.count - 1, root := none }

/-- Look `key` up among the nodes, where the nil key is never found. -/
def findInNodes? : Except TrieFailure (Option V) :=
  match m.root with
  | none => pure none
  | some root => root.find? keying (keying.hash key) key TrieNode.maxLevels 0

def find? : Except TrieFailure (Option V) :=
  if keying.isNil key then pure m.nilValue else m.findInNodes? keying key

/-- The bindings other than that of the nil key, in the order of the slots. -/
def nodeEntries : List (K × V) :=
  match m.root with
  | none => []
  | some root => root.entries

end HashMap

end HostedLisp.Coll
