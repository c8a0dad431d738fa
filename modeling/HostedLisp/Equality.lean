import HostedLisp.Identity
import HostedLisp.Number.Basic
import HostedLisp.Seq

/-!
# Equality, hashes and hash tables

Numbers are equal by value, sequential collections item by item, maps and sets by content. A
collection is equal to itself whatever it holds, so equality depends on which values are one and the
same object. Only values that are hashable can be keys.

- `Value.eqv`: equality, with a bound on the nesting depth; `Value.eq` is `eqv` at the usual bound.
- `Value.hashAt`, `Value.hash`: hashes. Lists, other sequences, maps and arrays have none.
- `Value.keying`: the hashing and equality that hash tables of values use.
- `Value.tableInsert`, `tableErase`, `tableGet?`: hash tables keyed by values. Keys must be
  hashable.
- `Value.mapOf`, `Value.setInsert`: maps and sets built from them.
- `Value.info`, `Value.withInfo?`: metadata.
- `Value.lineInfo`: metadata that holds a line number.
-/

namespace HostedLisp.Value

open Coll

/-- The number that a value stands for in arithmetic. -/
def asNumber? : Value → Option Number
  | .int n => some (.exact n)
  | .bool b => some (.exact (if b then 1 else 0))
  | .opcode o => some (.exact (o.number : Nat))
  | .ratio q => some (.exact q)
  | .float x => some (.float x)
  | .nan _ => some (.float Number.nan)
  | _ => none

/-- The integer that a value stands for as an index. -/
def asInt? : Value → Option Int
  | .int n => some n
  | .bool b => some (if b then 1 else 0)
  | .opcode o => some o.number
  | _ => none

/-! ## Hashes -/

/-- The hash of a string. -/
def hashCodes (codes : List Nat) : Int :=
  Int.ofNat (codes.foldl (fun h c => (h * 1000003 + c + 1) % Number.hashModulus) 5381)

/-- The hash of a name. -/
def hashString (s : String) : Int := hashCodes (s.toList.map Char.toNat)

def hashNil : Int := 8795533

/-- Exclusive or of two hashes in two's complement. -/
def xorInt (a b : Int) : Int :=
  match a, b with
  | .ofNat a, .ofNat b => Int.ofNat (a ^^^ b)
  | .ofNat a, .negSucc b => Int.negSucc (a ^^^ b)
  | .negSucc a, .ofNat b => Int.negSucc (a ^^^ b)
  | .negSucc a, .negSucc b => Int.ofNat (a ^^^ b)

/-- The hash of a symbol mixes the hashes of its two parts, so that exchanging them keeps it. -/
def hashSymbol (s : Symbol) : Int :=
  Number.hashResult (xorInt (hashString s.name) (match s.ns with
    | none => hashNil
    | some ns => hashString ns))

/-- The hash of the items of a vector. -/
def hashItems (hashes : List Int) : Int :=
  Number.hashResult (hashes.foldl (fun h x => 31 * h + x) 1)

/-- The hash of a tuple, which differs from that of a vector with the same items. -/
def hashTuple (hashes : List Int) : Int :=
  let step (acc : UInt64) (lane : Int) : UInt64 :=
    let acc := acc + UInt64.ofNat (lane % Nat.pow 2 64).toNat * 14029467366897019727
    let acc := (acc <<< 31) ||| (acc >>> 33)
    acc * 11400714785074694791
  let acc := hashes.foldl step 2870177450012600261
  let acc := acc + (UInt64.ofNat hashes.length ^^^ (2870177450012600261 ^^^ 3527539))
  let n : Int := acc.toNat
  if acc.toNat = Nat.pow 2 64 - 1 then 1546275796
  else if n ≥ Nat.pow 2 63 then n - Nat.pow 2 64 else n

/-- The hash of a value that may be a key. -/
def hashAt : (depth : Nat) → Value → Except Error Int
  | 0, _ => fault .recursion
  | depth + 1, v =>
    match v with
    | .nil => return hashNil
    | .int n => return Number.hashInt n
    | .bool b => return if b then 1 else 0
    | .opcode o => return o.number
    | .ratio q => return Number.hash (.exact q)
    | .float x => return Number.hashFloat x
    | .nan _ => return Number.hashFloat Number.nan
    | .str s | .numeral s => return hashString s
    | .wide codes => return hashCodes codes
    | .bytes b => return hashCodes b + 1
    | .regex p => return hashString p + 2
    | .symbol s _ => return hashSymbol s
    | .keyword s => return Number.hashResult (hashSymbol s + 0x9e3779b9)
    | .emptyList _ => return 1
    | .list .stepping .. => return 3
    | .entry k w => do return hashItems [← hashAt depth k, ← hashAt depth w]
    | .vector .. | .subvector .. => do return hashItems (← (← v.items).mapM (hashAt depth))
    | .tuple xs => do return hashTuple (← xs.mapM (hashAt depth))
    | .hashSet .. => do
      return Number.hashResult ((← (← v.items).mapM (hashAt depth)).foldl (· + ·) 0)
    | .treeNode _ | .method => return 4
    | .primitive _ | .comparator _ => return 5
    | .builtin n | .thing _ n | .module n => return hashString n + 6
    | .type home name => return hashString home + hashString name
    | .lineMarker => return 7
    | .label l => if l.hashable then return hashString l.name else fault .type
    | .ref a => return Int.ofNat a + 1000
    | .list .. | .cons .. | .indexSeq .. | .keySeq .. | .valSeq .. | .trieSeq .. | .treeSeq ..
    | .arraySeq .. | .hashMap .. | .arrayMap .. | .treeMap .. | .array _ | .dict _ | .code _ =>
      fault .type

def hash (v : Value) : Except Error Int := hashAt depthLimit v

/-! ## Equality -/

variable [Identity]

section

variable (eq : Value → Value → Except Error Bool)

/-- The hashing and equality of hash tables, given the equality of keys and values. -/
def keyingWith : Keying Value Value where
  isNil := isNil
  hash v := (v.hash).toOption.getD 0
  eq a b := (eq a b).toOption.getD false
  valEq a b := (eq a b).toOption.getD false

def trieError : TrieFailure → Error
  | .slotOutOfRange => .fault .index
  | .vacantSlot => .fault .attribute
  | .shiftExhausted => .signal .general "Shift max reached"
  | .collisionRemoval => .fault .type

def tableFind? (m : HashMap Value Value) (key : Value) : Except Error (Option Value) := do
  unless key.isNil || m.root.isNone do
    let _ ← key.hash
  match m.find? (keyingWith eq) key with
  | .ok v => return v
  | .error e => throw (trieError e)

/-- Whether two sequences are equal, step by step; the items of the second are asked first. -/
def eqSteps : (fuel : Nat) → (mine theirs : Value) → Except Error Bool
  | _, mine, .nil => return mine.isNil
  | 0, _, _ => fault .recursion
  | fuel + 1, mine, theirs => do
    if mine.isNil then return false
    else if ← eq (← first theirs) (← first mine) then eqSteps fuel (← next mine) (← next theirs)
    else return false

/-- Whether two sequences are equal. -/
def eqSeqs (mine theirs : Value) : Except Error Bool := eqSteps eq (extent theirs + 1) mine theirs

/-- Whether arrays are equal; an item is always equal to itself. -/
def eqArrays : List Value → List Value → Except Error Bool
  | [], [] => return true
  | x :: xs, y :: ys => do
    if Identity.is x y then eqArrays xs ys
    else if ← eq x y then eqArrays xs ys
    else return false
  | _, _ => return false

/-- Whether an item is among others. -/
def memberOf (x : Value) : List Value → Except Error Bool
  | [] => return false
  | y :: ys => do
    if Identity.is y x then return true
    else if ← eq y x then return true
    else memberOf x ys

/-- The binding of a key in a list of pairs. -/
def pairFind? (key : Value) : List (Value × Value) → Except Error (Option Value)
  | [] => return none
  | (k, v) :: rest => do
    if Identity.is k key then return some v
    else if ← eq k key then return some v
    else pairFind? key rest

/-- Whether `xs` occurs in `ys` as a run. -/
def isRunOf (xs : List Nat) : List Nat → Bool
  | [] => xs.isEmpty
  | y :: ys => xs.isPrefixOf (y :: ys) || isRunOf xs ys

/-- What a collection gives for a key when a map is compared with it: nothing if the key is not
in it. -/
def counterpart (other key : Value) : Except Error (Option Value) := do
  match other with
  | .hashMap m _ => tableFind? eq m key
  | .dict pairs =>
    let _ ← key.hash
    pairFind? eq key pairs
  | .tuple xs | .array xs =>
    if ← memberOf eq key xs then
      match key.asInt? with
      | some i => return some (← arrayItem xs i)
      | none => fault .type
    else return none
  | .list .. | .cons .. | .indexSeq .. =>
    let xs ← other.items
    if ← memberOf eq key xs then
      -- positions count from zero and are compared with the key as numbers
      let hit := xs.zipIdx.find? fun (_, i) => match key.asNumber? with
        | some n => Number.eq (.exact (i : Nat)) n
        | none => false
      return some ((hit.map (·.1)).getD .nil)
    else return none
  | .str _ | .wide _ =>
    match key.codes?, other.codes? with
    | some part, some whole =>
      if isRunOf part whole then fault .type else return none
    | _, _ => fault .type
  | _ => fault .type

/-- Whether every binding of a table has an equal counterpart. -/
def eqBindings (other : Value) : List (Value × Value) → Except Error Bool
  | [] => return true
  | (k, v) :: rest => do
    match ← counterpart eq other k with
    | none => return false
    | some w => if ← eq w v then eqBindings other rest else return false

/-- All bindings of a hash table, that of nil first. -/
def tableEntries (m : HashMap Value Value) : List (Value × Value) :=
  match m.nilValue with
  | some v => (.nil, v) :: m.nodeEntries
  | none => m.nodeEntries

/-- A kind mismatch while comparing counts as a difference. -/
def falseOnMismatch (r : Except Error Bool) : Except Error Bool :=
  match r with
  | .error (.fault .type) | .error (.signal .arity _) => return false
  | r => r

/-- The vectors, sub-vectors and entries. -/
def isVectorLike : Value → Bool
  | .vector .. | .subvector .. | .entry .. => true
  | _ => false

/-- The sequences that are not the empty list. -/
def isSeqCell : Value → Bool
  | .list .. | .cons .. | .indexSeq .. | .keySeq .. | .valSeq .. | .trieSeq .. | .treeSeq ..
  | .arraySeq .. => true
  | _ => false

def isMap : Value → Bool
  | .hashMap .. | .arrayMap .. | .treeMap .. => true
  | _ => false

def isSet : Value → Bool
  | .hashSet .. => true
  | _ => false

/-- The collections with a fixed order of items. -/
def isSequential (v : Value) : Bool :=
  v.isVectorLike || v.isSeqCell || match v with
    | .emptyList _ => true
    | _ => false

/-- Equality as the value on the left decides it; `none` if it leaves the decision to the right. -/
def eqFromLeft (a b : Value) : Option (Except Error Bool) :=
  match a with
  | .vector .. | .subvector .. | .entry .. => some do
    if Identity.is a b then return true
    else if b.isSeqable && !b.isMap && !b.isSet then eqSeqs eq (← seq a) (← seq b)
    else return false
  | .list .. | .cons .. | .indexSeq .. | .keySeq .. | .valSeq .. | .trieSeq .. | .treeSeq ..
  | .arraySeq .. => some do
    if Identity.is a b then return true
    else if b.isSeqable && !b.isSet then eqSeqs eq a (← seq b)
    else return false
  | .emptyList _ => some do
    match b with
    | .tuple xs | .array xs => return xs.isEmpty
    | _ => if b.isSequential then return (← seq b).isNil else return false
  | .hashMap m _ => some do
    if Identity.is a b then return true
    else if b.isSet || b.isVectorLike then return false
    else falseOnMismatch do
      if (← a.len) = (← b.len) then eqBindings eq b (tableEntries m) else return false
  | .arrayMap .. | .treeMap .. => some do
    if Identity.is a b then return true
    else if b.isSet || b.isVectorLike then return false
    else falseOnMismatch do
      let _ ← a.len
      return false
  | .hashSet m _ => some do
    if Identity.is a b then return true
    else
      match b with
      | .hashSet n _ =>
        if (← a.len) = (← b.len) then eqBindings eq (.hashMap n .nil) (tableEntries m)
        else return false
      | _ => return false
  | .symbol x _ => some (match b with
    | .symbol y _ => return x == y
    | _ => return false)
  | .label x => some (match b with
    | .label y => return x.name == y.name
    | _ => return false)
  | _ => none

/-- Equality of values whose kinds the machine underneath knows. -/
def eqBasic (a b : Value) : Except Error Bool :=
  match a.asNumber?, b.asNumber? with
  | some x, some y => return x.eq y
  | _, _ =>
    match a.codes?, b.codes? with
    | some x, some y => return x == y
    | _, _ =>
      match a, b with
      | .tuple x, .tuple y => eqArrays eq x y
      | .array x, .array y => eqArrays eq x y
      | .dict x, .dict y => do
        if x.length = y.length then eqBindings eq b x else return false
      | .regex x, .regex y => return x == y
      | _, _ => return Identity.is a b

end

/-- Equality, with a bound on the nesting depth. The left value decides, or else the right one. -/
def eqv : (depth : Nat) → Value → Value → Except Error Bool
  | 0, _, _ => fault .recursion
  | d + 1, a, b =>
    match eqFromLeft (eqv d) a b with
    | some r => r
    | none =>
      match eqFromLeft (eqv d) b a with
      | some r => r
      | none => eqBasic (eqv d) a b

def eq (a b : Value) : Except Error Bool := eqv depthLimit a b

/-- Equality where a failure counts as a difference. -/
def eqB (a b : Value) : Bool := (eq a b).toOption.getD false

/-- The hashing and equality that hash tables of values use. -/
def keying : Keying Value Value := keyingWith eq

/-- A hash table of values. -/
abbrev Table := HashMap Value Value

def tableInsert (m : Table) (key val : Value) : Except Error Table := do
  unless key.isNil do
    let _ ← key.hash
  match m.insert keying key val with
  | .ok m => return m
  | .error e => throw (trieError e)

def tableErase (m : Table) (key : Value) : Except Error Table := do
  unless key.isNil || m.root.isNone do
    let _ ← key.hash
  match m.erase keying key with
  | .ok m => return m
  | .error e => throw (trieError e)

def tableGet? (m : Table) (key : Value) : Except Error (Option Value) := tableFind? eq m key

def tableInsertAll (m : Table) : List (Value × Value) → Except Error Table
  | [] => return m
  | (k, v) :: rest => do tableInsertAll (← tableInsert m k v) rest

/-- Tell watches of a change. This fails where there are any, because their sequence lacks what the
walk over it asks for. -/
def tellWatches (watches : Table) : Except Error Unit := do
  if (← checkedLen watches.count) > 0 then fault .attribute

def mapOf (pairs : List (Value × Value)) : Except Error Value := do
  return .hashMap (← tableInsertAll .empty pairs) .nil

def emptyMap : Value := .hashMap .empty .nil

def emptySet : Value := .hashSet .empty .nil

/-- Put an element into the table of a set; one that is there already stays. -/
def setInsert (m : Table) (x : Value) : Except Error Table := do
  match ← tableGet? m x with
  | some _ => return m
  | none => tableInsert m x x

def sym (name : String) : Value := .symbol (.plain name) .nil

def qsym (ns name : String) : Value := .symbol ⟨some ns, name⟩ .nil

def kw (name : String) : Value := .keyword (.plain name)

/-- Metadata that holds a line number only. -/
def lineInfo (line : Int) : Value :=
  match mapOf [(kw "line", .int line)] with
  | .ok m => m
  | .error _ => .nil

/-- The metadata of the values that have a place for it. -/
def info : Value → Value
  | .symbol _ i | .emptyList i | .list _ _ _ _ i | .cons _ _ i | .vector _ i | .subvector _ _ _ i
  | .hashMap _ i | .hashSet _ i | .arrayMap _ _ i | .treeMap _ _ _ i | .keySeq _ i | .valSeq _ i
  | .trieSeq _ _ i | .treeSeq _ _ _ i | .arraySeq _ _ i => i
  | _ => .nil

/-- Attach metadata. Lists keep metadata that is equal to the new one; sub-vectors keep theirs
always; a tree map takes its tree for its count. -/
def withInfo (v data : Value) : Except Error Value :=
  match v with
  | .symbol s _ => return .symbol s data
  | .emptyList old => do if ← eq old data then return v else return .emptyList data
  | .list _ x rest n old => do
    if ← eq data old then return v else return .list .plain x rest n data
  | .cons x rest _ => return .cons x rest data
  | .vector items _ => return .vector items data
  | .subvector .. => return v
  | .hashMap m _ => return .hashMap m data
  | .hashSet m _ => return .hashSet m data
  | .arrayMap items fixed _ => return .arrayMap items fixed data
  | .treeMap order tree _ _ =>
    if data.isMap then
      let count := match tree with
        | .empty => .nil
        | t => .treeNode t
      return .treeMap order tree count data
    else throw .badArity
  | .keySeq s _ => return .keySeq s data
  | .valSeq s _ => return .valSeq s data
  | .trieSeq dense es _ => return .trieSeq dense es data
  | .arraySeq items i _ => return .arraySeq items i data
  | .indexSeq .. => throw (.abstractIn "IndexableSeq")
  | .entry .. => fault .attribute
  | .treeSeq .. => fault .type
  | _ => fault .attribute

/-- The values that metadata can be attached to. -/
def takesInfo : Value → Bool
  | .symbol .. | .emptyList .. | .list .. | .cons .. | .vector .. | .subvector .. | .hashMap ..
  | .hashSet .. | .arrayMap .. | .treeMap .. | .keySeq .. | .valSeq .. | .trieSeq .. | .arraySeq ..
  | .indexSeq .. | .treeSeq .. => true
  | _ => false

end HostedLisp.Value
