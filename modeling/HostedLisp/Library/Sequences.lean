import HostedLisp.Message.Make

/-!
# The library: sequences, collections and names

Functions that programs call on values of any kind.

The small steps on words and arrays that hash tables are made of, as functions of values.

- `Library.seq`, `Library.first`, `Library.isSeqable`, `Library.cons`: sequences.
- `Library.vector`, `Library.map`, `Library.set`: collections from arguments.
- `Library.name`, `Library.homeOf`, `Library.infoOf`, `Library.macroFlag`: what is known about a
  value.
- `Library.slotOfHash`, `Library.bitOfHash`, `Library.bitsSet`, `Library.mixHash`: words.
- `Library.withItems`, `Library.withoutPair`, `Library.copyItems`: arrays.
- `Library.mapHash`, `Library.mapOfDict`: whole maps.
-/

namespace HostedLisp.Library

open SessionM

/-- A class that a function of the core protocols was not extended to. -/
def notExtended (fn : String) (v : Value) : SessionM Error := do
  return .signal .protocol ("clojure.protocols" ++ fn ++ " not extended to handle: "
    ++ (v.classOf (← viewer)).shown)

/-! ## Sequences -/

def seq (v : Value) : SessionM Value := do
  let v ← resolve v
  match v with
  | .ref _ => do
    if ← isStream v then send v "seq" [] else throw (← notExtended "seq" v)
  | v => lift v.seq

def seqableClasses : List String := [
  "NoneType", "str", "tuple", "list", "PersistentList", "NList", "EmptyList", "Cons",
  "PersistentVector", "SubVec", "MapEntry", "PersistentHashMap", "PersistentHashSet",
  "PersistentArrayMap", "PersistentTreeMap", "IndexableSeq", "KeySeq", "ValueSeq", "NodeSeq", "Seq",
  "FileSeq", "MutatableFileSeq"]

/-- Whether the values of the class of a value have sequences. -/
def isSeqable (v : Value) : SessionM Bool := do
  let classes ← heritage (← typeOf (← resolve v))
  return classes.any fun t =>
    match t with
    | .type _ n => seqableClasses.contains n
    | _ => false

/-- The first item of the sequence of a value; what is empty has none. -/
def first (v : Value) : SessionM Value := do
  match ← seq v with
  | .nil => throw (← notExtended "first" .nil)
  -- the protocol does not know the sequences of sorted maps
  | .treeSeq .. => throw (.abstractIn "Seq")
  | s => firstOf s

/-- An item in front of the sequence of a value. -/
def cons (x v : Value) : SessionM Value := do
  let v ← resolve v
  match v with
  | .nil => return Value.listOf [x]
  | .emptyList _ => return .cons x v .nil
  | v =>
    if v.isSeqCell then return .cons x v .nil
    else if ← isStream v then return .cons x v .nil
    else return .cons x (← seq v) .nil

/-- Call a function with the first items of sequences. -/
def applyTo (f args : Value) : SessionM Value := do
  apply f (← (← itemsOf args).mapM fun x => send x "first" [])

/-- The items of a value in a tuple. -/
def tuple (v : Value) : SessionM Value := do
  match v with
  | .nil => return .tuple []
  | .tuple xs => return .tuple xs
  | v => return .tuple (← itemsOf v)

/-! ## Collections -/

def vector (args : List Value) : Value := Value.vectorOf args

def map (args : List Value) : SessionM Value := do
  lift (Value.mapFromArgs (← args.mapM resolve))

/-- Bind a key in the table of the shared empty set. -/
def bindShared (k v : Value) : SessionM Unit := do
  let m ← lift (Value.tableInsert (← get).emptySet k v)
  modify fun s => { s with emptySet := m }

/-- Bind items pairwise in the table of the shared empty set, as far as they go. -/
def bindSharedPairs : List Value → SessionM Unit
  | [] => return ()
  | [_] => fault .index
  | k :: v :: rest => do
    bindShared k v
    bindSharedPairs rest

/-- Bind the items of an indexed collection pairwise in the table of the shared empty set. -/
def bindSharedItems (source : Value) (size : Nat) : (fuel i : Nat) → SessionM Unit
  | 0, _ => return ()
  | fuel + 1, i => do
    if i < size then
      let k ← itemAt source (.int i)
      bindShared k (← itemAt source (.int (i + 1)))
      bindSharedItems source size fuel (i + 2)
    else return ()

/-- The shared empty set, after the keys given with their values have been put into it. -/
def set (args : List Value) : SessionM Value := do
  let args ← args.mapM resolve
  match args with
  | [.dict pairs] =>
    for (k, v) in pairs do
      if (← lift (Value.tableGet? (← get).emptySet k)).isSome then
        throw (.signal .invalidArgument "Duplicate key")
      bindShared k v
  | [only] =>
    if only.isIndexable then
      let n := (← lift only.len).toNat
      bindSharedItems only n (n + 1) 0
    else bindSharedPairs args
  | args => bindSharedPairs args
  Make.sharedSet

/-- The part of a vector from `start` up to `stop`. -/
def slice (v start stop : Value) : SessionM Value := do lift (Value.slice (← resolve v) start stop)

/-- Whether a value can be asked for the items that it has. -/
def isTableLike (v : Value) : SessionM Bool := do
  return (← supports v "__getitem__") && (← supports v "__iter__") && (← supports v "__contains__")

/-- Whether a value has a size and items by position. -/
def isIndexed (v : Value) : SessionM Bool := do
  return (← supports v "__getitem__") && (← supports v "__len__")

/-- Add an entry or a pair to a map. No other sequence can be walked here. -/
def conjPair (m x : Value) : SessionM Value := do
  let x ← resolve x
  match x with
  | .entry k v => send m "assoc" [k, v]
  | x =>
    if ← isIndexed x then
      if ← equals (← sizeOf x) (.int 2) then
        let k ← itemAt x (.int 0)
        send m "assoc" [k, ← itemAt x (.int 1)]
      else throw (.signal .invalidArgument "Vector arg must be a pair")
    else
      let _ ← seq x
      fault .attribute

/-! ## What is known about a value -/

variable (v : Value)

def name : SessionM Value := do
  match ← cell? v with
  | some (.userType t) => return .str t.name
  | _ => Message.nameText v

/-- Where a named value is at home. -/
def homeOf : SessionM Value := do
  match v with
  | .symbol s _ | .keyword s => return (s.ns.map Value.str).getD .nil
  | .type home _ => return .str home
  | v =>
    match ← cell? v with
    | some (.userType _) => return .str "__main__"
    | _ => throw (← notExtended "getNamespace" v)

/-- A truth value stands for itself; anything else is true only if it is nothing. -/
def truthOf : Value :=
  match v with
  | .bool b => .bool b
  | v => .bool v.isNil

/-- Give a thing a method that answers its metadata. -/
def setInfoOf (v data : Value) : SessionM Value := do
  assignPart v "meta" (← allocRef (.constant data))
  return v

/-- The metadata of a value, nil if it cannot have any. -/
def infoOf : SessionM Value := do
  match ← part? (← resolve v) "meta" with
  | some _ => send v "meta" []
  | none => return .nil

/-- What a value says of itself about being a macro. -/
def ownMacroFlag : SessionM Value := do
  return (← part? v "macro?").getD (.bool false)

/-- What the metadata of a value say about its being a macro, or else what it says itself. -/
def macroFlag : SessionM Value := do
  let v ← resolve v
  match ← typeOf v, ← part? v "meta" with
  | .type "builtins" "type", _ | _, none => ownMacroFlag v
  | _, some _ =>
    let info ← send v "meta" []
    if ← isTrue info then
      let flag ← itemAt info (Value.kw "macro")
      if ← isTrue flag then return flag else ownMacroFlag v
    else ownMacroFlag v

/-- A text with its special characters escaped. -/
def escaped : SessionM Value := do
  match v with
  | .str s | .numeral s => return .str (Text.readable s)
  | v =>
    -- the items of other things count if they all are text
    let parts ← (← itemsOf v).mapM fun x => do
      let _ ← lift x.hash
      match x with
      | .str s => return if s.length = 1 then Text.readable s else s
      | _ => fault .type
    return .str (String.join parts)

/-- How far two values are apart in the natural order. -/
def compare (a b : Value) : SessionM Value := do
  if ← equals a b then return .int 0
  else if ← lessThan a b then return .int (-1)
  else return .int 1

/-! ## Words -/

def slotOfHash (h shift : Value) : SessionM Value := do
  return .int (Int.ofNat (← lift (slotOf (← intOf h) (← intOf shift))))

def bitOfHash (h shift : Value) : SessionM Value := do
  return .int (bitOf (← lift (slotOf (← intOf h) (← intOf shift))))

/-- The number of bits that are set, as far as it is counted in 32 bits. -/
def bitsSet : SessionM Value := do return .int (Coll.bitCount (← intOf v))

/-- Mix the bits of a seed. The hash that it is to be mixed with has no influence. -/
def mixHash (_h seed : Value) : SessionM Value := do
  let seed ← intOf seed
  return .int (Value.xorInt seed (seed + 0x9e3779b9 + seed * 64 + seed.shiftRight 2))

/-! ## Arrays -/

/-- The items of an array, and how to make one like it. -/
def arrayItems : SessionM (List Value) := do
  match v with
  | .array xs => return xs
  | _ => fault .type

/-- A copy of an array with one or two items set; the second place counts only if it is not the
first of the array. -/
def withItems (args : List Value) : SessionM Value := do
  let build (xs i x j y : Value) : SessionM Value := do
    let first ← lift (ItemArray.setItem (← arrayItems xs) (← intOf i) x)
    if ← lift j.truthy then return .array (← lift (ItemArray.setItem first (← intOf j) y))
    else return .array first
  match args with
  | [xs, i, x] => build xs i x .nil .nil
  | [xs, i, x, j] => build xs i x j .nil
  | [xs, i, x, j, y] => build xs i x j y
  | _ => fault .type

def withoutPair (xs i : Value) : SessionM Value := do
  match xs with
  | .array xs => return .array (ItemArray.removePair xs (← intOf i))
  | .tuple _ | .str _ => fault .attribute
  | _ => fault .type

/-- The bound of a run, which may be left open. -/
def runBound (openAt : Int) : SessionM Int := do
  match v with
  | .nil => return openAt
  | v => intOf v

/-- An array after a run of another one was put into it. -/
def copyItems (args : List Value) : SessionM Value := do
  match args with
  | [src, srcPos, dest, destPos, stop] =>
    let items ← match src with
      | .array xs | .tuple xs => pure xs
      | .str s => pure (s.toList.map Value.char)
      | _ => fault .type
    let into ← arrayItems dest
    let from_ := ItemArray.run items (← runBound srcPos 0) (← runBound stop items.length)
    return .array (ItemArray.splice into (← runBound destPos 0) (← runBound stop into.length) from_)
  | _ => fault .type

/-! ## Maps -/

/-- The hash of a map, which only array maps give. -/
def mapHash (m : Value) : SessionM Value := do
  match m with
  | .arrayMap items _ _ => return .int (← lift (Value.arrayMapHash items))
  | _ => fault .attribute

/-- The map of the keys of a collection and what it has under them. -/
def mapOfDict (d : Value) : SessionM Value := do
  let m ← (← itemsOf d).foldlM (fun m k => do
    lift (Value.tableInsert m k (← itemAt d k))) Coll.HashMap.empty
  return .hashMap m .nil

def nodeKey (node : Value) : SessionM Value := send node "key" []

end HostedLisp.Library
