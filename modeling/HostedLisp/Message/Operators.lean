import HostedLisp.Message.Send

/-!
# Operators on values of any kind

What can be asked of every value, whether it is held by content or by address.

- `SessionM.equals`, `SessionM.hashOf`, `SessionM.lessThan`, `SessionM.isTrue`: comparison.
- `SessionM.sizeOf`, `SessionM.itemsOf`, `SessionM.nextOf`, `SessionM.itemAt`, `SessionM.hasItem`:
  values as collections.
- `SessionM.shownText`, `SessionM.inspectedText`, `SessionM.printed`: text.
- `SessionM.supports`: whether a value has an operator.
-/

namespace HostedLisp.SessionM

variable (v : Value)

/-- What an object answers to an operator that its class defines. -/
def objectAnswer? (operator : String) (args : List Value) :
    SessionM (Option Value) := do
  match ← typeOf v with
  | t@(.ref _) =>
    match ← typeMember? t operator with
    | some f => return some (← apply f (v :: args))
    | none => return none
  | _ => return none

/-- The same, where there has to be an answer. -/
def objectAnswer (operator : String) (args : List Value) : SessionM Value := do
  match ← objectAnswer? v operator args with
  | some r => return r
  | none => fault .type

/-! ## Comparison -/

def equals (a b : Value) : SessionM Bool := do
  let a ← resolve a
  let b ← resolve b
  match ← cell? a, ← cell? b with
  | some (.bigNumber _), _ => lift (← send a "__eq__" [b]).truthy
  | _, some (.bigNumber _) => lift (← send b "__eq__" [a]).truthy
  | some (.streamSeq _), _ => streamEq a b
  | none, some (.streamSeq _) => streamEq b a
  | some (.object ..), _ =>
    match ← objectAnswer? a "__eq__" [b] with
    | some r => lift r.truthy
    | none => lift (a.eq b)
  | _, _ => lift (a.eq b)

def hashOf : SessionM Int := do
  let v ← resolve v
  match ← cell? v with
  | some (.bigNumber .random) => lift v.hash
  | some (.bigNumber _) | some (.streamSeq _) | some .hollowSeq | some (.movingSeq ..) =>
    fault .type
  | _ => lift v.hash

def lessThan (a b : Value) : SessionM Bool := do
  match ← cell? a, ← cell? b with
  | some (.bigNumber _), _ => lift (← send a "__lt__" [b]).truthy
  | _, some (.bigNumber _) => lift (← send b "__gt__" [a]).truthy
  | _, _ => lift (Value.less a b)

/-! ## Collections -/

/-- The number of items. -/
def sizeOf : SessionM Value := do
  let v ← resolve v
  match ← cell? v with
  | some (.transient _) => throw (.abstractIn "TransientArrayMap")
  | some (.object ..) => objectAnswer v "__len__" []
  | some _ => fault .type
  | none => return .int (← lift v.len)

def isTrue : SessionM Bool := do
  let v ← resolve v
  match ← cell? v with
  | some (.transient _) => throw (.abstractIn "TransientArrayMap")
  | some (.object ..) =>
    match ← objectAnswer? v "__len__" [] with
    | some r => lift r.truthy
    | none => return true
  | _ => lift v.truthy

/-- All that is still to come of a generator. -/
def drainAll (a : Address) (rest : List Value) (failure : Option Error) :
    SessionM (List Value) := do
  store a (.generator [] none)
  match failure with
  | some e => throw e
  | none => return rest

def itemsOf : SessionM (List Value) := do
  let v ← resolve v
  match v with
  | .ref a =>
    match ← fetch a with
    | .streamSeq _ | .movingSeq .. => return (← walkStream #[] Value.walkLimit v).toList
    | .generator rest failure => drainAll a rest failure
    | .object .. => lift (← objectAnswer v "__iter__" []).iterate
    | _ => fault .type
  | v => lift v.iterate

/-- The next of a sequence or a walk. -/
def nextOf : SessionM Value := do
  match v with
  | .ref a =>
    match ← fetch a with
    | .streamSeq _ => streamNext v
    | .movingSeq .. => movingNext v
    | .hollowSeq => fault .attribute
    | .textReader _ =>
      let _ ← readerTake v
      return v
    | .record ⟨_, "AAlias"⟩ fields | .record ⟨_, "FnArgument"⟩ fields =>
      return (fields.lookup "rest").getD .nil
    | .record ⟨_, "Seq"⟩ _ => fault .attribute
    | .object .. => objectAnswer v "__next__" []
    | _ => Message.walkNext v
  | v => lift v.next

/-- The item of a value under an index or a key. -/
def itemAt (v i : Value) : SessionM Value := do
  let v ← resolve v
  match ← cell? v with
  | some (.streamSeq _) | some (.movingSeq ..) => do
    lift ((← Message.streamList v).subscript i)
  | some (.object ..) => objectAnswer v "__getitem__" [i]
  | some _ => fault .type
  | none => lift (v.subscript i)

def hasItem (v x : Value) : SessionM Bool := do
  let v ← resolve v
  match ← cell? v with
  | some (.object ..) => lift (← objectAnswer v "__contains__" [x]).truthy
  | some _ => lift (Value.memberOf Value.eq x (← itemsOf v))
  | none => lift (v.isMember x)

/-- The first items of a sequence, at most so many. -/
def walkFirst : (fuel : Nat) → Value → SessionM (List Value)
  | 0, _ => return []
  | _, .nil => return []
  | fuel + 1, v => do
    let x ← match v with
      | .ref _ => send v "first" []
      | v => lift v.first
    return x :: (← walkFirst fuel (← nextOf v))

/-- The next items of a walk, exactly so many. -/
def drain : (count : Nat) → Value → SessionM (List Value)
  | 0, _ => return []
  | count + 1, v => do
    let x ← nextOf v
    return x :: (← drain count v)

/-! ## Text -/

/-- The value that shows itself in place of another one. -/
def shownAs (v : Value) : SessionM Value := do
  let v ← resolve v
  match ← cell? v with
  | some (.streamSeq _) | some (.movingSeq ..) => Message.streamList v
  | _ => return v

/-- The text of an exception made from two parts. -/
def pairText (fields : List (String × Value)) : SessionM String := do
  lift ((fields.lookup "args").getD .nil |>.shown (← viewer))

def shownText (v : Value) : SessionM String := do
  let v ← shownAs v
  match ← cell? v with
  | some (.bigNumber .random) => text v
  | some (.bigNumber _) => fault .type
  | some (.record ⟨_, "Name"⟩ _) => Message.nameSlotText v
  | some (.record ⟨_, "NoNamespaceException"⟩ fields) => pairText fields
  | some (.object ..) =>
    match ← objectAnswer? v "__str__" [], ← objectAnswer? v "__repr__" [] with
    | some r, _ | none, some r => plainText r
    | none, none => text v
  | _ => text v

def inspectedText (v : Value) : SessionM String := do
  let v ← shownAs v
  match ← cell? v with
  | some (.bigNumber .random) => lift (v.inspect (← viewer))
  | some (.bigNumber _) => fault .type
  | some (.record ⟨_, "NoNamespaceException"⟩ fields) =>
    return "NoNamespaceException" ++ (← pairText fields)
  | some (.object ..) =>
    match ← objectAnswer? v "__repr__" [] with
    | some r => plainText r
    | none => lift (v.inspect (← viewer))
  | _ => lift (v.inspect (← viewer))

/-- How a value is printed, for people or for the reader. -/
def printed (v : Value) (readable : Bool) : SessionM Written := do
  lift ((← shownAs v).write (← viewer) readable)

/-! ## Operators that a value has -/

/-- The operators of classes that are there from the start. -/
def classOperators (name : String) : List String :=
  let item := "__getitem__"
  let iter := "__iter__"
  let contains := "__contains__"
  let size := "__len__"
  match name with
  | "str" | "GStr" | "bytes" | "list" | "tuple" | "dict" | "MapEntry" | "PersistentHashMap"
  | "PersistentArrayMap" | "PersistentTreeMap" => [item, iter, contains, size]
  | "set" => [iter, contains, size]
  | "PersistentVector" | "SubVec" | "PersistentList" | "NList" | "Cons" | "IndexableSeq" =>
    [item, iter, size]
  | "EmptyList" => [iter, size]
  | "KeySeq" | "ValueSeq" | "NodeSeq" | "Seq" | "FileSeq" | "MutatableFileSeq" => [item, iter]
  | "PersistentHashSet" => [item, contains, size]
  | "TransientArrayMap" => [size]
  | _ => []

/-- Whether a value, or a class of values, has an operator. -/
def supports (v : Value) (operator : String) : SessionM Bool := do
  let v ← resolve v
  match v with
  | .type _ n => return (classOperators n).contains operator
  | .arraySeq .. => return ["__getitem__", "__iter__", "__len__"].contains operator
  | .ref a =>
    match ← fetch a with
    | .userType _ => return (← typeMember? v operator).isSome
    | .object t _ => return (← typeMember? t operator).isSome
    | c => return (classOperators ((← get).classNameOf c).name).contains operator
  | v => return (classOperators (v.classOf (← viewer)).name).contains operator

end HostedLisp.SessionM
