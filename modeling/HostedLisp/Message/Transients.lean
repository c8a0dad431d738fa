import HostedLisp.Message.Method
import HostedLisp.Session.TrieNodes

/-!
# Methods of transient maps, walks and trie nodes
-/

namespace HostedLisp.Message

open Coll Method SessionM

def transientAt : Value → SessionM (Address × TransientMap) := contentOf fun
  | .transient t => some t
  | _ => none

/-- A method that only the owner of a transient map may use. -/
def owned (m : Method) : Method := { m with
  run := fun self args => do
    lift ((← transientAt self).2.checkEditable (← get).thread)
    m.run self args }

def transientAssoc (self key val : Value) : SessionM Value := do
  let (a, t) ← transientAt self
  store a (.transient (← lift (t.assoc key val)))
  return self

/-- Remove a key in place. Taking the last one away leaves an empty map that cannot be told. -/
def transientErase (self key : Value) : SessionM Value := do
  let (a, t) ← transientAt self
  let t' ← lift (t.erase key)
  store a (.transient t')
  if t'.items.isEmpty && !t.items.isEmpty then fault .attribute else return self

def transientGet (self key default : Value) : SessionM Value := do
  lift ((← transientAt self).2.get key default)

/-- A question with an optional default. -/
def actOr (f : Value → Value → Value → SessionM Value) : Method :=
  ⟨1, some 2, fun self args => f self (args[0]?.getD .nil) (args[1]?.getD .nil)⟩

/-- The value of a key, for the owner. -/
def transientValAt : Method := owned (actOr transientGet)

/-- The methods of transient maps. Counting and finishing by their public names never end. -/
def transientMethods : Methods := [
  ("indexOf", act1 fun self key => do
    match ← lift ((← transientAt self).2.indexOf? key) with
    | some i => return .int i
    | none => return .int (-1)),
  ("doAssoc", act2 transientAssoc),
  ("doWithout", act1 transientErase),
  ("doCount", act fun self => do return Value.pairCount (← transientAt self).2.items.length),
  ("doPersistent", owned <| act fun self => do
    let (a, t) ← transientAt self
    store a (.transient { t with owner := none })
    return t.toMap),
  ("doValAt", actOr transientGet),
  ("ensureEditable", owned (act fun _ => return .nil)),
  ("assoc", owned (act2 transientAssoc)),
  ("valAt", transientValAt),
  ("conj", owned (failing 1 (.fault .attribute))),
  ("without", owned (failing 1 (.fault .type))),
  ("count", owned (failing 0 (.fault .recursion))),
  ("persistent", owned (failing 0 (.fault .recursion)))]

/-! ## Walks -/

/-- The next of what a walk goes over. -/
def walkNext (self : Value) : SessionM Value := do
  match self with
  | .ref a =>
    match ← fetch a with
    | .generator (x :: rest) e =>
      store a (.generator rest e)
      return x
    | .generator [] none => fault .exhausted
    | .generator [] (some e) =>
      store a (.generator [] none)
      throw e
    | .nodeWalk [] _ => fault .index
    | .nodeWalk (t :: rest) asc =>
      store a (.nodeWalk (Tree.advance asc (t :: rest)) asc)
      return .treeNode t
    -- walks over nodes have no such method of their own
    | .partWalk .. => fault .attribute
    | _ => fault .type
  | _ => fault .type

/-- The methods of walks over nodes, keys and values. -/
def walkMethods : Methods := [
  ("hasNext", failing 0 (.fault .attribute)),
  ("remove", failing 0 (.signal .unsupportedOperation ""))]

/-! ## Trie nodes -/

def trieNodeMethods : Methods := [
  ("assoc", ⟨5, some 5, fun self args => do
    match args with
    | [shift, hash, key, val, box] =>
      nodeInsert (← intOf hash) key val (some box) nodeLevels self (← intOf shift)
    | _ => fault .type⟩),
  ("without", ⟨3, some 3, fun self args => do
    match args with
    | [shift, hash, key] => nodeErase (← intOf hash) key nodeLevels self (← intOf shift)
    | _ => fault .type⟩),
  ("find", ⟨3, some 4, fun self args => do
    match args with
    | shift :: hash :: key :: rest =>
      nodeFind (← intOf hash) key (rest[0]?.getD .nil) nodeLevels self (← intOf shift)
    | _ => fault .type⟩),
  ("nodeSeq", act nodeSeq),
  ("assocEd", ⟨6, some 6, fun self args => do
    match args with
    | [edit, shift, hash, key, val, box] =>
      nodeInsertEd edit (← intOf shift) (← intOf hash) key val (some box) self
    | _ => fault .type⟩),
  ("withoutEd", ⟨5, some 5, fun self args => do
    match args with
    | [edit, shift, hash, key, box] =>
      nodeEraseEd edit (← intOf shift) (← intOf hash) key (some box) self
    | _ => fault .type⟩)]

/-- The node itself or a copy that may be changed. -/
def ensureEditable : Method := act1 fun self edit => do return .ref (← editable self edit).1

/-- Changing one slot or two. -/
def editAndSet : Method := ⟨3, some 5, fun self args => do
  match args with
  | edit :: i :: x :: rest =>
    let first := (← intOf i, x)
    match rest[0]?.getD .nil with
    | .nil => editSlots self edit [first]
    | j => editSlots self edit [first, (← intOf j, rest[1]?.getD .nil)]
  | _ => fault .type⟩

def sparseNodeMethods : Methods := [
  ("index", act1 fun self bit => do
    match (← trieCell self).2.shape with
    | .sparse bits =>
      let low := (← intOf bit) - 1
      return .int (Coll.bitCount (Coll.maskBits bits (low % Nat.pow 2 32).toNat))
    | _ => fault .attribute),
  ("ensureEditable", ensureEditable),
  ("editAndSet", editAndSet),
  ("editAndRemovePair", ⟨3, some 3, fun self args => do
    match args with
    | [edit, bit, i] => editOut self edit (← intOf bit) (← intOf i)
    | _ => fault .type⟩)] ++ trieNodeMethods

def denseNodeMethods : Methods := [
  ("ensureEditable", ensureEditable),
  ("editAndSet", { editAndSet with most := some 3 }),
  ("pack", act2 fun self edit i => do packNode self edit (← intOf i))] ++ trieNodeMethods

def collisionNodeMethods : Methods := [
  ("findIndex", act1 fun self key => do
    let (_, n) ← trieCell self
    match n.shape with
    | .collision _ count => return .int (← lift (collisionFind n.slots count key))
    | _ => fault .attribute),
  ("ensureEditable", ⟨1, some 3, fun self args => do
    match args with
    | edit :: count :: rest =>
      let (a, n) ← trieCell self
      match count, rest[0]?.getD .nil, n.shape with
      | .nil, _, _ => return .ref (← editable self edit).1
      | count, .array slots, .collision own _ =>
        let grown : TrieCell := { n with shape := .collision own (← intOf count), slots := slots }
        if n.edit.same edit then
          store a (.trieNode grown)
          return self
        else allocRef (.trieNode { grown with edit := edit })
      | _, _, _ => fault .type
    | [edit] => return .ref (← editable self edit).1
    | [] => fault .type⟩),
  ("editAndSet", editAndSet)] ++ trieNodeMethods

end HostedLisp.Message
