import HostedLisp.Session.Basic

/-!
# Things of a session and their classes

- `Cell.className`: the class of a thing.
- `Session.view`: how each thing of a session shows itself.
- `SessionM.typeOf`: the class of a value, as a value.
- `SessionM.heritage`: a class and those that it inherits from.
- `SessionM.typeMember?`, `SessionM.partOf?`: what a class or an object of one has under a name.
- `Value.isOpen`: whether new members can be put into a thing.
-/

namespace HostedLisp

/-- The class of a thing, given those of the things that it refers to. -/
def Cell.className (typeName : Value → ClassName) : Cell → ClassName
  | .namespace _ => .lang "namespace" "Namespace"
  | .var _ => .lang "var" "Var"
  | .unbound _ => .lang "var" "Unbound"
  | .frame _ => .lang "var" "Frame"
  | .threadBox .. => .lang "var" "TBox"
  | .atom _ => .lang "atom" "Atom"
  | .box _ => .lang "box" "Box"
  | .atomic false _ => .lang "atomicreference" "AtomicReference"
  | .atomic true _ => .lang "threadutil" "AtomicInteger"
  | .multi _ => .lang "multimethod" "MultiMethod"
  | .transient _ => .lang "persistentarraymap" "TransientArrayMap"
  | .trieNode n => ⟨"clojure.lang.persistenthashmap", match n.shape with
    | .sparse _ => "BitmapIndexedNode"
    | .dense _ => "ArrayNode"
    | .collision .. => "HashCollisionNode"⟩
  | .bareNode _ => .lang "persistenttreemap" "Node"
  | .generator .. => .basic "generator"
  | .nodeWalk .. => .lang "persistenttreemap" "NodeIterator"
  | .partWalk keys _ =>
    ⟨"clojure.lang.persistenttreemap", if keys then "KeyIterator" else "ValIterator"⟩
  | .sharedSet => .lang "persistenthashset" "PersistentHashSet"
  | .userType _ => .basic "type"
  | .object t _ => typeName t
  | .protocolFn _ => .lang "protocol" "ProtocolFn"
  | .protocol _ => .lang "protocol" "Protocol"
  | .constant _ => .basic "function"
  | .textReader _ => .lang "fileseq" "StringReader"
  | .textStream .. => ⟨"_io", "StringIO"⟩
  | .streamSeq _ | .hollowSeq => .lang "fileseq" "FileSeq"
  | .movingSeq .. => .lang "fileseq" "MutatableFileSeq"
  | .writerState .. => ⟨"clojure.util.freeze", "WriterState"⟩
  | .bigNumber n => ⟨"clojure.lang.gmp", match n with
    | .integer _ => "Integer"
    | .rational => "Rational"
    | .float => "Float"
    | .random => "Random"⟩
  | .record cls _ => cls

namespace Session

variable (s : Session)

/-- The name of a namespace or module, of a class or function. -/
def nameOf? : Value → Option String
  | .module n | .builtin n | .type _ n => some n
  | .primitive p => some (Value.primitiveName p)
  | .ref a => match s.cells[a]? with
    | some (.namespace n) => some n.name
    | some (.userType t) => some t.name
    | _ => none
  | _ => none

def typeName : Value → ClassName
  | .type home n => ⟨home, n⟩
  | .ref a => match s.cells[a]? with
    | some (.userType t) => ⟨"__main__", t.name⟩
    | _ => .basic "object"
  | _ => .basic "object"

def classNameOf (c : Cell) : ClassName := c.className s.typeName

def varText (view : Viewer) (v : Var) : Except Error String := do
  match v.ns with
  | .nil =>
    let name ← match v.sym with
      | .nil => pure "--unnamed--"
      | sym => sym.shown view
    return "#<Var: " ++ name ++ ">"
  | ns =>
    match s.nameOf? ns with
    | some n => return "#'" ++ n ++ "/" ++ (← v.sym.shown view)
    | none => fault .attribute

def textOf (view : Viewer) : Cell → Except Error String
  | .namespace n => return "<module '" ++ n.name ++ "'>"
  | .var v => s.varText view v
  | .unbound v => do return "Unbound " ++ (← v.shown view)
  | .userType t => return (ClassName.mk "__main__" t.name).shown
  | .protocolFn p => return "ProtocolFn<" ++ p.name ++ ">"
  | .protocol p => do
    match p.name with
    | .str n => return "Protocol<" ++ n ++ ">"
    | _ => fault .type
  | .constant _ => return "<function setMeta.<locals>.<lambda> at 0xADDR>"
  | .record ⟨_, "GlobalPtr"⟩ fields => do
    match s.nameOf? ((fields.lookup "ns").getD .nil) with
    | some n =>
      return "GblPtr<" ++ n ++ "/" ++ (← ((fields.lookup "name").getD .nil).shown view) ++ ">"
    | none => fault .attribute
  | c => return (s.classNameOf c).object

/-- How a thing is written, given its text. Most things are unreadable, but some write their text in
either way. -/
def writtenAs (c : Cell) (readable : Bool) (text : Except Error String) : Except Error Written := do
  match c with
  | .var _ | .atom _ | .transient _ => return .ofText (← text)
  | .userType t => return .ofText ("#<__main__." ++ t.name ++ ">")
  | .constant _ => return .ofText ("#" ++ (← text))
  | c =>
    if readable then return .ofText ("#" ++ (s.classNameOf c).object)
    else return .ofText (← text)

/-- How each thing shows itself, with a bound on the nesting. -/
def viewAt : (depth : Nat) → Viewer
  | 0 => Viewer.none
  | depth + 1 => fun a =>
    match s.cells[a]? with
    | none => Viewer.none a
    | some c =>
      let text := s.textOf (viewAt depth) c
      { className := s.classNameOf c
        shown := text
        inspected := text
        written := fun readable => s.writtenAs c readable text }

/-- How each thing of a session shows itself. -/
def view : Viewer := s.viewAt 16

end Session

/-- Whether new members can be put into a thing: into classes that are not basic, and into most
things that are no classes. -/
def Value.isOpen : Value → Bool
  | .type home _ => home ≠ "builtins" && home ≠ "re"
  | .nil | .bool _ | .int _ | .float _ | .nan _ | .ratio _ | .str _ | .wide _ | .bytes _ | .regex _
  | .tuple _ | .array _ | .dict _ | .builtin _ | .method | .opcode _ => false
  | _ => true

namespace SessionM

/-- The class of a value, as a value. -/
def typeOf (v : Value) : SessionM Value := do
  let s ← get
  let named (c : ClassName) : Value := .type c.home c.name
  match v with
  | .ref a =>
    match ← fetch a with
    | .object t _ => return t
    | c => return named (s.classNameOf c)
  | v => return named v.className

/-- A class and those that it inherits from, nearest first. -/
def heritageAt : (depth : Nat) → (t : Value) → SessionM (List Value)
  | 0, _ => fault .recursion
  | depth + 1, t => do
    match t with
    | .ref a =>
      match ← fetch a with
      | .userType u => return t :: (← u.bases.mapM (heritageAt depth)).flatten
      | _ => return [t]
    -- lists that step by a message are lists
    | .type _ "NList" => return [t, .type "clojure.lang.persistentlist" "PersistentList"]
    | t => return [t]

def heritage (t : Value) : SessionM (List Value) := heritageAt Value.depthLimit t

def userTypeAt : Address → SessionM UserType := contentAt fun
  | .userType t => some t
  | _ => none

/-- What a class has under a name, by itself or by inheritance. -/
def typeMember? (t : Value) (name : String) : SessionM (Option Value) := do
  (← heritage t).foldlM (fun found t => do
    match found, ← cell? t with
    | none, some (.userType u) => return u.members.lookup name
    | found, _ => return found) none

/-- What an object has under a name, and whether it comes from its class, so that the object is
passed to it when it is called. -/
def partOf? (v : Value) (name : String) : SessionM (Option (Value × Bool)) := do
  match ← cell? v with
  | some (.object t fields) =>
    match fields.lookup name with
    | some x => return some (x, false)
    | none => return (← typeMember? t name).map fun x => (x, true)
  | _ => return none

end SessionM

end HostedLisp
