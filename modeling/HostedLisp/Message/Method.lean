import HostedLisp.Session.Apply

/-!
# Methods and interfaces

A thing answers messages: a message has a name and arguments, and the thing's class says which
method answers it.

An interface names methods and leaves them to the classes that take it up. A bare thing of such a
class answers each of them by saying so.

- `Method`: what is done, and how many arguments it takes.
- `Method.ask`, `Method.act` and their kin: methods made from functions, without and with effects.
- `Method.required`: a method that a class leaves to its heirs.
- `Methods`: the methods of a class by name; earlier ones hide later ones.
- `Interface`: the methods that an interface adds and the interfaces that it builds on.
- `Interface.all`: all of them.
- `Interface.send`: what a bare thing answers to a message.
-/

namespace HostedLisp

/-- What is done when a message arrives. -/
structure Method where
  /-- The least number of arguments. -/
  least : Nat
  /-- The greatest number of arguments, if there is one. -/
  most : Option Nat
  run : (self : Value) → (args : List Value) → SessionM Value

/-- The methods of a class by name. -/
abbrev Methods := List (String × Method)

namespace Method

/-- Whether a number of arguments is fitting. -/
def accepts (m : Method) (n : Nat) : Bool :=
  m.least ≤ n && match m.most with
    | some k => n ≤ k
    | none => true

/-- Answer a message with a fitting number of arguments. -/
def call (m : Method) (self : Value) (args : List Value) : SessionM Value :=
  if m.accepts args.length then m.run self args else fault .type

/-- A method without arguments. -/
def act (f : Value → SessionM Value) : Method := ⟨0, some 0, fun self _ => f self⟩

/-- An action with no answer. -/
def thenNil (x : SessionM Unit) : SessionM Value := do
  x
  return .nil

def act1 (f : Value → Value → SessionM Value) : Method :=
  ⟨1, some 1, fun self args => f self (args[0]?.getD .nil)⟩

def act2 (f : Value → Value → Value → SessionM Value) : Method :=
  ⟨2, some 2, fun self args => f self (args[0]?.getD .nil) (args[1]?.getD .nil)⟩

/-- A method with any number of arguments. -/
def actAny (f : Value → List Value → SessionM Value) : Method := ⟨0, none, f⟩

/-- A method with one argument that may be missing. -/
def actOpt (f : Value → Option Value → SessionM Value) : Method :=
  ⟨0, some 1, fun self args => f self args[0]?⟩

/-- A question without arguments. -/
def ask (f : Value → Except Error Value) : Method := act fun self => SessionM.lift (f self)

def ask1 (f : Value → Value → Except Error Value) : Method :=
  act1 fun self x => SessionM.lift (f self x)

def ask2 (f : Value → Value → Value → Except Error Value) : Method :=
  act2 fun self x y => SessionM.lift (f self x y)

/-- A question with one argument and a default that is nil unless it is given. -/
def askOr (f : Value → Value → Value → Except Error Value) : Method :=
  ⟨1, some 2, fun self args =>
    SessionM.lift (f self (args[0]?.getD .nil) (args[1]?.getD .nil))⟩

/-- A method that the class of the receiver should have defined and has not. -/
def required (least most : Nat) : Method :=
  ⟨least, some most, fun self _ => do
    throw (.abstractIn (self.classOf (← SessionM.viewer)).name)⟩

/-- Something that stands where a method could be and cannot be called. -/
def notCallable : Method := ⟨0, none, fun _ _ => fault .type⟩

/-- A method that always fails. -/
def failing (n : Nat) (e : Error) : Method := ⟨n, some n, fun _ _ => throw e⟩

end Method

/-- A method that is left to the classes, and how many arguments it takes. -/
structure Requirement where
  name : String
  least : Nat
  most : Option Nat
  deriving Repr, Inhabited

namespace Requirement

/-- A method with a fixed number of arguments. -/
def exact (name : String) (n : Nat) : Requirement := ⟨name, n, some n⟩

end Requirement

/-- Methods that belong together. -/
structure Interface where
  name : String
  requires : List Requirement
  parents : List String
  deriving Repr, Inhabited

namespace Interface

open Requirement

/-- All interfaces, each after those that it builds on. -/
def all : List Interface := [
  ⟨"Seqable", [exact "seq" 0], []⟩,
  ⟨"Counted", [exact "__len__" 0], []⟩,
  ⟨"Iterable", [exact "__iter__" 0], []⟩,
  ⟨"IDeref", [exact "deref" 0], []⟩,
  ⟨"IEditableCollection", [exact "asTransient" 0], []⟩,
  ⟨"IFn", [⟨"__call__", 0, none⟩], []⟩,
  ⟨"IHashEq", [exact "hasheq" 0], []⟩,
  ⟨"ILookup", [⟨"valAt", 1, some 2⟩], []⟩,
  ⟨"IMeta", [exact "meta" 0], []⟩,
  ⟨"IObj", [exact "withMeta" 1], []⟩,
  ⟨"Obj", [], ["IObj"]⟩,
  ⟨"IPrintable", [exact "writeAsString" 1, exact "writeAsReplString" 1], []⟩,
  ⟨"IReduce", [⟨"reduce", 0, none⟩], []⟩,
  ⟨"Named", [exact "getNamespace" 0, exact "getName" 0], []⟩,
  ⟨"Reversible", [exact "rseq" 0], []⟩,
  ⟨"Sequential", [], []⟩,
  ⟨"Settable", [exact "doSet" 1, exact "doReset" 1], []⟩,
  ⟨"Comparator", [exact "compare" 2], []⟩,
  ⟨"Indexed", [⟨"nth", 1, some 2⟩], ["Counted"]⟩,
  ⟨"IPersistentCollection", [exact "count" 0, exact "cons" 1, exact "empty" 0], ["Seqable"]⟩,
  ⟨"Associative", [exact "containsKey" 1, exact "entryAt" 1, exact "assoc" 2],
    ["ILookup", "IPersistentCollection"]⟩,
  ⟨"IPersistentMap", [exact "without" 1], ["Iterable", "Associative", "Counted"]⟩,
  ⟨"IPersistentSet", [exact "disjoin" 1, exact "__contains__" 1],
    ["IPersistentCollection", "Counted"]⟩,
  ⟨"IPersistentStack", [exact "peek" 0, exact "pop" 0], ["IPersistentCollection"]⟩,
  ⟨"IPersistentList", [], ["Sequential", "IPersistentStack"]⟩,
  ⟨"IPersistentVector", [exact "__len__" 0, exact "assocN" 2, exact "cons" 1],
    ["Associative", "Sequential", "IPersistentStack", "Reversible", "Indexed"]⟩,
  ⟨"ISeq", [exact "first" 0, exact "__next__" 0, exact "more" 0, exact "cons" 1],
    ["IPersistentCollection"]⟩,
  ⟨"IRef", [exact "setValidator" 1, exact "getValidator" 0, exact "getWatches" 0,
    exact "addWatch" 2, exact "removeWatch" 1], ["IDeref"]⟩,
  ⟨"IReference", [exact "alterMeta" 2, exact "resetMeta" 1], ["IMeta"]⟩,
  ⟨"ITransientCollection", [exact "conj" 1, exact "persistent" 0], []⟩,
  ⟨"ITransientAssociative", [exact "assoc" 2], ["ITransientCollection", "ILookup"]⟩,
  ⟨"ITransientMap", [exact "assoc" 2, exact "without" 1, exact "persistent" 0],
    ["ITransientAssociative", "Counted"]⟩,
  ⟨"ATransientMap", [exact "ensureEditable" 0, exact "doAssoc" 2, exact "doWithout" 1,
    ⟨"doValAt", 1, some 2⟩, exact "doCount" 0, exact "doPersistent" 0, exact "count" 0],
    ["IFn", "ITransientMap"]⟩,
  ⟨"INode", [exact "assoc" 5, exact "without" 3, ⟨"find", 3, some 4⟩, exact "nodeSeq" 0,
    exact "assocEd" 6, exact "withoutEd" 5], []⟩]

def find? (name : String) : Option Interface := all.find? fun i => i.name = name

/-- The requirement that an interface has under a name, its own or one that it builds on. -/
def requirement? (method : String) : (depth : Nat) → String → Option Requirement
  | 0, _ => none
  | depth + 1, name =>
    match find? name with
    | none => none
    | some i =>
      match i.requires.find? fun r => r.name = method with
      | some r => some r
      | none => i.parents.findSome? (requirement? method depth)

/-- The failure of a method that was left to the classes. It tells the class that it was called on,
except for comparisons. -/
def abstractCall (name : String) : Error :=
  if name = "Comparator" then .signal .abstractMethod "" else .abstractIn name

/-- What a bare thing of the class of an interface answers to a message. Metadata are there even if
nobody has set any; the items of a set are asked for under a name that it does not have. -/
def send (name method : String) (args : List Value) : Except Error Value :=
  let checked (n : Nat) (x : Except Error Value) : Except Error Value :=
    if args.length = n then x else fault .type
  match name, method with
  | "Obj", "meta" => checked 0 (return .nil)
  | "IPersistentSet", "__getitem__" => checked 1 (fault .attribute)
  | _, _ =>
    match requirement? method all.length name with
    | none => fault .attribute
    | some r =>
      if r.least ≤ args.length && (r.most.all fun n => decide (args.length ≤ n)) then
        throw (abstractCall name)
      else fault .type

end Interface

end HostedLisp
