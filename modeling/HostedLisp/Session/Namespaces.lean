import HostedLisp.Session.View

/-!
# Namespaces

- `standardMembers`: what every new namespace holds.
- `objectMembers`: the names that any namespace answers to besides its members.
- `hostModules`: the modules of the host that code can refer to, with the names they define.
- `SessionM.openNamespace`: the namespace of a name, made on demand.
- `SessionM.member?`: what a name stands for in a namespace or module.
- `SessionM.intern`: the var of a name in a namespace, made on demand.
- `SessionM.findItem`: what a symbol stands for, seen from a namespace.
-/

namespace HostedLisp

def failureClasses : List String := [
  "AbstractMethodCall", "ArityException", "CljException", "CompilerException", "IllegalAccessError",
  "IllegalArgumentException", "IllegalStateException", "IndexOutOfBoundsException",
  "InvalidArgumentException", "NoNamespaceException", "ReaderException",
  "TransactionRetryException", "UnsupportedOperationException"]

/-- The other classes that every namespace knows, with their homes. -/
def coreClasses : List (String × String) := [
  ("Associative", "associative"), ("Atom", "atom"), ("IDeref", "ideref"), ("ILookup", "ilookup"),
  ("IObj", "iobj"), ("IPersistentCollection", "ipersistentcollection"),
  ("IPersistentList", "ipersistentlist"), ("IPersistentMap", "ipersistentmap"),
  ("IPersistentVector", "ipersistentvector"), ("ISeq", "iseq"),
  ("LockingTransaction", "lockingtransaction"), ("PersistentList", "persistentlist"),
  ("Ref", "ref"), ("Seqable", "seqable"), ("Sequential", "sequential"), ("Var", "var")]

/-- What every new namespace holds. -/
def standardMembers : List (String × Value) :=
  failureClasses.map (fun n => (n, .type "clojure.lang.cljexceptions" n))
    ++ coreClasses.map (fun (n, home) => (n, .type ("clojure.lang." ++ home) n))
    ++ [("clojure", .module "clojure"), ("dis", .module "dis"), ("sys", .module "sys")]

/-- The methods that any module has. -/
def objectMethods : List String := [
  "__annotations__", "__delattr__", "__dir__", "__eq__", "__format__", "__ge__",
  "__getattribute__", "__getstate__", "__gt__", "__hash__", "__init__", "__init_subclass__",
  "__le__", "__lt__", "__ne__", "__new__", "__reduce__", "__reduce_ex__", "__repr__",
  "__setattr__", "__sizeof__", "__str__", "__subclasshook__"]

/-- The names that any module answers to besides its members. -/
def objectMember? (moduleName name : String) : Option Value :=
  if name = "__name__" then some (.str moduleName)
  else if name = "__doc__" ∨ name = "__loader__" ∨ name = "__package__" ∨ name = "__spec__" then
    some .nil
  else if name = "__file__" then some (.str "<interactive namespace>")
  else if name = "__class__" then some (.type "clojure.lang.namespace" "Namespace")
  else if name = "__dict__" then some (.thing "builtins" "dict")
  else if name = "__module__" then some (.str "clojure.lang.namespace")
  else if objectMethods.contains name then some .method
  else none

/-- The functions of the run-time support. -/
def supportFunctions : List String := [
  "setMeta", "cons", "seqToTuple", "first", "next", "isSeqable", "applyTo", "booleanCast", "keys",
  "vals", "fulfillsHashSet", "fulfillsIndexable", "list", "vector", "map", "set", "nextID",
  "subvec",
  "stringEscape", "_extendIPrintableForManuals", "printTo", "_extendSeqableForManuals",
  "_bootstrap_protocols", "_extendNamedForManuals", "init"]

/-- The basic classes that the run-time support names. -/
def supportTypes : List (String × ClassName) := [
  ("NotSeq", .lang "rt" "NotSeq"),
  ("DefaultComparator", .lang "rt" "DefaultComparator"),
  ("IPersistentVector", .lang "ipersistentvector" "IPersistentVector"),
  ("InvalidArgumentException", .lang "cljexceptions" "InvalidArgumentException"),
  ("Comparator", .lang "comparator" "Comparator"),
  ("AtomicInteger", .lang "threadutil" "AtomicInteger"),
  ("ISeq", .lang "iseq" "ISeq"), ("mapInter", .basic "map"), ("_list", .basic "list"),
  ("pyObjectType", .basic "object"), ("pyRegexType", ⟨"re", "Pattern"⟩),
  ("pyFuncType", .basic "function"), ("pyListType", .basic "list"), ("pySetType", .basic "set"),
  ("pyTupleType", .basic "tuple"), ("pyDictType", .basic "dict"), ("pyStrType", .basic "str"),
  ("pyUnicodeType", .basic "str"), ("pyNoneType", .basic "NoneType"),
  ("pyBoolType", .basic "bool"), ("pyIntType", .basic "int"), ("pyLongType", .basic "int"),
  ("pyFloatType", .basic "float"), ("pyFileType", ⟨"_io", "TextIOWrapper"⟩),
  ("pyTypeType", .basic "type"), ("pyTypeCode", .basic "code"),
  ("pyTypeGenerator", .basic "generator"), ("pyClassType", .basic "type"),
  ("pyReversedType", .basic "reversed")]

/-- What the module of the run-time support defines. -/
def supportMembers : List (String × Value) :=
  supportFunctions.map (fun n => (n, .builtin n))
    ++ supportTypes.map (fun (n, c) => (n, .type c.home c.name))
    ++ [("re", .module "re"), ("sys", .module "sys"), ("types", .module "types"),
      ("_id", .thing "clojure.lang.threadutil" "AtomicInteger"),
      ("stringEscapeMap", .thing "builtins" "dict"),
      ("initialized", .bool true), ("protocols", .module "clojure.protocols"),
      ("seq", .thing "clojure.lang.protocol" "ProtocolFn"),
      ("name", .thing "clojure.lang.protocol" "ProtocolFn"),
      ("namespace", .thing "clojure.lang.protocol" "ProtocolFn")]

/-- The modules of the host that code can refer to, with the names they define. -/
def hostModules : List (String × List (String × Value)) := [
  ("clojure", [("lang", .module "clojure.lang"), ("util", .module "clojure.util")]),
  ("clojure.lang", [("rt", .module "clojure.lang.rt")]),
  ("clojure.lang.rt", supportMembers),
  ("dis", [("dis", .builtin "dis"), ("opmap", .thing "builtins" "dict"),
    ("opname", .thing "builtins" "list")]),
  ("sys", [("path", .thing "builtins" "list"), ("argv", .thing "builtins" "list"),
    ("modules", .thing "builtins" "dict"),
    ("stdin", .thing "_io" "TextIOWrapper"), ("stdout", .thing "_io" "TextIOWrapper"),
    ("exit", .builtin "exit"), ("version", .thing "builtins" "str")])]
    ++ coreClasses.map fun (n, home) =>
      ("clojure.lang." ++ home, [(n, .type ("clojure.lang." ++ home) n)])

namespace SessionM

open Value

/-! ## Vars -/

/-- Make a var. A symbol `UNKNOWN` for a root means that there is none. -/
def makeVar (ns sym : Value) (root : Option Value) : SessionM Address := do
  let a ← alloc (.var { ns := ns, sym := sym, root := .nil })
  let given := match root with
    | some (.symbol s _) => if s = .plain "UNKNOWN" then none else root
    | _ => root
  let r ← match given with
    | some r => pure r
    | none => allocRef (.unbound (.ref a))
  store a (.var { ns := ns, sym := sym, root := r })
  return a

def updateVar (a : Address) (f : Var → Var) : SessionM Unit := do
  store a (.var (f (← varAt a)))

/-! ## Namespaces -/

def namespaceAt : Address → SessionM Namespace := contentAt fun
  | .namespace n => some n
  | _ => none

/-- Put something under a name into a list of members. -/
def withMember (members : List (String × Value)) (name : String) (v : Value) :
    List (String × Value) :=
  if (members.lookup name).isSome then
    members.map fun (k, old) => if k = name then (k, v) else (k, old)
  else members ++ [(name, v)]

def setMember (a : Address) (name : String) (v : Value) : SessionM Unit := do
  let n ← namespaceAt a
  store a (.namespace { n with members := withMember n.members name v })

/-- A namespace or module that exists already. -/
def moduleNamed? (name : String) : SessionM (Option Value) := do
  match (← get).namespaces.lookup name with
  | some a => return some (.ref a)
  | none => return if (hostModules.lookup name).isSome then some (.module name) else none

/-- The namespace of a name, made on demand. The core namespace comes with two vars. -/
def openNamespace (name : String) : SessionM Value := do
  match ← moduleNamed? name with
  | some m => return m
  | none =>
    let a ← alloc (.namespace { name := name, members := standardMembers })
    modify fun s => { s with namespaces := (name, a) :: s.namespaces }
    if name = "clojure.core" then
      let ns ← makeVar (.ref a) (.str "*ns*") (some (.ref a))
      updateVar ns fun v => { v with dynamic := .bool true }
      setMember a "*ns*" (.ref ns)
      let args ← makeVar (.ref a) (.str "*command-line-args*") (some .nil)
      updateVar args fun v => { v with dynamic := .bool true }
      setMember a "*command-line-args*" (.ref args)
    return .ref a

def moduleName (m : Value) : SessionM String := do
  match m with
  | .ref a => return (← namespaceAt a).name
  | .module n => return n
  | .type _ n => return n
  | .primitive p => return primitiveName p
  | .builtin n => return n
  | _ => fault .attribute

/-- What a name stands for in a namespace or module. -/
def member? (m : Value) (name : String) : SessionM (Option Value) := do
  match m with
  | .ref a =>
    match ← fetch a with
    | .namespace n =>
      match n.members.lookup name with
      | some v => return some v
      | none => return objectMember? n.name name
    | _ => return none
  | .module n =>
    match (hostModules.lookup n).bind (·.lookup name) with
    | some v => return some v
    | none => return objectMember? n name
  | _ => return none

/-- The symbol that a value names. -/
def symbolOf (v : Value) : Except Error (Symbol × Value) :=
  match v with
  | .symbol s i => return (s, i)
  | .str s | .numeral s => return (.ofText s, .nil)
  | _ => fault .attribute

/-- The text of a thing. -/
def describe (v : Value) : SessionM String := do lift (v.shown (← get).view)

/-- The var of a name in a namespace, made on demand. -/
def intern (ns sym : Value) : SessionM Value := do
  let (s, info) ← lift (symbolOf sym)
  if s.ns.isSome then
    throw (.signal .invalidArgument "Can't intern namespace-qualified symbol")
  else
    match ns with
    | .ref a =>
      match ← fetch a with
      | .namespace n =>
        let fresh : SessionM Value := do
          let v ← makeVar ns (.symbol s info) none
          setMember a s.name (.ref v)
          return .ref v
        match ← member? ns s.text with
        | none | some .nil => fresh
        | some v =>
          match ← cell? v with
          | some (.var w) =>
            let home ← moduleName w.ns
            if home = n.name then return v else fresh
          | _ => throw (.signal .general
              ("Can't redefine " ++ (← describe v) ++ " as " ++ s.text ++ ": is not Var"))
      | _ => throw (.signal .invalidArgument "")
    | .module _ => fault .attribute
    | _ => throw (.signal .invalidArgument "")

/-- The namespace of a name, seen from another one that may have a short name for it. -/
def findNamespace (name from_ : Value) : SessionM Value := do
  let (s, _) ← lift (symbolOf name)
  let aliases := match ← cell? from_ with
    | some (.namespace n) => n.aliases.getD []
    | _ => []
  match aliases.lookup s with
  | some m => return m
  | none => return (← moduleNamed? s.text).getD .nil

def removeNamespace (name : Value) : SessionM Unit := do
  let found ← moduleName (← findNamespace name .nil)
  if found = "clojure.core" then
    throw (.signal .illegalArgument "Cannot remove clojure.core namespace")
  else
    modify fun s => { s with namespaces := s.namespaces.filter fun (n, _) => n ≠ found }

/-- What a symbol stands for, seen from a namespace; nil if nothing. -/
def findItem (ns : Value) (s : Symbol) : SessionM Value := do
  let here ← moduleName ns
  match s.ns with
  | none => return (← member? ns s.name).getD .nil
  | some q =>
    if q = here then return (← member? ns s.name).getD .nil
    else
      let m ← findNamespace (.str q) ns
      return (← member? m s.name).getD .nil

/-- Give a namespace a short name for another one. -/
def addAlias (a : Address) (short : String) (target : Value) : SessionM Unit := do
  let n ← namespaceAt a
  let known := (n.aliases.getD []).filter fun (k, _) => k ≠ Symbol.ofText short
  store a (.namespace { n with aliases := some (known ++ [(.ofText short, target)]) })

end SessionM

end HostedLisp
