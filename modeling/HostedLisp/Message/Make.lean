import HostedLisp.Message.Operators

/-!
# Making things of a class

- `Make.symbol`, `Make.vector`, … : the constructors that choose by the number of their arguments.
- `Make.instances`: the constructors of the classes by their names.
-/

namespace HostedLisp.Make

open Coll SessionM Value

/-- Makes a thing from its parts. -/
abbrev Maker := List Value → SessionM Value

def one : Maker
  | [x] => return x
  | _ => fault .type

def two : List Value → SessionM (Value × Value)
  | [x, y] => return (x, y)
  | _ => fault .type

def atMostOne (default : Value) : Maker
  | [] => return default
  | [x] => return x
  | _ => fault .type

def exactly (make : Value → Cell) : Maker := fun args => do allocRef (make (← one args))

def atMost (default : Value) (make : Value → Cell) : Maker := fun args => do
  allocRef (make (← atMostOne default args))

/-- A cell from one or two parts; the second one is nil unless it is given. -/
def oneOrTwo (make : Value → Value → Cell) : Maker
  | [x] => allocRef (make x .nil)
  | [x, y] => allocRef (make x y)
  | _ => fault .type

/-- The items of an array, and whether they are fixed. -/
def itemsAndFixed : Value → SessionM (List Value × Bool)
  | .array xs => return (xs, false)
  | .tuple xs => return (xs, true)
  | _ => fault .type

def slotsOf (v : Value) : SessionM (List Value) := do return (← itemsAndFixed v).1

/-! ## Names -/

def namePart : Value → SessionM String
  | .str s | .numeral s => return s
  | _ => fault .type

/-- A symbol from its text, from namespace and name, or with metadata in front. -/
def symbol : Maker := fun args => do
  let qualified (ns : Value) (name : Value) (info : Value) : SessionM Value := do
    match ns with
    | .nil => return .symbol ⟨none, ← namePart name⟩ info
    | ns => return .symbol ⟨some (← namePart ns), ← namePart name⟩ info
  match args with
  | [s] => do
    let (s, info) ← lift (symbolOf s)
    return .symbol s info
  | [ns, name] => qualified ns name .nil
  | [info, ns, name] => qualified ns name info
  | _ => throw .badArity

/-- A keyword, named like a symbol. -/
def keyword : Maker := fun args => do
  match ← symbol args with
  | .symbol s _ => return .keyword s
  | _ => fault .type

/-- The keyword of a name, if it can be found: the search fails for every symbol. -/
def findKeyword : Maker
  | [.symbol ..] => fault .type
  | [a, b] => do
    let _ ← symbol [a, b]
    fault .type
  | _ => return .nil

/-- A namespace, made on demand. -/
def ns : Maker := fun args => do namespaceOf (← one args)

/-! ## Sequences -/

/-- A list of one item, or from metadata, first item, rest and count. -/
def list : Maker
  | [x] => return .list .bare x .nil 1 .nil
  | [info, x, rest, n] => return .list .plain x rest (← intOf n) info
  | _ => throw .badArity

def cons : Maker
  | [x, rest] => return .cons x rest .nil
  | [info, x, rest] => return .cons x rest info
  | _ => throw .badArity

/-- The items of an indexed collection from an index on. -/
def indexSeq : Maker := fun args => do
  let (source, i) ← two args
  return .indexSeq source (← intOf i)

/-- The keys, or else the values, of a sequence of entries. -/
def partSeq (make : Value → Value → Value) : Maker
  | [s] => return make s .nil
  | [info, s] => return make s info
  | _ => throw .badArity

/-- The entries of an array of keys and values. -/
def arraySeq : Maker
  | [_, _] => fault .index
  | [info, items, i] => return .arraySeq (← slotsOf items) (← intOf i) info
  | _ => throw .badArity

/-- The nodes of a stack, if they all are nodes. -/
def stackOf? (stack : Value) : Option (List (Tree Value Value)) :=
  match stack with
  | .nil => some []
  | s =>
    match walk s with
    | .ok items => items.toList.mapM fun v =>
        match v with
        | .treeNode t => some t
        | _ => none
    | .error _ => none

/-- The nodes of a sorted map from a stack of them. -/
def treeSeq : Maker := fun args => do
  let build (stack asc n : Value) : SessionM Value := do
    match stackOf? stack, n with
    | some (t :: ts), .int n => return .treeSeq (t :: ts) (← lift asc.truthy) n .nil
    | _, n => allocRef (.record (.lang "persistenttreemap" "Seq")
        [("stack", stack), ("asc", asc), ("cnt", n)])
  match args with
  | [stack, asc] => build stack asc (.int (-1))
  | [stack, asc, n] => build stack asc n
  | [_, _, _, _] => fault .type
  -- any other number of parts is ignored
  | _ => allocRef (.record (.lang "persistenttreemap" "Seq") [])

/-- The entries of an array of keys and values of a trie node, from an index on. -/
def entriesFrom (items : List Value) (i : Int) : SessionM (List (Value × Value)) :=
  nodeEntries.pairEntries nodeLevels (items.drop i.toNat)

/-- The entries of the rest of a sequence of entries. -/
def entriesOf (s : Value) : SessionM (List (Value × Value)) := do
  lift do (← walk s).toList.mapM entryOf

/-- The sequence of entries, nil if there are none. -/
def entrySeq (dense : Bool) (es : List (Value × Value)) (info : Value) : Value :=
  match es with
  | [] => .nil
  | es => .trieSeq dense es info

/-- The entries of a sparse node that starts at an index of its array, after those of a sequence. -/
def nodeSeqParts (slots i s : Value) : SessionM (List (Value × Value)) := do
  let items ← slotsOf slots
  let i ← intOf i
  match s with
  | .nil => entriesFrom items i
  | s => do return (← entriesOf s) ++ (← entriesFrom items i)

/-- The sequence of a sparse node. -/
def nodeSeq : Maker
  | [slots, i, s] => return entrySeq false (← nodeSeqParts slots i s) .nil
  | [info, slots, i, s] => return entrySeq false (← nodeSeqParts slots i s) info
  | _ => throw .badArity

/-- The sequence of a sparse node, nil if it has no entries. -/
def nodeSeqOf : Maker
  | [slots] => return entrySeq false (← nodeSeqParts slots (.int 0) .nil) .nil
  | [slots, i, s] => return entrySeq false (← nodeSeqParts slots i s) .nil
  | _ => throw .badArity

/-- The sequence of a dense node, nil if it has no entries. -/
def denseSeqOf : Maker := fun args => do
  let build (info nodes i s : Value) : SessionM Value := do
    let children := (← slotsOf nodes).drop (← intOf i).toNat
    let parts ← children.mapM fun c =>
      if c.isNil then pure [] else nodeEntries nodeLevels c
    let before ← if s.isNil then pure [] else entriesOf s
    return entrySeq true (before ++ parts.flatten) info
  match args with
  | [nodes] => build .nil nodes (.int 0) .nil
  | [info, nodes, i, s] => build info nodes i s
  | _ => throw .badArity

/-- A sequence of the characters of a stream. The only things that can be read are opened by name,
so one part alone is refused; four parts are taken as they are, any others are ignored. -/
def streamSeq : Maker
  | [_] =>
    throw (.signal .invalidArgument "must pass in a object with a read() method")
  | [_, line, col, current] =>
    allocRef (.streamSeq { stream := none, line := line, col := col, current := current })
  | _ => allocRef .hollowSeq

/-! ## Vectors and entries -/

/-- A slice, from metadata, vector, start and end. -/
def subvector : Maker
  | [info, v, start, stop] => do return sliceOf info v (← intOf start) (← intOf stop)
  | _ => fault .type

/-- A vector from its parts. One that is made from a tree cannot be told from its tail. -/
def vector : Maker := fun args => do
  let build (info tail : Value) : SessionM Value := do
    match tail with
    | .array xs => return .vector (.ofList xs) info
    | _ => fault .type
  match args with
  | [_, _, _, tail] => build .nil tail
  | [info, _, _, _, tail] => build info tail
  | _ => throw .badArity

def entry : Maker := fun args => do
  let (k, v) ← two args
  return .entry k v

/-- The vector of a sequence. Only what is a vector already, and what is empty, can be taken. -/
def vectorOfSeq : Maker := fun args => do
  match ← one args with
  | v@(.vector ..) | v@(.subvector ..) | v@(.entry ..) => return v
  | v =>
    match ← lift v.seq with
    | .nil => return vectorOf []
    | _ => fault .attribute

/-! ## Maps -/

def hashMap : Maker := fun args => do
  let build (info n root hasNil nilValue : Value) : SessionM Value := do
    let root ← match root with
      | .nil => pure none
      | r => do pure (some (← toTrie nodeLevels r))
    let held := if ← lift hasNil.truthy then some nilValue else none
    return .hashMap { count := ← intOf n, root := root, nilValue := held } info
  match args with
  | [n, root, hasNil, nilValue] => build .nil n root hasNil nilValue
  | [info, n, root, hasNil, nilValue] => build info n root hasNil nilValue
  | _ => throw .badArity

def arrayMap : Maker := fun args => do
  let build (info items : Value) : SessionM Value := do
    let (xs, fixed) ← itemsAndFixed items
    return .arrayMap xs fixed info
  match args with
  | [] => return .arrayMap [] false .nil
  | [items] => build .nil items
  | [info, items] => build info items
  | _ => throw .badArity

/-- An array map of distinct keys. The first argument is not used. -/
def arrayMapWithCheck : Maker := fun args => do
  let (_, init) ← two args
  let items ← slotsOf init
  let keys := (items.zipIdx.filter fun (_, i) => i % 2 == 0).map (·.1)
  let rec check : List Value → SessionM Unit
    | [] => return ()
    | k :: rest => do
      if ← lift (memberOf (fun a b => eq b a) k rest) then
        throw (.signal .invalidArgument ("Duplicate Key " ++ (← text k)))
      else check rest
  check keys
  arrayMap [init]

def order : Value → SessionM Comparator
  | .comparator c => return c
  | _ => fault .attribute

def treeOf (v : Value) : SessionM (Tree Value Value) := do
  match v.tree? with
  | some t => return t
  | none => fault .attribute

/-- A sorted map: empty, by an order, with metadata, or from its parts. -/
def treeMap : Maker
  | [] => return .treeMap .natural .empty (.int 0) .nil
  | [c] => return .treeMap (← order c) .empty (.int 0) .nil
  | [info, c] => return .treeMap (← order c) .empty (.int 0) info
  | [.comparator c, t, n, info] => return .treeMap c (← treeOf t) n info
  | [info, c, t, _] =>
    -- the tree also takes the place of the count
    if info.isMap then return .treeMap (← order c) (← treeOf t) t info else throw .badArity
  | _ => throw .badArity

/-- A sorted map by an order from keys and values in turn. More than one item is asked for in a way
that fails. The first argument is not used. -/
def sortedFrom : Maker
  | [] => fault .type
  | [_, _] => fault .name
  | [_, c, items] => do
    match items with
    | .nil => return .treeMap (← order c) .empty (.int 0) .nil
    | items =>
      match ← nextOf items with
      | .nil =>
        throw (.signal .illegalArgument
          ("No value supplied for key: " ++ (← text (← lift items.first))))
      | _ => fault .attribute
  | _ => return .nil

def treeNode (name : String) (args : List Value) : SessionM Value := do
  let node (color : Color) : SessionM Value := do
    match name.endsWith "BranchVal", name.endsWith "Branch", name.endsWith "Val", args with
    | true, _, _, [k, v, l, r] =>
      return .treeNode (.node color true k (some v) (← treeOf l) (← treeOf r))
    | false, true, _, [k, l, r] =>
      return .treeNode (.node color true k none (← treeOf l) (← treeOf r))
    | false, false, true, [k, v] => return .treeNode (.node color false k (some v) .empty .empty)
    | false, false, false, [k] => return .treeNode (.node color false k none .empty .empty)
    | _, _, _, _ => fault .type
  match name with
  | "Node" => do allocRef (.bareNode (← one args))
  | "Black" | "BlackVal" | "BlackBranch" | "BlackBranchVal" => node .black
  | "Red" | "RedVal" | "RedBranch" | "RedBranchVal" => node .red
  | _ => fault .attribute

/-- A node of a color whose class follows from what it holds. -/
def nodeOf (color : Color) : Maker
  | [k, v, l, r] => return ofTree (Tree.mk color k (ofSlot v) (← treeOf l) (← treeOf r))
  | _ => fault .type

/-- A walk over the nodes below a node. -/
def nodeWalk : Maker := fun args => do
  let (t, asc) ← two args
  let asc ← lift asc.truthy
  allocRef (.nodeWalk ((← treeOf t).pushEdge asc []) asc)

/-- A walk over the keys, or else the values, of another walk. -/
def partWalk (keys : Bool) : Maker := exactly (.partWalk keys)

/-- A map under construction. -/
def transient : Maker := fun args => do
  let (items, fixed) ← itemsAndFixed (← one args)
  allocRef (.transient { owner := some (← get).thread, items := items, fixed := fixed })

/-! ## Sets -/

/-- The empty set that others are built from. -/
def sharedSet : SessionM Value := allocRef .sharedSet

/-- A set of elements, built on the shared one. -/
def setOf (xs : List Value) : SessionM Value := do
  match xs with
  | [] => sharedSet
  | xs => do return .hashSet (← lift (xs.foldlM setInsert (← get).emptySet)) .nil

/-- The set of the arguments, or of the items of a single one. -/
def set : Maker
  | [x] => do
    if ← supports x "__iter__" then setOf (← itemsOf x) else setOf [x]
  | args => setOf args

def setWithCheck : Maker := fun args => do
  match ← itemsOf (← one args) with
  | [] => sharedSet
  | xs => do lift (Value.setWithCheck (← viewer) (← get).emptySet xs)

/-! ## References -/

/-- A var: with or without a namespace and a name, with or without a root. -/
def var : Maker
  | [] => return .ref (← makeVar .nil .nil none)
  | [root] => return .ref (← makeVar .nil .nil (some root))
  | args@(ns :: sym :: rest) => do
    let root := if args.length % 2 = 1 then rest.getLast? else none
    return .ref (← makeVar ns sym root)

def trieNode (name : String) (args : List Value) : SessionM Value := do
  match name, args with
  | "BitmapIndexedNode", [edit, bits, slots] =>
    newNode edit (.sparse (← intOf bits)) (← slotsOf slots)
  | "ArrayNode", [edit, n, slots] => newNode edit (.dense (← intOf n)) (← slotsOf slots)
  | "HashCollisionNode", [edit, key, n, slots] =>
    newNode edit (.collision (← intOf key) (← intOf n)) (← slotsOf slots)
  | _, _ => fault .type

/-- A node for two bindings. -/
def joinedNode : Maker := fun args => do
  let build (edit shift k₁ v₁ hash₂ k₂ v₂ : Value) : SessionM Value := do
    joinNodes edit nodeLevels (← intOf shift) k₁ v₁ (← intOf hash₂) k₂ v₂
  match args with
  | [shift, k₁, v₁, hash₂, k₂, v₂] => do
    build (← allocRef (.atomic false .nil)) shift k₁ v₁ hash₂ k₂ v₂
  | [edit, shift, k₁, v₁, hash₂, k₂, v₂] => build edit shift k₁ v₁ hash₂ k₂ v₂
  | _ => throw .badArity

/-! ## Classes made at run time -/

def userType (name : String) (members : List (String × Value)) (bases : List Value) :
    SessionM Value := allocRef (.userType { name := name, bases := bases, members := members })

/-- Make a thing of a class that was made at run time. -/
def object (t : Value) (args : List Value) : SessionM Value := do
  let v ← allocRef (.object t [])
  match ← typeMember? t "__init__" with
  | some f =>
    let _ ← apply f (v :: args)
    return v
  | none => if args.isEmpty then return v else fault .type

/-! ## By name -/

/-- The constructors of the classes that were not made at run time. -/
def instances : List (String × Maker) := [
  ("Symbol", symbol), ("Keyword", keyword), ("Namespace", ns),
  ("PersistentList", list),
  ("EmptyList", fun args => do return .emptyList (← atMostOne .nil args)),
  ("Cons", cons), ("IndexableSeq", indexSeq), ("KeySeq", partSeq .keySeq),
  ("ValueSeq", partSeq .valSeq), ("PersistentVector", vector), ("SubVec", subvector),
  ("MapEntry", entry), ("PersistentHashMap", hashMap),
  ("PersistentHashSet", fun args => do
    match ← two args with
    | (info, .hashMap m _) => return .hashSet m info
    | _ => fault .attribute),
  ("PersistentArrayMap", arrayMap), ("PersistentTreeMap", treeMap),
  ("TransientArrayMap", transient),
  ("BitmapIndexedNode", trieNode "BitmapIndexedNode"), ("ArrayNode", trieNode "ArrayNode"),
  ("HashCollisionNode", trieNode "HashCollisionNode"),
  ("Atom", oneOrTwo fun x info => .atom { state := x, info := info }), ("Var", var),
  ("AtomicReference", atMost .nil (.atomic false)),
  ("AtomicInteger", atMost (.int 0) (.atomic true)),
  ("Box", exactly .box), ("MultiMethod", exactly .multi), ("Unbound", exactly .unbound),
  ("ProtocolFn", fun args => do newProtocolFn (← one args)),
  ("Protocol", fun args => do
    match args with
    | [ns, name, fns] => newProtocol ns name fns
    | _ => fault .type),
  ("WriterState", fun args => do
    if args.isEmpty then allocRef (.writerState [] (-1)) else fault .type),
  ("Label", fun args => do
    let name ← text (← atMostOne .nil args)
    return .label (← newLabel name)),
  ("Name", oneOrTwo Message.nameSlot), ("AAlias", atMost .nil Message.placeholder),
  ("FnArgument", oneOrTwo Message.parameter),
  ("GlobalPtr", fun args => do
    let (ns, name) ← two args
    allocRef (Message.globalName ns name)),
  ("NoNamespaceException", fun args => do
    let (lib, ns) ← two args
    let _ ← text lib
    let _ ← text ns
    allocRef (.record (.lang "cljexceptions" "NoNamespaceException")
      [("args", .tuple [lib, ns])])),
  ("PushbackTextReader", exactly fun reader =>
    .record (.lang "linenumberingtextreader" "PushbackTextReader")
      [("baseReader", reader), ("unreadChar", .int 0), ("hasUnread", .bool false)]),
  ("SharedLock", fun _ => allocRef Message.newLock),
  ("StringReader", fun args => do
    allocRef (.textReader (.ofString (← namePart (← one args))))),
  ("MutatableFileSeq", exactly (.movingSeq · .nil))]

def instanceOf (t : Value) (args : List Value) : SessionM Value := do
  match t with
  | .type _ name =>
    match instances.lookup name with
    | some make => make args
    | none =>
      match name, args with
      | "object", [] => return .thing "builtins" "object"
      | "list", [] => return .array []
      | "list", [x] => return .array (← itemsOf x)
      | "tuple", [] => return .tuple []
      | "tuple", [x] => return .tuple (← itemsOf x)
      | "dict", [] => return .dict []
      | "str", [] => return .str ""
      | "str", [x] => return .str (← shownText x)
      | "int", [] => return .int 0
      | "float", [] => return .float 0.0
      | "bool", [] => return .bool false
      | "bool", [x] => return .bool (← isTrue x)
      | "NoneType", [] => return .nil
      | _, _ => fault .type
  | t =>
    match ← cell? t with
    | some (.userType _) => object t args
    | _ => fault .type

end HostedLisp.Make
