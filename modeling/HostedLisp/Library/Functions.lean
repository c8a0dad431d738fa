import HostedLisp.Library.Reading

/-!
# The library by name

Everything that can be called on values, each function under a name.

- `Library.pushBindings`, `Library.popBindings`: bind vars for this thread, and go back.
- `Library.frame`, `Library.copiedFrame`, `Library.resetFrame`: all bindings of this thread at once.
- `LibraryFn`: a function and the number of arguments that it takes.
- `Library.functions`: all functions.
- `Library.call`: call a function by name.
-/

namespace HostedLisp

namespace Library

open SessionM

/-- Bind vars for this thread. -/
def pushBindings (m : Value) : SessionM Value := do
  SessionM.pushBindings (← bindingsOf (← resolve m))
  return .nil

/-- Go back to the bindings before the last ones. -/
def popBindings : SessionM Value := do
  SessionM.popBindings
  return .nil

/-- The bindings of this thread. -/
def frame : SessionM Value := do return .ref (← currentFrame)

/-- A copy of the bindings of this thread that knows of no earlier ones. -/
def copiedFrame : SessionM Value := do
  let f ← frameAt (← currentFrame)
  allocRef (.frame { bindings := f.bindings })

/-- Put other bindings in the place of those of this thread. -/
def resetFrame (f : Value) : SessionM Value := do
  match f with
  | .ref a =>
    setFrame a
    return .nil
  -- what is no frame is refused only when bindings are looked up
  | f =>
    setFrame (← alloc (.box f))
    return .nil

end Library

structure LibraryFn where
  least : Nat
  /-- The greatest number of arguments, if there is one. -/
  most : Option Nat
  run : List Value → SessionM Value

namespace LibraryFn

/-- Call a function. A wrong number of arguments is a mismatch. -/
def call (f : LibraryFn) (args : List Value) : SessionM Value :=
  if f.least ≤ args.length && f.most.all (fun n => decide (args.length ≤ n)) then f.run args
  else fault .type

def many (f : List Value → SessionM Value) : LibraryFn := ⟨0, none, f⟩

def nullary (f : SessionM Value) : LibraryFn := ⟨0, some 0, fun _ => f⟩

def unary (f : Value → SessionM Value) : LibraryFn := ⟨1, some 1, fun args => f (args.headD .nil)⟩

def binary (f : Value → Value → SessionM Value) : LibraryFn :=
  ⟨2, some 2, fun args => f (args.headD .nil) (args.tail.headD .nil)⟩

def ternary (f : Value → Value → Value → SessionM Value) : LibraryFn :=
  ⟨3, some 3, fun args => f (args.headD .nil) (args.tail.headD .nil) (args.tail.tail.headD .nil)⟩

/-- A function of one argument and any number of others. -/
def leading (f : Value → List Value → SessionM Value) : LibraryFn :=
  ⟨1, none, fun args => f (args.headD .nil) args.tail⟩

/-- A function of a name and any number of others. -/
def byName (f : String → List Value → SessionM Value) : LibraryFn :=
  leading fun n args => do f (← Library.textOf n) args

/-- A test of a value. -/
def test (f : Value → SessionM Bool) : LibraryFn := unary fun v => do return .bool (← f v)

/-- A comparison of two values. -/
def test2 (f : Value → Value → SessionM Bool) : LibraryFn :=
  binary fun a b => do return .bool (← f a b)

/-- A function for its effect only. -/
def does (f : Value → SessionM Unit) : LibraryFn := unary fun v => do
  f v
  return .nil

end LibraryFn

namespace Library

open SessionM

/-- What a value writes, and whether there were octets in it. -/
def writing (readable : Bool) (stop : String) (v : Value) : SessionM Value := do
  let w ← printed v readable
  return .tuple [.str (w.text ++ stop), .bool w.octets]

/-- A tree as nested arrays of class, key, value and both sides. -/
def treeOutline : Coll.Tree Value Value → Value
  | .empty => .nil
  | t@(.node _ _ k v l r) =>
    .array [.str t.className, k, v.getD .nil, treeOutline l, treeOutline r]

/-- The tree of a sorted map, or below a node, as nested arrays. -/
def outline (v : Value) : SessionM Value := do
  match v with
  | .treeMap _ t _ _ | .treeNode t => return treeOutline t
  | .nil => return .nil
  | v =>
    match ← cell? v with
    | some (.bareNode k) => return .array [.str "Node", k, .nil, .nil, .nil]
    | _ => fault .attribute

/-- The layout of a vector: its count, the height of its tree and the size of its tail. -/
def layout (v : Value) : SessionM Value := do
  let tail ← part v "_tail"
  return .array [← part v "_cnt", ← part v "_shift", ← sizeOf tail]

/-- The bases of a new class. -/
def basesOf : List Value → List Value
  | [.array ts] | [.tuple ts] => ts
  | _ => []

/-- The members of a new class. -/
def membersOf (v : Value) : List (String × Value) :=
  match v with
  | .dict kvs => kvs.filterMap fun (k, f) =>
      match k with
      | .str n => some (n, f)
      | _ => none
  | _ => []

def operators : List (String × LibraryFn) := [
  ("identity", .unary fun v => return v),
  ("size", .unary sizeOf),
  ("equal?", .test2 equals),
  ("different?", .test2 fun a b => do return !(← equals a b)),
  ("hash", .unary fun v => do return .int (← hashOf v)),
  ("identical?", .test2 fun a b => do return Value.same (← resolve a) (← resolve b)),
  ("true?", .test isTrue),
  ("items", .unary fun v => do return .array (← itemsOf v)),
  ("step", .unary nextOf),
  ("item", .binary itemAt),
  ("has?", .test2 hasItem),
  ("call", .leading apply),
  ("shown", .unary fun v => do return .str (← shownText v)),
  ("inspected", .unary fun v => do return .str (← inspectedText v)),
  ("class-name", .unary fun v => do return .str ((← resolve v).classOf (← viewer)).name),
  ("part", .binary fun v n => do part v (← textOf n)),
  ("parts", .leading fun v names => do
    return .array (← names.mapM fun n => do part v (← textOf n))),
  ("less?", .test2 lessThan),
  ("set-part", .ternary fun v n x => do
    assignPart v (← textOf n) x
    return .nil),
  ("new", .leading Make.instanceOf),
  ("walk", .binary fun v n => do return .array (← walkFirst (← intOf n).toNat v)),
  ("drain", .binary fun v n => do return .array (← drain (← intOf n).toNat v)),
  ("print", .unary (writing false "")),
  ("write", .unary (writing true "")),
  ("write-line", .unary (writing true "\n")),
  ("layout", .unary layout),
  ("outline", .unary outline),
  ("new-class", .byName fun n rest => Make.userType n [] (basesOf rest)),
  ("new-class-with", .byName fun n rest =>
    Make.userType n (membersOf (rest.headD .nil)) (basesOf rest.tail)),
  ("call-interface", .byName fun cls rest => do
    lift (Interface.send cls (← textOf (rest.headD .nil)) rest.tail))]

def collections : List (String × LibraryFn) := [
  ("cons", .binary cons),
  ("first", .unary Library.first),
  -- the core protocols have no such function
  ("next", .unary fun _ => fault .attribute),
  ("seq", .unary seq),
  ("seqable?", .test isSeqable),
  ("apply", .binary applyTo),
  ("boolean", .unary fun v => return truthOf v),
  ("keys", .unary fun s => return Value.keysOf s),
  ("vals", .unary fun s => return Value.valsOf s),
  ("table-like?", .test isTableLike),
  ("indexed?", .test isIndexed),
  ("list", .many fun args => return Value.listOf args),
  ("vector", .many fun args => return vector args),
  ("hash-map", .many map),
  ("shared-set", .many set),
  ("subvec", .ternary slice),
  ("tuple", .unary tuple),
  ("vec", .many Make.vectorOfSeq),
  ("hash-set", .many Make.set),
  ("distinct-set", .many Make.setWithCheck),
  ("array-map", .many fun args => return .arrayMap args true .nil),
  ("distinct-array-map", .many Make.arrayMapWithCheck),
  ("sorted-map", .many Make.sortedFrom),
  ("red-node", .many (Make.nodeOf .red)),
  ("black-node", .many (Make.nodeOf .black)),
  ("tree-node", .byName Make.treeNode),
  ("node-key", .unary nodeKey),
  ("map-hash", .unary mapHash),
  ("map-of", .unary mapOfDict),
  ("conj-pair", .binary conjPair),
  ("join-nodes", .many Make.joinedNode),
  ("root-node", .unary fun v => part v "root"),
  ("empty-node", .nullary emptyNode),
  ("node-outline", .unary (nodeOutline nodeLevels)),
  ("slot-of-hash", .binary slotOfHash),
  ("bit-of-hash", .binary bitOfHash),
  ("bits-set", .unary bitsSet),
  ("mix-hash", .binary mixHash),
  ("with-items", .many withItems),
  ("without-pair", .binary withoutPair),
  ("copy-items", .many copyItems),
  ("hash-of-equals", .unary fun _ => throw (.signal .abstractMethod ""))]

/-- Functions on names, namespaces, bindings, classes and code. -/
def reflection : List (String × LibraryFn) := [
  -- everything is set up from the start
  ("init", .nullary (return .nil)),
  ("next-id", .nullary do return .int (← nextId)),
  ("escape", .unary escaped),
  ("set-meta", .binary setInfoOf),
  ("compare", .binary compare),
  ("name", .unary name),
  ("namespace", .unary homeOf),
  ("find-keyword", .many Make.findKeyword),
  ("push-bindings", .unary pushBindings),
  ("pop-bindings", .nullary popBindings),
  ("frame", .nullary frame),
  ("copy-frame", .nullary copiedFrame),
  ("reset-frame", .unary resetFrame),
  ("find-ns", .leading fun n rest => do
    if rest.length ≤ 1 then findNamespace n (rest.headD .nil) else fault .type),
  ("intern", .binary intern),
  ("find-item", .binary fun ns s => do
    match s with
    | .symbol s _ => findItem ns s
    | _ => fault .attribute),
  ("remove-ns", .does removeNamespace),
  ("extend", .leading fun t rest => do
    extendClass t rest
    return .nil),
  ("exact-protocol", .unary modelledProtocol),
  ("function-name", .binary fun p n => do return .str ((← shownText p) ++ (← textOf n))),
  ("protocol-of-class", .binary protocolOfClass),
  ("extend-heirs", .does extendHeirs),
  ("extend-as", .binary fun i t => do
    extendAs i t
    return .nil),
  ("parameters", .unary parameters),
  ("macro?", .unary macroFlag),
  ("meta", .unary infoOf),
  ("stack-effect", .leading fun op rest => do
    if rest.length ≤ 1 then lift (Code.effectOf op (rest.headD .nil)) else fault .type),
  ("operation?", .test fun v => return Code.isOperation v),
  ("take-apart", .unary fun v => lift (Code.takeApart v)),
  ("register-kind", .unary Message.registerKind),
  ("big-number", .byName Message.newBigNumber),
  ("zero-number", .byName fun n _ => Message.zeroBigNumber n),
  ("as-number", .byName fun n rest => Message.asBigNumber n (rest.headD .nil)),
  ("number-text", .unary fun v => send v "__str__" [])]

def reading : List (String × LibraryFn) := [
  ("read-string", .unary fun v => do readString .unbound (← textOf v)),
  ("number", .unary number),
  ("symbol-or-keyword", .unary (symbolOrKeyword .unbound)),
  ("interpret", .unary (interpret .unbound)),
  ("macro-char?", .unary isMacro),
  ("terminating?", .unary isTerminating),
  ("code-point", .many codePoint),
  ("unquote?", .unary isUnquote),
  ("splice?", .unary isSplice),
  ("parameter", .unary parameter),
  ("placeholder", .unary placeholder),
  ("syntax-quote", .unary syntaxQuote),
  ("flatten-map", .unary flattenMap),
  ("delimited", .binary delimited),
  ("named-character", .unary namedCharacter),
  ("token", .unary token),
  ("leading-number", .unary leadingNumber),
  ("leading-code-point", .many leadingCodePoint),
  ("deref-form", .unary derefForm),
  ("quote-in", .binary quoteIn),
  ("unbalanced?", .test fun v => do lift (Brackets.unbalanced (← textOf v)))]

/-- Constructors that choose between several shapes. -/
def constructors : List (String × LibraryFn) := [
  ("vector-of-parts", .many Make.vector), ("map-of-parts", .many Make.hashMap),
  ("array-map-of", .many Make.arrayMap), ("tree-map", .many Make.treeMap),
  ("array-seq", .many Make.arraySeq), ("tree-seq", .many Make.treeSeq),
  ("key-walk", .many (Make.partWalk true)), ("value-walk", .many (Make.partWalk false)),
  ("node-walk", .many Make.nodeWalk), ("node-seq", .many Make.nodeSeq),
  ("dense-seq", .many Make.denseSeqOf), ("sparse-seq", .many Make.nodeSeqOf),
  ("open-stream", .unary fun v => do openStream (← textOf v)),
  ("stream-seq", .many Make.streamSeq),
  ("compiled", .unary fun _ => return .thing "builtins" "code")]

def functions : List (String × LibraryFn) :=
  operators ++ collections ++ reflection ++ reading ++ constructors

/-- Call a function, or make a thing of a class, by name. -/
def call (name : String) (args : List Value) : SessionM Value := do
  match functions.lookup name with
  | some f => f.call args
  | none =>
    match Make.instances.lookup name with
    | some make => make args
    | none => fault .key

end Library

end HostedLisp
