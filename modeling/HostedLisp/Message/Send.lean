import HostedLisp.Message.Maps
import HostedLisp.Message.Numbers
import HostedLisp.Message.Records
import HostedLisp.Message.Transients

/-!
# Sending messages

- `Message.methodsOf`: the methods of a value.
- `SessionM.part?`: a named part of a value.
- `SessionM.send`: let a value answer a message.
- `SessionM.assignPart`: put something into a named part.
-/

namespace HostedLisp

namespace Message

open Method SessionM

def comparatorMethods : Methods := [
  ("compare", ask2 fun c a b =>
    match c with
    | .comparator c => do return .int (← c.compare a b)
    | _ => fault .attribute)]

/-- The methods of binding frames. A copy of a frame has nothing to go back to. -/
def frameMethods : Methods := [
  ("clone", on fun a => do
    let f ← frameAt a
    allocRef (.frame { bindings := f.bindings }))]

/-- The methods of a value that is not held by address. -/
def valueMethods : Value → Methods
  | .symbol .. => symbolMethods
  | .keyword _ => keywordMethods
  | .emptyList _ => emptyListMethods
  | .list .stepping .. => steppingListMethods
  | .list .. => listMethods
  | .cons .. | .indexSeq .. | .keySeq .. | .valSeq .. | .trieSeq .. => seqMethods
  | .treeSeq .. => treeSeqMethods
  | .arraySeq .. => arraySeqMethods
  | .vector .. => vectorMethods
  | .subvector .. => sliceMethods
  | .entry .. => entryMethods
  | .hashMap .. => hashMapMethods
  | .hashSet .. => setMethods
  | .arrayMap .. => arrayMapMethods
  | .treeMap .. => treeMapMethods
  | .treeNode _ => treeNodeMethods
  | .comparator _ => comparatorMethods
  | _ => []

/-- The methods of sequences over a stack that does not hold nodes. -/
def stackSeqMethods : Methods := [
  ("seq", act fun self => return self),
  ("first", act fun self => do lift (← fieldOf self "stack").first),
  ("count", act fun self => do
    match ← fieldOf self "cnt" with
    | .int n => if n < 0 then throw (.abstractIn "Seq") else return .int n
    | v => return v),
  ("withMeta", failing 1 (.fault .type))]

def recordMethods (name : String) : Methods :=
  match name with
  | "AAlias" => placeholderMethods
  | "FnArgument" => parameterMethods
  | "GlobalPtr" => globalMethods
  | "SharedLock" => lockMethods
  | "Seq" => stackSeqMethods
  | _ => []

/-- The methods of a thing held by address. -/
def cellMethods : Cell → Methods
  | .var _ => varMethods
  | .atom _ => atomMethods
  | .atomic false _ => atomicCellMethods
  | .atomic true _ => atomicCounterMethods
  | .multi _ => multiMethods
  | .frame _ => frameMethods
  | .transient _ => transientMethods
  | .trieNode n =>
    match n.shape with
    | .sparse _ => sparseNodeMethods
    | .dense _ => denseNodeMethods
    | .collision .. => collisionNodeMethods
  | .bareNode _ => bareNodeMethods
  | .nodeWalk .. | .partWalk .. => walkMethods
  | .protocolFn _ => protocolFnMethods
  | .protocol _ => protocolMethods
  | .textReader _ => readerMethods
  | .streamSeq _ | .hollowSeq => streamMethods
  | .movingSeq .. => movingMethods
  | .writerState .. => writerMethods
  | .bigNumber n => bigMethods n
  | .record cls _ => recordMethods cls.name
  | _ => []

def methodsOf (v : Value) : SessionM Methods := do
  match v with
  | .ref a => return cellMethods (← fetch a)
  | v => return valueMethods v

end Message

namespace SessionM

/-- The set that stands behind the shared empty one; other values stand for themselves. -/
def resolve (v : Value) : SessionM Value := do
  match v with
  | .ref a =>
    match ← fetch a with
    | .sharedSet => return .hashSet (← get).emptySet .nil
    | _ => return v
  | _ => return v

/-- The named parts of a value that is not held by address, but for its metadata. -/
def valueParts : Value → List (String × Value)
  | .vector xs _ => [("_cnt", .int xs.count), ("_shift", .int xs.shift), ("_tail", .array xs.tail),
      ("_root", .thing "clojure.lang.persistentvector" "Node")]
  | .subvector base start stop _ => [("v", base), ("start", .int start), ("end", .int stop)]
  | .entry k w => [("_key", k), ("_value", w)]
  | .list _ x rest n _ =>
    [("_first", x), ("_rest", rest), ("_count", .int n), ("_hash", .int (-1))]
  | .cons x rest _ => [("_first", x), ("_more", rest)]
  | .indexSeq source i => [("array", source), ("i", .int i)]
  | .keySeq s _ | .valSeq s _ => [("_seq", s)]
  | .arraySeq items i _ => [("array", .array items), ("i", .int i)]
  | .treeSeq stack asc n _ =>
    [("stack", .array (stack.map Value.ofTree)), ("asc", .bool asc), ("cnt", .int n)]
  | .hashMap m _ => [("count", .int m.count), ("hasNull", .bool m.nilValue.isSome),
      ("noneValue", m.nilValue.getD .nil)]
  | .hashSet m _ => [("impl", .hashMap m .nil)]
  | .arrayMap items fixed _ => [("array", if fixed then .tuple items else .array items)]
  | .treeMap c t n _ => [("comp", .comparator c), ("tree", Value.ofTree t), ("_count", n)]
  | .treeNode (.node _ branch k w l r) => ("_key", k) :: (w.map ("_val", ·)).toList
      ++ if branch then [("_left", Value.ofTree l), ("_right", Value.ofTree r)] else []
  | .symbol s _ => [("name", .str s.name), ("ns", (s.ns.map Value.str).getD .nil)]
  | .keyword s => [("sym", .symbol s .nil)]
  | .label l => [("name", .str l.name)]
  | .type home n => [("__module__", .str home), ("__name__", .str n)]
  | .module n | .builtin n => [("__name__", .str n)]
  | .primitive p => [("__name__", .str (Value.primitiveName p))]
  | _ => []

/-- A named part of a value that is not held by address. -/
def valuePart? (v : Value) (name : String) : Option Value :=
  (valueParts v).lookup name <|> if name = "_meta" && v.takesInfo then some v.info else none

/-- The named parts that a thing held by address has as they are. -/
def cellParts : Cell → List (String × Value)
  | .namespace n => [("__name__", .str n.name)]
  | .var v => [("ns", v.ns), ("sym", v.sym), ("threadBound", .bool v.threadBound),
      ("dynamic", v.dynamic), ("public", v.isPublic), ("_meta", v.info)]
  | .unbound v => [("v", v)]
  | .frame f => [("prev", (f.prev.map Value.ref).getD .nil)]
  | .threadBox _ v | .box v | .atomic false v => [("val", v)]
  | .atomic true v => [("_v", v)]
  | .atom x => [("_meta", x.info), ("validator", x.validator), ("watches", .hashMap x.watches .nil)]
  | .multi f => [("selector", f), ("fns", .dict []), ("default", .nil)]
  | .transient t => [("array", if t.fixed then .tuple t.items else .array t.items)]
  | .trieNode n => [("edit", n.edit), ("array", .array n.slots)] ++ match n.shape with
    | .sparse bits => [("bitmap", .int bits)]
    | .dense n => [("count", .int n)]
    | .collision h n => [("count", .int n), ("hsh", .int h)]
  | .bareNode k => [("_key", k)]
  | .userType t => [("__name__", .str t.name), ("__module__", .str "__main__")]
  | .protocolFn p => [("name", .str p.name), ("attrname", .str ("__proto__" ++ p.name)),
      ("default", p.default), ("dispatchTable", .dict p.table)]
  | .protocol p => [("ns", p.ns), ("name", p.name), ("__name__", p.name), ("fns", p.names),
      ("protofns", .dict (p.fns.map fun (k, f) => (.str k, f)))]
  | .textReader c => [("idx", .int ((c.pos : Int) - 1)), ("line", .int c.line), ("col", .int 1),
      ("lastline", .int c.lastLine), ("lastcol", .int (if c.lastLine < 0 then -1 else 1)),
      ("haslast", .bool c.canStepBack), ("s", .str (String.ofList c.source.toList))]
  | .streamSeq s => [("line", s.line), ("col", s.col), ("ccur", s.current),
      ("_next", (s.next.map Value.ref).getD .nil)]
  | .movingSeq current previous => [("fs", current), ("old", previous)]
  | .writerState seen last =>
    [("seen", .dict (seen.map fun (k, n) => (k, .int n))), ("nextIDX", .int last)]
  | .record _ fields => fields
  | _ => []

/-- A named part of a thing held by address. -/
def cellPart? (a : Address) (c : Cell) (name : String) : SessionM (Option Value) := do
  match (cellParts c).lookup name with
  | some x => return some x
  | none =>
    match c, name with
    | .namespace n, "__aliases__" =>
      return n.aliases.map fun as => .dict (as.map fun (k, v) => (.symbol k .nil, v))
    | .namespace _, name => member? (.ref a) name
    | .var v, "root" => return some (← allocRef (.atomic false v.root))
    | .var v, "validator" => return v.validator
    | .atom x, "_state" => return some (← allocRef (.atomic false x.state))
    | .userType _, name => typeMember? (.ref a) name
    | .object .., name => return (← partOf? (.ref a) name).map fun (f, bound) =>
        if bound then .method else f
    | .protocolFn p, "__name__" => return p.shortName.map .str
    | _, _ => return none

/-- A named part of a value: something that it holds, or one of its methods. -/
def part? (v : Value) (name : String) : SessionM (Option Value) := do
  let held ← match v with
    | .hashMap m _ =>
      if name = "root" then
        match m.root with
        | some r => do pure (some (← ofTrie r))
        | none => pure (some .nil)
      else pure (valuePart? v name)
    | .ref a => do cellPart? a (← fetch a) name
    | v => pure (valuePart? v name)
  match held with
  | some x => return some x
  | none =>
    if name = "__class__" then return some (← typeOf v)
    else if ((← Message.methodsOf v).lookup name).isSome then return some .method
    else return none

/-- A named part that a value must have. -/
def part (v : Value) (name : String) : SessionM Value := do
  match ← part? (← resolve v) name with
  | some x => return x
  | none => fault .attribute

/-- Let a value answer a message. -/
def send (receiver : Value) (name : String) (args : List Value) : SessionM Value := do
  let receiver ← resolve receiver
  match (← Message.methodsOf receiver).lookup name with
  | some m => m.call receiver args
  | none =>
    match ← partOf? receiver name with
    | some (f, bound) => apply f (if bound then receiver :: args else args)
    | none => apply (← part receiver name) args

/-- Put short names into a namespace. -/
def setAliases (a : Address) (names : Value) : SessionM Unit := do
  let n ← namespaceAt a
  let pairs ← match names with
    | .dict ps => pure ps
    | .hashMap m _ => pure (Value.tableEntries m)
    | _ => fault .type
  let known := pairs.filterMap fun (k, v) =>
    match k with
    | .symbol s _ => some (s, v)
    | _ => none
  store a (.namespace { n with aliases := some known })

/-- Put something into a named part of a thing. Things that are all in one piece have none. -/
def assignPart (v : Value) (name : String) (x : Value) : SessionM Unit := do
  match v with
  | .ref a =>
    match ← fetch a, name with
    | .namespace _, "__aliases__" => setAliases a x
    | .namespace _, name => setMember a name x
    | .object t fields, name => store a (.object t (withMember fields name x))
    | .userType _, name => setTypeMember a name x
    | .record cls fields, name => store a (.record cls (withMember fields name x))
    | .box _, "val" => store a (.box x)
    | .atomic counter _, "val" | .atomic counter _, "_v" => store a (.atomic counter x)
    | .var w, "dynamic" => store a (.var { w with dynamic := x })
    | .var w, "public" => store a (.var { w with isPublic := x })
    | .var w, "_meta" => store a (.var { w with info := x })
    | .protocolFn p, "default" => store a (.protocolFn { p with default := x })
    | _, _ => return ()
  | v => if v.isOpen then return () else fault .attribute

end SessionM

end HostedLisp
