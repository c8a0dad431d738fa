import HostedLisp.Message.Sequences

/-!
# Methods of maps, sets and tree nodes
-/

namespace HostedLisp.Message

open Coll SessionM Method Value

/-- The methods of hash maps. The count is a number and no method. -/
def hashMapMethods : Methods := [
  ("assoc", ask2 assoc),
  ("without", ask1 without),
  ("valAt", askOr valAt),
  ("entryAt", askOr entryAt),
  ("containsKey", ask1 fun m k => do return .bool (← containsKey m k)),
  ("seq", ask seqMethod),
  ("cons", ask1 addBinding),
  ("toDict", ask toDict),
  ("withMeta", askWithInfo),
  ("count", notCallable),
  ("empty", required 0 0),
  ("asTransient", required 0 0)]

def setMethods : Methods := [
  ("cons", ask1 conj),
  ("disjoin", ask1 disjoin),
  ("seq", ask seqMethod),
  ("empty", act fun s => do return .hashSet (← get).emptySet s.info),
  ("meta", askInfo),
  ("withMeta", askWithInfo),
  ("count", required 0 0)]

/-- A question to a map that is kept in an array. -/
def askItems (f : List Value → Value → Except Error Value) : Method :=
  ask fun m =>
    match m with
    | .arrayMap items _ info => f items info
    | _ => fault .attribute

def arrayMapMethods : Methods := [
  ("assoc", ask2 assoc),
  ("without", ask1 without),
  ("valAt", askOr valAt),
  ("entryAt", ask1 fun m k => entryAt m k .nil),
  ("containsKey", ask1 fun m k => do return .bool (← containsKey m k)),
  ("indexOf", ask1 fun m _ =>
    match m with
    | .arrayMap items _ _ => do
      arrayMapSearch items
      return .int (-1)
    | _ => fault .attribute),
  ("count", askItems fun items _ => return pairCount items.length),
  ("seq", ask seqMethod),
  ("empty", askItems fun _ info => return .arrayMap [] false info),
  ("meta", askInfo),
  ("withMeta", askWithInfo),
  ("createHT", ask1 fun m init =>
    match init with
    | .array xs => return .arrayMap xs false m.info
    | .tuple xs => return .arrayMap xs true m.info
    | _ => fault .type),
  ("interator", act fun m =>
    match m with
    | .arrayMap items _ _ =>
      let (entries, failure) := arrayEntries items
      allocRef (.generator entries failure)
    | _ => fault .attribute),
  ("asTransient", act fun m =>
    match m with
    | .arrayMap items fixed _ => do
      allocRef (.transient { owner := some (← get).thread, items := items, fixed := fixed })
    | _ => fault .attribute),
  ("cons", ask1 addBinding),
  ("toDict", ask toDict)]

structure SortedParts where
  order : Comparator
  tree : Tree Value Value
  count : Value
  info : Value

def sortedParts (m : Value) : Except Error SortedParts :=
  match m with
  | .treeMap c t n i => return ⟨c, t, n, i⟩
  | _ => fault .attribute

def askSorted (f : SortedParts → Except Error Value) : Method := ask fun m => do f (← sortedParts m)

/-- A node, or nil for none. -/
def nodeArg (v : Value) : Except Error (Tree Value Value) :=
  match v.tree? with
  | some t => return t
  | none => fault .attribute

/-- A question about a new node, from its key, value and two subtrees. -/
def askNode (f : Comparator → Value → Option Value → Tree Value Value → Tree Value Value →
    Except Error (Tree Value Value)) : Method :=
  ⟨4, some 4, fun m args => lift do
    let p ← sortedParts m
    match args with
    | [k, v, l, r] => return ofTree (← f p.order k (ofSlot v) (← nodeArg l) (← nodeArg r))
    | _ => fault .type⟩

/-- A walk over the nodes of a sorted map. -/
def nodeWalk (asc : Bool) (m : Value) : SessionM Value := do
  let p ← lift (sortedParts m)
  allocRef (.nodeWalk (p.tree.pushEdge asc []) asc)

/-- A walk over the keys, or else the values, of a walk that may be given. -/
def partWalk (keys : Bool) : Method := actAny fun m args => do
  match args with
  | [] => allocRef (.partWalk keys (← nodeWalk true m))
  | [it] => allocRef (.partWalk keys it)
  | _ => return .nil

def treeMapMethods : Methods := [
  ("assoc", ask2 assoc),
  ("assocEx", ask2 fun m k v => do
    let p ← sortedParts m
    treeInsertNew p.order p.tree p.count p.info k v),
  ("without", ask1 without),
  ("valAt", actAny fun m args =>
    match args with
    | [k] => lift (valAt m k .nil)
    | [k, d] => lift (valAt m k d)
    | _ => return .nil),
  ("entryAt", ask1 fun m k => entryAt m k .nil),
  ("containsKey", ask1 fun m k => do return .bool (← containsKey m k)),
  ("seq", actAny fun m args => lift do
    let p ← sortedParts m
    match args with
    | [] => treeSeqOf p.tree true p.count
    | [asc] => treeSeqOf p.tree (← asc.truthy) p.count
    | _ => throw .badArity),
  ("rseq", askSorted fun p => treeSeqOf p.tree false p.count),
  ("seqFrom", ask2 fun m k asc => do
    let p ← sortedParts m
    treeFrom p.order p.tree p.count k (← asc.truthy)),
  ("empty", askSorted fun p => return .treeMap p.order .empty (.int 0) p.info),
  ("comparator", askSorted fun p => return .comparator p.order),
  ("count", askSorted fun p => return p.count),
  ("capacity", askSorted fun p => return p.count),
  ("minKey", askSorted fun p => return treeKey p.tree.min),
  ("min", askSorted fun p => return ofTree p.tree.min),
  ("maxKey", askSorted fun p => return treeKey p.tree.max),
  ("max", askSorted fun p => return ofTree p.tree.max),
  ("depth", actAny fun m args => lift do
    let p ← sortedParts m
    match args with
    | [] => return .int p.tree.depth
    | [t] => return .int (← nodeArg t).depth
    | _ => return .nil),
  ("doCompare", ask2 fun m a b => do return .int (← (← sortedParts m).order.compare a b)),
  ("add", ⟨4, some 4, fun m args => do
    let p ← lift (sortedParts m)
    match args with
    | [t, k, v, found] =>
      let t ← lift (nodeArg t)
      match ← lift (t.insert? p.order.order k (ofSlot v)) with
      | .added t => return ofTree t
      | .present .. =>
        fillBox found (← lift (treeEntry p.order t k))
        return .nil
    | _ => fault .type⟩),
  ("remove", ⟨3, some 3, fun m args => do
    let p ← lift (sortedParts m)
    match args with
    | [t, k, found] =>
      let t ← lift (nodeArg t)
      match ← lift (t.remove p.order.order k) with
      | .absent => return .nil
      | .removed left =>
        fillBox found (← lift (treeEntry p.order t k))
        return ofTree left
    | _ => fault .type⟩),
  ("append", ask2 fun m l r => do
    return ofTree (← (← nodeArg l).append (← sortedParts m).order.order (← nodeArg r))),
  ("balanceLeftDel", askNode fun c k v del r => Tree.balanceLeftDel c.order k v del r),
  ("balanceRightDel", askNode fun c k v l del => Tree.balanceRightDel c.order k v l del),
  ("leftBalance", askNode fun _ k v ins r => return Tree.leftBalance k v ins r),
  ("rightBalance", askNode fun _ k v l ins => return Tree.rightBalance k v l ins),
  ("replace", ⟨3, some 3, fun m args => lift do
    let p ← sortedParts m
    match args with
    | [t, k, v] => return ofTree (← (← nodeArg t).replace p.order.order k (ofSlot v))
    | _ => fault .type⟩),
  ("iterator", act (nodeWalk true)),
  ("reverseIterator", act (nodeWalk false)),
  ("keys", partWalk true),
  ("vals", partWalk false),
  ("cons", ask1 addBinding),
  ("toDict", ask toDict),
  ("meta", askInfo),
  ("withMeta", askWithInfo)]

/-! ## Nodes of sorted maps -/

/-- A question to a node about its parts. -/
def askParts (f : Color → Value → Option Value → Tree Value Value → Tree Value Value →
    Except Error Value) : Method :=
  ask fun n =>
    match n with
    | .treeNode (.node c _ k v l r) => f c k v l r
    | _ => fault .attribute

/-- A question to a node that names another node. -/
def askWith (f : Tree Value Value → Tree Value Value → Except Error (Tree Value Value)) : Method :=
  ask1 fun n other =>
    match n with
    | .treeNode t => do return ofTree (← f t (← nodeArg other))
    | _ => fault .attribute

/-- The node that a message needs. -/
def present (t : Tree Value Value) : Except Error (Tree Value Value) :=
  match t with
  | .empty => fault .attribute
  | t => return t

def treeNodeMethods : Methods := [
  ("key", askParts fun _ k _ _ _ => return k),
  ("getKey", askParts fun _ k _ _ _ => return k),
  ("val", askParts fun _ _ v _ _ => return v.getD .nil),
  ("getValue", askParts fun _ _ _ _ _ => return .nil),
  ("left", askParts fun _ _ _ l _ => return ofTree l),
  ("right", askParts fun _ _ _ _ r => return ofTree r),
  ("addLeft", askWith fun t ins => do
    match t with
    | .node .black _ k v _ r => return Tree.balanceLeft (← present ins) k v r
    | .node .red _ k v _ r => return Tree.red k v ins r
    | .empty => fault .attribute),
  ("addRight", askWith fun t ins => do
    match t with
    | .node .black _ k v l _ => return Tree.balanceRight k v l (← present ins)
    | .node .red _ k v l _ => return Tree.red k v l ins
    | .empty => fault .attribute),
  ("removeLeft", askWith fun t del =>
    match t with
    | .node .red _ k v _ r => return Tree.red k v del r
    | _ => fault .attribute),
  ("removeRight", askWith fun t del =>
    match t with
    | .node .red _ k v l _ => return Tree.red k v l del
    | _ => fault .attribute),
  ("blacken", ask fun n =>
    match n with
    | .treeNode t => return ofTree t.blacken
    | _ => fault .attribute),
  ("redden", ask fun n =>
    match n with
    | .treeNode t => do return ofTree (← t.redden Comparator.natural.order)
    | _ => fault .attribute),
  ("balanceLeft", askWith fun t parent =>
    match parent with
    | .node _ _ k v _ r => return Tree.balanceLeft t k v r
    | .empty => fault .attribute),
  ("balanceRight", askWith fun t parent =>
    match parent with
    | .node _ _ k v l _ => return Tree.balanceRight k v l t
    | .empty => fault .attribute),
  ("replace", ⟨4, some 4, fun n args => lift do
    match n, args with
    | .treeNode (.node c ..), [k, v, l, r] =>
      return ofTree (Tree.mk c k (ofSlot v) (← nodeArg l) (← nodeArg r))
    | _, _ => fault .attribute⟩)]

/-- The methods of a node without a colour, which leaves most of them to its heirs. -/
def bareNodeMethods : Methods := [
  ("key", act bareKey), ("getKey", act bareKey),
  ("val", ask fun _ => return .nil), ("getValue", ask fun _ => return .nil),
  ("left", ask fun _ => return .nil), ("right", ask fun _ => return .nil),
  ("addLeft", failing 1 unnamed), ("addRight", failing 1 unnamed),
  ("removeLeft", failing 1 unnamed), ("removeRight", failing 1 unnamed),
  ("blacken", failing 0 unnamed), ("redden", failing 0 unnamed), ("replace", failing 4 unnamed)]
where
  /-- The key. -/
  bareKey (self : Value) : SessionM Value := do
    return (← contentOf (fun
      | .bareNode k => some k
      | _ => none) self).2
  /-- An abstract method that does not tell whose it is. -/
  unnamed : Error := .signal .abstractMethod ""

end HostedLisp.Message
