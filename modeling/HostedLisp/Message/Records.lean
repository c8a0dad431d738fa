import HostedLisp.Message.Method
import HostedLisp.Compiler.Scope
import HostedLisp.Lock.Basic
import HostedLisp.Session.Protocols

/-!
# Methods of holders of values and of records

- Placeholders and parameters of functions, names that are put together from parts, names of
  globals.
- Shared locks whose parts are set from outside.
- The numbers that a writer gives to things.
-/

namespace HostedLisp.Message

open Method SessionM

/-! ## Atoms, vars and other holders of values -/

def addressOf (v : Value) : SessionM Address := do
  match v with
  | .ref a => return a
  | _ => fault .attribute

/-- An action on a thing by its address. -/
def on (f : Address → SessionM Value) : Method := act fun self => do f (← addressOf self)

def on1 (f : Address → Value → SessionM Value) : Method :=
  act1 fun self x => do f (← addressOf self) x

def on2 (f : Address → Value → Value → SessionM Value) : Method :=
  act2 fun self x y => do f (← addressOf self) x y

/-- An action with any number of arguments on a thing by its address. -/
def onAny (f : Address → List Value → SessionM Value) : Method :=
  actAny fun self args => do f (← addressOf self) args

/-- Replacing metadata by what a function makes of it and two arguments. -/
def alterInfo (info : Address → SessionM Value) (set : Address → Value → SessionM Unit) : Method :=
  ⟨3, some 3, fun self args => do
    let a ← addressOf self
    match args with
    | f :: rest => thenNil do set a (← apply f ((← info a) :: rest))
    | [] => fault .type⟩

def atomInfo (a : Address) : SessionM Value := do return (← atomAt a).info

def setAtomInfo (a : Address) (data : Value) : SessionM Unit :=
  updateAtom a fun x => { x with info := data }

def atomMethods : Methods := [
  ("deref", on fun a => do return (← atomAt a).state),
  ("swap", onAny atomSwap),
  ("reset", on1 atomReset),
  ("compareAndSet", on2 atomCompareAndSet),
  ("validate", onAny fun a args => thenNil do checkAs (some (← atomAt a).validator) args),
  ("setValidator", on1 fun a f => thenNil do
    validate f (← atomAt a).state
    updateAtom a fun x => { x with validator := f }),
  ("getValidator", on fun a => do return (← atomAt a).validator),
  ("getWatches", on fun a => do return .hashMap (← atomAt a).watches .nil),
  ("addWatch", on2 fun a key f => do
    let w ← lift (Value.tableInsert (← atomAt a).watches key f)
    updateAtom a fun x => { x with watches := w }
    return .ref a),
  ("removeWatch", on1 fun a key => do
    let w ← lift (Value.tableErase (← atomAt a).watches key)
    updateAtom a fun x => { x with watches := w }
    return .ref a),
  ("notifyWatches", on2 fun a _ _ => thenNil (notify a)),
  ("meta", on atomInfo),
  ("resetMeta", on1 fun a data => thenNil (setAtomInfo a data)),
  ("alterMeta", alterInfo atomInfo setAtomInfo)]

def varInfo (a : Address) : SessionM Value := do return (← varAt a).info

def setVarInfo (a : Address) (data : Value) : SessionM Unit :=
  updateVar a fun w => { w with info := data }

/-- The methods of vars. Vars have no place for watches. -/
def varMethods : Methods := [
  ("deref", on deref),
  ("set", on1 fun a v => do
    setBound a v
    return .ref a),
  ("bindRoot", on1 fun a v => do
    bindRoot a v
    return .ref a),
  ("alterRoot", on2 fun a f args => thenNil do
    let args ← if ← lift args.truthy then lift args.iterate else pure []
    alterRoot a f args),
  ("hasRoot", on fun a => do return .bool (← hasRoot a)),
  ("isBound", on fun a => do
    if (← boxOf? a).isSome then return .bool true else return .bool (← hasRoot a)),
  ("getThreadBinding", on fun a => do
    match ← boxOf? a with
    | some b => return .ref b
    | none => return .nil),
  ("setDynamic", actOpt fun self v => do
    updateVar (← addressOf self) fun w => { w with dynamic := v.getD (.bool true) }
    return self),
  ("isDynamic", on fun a => do return (← varAt a).dynamic),
  ("setPublic", actOpt fun self v => thenNil do
    updateVar (← addressOf self) fun w => { w with isPublic := v.getD (.bool true) }),
  ("isPublic", on fun a => do return (← varAt a).isPublic),
  ("setMeta", on1 fun a data => do
    setInfo a data
    return .ref a),
  ("setMacro", on fun a => thenNil (setMacro a)),
  ("meta", on varInfo),
  ("resetMeta", on1 fun a data => thenNil (setVarInfo a data)),
  ("alterMeta", alterInfo varInfo setVarInfo),
  ("validate", onAny fun a args => thenNil do checkAs (← varAt a).validator args),
  ("setValidator", on1 fun a f => thenNil do
    validate f (← deref a)
    updateVar a fun w => { w with validator := some f }),
  ("getValidator", on fun a => do return (← varAt a).validator.getD .nil),
  ("getWatches", failing 0 (.fault .attribute)),
  ("addWatch", failing 2 (.fault .attribute)),
  ("removeWatch", failing 1 (.fault .attribute)),
  ("notifyWatches", failing 2 (.fault .attribute)),
  ("doSet", required 1 1),
  ("doReset", required 1 1)]

/-- The value in an atomic cell. -/
def atomicAt : Address → SessionM Value := contentAt fun
  | .atomic _ v => some v
  | _ => none

/-- The methods of atomic cells. Replacing the value does not compare it first. -/
def atomicCellMethods : Methods := [
  ("get", on atomicAt),
  ("set", on1 fun a v => thenNil (store a (.atomic false v))),
  ("mutate", on1 fun a f => thenNil do
    store a (.atomic false (← apply f [← atomicAt a]))),
  ("compareAndSet", on2 fun a _ v => do
    store a (.atomic false v)
    return .bool true)]

/-- The methods of atomic counters, which give the new count. -/
def atomicCounterMethods : Methods := [
  ("get", on atomicAt),
  ("set", on1 fun a v => thenNil (store a (.atomic true v))),
  ("getAndIncrement", on fun a => do
    let v ← lift ((← atomicAt a).add (.int 1))
    store a (.atomic true v)
    return v),
  ("compareAndSet", on2 fun a expected v => do
    if ← lift (Value.eq (← atomicAt a) expected) then
      store a (.atomic true v)
      return .bool true
    else return .bool false)]

/-- The methods of functions chosen by a selector. None can be added. -/
def multiMethods : Methods := [
  ("addMethod", act2 fun _ value _ => do
    let _ ← lift value.hash
    if ← lift (Value.eq value (Value.kw "default")) then fault .name
    else fault .key)]

def symbolMethods : Methods := [
  ("getName", ask fun v =>
    match v with
    | .symbol s _ | .keyword s => return .str s.name
    | _ => fault .attribute),
  ("getNamespace", ask fun v =>
    match v with
    | .symbol s _ | .keyword s => return (s.ns.map Value.str).getD .nil
    | _ => fault .attribute),
  ("meta", ask fun v => return v.info),
  ("withMeta", ask1 Value.withInfo)]

def keywordMethods : Methods := symbolMethods.take 2

def fieldOf (v : Value) (name : String) : SessionM Value := do
  return (← contentOf (fun
    | .record _ fields => fields.lookup name
    | _ => none) v).2

/-! ## Names in compiled code -/

/-- The classes of records that the compiler makes. -/
def compilerClass (name : String) : ClassName := ⟨"clojure.lang.compiler", name⟩

/-- A placeholder for a local name. -/
def placeholder (rest : Value) : Cell := .record (compilerClass "AAlias") [("rest", rest)]

def parameter (sym rest : Value) : Cell :=
  .record (compilerClass "FnArgument") [("rest", rest), ("sym", sym)]

/-- A name that follows others. -/
def nameSlot (name rest : Value) : Cell :=
  .record (compilerClass "Name") [("name", name), ("isused", .bool false), ("rest", rest)]

def globalName (ns name : Value) : Cell :=
  .record (compilerClass "GlobalPtr") [("ns", ns), ("name", name)]

/-- The methods of placeholders, which leave compiling to their heirs. -/
def placeholderMethods : Methods := [("compile", required 1 1), ("compileSet", required 1 1)]

/-- The name of something named. -/
def nameText (v : Value) : SessionM Value := do
  match v with
  | .symbol s _ | .keyword s => return .str s.name
  | .str _ | .wide _ => return v
  | .type _ n => return .str n
  | v =>
    throw (.signal .protocol ("clojure.protocolsgetName not extended to handle: "
      ++ (v.classOf (← viewer)).shown))

/-- Code of one instruction on the name of a parameter. -/
def parameterCode (o : Machine.Opcode) : Method := act1 fun self _ => do
  return .array [.tuple [.opcode o, ← nameText (← fieldOf self "sym")]]

def parameterMethods : Methods := [
  ("compile", parameterCode .loadFast), ("compileSet", parameterCode .storeFast)]

/-- The parts of a name, the last one first. -/
def nameParts : (fuel : Nat) → Value → SessionM (List String)
  | 0, _ => fault .recursion
  | _, .nil => return []
  | fuel + 1, v => do
    let n ← plainText (← fieldOf v "name")
    return n :: (← nameParts fuel (← fieldOf v "rest"))

/-- The text of a name. One that is used gets a fresh number each time. -/
def nameSlotText (v : Value) : SessionM String := do
  let parts ← nameParts Value.depthLimit v
  let text := "_".intercalate parts.reverse
  if ← lift (← fieldOf v "isused").truthy then return text ++ Nat.repr (← nextId) else return text

def globalMethods : Methods := [
  ("emit", act2 fun self _ _ => do
    let ns ← fieldOf self "ns"
    let n ← plainText (← fieldOf self "name")
    match ← member? ns n with
    | none => fault .attribute
    | some v =>
      match v, ← cell? v with
      | .ref a, some (.var w) =>
        if ← lift w.dynamic.truthy then
          throw (.signal .compiler "Compiler exception Invalid deref mode")
        else return .array [.tuple [.opcode .loadConst, ← deref a]]
      | _, _ =>
        return .array [.tuple [.opcode .loadConst, ns], .tuple [.opcode .loadAttr, .str n]])]

/-! ## Locks -/

/-- A lock that nobody holds. -/
def newLock : Cell :=
  .record ⟨"clojure.util.shared_lock", "SharedLock"⟩
    [("thrOwner", .nil), ("intOwnerDepth", .int 0), ("dicUsers", .dict []),
      ("lstOwners", .array []), ("lstUsers", .array []), ("lstPooledEvents", .array [])]

/-- Threads in line. -/
def waitingOf (v : Value) : SessionM (List (Waiting String)) := do
  (← lift v.iterate).mapM fun w => do
    match ← lift w.iterate with
    | [t, _, n] => return { thread := ← plainText t, ticket := 0, shared := ← intOf n }
    | _ => fault .value

/-- The lock that a record describes. -/
def lockOf (self : Value) : SessionM (SharedLock String) := do
  let owner ← match ← fieldOf self "thrOwner" with
    | .nil => pure none
    | t => do pure (some (← plainText t))
  let depth ← intOf (← fieldOf self "intOwnerDepth")
  let users ← match ← fieldOf self "dicUsers" with
    | .dict ps => ps.mapM fun (t, n) => do return (← plainText t, ← intOf n)
    | _ => fault .attribute
  let owners ← waitingOf (← fieldOf self "lstOwners")
  return { owner := owner, depth := depth, users := users, waitingOwners := owners,
           waitingUsers := ← waitingOf (← fieldOf self "lstUsers") }

/-- A question about a lock. -/
def lockAsk (f : SharedLock String → Bool) : Method := act fun self => do
  return .bool (f (← lockOf self))

/-- The methods of locks whose parts are set from outside. Threads are told by their names, which
have an order. -/
def lockMethods : Methods := [
  ("_has_owner", lockAsk SharedLock.hasOwner),
  ("_has_users", lockAsk SharedLock.hasUsers),
  ("_has_pending_owners", lockAsk SharedLock.hasWaitingOwners),
  ("_has_pending_users", lockAsk SharedLock.hasWaitingUsers),
  ("_invariant", act fun self => do
    match (← lockOf self).invariant? (some fun a b => a ≤ b) with
    | some b => return .bool b
    | none => fault .type)]

/-! ## Writers -/

/-- What a writer has seen. -/
def writerAt : Value → SessionM (Address × List (Value × Int) × Int) := contentOf fun
  | .writerState seen last => some (seen, last)
  | _ => none

/-- The number that a writer has given to a thing. -/
def seenNumber? (writer x : Value) : SessionM (Option Int) := do
  let (_, seen, _) ← writerAt writer
  let _ ← lift x.hash
  lift (Value.pairFind? Value.eq x (seen.map fun (k, n) => (k, Value.int n))) >>= fun
    | some (.int n) => return some n
    | _ => return none

/-- Give a thing the next number. -/
def markSeen (writer x : Value) : SessionM Unit := do
  let (a, seen, last) ← writerAt writer
  let n := last + 1
  store a (.writerState seen n)
  let _ ← lift x.hash
  let others ← seen.filterM fun (k, _) => do return !(← lift (Value.eq k x))
  store a (.writerState (others ++ [(x, n)]) n)

def writerMethods : Methods := [
  ("hasSeen", act1 fun self x => do return .bool (← seenNumber? self x).isSome),
  ("getID", act1 fun self x => do
    match ← seenNumber? self x with
    | some n => return .int n
    | none => fault .key),
  ("markSeen", act1 fun self x => thenNil (markSeen self x))]

/-- Make a kind of thing known to writers. The answer is its name and the number of kinds. -/
def registerKind (name : Value) : SessionM Value := do
  modify fun s => { s with writableKinds := s.writableKinds + 1 }
  match name with
  | .str _ | .wide _ | .numeral _ => return .array [name, .int (← get).writableKinds]
  | _ => fault .type

/-- Write a thing. There is a way to write compiled code only, and it fails at its first part. The
answer is the octets that were written and the failure. -/
def writeThing (x : Value) (writer : Option Value) : SessionM (List Value × Error) := do
  let r ← tryCatch (do
      match writer with
      | none | some .nil => do
        let _ ← lift x.hash
        return Except.ok (ε := Error) none
      | some w => return Except.ok (← seenNumber? w x))
    fun e => return .error e
  match r with
  | .error e => return ([], e)
  | .ok seen =>
    let mark := match seen with
      | some n => [.int 0, .int n]
      | none => []
    let refused (c : ClassName) : Error :=
      .signal .protocol ("freeze-write not extended to handle: " ++ c.shown)
    let cls := x.classOf (← viewer)
    if cls = .basic "code" then return (mark ++ [.int 1], refused (.basic "int"))
    else return (mark, refused cls)

/-! ## Protocols -/

def protocolFnMethods : Methods := [
  ("extend", act2 fun self t f => thenNil (extendFn self t f)),
  ("extendForTypes", act2 fun self ts f => thenNil do
    for t in ← lift ts.iterate do
      extendFn self t f),
  ("setDefault", act1 fun self f => thenNil do
    let (a, p) ← protocolFnAt self
    store a (.protocolFn { p with default := f })),
  ("isExtendedBy", act1 fun self t => do return .bool (← isExtended self t))]

def protocolMethods : Methods := [
  ("markImplementor", act1 fun self t => thenNil (markImplementor self t)),
  ("isExtendedBy", act1 fun self t => do return .bool (← isImplementor self t)),
  ("extendForType", act2 fun self t fns => thenNil (extendProtocol self t fns))]

end HostedLisp.Message
