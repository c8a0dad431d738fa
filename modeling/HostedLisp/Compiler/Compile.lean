import HostedLisp.Compiler.Simple
import HostedLisp.Compiler.Members
import HostedLisp.Session.Streams

/-!
# Compiling forms and texts

Every special form is compiled by a function that is given the compiler of the forms inside;
`CompileM.compileAt` ties the knot, with a bound on the nesting.

A name can stand for a property for a while; meanings of one name are stacked.

- `Special.named?`: the special forms.
- `CompileM.expandMacro?`: one step of expansion.
- `CompileM.compile`: the code of a form.
- `PropertyAliases`: the meanings of each name, the latest last.
- `PropertyAliases.push`, `PropertyAliases.pop`: open and close the scope of several names.
- `Value.stepping`: a form whose lists answer the method `next`.
- `CompileM.readForm`: the next form of a text.
- `CompileM.compileText`: all forms of a text, compiled one after the other as they are read.
-/

namespace HostedLisp

open Machine CompileM Special

def Special.named? (s : Symbol) : Option (CompileFn → Value → CompileM Instrs) :=
  match s.ns, s.name with
  | none, "in-ns" => some inNs
  | none, "def" => some define
  | none, "kwapply" => some kwApply
  | none, "loop*" => some loopStar
  | none, "let*" => some letStar
  | none, "." => some dot
  | none, "quote" => some fun _ => quote
  | some "py", "if" => some machineIf
  | none, "if*" => some ifStar
  | none, "do" => some fun compile form => do body compile (← rest form)
  | none, "fn*" => some fnStar
  | none, "recur" => some recur
  | none, "is?" => some isSame
  | none, "throw" => some throwForm
  | none, "applyTo" => some applyTo
  | none, "let-macro" => some letMacro
  | none, "__compiler__" => some fun _ _ => return [loadConst itself]
  | none, "try" => some tryForm
  | _, _ => none

namespace CompileM

/-! ## Macros -/

/-- Whether a thing is marked as a macro by its metadata. -/
def isMacro (v : Value) : CompileM Bool := do
  match v with
  | .type .. => return false
  | v =>
    match ← inSession (metadata? v) with
    | none => return false
    | some data =>
      if ← lift data.truthy then lift (do (← data.subscript (Value.kw "macro")).truthy)
      else return false

/-- The macro that a form calls. -/
def macroOf? (form : Value) : CompileM (Option Value) := do
  match ← head form with
  | .symbol s _ =>
    if s.ns = some "py" ∨ s.ns = some "py.bytecode" then return none
    else
      let found ← inSession (SessionM.findItem (← scope).ns s)
      let val ← match found, ← inSession (SessionM.cell? found) with
        | .ref a, some (.var _) => inSession (SessionM.deref a)
        | _, _ => pure found
      if ← isMacro found then return some val
      else if ← isMacro val then return some val
      else return none
  | _ => return none

/-- Expand the macro that a form calls; the result gets the metadata of the form. -/
def expandMacro? (form : Value) : CompileM (Option Value) := do
  match ← macroOf? form with
  | none => return none
  | some f =>
    let args ← remaining (← rest form)
    let r ← inSession (SessionM.apply f (f :: .nil :: args))
    match ← inSession (metadata? form) with
    | some data => if r.takesInfo then return some (← lift (r.withInfo data)) else return some r
    | none => return some r

/-! ## Forms -/

/-- The code of a call, of whatever kind. -/
def compileList (compile : CompileFn) (form : Value) : CompileM Instrs := do
  let first ← head form
  let _ ← lift first.hash
  let special := match first with
    | .symbol s _ => named? s
    | _ => none
  match special with
  | some f => f compile form
  | none =>
    match ← expandMacro? form with
    | some r => compile r
    | none =>
      let plain : CompileM Instrs := do
        let fn ← compile first
        let args ← each compile (← remaining (← rest form))
        return fn ++ args.flatten ++ [callWith args.length]
      match first with
      | .symbol s _ =>
        if s.ns = some "py.bytecode" then operation compile form s.name
        else if s.name.startsWith ".-" then propertyAccess compile form s.name
        else if s.name.startsWith "." && s.ns.isNone then methodAccess compile form s.name
        else plain
      | _ => plain

/-- The code of a form of any kind. -/
def compileValue (compile : CompileFn) (v : Value) : CompileM Instrs := do
  match v with
  | .symbol s _ => symbol compile v s
  | .list .. | .cons .. => compileList compile v
  | .vector .. | .subvector .. | .entry .. => vector compile v
  | .hashMap .. | .arrayMap .. | .treeMap .. => map compile v
  | .nil | .str _ | .wide _ | .numeral _ | .int _ | .bool _ | .float _ | .nan _ | .ratio _
  | .opcode _ | .type .. | .keyword _ | .emptyList _ | .hashSet ..
  | .regex _ => return [loadConst v]
  | v =>
    match ← inSession (SessionM.cell? v) with
    | some (.var _) => return [loadConst v]
    | _ =>
      let view ← inSession SessionM.viewer
      failPlain (" don't know how to compile " ++ (v.classOf view).shown)

/-- The classes that have a method of their own for metadata. -/
def describedClasses : List String := [
  "Symbol", "PersistentList", "EmptyList", "PersistentVector", "SubVec",
  "PersistentHashSet", "Cons",
  "IndexableSeq", "Var", "Atom", "PersistentTreeMap", "Ref"]

/-- The line marker that a form needs, if it starts a line further down. -/
def lineMarker (v : Value) : CompileM Instrs := do
  let data ← match v with
    -- a class has the method, but nothing to call it on
    | .type home name =>
      if home.startsWith "clojure." && describedClasses.contains name then fault .type
      else pure none
    | v => inSession (metadata? v)
  match data with
  | none | some .nil => return []
  | some data =>
    let line ← lift (data.subscript (Value.kw "line"))
    if line.isNil then return []
    else if ← lift (Value.less (← scope).lastLine line) then
      modifyScope fun s => { s with lastLine := line }
      return [{ op := .lineMarker, arg := line, pairing := .list }]
    else return []

/-- Compile a form with a given compiler for the forms inside. A failure is announced by the form on
its way out. -/
def compileWith (compile : CompileFn) (v : Value) : CompileM Instrs :=
  tryCatch (do
      let marker ← lineMarker v
      let code ← compileValue compile v
      return if code.isEmpty then [] else marker ++ code)
    fun e => do
      inSession (SessionM.printLine ("Compiling " ++ (← text v)))
      throw e

/-- The code of a form, with a bound on the nesting. -/
def compileAt : (depth : Nat) → CompileFn
  | 0, _ => fault .recursion
  | depth + 1, v => compileWith (compileAt depth) v

def compile : CompileFn := compileAt Value.depthLimit

end CompileM

/-! ## Property aliases -/

/-- The meanings of each name, the latest last. -/
abbrev PropertyAliases := List (Value × List Value)

namespace PropertyAliases

variable (known : PropertyAliases)

/-- Give a name a meaning on top of those it has. -/
def pushOne (key val : Value) : PropertyAliases :=
  if known.any fun (k, _) => k.eqB key then
    known.map fun (k, vs) => if k.eqB key then (k, vs ++ [val]) else (k, vs)
  else known ++ [(key, [val])]

/-- Take the latest meaning off a name. -/
def popOne (key : Value) : Except Error PropertyAliases :=
  match known.find? fun (k, _) => k.eqB key with
  | none => fault .key
  | some (_, []) => fault .index
  | some _ => return known.map fun (k, vs) => if k.eqB key then (k, vs.dropLast) else (k, vs)

def push (mapping : Value) : CompileM PropertyAliases := do
  (← Special.loopItems mapping).foldlM (fun known key => do
    return known.pushOne key (← CompileM.lift (mapping.subscript key))) known

/-- Take the latest meanings off names; names without a meaning are forgotten. -/
def pop (mapping : Value) : CompileM PropertyAliases := do
  let known ← CompileM.lift ((← Special.loopItems mapping).foldlM popOne known)
  return known.filter fun (_, vs) => !vs.isEmpty

def toValue : Value := .dict (known.map fun (k, vs) => (k, .array vs))

end PropertyAliases

/-! ## Texts -/

namespace Value

/-- A form with stepping lists in place of plain ones, also inside vectors, with a bound on the
nesting. Metadata is to be kept, which maps cannot be asked for, so that forms with maps fail. -/
def steppingAt : (depth : Nat) → Value → Except Error Value
  | 0, v => return v
  | depth + 1, v =>
    match v with
    | .list _ x rest n i => do
      -- the rest of a list is a list again, or nothing
      return .list .stepping (← steppingAt depth x) (← steppingAt depth rest) n i
    | .vector items i => do return .vector (.ofList (← items.toList.mapM (steppingAt depth))) i
    | .hashMap .. => fault .attribute
    | v => return v

/-- A stepping list of items. -/
def steppingListOf : List Value → Value
  | [] => .emptyList .nil
  | [x] => .list .stepping x .nil 1 .nil
  | x :: xs => .list .stepping x (steppingListOf xs) (xs.length + 1) .nil

/-- A form with stepping lists in place of plain ones. -/
def stepping (v : Value) : Except Error Value := steppingAt walkLimit v

end Value

structure CompileOptions where
  /-- Read stepping lists. -/
  stepping : Bool := false
  /-- Expand the references to global names. -/
  expand : Bool := false
  /-- Run the code of each form. -/
  execute : Bool := false

/-- What became of a form. -/
structure Outcome where
  code : Except Error Instrs
  /-- The local names that were left over. -/
  names : List Value
  /-- The result of running the code, if it was run. -/
  result : Option (Except Error Value) := none

namespace CompileM

/-- The outcome of something that may fail. -/
def attempt {α : Type} (x : CompileM α) : CompileM (Except Error α) :=
  tryCatch (do return .ok (← x)) fun e => return .error e

/-- The next form of a text, and where it ends; no form at the end of the text. -/
def readForm (cursor : Cursor) : CompileM (Option (Value × Cursor)) := do
  let st ← get
  let current := st.session.currentNamespace st.scope.ns
  let (v?, st) ← inSession (SessionM.runReader current { cursor := cursor } Reader.next?)
  return v?.map fun v => (v, st.cursor)

/-- Compile a form, and run it if that is asked for. -/
def process (o : CompileOptions) (v : Value) : CompileM Outcome := do
  let code ← attempt do
    let v ← if o.stepping then lift v.stepping else pure v
    let code ← compile v
    if o.expand then Special.expandGlobals code else return code
  let names := (← scope).aliases.map (·.1)
  match code with
  | .ok instrs =>
    if o.execute then
      let result ← attempt do execute instrs (← scope).ns
      return { code := code, names := names, result := some result }
    else return { code := code, names := names }
  | .error _ => return { code := code, names := names }

/-- Compile the forms of a text from a place on. A failure to read ends it. -/
def compileFrom (o : CompileOptions) (acc : Array Outcome) :
    (fuel : Nat) → Cursor → CompileM (Array Outcome × Option Error)
  | 0, _ => return (acc, none)
  | fuel + 1, cursor => do
    match ← attempt (readForm cursor) with
    | .error e => return (acc, some e)
    | .ok none => return (acc, none)
    | .ok (some (v, cursor)) =>
      let out ← process o v
      compileFrom o (acc.push out) fuel cursor

def compileText (o : CompileOptions) (text : String) : CompileM (Array Outcome × Option Error) :=
  compileFrom o #[] (text.length + 1) (.ofString text)

/-- Run what may be code: a list of pairs of operations and arguments. -/
def executeValue (v : Value) : CompileM Value := do
  if ← lift (Value.eq v (.array [])) then return .nil
  else
    let code ← (← Special.loopItems v).mapM fun i =>
      match i with
      | .tuple [.opcode o, arg] => return instr o arg
      | .array [.opcode o, arg] => return { instr o arg with pairing := .list }
      | .tuple [.lineMarker, arg] => return { op := .lineMarker, arg := arg }
      | .array [.lineMarker, arg] => return { op := .lineMarker, arg := arg, pairing := .list }
      | .str _ => fault .value
      | _ => fault .type
    execute code (← scope).ns

/-- The code that imports the names that every namespace starts with. -/
def standardImports : Instrs := [
  loadConst (.int (-1)), loadConst .nil, named .importName "clojure.standardimports",
  bare .importStar]

/-- The code for a function that refers to itself by its var. -/
def selfReference (v : Value) : Instrs := [loadConst v, named .loadAttr "deref", callWith 0]

/-- The names of the vars in the current namespace. -/
def internedNames : CompileM (List String) := do
  match (← scope).ns with
  | .ref a =>
    let n ← inSession (SessionM.namespaceAt a)
    n.members.filterMapM fun (name, v) => do
      match ← inSession (SessionM.cell? v) with
      | some (.var _) => return some name
      | _ => return none
  | _ => return []

end CompileM

namespace SessionM

/-- Put a new compiler to work in a namespace. -/
def withCompiler {α : Type} (ns : Value) (file : String) (x : CompileM α) : SessionM α := do
  let _ ← openNamespace "clojure.core"
  let s ← get
  match x.run { session := s, scope := { ns := ns, file := file } } with
  | .ok a st =>
    set st.session
    return a
  | .error e st =>
    set st.session
    throw e

end SessionM

end HostedLisp
