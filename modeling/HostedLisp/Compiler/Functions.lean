import HostedLisp.Compiler.Templates
import HostedLisp.Code.Assemble

/-!
# Local variables, loops and functions

A function shares the local names around it: each that it uses becomes a cell. A function that
uses none is loaded at once.

- `Special.letStar`, `Special.loopStar`, `Special.recur`: local variables and loops.
- `Special.letMacro`: local names that stand for forms.
- `Special.parameters`: a list of parameters.
- `Special.function`, `Special.overload`: the code of a function.
- `Special.fnStar`: the form.
-/

namespace HostedLisp.Special

open Machine CompileM

/-- A local variable for a symbol. If the symbol is in use already, its new name shows that. -/
def newLocal (key : Value) (name : String) : CompileM Alias := do
  let stem ← match ← getAlias? key with
    | some _ => do pure (Symbol.ofText (name ++ "_" ++ Nat.repr (← nextId))).name
    | none => pure name
  let renamed := Symbol.ofText (stem ++ Nat.repr (← nextId))
  return .renamed renamed.name

variable (compile : CompileFn) (form : Value)

/-- Bind symbols to the values of forms in turn. -/
def bindLocals (code : Instrs) (keys : List Value) : List Value → CompileM (Instrs × List Value)
  | key :: value :: others => do
    match key with
    | .symbol ⟨none, name⟩ _ =>
      let code := code ++ (← compile value)
      let a ← newLocal key name
      pushAlias key a
      let store ← lift (Template.storeAlias a)
      bindLocals (code ++ store) (keys ++ [key]) others
    | _ => fail "bindings must be non-namespaced symbols" form
  | _ => return (code, keys)

def bindingItems (what : String) (form vector : Value) : CompileM (List Value) := do
  let items ← lift vector.items
  if items.length % 2 ≠ 0 then fail (what ++ " takes a even number of bindings") form
  else return items

def letStar : CompileM Instrs := do
  if (← size form) < 2 then fail "let* takes at least two args" form
  else
    let form ← rest form
    let vector ← head form
    if !vector.isVectorLike then fail "let* takes a vector as it's first argument" form
    else
      let items ← bindingItems "let*" form vector
      let (code, keys) ← bindLocals compile form [] [] items
      let inner ← body compile (← rest form)
      popAliases keys
      return code ++ inner

/-- The code that stores into each of the local names. -/
def stores (keys : List Value) : CompileM (List Instrs) :=
  keys.mapM fun key => do
    match ← getAlias? key with
    | some a => lift (Template.storeAlias a)
    | none => fault .attribute

def loopStar : CompileM Instrs := do
  if (← size form) < 3 then fail "loop* takes at least two args" form
  else
    let form ← rest form
    match ← head form with
    | .vector items i =>
      let items ← bindingItems "loop*" form (.vector items i)
      let (code, keys) ← bindLocals compile form [] [] items
      let form ← rest form
      let label ← newLabel "recurLabel"
      pushRecur { label := label, stores := ← stores keys }
      let inner ← body compile form
      popRecur
      popAliases keys
      return code ++ [landing label] ++ inner
    | _ => fail "loop* takes a vector as it's first argument" form

/-- Jump back to the innermost point to recur to. -/
def recur : CompileM Instrs := do
  let args ← remaining (← rest form)
  if args.length > (← recurPoint).stores.length then fail "too many arguments to recur" form
  else
    let code := (← each compile args).flatten
    let p ← recurPoint
    return code ++ p.stores.reverse.flatten ++ [jump .jumpAbsolute p.label]

/-- Replace local names by forms. -/
def bindExpansions (keys : List Value) : List Value → CompileM (List Value)
  | [] => return keys
  | [_] => fail "let-macro takes a even number of bindings" form
  | key :: value :: others => do
    pushAlias key (.expansion value)
    bindExpansions (keys ++ [key]) others

/-- Code with local names that stand for forms. -/
def letMacro : CompileM Instrs := do
  if (← size form) < 3 then fail "alias-properties takes at least two args" form
  else
    let form ← rest form
    let keys ← bindExpansions form [] (← remaining (← seqOf (← head form)))
    let code ← body compile (← rest form)
    popAliases keys
    return code

structure Parameters where
  /-- The distinct parameters. -/
  keys : List Value := []
  names : List String := []
  hasRest : Bool := false
  restName : Option Value := none

def parametersFrom (form : Value) (p : Parameters) : List Value → CompileM Parameters
  | [] => return p
  | x :: xs => do
    if ← lift (Value.eq x (Value.sym "&")) then parametersFrom form { p with hasRest := true } xs
    else if p.hasRest && p.restName.isSome then
      fail "variable length argument must be the last in the function" form
    else
      let p := if p.hasRest then { p with restName := some x } else p
      match x with
      | .symbol ⟨none, name⟩ _ =>
        let keys := if p.keys.any (·.eqB x) then p.keys else p.keys ++ [x]
        parametersFrom form { p with keys := keys, names := p.names ++ [name] } xs
      | _ =>
        fail ("fn* arguments must be non namespaced symbols, got " ++ (← text form)
          ++ " instead") form

def parameters (form : Value) : CompileM Parameters := do
  parametersFrom form {} (← loopItems form)

/-- The code that turns a name of the namespace into its value. -/
def expandGlobal (ns name : String) : CompileM Instrs := do
  let m := (← inSession (SessionM.moduleNamed? ns)).getD .nil
  match ← inSession (SessionM.member? m name) with
  | none => fault .attribute
  | some v =>
    match v, ← inSession (SessionM.cell? v) with
    | .ref a, some (.var w) =>
      if ← lift w.dynamic.truthy then
        return [loadConst v, named .loadAttr "deref", callWith 0]
      else return [loadConst (← inSession (SessionM.deref a))]
    | _, _ => return [loadConst m, named .loadAttr name]

def expandGlobals : Instrs → CompileM Instrs
  | [] => return []
  | i :: is => do
    let here ← match i.op with
      | .global ns name => expandGlobal ns name
      | _ => pure [i]
    return here ++ (← expandGlobals is)

/-- Make local names of parameters. -/
def pushParameters (keys : List Value) : CompileM Unit :=
  keys.forM fun key => do
    match key with
    | .symbol s _ => pushAlias key (.argument s.name)
    | _ => fault .attribute

def nsName : CompileM String := do inSession (SessionM.moduleName (← scope).ns)

def restName (p : Parameters) : CompileM String :=
  match p.restName with
  | some (.symbol s _) => return s.name
  | _ => fault .attribute

variable (compile : CompileFn)

/-- A function with one list of parameters. A function that shares no variables is loaded at once,
which fails. -/
def function (name : Symbol) (form whole : Value) : CompileM Instrs := do
  let p ← parameters (← head form)
  pushParameters p.keys
  let line ← match ← inSession (metadata? whole) with
    | none => fault .attribute
    | some .nil => pure (.int 0)
    | some data => lift (data.subscript (Value.kw "line"))
  let line := match line with
    | .nil => .int 0
    | l => l
  let clean ← if p.hasRest then do
      let name ← restName p
      pure (Template.cleanRest (← newLabel "isclean") name)
    else pure []
  let label ← newLabel "recurLabel"
  pushRecur { label := label, stores := ← stores (p.names.map fun n => .symbol (.ofText n) .nil) }
  let inner ← body compile (← rest form)
  popRecur
  popAliases p.keys
  let free := (← closuresInUse).map fun (_, _, name) => Value.str name
  let code ← expandGlobals ([{ op := .lineMarker, arg := line }] ++ clean ++ [landing label]
    ++ inner ++ [bare .returnValue])
  let unit : CodeUnit Value :=
    { instrs := code
      freevars := free
      args := p.names.map Value.str
      varargs := p.hasRest
      varkwargs := false
      newlocals := true
      name := (Symbol.mk (some (← nsName)) name.name).text
      file := (← scope).file
      firstLine := 0
      docstring := none }
  if free.isEmpty then lift (Code.load unit) else return [loadConst (.code unit)]

/-- One of several lists of parameters with its code. -/
structure Overload where
  parameters : Parameters
  dispatch : Instrs
  code : Instrs

/-- Take one argument off the tuple of all arguments. -/
def takeArgument (p : Parameters) (i : Nat) (name : String) : CompileM Instrs := do
  if p.hasRest && i + 1 = p.names.length then
    let rest ← restName p
    let clean ← newLabel "isclean"
    return [named .loadFast "__argsv__", loadConst (.int i), bare .slice1, named .storeFast rest]
      ++ Template.cleanRest clean rest
  else
    return [named .loadFast "__argsv__", loadConst (.int i), bare .binarySubscr,
      named .storeFast name]

def overload (form : Value) : CompileM Overload := do
  let form ← seqOf form
  if (← size form) < 1 then fail "FN defs must have at least one arg" form
  else
    match ← head form with
    | .vector items i =>
      let inner ← rest form
      let p ← parameters (.vector items i)
      let finish ← newLabel "endLabel"
      let fixed : Int := Int.ofNat p.names.length - (if p.hasRest then 1 else 0)
      let takes ← (p.names.zipIdx).mapM fun (name, i) => takeArgument p i name
      let dispatch := [loadConst (.builtin "len"), named .loadFast "__argsv__", callWith 1,
        loadConst (.int fixed), named .compareOp (if p.hasRest then ">=" else "=="),
        jump .popJumpIfFalse finish] ++ takes.flatten
      pushParameters p.keys
      let label ← newLabel "recurLabel"
      let back ← stores (p.names.map fun n => .symbol (.ofText n) .nil)
      pushRecur { label := label, stores := back }
      let inner ← body compile inner
      popRecur
      popAliases p.keys
      return { parameters := p
               dispatch := dispatch
               code := [landing label] ++ inner ++ [bare .returnValue, landing finish] }
    | _ => fail "FN arg list must be a vector" form

/-- A function with several lists of parameters. Putting them in order fails. -/
def overloads (form : Value) : CompileM Instrs := do
  let _ ← (← remaining form).mapM (overload compile)
  fault .type

/-- Share all local names with the function to come. -/
def shareAll : CompileM (List Value) := do
  let keys := (← scope).aliases.map (·.1)
  keys.forM fun key => do
    let name ← match key with
      | .symbol s _ => pure s.name
      | _ => pure ""
    pushAlias key (← newClosure key name).2
  return keys

/-- Read a local name, which counts as a use of a shared variable. -/
def readAlias (key : Value) (a : Alias) : CompileM Instrs := do
  match a with
  | .expansion form => compile form
  | .closure .. =>
    markUsed key
    return Template.readAlias a
  | a => return Template.readAlias a

/-- Fill the cells of shared variables and load them. -/
def loadCells (own : Nat) : List (Nat × Value × String) → CompileM Instrs
  | [] => return []
  | (id, key, name) :: others => do
    let fill ← if id = own then pure []
      else match ← getAlias? key with
        | none => fault .attribute
        | some a => do pure ((← readAlias compile key a) ++ [named .storeDeref name])
    return fill ++ [named .loadClosure name] ++ (← loadCells own others)

/-- A function. It can refer to itself by its name: the cell of that name is filled once the
function is made. -/
def fnStar (form : Value) : CompileM Instrs := do
  let shared ← shareAll
  if (← size form) < 2 then fail "2 or more arguments to fn* required" form
  else
    let whole := form
    let form ← rest form
    let first ← head form
    let (name, pushed, form) ← match first with
      | .symbol s _ => do
        pushName s.name
        pure (s, true, ← rest form)
      | _ => do
        let auto := (← namesText true) ++ "_auto_"
        pure (Symbol.ofText auto, false, form)
    let key := Value.symbol name .nil
    let (own, selfAlias) ← newClosure key name.name
    pushAlias key selfAlias
    let first ← head form
    let code ← if first.isVectorLike then function compile name form whole
      else if (← size form) = 1 then
        function compile name (Value.listOf (← loopItems first)) whole
      else overloads compile form
    if pushed then popName
    let cells ← closuresInUse
    popAliases shared
    let code ← if cells.isEmpty then pure code
      else do
        let load ← loadCells compile own cells
        pure (load ++ [instr .buildTuple (.int cells.length)] ++ code
          ++ [instr .makeClosure (.int 0)])
    let code := if cells.any fun (id, _, _) => id == own then
        [loadConst .nil, named .storeDeref name.name] ++ code
          ++ [bare .dupTop, named .storeDeref name.name]
      else code
    popAlias key
    return code

end HostedLisp.Special
