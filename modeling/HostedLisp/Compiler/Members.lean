import HostedLisp.Compiler.Functions

/-!
# Literal operations, names and members

A form can name an operation of the machine. Operations with an argument would have it evaluated
first, which always fails.

- `CompileM.execute`: run code.
- `Special.operation`: a literal operation.
- `Special.methodAccess`, `Special.propertyAccess`, `Special.dot`: members of things.
- `Special.symbol`: what a symbol stands for.
-/

namespace HostedLisp

open Machine CompileM

/-! ## Literal operations -/

/-- Run code. It has to be loaded first, and that fails, after the code was printed; only the empty
code has a value. -/
def CompileM.execute (code : Instrs) (ns : Value) : CompileM Value := do
  if code.isEmpty then return .nil
  else
    let code := (← Special.expandGlobals code) ++ [bare .returnValue]
    let home ← inSession (SessionM.moduleName ns)
    let view ← inSession SessionM.viewer
    let unit : CodeUnit Value :=
      { instrs := code
        freevars := []
        args := []
        varargs := false
        varkwargs := false
        newlocals := false
        name := (Symbol.mk (some home) "<string>").text
        file := (← scope).file
        firstLine := 0
        docstring := none }
    code.forM fun i => do inSession (SessionM.printLine (← lift (Code.pairText view i)))
    lift (Code.load unit)

namespace Special

/-- A new compiler, at work in the core namespace. -/
def coreScope : CompileM Scope := do
  return { ns := ← inSession (SessionM.openNamespace "clojure.core") }

/-- Evaluate a form with a compiler of its own. -/
def evaluate (compile : CompileFn) (form : Value) : CompileM Value := do
  let outer ← scope
  let inner ← coreScope
  modifyScope fun _ => inner
  let r ← MonadExcept.tryCatch (do
      let v ← execute (← expandGlobals (← compile form)) outer.ns
      return Except.ok (ε := Error) v)
    fun e => return .error e
  modifyScope fun _ => outer
  lift r

/-- Names that belong to the machine but to none of its operations. -/
def machineNames : List String := [
  "Opcode", "CodeList", "Code", "Label", "SetLinenoType", "SetLineno", "getse", "isopcode",
  "globalize_opcodes", "printcodelist", "recompile", "recompile_all", "main", "findlabels", "types",
  "array", "operator", "itertools", "sys", "warnings", "StringIO", "opcode", "python_version",
  "cmp_op"]

/-- Names of tables of operations, which cannot be looked up. -/
def machineTables : List String := [
  "opmap", "opname", "opcodes", "hasarg", "hasconst", "hasname", "hasjrel", "hasjabs", "hasjump",
  "haslocal", "hascompare", "hasfree", "hascode", "hasflow", "POP_TOPS"]

def operationArgument (compile : CompileFn) (o : Opcode) (form : Value) : CompileM Value := do
  let arg ← head form
  let isPlain := match arg with
    | .int _ | .bool _ | .opcode _ | .str _ | .wide _ | .numeral _ => true
    | _ => false
  if !isPlain && o != .loadConst then
    fail ("first argument to " ++ o.name ++ " must be int, unicode, or str") form
  else evaluate compile arg

/-- A literal operation on the values of the forms that follow its name. -/
def operation (compile : CompileFn) (form : Value) (name : String) : CompileM Instrs := do
  match Opcode.ofName? name with
  | none =>
    if machineTables.contains name then fault .type
    else if machineNames.contains name then
      let _ ← rest form
      fault .value
    else fail ("bytecode " ++ name ++ " unknown") form
  | some o =>
    let args ← rest form
    let (arg, args) ← if o.operand == .none then pure (Value.nil, args)
      else do
        let arg ← operationArgument compile o args
        pure (arg, ← rest args)
    let (pop, push) ← lift (Code.effect o arg)
    let refused ← if args.isNil || pop = 0 then pure false
      else do pure (decide (pop ≠ (← size args) ∨ push > 1))
    if refused then fail ("literal bytecode " ++ name ++ " not supported") args
    else
      let code := (← each compile (← remaining args)).flatten ++ [instr o arg]
      return if push = 0 then code ++ [loadConst .nil] else code

/-! ## Names -/

/-- The module that a qualifier stands for in the current namespace; nil if there is none. -/
def moduleFor (qualifier : Symbol) : CompileM Value := do
  let short := match ← inSession (SessionM.cell? (← scope).ns) with
    | some (.namespace n) => (n.aliases.getD []).lookup qualifier
    | _ => none
  let name ← match short with
    | some m => inSession (SessionM.moduleName m)
    | none => pure qualifier.text
  return (← inSession (SessionM.moduleNamed? name)).getD .nil

/-- The reference to a member of a module; `none` if it has no such member. -/
def globalOf? (m : Value) (name : String) : CompileM (Option Instrs) := do
  match ← inSession (SessionM.member? m name) with
  | none => return none
  | some _ =>
    return some [{ op := .global (← inSession (SessionM.moduleName m)) name, arg := .nil }]

/-- What a symbol stands for that is no local name. -/
def access (s : Symbol) : CompileM Instrs := do
  let here ← nsName
  if s.ns = some "py" then fault .name
  else
    match s.ns with
    | none => resolveHere here
    | some q =>
      if q = here then resolveHere here
      else
        let m ← moduleFor (.ofText q)
        match ← globalOf? m s.name with
        | some code => return code
        | none => failPlain ((← text m) ++ " does not define " ++ s.name)
where
  /-- Look the name up in the current namespace. -/
  resolveHere (here : String) : CompileM Instrs := do
    match ← globalOf? (← scope).ns s.name with
    | some code => return code
    | none =>
      failPlain ("could not resolve '" ++ s.text ++ "', '" ++ s.name ++ "' not found in " ++ here
        ++ " reference " ++ (← namesText false))

variable (compile : CompileFn)

/-- What a symbol stands for: a local name, or else a global one. -/
def symbol (v : Value) (s : Symbol) : CompileM Instrs := do
  match ← getAlias? v with
  | some a => readAlias compile v a
  | none => access s

/-- What a local name stands for. -/
def localName (v : Value) : CompileM Instrs := do
  match ← getAlias? v with
  | some a => readAlias compile v a
  | none => failPlain ("Unknown Local " ++ (← text v))

/-! ## Members -/

/-- A member of something that is no local name. A symbol stands for a namespace; its failures
cannot be worded, so that they are failures of another kind. -/
def memberOf (target : Value) (name : String) : CompileM Instrs := do
  match target with
  | .nil => compile (Value.sym name)
  | .str q => compile (Value.qsym q name)
  | .symbol s _ =>
    match ← globalOf? (← moduleFor s) name with
    | some code => return code
    | none => fault .type
  | _ => fault .type

def methodAccess (form : Value) (name : String) : CompileM Instrs := do
  let attr := String.ofList (name.toList.drop 1)
  let n ← size form
  if n < 2 then fail "Method access must have at least one argument" form
  else
    let target ← compile (← item 1 form)
    let args ← remaining (← rest (← stepOn form))
    return target ++ [named .loadAttr attr] ++ (← each compile args).flatten ++ [callWith (n - 2)]

def propertyAccess (form : Value) (name : String) : CompileM Instrs := do
  let attr := String.ofList (name.toList.drop 2)
  if (← size form) ≠ 2 then fail "Property access must have at only one argument" form
  else return (← compile (← item 1 form)) ++ [named .loadAttr attr]

/-- Call a member of a thing. -/
def dot (form : Value) : CompileM Instrs := do
  if (← size form) ≠ 3 then fail ". form must have two arguments" form
  else
    let target ← item 1 form
    let member ← item 2 form
    let (name?, args) ← match member with
      | .symbol s _ => pure (some s.name, [])
      | member =>
        if member.isSeqCell || member.isEmptyList then
          match ← head member with
          | .symbol s _ => do
            let args ← if (← size member) > 1 then do
                each compile (← remaining (← rest member))
              else pure []
            pure (some s.name, args)
          | _ => fail "Member name must be symbol" form
        else pure (none, [])
    match ← getAlias? target, name? with
    | some a, name? =>
      let code ← readAlias compile target a
      match name? with
      | some name =>
        return code ++ [named .loadAttr name] ++ args.flatten ++ [callWith args.length]
      | none => fault .unboundLocal
    | none, some name =>
      return (← memberOf compile target name) ++ args.flatten ++ [callWith args.length]
    | none, none => fault .unboundLocal

end Special

end HostedLisp
