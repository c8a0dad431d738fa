import HostedLisp.Compiler.Compile

/-!
# Parts of the compiler on their own

- `Part`: a part of the compiler with the texts that it is to work on.
- `Part.run`: what the part makes of them.
-/

namespace HostedLisp

/-- A part of the compiler with what it is to work on. -/
structure Part where
  /-- The name of the part. -/
  kind : String
  body : String := "nil"
  /-- The forms that are evaluated last. -/
  fin : String := "nil"
  name : String := ""
  /-- For each handler the class, the local name and the body. -/
  handlers : List (List String) := []
  value : Value := .nil
  /-- Mappings of properties that are pushed, or else popped. -/
  mappings : List (Bool × Value) := []
  /-- The names of arguments that are in scope. -/
  arguments : List String := []
  /-- Read stepping lists. -/
  stepping : Bool := false
  /-- Expand the references to global names. -/
  expand : Bool := false

/-- What a part of the compiler makes. -/
inductive Part.Answer where
  | code (code : Instrs)
  | values (fields : List (String × Value))
  | overload (o : Special.Overload)
  | steps (results : List (Except Error Value))

namespace Part

def read (p : Part) (text : String) : CompileM Value := do
  let st ← get
  let current := st.session.currentNamespace st.scope.ns
  let v ← CompileM.inSession (SessionM.readString current text)
  if p.stepping then CompileM.lift v.stepping else return v

def compile (p : Part) (text : String) : CompileM Instrs := do
  CompileM.compile (← p.read text)

def readHandlers (p : Part) : CompileM (List Special.Handler) :=
  p.handlers.mapM fun h => do
    match h with
    | [cls, binder, body] =>
      let cls ← p.read cls
      let binder ← p.read binder
      return { cls := cls, binder := binder, body := ← p.read body }
    | _ => fault .value

/-- Push and pop mappings of properties, one after the other. -/
def stepMappings (known : PropertyAliases) :
    List (Bool × Value) → CompileM (List (Except Error Value))
  | [] => return []
  | (isPush, m) :: rest => do
    match ← CompileM.attempt (if isPush then known.push m else known.pop m) with
    | .ok known => return .ok known.toValue :: (← stepMappings known rest)
    | .error e => return .error e :: (← stepMappings known rest)

def work (p : Part) : CompileM Answer := do
  match p.kind with
  | "tryFinally" =>
    let code ← p.compile p.body
    return .code (← Special.tryFinally code (← p.compile p.fin))
  | "tryCatch" =>
    let code ← p.compile p.body
    return .code (← Special.tryCatch CompileM.compile code (← p.readHandlers))
  | "tryCatchFinally" =>
    let code ← p.compile p.body
    let fin ← p.compile p.fin
    return .code (← Special.tryCatchFinally CompileM.compile code (← p.readHandlers) fin)
  | "cleanRest" => return .code (Template.cleanRest (← CompileM.newLabel "isclean") p.name)
  | "standardImports" => return .code CompileM.standardImports
  | "selfReference" =>
    let v ← CompileM.inSession (SessionM.intern (← CompileM.scope).ns (.str p.name))
    return .code (CompileM.selfReference v)
  | "implicitDo" =>
    let form ← CompileM.lift (← p.read p.body).seqMethod
    return .code (← Special.body CompileM.compile form)
  | "multiFn" => return .overload (← Special.overload CompileM.compile (← p.read p.body))
  | "builtin" => return .code (← Special.hostFunction (← p.read p.body))
  | "alias" =>
    return .code (← Special.localName CompileM.compile (.symbol (.ofText p.name) .nil))
  | "value" => return .code (← CompileM.compile p.value)
  | "execute" => return .values [("result", ← CompileM.executeValue p.value)]
  | "executeModule" =>
    -- code of a whole module cannot be assembled
    let _ ← p.compile p.body
    fault .type
  | "propertyAlias" => return .steps (← stepMappings [] p.mappings)
  | "macroexpand1" =>
    let form ← p.read p.body
    match ← CompileM.expandMacro? form with
    | some r => return .values [("form", r), ("expanded", .bool true)]
    | none => return .values [("form", form), ("expanded", .bool false)]
  | _ => fault .key

/-- Do what the part does with its arguments in scope; the local names that are left over. -/
def run (p : Part) : CompileM (Answer × List Value) := do
  for a in p.arguments do
    CompileM.pushAlias (.symbol (.ofText a) .nil) (.argument a)
  let r ← match ← p.work with
    | .code code =>
      if p.expand then do pure (Answer.code (← Special.expandGlobals code)) else pure (.code code)
    | r => pure r
  return (r, (← CompileM.scope).aliases.map (·.1))

end Part

end HostedLisp
