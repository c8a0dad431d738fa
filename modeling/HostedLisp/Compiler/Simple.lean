import HostedLisp.Compiler.Templates

/-!
# Simple special forms and guarded code

Special forms that introduce no local names.

- `Special.inNs`, `Special.define`: namespaces and vars.
- `Special.machineIf`, `Special.ifStar`: conditionals.
- `Special.kwApply`, `Special.applyTo`, `Special.vector`, `Special.map`: calls.
- `Special.tryFinally`, `Special.tryCatch`, `Special.tryCatchFinally`: the code.
- `Special.tryForm`: the form.
-/

namespace HostedLisp.Special

open Machine CompileM

variable (compile : CompileFn) (form : Value)

/-! ## Namespaces and definitions -/

/-- The compiler itself as a value. -/
def itself : Value := .thing "clojure.lang.compiler" "Compiler"

/-- Switch to a namespace. -/
def inNs : CompileM Instrs := do
  let args ← rest form
  if (← size args) ≠ 1 then fail "in-ns only supports one item" args
  else
    let ns ← head args
    let target ← match ns with
      | .symbol .. => pure [loadConst ns]
      | ns => compile ns
    return [loadConst itself, named .loadAttr "setNS"] ++ target ++ [callWith 1,
      loadConst itself, named .loadAttr "_NS_", named .loadAttr "set", loadConst itself,
      named .loadAttr "ns", callWith 1, loadConst itself, named .loadAttr "ns"]

/-- A documented function: the first instruction has to be one that a text can be attached to. -/
def attachDoc (code : Instrs) : CompileM Unit :=
  match code with
  | [] => fault .index
  | i :: _ =>
    match i.op with
    | .global .. => fault .type
    | _ => return ()

/-- The name that a symbol or keyword gives of itself. -/
def ownName (v : Value) : CompileM String :=
  match v with
  | .symbol s _ => return s.name
  | .keyword s => return s.name
  | _ => fault .attribute

def define : CompileM Instrs := do
  let n ← size form
  if n ≠ 2 ∧ n ≠ 3 then fail "Only 2 or 3 arguments allowed to def" form
  else
    let name ← item 1 form
    let value ← if n = 3 then item 2 form else pure .nil
    match name with
    | .symbol s info =>
      pushName s.name
      match ← inSession (SessionM.intern (← scope).ns name) with
      | .ref a =>
        inSession (SessionM.updateVar a fun v => { v with dynamic := .bool true })
        let code ← if n = 3 then do
            let code ← compile value
            if value.isSeqCell || value.isEmptyList then
              if (← ownName (← head value)) = "fn" && !info.isNil then attachDoc code
            pure ([loadConst (.ref a), named .loadAttr "bindRoot"] ++ code ++ [callWith 1])
          else pure [loadConst (.ref a)]
        inSession (SessionM.setInfo a info)
        popName
        return code
      | _ => fault .attribute
    | _ => fault .attribute

/-! ## Conditionals and small forms -/

/-- The code of the parts of a conditional. -/
def conditionParts : CompileM (Instrs × Instrs × Instrs) := do
  let n ← size form
  if n ≠ 3 ∧ n ≠ 4 then fail "if takes 2 or 3 args" form
  else
    let condition ← compile (← item 1 form)
    let yes ← compile (← item 2 form)
    let no ← if n = 3 then pure [loadConst .nil] else do compile (← item 3 form)
    return (condition, yes, no)

/-- A conditional of the machine. -/
def machineIf : CompileM Instrs := do
  let (condition, yes, no) ← conditionParts compile form
  let otherwise ← newLabel "IfElse"
  let finish ← newLabel "IfEnd"
  return condition ++ Template.branch otherwise finish yes no

def ifStar : CompileM Instrs := do
  let (condition, yes, no) ← conditionParts compile form
  let otherwise ← newLabel "IfElse"
  let finish ← newLabel "IfEnd"
  let slot := "p0__" ++ Nat.repr (← nextId) ++ "#"
  return Template.test slot otherwise finish condition yes no

def quote : CompileM Instrs := do
  if (← size form) ≠ 2 then fail "Quote must only have one argument" form
  else return [loadConst (← item 1 form)]

def isSame : CompileM Instrs := do
  if (← size form) ≠ 3 then fail "is? requires 2 arguments" form
  else
    let a ← item 1 form
    let b ← item 2 form
    return (← compile a) ++ (← compile b) ++ [named .compareOp "is"]

def throwForm : CompileM Instrs := do
  if (← size form) ≠ 2 then fail "throw requires two arguments" form
  else return (← compile (← item 1 form)) ++ [instr .raiseVarargs (.int 1)]

/-- A function of the host. Looking it up fails. -/
def hostFunction : CompileM Instrs := do
  if (← size form) ≠ 2 then fail "throw requires two arguments" form
  else
    let _ ← text (← item 1 form)
    fault .name

/-! ## Calls -/

/-- Call with a map of keyword arguments. -/
def kwApply : CompileM Instrs := do
  if (← size form) < 3 then fail "at least two arguments required to kwapply" form
  else
    let form ← rest form
    let fn ← head form
    let form ← rest form
    let kws ← head form
    let args ← remaining (← rest form)
    let code := (← each compile (fn :: args)).flatten ++ (← compile kws)
    return code ++ [named .loadAttr "toDict", callWith 0, instr .callFunctionKw (.int args.length)]

def applyTo : CompileM Instrs := do
  let code := (← each compile (← remaining (← rest form))).flatten
  return code ++ [loadConst (.builtin "seqToTuple"), bare .rotTwo, callWith 1,
    instr .callFunctionVar (.int 0)]

def vector : CompileM Instrs := do
  let fn ← compile (Value.qsym "clojure.lang.rt" "vector")
  let items ← loopItems form
  return fn ++ (← each compile items).flatten ++ [callWith items.length]

def map : CompileM Instrs := do
  let entries ← remaining (← lift form.seqMethod)
  let fn ← compile (Value.qsym "clojure.lang.rt" "map")
  let parts ← entries.mapM fun e => do
    let (k, v) ← lift (Value.entryOf e)
    return (← compile k) ++ (← compile v)
  return fn ++ parts.flatten
    ++ [{ op := .code .callFunction, arg := .int (2 * entries.length), pairing := .list }]

/-! ## Guarded code -/

/-- A handler of guarded code: the class of failures, the variable, the code. -/
structure Handler where
  cls : Value
  binder : Value
  body : Value

/-- The slot for the result of guarded code. -/
def resultSlot : CompileM String := do return "__ret_val_" ++ Nat.repr (← nextId)

def tryFinally (code fin : Instrs) : CompileM Instrs := do
  let final ← newLabel "TryFinally"
  return Template.tryFinally final (← resultSlot) code fin

variable (compile : CompileFn) (form : Value)

/-- The code of handlers, each of which goes on to the next one. -/
def handlers (slot : String) (first finish unhandled : Label) :
    (isFirst : Bool) → List (Handler × Label) → CompileM Instrs
  | _, [] => return []
  | isFirst, (h, here) :: others => do
    match h.binder with
    | .symbol s _ =>
      pushAlias h.binder (.argument s.name)
      let next := (others.head?.map (·.2)).getD unhandled
      let cls ← compile h.cls
      let code ← compile h.body
      popAlias h.binder
      return Template.handler here next finish (if isFirst then some first else none) s.name slot
        cls code ++ (← handlers slot first finish unhandled false others)
    | v =>
      pushAlias v (.argument "")
      let _ ← compile h.cls
      fault .attribute

def handlerLabels (hs : List Handler) : CompileM (List Label) :=
  hs.mapM fun h => do newLabel ("TryCatch_" ++ (← text h.cls))

def tryCatch (code : Instrs) (hs : List Handler) : CompileM Instrs := do
  if hs.isEmpty then fault .assertion
  else
    let labels ← handlerLabels hs
    let finish ← newLabel "TryCatchEnd"
    let unhandled ← newLabel "TryCatchEndFinally"
    let first ← newLabel "TryFirstExcept"
    let slot ← resultSlot
    let code' ← handlers compile slot first finish unhandled true (hs.zip labels)
    return Template.tryCatch first finish unhandled slot code code'

def tryCatchFinally (code : Instrs) (hs : List Handler) (fin : Instrs) :
    CompileM Instrs := do
  if hs.isEmpty then fault .assertion
  else
    let labels ← handlerLabels hs
    let final ← newLabel "TryCatchFinally"
    let unhandled ← newLabel "TryCatchFinally2"
    let first ← newLabel "TryFirstExcept"
    let normal ← newLabel "NoExceptionLabel"
    let slot ← resultSlot
    let code' ← handlers compile slot first normal unhandled true (hs.zip labels)
    return Template.tryCatchFinally final first normal unhandled slot code code' fin

structure Clauses where
  code : Instrs
  handlers : List Handler := []
  otherwise : Value := .nil
  final : Value := .nil

/-- The first item of a clause, if it has items. -/
def clauseName (v : Value) : CompileM Value :=
  match v with
  | .list .. | .emptyList _ | .cons .. | .indexSeq .. | .keySeq .. | .valSeq .. | .trieSeq ..
  | .treeSeq .. | .arraySeq .. => do
    match v.first with
    | .ok x => return x
    | .error (.fault .attribute) => return .nil
    | .error e => throw e
  | _ => return .nil

def handlerClause (clause : Value) (name : String) (known : List Handler) :
    CompileM Handler := do
  if (← size clause) ≠ 4 then fail ("try " ++ name ++ " blocks must be 4 items long") form
  else
    let cls ← item 1 clause
    match cls with
    | .symbol .. =>
      if known.any fun h => h.cls.eqB cls then
        fail "try cannot catch duplicate exceptions" form
      else
        let binder ← item 2 clause
        match binder with
        | .symbol .. => return { cls := cls, binder := binder, body := ← item 3 clause }
        | _ => fail ("variable name for " ++ name ++ " block must be a symbol") form
    | _ => fail ("exception passed to " ++ name ++ " block must be a symbol") form

/-- Sort the clauses of guarded code; what is no clause belongs to the code itself. -/
def clauses (c : Clauses) : List Value → CompileM Clauses
  | [] => return c
  | clause :: others => do
    match ← clauseName clause with
    | .symbol ⟨none, "catch"⟩ _ =>
      let h ← handlerClause form clause "catch" c.handlers
      clauses { c with handlers := c.handlers ++ [h] } others
    | .symbol ⟨none, "except"⟩ _ =>
      let h ← handlerClause form clause "except" c.handlers
      clauses { c with handlers := c.handlers ++ [h] } others
    | .symbol ⟨none, "else"⟩ _ =>
      if (← size clause) ≠ 2 then fail "try else blocks must be 2 items" form
      else if ← lift c.otherwise.truthy then fail "try cannot have multiple els blocks" form
      else clauses { c with otherwise := ← item 1 clause } others
    | .symbol ⟨none, "finally"⟩ _ =>
      if (← size clause) ≠ 2 then fail "try finally blocks must be 2 items" form
      else if ← lift c.final.truthy then fail "try cannot have multiple finally blocks" form
      else clauses { c with final := ← item 1 clause } others
    | _ =>
      let code ← compile clause
      clauses { c with code := c.code ++ [bare .popTop] ++ code } others

/-- Guarded code. Of the combinations of clauses only some can be compiled. -/
def tryForm : CompileM Instrs := do
  match ← rest form with
  | .nil => return [loadConst .nil]
  | form =>
    let code ← compile (← head form)
    match ← rest form with
    | .nil => return code
    | form =>
      let c ← clauses compile form { code := code } (← remaining form)
      let hasFinal ← lift c.final.truthy
      let hasElse ← lift c.otherwise.truthy
      match hasFinal, c.handlers.isEmpty, hasElse with
      | true, true, false => do tryFinally c.code (← compile c.final)
      | false, false, false => tryCatch compile c.code c.handlers
      | false, true, true => fail "try does not accept else statements on their own" form
      | true, false, false => do tryCatchFinally compile c.code c.handlers (← compile c.final)
      | false, true, false => return c.code
      | _, _, _ => fault .type

end HostedLisp.Special
