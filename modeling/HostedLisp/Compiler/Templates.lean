import HostedLisp.Compiler.Scope

/-!
# Code templates and the parts of forms

The shapes of compiled code, given the code of the parts.

Special forms are lists. Most parts of one are reached by the method `next` of stepping lists, which
plain lists lack.

- `Template.load`, `Template.call`: loading a constant, calling.
- `Template.branch`, `Template.test`: conditionals.
- `Template.tryFinally`, `Template.catchClause`: guarded code.
- `Special.rest`, `Special.head`, `Special.item`: the parts of a form.
- `Special.remaining`, `Special.loopItems`: all items.
- `Special.body`: forms in sequence.
-/

namespace HostedLisp

open Machine CompileM

/-- An operation with its argument. -/
def instr (o : Opcode) (arg : Value) : Instr Value := { op := .code o, arg := arg }

/-- An operation without an argument. -/
def bare (o : Opcode) : Instr Value := { op := .code o, arg := .nil }

def jump (o : Opcode) (l : Label) : Instr Value := { op := .code o, arg := .label l }

/-- The place of a label. -/
def landing (l : Label) : Instr Value := { op := .label l, arg := .nil }

def loadConst (v : Value) : Instr Value := instr .loadConst v

def callWith (n : Int) : Instr Value := instr .callFunction (.int n)

/-- A name as an argument. -/
def named (o : Opcode) (name : String) : Instr Value := instr o (.str name)

namespace Template

/-- Code that depends on whether the value on the stack is true. -/
def branch (otherwise finish : Label) (yes no : Instrs) : Instrs :=
  [jump .popJumpIfFalse otherwise] ++ yes ++ [jump .jumpAbsolute finish, landing otherwise]
    ++ no ++ [landing finish]

/-- Code that depends on whether a value is neither nil nor false. The value is kept in a local
variable. -/
def test (slot : String) (otherwise finish : Label) (condition yes no : Instrs) : Instrs :=
  condition ++ [named .storeFast slot, named .loadFast slot, loadConst .nil,
    named .compareOp "is not", jump .popJumpIfFalse otherwise, named .loadFast slot,
    loadConst (.bool false), named .compareOp "is not"]
    ++ branch otherwise finish yes no

/-- An empty tuple of rest arguments becomes nil. -/
def cleanRest (clean : Label) (name : String) : Instrs :=
  [named .loadGlobal "len", named .loadFast name, callWith 1, loadConst (.int 0),
    named .compareOp "==", jump .popJumpIfFalse clean, loadConst .nil, named .storeFast name,
    landing clean]

/-- Code with a final part that always runs. -/
def tryFinally (final : Label) (slot : String) (body fin : Instrs) : Instrs :=
  [jump .setupFinally final] ++ body ++ [named .storeFast slot, bare .popBlock, loadConst .nil,
    landing final] ++ fin ++ [bare .popTop, bare .endFinally, named .loadFast slot]

/-- A handler: compare the failure with a class, or go on to the next handler. -/
def handler (here next finish : Label) (first : Option Label) (binder slot : String)
    (cls body : Instrs) : Instrs :=
  [landing here] ++ (first.map landing).toList ++ [bare .dupTop] ++ cls
    ++ [named .compareOp "exception match", jump .popJumpIfFalse next, bare .popTop,
      named .storeFast binder, bare .popTop]
    ++ body ++ [named .storeFast slot, jump .jumpForward finish]

def tryCatch (first finish unhandled : Label) (slot : String) (body handlers : Instrs) : Instrs :=
  [jump .setupExcept first] ++ body ++ [named .storeFast slot, bare .popBlock,
    jump .jumpForward finish] ++ handlers
    ++ [landing unhandled, bare .endFinally, landing finish, named .loadFast slot]

def tryCatchFinally (final first normal unhandled : Label) (slot : String)
    (body handlers fin : Instrs) : Instrs :=
  [jump .setupFinally final, jump .setupExcept first] ++ body
    ++ [named .storeFast slot, bare .popBlock, jump .jumpForward normal] ++ handlers
    ++ [landing unhandled, bare .endFinally, landing normal, bare .popBlock, loadConst .nil,
      landing final] ++ fin ++ [bare .popTop, bare .endFinally, named .loadFast slot]

def readAlias : Alias → Instrs
  | .argument name | .renamed name => [named .loadFast name]
  | .closure _ _ name _ => [named .loadDeref name]
  | .expansion _ => []

def storeAlias : Alias → Except Error Instrs
  | .argument name | .renamed name => return [named .storeFast name]
  | .closure _ _ name _ => return [named .storeDeref name]
  | .expansion _ => throw (.abstractIn "LocalMacro")

/-- Several values in sequence; only the last one stays. -/
def sequence (parts : List Instrs) : Instrs :=
  match (parts.intersperse [bare .popTop]).flatten with
  | [] => [loadConst .nil]
  | code => code

end Template

namespace Special

/-- The rest of a form; the last form of all has none. -/
def rest (form : Value) : CompileM Value :=
  match form with
  | .nil => fault .type
  | form => lift form.next

/-- The first item of what is left of a form. -/
def head (form : Value) : CompileM Value := lift form.first

/-- The rest of a form by its own method, which only stepping lists have. -/
def stepOn (form : Value) : CompileM Value :=
  match form with
  | .list .stepping .. => lift form.next
  | _ => fault .attribute

/-- The item of a form at a position, reached by stepping. -/
def item : (position : Nat) → Value → CompileM Value
  | 0, form => head form
  | n + 1, form => do item n (← stepOn form)

def size (form : Value) : CompileM Int := lift form.len

/-- The items of what is left of a form. -/
def remaining (form : Value) : CompileM (List Value) := do
  return (← lift (Value.walk form)).toList

/-- The items that a loop over a value goes through. -/
def loopItems (v : Value) : CompileM (List Value) :=
  match v with
  | .nil | .emptyList _ | .int _ | .float _ | .nan _ | .bool _ | .ratio _ | .symbol .. | .keyword _
  | .regex _ | .primitive _ | .builtin _ | .type .. | .module _ | .opcode _ | .ref _ => fault .type
  | .entry .. => throw (.abstractIn "MapEntry")
  | .str s | .numeral s => return s.toList.map Value.char
  | .wide codes => return codes.map fun c => .ofCodes [c]
  | .tuple xs | .array xs => return xs
  | .dict kvs => return kvs.map (·.1)
  | .hashMap m _ => return (Value.tableEntries m).map (·.1)
  | v => lift v.items

def seqOf (v : Value) : CompileM Value := lift v.seq

/-- The code of several forms, one after the other. -/
def each (compile : CompileFn) (forms : List Value) : CompileM (List Instrs) := forms.mapM compile

/-- Forms in sequence. -/
def body (compile : CompileFn) (form : Value) : CompileM Instrs := do
  return Template.sequence (← each compile (← remaining form))

end Special

end HostedLisp
