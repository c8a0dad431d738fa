import HostedLisp.Session.Vars

/-!
# The state of the compiler

- `Alias`: what a local name stands for.
- `Scope`: the local names, the points to recur to, the names of the functions around.
- `CompileM`: compiling. A failure keeps the state.
- `CompileM.pushAlias`, `CompileM.popAlias`: opening and closing the scope of a name.
- `CompileM.fail`: the failure to compile a form.
-/

namespace HostedLisp

open Machine

abbrev Instrs := List (Instr Value)

/-- What a local name stands for. -/
inductive Alias where
  /-- A local variable of the same name. -/
  | argument (name : String)
  /-- A local variable of a name of its own. -/
  | renamed (name : String)
  /-- A variable shared with the function around; `used` as soon as it is read. -/
  | closure (id : Nat) (key : Value) (name : String) (used : Bool)
  /-- A form put in its place. -/
  | expansion (form : Value)
  deriving Inhabited

/-- A point that code can jump back to: its label, and the code that stores each variable. -/
structure RecurPoint where
  label : Label
  stores : List Instrs

/-- The name of a function around. It is marked once a name was made from it. -/
structure NameSlot where
  name : String
  marked : Bool := false

/-- The state of the compiler itself. -/
structure Scope where
  /-- The current namespace. -/
  ns : Value
  /-- The meanings of each local name, the innermost first. -/
  aliases : List (Value × List Alias) := []
  recurPoints : List RecurPoint := []
  /-- Whether there ever was a point to recur to. -/
  recurred : Bool := false
  names : List NameSlot := []
  /-- The line of the last line marker. -/
  lastLine : Value := .int (-1)
  file : String := "<unknown>"
  /-- The number of shared variables introduced so far. -/
  closures : Nat := 0

/-- The compiler and the session it works in. -/
structure CompileState where
  session : Session
  scope : Scope

abbrev CompileM := EStateM Error CompileState

abbrev CompileFn := Value → CompileM Instrs

namespace CompileM

/-- Something that changes nothing. -/
def lift {α : Type} (r : Except Error α) : CompileM α :=
  match r with
  | .ok a => return a
  | .error e => throw e

def inSession {α : Type} (x : SessionM α) : CompileM α := fun st =>
  match x.run st.session with
  | .ok a s => .ok a { st with session := s }
  | .error e s => .error e { st with session := s }

def scope : CompileM Scope := do return (← get).scope

def modifyScope (f : Scope → Scope) : CompileM Unit :=
  modify fun st => { st with scope := f st.scope }

/-- A fresh number for a generated name. -/
def nextId : CompileM Nat := inSession SessionM.nextId

def newLabel (name : String) : CompileM Label := inSession (SessionM.newLabel name)

def text (v : Value) : CompileM String := inSession (SessionM.text v)

/-! ## Local names -/

variable (key : Value)

/-- The meanings of a local name; a key that cannot be looked up is a failure. -/
def aliasesOf : CompileM (List Alias) := do
  let _ ← lift key.hash
  return (((← scope).aliases.find? fun (k, _) => k.eqB key).map (·.2)).getD []

/-- What a local name stands for. -/
def getAlias? : CompileM (Option Alias) := do return (← aliasesOf key).head?

/-- Give a local name a meaning on top of those it has. -/
def pushAlias (a : Alias) : CompileM Unit := do
  match ← aliasesOf key with
  | [] => modifyScope fun s => { s with aliases := s.aliases ++ [(key, [a])] }
  | _ => modifyScope fun s => { s with
      aliases := s.aliases.map fun (k, as) => if k.eqB key then (k, a :: as) else (k, as) }

/-- Take the innermost meaning off a local name. -/
def popAlias : CompileM Unit := do
  match ← aliasesOf key with
  | [] => fault .key
  | [_] => modifyScope fun s => { s with aliases := s.aliases.filter fun (k, _) => !k.eqB key }
  | _ :: rest => modifyScope fun s => { s with
      aliases := s.aliases.map fun (k, as) => if k.eqB key then (k, rest) else (k, as) }

/-- Take the innermost meanings off local names. -/
def popAliases (keys : List Value) : CompileM Unit := keys.forM popAlias

/-- Note that the innermost meaning of a local name was read. -/
def markUsed : CompileM Unit :=
  modifyScope fun s => { s with
    aliases := s.aliases.map fun (k, as) =>
      match as with
      | .closure id c name _ :: rest =>
        if k.eqB key then (k, .closure id c name true :: rest) else (k, as)
      | _ => (k, as) }

/-- A shared variable. -/
def newClosure (name : String) : CompileM (Nat × Alias) := do
  let id := (← scope).closures
  modifyScope fun s => { s with closures := id + 1 }
  return (id, .closure id key name false)

/-- The shared variables that are in use, in the order of the local names. -/
def closuresInUse : CompileM (List (Nat × Value × String)) := do
  return (← scope).aliases.filterMap fun (_, as) =>
    match as with
    | .closure id key name true :: _ => some (id, key, name)
    | _ => none

/-! ## Points to recur to -/

/-- Open a point to recur to. -/
def pushRecur (p : RecurPoint) : CompileM Unit :=
  modifyScope fun s => { s with recurPoints := p :: s.recurPoints, recurred := true }

/-- Close a point to recur to. -/
def popRecur : CompileM Unit := do
  match (← scope).recurPoints with
  | [] => fault .type
  | _ :: rest => modifyScope fun s => { s with recurPoints := rest }

def recurPoint : CompileM RecurPoint := do
  let s ← scope
  match s.recurPoints with
  | p :: _ => return p
  | [] => throw (.fault (if s.recurred then .attribute else .type))

/-! ## Names of functions -/

/-- Enter a named function. -/
def pushName (name : String) : CompileM Unit :=
  modifyScope fun s => { s with names := { name := name } :: s.names }

/-- Leave a named function. -/
def popName : CompileM Unit := do
  match (← scope).names with
  | [] => fault .attribute
  | _ :: rest => modifyScope fun s => { s with names := rest }

/-- A name made from the functions around. With `mark` the next one will differ from it. -/
def namesText (mark : Bool) : CompileM String := do
  match (← scope).names with
  | [] => return "fn_" ++ Nat.repr (← nextId)
  | top :: rest =>
    let joined := "_".intercalate ((top :: rest).reverse.map (·.name))
    let s ← if top.marked then do pure (joined ++ Nat.repr (← nextId)) else pure joined
    if mark then
      modifyScope fun s => { s with names := { top with marked := true } :: rest }
    return s

/-! ## Failures -/

/-- The metadata that a form answers with; `none` if it cannot be asked. -/
def metadata? (v : Value) : SessionM (Option Value) := do
  match v, ← SessionM.cell? v with
  | _, some (.var w) => return some w.info
  | _, some (.atom w) => return some w.info
  | .hashMap .., _ => return none
  | _, _ => return if v.takesInfo then some v.info else none

/-- A form cannot be compiled. The message tells its line; a form that lacks metadata fails
itself. -/
def fail {α : Type} (reason : String) (form : Value) : CompileM α := do
  let message := "Compiler exception " ++ reason
  match ← inSession (metadata? form) with
  | none => throw (.signal .compiler message)
  | some data =>
    let line ← lift (data.subscript (Value.kw "line"))
    if ← lift line.truthy then
      throw (.signal .compiler (message ++ " at " ++ (← text line)))
    else throw (.signal .compiler message)

/-- A form cannot be compiled, whatever its line. -/
def failPlain {α : Type} (reason : String) : CompileM α :=
  throw (.signal .compiler ("Compiler exception " ++ reason))

end CompileM

end HostedLisp
