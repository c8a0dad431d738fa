import HostedLisp.Session.Apply
import HostedLisp.Session.Namespaces

/-!
# Vars and atoms

An atom changes by itself. Every new state is checked first and its watches are told afterwards.

- `SessionM.validate`: check a value before it is put into a reference.
- `SessionM.bindRoot`, `SessionM.setBound`: change a var for all threads or for this one.
- `SessionM.pushBindings`, `SessionM.popBindings`: open and leave a frame.
- `SessionM.atomReset`, `atomSwap`, `atomCompareAndSet`: changing an atom.
- `SessionM.checkAs`, `SessionM.setValidator`: validators.
- `SessionM.bindingsOf`: the bindings that a frame is to have.
-/

namespace HostedLisp.SessionM

def validate [Calls] (validator v : Value) : SessionM Unit := do
  match validator with
  | .nil => return ()
  | f =>
    if (← Calls.call f [v]).holds then return ()
    else throw (.signal .illegalState "Invalid reference state")

variable (a : Address)

def validateVar (v : Value) : SessionM Unit := do
  validate ((← varAt a).validator.getD .nil) v

/-- Change the root of a var. -/
def bindRoot (v : Value) : SessionM Unit := do
  validateVar a v
  updateVar a fun w => { w with root := v }

/-- Change what this thread has bound a var to. -/
def setBound (v : Value) : SessionM Unit := do
  validateVar a v
  match ← boxOf? a with
  | none =>
    throw (.signal .illegalState
      ("Can't change/establish root binding of: " ++ (← text (← varAt a).sym) ++ " with set"))
  | some b =>
    match ← fetch b with
    | .threadBox t _ =>
      if t = (← get).thread then store b (.threadBox t v)
      else throw (.signal .illegalState
        ("Can't set!: " ++ (← text (← varAt a).sym) ++ " from non-binding thread"))
    | _ => fault .attribute

/-- Change the root of a var by a function. -/
def alterRoot (f : Value) (args : List Value) : SessionM Unit := do
  let r ← apply f ((← varAt a).root :: args)
  updateVar a fun w => { w with root := r }

def hasRoot : SessionM Bool := do
  match ← cell? (← varAt a).root with
  | some (.unbound _) => return false
  | _ => return true

/-- Attach metadata to a var. A static var is not dynamic. -/
def setInfo (data : Value) : SessionM Unit := do
  updateVar a fun w => { w with info := data }
  if ← lift data.truthy then
    if ← lift (do (← data.subscript (Value.kw "static")).truthy) then
      updateVar a fun w => { w with dynamic := .bool false }

def setMacro : SessionM Unit := do
  match (← varAt a).info with
  | .hashMap m i =>
    let m ← lift (Value.tableInsert m (Value.kw "macro") (.bool true))
    updateVar a fun w => { w with info := .hashMap m i }
  | _ => fault .attribute

/-- Open a frame that binds vars. A var that must not be bound leaves everything as it was, but for
the mark on the vars before it. -/
def pushBindings (pairs : List (Value × Value)) : SessionM Unit := do
  let below ← currentFrame
  let start := (← frameAt below).bindings
  let bindings ← pairs.foldlM (fun bound (key, v) => do
    match key with
    | .ref a =>
      let var ← varAt a
      if ← lift var.dynamic.truthy then
        validateVar a v
        updateVar a fun w => { w with threadBound := true }
        let b ← alloc (.threadBox (← get).thread v)
        return (a, b) :: bound.filter fun (k, _) => k ≠ a
      else
        throw (.signal .illegalState ("Can't dynamically bind non-dynamic var: "
          ++ (← text var.ns) ++ "/" ++ (← text var.sym)))
    | _ => fault .attribute) start
  setFrame (← alloc (.frame { bindings := bindings, prev := some below }))

/-- Leave a frame. -/
def popBindings : SessionM Unit := do
  match (← frameAt (← currentFrame)).prev with
  | some a => setFrame a
  | none => throw (.signal .illegalState "Pop without matching push")

/-- How a var is to be set up. -/
structure Definition where
  name : String
  value : Option Value := none
  dynamic : Bool := false
  info : Option Value := none
  isMacro : Bool := false

def define (ns : Value) (d : Definition) : SessionM Unit := do
  match ← intern ns (.str d.name) with
  | .ref a =>
    match d.value with
    | some v => bindRoot a v
    | none => pure ()
    updateVar a fun w => { w with dynamic := .bool d.dynamic }
    match d.info with
    | some i => setInfo a i
    | none => pure ()
    if d.isMacro then setMacro a
  | _ => fault .attribute

/-! ## Atoms and simple holders of a value -/

def atomAt : Address → SessionM Atom := contentAt fun
  | .atom x => some x
  | _ => none

variable [Calls] (a : Address)

def updateAtom (f : Atom → Atom) : SessionM Unit := do
  store a (.atom (f (← atomAt a)))

/-- Tell the watches of a change. -/
def notify : SessionM Unit := do
  lift (Value.tellWatches (← atomAt a).watches)

/-- Put a checked state into an atom and tell its watches. -/
def atomPut (v : Value) : SessionM Unit := do
  validate (← atomAt a).validator v
  updateAtom a fun x => { x with state := v }
  notify a

def atomReset (v : Value) : SessionM Value := do
  atomPut a v
  return v

/-- The arguments that a swap passes on after the state. The fourth stands for several. -/
def swapArgs (args : List Value) : Except Error (Value × List Value) :=
  match args with
  | [f] => return (f, [])
  | [f, x] => return (f, [x])
  | [f, x, y] => return (f, [x, y])
  | [f, x, y, rest] => do return (f, [x, y] ++ (← rest.iterate))
  | _ => throw (.signal .arity ("Atom.swap() expected 1 to 4 arguments, got: ("
      ++ Nat.repr args.length ++ ")"))

def atomState : SessionM Value := do return (← atomAt a).state

/-- The state that a function makes of the one that was read, once it is checked. -/
def nextState (f : Value) (rest : List Value) (seen : Value) : SessionM Value := do
  let v ← Calls.call f (seen :: rest)
  validate (← atomAt a).validator v
  return v

/-- Put a state in the place of the one that was read. The one that is there by now is not compared
with it, so this never has to be tried again. -/
def replaceState (_seen v : Value) : SessionM Unit := updateAtom a fun x => { x with state := v }

/-- Change an atom by a function of its state. -/
def atomSwap (args : List Value) : SessionM Value := do
  let (f, rest) ← lift (swapArgs args)
  let seen ← atomState a
  let v ← nextState a f rest seen
  replaceState a seen v
  notify a
  return v

/-- Give an atom a new state. The state that is expected is not compared. -/
def atomCompareAndSet (_expected v : Value) : SessionM Value := do
  atomPut a v
  return .bool true

/-- Check a value with the own validator, or with one that is given. -/
def checkAs (own : Option Value) (args : List Value) : SessionM Unit := do
  match args with
  | [v] =>
    match own with
    | some f => validate f v
    | none => fault .attribute
  | [f, v] => validate f v
  | _ => throw .badArity

/-- The bindings that a frame is to have, from a dictionary or map. -/
def bindingsOf (m : Value) : SessionM (List (Value × Value)) := do
  let keys ← lift m.iterate
  keys.mapM fun k => do return (k, ← lift (m.subscript k))

end HostedLisp.SessionM
