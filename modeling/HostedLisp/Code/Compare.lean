import HostedLisp.Code.StackSize

/-!
# Comparing code

Two pieces of code are alike if they differ in the choice of labels only.

- `Code.alike`: the comparison of code units.
-/

namespace HostedLisp.Code

open Machine

/-- What the labels of the first piece stand for in the second. -/
abbrev Renaming := List (Value × Value)

/-- A key of a renaming must be hashable; of a label the name counts. -/
def renamed? (r : Renaming) (key : Value) : Except Error (Option Value) := do
  let _ ← key.hash
  return (r.find? fun (k, _) => k.eqB key).map (·.2)

def opValue : Op → Value
  | .code o => .opcode o
  | .lineMarker => .lineMarker
  | .label l => .label l
  | .global ns name => .tuple [.str ns, .str name]

/-- Extend a renaming, or check it: what is renamed twice must be renamed to the same. -/
def rename (r : Renaming) (key target : Value) : Except Error (Option Renaming) := do
  match ← renamed? r key with
  | some old => return if old.same target then some r else none
  | none => return some ((key, target) :: r)

/-- Compare instructions, given the comparison of arguments. -/
def alikeInstrs (eqArgs : Value → Value → Except Error Bool) (r : Renaming) :
    List (Instr Value) → List (Instr Value) → Except Error Bool
  | i :: is, j :: js => do
    match i.op with
    | .label l =>
      match ← rename r (.label l) (opValue j.op) with
      | some r => alikeInstrs eqArgs r is js
      | none => return false
    | op =>
      if op ≠ j.op then return false
      else
        match op with
        | .code o =>
          if o.operand == .jump then
            match ← rename r i.arg j.arg with
            | some r => alikeInstrs eqArgs r is js
            | none => return false
          else if o.hasArgument then
            if ← eqArgs i.arg j.arg then alikeInstrs eqArgs r is js else return false
          else alikeInstrs eqArgs r is js
        | _ => alikeInstrs eqArgs r is js
  | _, _ => return true

/-- Compare code units, with a bound on the nesting. -/
def alikeAt : (depth : Nat) → CodeUnit Value → CodeUnit Value → Except Error Bool
  | 0, _, _ => fault .recursion
  | depth + 1, u, v => do
    let eqArgs (a b : Value) : Except Error Bool :=
      match a, b with
      | .code x, .code y => alikeAt depth x y
      | .code _, _ | _, .code _ => fault .attribute
      | a, b => a.eq b
    if !(← Value.eqArrays Value.eq u.freevars v.freevars) then return false
    else if !(← Value.eqArrays Value.eq u.args v.args) then return false
    else if u.varargs ≠ v.varargs ∨ u.varkwargs ≠ v.varkwargs ∨ u.newlocals ≠ v.newlocals
        ∨ u.name ≠ v.name ∨ u.file ≠ v.file ∨ u.firstLine ≠ v.firstLine
        ∨ u.docstring ≠ v.docstring ∨ u.instrs.length ≠ v.instrs.length then return false
    else alikeInstrs eqArgs [] u.instrs v.instrs

/-- Whether two code units differ in the choice of labels only. -/
def alike (u v : CodeUnit Value) : Except Error Bool := alikeAt Value.depthLimit u v

end HostedLisp.Code
