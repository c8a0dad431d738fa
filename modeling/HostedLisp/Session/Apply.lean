import HostedLisp.Session.View

/-!
# Calling functions

- `Value.truthy`: what counts as true in conditions.
- `Primitive.apply`: the functions that can be passed as values.
- `SessionM.apply`: calling any value that can be called.
-/

namespace HostedLisp

/-- What counts as true: all but nil, false, zero and what is empty. -/
def Value.truthy (v : Value) : Except Error Bool :=
  match v with
  | .nil => return false
  | .bool b => return b
  | .int n => return n ≠ 0
  | .float x => return x != 0.0
  | .ratio q => return q != 0
  | .opcode o => return o.number ≠ 0
  | .str _ | .wide _ | .numeral _ | .bytes _ | .tuple _ | .array _ | .dict _ | .emptyList _
  | .list ..
  | .cons .. | .indexSeq .. | .vector .. | .subvector .. | .entry .. | .hashMap .. | .hashSet ..
  | .arrayMap .. | .treeMap .. | .arraySeq .. => do return (← v.len) ≠ 0
  | _ => return true

/-- Whether a check succeeded: anything but false, except that of all other values only nil counts
as success. -/
def Value.holds : Value → Bool
  | .bool b => b
  | .nil => true
  | _ => false

namespace Primitive

open Value

/-- Take away the form and the environment that a macro is called with. -/
def macroArgs : List Value → Except Error (List Value)
  | _ :: _ :: args => return args
  | _ => fault .type

def one : List Value → Except Error Value
  | [x] => return x
  | _ => fault .type

def two : List Value → Except Error (Value × Value)
  | [x, y] => return (x, y)
  | _ => fault .type

/-- An argument by position. -/
def argument (i : Nat) (args : List Value) : Except Error Value :=
  match args[i]? with
  | some x => return x
  | none => fault .index

/-- Call a primitive. -/
def apply (view : Viewer) (p : Primitive) (args : List Value) : Except Error Value :=
  match p with
  | add => args.foldlM Value.add (.int 0)
  | mul => do let (x, y) ← two args; x.mul y
  | sub => do let (x, y) ← two args; x.sub y
  | inc => do (← one args).add (.int 1)
  | identity => one args
  | first => argument 0 args
  | second => argument 1 args
  | list => return .array args
  | count => return .int args.length
  | always none => return .nil
  | always (some b) => return .bool b
  | isPositive => do return .bool (← less (.int 0) (← one args))
  | isEven => do return .bool (← eq (← (← one args).modulo (.int 2)) (.int 0))
  | typeName => do return .str ((← argument 0 args).classOf view).name
  | fail => .error (.fault .thrown)
  | macroFirst => do argument 0 (← macroArgs args)
  | macroLast => do argument 0 (← macroArgs args).reverse
  | macroDo => do return listOf (sym "do" :: (← macroArgs args))
  | macroVector => do return vectorOf (← macroArgs args)
  | macroCount => do return .int (← macroArgs args).length
  | macroNil => do let _ ← macroArgs args; return .nil
  | macroThrow => .error (.fault .thrown)

end Primitive

namespace SessionM

/-- The current view of the session. -/
def viewer : SessionM Viewer := do return (← get).view

def text (v : Value) : SessionM String := do lift (v.shown (← viewer))

/-- What a protocol function does for a class, if anything. -/
def implementation? (p : ProtocolFn) (t : Value) : SessionM (Option Value) := do
  match (← heritage t).findSome? fun t => (p.inClasses.find? fun (u, _) => u.same t).map (·.2) with
  | some f => return some f
  | none =>
    match (p.table.find? fun (u, _) => u.same t).map (·.2) with
    | some f => if ← lift f.truthy then return some f else return none
    | none => return none

/-- Call a value, with a bound on how far callables refer to each other. -/
def applyAt : (depth : Nat) → Value → List Value → SessionM Value
  | 0, _, _ => fault .recursion
  | depth + 1, f, args => do
    match f with
    | .primitive p => lift (p.apply (← viewer) args)
    | .keyword _ =>
      match args with
      | [.nil] | [.nil, _] => return .nil
      | [x] => if ← lift (x.isMember f) then lift (x.subscript f) else return .nil
      | [x, d] => if ← lift (x.isMember f) then lift (x.subscript f) else return d
      | _ => fault .type
    | .vector .. =>
      match args with
      | [i] => lift (f.nthAt i none)
      | _ => fault .type
    | .hashMap .. | .arrayMap .. =>
      match args with
      | [k] => lift (f.valAt k .nil)
      | [k, d] => lift (f.valAt k d)
      | _ => fault .type
    | .treeMap .. =>
      match args with
      | [k] => lift (f.valAt k .nil)
      | [k, d] => lift (f.valAt k d)
      | _ => return .nil
    | .hashSet m _ =>
      match args with
      | [x] => lift do return (← Value.tableGet? m x).getD .nil
      | _ => throw .badArity
    | .ref a =>
      match ← fetch a with
      | .var _ => applyAt depth (← deref a) args
      | .unbound v => throw (.signal .arity ("Attempting to call unbound fn: " ++ (← text v)))
      | .constant v => if args.isEmpty then return v else fault .type
      | .transient t =>
        match args with
        | [k] | [k, _] =>
          lift (t.checkEditable (← get).thread)
          lift (t.get k ((args[1]?).getD .nil))
        | _ => fault .type
      | .multi selector =>
        let chosen ← applyAt depth selector args
        let _ ← lift chosen.hash
        -- there never is a method to choose, nor a default to fall back on
        fault .type
      | .protocolFn p =>
        match args with
        | [] => fault .index
        | x :: _ =>
          let t ← typeOf x
          match ← implementation? p t with
          | some g => applyAt depth g args
          | none =>
            if ← lift p.default.truthy then applyAt depth p.default args
            else throw (.signal .protocol
              (p.name ++ " not extended to handle: " ++ ((← get).typeName t).shown))
      | .userType _ => allocRef (.object f [])
      | .object t _ =>
        match ← typeMember? t "__call__" with
        | some g => applyAt depth g (f :: args)
        | none => fault .type
      | _ => fault .type
    | _ => fault .type

/-- Call a value. -/
def apply (f : Value) (args : List Value) : SessionM Value := applyAt Value.depthLimit f args

/-- What it means to call a value with some arguments. -/
class Calls where
  call : Value → List Value → SessionM Value

instance : Calls := ⟨apply⟩

end SessionM

end HostedLisp
