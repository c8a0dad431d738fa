import HostedLisp.Message.Method

/-!
# Methods of big numbers

An integer takes a numeral or another integer as its partner. Methods that would make a new integer
or float fail, because those cannot be made without a value.
-/

namespace HostedLisp.Message

open Method SessionM

def bigNumber? (v : Value) : SessionM (Option (Address × BigNumber)) := do
  match v, ← cell? v with
  | .ref a, some (.bigNumber n) => return some (a, n)
  | _, _ => return none

/-- The integer that a value is or can be made into. -/
def bigInteger (v : Value) : SessionM Int := do
  match ← bigNumber? v with
  | some (_, .integer n) => return n
  | _ =>
    match v with
    | .numeral s => return (Big.numeral? 10 s).getD 0
    -- other texts are not in the form that the library takes
    | .str _ | .wide _ => fault .argument
    | _ => fault .type

/-- The decimal digits of an integer as octets. -/
def bigDigits (n : Int) : Value := .bytes ((Text.decimal n).toList.map Char.toNat)

/-- The text of a big number, which is octets. -/
def bigText (n : BigNumber) : SessionM Value := do
  match n with
  | .integer n => return bigDigits n
  | .rational => return bigDigits 0
  | .float => return .bytes []
  | .random => fault .attribute

/-- Put a value into an integer. A text that is no numeral leaves it as it was. -/
def bigSet (a : Address) (old : Int) (v : Value) (radix : Option Value) : SessionM Value := do
  let text ← match ← bigNumber? v with
    | some (_, .integer n) => pure (Text.decimal n)
    | _ => match v with
      | .numeral s => pure s
      | .str _ | .wide _ => fault .argument
      | _ => fault .type
  let r ← match radix.getD (.int 10) with
    | .int r => pure r
    | .bool b => pure (if b then 1 else 0)
    | _ => fault .argument
  thenNil (store a (.bigNumber (.integer ((Big.numeral? r text).getD old))))

/-- A question that compares with another integer. -/
def bigAsk (f : Int → Int → Bool) : Method := act1 fun self other => do
  let n ← bigInteger self
  return .bool (f n (← bigInteger other))

/-- Change an integer in place by another. -/
def bigChange (f : Int → Int → Int) : Method := act1 fun self other => do
  match ← bigNumber? self with
  | some (a, .integer n) =>
    store a (.bigNumber (.integer (f n (← bigInteger other))))
    return self
  | _ => fault .type

/-- A method that cannot make its result. -/
def makesNothing (n : Nat) : Method := failing n (.fault .type)

def bigIntegerMethods : Methods := [
  ("set", ⟨1, some 2, fun self args => do
    match ← bigNumber? self with
    | some (a, .integer n) => bigSet a n (args[0]?.getD .nil) args[1]?
    | _ => fault .type⟩),
  ("__lt__", bigAsk (· < ·)), ("__le__", bigAsk (· ≤ ·)), ("__eq__", bigAsk (· == ·)),
  ("__ne__", bigAsk (· != ·)), ("__gt__", bigAsk (· > ·)), ("__ge__", bigAsk (· ≥ ·)),
  ("__iadd__", bigChange (· + ·)), ("__isub__", bigChange (· - ·)), ("__imul__", bigChange (· * ·)),
  -- the remainder is never negative
  ("__imod__", bigChange fun a b => a % b),
  ("__iand__", bigChange Big.and), ("__ixor__", bigChange Big.xor), ("__ior__", bigChange Big.or)]
    ++ ["__add__", "__sub__", "__mul__", "__div__", "__and__", "__mod__", "__xor__", "__or__",
      "__radd__", "__rsub__", "__rmul__", "__rdiv__", "__rmod__"].map (·, makesNothing 1)
    ++ ["__abs__", "__neg__"].map (·, makesNothing 0)

/-- The partner of a number that is always zero has to be of its kind. -/
def sameKind (other : Value) (kind : BigNumber) : SessionM Bool := do
  return match ← bigNumber? other with
    | some (_, n) => n == kind
    | none => false

/-- A method of numbers that are always zero, for a partner of the same kind. -/
def zeroMethod (kind : BigNumber) (f : Value → SessionM Value) : Method :=
  act1 fun self other => do
    if ← sameKind other kind then f self else fault .type

/-- What all numbers answer that are always zero. -/
def zeroBasics (kind : BigNumber) : Methods :=
  ["__lt__", "__ne__", "__gt__"].map (·, zeroMethod kind fun _ => return .bool false)
    ++ ["__le__", "__eq__", "__ge__"].map (·, zeroMethod kind fun _ => return .bool true)
    ++ ["__iadd__", "__isub__", "__imul__"].map (·, zeroMethod kind fun self => return self)
    ++ [("set", zeroMethod kind fun _ => return .nil)]

def bigRationalMethods : Methods :=
  zeroBasics .rational
    ++ ["__add__", "__sub__", "__mul__"].map
      (·, zeroMethod .rational fun _ => allocRef (.bigNumber .rational))
    ++ ["__abs__", "__neg__"].map (·, act fun _ => allocRef (.bigNumber .rational))

def bigFloatMethods : Methods :=
  zeroBasics .float
    ++ ["__add__", "__sub__", "__mul__", "__div__", "__radd__", "__rsub__", "__rmul__",
      "__rdiv__", "__idiv__"].map (·, makesNothing 1)
    ++ ["__abs__", "__neg__"].map (·, makesNothing 0)

def bigRandomMethods : Methods := [
  ("seed", act1 fun _ x => do
    let _ ← bigInteger x
    return .nil),
  ("urandom", makesNothing 1)]

def bigMethods (n : BigNumber) : Methods :=
  let shown : Methods := ["__str__", "__repr__"].map (·, act fun self => do
    match ← bigNumber? self with
    | some (_, n) => bigText n
    | none => fault .attribute)
  match n with
  | .integer _ => bigIntegerMethods ++ shown
  | .rational => bigRationalMethods ++ shown
  | .float => bigFloatMethods ++ shown
  | .random => bigRandomMethods

def newBigNumber (name : String) (args : List Value) : SessionM Value := do
  match name, args with
  | "Integer", [v] => allocRef (.bigNumber (.integer (← bigInteger v)))
  | "Rational", [] => allocRef (.bigNumber .rational)
  | "Float", [v] | "Float", [v, _] =>
    if ← sameKind v .float then allocRef (.bigNumber .float) else fault .type
  | "Random", [] => allocRef (.bigNumber .random)
  | "Random", [_] => throw (.signal .general "Algorithm not available")
  | "Integer", _ | "Rational", _ | "Float", _ | "Random", _ => fault .type
  | _, _ => fault .attribute

def zeroBigNumber (name : String) : SessionM Value := do
  match name with
  | "Integer" => allocRef (.bigNumber (.integer 0))
  | "Rational" => allocRef (.bigNumber .rational)
  | "Float" => allocRef (.bigNumber .float)
  | "Random" => allocRef (.bigNumber .random)
  | _ => fault .attribute

/-- A value that must be a big number of a class. -/
def asBigNumber (name : String) (v : Value) : SessionM Value := do
  match ← bigNumber? v with
  | some (_, n) =>
    if ((Cell.bigNumber n).className fun _ => default).name = name then return v
    else fault .assertion
  | none => fault .assertion

end HostedLisp.Message
