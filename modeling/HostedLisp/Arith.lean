import HostedLisp.Equality

/-!
# Arithmetic of values

- `Value.add`, `Value.sub`, `Value.mul`, `Value.modulo`: arithmetic on the values that are numbers.
- `Value.less`: the order of numbers, strings, arrays and tuples.
- `Orders`: what the orders say that a program brings along.
- `Comparator.compare`: comparators.
-/

namespace HostedLisp

namespace Value

/-- Combine two numbers: exactly, or as floating-point numbers if one of them is one. -/
def arith (exact : Rat → Rat → Except Error Rat) (float : Float → Float → Except Error Float)
    (a b : Value) : Except Error Value := do
  let toFloat (q : Rat) : Except Error Float :=
    match Number.toFloat? q with
    | some x => return x
    | none => fault .overflow
  match a.asNumber?, b.asNumber? with
  | some (.exact p), some (.exact q) =>
    let r ← exact p q
    match a.asInt?, b.asInt? with
    | some _, some _ => return .int r.num
    | _, _ => return .ratio r
  | some (.float x), some (.float y) => return .float (← float x y)
  | some (.float x), some (.exact q) => return .float (← float x (← toFloat q))
  | some (.exact p), some (.float y) => return .float (← float (← toFloat p) y)
  | _, _ => fault .type

def add (a b : Value) : Except Error Value :=
  arith (fun p q => return p + q) (fun x y => return x + y) a b

def sub (a b : Value) : Except Error Value :=
  arith (fun p q => return p - q) (fun x y => return x - y) a b

def repeated {α : Type} (n : Int) (xs : List α) : List α := (List.replicate n.toNat xs).flatten

/-- Product; a string, array or tuple times an integer is repeated. -/
def mul (a b : Value) : Except Error Value :=
  match a, b.asInt?, a.asInt?, b with
  | .str s, some n, _, _ | _, _, some n, .str s => return .str (String.ofList (repeated n s.toList))
  | .array xs, some n, _, _ | _, _, some n, .array xs => return .array (repeated n xs)
  | .tuple xs, some n, _, _ | _, _, some n, .tuple xs => return .tuple (repeated n xs)
  | a, _, _, b => arith (fun p q => return p * q) (fun x y => return x * y) a b

/-- Remainder with the sign of the divisor. -/
def modulo (a b : Value) : Except Error Value :=
  arith
    (fun p q => if q == 0 then fault .zeroDivision else return p - q * ((p / q).floor : Int))
    (fun x y => match Number.floatMod x y with
      | some r => return r
      | none => fault .zeroDivision) a b

def codesLess : List Nat → List Nat → Bool
  | _, [] => false
  | [], _ :: _ => true
  | x :: xs, y :: ys => if x = y then codesLess xs ys else x < y

variable [Identity]

/-- Order of items: the first place where they differ decides. -/
def itemsLess (less : Value → Value → Except Error Bool) :
    List Value → List Value → Except Error Bool
  | _, [] => return false
  | [], _ :: _ => return true
  | x :: xs, y :: ys => do
    if Identity.is x y then itemsLess less xs ys
    else if ← eq x y then itemsLess less xs ys
    else less x y

/-- Order, with a bound on the nesting depth. -/
def lessAt : (depth : Nat) → Value → Value → Except Error Bool
  | 0, _, _ => fault .recursion
  | d + 1, a, b =>
    match a.asNumber?, b.asNumber? with
    | some x, some y => return x.lt y
    | _, _ =>
      match a.codes?, b.codes? with
      | some x, some y => return codesLess x y
      | _, _ =>
        match a, b with
        | .tuple xs, .tuple ys => itemsLess (lessAt d) xs ys
        | .array xs, .array ys => itemsLess (lessAt d) xs ys
        | .bytes xs, .bytes ys => return codesLess xs ys
        | _, _ => fault .type

def less (a b : Value) : Except Error Bool := lessAt depthLimit a b

/-- The natural order: equal, smaller, or else greater. -/
def compareNatural (a b : Value) : Except Error Int := do
  if ← eq a b then return 0
  else if ← less a b then return -1
  else return 1

end Value

/-- What the orders say of two keys that a program brings along: negative, zero or positive. Any
function may be such an order, and it may fail. -/
class Orders where
  compare (name : String) : Value → Value → Except Error Int

/-- Three orders: the natural one turned round, that of the last digits, and all keys alike. -/
instance : Orders where
  compare name a b := do
    match name with
    | "reverse" => Value.compareNatural b a
    | "mod10" => Value.compareNatural (← Value.modulo a (.int 10)) (← Value.modulo b (.int 10))
    | "equal" => return 0
    | _ => fault .attribute

/-- What a comparator says of two keys: negative, zero or positive. -/
def Comparator.compare [Identity] [Orders] (c : Comparator) (a b : Value) : Except Error Int :=
  match c with
  | natural => Value.compareNatural a b
  | custom name => Orders.compare name a b

end HostedLisp
