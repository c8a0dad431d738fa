import HostedLisp.Text.Integer

/-!
# Numbers

The decimal text of a binary floating-point number: the fewest digits that read back as the same
number, and of those the nearest.

Integers, fractions and floating-point numbers compare by exact value, and equal numbers have equal
hashes.

Integers of any size that are changed in place. They are set from numerals; a text that is no
numeral leaves the number as it was.

- `Number.Binary`: a positive number `mantissa · 2 ^ exponent` with the interval that rounds to it.
- `Number.shortest`: its shortest digits and decimal exponent.
- `Number.floatText`: the text; positional from `1e-4` up to `1e16`.
- `Number.readFloat`: the number nearest to a decimal.
- `Number`: an exact or a floating-point number.
- `Number.eq`, `Number.lt`: comparison by value.
- `Number.hash`: the residue of the value modulo the prime `2 ^ 61 - 1`.
- `Number.toFloat`: the floating-point number nearest to an exact one; very large ones have none.
- `Number.add`, `Number.sub`, `Number.mul`, `Number.mod`: exact arithmetic as long as both numbers
  are exact. The remainder has the sign of the divisor.
- `Big.numeral?`: the value of a numeral in a radix.
- `Big.and`, `Big.or`, `Big.xor`: operations on two's complement with infinitely many bits.
-/

namespace HostedLisp

namespace Number

/-- A positive number `mantissa · 2 ^ exponent`. `narrow` is set where the next lower number is half
as far away as the next higher one. -/
structure Binary where
  mantissa : Nat
  exponent : Int
  narrow : Bool

/-- `n · 2 ^ (q - 2) · 10 ^ k` as a numerator and a denominator. -/
def scaled (n : Nat) (q k : Int) : Nat × Nat :=
  (n * Nat.pow 2 (q - 2).toNat * Nat.pow 10 k.toNat,
    Nat.pow 2 (2 - q).toNat * Nat.pow 10 (-k).toNat)

/-- Whether `10 ^ e` is at most the number. -/
def Binary.reaches (b : Binary) (e : Int) : Bool :=
  let (n, d) := scaled (4 * b.mantissa) b.exponent (-e)
  d ≤ n

/-- The exponent of the leading decimal digit. -/
def Binary.leading (b : Binary) : Int :=
  let bits := Int.ofNat b.mantissa.log2 + b.exponent
  let guess := Int.fdiv (bits * 30103) 100000
  if b.reaches (guess + 1) then guess + 1
  else if b.reaches guess then guess
  else guess - 1

/-- Whether `c · 10 ^ -k` reads back as the number. -/
def Binary.readsBack (b : Binary) (c : Nat) (k : Int) : Bool :=
  let low := 4 * b.mantissa - (if b.narrow then 1 else 2)
  let high := 4 * b.mantissa + 2
  let (ln, d) := scaled low b.exponent k
  let (hn, _) := scaled high b.exponent k
  if b.mantissa % 2 = 0 then ln ≤ c * d && c * d ≤ hn else ln < c * d && c * d < hn

/-- The best numeral with `digits` digits, if one reads back. -/
def Binary.attempt (b : Binary) (lead : Int) (digits : Nat) : Option Nat :=
  let k : Int := Int.ofNat digits - 1 - lead
  let (n, d) := scaled (4 * b.mantissa) b.exponent k
  let c := n / d
  let below := b.readsBack c k
  let above := b.readsBack (c + 1) k
  if below && above then
    -- the nearer one; a tie goes to the even digit
    let twice := 2 * (n % d)
    if twice < d || (twice == d && c % 2 == 0) then some c else some (c + 1)
  else if below then some c
  else if above then some (c + 1)
  else none

/-- The first success among 1, 2, … digits. -/
def Binary.search (b : Binary) (lead : Int) : (fuel digits : Nat) → Nat × Nat
  | 0, digits => (0, digits)
  | fuel + 1, digits =>
    match b.attempt lead digits with
    | some c => (c, digits)
    | none => b.search lead fuel (digits + 1)

/-- The shortest digits without trailing zeros, and the exponent of the leading one. -/
def shortest (b : Binary) : List Char × Int :=
  let lead := b.leading
  let (c, digits) := b.search lead 20 1
  let text := (Nat.repr c).toList
  let lead := if text.length > digits then lead + 1 else lead
  let trimmed := (text.reverse.dropWhile (· == '0')).reverse
  (if trimmed.isEmpty then ['0'] else trimmed, lead)

/-- The sign, and the magnitude of a finite number other than zero. -/
def decode (x : Float) : Bool × Option Binary :=
  let bits := x.toBits.toNat
  let negative := bits / Nat.pow 2 63 == 1
  let e := bits / Nat.pow 2 52 % 2048
  let f := bits % Nat.pow 2 52
  if e == 0 then
    (negative, if f == 0 then none else some ⟨f, -1074, false⟩)
  else
    (negative, some ⟨Nat.pow 2 52 + f, Int.ofNat e - 1075, f == 0 && e > 1⟩)

/-- Digits with the point after the leading one, and an exponent of at least two digits. -/
def scientific (digits : List Char) (lead : Int) : List Char :=
  let mantissa := match digits with
    | [] => ['0']
    | [d] => [d]
    | d :: rest => d :: '.' :: rest
  let e := Nat.repr lead.natAbs
  let e := if e.length < 2 then "0" ++ e else e
  mantissa ++ ['e', if lead < 0 then '-' else '+'] ++ e.toList

/-- Digits with the point in its place. -/
def positional (digits : List Char) (lead : Int) : List Char :=
  if lead < 0 then
    ['0', '.'] ++ List.replicate (-lead - 1).toNat '0' ++ digits
  else
    let whole := lead.toNat + 1
    let padded := digits ++ List.replicate (whole - digits.length) '0'
    let fraction := padded.drop whole
    padded.take whole ++ '.' :: (if fraction.isEmpty then ['0'] else fraction)

def floatText (x : Float) : String :=
  if x.isNaN then "nan"
  else if x.isInf then (if x < 0 then "-inf" else "inf")
  else
    let (negative, magnitude) := decode x
    let body := match magnitude with
      | none => ['0', '.', '0']
      | some b =>
        let (digits, lead) := shortest b
        if lead < -4 ∨ lead ≥ 16 then scientific digits lead else positional digits lead
    String.ofList (if negative then '-' :: body else body)

/-- The number nearest to `mantissa · 10 ^ exponent`. -/
def readFloat (mantissa : Nat) (exponent : Int) : Float :=
  let size : Int := Int.ofNat (Nat.repr mantissa).length + exponent
  if mantissa = 0 then 0.0
  else if size > 400 then 1.0 / 0.0
  else if size < -400 then 0.0
  else if exponent < 0 then Float.ofScientific mantissa true exponent.natAbs
  else Float.ofScientific mantissa false exponent.natAbs

end Number

inductive Number where
  | exact (q : Rat)
  | float (x : Float)

namespace Number

/-- The exact value of a finite floating-point number. -/
def exactValue? (x : Float) : Option Rat :=
  if x.isNaN || x.isInf then none
  else
    match decode x with
    | (_, none) => some 0
    | (negative, some b) =>
      let q : Rat :=
        if b.exponent < 0 then mkRat b.mantissa (Nat.pow 2 b.exponent.natAbs)
        else mkRat (b.mantissa * Nat.pow 2 b.exponent.natAbs) 1
      some (if negative then -q else q)

def eq : Number → Number → Bool
  | exact p, exact q => p == q
  | float x, float y => x == y
  | exact p, float y => exactValue? y == some p
  | float x, exact q => exactValue? x == some q

/-- Order of values; infinities are beyond every exact number. -/
def lt : Number → Number → Bool
  | exact p, exact q => decide (p < q)
  | float x, float y => x < y
  | exact p, float y => match exactValue? y with
    | some q => decide (p < q)
    | none => 0 < y
  | float x, exact q => match exactValue? x with
    | some p => decide (p < q)
    | none => x < 0

/-- The float that is no number. -/
def nan : Float := Float.ofBits 0x7ff8000000000000

/-- The prime modulus of hashes. -/
def hashModulus : Nat := Nat.pow 2 61 - 1

/-- A hash is never `-1`. -/
def settle (h : Int) : Int := if h = -1 then -2 else h

/-- The hash of an integer: its residue with its sign. -/
def hashInt (n : Int) : Int :=
  let rest := Int.ofNat (n.natAbs % hashModulus)
  settle (if n < 0 then -rest else rest)

/-- Hashes are less than this, and not less than its negative. -/
def hashBound : Int := Int.ofNat (Nat.pow 2 63)

/-- The hash of an object whose own method gives `n`: kept if it has 64 bits. -/
def hashResult (n : Int) : Int :=
  if -hashBound ≤ n ∧ n < hashBound then settle n else hashInt n

/-- `base ^ exponent` modulo the prime. -/
def powMod (base exponent : Nat) : (fuel : Nat) → Nat
  | 0 => 1
  | fuel + 1 =>
    if exponent = 0 then 1
    else
      let half := powMod (base * base % hashModulus) (exponent / 2) fuel
      if exponent % 2 = 1 then base * half % hashModulus else half

/-- The hash of a fraction: numerator times the inverse of the denominator. -/
def hashRat (q : Rat) : Int :=
  let inverse := powMod (q.den % hashModulus) (hashModulus - 2) 64
  let size : Int :=
    if q.den % hashModulus = 0 then 314159
    else Int.ofNat (q.num.natAbs % hashModulus * inverse % hashModulus)
  settle (if q.num < 0 then -size else size)

/-- The hash of a floating-point number, which agrees with that of its exact value. -/
def hashFloat (x : Float) : Int :=
  if x.isNaN then 0
  else if x.isInf then (if x < 0 then -314159 else 314159)
  else
    match exactValue? x with
    | some q => hashRat q
    | none => 0

def hash : Number → Int
  | exact q => if q.den = 1 then hashInt q.num else hashRat q
  | float x => hashFloat x

/-- The number nearest to a fraction of two positive numbers. -/
def divideToFloat (num den : Nat) : Float :=
  -- enough bits for the mantissa, and a last one that is set if anything is left over
  let shift : Int := 66 + Int.ofNat den.log2 - Int.ofNat num.log2
  let n := num * Nat.pow 2 shift.toNat
  let d := den * Nat.pow 2 (-shift).toNat
  let q := n / d
  let q := if n % d = 0 then 2 * q else 2 * q + 1
  (Float.ofNat q).scaleB (-(shift + 1))

/-- The floating-point number nearest to an exact one; `none` if it is too large. -/
def toFloat? (q : Rat) : Option Float :=
  if q.num = 0 then some 0.0
  else
    let x := divideToFloat q.num.natAbs q.den
    if x.isInf then none else some (if q.num < 0 then -x else x)

/-- The remainder of floating-point division, with the sign of the divisor. -/
def floatMod (x y : Float) : Option Float :=
  if y == 0.0 then none
  else
    match exactValue? x, exactValue? y with
    | some p, some q =>
      let r := p - q * ((p / q).floor : Int)
      match toFloat? r with
      | some z => some (if r == 0 then (if y < 0.0 then -0.0 else 0.0) else z)
      | none => some (0.0 / 0.0)
    | some _, none =>
      some (if y.isNaN then y else if (x < 0.0) == (y < 0.0) || x == 0.0 then x else y)
    | none, _ => some (0.0 / 0.0)

end Number

namespace Big

/-- The blanks that a numeral may hold. -/
def isBlank (c : Char) : Bool := c = ' ' || (9 ≤ c.toNat && c.toNat ≤ 13)

/-- The value of a digit. Radices above 36 tell upper from lower case. -/
def digit? (radix : Int) (c : Char) : Option Nat :=
  if '0' ≤ c && c ≤ '9' then some (c.toNat - '0'.toNat)
  else if 'A' ≤ c && c ≤ 'Z' then some (c.toNat - 'A'.toNat + 10)
  else if 'a' ≤ c && c ≤ 'z' then
    some (c.toNat - 'a'.toNat + (if radix > 36 then 36 else 10))
  else none

/-- Whether a character is a digit of a radix. -/
def isDigit (radix : Int) (c : Char) : Bool :=
  match digit? radix c with
  | some d => d < radix
  | none => false

/-- The value of the digits of a text that may hold blanks between them. -/
def digits? (radix : Nat) (cs : List Char) : Option Nat :=
  let cs := cs.filter fun c => !isBlank c
  if cs.all (isDigit radix) then
    some (cs.foldl (fun n c => n * radix + (digit? radix c).getD 0) 0)
  else none

/-- The radix that the beginning of a numeral tells, and the rest of it. -/
def marked : List Char → Nat × List Char
  | '0' :: c :: rest =>
    if c = 'x' || c = 'X' then (16, rest)
    else if c = 'b' || c = 'B' then (2, rest)
    else (8, c :: rest)
  | ['0'] => (8, [])
  | cs => (10, cs)

/-- The value of a numeral without a sign. Radix zero lets the numeral tell its radix. -/
def unsigned? (radix : Int) (cs : List Char) : Option Nat :=
  match cs with
  | [] => none
  | c :: _ =>
    if radix > 62 || radix < 0 then none
    else if !isDigit (if radix = 0 then 10 else radix) c then none
    else if radix = 0 then
      let (radix, rest) := marked cs
      digits? radix rest
    else digits? radix.toNat cs

/-- The value of a numeral. Blanks may stand anywhere but after the sign; a text ends at its first
zero character. -/
def numeral? (radix : Int) (text : String) : Option Int :=
  let cs := (text.toList.takeWhile fun c => c.toNat ≠ 0).dropWhile isBlank
  match cs with
  | '-' :: rest => (unsigned? radix rest).map fun n => -Int.ofNat n
  | cs => (unsigned? radix cs).map Int.ofNat

def and (a b : Int) : Int :=
  match a, b with
  | .ofNat m, .ofNat n => .ofNat (m &&& n)
  | .ofNat m, .negSucc n => .ofNat (m - (m &&& n))
  | .negSucc m, .ofNat n => .ofNat (n - (n &&& m))
  | .negSucc m, .negSucc n => .negSucc (m ||| n)

def or (a b : Int) : Int :=
  match a, b with
  | .ofNat m, .ofNat n => .ofNat (m ||| n)
  | .ofNat m, .negSucc n => .negSucc (n - (m &&& n))
  | .negSucc m, .ofNat n => .negSucc (m - (n &&& m))
  | .negSucc m, .negSucc n => .negSucc (m &&& n)

def xor (a b : Int) : Int :=
  match a, b with
  | .ofNat m, .ofNat n => .ofNat (m ^^^ n)
  | .ofNat m, .negSucc n => .negSucc (m ^^^ n)
  | .negSucc m, .ofNat n => .negSucc (m ^^^ n)
  | .negSucc m, .negSucc n => .ofNat (m ^^^ n)

end Big

end HostedLisp
