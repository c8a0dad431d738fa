import HostedLisp.Text.Quoted

/-!
# Integer numerals

Reading integers in a given base: white space around, a sign, the base's own marker, and single
underscores between digits are accepted.

- `Text.decimalDigit?`: the value of a decimal digit of any script.
- `Text.isDigit`: decimal digits and the other digits, such as superscripts.
- `Text.isSpace`: white space of any script.
- `Text.isBlank`: what separates tokens; the comma counts, the vertical tab does not.
- `Text.IntegerError`: why a text is no integer, with `IntegerError.message`.
- `Text.integer`: the value of a numeral.
- `Text.decimal`: the decimal digits of an integer.
-/

namespace HostedLisp.Text

/-! ## Classes of characters -/

/-- The code points of the decimal digits zero; the other nine digits of a script follow its
zero. -/
def decimalZeros : List Nat := [
  0x30, 0x660, 0x6f0, 0x7c0, 0x966, 0x9e6, 0xa66, 0xae6, 0xb66, 0xbe6, 0xc66, 0xce6, 0xd66, 0xde6,
  0xe50, 0xed0, 0xf20, 0x1040, 0x1090, 0x17e0, 0x1810, 0x1946, 0x19d0, 0x1a80, 0x1a90, 0x1b50,
  0x1bb0, 0x1c40, 0x1c50, 0xa620, 0xa8d0, 0xa900, 0xa9d0, 0xa9f0, 0xaa50, 0xabf0, 0xff10, 0x104a0,
  0x10d30, 0x11066, 0x110f0, 0x11136, 0x111d0, 0x112f0, 0x11450, 0x114d0, 0x11650, 0x116c0, 0x11730,
  0x118e0, 0x11950, 0x11c50, 0x11d50, 0x11da0, 0x16a60, 0x16ac0, 0x16b50, 0x1d7ce, 0x1d7d8, 0x1d7e2,
  0x1d7ec, 0x1d7f6, 0x1e140, 0x1e2f0, 0x1e950, 0x1fbf0]

/-- The ranges of digits that take no part in positional numerals. -/
def otherDigits : List (Nat × Nat) := [
  (0xb2, 0xb3), (0xb9, 0xb9), (0x1369, 0x1371), (0x19da, 0x19da), (0x2070, 0x2070),
    (0x2074, 0x2079),
  (0x2080, 0x2089), (0x2460, 0x2468), (0x2474, 0x247c), (0x2488, 0x2490), (0x24ea, 0x24ea),
  (0x24f5, 0x24fd), (0x24ff, 0x24ff), (0x2776, 0x277e), (0x2780, 0x2788), (0x278a, 0x2792),
  (0x10a40, 0x10a43), (0x10e60, 0x10e68), (0x11052, 0x1105a), (0x1f100, 0x1f10a)]

variable (c : Char)

/-- The value of a decimal digit. -/
def decimalDigit? : Option Nat :=
  let n := c.toNat
  if n < 128 then if 48 ≤ n ∧ n < 58 then some (n - 48) else none
  else (decimalZeros.find? fun z => z ≤ n && n < z + 10).map (n - ·)

def isDecimal : Bool := (decimalDigit? c).isSome

/-- Whether a character is a digit of any kind. -/
def isDigit : Bool :=
  isDecimal c || (c.toNat ≥ 128 && otherDigits.any fun (lo, hi) => lo ≤ c.toNat && c.toNat ≤ hi)

/-- White space of any script. -/
def isSpace : Bool :=
  let n := c.toNat
  (9 ≤ n && n ≤ 13) || (28 ≤ n && n ≤ 32) || n == 0x85 || n == 0xa0 || n == 0x1680
    || (0x2000 ≤ n && n ≤ 0x200a) || n == 0x2028 || n == 0x2029 || n == 0x202f || n == 0x205f
    || n == 0x3000

/-- What separates tokens. -/
def isBlank : Bool :=
  c == ',' || c == '\n' || c == '\t' || c == '\r' || c.toNat == 8 || c.toNat == 12 || c == ' '

/-- The value of a digit in a base up to 36, where letters of either case follow the nine. -/
def digitValue? : Option Nat :=
  match decimalDigit? c with
  | some d => some d
  | none =>
    let n := c.toNat
    if 97 ≤ n ∧ n ≤ 122 then some (n - 87)
    else if 65 ≤ n ∧ n ≤ 90 then some (n - 55)
    else none

def isHexDigit : Bool :=
  let n := c.toNat
  (48 ≤ n && n ≤ 57) || (97 ≤ n && n ≤ 102) || (65 ≤ n && n ≤ 70)

/-- Drop white space at both ends. -/
def strip (cs : List Char) : List Char := ((cs.dropWhile isSpace).reverse.dropWhile isSpace).reverse

/-! ## Numerals -/

/-- Why a text is no integer. -/
inductive IntegerError where
  | badBase
  | badLiteral (base : Nat) (text : List Char)
  /-- Bases that are no power of two take so many digits only. -/
  | tooLong (digits : Nat)
  deriving DecidableEq, Repr

/-- The most digits a numeral may have whose base is no power of two. -/
def maxDigits : Nat := 4300

def IntegerError.message : IntegerError → String
  | .badBase => "int() base must be >= 2 and <= 36, or 0"
  | .badLiteral base text =>
    "invalid literal for int() with base " ++ Nat.repr base ++ ": " ++ quote (String.ofList text)
  | .tooLong digits =>
    "Exceeds the limit (" ++ Nat.repr maxDigits ++ " digits) for integer string conversion: value "
      ++ "has " ++ Nat.repr digits
      ++ " digits; use sys.set_int_max_str_digits() to increase the limit"

/-- The digits of a numeral, where single underscores may stand between digits. -/
def digitsIn (base : Nat) : List Char → Option (List Nat)
  | [] => none
  | [c] => (digitIn base c).map ([·])
  | c :: '_' :: rest => do
    let d ← digitIn base c
    return d :: (← digitsIn base rest)
  | c :: rest => do
    let d ← digitIn base c
    return d :: (← digitsIn base rest)
where
  /-- The value of one digit that the base has. -/
  digitIn (base : Nat) (c : Char) : Option Nat := (digitValue? c).filter (· < base)

/-- The value of digits, most significant first. -/
def ofDigits (base : Nat) (ds : List Nat) : Nat := ds.foldl (fun n d => n * base + d) 0

/-- Drop the marker that announces the base, if the numeral starts with it. -/
def dropMarker (base : Nat) : List Char → List Char
  | '0' :: c :: rest =>
    let marked := (base = 16 ∧ (c = 'x' ∨ c = 'X')) ∨ (base = 8 ∧ (c = 'o' ∨ c = 'O'))
      ∨ (base = 2 ∧ (c = 'b' ∨ c = 'B'))
    if marked then
      match rest with
      | '_' :: more => more
      | more => more
    else '0' :: c :: rest
  | cs => cs

def integer (text : List Char) (base : Nat) : Except IntegerError Int :=
  if base < 2 ∨ base > 36 then throw .badBase
  else
    let body := strip text
    let (sign, unsigned) : Int × List Char := match body with
      | '-' :: rest => (-1, rest)
      | '+' :: rest => (1, rest)
      | rest => (1, rest)
    match digitsIn base (dropMarker base unsigned) with
    | none => throw (.badLiteral base text)
    | some ds =>
      if base ∉ [2, 4, 8, 16, 32] ∧ ds.length > maxDigits then throw (.tooLong ds.length)
      else return sign * ofDigits base ds

/-- The decimal text of an integer. -/
def decimal (n : Int) : String :=
  match n with
  | .ofNat n => Nat.repr n
  | .negSucc n => "-" ++ Nat.repr (n + 1)

end HostedLisp.Text
