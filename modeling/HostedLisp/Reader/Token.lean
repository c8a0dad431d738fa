import HostedLisp.Error
import HostedLisp.Number.Basic
import HostedLisp.Value

/-!
# Cursors and tokens

A cursor takes characters one at a time and can step back once after each. It counts lines as it
goes.

What a token means: a number, a symbol or a keyword.

- `Cursor`: the state; `Cursor.pos` is the number of characters taken so far.
- `Cursor.take`, `Cursor.back?`: the moves.
- `Token.number?`: integers in several bases, floating-point numbers and fractions.
- `Token.symbolParts?`: the namespace and the name in a token.
-/

namespace HostedLisp

/-- A position in a text. Taking past the end still moves the cursor. -/
structure Cursor where
  source : Array Char
  /-- How many characters were taken. -/
  pos : Nat := 0
  line : Int := 1
  /-- The line before the last character was taken. -/
  lastLine : Int := -1
  /-- Whether the last move was forward. -/
  canStepBack : Bool := false
  /-- Whether a step was refused: one back, or one more than allowed. -/
  refused : Bool := false
  deriving Inhabited

namespace Cursor

/-- The start of a text. -/
def ofString (s : String) : Cursor := { source := s.toList.toArray }

/-- The character taken last; before the first, the last one of the text. -/
def current? (c : Cursor) : Option Char :=
  if c.pos = 0 then c.source.back? else c.source[c.pos - 1]?

/-- Take the next character; `none` at the end of the text. -/
def take (c : Cursor) : Option Char × Cursor :=
  let ch := c.source[c.pos]?
  (ch, { c with
    pos := c.pos + 1
    line := if ch = some '\n' then c.line + 1 else c.line
    lastLine := c.line
    canStepBack := true })

/-- Step back over the character taken last. -/
def back? (c : Cursor) : Option Cursor :=
  if c.canStepBack then
    some { c with pos := c.pos - 1, line := c.lastLine, canStepBack := false }
  else none

def remaining (c : Cursor) : Nat := c.source.size - c.pos

end Cursor

namespace Token

variable (cs : List Char)

/-- A final newline does not take part in matching. -/
def dropFinalNewline : List Char :=
  match cs.getLast? with
  | some '\n' => cs.dropLast
  | _ => cs

/-- The decimal digits at the start of a text, and what follows. -/
def spanDecimals : List Char × List Char := cs.span Text.isDecimal

/-- The ASCII digits from one to nine. -/
def isLeadingDigit (c : Char) : Bool := '1' ≤ c && c ≤ '9'

/-- ASCII letters and digits. -/
def isAlphanumeric (c : Char) : Bool :=
  ('0' ≤ c && c ≤ '9') || ('a' ≤ c && c ≤ 'z') || ('A' ≤ c && c ≤ 'Z')

/-- An optional sign, and what follows. -/
def spanSign : List Char → Option Char × List Char
  | '+' :: cs => (some '+', cs)
  | '-' :: cs => (some '-', cs)
  | cs => (none, cs)

/-- The base and the digits of a numeral with a radix, such as `16rFF`. -/
def radix? : Option (List Char × List Char) :=
  let cs := match cs with
    | ':' :: rest => rest
    | _ => cs
  let tail (base : List Char) (rest : List Char) : Option (List Char × List Char) :=
    match rest with
    | r :: value =>
      if (r = 'r' ∨ r = 'R') ∧ value ≠ [] ∧ value.all isAlphanumeric then some (base, value)
      else none
    | [] => none
  match cs with
  | d :: e :: rest =>
    if isLeadingDigit d then
      if Text.isDecimal e then tail [d, e] rest else tail [d] (e :: rest)
    else none
  | _ => none

/-- A decimal numeral without a leading zero. -/
def isDecimalNumeral : List Char → Bool
  | ['0'] => true
  | d :: rest => isLeadingDigit d && rest.all Text.isDecimal
  | [] => false

/-- The digits of an integer numeral and their base. -/
def integerParts? : Option (List Char × Except Text.IntegerError Nat) :=
  match radix? cs with
  | some (base, value) => some (value, (Text.integer base 10).map Int.toNat)
  | none =>
    if isDecimalNumeral cs then some (cs, return 10)
    else match cs with
      | '0' :: x :: rest =>
        if x = 'x' ∨ x = 'X' then
          if rest ≠ [] ∧ rest.all Text.isHexDigit then some (rest, return 16) else none
        else if (x :: rest).all (fun c => '0' ≤ c && c ≤ '7') then some (x :: rest, return 8)
        else none
      | _ => none

/-- The value of decimal digits of any script. -/
def digitsValue : Nat := Text.ofDigits 10 (cs.filterMap Text.decimalDigit?)

/-- An exponent part: its value, or nothing if there is none. -/
def exponent? : List Char → Option Int
  | e :: rest =>
    if e = 'e' ∨ e = 'E' then
      let (sign, digits) := spanSign rest
      if digits ≠ [] ∧ digits.all Text.isDecimal then
        let n : Int := digitsValue digits
        some (if sign = some '-' then -n else n)
      else none
    else none
  | [] => none

/-- A floating-point numeral: digits, then a fraction or an exponent or both. -/
def float? : Option Float :=
  let (sign, body) := spanSign cs
  let (whole, rest) := spanDecimals body
  if whole = [] then none
  else
    let made (fraction : List Char) (e : Int) : Float :=
      let x := Number.readFloat (digitsValue (whole ++ fraction)) (e - fraction.length)
      if sign = some '-' then -x else x
    match rest with
    | '.' :: after =>
      let (fraction, tail) := spanDecimals after
      if tail = [] then some (made fraction 0) else (exponent? tail).map (made fraction)
    | _ => (exponent? rest).map (made [])

/-- The numerator and the denominator of a fraction. -/
def fraction? : Option (Option Char × List Char × List Char) :=
  let (sign, body) := spanSign cs
  match body.span (· ≠ '/') with
  | (num, _ :: den) =>
    if isDecimalNumeral num ∧ isDecimalNumeral den then some (sign, num, den) else none
  | _ => none

def fractionValue (sign : Option Char) (num den : List Char) : Except ReadError Value := do
  let read (cs : List Char) : Except ReadError Int :=
    match Text.integer cs 10 with
    | .ok n => return n
    | .error e => throw (.badInteger e)
  let n ← read num
  let d ← read den
  let n := if sign = some '-' then -n else n
  if d = 0 then throw (.zeroDenominator n) else return .ratio (mkRat n d.toNat)

/-- The number that a token is, if it has the shape of one. -/
def number? (token : List Char) : Except ReadError (Option Value) :=
  let cs := dropFinalNewline token
  let (sign, body) := spanSign cs
  match integerParts? body with
  | some (digits, base) =>
    match base with
    | .error e => throw (.badInteger e)
    | .ok base =>
      match Text.integer (sign.getD '+' :: digits) base with
      | .ok n => return some (.int n)
      | .error e => throw (.badInteger e)
  | none =>
    match float? cs with
    | some x => return some (.float x)
    | none =>
      match fraction? cs with
      | some (sign, num, den) => do return some (← fractionValue sign num den)
      | none => return none

/-- Names start with anything but a decimal digit. -/
def isNameStart (c : Char) : Bool := !Text.isDecimal c

/-- The part of a token after a slash at index `p`, if a name can start there. -/
def nameAfter? (p : Nat) : Option (List Char × List Char) :=
  match cs.drop (p + 1) with
  | c :: rest =>
    if isNameStart c then some (cs.take (p + 1), c :: rest.takeWhile (· ≠ '/')) else none
  | [] => none

/-- The slashes that can end a namespace, the last one first. -/
def slashes : List Nat :=
  let line := cs.take 1 ++ (cs.drop 1).takeWhile (· ≠ '\n')
  ((line.zipIdx.filter fun (c, i) => c = '/' ∧ i > 0).map (·.2)).reverse

/-- A namespace with its slash, and a name. -/
def qualified? : Option (Option (List Char) × List Char) :=
  match cs with
  | [] => none
  | c :: rest =>
    if isNameStart c then
      match (slashes cs).findSome? (nameAfter? cs) with
      | some (ns, name) => some (some ns, name)
      | none => some (none, c :: rest.takeWhile (· ≠ '/'))
    else none

/-- The namespace with its slash and the name that start a token, a colon in front left out if
possible. -/
def symbolParts? : Option (Option (List Char) × List Char) :=
  match cs with
  | ':' :: rest => (qualified? rest).orElse fun _ => qualified? cs
  | _ => qualified? cs

/-- Whether two colons follow each other. -/
def hasDoubleColon : List Char → Bool
  | ':' :: ':' :: _ => true
  | _ :: rest => hasDoubleColon rest
  | [] => false

/-- A dot at the end of a name is dropped unless there is one in front. -/
def dropFinalDot (name : List Char) : List Char :=
  if name.getLast? = some '.' ∧ name.head? ≠ some '.' then name.dropLast else name

/-- What a token that is no number names. -/
inductive Name where
  | symbol (s : Symbol)
  | keyword (s : Symbol)
  /-- A keyword in the current namespace. -/
  | ofCurrentNamespace (name : String)

/-- The symbol or keyword that a token is. -/
def name? (token : List Char) : Option Name := do
  let (ns, name) ← symbolParts? token
  let name := dropFinalDot name
  let malformed := match ns with
    | none => false
    | some ns =>
      [':', '/'].isSuffixOf ns || name.getLast? == some ':' || hasDoubleColon token
  if malformed then none
  else match token with
    | ':' :: ':' :: rest => some (.ofCurrentNamespace (String.ofList rest))
    | ':' :: rest => some (.keyword (.ofText (String.ofList rest)))
    | _ => some (.symbol ⟨ns.map fun cs => String.ofList cs.dropLast, String.ofList name⟩)

end Token

end HostedLisp
