import HostedLisp.Text.CharName
import HostedLisp.Text.Integer

/-!
# Regular expressions

Whether a text is a regular expression, and why not if it is none. Nothing is matched here: a
pattern is a value that is written down and passed on.

- `Regex.Failure`: why a text is no pattern; the message names a position.
- `Regex.Piece`: a part of a pattern as far as later parts depend on it, with its `width`.
- `Regex.check`: check a pattern, and give the flags it sets for itself.
-/

namespace HostedLisp.Regex

/-- Why a text is no pattern. -/
inductive Failure where
  | bad (message : String)
  /-- A count that is out of proportion. -/
  | hugeCount
  /-- Flags that exclude each other. -/
  | flagClash
  deriving DecidableEq, Repr

/-- The least and the greatest number of characters that something matches. -/
abbrev Width := Nat × Nat

/-- Longer than anything. -/
def maxWidth : Nat := Nat.pow 2 64

/-- The count that stands for "without bound". -/
def maxRepeat : Nat := 4294967295

/-- A part of a pattern. -/
inductive Piece where
  /-- One character. -/
  | unit
  /-- A position, such as the start of a line. -/
  | anchor
  | repeated (width : Width)
  /-- A group; `inert` if it neither captures nor sets flags. -/
  | group (inert : Bool) (width : Width)
  | other (width : Width)

/-- How much a part matches. -/
def Piece.width : Piece → Width
  | unit => (1, 1)
  | anchor => (0, 0)
  | repeated w | group _ w | other w => w

def totalWidth (ps : List Piece) : Width :=
  let (lo, hi) := ps.foldl (fun (lo, hi) p => (lo + p.width.1, hi + p.width.2)) ((0, 0) : Width)
  (min lo maxWidth, min hi maxWidth)

/-- What a repetition matches. -/
def repeatWidth (w : Width) (lo hi : Nat) : Width :=
  (w.1 * lo, if hi = maxRepeat ∧ w.2 ≠ 0 then maxWidth else w.2 * hi)

/-- The state of checking: the place in the text and what is known of its groups. -/
structure State where
  text : Array Char
  index : Nat := 0
  /-- The token at hand: a character, or a backslash with the character after it. -/
  token : Option (List Char) := none
  flags : List Char := []
  names : List (String × Nat) := []
  /-- The widths of the groups so far; open ones have none yet. -/
  widths : Array (Option Width) := #[none]
  /-- The number of groups before the look-behind that is being read. -/
  behind : Option Nat := none
  /-- Group numbers that conditions refer to, with their positions. -/
  conditions : List (Nat × Nat) := []
  looseBehind : Bool := false

abbrev Check := StateT State (Except Failure)

/-- The text of a failure at a position. -/
def located (text : Array Char) (message : String) (pos : Int) : Failure :=
  let shown := message ++ " at position " ++ decimal pos
  if text.contains '\n' then
    let before := text.toList.take pos.toNat
    let line := (before.filter (· == '\n')).length + 1
    let column := pos - (Int.ofNat before.length - 1
      - Int.ofNat (before.reverse.takeWhile (· ≠ '\n')).length)
    .bad (shown ++ " (line " ++ Nat.repr line ++ ", column " ++ decimal column ++ ")")
  else .bad shown
where
  /-- A number in decimal. -/
  decimal (n : Int) : String := Text.decimal n

/-- The position of the token at hand. -/
def tell : Check Nat := do
  let s ← get
  return s.index - (s.token.map List.length).getD 0

/-- Fail some way before the token at hand. -/
def failBefore {α : Type} (message : String) (offset : Nat) : Check α := do
  let s ← get
  throw (located s.text message (Int.ofNat (← tell) - Int.ofNat offset))

def fail {α : Type} (message : String) : Check α := failBefore message 0

def advance : Check Unit := do
  let s ← get
  match s.text[s.index]? with
  | none => set { s with token := none }
  | some '\\' =>
    match s.text[s.index + 1]? with
    | none => throw (located s.text "bad escape (end of pattern)" (Int.ofNat s.text.size - 1))
    | some c => set { s with token := some ['\\', c], index := s.index + 2 }
  | some c => set { s with token := some [c], index := s.index + 1 }

/-- The token at hand, moving on. -/
def take : Check (Option (List Char)) := do
  let t := (← get).token
  advance
  return t

/-- Move on if the token at hand is the given character. -/
def accept (c : Char) : Check Bool := do
  if (← get).token = some [c] then
    advance
    return true
  else return false

/-- Go to a position. -/
def seek (index : Nat) : Check Unit := do
  modify fun s => { s with index := index }
  advance

/-- At most `n` tokens that are single characters of a class. -/
def takeChars (p : Char → Bool) : (n : Nat) → Check (List Char)
  | 0 => return []
  | n + 1 => do
    match (← get).token with
    | some [c] =>
      if p c then
        advance
        return c :: (← takeChars p n)
      else return []
    | _ => return []

/-- A name up to its terminator. -/
def takeName (terminator : Char) (what : String) (acc : List Char) :
    (fuel : Nat) → Check (List Char)
  | 0 => return acc
  | fuel + 1 => do
    match ← take with
    | none =>
      if acc.isEmpty then fail ("missing " ++ what)
      else failBefore ("missing " ++ terminator.toString ++ ", unterminated name") acc.length
    | some t =>
      if t = [terminator] then
        if acc.isEmpty then failBefore ("missing " ++ what) 1 else return acc
      else takeName terminator what (acc ++ t) fuel

def isOctal (c : Char) : Bool := '0' ≤ c && c ≤ '7'

/-- Decimal digits of ASCII. -/
def isDecimalDigit (c : Char) : Bool := '0' ≤ c && c ≤ '9'

def isLetter (c : Char) : Bool := ('a' ≤ c && c ≤ 'z') || ('A' ≤ c && c ≤ 'Z')

/-- Whether a text can name a group. -/
def isIdentifier : List Char → Bool
  | [] => false
  | c :: cs =>
    let start := fun c : Char => isLetter c || c == '_' || c.toNat ≥ 170
    start c && cs.all fun c => start c || isDecimalDigit c

/-- What an escape stands for inside a set or outside: a character code, a class or something
else. -/
inductive Meaning where
  | literal (code : Nat)
  | charClass
  | piece (p : Piece)

/-- The characters of the escapes with a letter for a control. -/
def controlEscape? : Char → Option Nat
  | 'a' => some 7
  | 'b' => some 8
  | 'f' => some 12
  | 'n' => some 10
  | 'r' => some 13
  | 't' => some 9
  | 'v' => some 11
  | '\\' => some 92
  | _ => none

def valueOf (base : Nat) (digits : List Char) : Nat :=
  Text.ofDigits base (digits.filterMap Text.digitValue?)

/-- An escape with a fixed number of hexadecimal digits. -/
def hexEscape (c : Char) (width : Nat) : Check Meaning := do
  let digits ← takeChars Text.isHexDigit width
  let escape := ['\\', c] ++ digits
  if digits.length ≠ width then
    failBefore ("incomplete escape " ++ String.ofList escape) escape.length
  else
    let code := valueOf 16 digits
    if code > 0x10ffff then failBefore ("bad escape " ++ String.ofList escape) escape.length
    else return .literal code

/-- An escape that gives a character by its name. -/
def nameEscape (fuel : Nat) : Check Meaning := do
  if ← accept '\x7b' then
    let name ← takeName '\x7d' "character name" [] fuel
    match Text.charNamed? (String.ofList name) with
    | some c => return .literal c.toNat
    | none =>
      failBefore ("undefined character name " ++ Text.quote (String.ofList name)) (name.length + 4)
  else fail "missing \x7b"

/-- The escapes that mean the same inside and outside a set. -/
def commonEscape (fuel : Nat) (c : Char) : Check (Option Meaning) := do
  match c with
  | 'x' => return some (← hexEscape c 2)
  | 'u' => return some (← hexEscape c 4)
  | 'U' => return some (← hexEscape c 8)
  | 'N' => return some (← nameEscape fuel)
  | _ => return none

/-- An escape with octal digits. -/
def octalEscape (digits : List Char) : Check Meaning := do
  let code := valueOf 8 digits
  if code > 0o377 then
    failBefore ("octal escape value \\" ++ String.ofList digits ++ " outside of range 0-0o377")
      (digits.length + 1)
  else return .literal code

/-- A letter has a meaning of its own; anything else stands for itself. -/
def selfEscape (c : Char) : Check Meaning := do
  if isLetter c then failBefore ("bad escape \\" ++ c.toString) 2 else return .literal c.toNat

/-- An escape inside a set. -/
def classEscape (fuel : Nat) (c : Char) : Check Meaning := do
  match controlEscape? c with
  | some code => return .literal code
  | none =>
    if c ∈ ['d', 'D', 's', 'S', 'w', 'W'] then return .charClass
    else match ← commonEscape fuel c with
      | some m => return m
      | none =>
        if isOctal c then octalEscape (c :: (← takeChars isOctal 2))
        else if isDecimalDigit c then failBefore ("bad escape \\" ++ c.toString) 2
        else selfEscape c

/-- Look-behinds must not refer to groups of their own. -/
def checkBehind (g : Nat) : Check Unit := do
  let s ← get
  match s.behind with
  | none => return ()
  | some n =>
    if (s.widths[g]?).join.isNone then fail "cannot refer to an open group"
    else if g ≥ n then fail "cannot refer to group defined in the same lookbehind subpattern"

/-- What a closed group matches once more. -/
def backReference (g offset : Nat) : Check Piece := do
  match ((← get).widths[g]?).join with
  | none => failBefore "cannot refer to an open group" offset
  | some w =>
    checkBehind g
    return .other w

/-- A reference to a group by number. -/
def groupReference (digits : List Char) : Check Meaning := do
  let g := valueOf 10 digits
  if g < (← get).widths.size then return .piece (← backReference g (digits.length + 1))
  else failBefore ("invalid group reference " ++ Nat.repr g) digits.length

/-- An escape outside a set. -/
def escape (fuel : Nat) (c : Char) : Check Meaning := do
  if c ∈ ['A', 'b', 'B', 'Z'] then return .piece .anchor
  else if c ∈ ['d', 'D', 's', 'S', 'w', 'W'] then return .charClass
  else match controlEscape? c with
    | some code => return .literal code
    | none =>
      match ← commonEscape fuel c with
      | some m => return m
      | none =>
        if c = '0' then
          return .literal (valueOf 8 (← takeChars isOctal 2))
        else if isDecimalDigit c then
          match ← takeChars isDecimalDigit 1 with
          | [d] =>
            if isOctal c && isOctal d then
              match ← takeChars isOctal 1 with
              | [e] => octalEscape [c, d, e]
              | _ => groupReference [c, d]
            else groupReference [c, d]
          | _ => groupReference [c]
        else selfEscape c

/-- A set of characters after its opening bracket, which stood at `start`. -/
def charSet (start : Nat) : (fuel : Nat) → (empty : Bool) → Check Unit
  | 0, _ => return ()
  | fuel + 1, empty => do
    let unterminated : Check Unit := do failBefore "unterminated character set" ((← tell) - start)
    let meaning (t : List Char) : Check Meaning := do
      match t with
      | ['\\', c] => classEscape fuel c
      | c :: _ => return .literal c.toNat
      | [] => return .charClass
    match ← take with
    | none => unterminated
    | some t =>
      if t = [']'] ∧ !empty then return ()
      else
        let low ← meaning t
        if ← accept '-' then
          match ← take with
          | none => unterminated
          | some u =>
            if u = [']'] then return ()
            else
              let high ← meaning u
              let clash : Check Unit := do
                failBefore ("bad character range " ++ String.ofList t ++ "-" ++ String.ofList u)
                  (t.length + 1 + u.length)
              match low, high with
              | .literal a, .literal b => if b < a then clash else charSet start fuel false
              | _, _ => clash
        else charSet start fuel false

/-- The letters that set flags. -/
def isFlag (c : Char) : Bool := c ∈ ['i', 'L', 'm', 's', 'x', 'a', 't', 'u']

/-- Flags of which one only can be on. -/
def isTypeFlag (c : Char) : Bool := c ∈ ['a', 'L', 'u']

/-- The next flag, or one of the marks that can stand there. -/
def nextFlag (marks : List Char) (what : String) : Check Char := do
  match ← take with
  | none => fail what
  | some [c] =>
    if c ∈ marks ∨ isFlag c then return c
    else failBefore (if isLetter c || c.toNat ≥ 170 then "unknown flag" else what) 1
  | some t => failBefore what t.length

/-- Flags to turn on, up to the mark after them. -/
def flagsOn (on : List Char) (c : Char) : (fuel : Nat) → Check (List Char × Char)
  | 0 => return (on, ':')
  | fuel + 1 => do
    if c = 'L' then fail "bad inline flags: cannot use 'L' flag with a str pattern"
    else if isTypeFlag c ∧ on.any (fun d => isTypeFlag d && d ≠ c) then
      fail "bad inline flags: flags 'a', 'u' and 'L' are incompatible"
    else
      let d ← nextFlag [')', '-', ':'] "missing -, : or )"
      if isFlag d then flagsOn (on ++ [c]) d fuel else return (on ++ [c], d)

/-- Flags to turn off, up to the colon after them. -/
def flagsOff (off : List Char) (c : Char) : (fuel : Nat) → Check (List Char)
  | 0 => return off
  | fuel + 1 => do
    if isTypeFlag c then fail "bad inline flags: cannot turn off flags 'a', 'u' and 'L'"
    else
      let d ← nextFlag [':'] "missing :"
      if isFlag d then flagsOff (off ++ [c]) d fuel else return off ++ [c]

/-- Inline flags; `none` if they hold for the whole pattern. -/
def inlineFlags (fuel : Nat) (c : Char) : Check (Option (List Char × List Char)) := do
  let (on, mark) ← if c = '-' then pure ([], '-') else flagsOn [] c fuel
  if mark = ')' then
    modify fun s => { s with flags := s.flags ++ on }
    return none
  else if 't' ∈ on then failBefore "bad inline flags: cannot turn on global flag" 1
  else
    let off ← if mark = '-' then do flagsOff [] (← nextFlag [] "missing flag") fuel else pure []
    if 't' ∈ off then failBefore "bad inline flags: cannot turn off global flag" 1
    else if on.any (· ∈ off) then failBefore "bad inline flags: flag turned on and off" 1
    else return some (on, off)

/-- Open a group, with a name or without. -/
def openGroup (name : Option (List Char)) : Check Nat := do
  let s ← get
  let g := s.widths.size
  match name with
  | none => set { s with widths := s.widths.push none }
  | some cs =>
    let n := String.ofList cs
    match s.names.lookup n with
    | some old =>
      failBefore ("redefinition of group name " ++ Text.quote n ++ " as group " ++ Nat.repr g
        ++ "; was group " ++ Nat.repr old) (cs.length + 1)
    | none => set { s with widths := s.widths.push none, names := s.names ++ [(n, g)] }
  return g

/-- A group name that does not do. -/
def refuseName {α : Type} (why : String) (name : List Char) : Check α :=
  failBefore (why ++ " group name " ++ Text.quote (String.ofList name)) (name.length + 1)

/-- A group name must be an identifier. -/
def checkName (name : List Char) : Check Unit := do
  unless isIdentifier name do refuseName "bad character in" name

/-- The bounds of a counted repetition after its brace; `none` if it is none. -/
def countBounds (fuel : Nat) : Check (Option (List Char × List Char)) := do
  let lo ← takeChars isDecimalDigit fuel
  let hi ← if ← accept ',' then takeChars isDecimalDigit fuel else pure lo
  if ← accept '\x7d' then return some (lo, hi) else return none

/-- The value of a count. -/
def count (digits : List Char) (absent : Nat) : Check Nat := do
  if digits.isEmpty then return absent
  else
    let n := valueOf 10 digits
    if n ≥ maxRepeat then throw .hugeCount else return n

/-- Repeat the last part; `start` is the position after the mark of the repetition. -/
def repeatLast (start : Nat) (parts : List Piece) (lo hi : Nat) : Check (List Piece) := do
  let here ← tell
  match parts.getLast? with
  | none | some .anchor => failBefore "nothing to repeat" (here - start + 1)
  | some (.repeated _) => failBefore "multiple repeat" (here - start + 1)
  | some p =>
    unless ← accept '?' do
      let _ ← accept '+'
    return parts.dropLast ++ [.repeated (repeatWidth p.width lo hi)]

/-- The condition of a conditional group: the number of the group it asks for. -/
def condition (name : List Char) : Check Nat := do
  let s ← get
  if isIdentifier name then
    match s.names.lookup (String.ofList name) with
    | some g => return g
    | none => refuseName "unknown" name
  else
    match Text.integer name 10 with
    | .ok n =>
      if n < 0 then refuseName "bad character in" name
      else if n = 0 then failBefore "bad group number" (name.length + 1)
      else
        let pos := (← tell) - name.length - 1
        if (s.conditions.lookup n.toNat).isNone then
          modify fun s => { s with conditions := s.conditions ++ [(n.toNat, pos)] }
        return n.toNat
    | .error _ => refuseName "bad character in" name

def skipComment (start : Nat) : (fuel : Nat) → Check Unit
  | 0 => return ()
  | fuel + 1 => do
    if (← get).token.isNone then failBefore "missing ), unterminated comment" ((← tell) - start)
    else if (← take) = some [')'] then return ()
    else skipComment start fuel

def skipLine : (fuel : Nat) → Check Unit
  | 0 => return ()
  | fuel + 1 => do
    match ← take with
    | none | some ['\n'] => return ()
    | _ => skipLine fuel

/-- A closing parenthesis is due for the group that started at `start`. -/
def expectClose (start : Nat) : Check Unit := do
  unless ← accept ')' do
    failBefore "missing ), unterminated subpattern" ((← tell) - start)

mutual

def alternatives : (fuel : Nat) → (verbose nested first : Bool) → Check Width
  | 0, _, _, _ => return (0, 0)
  | fuel + 1, verbose, nested, first => do
    let w := totalWidth (← sequence fuel verbose first [])
    if ← accept '|' then
      let s ← get
      let verbose := if nested then verbose else decide ('x' ∈ s.flags)
      let v ← alternatives fuel verbose nested false
      return (min w.1 v.1, max w.2 v.2)
    else return w

/-- Parts in a row, after those already found. -/
def sequence : (fuel : Nat) → (verbose first : Bool) → List Piece → Check (List Piece)
  | 0, _, _, parts => return parts
  | fuel + 1, verbose, first, parts => do
    match (← get).token with
    | none | some ['|'] | some [')'] => return parts
    | some t =>
      advance
      let more (p : Piece) := sequence fuel verbose first (parts ++ [p])
      match t with
      | ['\\', c] =>
        match ← escape fuel c with
        | .piece p => more p
        | _ => more .unit
      | [c] =>
        if verbose ∧ c ∈ [' ', '\t', '\n', '\r', '\x0b', '\x0c'] then
          sequence fuel verbose first parts
        else if verbose ∧ c = '#' then
          skipLine fuel
          sequence fuel verbose first parts
        else match c with
          | '[' =>
            let start := (← tell) - 1
            let _ ← accept '^'
            charSet start fuel true
            more .unit
          | '?' => sequence fuel verbose first (← repeatLast (← tell) parts 0 1)
          | '*' => sequence fuel verbose first (← repeatLast (← tell) parts 0 maxRepeat)
          | '+' => sequence fuel verbose first (← repeatLast (← tell) parts 1 maxRepeat)
          | '\x7b' =>
            let here ← tell
            if (← get).token = some ['\x7d'] then more .unit
            else
              match ← countBounds fuel with
              | none =>
                seek here
                more .unit
              | some (lo, hi) =>
                let least ← count lo 0
                let most ← count hi maxRepeat
                if !hi.isEmpty && most < least then
                  failBefore "min repeat greater than max repeat" ((← tell) - here)
                else sequence fuel verbose first (← repeatLast here parts least most)
          | '(' =>
            let start := (← tell) - 1
            match ← group fuel verbose (first && parts.isEmpty) start with
            | (some p, verbose) => sequence fuel verbose first (parts ++ [p])
            | (none, verbose) => sequence fuel verbose first parts
          | '^' | '$' => more .anchor
          | _ => more .unit
      | _ => sequence fuel verbose first parts

/-- A group after its opening parenthesis, which stood at `start`. Comments and global flags leave
no part behind; the latter may change how blanks are read. -/
def group : (fuel : Nat) → (verbose first : Bool) → (start : Nat) → Check (Option Piece × Bool)
  | 0, verbose, _, _ => return (none, verbose)
  | fuel + 1, verbose, first, start => do
    if ← accept '?' then
      match ← take with
      | none => fail "unexpected end of pattern"
      | some ['P'] =>
        if ← accept '<' then
          let name ← takeName '>' "group name" [] fuel
          checkName name
          capture fuel verbose start (some name)
        else if ← accept '=' then
          let name ← takeName ')' "group name" [] fuel
          checkName name
          let s ← get
          match s.names.lookup (String.ofList name) with
          | none => refuseName "unknown" name
          | some g => return (some (← backReference g (name.length + 1)), verbose)
        else
          match ← take with
          | none => fail "unexpected end of pattern"
          | some t => failBefore ("unknown extension ?P" ++ String.ofList t) (t.length + 2)
      | some [':'] => plain fuel verbose start true
      | some ['>'] => plain fuel verbose start false
      | some ['#'] =>
        skipComment start fuel
        return (none, verbose)
      | some ['='] | some ['!'] =>
        let _ ← alternatives fuel verbose true false
        expectClose start
        return (some (.other (0, 0)), verbose)
      | some ['<'] =>
        match ← take with
        | none => fail "unexpected end of pattern"
        | some t =>
          if t = ['='] ∨ t = ['!'] then
            let outer := (← get).behind
            modify fun s => { s with behind := some (outer.getD s.widths.size) }
            let w ← alternatives fuel verbose true false
            modify fun s => { s with behind := outer }
            expectClose start
            modify fun s => { s with looseBehind := s.looseBehind || w.1 ≠ w.2 }
            return (some (.other (0, 0)), verbose)
          else failBefore ("unknown extension ?<" ++ String.ofList t) (t.length + 2)
      | some ['('] =>
        let name ← takeName ')' "group name" [] fuel
        let g ← condition name
        checkBehind g
        let yes := totalWidth (← sequence fuel verbose false [])
        let no ← if ← accept '|' then do
            let no := totalWidth (← sequence fuel verbose false [])
            if (← get).token = some ['|'] then
              fail "conditional backref with more than two branches"
            else pure no
          else pure (0, 0)
        expectClose start
        return (some (.other (min yes.1 no.1, max yes.2 no.2)), verbose)
      | some [c] =>
        if isFlag c ∨ c = '-' then
          match ← inlineFlags fuel c with
          | none =>
            let s ← get
            if first then return (none, 'x' ∈ s.flags)
            else failBefore "global flags not at the start of the expression" ((← tell) - start)
          | some (on, off) =>
            let w ← alternatives fuel ((verbose || 'x' ∈ on) && !('x' ∈ off)) true false
            expectClose start
            return (some (.group (on.isEmpty && off.isEmpty) w), verbose)
        else failBefore ("unknown extension ?" ++ c.toString) 2
      | some t => failBefore ("unknown extension ?" ++ String.ofList t) (t.length + 1)
    else capture fuel verbose start none

/-- The contents of a group that is remembered. -/
def capture : (fuel : Nat) → (verbose : Bool) → (start : Nat) → Option (List Char) →
    Check (Option Piece × Bool)
  | 0, verbose, _, _ => return (none, verbose)
  | fuel + 1, verbose, start, name => do
    let g ← openGroup name
    let w ← alternatives fuel verbose true false
    expectClose start
    modify fun s => { s with widths := s.widths.set! g (some w) }
    return (some (.group false w), verbose)

/-- The contents of a group that is not remembered. -/
def plain : (fuel : Nat) → (verbose : Bool) → (start : Nat) → (inert : Bool) →
    Check (Option Piece × Bool)
  | 0, verbose, _, _ => return (none, verbose)
  | fuel + 1, verbose, start, inert => do
    let w ← alternatives fuel verbose true false
    expectClose start
    return (some (.group inert w), verbose)

end

def whole (fuel : Nat) : Check (List Char) := do
  advance
  let _ ← alternatives fuel false false true
  let s ← get
  if 'a' ∈ s.flags ∧ 'u' ∈ s.flags then throw .flagClash
  else if s.token.isSome then fail "unbalanced parenthesis"
  else
    match s.conditions.find? fun (g, _) => g ≥ s.widths.size with
    | some (g, pos) => throw (located s.text ("invalid group reference " ++ Nat.repr g) pos)
    | none =>
      if s.looseBehind then throw (.bad "look-behind requires fixed-width pattern")
      else return s.flags

/-- Check a pattern, and give the flags it sets for itself. -/
def check (pattern : String) : Except Failure (List Char) :=
  let text := pattern.toList.toArray
  let fuel := 6 * (text.size + 4)
  (whole fuel |>.run { text := text }).map (·.1)

/-- The flags of a pattern as they are shown, after the pattern. -/
def flagNames (flags : List Char) : List String :=
  [('t', "re.TEMPLATE"), ('i', "re.IGNORECASE"), ('m', "re.MULTILINE"), ('s', "re.DOTALL"),
    ('x', "re.VERBOSE"), ('a', "re.ASCII")].filterMap fun (c, n) =>
      if c ∈ flags then some n else none

/-- A pattern as it shows itself. -/
def shown (pattern : String) : String :=
  let quoted := String.ofList ((Text.quote pattern).toList.take 200)
  let flags := match check pattern with
    | .ok fs => flagNames fs
    | .error _ => []
  "re.compile(" ++ quoted ++ (if flags.isEmpty then "" else ", " ++ "|".intercalate flags) ++ ")"

end HostedLisp.Regex
