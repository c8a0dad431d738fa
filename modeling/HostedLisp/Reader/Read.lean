import HostedLisp.Reader.State

/-!
# Reading forms

- `Reader.string`, `Reader.character`, `Reader.regex`, `Reader.rawRegex`: literals.
- `Reader.form?`: the next form; `none` at the end of the text.
- `Reader.delimited`: the forms up to a closing delimiter.
- `Reader.readAll`: all forms of a text.
-/

namespace HostedLisp.Reader

open ReadM

/-! ## Literals -/

/-- The characters behind the letters of string escapes. -/
def stringEscape? : Char → Option Char
  | 't' => some '\t'
  | 'r' => some '\r'
  | 'n' => some '\n'
  | 'b' => some (Char.ofNat 8)
  | '\\' => some '\\'
  | '"' => some '"'
  | 'f' => some (Char.ofNat 12)
  | _ => none

/-- A code point by hexadecimal digits, after the letter that announces it. -/
def hexCode (letter : Char) (place : EscapePlace) (length : Nat) : ReadM Nat := do
  let c ← take
  match c with
  | some d =>
    if Text.isHexDigit d then codePoint (some d) 16 length true
    else failHere (.hexDigitExpected letter place c)
  | none => failHere (.hexDigitExpected letter place none)

/-- The code points of a string literal after its opening quote. -/
def stringCodes (acc : Array Nat) : (fuel : Nat) → ReadM (Array Nat)
  | 0 => outOfSteps
  | fuel + 1 => do
    match ← take with
    | none => fail .endInString
    | some '"' => return acc
    | some '\\' =>
      match ← take with
      | none => fail .endInString
      | some c =>
        match stringEscape? c with
        | some d => stringCodes (acc.push d.toNat) fuel
        | none =>
          if c = 'u' then stringCodes (acc.push (← hexCode 'u' .string 4)) fuel
          else if '0' ≤ c ∧ c ≤ '7' then
            let code ← codePoint (some c) 8 3 false
            if code > 255 then failHere (.octalString code) else stringCodes (acc.push code) fuel
          else failHere (.unsupportedEscape c)
    | some c => stringCodes (acc.push c.toNat) fuel

/-- A string literal after its opening quote. -/
def string : ReadM Value := do return .ofCodes (← stringCodes #[] (← fuel)).toList

/-- The characters with names. -/
def namedChar? : String → Option Char
  | "newline" => some '\n'
  | "space" => some ' '
  | "tab" => some '\t'
  | "backspace" => some (Char.ofNat 8)
  | "formfeed" => some (Char.ofNat 12)
  | "return" => some '\r'
  | _ => none

/-- A character literal after its backslash. -/
def character : ReadM Value := do
  match ← take with
  | none => failHere .endInCharacter
  | some c =>
    let cs ← token c
    let text := String.ofList cs
    if cs.length = 1 then return .str text
    else match namedChar? text with
      | some d => return .char d
      | none =>
        match cs with
        | 'u' :: _ =>
          match Token.codePoint? cs 1 4 16 with
          | none => failHere (.badCodePoint text)
          | some code =>
            if 0xd800 ≤ code ∧ code ≤ 0xdfff then failHere (.surrogate text)
            else return .ofCodes [code]
        | 'o' :: _ =>
          if cs.length > 4 then failHere (.octalTooLong text)
          else match Token.codePoint? cs 1 (cs.length - 1) 8 with
            | none => failHere (.badCodePoint text)
            | some code =>
              if code > 255 then failHere (.octalCharacter code) else return .ofCodes [code]
        | _ => failHere (.unsupportedCharacter text)

/-- The name between the braces of an escape. -/
def escapeName (acc : List Char) : (fuel : Nat) → ReadM (List Char)
  | 0 => outOfSteps
  | fuel + 1 => do
    match ← take with
    | none => failHere .endInName
    | some c =>
      if ('a' ≤ c ∧ c ≤ 'z') ∨ ('A' ≤ c ∧ c ≤ 'Z') ∨ c = '-' ∨ c = ' ' then
        escapeName (acc ++ [c]) fuel
      else if c = '"' then failHere .braceMissing
      else if c = '\x7d' then return acc
      else failHere (.nameCharacter c)

/-- A character by its name in braces. -/
def namedCode : ReadM Nat := do
  match ← take with
  | some '\x7b' =>
    let name := Text.strip (← escapeName [] (← fuel))
    if name.isEmpty then failHere .nameExpected
    else match Text.charNamed? (String.ofList name) with
      | some c => return c.toNat
      | none => failHere (.unknownName (String.ofList name))
  -- wording this failure fails itself
  | _ => fault .value

/-- A pattern that must be a regular expression. -/
def pattern (codes : Array Nat) : ReadM Value := do
  let text := String.ofList (codes.toList.map Char.ofNat)
  match Regex.check text with
  | .ok _ => return .regex text
  | .error (.bad reason) => failHere (.badRegex reason)
  | .error .hugeCount => fault .overflow
  | .error .flagClash => fault .value

/-- The characters behind the letters of escapes in patterns. -/
def regexEscape? (c : Char) : Option Nat :=
  match c with
  | '\\' | '"' => some c.toNat
  | 'a' => some 7
  | 'b' => some 8
  | 'f' => some 12
  | 'n' => some 10
  | 'r' => some 13
  | 't' => some 9
  | 'v' => some 11
  | _ => if c.toNat = 39 then some 39 else none

/-- The code points of a pattern after its opening quote. -/
def regexCodes (acc : Array Nat) : (fuel : Nat) → ReadM (Array Nat)
  | 0 => outOfSteps
  | fuel + 1 => do
    match ← take with
    | none => failHere .endInRegex
    | some '"' => return acc
    | some '\\' =>
      match ← take with
      | none => failHere .endInRegex
      | some c =>
        match regexEscape? c with
        | some code => regexCodes (acc.push code) fuel
        | none =>
          if c = 'u' then regexCodes (acc.push (← hexCode 'u' .regex 4)) fuel
          else if c = 'U' then regexCodes (acc.push (← hexCode 'U' .regex 8)) fuel
          else if c = 'x' then regexCodes (acc.push (← hexCode 'x' .regex 2)) fuel
          else if Text.isDigit c then regexCodes (acc.push (← codePoint (some c) 8 3 false)) fuel
          else if c = 'N' then regexCodes (acc.push (← namedCode)) fuel
          else regexCodes ((acc.push 92).push c.toNat) fuel
    | some c => regexCodes (acc.push c.toNat) fuel

/-- A pattern literal after its opening quote. -/
def regex : ReadM Value := do pattern (← regexCodes #[] (← fuel))

/-- The code points of a raw pattern. A `u` or `U` escapes after an odd number of backslashes;
`slashes` counts those since the last escape. -/
def rawCodes (acc : Array Nat) : (fuel slashes : Nat) → ReadM (Array Nat)
  | 0, _ => outOfSteps
  | fuel + 1, slashes => do
    match ← take with
    | none => failHere .endInRegex
    | some '"' => return acc
    | some '\\' =>
      let slashes := slashes + 1
      match ← take with
      | none => failHere .endInRegex
      | some c =>
        if c = 'u' ∧ slashes % 2 ≠ 0 then rawCodes (acc.push (← hexCode 'u' .regex 4)) fuel 0
        else if c = 'U' ∧ slashes % 2 ≠ 0 then
          rawCodes (acc.push (← hexCode 'U' .regex 8)) fuel 0
        else
          rawCodes ((acc.push 92).push c.toNat) fuel (if c = '\\' then slashes + 1 else slashes)
    | some c => rawCodes (acc.push c.toNat) fuel slashes

/-- A raw pattern literal after the letter that announces it. -/
def rawRegex : ReadM Value := do
  match ← take with
  | none => failHere .endBeforeRegex
  | some '"' => pattern (← rawCodes #[] (← fuel) 0)
  | some _ => failHere .regexExpected

/-! ## Function literals -/

/-- The parameter for a placeholder. -/
def parameter (n : Value) : ReadM Value := do
  if n.eqB (.int (-1)) then return Value.sym "rest"
  else
    let id ← nextId
    let shown ← lift (n.shown .none)
    return .symbol (.ofText ("p" ++ shown ++ "__" ++ Nat.repr id ++ "#")) .nil

/-- The parameter that a placeholder stands for; the first use introduces it. -/
def placeholder (n : Value) : ReadM Value := do
  match (← get).placeholders with
  | none => throw (.signal .illegalState "arg literal not in #()")
  | some known =>
    match known.find? fun (k, _) => k.eqB n with
    | some (_, p) => return p
    | none =>
      let p ← parameter n
      modify fun s => { s with placeholders := some (known ++ [(n, p)]) }
      return p

/-- The greatest of the placeholders other than the rest, as the number to count to. -/
def lastPlaceholder? (known : List (Value × Value)) : Except Error (Option Int) := do
  let keys := (known.map (·.1)).filter fun k => !k.eqB (.int (-1))
  match keys with
  | [] => return none
  | k :: ks =>
    let value (v : Value) : Int := (v.asInt?).getD 0
    let top := ks.foldl (fun m v => if value v ≥ value m then v else m) k
    match top with
    | .int n => return some n
    -- only numerals can be counted to
    | _ => fault .value

/-- The parameters of a function literal: one for each position, and the rest. -/
def parameters (known : List (Value × Value)) : ReadM (List Value) := do
  match ← lift (lastPlaceholder? known) with
  | none => return []
  | some top =>
    let find (n : Int) : Option Value := (known.find? fun (k, _) => k.eqB (.int n)).map (·.2)
    let positional ← (List.range top.toNat).mapM fun (i : Nat) => do
      match find (Int.ofNat i + 1) with
      | some p => return p
      | none => parameter (.int (Int.ofNat i + 1))
    match find (-1) with
    | some rest => return positional ++ [Value.sym "&", rest]
    | none => return positional

/-! ## Forms -/

/-- What a macro character gives: a form, or nothing but skipped text. -/
inductive Reading where
  | form (v : Value)
  | skipped

/-- Take characters up to the end of a line. -/
def skipLine : (fuel : Nat) → ReadM Unit
  | 0 => outOfSteps
  | fuel + 1 => do
    match ← take with
    | none | some '\n' | some '\r' => return ()
    | some _ => skipLine fuel

/-- The first character that is not blank. -/
def skipBlanks : (fuel : Nat) → ReadM (Option Char)
  | 0 => outOfSteps
  | fuel + 1 => do
    match ← take with
    | none => return none
    | some c => if Text.isBlank c then skipBlanks fuel else return some c

/-- Metadata as it is written becomes a map. -/
def metadata (v : Value) : ReadM Value :=
  match v with
  | .str _ | .wide _ | .numeral _ | .symbol .. => lift (Value.mapOf [(Value.kw "tag", v)])
  | .keyword _ => lift (Value.mapOf [(v, Value.kw "T")])
  | .hashMap .. | .arrayMap .. | .treeMap .. => return v
  | _ => failHere .metadataKind

mutual

/-- The next form; `none` at the end of the text. -/
def form? : (fuel : Nat) → ReadM (Option Value)
  | 0 => outOfSteps
  | n + 1 => do
    match ← skipBlanks (← fuel) with
    | none => return none
    | some c =>
      if Text.isDigit c then return some (← number c)
      else if isMacro c then
        match ← macroForm n c with
        | .form v => return some v
        | .skipped => form? n
      else if c = '+' ∨ c = '-' then
        let d ← take
        back
        if (d.map Text.isDigit).getD false then return some (← number c)
        else return some (← interpret (← token c))
      else return some (← interpret (← token c))

/-- The next form, which must be there. -/
def form : (fuel : Nat) → ReadM Value
  | 0 => outOfSteps
  | n + 1 => do
    match ← form? n with
    | some v => return v
    | none => failHere .endOfInput

/-- What follows a macro character. -/
def macroForm : (fuel : Nat) → Char → ReadM Reading
  | 0, _ => outOfSteps
  | n + 1, c => do
    match c with
    | '"' => return .form (← string)
    | '(' =>
      let line ← line
      let xs ← delimited n ')'
      return .form (← lift ((Value.listOf xs).withInfo (Value.lineInfo line)))
    | '[' => return .form (Value.vectorOf (← delimited n ']'))
    | '\x7b' => return .form (← lift (Value.mapFromArgs (← delimited n '\x7d')))
    | ')' | ']' | '\x7d' => fail (.unmatched c (← line))
    | ';' =>
      skipLine (← fuel)
      return .skipped
    | '#' => dispatch n
    | '^' => return .form (← withMetadata n)
    | '%' => return .form (← argument n)
    | '~' =>
      match ← take with
      | none => failHere .endInUnquote
      | some '@' => return .form (Value.listOf [Value.sym "~@", ← form n])
      | some _ =>
        back
        return .form (Value.listOf [Value.sym "~", ← form n])
    | '\\' => return .form (← character)
    | '@' => return .form (Value.listOf [Value.sym "deref", ← form n])
    | _ =>
      -- the two quotes are left
      if c.toNat = 39 then return .form (Value.listOf [Value.sym "quote", ← form n])
      else
        let outer := (← get).gensyms
        modify fun s => { s with gensyms := some [] }
        let r ← tryCatch (do
            let quoted ← form n
            let built ← SyntaxQuote.quote Value.depthLimit quoted
            pure (Except.ok (ε := Error) built))
          fun e => pure (.error e)
        modify fun s => { s with gensyms := outer }
        return .form (← lift r)

/-- What follows a hash sign. -/
def dispatch : (fuel : Nat) → ReadM Reading
  | 0 => outOfSteps
  | n + 1 => do
    match ← take with
    | none => failHere .endInCharacter
    | some c =>
      match c with
      | '"' => return .form (← regex)
      | '\x7b' =>
        let xs ← delimited n '\x7d'
        let env ← read
        return .form (← lift (Value.setWithCheck env.view env.emptySet xs))
      | '!' =>
        skipLine (← fuel)
        return .skipped
      | '_' =>
        let _ ← form n
        return .skipped
      | '(' => return .form (← function n)
      | '^' => return .form (← withMetadata n)
      | 'r' => return .form (← rawRegex)
      | '=' => failHere .evalUnsupported
      | _ =>
        if c.toNat = 39 then
          let line ← line
          let v ← form n
          return .form (← lift ((Value.listOf [Value.sym "var", v]).withInfo (Value.lineInfo line)))
        else failHere (.noDispatch c)

/-- A form after its metadata. -/
def withMetadata : (fuel : Nat) → ReadM Value
  | 0 => outOfSteps
  | n + 1 => do
    let data ← metadata (← form n)
    let v ← form n
    if v.takesInfo then lift (v.withInfo data) else fail .metadataTarget

/-- A placeholder inside a function literal, a symbol outside. -/
def argument : (fuel : Nat) → ReadM Value
  | 0 => outOfSteps
  | n + 1 => do
    if (← get).placeholders.isNone then interpret (← token '%')
    else
      let c ← take
      back
      if (c.map fun c => Text.isBlank c || isTerminating c).getD true then placeholder (.int 1)
      else
        match ← form n with
        | .symbol s _ =>
          if s = .plain "&" then placeholder (.int (-1)) else failHere .badPlaceholder
        | .int k => placeholder (.int k)
        | .bool b => placeholder (.bool b)
        | _ => failHere .badPlaceholder

/-- A function literal after its opening parenthesis. -/
def function : (fuel : Nat) → ReadM Value
  | 0 => outOfSteps
  | n + 1 => do
    if (← get).placeholders.isSome then
      throw (.signal .illegalState "Nested #()s are not allowed")
    else
      modify fun s => { s with placeholders := some [] }
      let r ← tryCatch (do
          back
          let body ← form n
          let ps ← parameters ((← get).placeholders.getD [])
          pure (Except.ok (ε := Error) (Value.listOf [Value.sym "fn", Value.vectorOf ps, body])))
        fun e => pure (.error e)
      modify fun s => { s with placeholders := none }
      lift r

/-- The forms up to a closing delimiter. -/
def delimited : (fuel : Nat) → (close : Char) → ReadM (List Value)
  | 0, _ => outOfSteps
  | n + 1, close => do
    let first ← line
    delimitedFrom n close first #[]

/-- The forms up to a closing delimiter, after those already read. -/
def delimitedFrom : (fuel : Nat) → (close : Char) → (first : Int) → Array Value →
    ReadM (List Value)
  | 0, _, _, _ => outOfSteps
  | n + 1, close, first, acc => do
    match ← skipBlanks (← fuel) with
    | none => fail (.endInList first)
    | some c =>
      if c = close then return acc.toList
      else if isMacro c then
        match ← macroForm n c with
        | .form .nil | .skipped => delimitedFrom n close first acc
        | .form v => delimitedFrom n close first (acc.push v)
      else
        back
        delimitedFrom n close first (acc.push (← form n))

end

/-- More steps than reading what is left of a text takes. -/
def enough (c : Cursor) : Nat := 8 * (c.remaining + 4)

/-- The next form of the text; `none` at its end. -/
def next? : ReadM (Option Value) := do form? (enough (← get).cursor)

/-- Forms read one after the other, and the failure that ended it if one did. -/
structure Readings where
  forms : List Value
  failure : Option Error
  state : ReadState

/-- Read on until the end of the text or a failure. With `strict`, the end is a failure too. -/
def readOn (strict : Bool) (env : ReadEnv) (acc : Array Value) : (fuel : Nat) → ReadState → Readings
  | 0, st => { forms := acc.toList, failure := none, state := st }
  | fuel + 1, st =>
    match next?.run env st with
    | .ok (some v) st => readOn strict env (acc.push v) fuel st
    | .ok none st =>
      { forms := acc.toList
        failure := if strict then some (.reading .endOfInput (some st.cursor.line)) else none
        state := st }
    | .error e st => { forms := acc.toList, failure := some e, state := st }

def readAll (strict : Bool) (env : ReadEnv) (s : String) (lastId : Nat) : Readings :=
  readOn strict env #[] (s.length + 1) { cursor := .ofString s, lastId := lastId }

end HostedLisp.Reader
