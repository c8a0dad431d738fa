import HostedLisp.Library.Sequences
import HostedLisp.Repl.Loop

/-!
# The library: parts of the reader

Each part of the reader can be called on its own, on a token or at the start of a text.

- `Library.number`, `Library.symbolOrKeyword`, `Library.interpret`, `Library.codePoint`: tokens.
- `Library.atStart`: run a part of the reader on a text, and tell how far it got.
- `Library.syntaxQuote`, `Library.quoteIn`: forms that build forms.
- `Library.parameters`: the parameter list of a function.
-/

namespace HostedLisp.Library

open SessionM

abbrev textOf := Make.namePart

/-- What a part of the reader gives that reads nothing. -/
def onNothing (current : CurrentNamespace) (x : ReadM Value) : SessionM Value := do
  return (← runReader current { cursor := .ofString "" } x).1

/-! ## Tokens -/

/-- A failure of reading a numeral, as the failure of the arithmetic behind it. -/
def numeralFault : ReadError → Error
  | .zeroDenominator _ => .fault .zeroDivision
  | _ => .fault .value

/-- The number that a token is, nil if it is none. -/
def number (v : Value) : SessionM Value := do
  match Token.number? (← textOf v).toList with
  | .ok n => return n.getD .nil
  | .error e => throw (numeralFault e)

/-- The symbol or keyword that a token is, nil if it is none. -/
def symbolOrKeyword (current : CurrentNamespace) (v : Value) : SessionM Value := do
  let token ← textOf v
  match Token.name? token.toList with
  | none => return .nil
  | some (.symbol n) => return .symbol n .nil
  | some (.keyword n) => return .keyword n
  | some (.ofCurrentNamespace n) => do
    let (here, _) ← runReader current { cursor := .ofString "" } ReadM.currentName
    return .keyword ⟨some here, n⟩

/-- The value of a token that is no number. -/
def interpret (current : CurrentNamespace) (v : Value) : SessionM Value := do
  let _ ← lift v.hash
  let token ← textOf v
  onNothing current (ReadM.interpret token.toList)

/-- Whether a value is a character that starts a form of its own. -/
def isMacro (v : Value) : SessionM Value := do
  let _ ← lift v.hash
  match v with
  | .str s =>
    match s.toList with
    | [c] => return .bool (ReadM.isMacro c)
    | _ => return .bool false
  | _ => return .bool false

/-- Whether a value is a macro character that ends a token. -/
def isTerminating (v : Value) : SessionM Value := do
  match v with
  | .str "#" | .str "'" => return .bool false
  | v => isMacro v

/-- The character whose code a token spells after so many other characters. -/
def codePoint (args : List Value) : SessionM Value := do
  match args with
  | [token, offset, length, base] =>
    let s ← textOf token
    let offset ← intOf offset
    let failure : Error := .signal .unicode (ReadError.badCodePoint s).message
    if (s.length : Int) ≠ offset + (← intOf length) then throw failure
    else
      let start := if offset < 0 then ((s.length : Int) + offset).toNat else offset.toNat
      let digits := s.toList.drop start
      match Token.codePoint? digits 0 digits.length ((base.asInt?).getD 0).toNat with
      | some n => return .ofCodes [n]
      | none => throw failure
  | _ => fault .type

/-! ## At the start of a text -/

/-- What a part of the reader gives on a text, how far it got, and in which line that is. -/
def atStart (v : Value) (x : ReadM Value) : SessionM Value := do
  let (r, st) ← runReader .unbound { cursor := .ofString (← textOf v) } x
  return .array [r, .int ((st.cursor.pos : Int) - 1), .int st.cursor.line]

/-- The forms up to a closing delimiter. -/
def delimited (text close : Value) : SessionM Value := do
  let c := match (← textOf close).toList with
    | [c] => c
    -- no single character can end the list
    | _ => Char.ofNat 0
  atStart text do return .array (← Reader.delimited (Reader.enough (← get).cursor) c)

/-- A character given by its name in braces. -/
def namedCharacter (text : Value) : SessionM Value :=
  atStart text (do return .ofCodes [← Reader.namedCode])

def token (text : Value) : SessionM Value :=
  atStart text do
    match ← ReadM.take with
    | some c => return .str (String.ofList (← ReadM.token c))
    | none =>
      let _ ← ReadM.take
      ReadM.back
      return .str ""

/-- The number that starts a text. -/
def leadingNumber (text : Value) : SessionM Value :=
  atStart text do
    match ← ReadM.take with
    | some c => ReadM.number c
    | none => ReadM.failHere (.badNumber "")

/-- The character whose code starts a text, the character that the reader stands at then, and where
that is. -/
def leadingCodePoint (args : List Value) : SessionM Value := do
  match args with
  | [text, base, length, exact] =>
    let base := (← intOf base).toNat
    let length := (← intOf length).toNat
    let exact ← isTrue exact
    let (n, st) ← runReader .unbound { cursor := .ofString (← textOf text) } do
      ReadM.codePoint (← ReadM.take) base length exact
    let c := st.cursor
    let here := if c.pos = 0 then Value.nil else charOrEnd c.current?
    return .array [.ofCodes [n], here, .int ((c.pos : Int) - 1)]
  | _ => fault .type

/-- What stands in the place of a dereferenced form that is not known yet. -/
def derefForm (text : Value) : SessionM Value := do
  let (r, _) ← runReader .unbound { cursor := .ofString (← textOf text) }
    (ReadM.failHere .derefUnsupported)
  return r

/-! ## Placeholders -/

/-- The parameter for a placeholder. -/
def parameter (n : Value) : SessionM Value := onNothing .unbound (Reader.parameter n)

/-- The parameter of a placeholder in the function literal that is being read. -/
def placeholder (n : Value) : SessionM Value := onNothing .unbound (Reader.placeholder n)

/-! ## Forms that build forms -/

/-- Whether a form is to be put in as it is. -/
def isUnquote (form : Value) : SessionM Value := do
  return .bool (← lift (SyntaxQuote.startsWith SyntaxQuote.unquoteMark form))

/-- Whether the items of a form are to be put in as they are. -/
def isSplice (form : Value) : SessionM Value := do
  return .bool (← lift (SyntaxQuote.startsWith SyntaxQuote.spliceMark form))

/-- The form that builds a form, where no names can be generated. -/
def syntaxQuote (form : Value) : SessionM Value := do
  onNothing .unbound (SyntaxQuote.quote Value.depthLimit (← resolve form))

/-- The form that builds a form inside a namespace. -/
def quoteIn (ns form : Value) : SessionM Value := do
  let m ← openNamespace (← textOf ns)
  let _ ← openNamespace "clojure.core"
  let current := (← get).currentNamespace m
  let st : ReadState := { cursor := .ofString "", gensyms := some [] }
  let (r, _) ← runReader current st (SyntaxQuote.quote Value.depthLimit (← resolve form))
  return r

/-- The keys and values of a map in turn. -/
def flattenMap (m : Value) : SessionM Value := do lift (SyntaxQuote.flatten (← resolve m))

/-- The parameter list of a function: the names, whether there is a rest, and what it is called. -/
def parameters (form : Value) : SessionM Value := do
  let p ← withCompiler .nil "<unknown>" (Special.parameters form)
  return .array [.array (p.names.map .str), .bool p.hasRest, p.restName.getD .nil]

end HostedLisp.Library
