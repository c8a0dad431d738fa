import HostedLisp.Text.Integer

/-!
# Failures

- `ReadError`: the causes; `ReadError.message` words them.
- `Fault`: failures of the machine underneath, which carry no text.
- `Condition`: failures that the Lisp itself signals, which carry a text.
- `Error`: any failure, with `Error.message?`.
-/

namespace HostedLisp

/-- Where a hexadecimal escape stands. -/
inductive EscapePlace where
  | string
  | regex
  deriving DecidableEq, Repr

/-- Why a text cannot be read. A missing character stands for the end of the text. -/
inductive ReadError where
  | endOfInput
  | endInUnquote
  | endInCharacter
  | endInString
  | endInRegex
  | endBeforeRegex
  | endInName
  | endInList (firstLine : Int)
  | badDigit (base : Nat) (got : Option Char)
  | badLength (got want : Nat)
  | badCodePoint (token : String)
  | surrogate (token : String)
  | octalTooLong (token : String)
  | octalCharacter (code : Nat)
  | octalString (code : Nat)
  | unsupportedCharacter (token : String)
  | hexDigitExpected (letter : Char) (place : EscapePlace) (got : Option Char)
  | unsupportedEscape (c : Char)
  | unknownSymbol (token : String)
  | badInteger (cause : Text.IntegerError)
  | zeroDenominator (numerator : Int)
  | badNumber (token : String)
  | noDispatch (c : Char)
  | unmatched (c : Char) (line : Int)
  | braceMissing
  | nameCharacter (c : Char)
  | nameExpected
  | unknownName (name : String)
  | regexExpected
  | badRegex (reason : String)
  | metadataKind
  | metadataTarget
  | badPlaceholder
  | derefUnsupported
  | evalUnsupported
  deriving Repr

namespace ReadError

/-- A character, or the mark for the end of the text. -/
def charOrEnd (c : Option Char) : String := (c.map Char.toString).getD "EOF"

def message : ReadError → String
  | endOfInput => "EOF while reading"
  | endInUnquote => "EOF reading unquote"
  | endInCharacter => "EOF while reading character"
  | endInString => "EOF while reading string"
  | endInRegex => "EOF while reading regex pattern"
  | endBeforeRegex => "EOF expecting regex pattern"
  | endInName => "EOF while reading named unicode escape sequence"
  | endInList line => "EOF while reading starting at line " ++ Text.decimal line
  | badDigit base got =>
    "Expected base " ++ Nat.repr base ++ " digit, got: (" ++ charOrEnd got ++ ")"
  | badLength got want =>
    "Invalid character length: (" ++ Nat.repr got ++ "), should be: (" ++ Nat.repr want ++ ")"
  | badCodePoint token => "Invalid unicode character: \\" ++ token
  | surrogate token => "Invalid character constant in literal string: \\" ++ token
  | octalTooLong token =>
    "Invalid octal escape sequence length in literal string. Three digits max: \\" ++ token
  | octalCharacter code =>
    "Octal escape sequence in literal string must be in range [0, 377], got: (\\o" ++ Nat.repr code
      ++ ")"
  | octalString code =>
    "Octal escape sequence in literal string must be in range [0, 377], got: (" ++ Nat.repr code
      ++ ")"
  | unsupportedCharacter token => "Unsupported character: \\" ++ token
  | hexDigitExpected letter .string got =>
    "Hexidecimal digit expected after \\" ++ letter.toString ++ " in literal string, got: ("
      ++ (got.map Char.toString).getD "" ++ ")"
  | hexDigitExpected letter .regex got =>
    "Hexidecimal digit expected after \\" ++ letter.toString ++ " in regex pattern, got: ("
      ++ charOrEnd got ++ ")"
  | unsupportedEscape c => "Unsupported escape character in literal string: \\" ++ c.toString
  | unknownSymbol token => "Unknown symbol " ++ token
  | badInteger cause => cause.message
  | zeroDenominator n => "Fraction(" ++ Text.decimal n ++ ", 0)"
  | badNumber token => "Invalid number: " ++ token
  | noDispatch c => "No dispatch macro for: (" ++ c.toString ++ ")"
  | unmatched c line =>
    "Unmatched Delimiter " ++ c.toString ++ " at [" ++ Text.decimal line ++ ", 1]"
  | braceMissing => "Missing \x7d while reading named unicode escape sequence"
  | nameCharacter c =>
    "Illegal character in named unicode escape sequence: (" ++ c.toString ++ ")"
  | nameExpected => "Expected name between \x7b\x7d in named unicode escape sequence"
  | unknownName name => "Unknown unicode character name in escape sequence: (" ++ name ++ ")"
  | regexExpected => "Expected regex pattern after #r"
  | badRegex reason => "invalid regex pattern: " ++ reason
  | metadataKind => "Metadata must be Symbol,Keyword,String or Map"
  | metadataTarget => "Cannot attach meta to a object without .withMeta"
  | badPlaceholder => "arg literal must be %, %& or %integer"
  | derefUnsupported => "Deref syntax @foo not currently implemented."
  | evalUnsupported => "Eval syntax #= not currently implemented."

end ReadError

/-- A failure of the machine underneath. -/
inductive Fault where
  /-- An operation on a value of the wrong kind. -/
  | type
  /-- A thing has no such part. -/
  | attribute
  | key
  | index
  | value
  /-- A name that nothing defines. -/
  | name
  | unboundLocal
  | overflow
  | assertion
  /-- Evaluation nested too deeply. -/
  | recursion
  | zeroDivision
  /-- A text that has no octets, because it holds surrogates. -/
  | encoding
  | importing
  | fileNotFound
  /-- A directory in the place of a file. -/
  | directory
  /-- A value that a foreign function does not accept. -/
  | argument
  /-- Nothing more to come. -/
  | exhausted
  /-- The failure that programs raise on purpose. -/
  | thrown
  /-- The result of a step that failed. -/
  | badReference
  deriving DecidableEq, Repr, Inhabited

/-- A kind of failure that the Lisp itself signals. -/
inductive Condition where
  | abstractMethod
  | arity
  | illegalState
  | illegalArgument
  | invalidArgument
  | illegalAccess
  | indexOutOfBounds
  | unsupportedOperation
  | protocol
  | brackets
  | compiler
  | noNamespace
  | transactionRetry
  | unicode
  | general
  deriving DecidableEq, Repr, Inhabited

/-- The name that programs know a condition by. -/
def Condition.name : Condition → String
  | abstractMethod => "AbstractMethodCall"
  | arity => "ArityException"
  | illegalState => "IllegalStateException"
  | illegalArgument => "IllegalArgumentException"
  | invalidArgument => "InvalidArgumentException"
  | illegalAccess => "IllegalAccessError"
  | indexOutOfBounds => "IndexOutOfBoundsException"
  | unsupportedOperation => "UnsupportedOperationException"
  | protocol => "ProtocolException"
  | brackets => "BracketsException"
  | compiler => "CompilerException"
  | noNamespace => "NoNamespaceException"
  | transactionRetry => "TransactionRetryException"
  | unicode => "UnicodeError"
  | general => "Exception"

/-- A failure. A reading error knows the line it was noticed on, if that is to be told. -/
inductive Error where
  | fault (f : Fault)
  | reading (cause : ReadError) (line : Option Int)
  | signal (c : Condition) (message : String)
  deriving Repr, Inhabited

namespace Error

def message? : Error → Option String
  | fault _ => none
  | reading cause none => some cause.message
  | reading cause (some line) => some (cause.message ++ " at line " ++ Text.decimal line)
  | signal _ message => some message

/-- An abstract method of the named class was called. -/
def abstractIn (className : String) : Error := .signal .abstractMethod ("in " ++ className)

/-- An index outside a vector. -/
def outOfBounds : Error := .signal .indexOutOfBounds ""

/-- A wrong number of arguments, told without a text. -/
def badArity : Error := .signal .arity ""

end Error

abbrev fault {m : Type → Type} {α : Type} [MonadExcept Error m] (f : Fault) : m α :=
  throw (.fault f)

end HostedLisp
