import HostedLisp.Collection.Sequences
import HostedLisp.Reader.Token

/-!
# The state of reading, and syntax quotes

A syntax-quoted form becomes a form that builds it, with symbols qualified by their namespace.

- `CurrentNamespace`: what the reader knows of the namespace that code is read in.
- `ReadState`, `ReadEnv`, `ReadM`: the reader's state, surroundings and monad. A failure keeps the
  state, so that the line reached is known.
- `ReadM.take`, `ReadM.back`: moving the cursor; `ReadM.refuse`: a step that is not allowed.
- `ReadM.token`, `ReadM.number`, `ReadM.codePoint`: lexical pieces.
- `specialForms`: the names that are never qualified.
- `SyntaxQuote.quote`: the form that builds a form.
- `SyntaxQuote.flatten`: the keys and values of a map in turn.
-/

namespace HostedLisp

/-- Whom a name of the current namespace belongs to. -/
inductive NameOwner where
  | nobody
  | namespace (name : String)
  /-- Something that does not know its namespace. -/
  | foreign

/-- The namespace that code is read in. -/
inductive CurrentNamespace where
  /-- Nobody said anything about it. -/
  | unbound
  /-- There is explicitly none. -/
  | none
  | inside (name : String) (owner : String → NameOwner)

/-- What stays the same while reading. -/
structure ReadEnv where
  current : CurrentNamespace := .unbound
  view : Viewer := .none
  /-- What the empty set holds. -/
  emptySet : Value.Table := .empty

structure ReadState where
  cursor : Cursor
  /-- The number given out last for a generated name. -/
  lastId : Nat := 0
  /-- The placeholders of the function literal that is being read, with their parameters. -/
  placeholders : Option (List (Value × Value)) := none
  /-- The generated names of the syntax quote that is being read. -/
  gensyms : Option (List (Symbol × Symbol)) := none
  deriving Inhabited

abbrev ReadM := ReaderT ReadEnv (EStateM Error ReadState)

namespace ReadM

def line : ReadM Int := do return (← get).cursor.line

/-- Fail, telling the line. -/
def failHere {α : Type} (cause : ReadError) : ReadM α := do throw (.reading cause (some (← line)))

/-- Fail without telling the line. -/
def fail {α : Type} (cause : ReadError) : ReadM α := throw (.reading cause none)

/-- Run something that cannot move the cursor. -/
def lift {α : Type} (r : Except Error α) : ReadM α :=
  match r with
  | .ok a => return a
  | .error e => throw e

def take : ReadM (Option Char) := do
  let s ← get
  let (ch, c) := s.cursor.take
  set { s with cursor := c }
  return ch

/-- Fail at a step that is not allowed, and keep that in the cursor. -/
def refuse {α : Type} (e : Error) : ReadM α := do
  modify fun s => { s with cursor := { s.cursor with refused := true } }
  throw e

/-- The steps that were allowed are used up. -/
def outOfSteps {α : Type} : ReadM α := refuse (.fault .recursion)

/-- Step back over the character taken last. -/
def back : ReadM Unit := do
  let s ← get
  match s.cursor.back? with
  | some c => set { s with cursor := c }
  | none => refuse (.signal .illegalAccess "")

/-- A fresh number for a generated name. -/
def nextId : ReadM Nat := do
  let s ← get
  set { s with lastId := s.lastId + 1 }
  return s.lastId + 1

/-- The characters that start a form of their own. -/
def macroChars : List Char := "\"'()[]\x7b\x7d;#^%`~\\@".toList

/-- Whether a character starts a form of its own. -/
def isMacro (c : Char) : Bool := macroChars.contains c

/-- The macro characters that end a token. -/
def isTerminating (c : Char) : Bool := c ≠ '#' && c.toNat ≠ 39 && isMacro c

/-- Take characters until one for which `stop` holds, or the end; that one is put back. -/
def takeUntil (stop : Char → Bool) (acc : List Char) : (fuel : Nat) → ReadM (List Char)
  | 0 => outOfSteps
  | fuel + 1 => do
    match ← take with
    | none =>
      back
      return acc.reverse
    | some c =>
      if stop c then
        back
        return acc.reverse
      else takeUntil stop (c :: acc) fuel

/-- Enough steps for what is left of the text. -/
def fuel : ReadM Nat := do return (← get).cursor.remaining + 2

/-- The token that starts with a character already taken. -/
def token (start : Char) : ReadM (List Char) := do
  takeUntil (fun c => Text.isBlank c || isTerminating c) [start] (← fuel)

/-- The number that starts with a character already taken. -/
def number (start : Char) : ReadM Value := do
  let cs ← takeUntil (fun c => Text.isBlank c || isMacro c) [start] (← fuel)
  match Token.number? cs with
  | .error cause => failHere cause
  | .ok none => failHere (.badNumber (String.ofList cs))
  | .ok (some n) => return n

def currentName : ReadM String := do
  match (← read).current with
  | .unbound => fault .attribute
  | .none => throw (.signal .illegalState "No Compiler found in syntax quote!")
  | .inside name _ => return name

/-- The value of a token that is no number. -/
def interpret (cs : List Char) : ReadM Value := do
  match String.ofList cs with
  | "nil" => return .nil
  | "true" => return .bool true
  | "false" => return .bool false
  | s =>
    match Token.name? cs with
    | none => fail (.unknownSymbol s)
    | some (.symbol n) => return .symbol n .nil
    | some (.keyword n) => return .keyword n
    | some (.ofCurrentNamespace n) => return .keyword ⟨some (← currentName), n⟩

/-- Whether a character is a digit of the base. -/
def isDigitOf (base : Nat) (c : Char) : Bool :=
  match Text.integer [c] base with
  | .ok _ => true
  | .error _ => false

/-- The digits of a code point after the first, from the `i`-th on; gives the index reached too. -/
def moreDigits (base length : Nat) (exact : Bool) (acc : List Char) :
    (fuel i : Nat) → ReadM (List Char × Nat)
  | 0, _ => return (acc, length)
  | fuel + 1, i => do
    match ← take with
    | none =>
      back
      return (acc, i - 1)
    | some c =>
      if Text.isBlank c || isMacro c then
        back
        return (acc, i - 1)
      else if isDigitOf base c then moreDigits base length exact (acc ++ [c]) fuel (i + 1)
      else if exact then failHere (.badDigit base (some c))
      else
        back
        return (acc, i)

def charOfCode (code : Int) : Except Error Nat :=
  if code > 0x7fffffff then fault .overflow
  else if code < 0 ∨ code > 0x10ffff then fault .value
  else return code.toNat

/-- A code point given by digits of a base, the first of them taken already: exactly `length` of
them, or at most. -/
def codePoint (start : Option Char) (base length : Nat) (exact : Bool) : ReadM Nat := do
  match start with
  | none => failHere (.badDigit base none)
  | some c =>
    if isDigitOf base c then
      let (digits, reached) ← moreDigits base length exact [c] (length - 1) 2
      if length < 2 then fault .unboundLocal
      else if reached ≠ length && exact then failHere (.badLength reached length)
      else
        match Text.integer digits base with
        | .ok n => lift (charOfCode n)
        | .error _ => fault .value
    else failHere (.badDigit base (some c))

end ReadM

/-- The code point that the last `length` characters of a token spell, after `offset` others. -/
def Token.codePoint? (token : List Char) (offset length base : Nat) : Option Nat :=
  if token.length ≠ offset + length then none
  else
    match Text.integer (token.drop offset) base with
    | .ok n => if 0 ≤ n ∧ n ≤ 0x10ffff then some n.toNat else none
    | .error _ => none

def specialForms : List Symbol := [
  .plain "in-ns", .plain "def", .plain "kwapply", .plain "loop*", .plain "let*", .plain ".",
  .plain "quote", ⟨some "py", "if"⟩, .plain "if*", .plain "do", .plain "fn*", .plain "recur",
  .plain "is?", .plain "throw", .plain "applyTo", .plain "let-macro", .plain "__compiler__",
  .plain "try"]

namespace SyntaxQuote

open Value ReadM

/-- The symbol that marks an unquoted form. -/
def unquoteMark : Symbol := .plain "~"

/-- The symbol that marks a spliced form. -/
def spliceMark : Symbol := .plain "~@"

/-- Whether a form is a sequence that starts with the given mark. -/
def startsWith (mark : Symbol) (form : Value) : Except Error Bool := do
  if form.isSeqCell then
    match ← first form with
    | .symbol s _ => return s == mark
    | _ => return false
  else return false

/-- The second item of a marked form; only a stepping list has one to give. -/
def marked (form : Value) : Except Error Value := do
  match form with
  | .list .stepping .. =>
    match ← next form with
    | .nil => fault .attribute
    | s => first s
  | _ => fault .attribute

/-- A symbol as it is to be built: qualified, or generated if it ends in a hash sign. -/
def resolve (s : Symbol) : ReadM Symbol := do
  if s.ns.isNone && s.name.endsWith "#" then
    let st ← get
    match st.gensyms with
    | none => fault .attribute
    | some known =>
      match known.lookup s with
      | some g => return g
      | none =>
        let n ← nextId
        let stem := String.ofList s.name.toList.dropLast
        let g := Symbol.plain (stem ++ "__" ++ Nat.repr n ++ "__auto__")
        modify fun st => { st with gensyms := some ((s, g) :: known) }
        return g
  else if s.ns.isSome || s.name.endsWith "." || s.name.startsWith "." then return s
  else
    match (← read).current with
    | .unbound => fault .attribute
    | .none => throw (.signal .illegalState "No Compiler found in syntax quote!")
    | .inside here owner =>
      match owner s.name with
      | .nobody => return ⟨some here, s.name⟩
      | .namespace n => return ⟨some n, s.name⟩
      | .foreign => fault .attribute

/-- Put an item in front of a sequence, which may be nil. -/
def consOnto (x s : Value) : Value :=
  match s with
  | .nil => listOf [x]
  | s => .cons x s .nil

/-- The keys and values of a map in turn. -/
def flatten (m : Value) : Except Error Value := do
  let es ← walk (← seqMethod m)
  let kvs ← es.toList.mapM entryOf
  return vectorOf (kvs.flatMap fun (k, v) => [k, v])

/-- The metadata method of a form, where it has one. -/
def infoOf : Value → Value
  | .hashMap .. => .nil
  | v => v.info

mutual

/-- The form that builds a form. -/
def quote : (depth : Nat) → Value → ReadM Value
  | 0, _ => fault .recursion
  | depth + 1, form => do
    let _ ← lift form.hash
    match ← body depth form with
    | .inl unquoted => return unquoted
    | .inr built =>
      match infoOf form with
      | .nil => return built
      | .hashMap m _ =>
        let rest ← lift (tableErase m (kw "line"))
        if rest.count > 0 then fault .name else return built
      | _ => fault .attribute

/-- What a form turns into: an unquoted form as it is, or the form that builds it. -/
def body : (depth : Nat) → Value → ReadM (Value ⊕ Value)
  | 0, _ => fault .recursion
  | depth + 1, form => do
    let quoted (v : Value) : Value := listOf [sym "quote", v]
    match form with
    | .symbol s i =>
      if specialForms.contains s then return .inr (quoted form)
      else
        let r ← resolve s
        return .inr (quoted (.symbol r (if r = s then i else .nil)))
    | _ =>
      if ← lift (startsWith unquoteMark form) then return .inl (← lift (marked form))
      else if ← lift (startsWith spliceMark form) then
        throw (.signal .illegalState "splice not in list")
      else
        let concat (items : List Value) : ReadM Value := do
          let parts ← expand depth items
          let s := if parts.isEmpty then Value.nil else .indexSeq (vectorOf parts) 0
          return consOnto (qsym "clojure.core" "concat") s
        match form with
        | .hashMap .. | .arrayMap .. | .treeMap .. =>
          let kvs ← lift (flatten form)
          return .inr (listOf [sym "apply", qsym "clojure.core" "hashmap",
            listOf [← concat (← lift kvs.items)]])
        | .vector .. | .subvector .. | .entry .. | .hashSet .. =>
          return .inr (listOf [sym "apply", qsym "clojure.core" "vector",
            listOf [qsym "clojure.core" "seq", ← concat (← lift form.items)]])
        | .emptyList _ => return .inr (listOf [qsym "clojure.core" "list"])
        | .list .. | .cons .. | .indexSeq .. | .keySeq .. | .valSeq .. | .trieSeq .. | .treeSeq ..
        | .arraySeq .. =>
          return .inr (listOf [qsym "clojure.core" "seq",
            ← concat (← lift (walk form)).toList])
        | .int _ | .bool _ | .float _ | .nan _ | .str _ | .wide _ | .numeral _ | .opcode _
        | .keyword _ =>
          return .inr form
        | _ => return .inr (quoted form)

/-- The parts whose concatenation gives the items. -/
def expand : (depth : Nat) → List Value → ReadM (List Value)
  | 0, _ => fault .recursion
  | _ + 1, [] => return []
  | depth + 1, item :: rest => do
    let list := qsym "clojure.core" "list"
    let part ← do
      if ← lift (startsWith unquoteMark item) then
        pure (listOf [list, ← lift (marked item)])
      else if ← lift (startsWith spliceMark item) then lift (marked item)
      else pure (listOf [list, ← quote depth item])
    return part :: (← expand depth rest)

end

end SyntaxQuote

end HostedLisp
