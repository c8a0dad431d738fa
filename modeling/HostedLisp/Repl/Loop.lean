import HostedLisp.Shell.Basic

/-!
# The interactive loop

A line typed in is complete when all brackets that it opens are closed. Brackets in strings and
comments do not count; no other way of quoting a bracket is known here.

Lines are typed in until the brackets in them are closed; then the forms in them are evaluated.

- `Brackets.step`: what one character does to the brackets that wait for their partner.
- `Brackets.unbalanced`: whether more has to be typed in.
- `Repl.start`: prepares the namespace that forms are evaluated in.
- `Repl.prompt`, `Repl.accept`: what is shown before a line, and what happens with it.
- `Repl.greet`, `Repl.takeLines`: the loop on lines that are known from the start.
-/

namespace HostedLisp

namespace Brackets

/-- What is known in the middle of a line. -/
structure State where
  /-- The character that ends the string or comment, while inside one. -/
  skipTo : Option Char := none
  /-- The closing brackets that are waited for, the innermost first. -/
  waiting : List Char := []
  deriving DecidableEq, Repr, Inhabited

/-- The closing partner of an opening bracket. -/
def closing? : Char → Option Char
  | '(' => some ')'
  | '[' => some ']'
  | '\x7b' => some '\x7d'
  | _ => none

def isClosing (c : Char) : Bool := c = ')' || c = ']' || c = '\x7d'

/-- The character that ends what another one starts to be skipped. -/
def skipEnd? : Char → Option Char
  | '"' => some '"'
  | ';' => some '\n'
  | _ => none

/-- Take one more character. -/
def step (s : State) (c : Char) : Except Error State :=
  match s.skipTo with
  | some stop => return if c = stop then { s with skipTo := none } else s
  | none =>
    match skipEnd? c with
    | some stop => return { s with skipTo := some stop }
    | none =>
      match closing? c with
      | some close => return { s with waiting := close :: s.waiting }
      | none =>
        if !isClosing c then return s
        else if s.waiting.head? = some c then return { s with waiting := s.waiting.tail }
        else throw (.signal .brackets ("Unmatched delimiter '" ++ c.toString ++ "'"))

/-- Whether brackets are left open at the end of a line. -/
def unbalanced (line : String) : Except Error Bool := do
  return !(← line.toList.foldlM step {}).waiting.isEmpty

end Brackets

namespace Repl

open ShellM

/-- The name and number of the program, and what it runs on. -/
def version : String := "clojure-py 0.2.4\nPython VERSION"

/-- Work in the namespace of the user, which also gets the names of the core namespace. -/
def start : ShellM Unit := do
  let user ← inSession (SessionM.openNamespace "user")
  modify fun st => { st with scope := { st.scope with ns := user } }
  match user, ← inSession (SessionM.openNamespace "clojure.core") with
  | .ref u, .ref c =>
    let core ← inSession (SessionM.namespaceAt c)
    for (name, v) in core.members do
      if !name.startsWith "_" then inSession (SessionM.setMember u name v)
  | _, _ => return ()

/-- Evaluate the forms of a text one after the other. Failures are reported; nil ends the text, like
its end. A form with a result ends the loop: there is no place to keep it. -/
def evaluateFrom : (fuel : Nat) → Cursor → ShellM Unit
  | 0, _ => return ()
  | fuel + 1, cursor => do
    match ← readNext cursor with
    | (.error e, cursor) =>
      trace e
      evaluateFrom fuel cursor
    | (.ok none, _) | (.ok (some .nil), _) => return ()
    | (.ok (some v), cursor) =>
      match ← attempt (evaluate v) with
      | .error e =>
        trace e
        evaluateFrom fuel cursor
      | .ok _ => fault .attribute

/-- Evaluate the forms of a text. Each attempt to read takes at least one character. -/
def evaluateAll (text : String) : ShellM Unit := evaluateFrom (text.length + 2) (.ofString text)

/-- What is shown before a line; `pending` are the lines before it, if they are not complete. -/
def prompt (pending : Option String) : ShellM String := do
  let st ← get
  if st.terminal then
    let ns ← inSession (SessionM.moduleName st.scope.ns)
    match pending with
    | none => return ns ++ "=> "
    | some _ => return String.ofList (List.replicate ns.length '.') ++ ".. "
  else return ""

/-- Take a line. The lines that still are not complete are given back. -/
def accept (pending : Option String) (line : String) : ShellM (Option String) := do
  let text := match pending with
    | some before => before ++ "\n" ++ line
    | none => line
  match Brackets.unbalanced text with
  | .ok true => return some text
  | .ok false =>
    evaluateAll text
    return none
  | .error e =>
    print (e.message?.getD "" ++ "\n")
    evaluateAll text
    return none

/-- Take lines until there are no more. -/
def takeLines (pending : Option String) : List String → ShellM Unit
  | [] => do
    print (← prompt pending)
    print "\n"
  | line :: rest => do
    print (← prompt pending)
    takeLines (← accept pending line) rest

/-- What comes before the first line: a greeting, and forms that were given beforehand. -/
def greet (quiet : Bool) (command : String) : ShellM Unit := do
  if !quiet && (← get).terminal then print (version ++ "\n")
  start
  evaluateAll command

end Repl

end HostedLisp
