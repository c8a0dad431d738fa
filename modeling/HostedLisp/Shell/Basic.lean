import HostedLisp.Compiler.Compile

/-!
# Files and programs

The files that a program can see are given by their paths below one directory.

A program runs in a session, with a compiler of its own. It can see files and its input, and it
reports failures that it survives.

- `Files`: the paths of files with their texts.
- `Files.read?`, `Files.has`, `Files.isDirectory`: looking at them.
- `Path.join`, `Path.parts`: paths.
- `ShellState`: what a program works with.
- `ShellM`: programs; a failure ends them.
- `ShellM.compiling`, `ShellM.readNext`, `ShellM.evaluate`: one form after the other.
- `ShellM.require`: evaluates the forms of a file.
-/

namespace HostedLisp

namespace Shell

namespace Path

def join (dir name : String) : String :=
  if name.startsWith "/" || dir.isEmpty then name
  else if dir.endsWith "/" then dir ++ name
  else dir ++ "/" ++ name

/-- The names on the way to a file. Going up from the top is not possible. -/
def parts (path : String) : Option (List String) :=
  if path.startsWith "/" then none
  else (path.splitOn "/").foldlM (fun acc p =>
    if p = "" ∨ p = "." then some acc
    else if p = ".." then (if acc.isEmpty then none else some acc.dropLast)
    else some (acc ++ [p])) []

/-- The last part of a path. -/
def base (path : String) : String := ((path.splitOn "/").getLast?).getD path

end Path

abbrev Files := List (String × String)

namespace Files

/-- The text of a file. All ends of lines are read as one character. -/
def read? (fs : Files) (path : String) : Option String := do
  if path.isEmpty then none
  else
    let (_, text) ← fs.find? fun (p, _) =>
      p = path || (Path.parts path).isSome && Path.parts p = Path.parts path
    return (text.replace "\r\n" "\n").replace "\r" "\n"

def isDirectory (fs : Files) (path : String) : Bool :=
  if path.isEmpty then false
  else
    match Path.parts path with
    | none => false
    | some [] => true
    | some parts => fs.any fun (p, _) =>
      ((Path.parts p).getD []).dropLast.take parts.length = parts

/-- Whether there is anything at a path. -/
def has (fs : Files) (path : String) : Bool := (fs.read? path).isSome || fs.isDirectory path

/-- The paths of the files below a directory. -/
def below (fs : Files) (dir : String) : List (List String) :=
  match Path.parts dir with
  | none => []
  | some parts =>
    (fs.filterMap fun (p, _) => Path.parts p).filter fun p => p.dropLast.take parts.length = parts

end Files

end Shell

/-- What a program works with. -/
structure ShellState where
  session : Session := {}
  /-- The compiler. -/
  scope : Scope := { ns := .nil }
  files : Shell.Files := []
  /-- Whether somebody watches. -/
  terminal : Bool := false
  /-- The failures that were reported. -/
  traces : Array Error := #[]
  /-- What was said about failures, besides. -/
  complaints : String := ""

abbrev ShellM := EStateM Error ShellState

namespace ShellM

def compiling {α : Type} (x : CompileM α) : ShellM α := do
  let st ← get
  match x.run { session := st.session, scope := st.scope } with
  | .ok a c => do
    set { st with session := c.session, scope := c.scope }
    return a
  | .error e c => do
    set { st with session := c.session, scope := c.scope }
    throw e

def inSession {α : Type} (x : SessionM α) : ShellM α := compiling (CompileM.inSession x)

def print (text : String) : ShellM Unit := inSession (SessionM.print text)

/-- The outcome of something that may fail. -/
def attempt {α : Type} (x : ShellM α) : ShellM (Except Error α) :=
  tryCatch (do return .ok (← x)) fun e => return .error e

/-- Report a failure. -/
def trace (e : Error) : ShellM Unit := modify fun st => { st with traces := st.traces.push e }

/-- Start a new compiler, at work in the core namespace. -/
def newCompiler (file : String) : ShellM Unit := do
  let core ← inSession (SessionM.openNamespace "clojure.core")
  modify fun st => { st with scope := { ns := core, file := file } }

/-- Read the next form of a text; none at its end. Also after a failure it is known where to go
on. -/
def readNext (cursor : Cursor) : ShellM (Except Error (Option Value) × Cursor) := do
  let st ← get
  let env := st.session.readEnv (st.session.currentNamespace st.scope.ns)
  let start : ReadState := { cursor := cursor, lastId := st.session.lastId }
  let keep (after : ReadState) : ShellM Cursor := do
    set { st with session := { st.session with lastId := after.lastId } }
    return after.cursor
  match Reader.next?.run env start with
  | .ok v after => do return (.ok v, ← keep after)
  | .error e after => do return (.error e, ← keep after)

/-- Compile a form and run its code. -/
def evaluate (v : Value) : ShellM Value := compiling do
  let code ← CompileM.compile v
  CompileM.execute code (← CompileM.scope).ns

/-- Evaluate the forms of a text from a place on. The form that fails is printed, with the name of
the file. `enough` tells whether to stop early. -/
def evaluateFrom (file : String) (enough : ShellM Bool) : (fuel : Nat) → Cursor → ShellM Unit
  | 0, _ => return ()
  | fuel + 1, cursor => do
    match ← readNext cursor with
    | (.error e, _) => throw e
    | (.ok none, _) => return ()
    | (.ok (some v), cursor) =>
      match ← attempt (evaluate v) with
      | .error e =>
        let text ← compiling (CompileM.text v)
        print (text ++ " " ++ file ++ "\n")
        throw e
      | .ok _ => if ← enough then return () else evaluateFrom file enough fuel cursor

/-- Whether the current namespace has a name. -/
def defines (name : String) : ShellM Bool := do
  match (← get).scope.ns with
  | .ref a => do
    let n ← inSession (SessionM.namespaceAt a)
    return (n.members.lookup name).isSome || (objectMember? n.name name).isSome
  | _ => return false

/-- Evaluate the forms of a file with a compiler of its own, up to the definition of a name if that
is given. -/
def require (file : String) (until_ : Option String) : ShellM Unit := do
  let files := (← get).files
  match files.read? file with
  | none => throw (.fault (if files.isDirectory file then .directory else .fileNotFound))
  | some text =>
    let outer := (← get).scope
    newCompiler file
    let enough : ShellM Bool := match until_ with
      | some name => defines name
      | none => return false
    let r ← attempt (evaluateFrom file enough (text.length + 1) (.ofString text))
    modify fun st => { st with scope := outer }
    match r with
    | .ok _ => return ()
    | .error e => throw e

end ShellM

end HostedLisp
