import HostedLisp.Lock.SelfTest
import HostedLisp.Repl.Loop

/-!
# The programs of the command line

- `Options.parse`: reads arguments. Long options may be abbreviated, and options may stand between
  other arguments.
- `Options.usage`, `Options.help`: the texts about them.
- `Shell.launch`, `Shell.interpreter`: evaluate a file or the lines that are typed in.
- `Shell.findSource`, `Shell.load`: files with the definitions of a namespace.
- `Shell.reassembler`: goes through a directory and assembles the programs in it anew.
- `Shell.runModule`, `Shell.runFile`: which modules and files are programs.
-/

namespace HostedLisp.Shell

open ShellM

/-- What an option asks for. -/
inductive Flag where
  | version
  | help
  /-- All arguments that follow are the program. -/
  | command
  | interactive
  | quiet
  /-- An option that only stands in the help text. -/
  | remark
  deriving DecidableEq, Repr, Inhabited

/-- An option: its names, what it asks for, and its line in the help text. -/
structure OptionSpec where
  names : List String
  flag : Flag
  help : String
  deriving Inhabited

/-- All options. The last three explain arguments that are no options; the characters in their names
erase the hyphens on a terminal. -/
def allOptions : List OptionSpec := [
  ⟨["--version"], .version, "show program's version number and exit"⟩,
  ⟨["-h", "--help"], .help, "show this help message and exit"⟩,
  ⟨["-c"], .command, "program passed in as a string (terminates option list)"⟩,
  ⟨["-i"], .interactive, "inspect interactively after running script"⟩,
  ⟨["-q"], .quiet, "don't print version message on interactive startup"⟩,
  ⟨["--\x08\x08file"], .remark, "    program read from script file"⟩,
  ⟨["--\x08\x08-"], .remark, "    program read from stdin (default; interactive mode if a tty)"⟩,
  ⟨["--\x08\x08arg ..."], .remark, "    arguments passed to program in *command-line-args*"⟩]

structure Options where
  /-- The program that was passed in. -/
  command : String := ""
  interactive : Bool := false
  quiet : Bool := false
  /-- The arguments that are no options. -/
  arguments : List String := []
  deriving Repr, Inhabited

/-- Why a program does not start. -/
inductive Stop where
  | version
  | help
  | misuse (message : String)
  deriving DecidableEq, Repr, Inhabited

namespace Options

/-- Do what a flag asks for; `rest` are the arguments that follow. -/
def apply (o : Options) (rest : List String) : Flag → Except Stop Options
  | .version => throw .version
  | .help => throw .help
  | .command => return { o with command := " ".intercalate rest }
  | .interactive => return { o with interactive := true }
  | .quiet => return { o with quiet := true }
  | .remark => return o

/-- The names of all long options with their flags, in order. -/
def longNames : List (String × Flag) :=
  (allOptions.flatMap fun x => (x.names.filter (·.startsWith "--")).map (·, x.flag)).mergeSort
    fun a b => a.1 ≤ b.1

/-- The long option that a name stands for: that of the same name, or the only one that starts
so. -/
def long (name : String) : Except Stop (String × Flag) :=
  match longNames.find? (·.1 = name), longNames.filter (·.1.startsWith name) with
  | some x, _ => return x
  | none, [x] => return x
  | none, [] => throw (.misuse ("no such option: " ++ name))
  | none, xs => throw (.misuse
      ("ambiguous option: " ++ name ++ " (" ++ ", ".intercalate (xs.map (·.1)) ++ "?)"))

/-- The short option of a letter. -/
def short (c : Char) : Except Stop Flag :=
  let name := "-" ++ c.toString
  match allOptions.find? (·.names.contains name) with
  | some x => return x.flag
  | none => throw (.misuse ("no such option: " ++ name))

/-- Read the letters of an argument; the arguments that follow may be used up by one of them. -/
def letters (o : Options) (rest : List String) : List Char → Except Stop (Options × Bool)
  | [] => return (o, false)
  | c :: cs => do
    let flag ← short c
    let o ← o.apply rest flag
    if flag = .command then return ((← letters o [] cs).1, true)
    else letters o rest cs

def parseFrom (o : Options) : List String → Except Stop Options
  | [] => return o
  | arg :: rest =>
    if arg = "--" then return { o with arguments := o.arguments ++ rest }
    else if arg.startsWith "--" then do
      let (name, flag) ← long (String.ofList (arg.toList.takeWhile (· ≠ '=')))
      if arg.toList.contains '=' then throw (.misuse (name ++ " option does not take a value"))
      else parseFrom (← o.apply rest flag) rest
    else
      match arg.toList with
      | '-' :: c :: cs => do
        let (o, done) ← letters o rest (c :: cs)
        if done then return o else parseFrom o rest
      | _ => parseFrom { o with arguments := o.arguments ++ [arg] } rest

/-- Read the arguments of a program. A hyphen and what follows it are never options. -/
def parse (args : List String) : Except Stop Options := do
  let o ← parseFrom {} (args.takeWhile (· ≠ "-"))
  return o

/-- The arguments from a hyphen on. -/
def afterHyphen (args : List String) : List String := args.dropWhile (· ≠ "-")

/-! ## Texts -/

def usage (program : String) : String :=
  "Usage: " ++ program ++ " [options] ... [-c cmd | file | -] [arg] ...\n"

/-- What is said about wrong arguments. -/
def misuse (program message : String) : String :=
  usage program ++ "\n" ++ program ++ ": error: " ++ message ++ "\n"

/-- The width of a help text. -/
def width : Nat := 78

/-- Break words into lines of a width; `line` is the one that is being filled. -/
def fill (width : Nat) (line : String) : List String → List String
  | [] => [line]
  | w :: ws =>
    if line.length + 1 + w.length ≤ width then fill width (line ++ " " ++ w) ws
    else line :: fill width w ws

/-- Break a text into lines of a width. Blanks at the start of the text stay. -/
def wrap (width : Nat) (text : String) : List String :=
  let blanks := String.ofList (text.toList.takeWhile (· = ' '))
  match (String.ofList (text.toList.dropWhile (· = ' '))).splitOn " " with
  | w :: ws => fill width (blanks ++ w) ws
  | [] => [text]

def blanks (n : Nat) : String := String.ofList (List.replicate n ' ')

/-- The explanations of all options, in two columns. -/
def table : String :=
  let rows := allOptions.map fun x => (", ".intercalate x.names, x.help)
  let left := (rows.map (·.1.length)).foldl max 0
  String.join (rows.map fun (names, help) =>
    "  " ++ names ++ blanks (left - names.length + 2)
      ++ ("\n" ++ blanks (left + 4)).intercalate (wrap (width - left - 4) help) ++ "\n")

def help (program : String) : String := usage program ++ "\nOptions:\n" ++ table

end Options

/-- How a program ends. -/
inductive Ending where
  | value (v : Value)
  | exit (code : Nat)

/-- End with something to say about failures. -/
def complain (text : String) : ShellM Unit :=
  modify fun st => { st with complaints := st.complaints ++ text }

/-- Do what the arguments say up to the point where lines are typed in. A program without a loop
ends before. -/
def launch (program : String) (args : List String) : ShellM (Option Ending) := do
  match Options.parse args with
  | .error .version => do
    print (Repl.version ++ "\n")
    return some (.exit 0)
  | .error .help => do
    print (Options.help program)
    return some (.exit 0)
  | .error (.misuse message) => do
    complain (Options.misuse program message)
    return some (.exit 2)
  | .ok o => do
    newCompiler "<unknown>"
    let source := o.arguments.headD ""
    if !source.isEmpty then require source none
    if o.interactive || source.isEmpty && o.command.isEmpty then
      Repl.greet o.quiet o.command
      return none
    else return some (.value .nil)

/-- Evaluate a file or the lines that are typed in, as the arguments say. -/
def interpreter (program : String) (args : List String) (lines : List String) : ShellM Ending := do
  match ← launch program args with
  | some e => return e
  | none =>
    Repl.takeLines none lines
    return .value .nil

/-- The loop on its own. It asks for a compiler in a way that fails. -/
def bareLoop (quiet : Bool) : ShellM Ending := do
  if !quiet && (← get).terminal then print (Repl.version ++ "\n")
  fault .attribute

/-! ## Sources of namespaces -/

/-- The file with the definitions of a namespace, in the first directory that has one. A package of
the same name takes its place. -/
def findSource (name : String) (dirs : List String) : ShellM (Option String) := do
  let fs := (← get).files
  let last := ((name.splitOn ".").getLast?).getD ""
  return dirs.findSome? fun dir =>
    let file := Path.join dir (last ++ ".clj")
    let package := Path.join dir last
    let starts := [Path.join package "__init__.py",
      Path.join package "__pycache__/__init__.cpython-311.pyc"]
    if fs.has file && !starts.any fs.has then some file else none

/-- The directories to search: those given, or else the present one. -/
def searchPath : List String → List String
  | [] => [""]
  | dirs => dirs

/-- Load the definitions of a namespace. The file has to create it, and no file does. -/
def load (name : String) : ShellM Value := do
  match ← findSource name ["."] with
  | none => fault .attribute
  | some file =>
    match ← inSession (SessionM.moduleNamed? name) with
    | some m => return m
    | none =>
      match ← attempt (require file none) with
      | .error e =>
        trace e
        fault .importing
      | .ok _ =>
        match ← inSession (SessionM.moduleNamed? name) with
        | some m => return m
        | none =>
          let view ← inSession SessionM.viewer
          match (Value.tuple [.str file, .str name]).inspect view with
          | .ok text => throw (.signal .noNamespace text)
          | .error e => throw e

/-! ## Assembling programs anew -/

/-- How to call the reassembler. -/
def reassemblerUsage (program : String) : String :=
  "Usage: " ++ program ++ " dir\n\nSearch recursively for *.py in the given directory, disassemble "
    ++ "and assemble\nthem, adding a note when each file is imported.\n\nUse it to test byteplay "
    ++ "like this:\n> byteplay.py Lib\n> make test\n\nSome FutureWarnings may be raised, but "
    ++ "that's expected.\n\nTip: before doing this, check to see which tests fail even without "
    ++ "reassembling\nthem...\n\n"

/-- Assemble all programs at a path anew. No program can be opened in the way that is tried. -/
def reassemble (path : String) : ShellM Value := do
  let fs := (← get).files
  if fs.isDirectory path then
    let programs := (fs.below path).filter fun p => ((p.getLast?).getD "").endsWith ".py"
    -- the files of a directory come before those further down
    match programs.mergeSort fun a b => a.length ≤ b.length with
    | [] => return .nil
    | first :: _ =>
      complain ("TMP/" ++ "/".intercalate first ++ "\n")
      fault .value
  else fault .value

/-- Go through a directory and assemble the programs in it anew. -/
def reassembler (program : String) (args : List String) : ShellM Ending := do
  match args with
  | [path] => if (← get).files.has path then return .value (← reassemble path)
  | _ => pure ()
  print (reassemblerUsage program)
  return .exit 1

/-! ## Which program is run -/

/-- The name that programs go by. -/
def programName : String := "clojurepy"

/-- Run a module. Those that are no programs end at once; packages and other modules cannot be
run. -/
def runModule (name : String) (args lines : List String) : ShellM Ending := do
  match name with
  | "clojure.main" => interpreter programName args lines
  | "clojure.util.byteplay" => reassembler programName args
  | "clojure.util.shared_lock" =>
    SharedLock.selfTest
    return .value .nil
  | _ =>
    if name.startsWith "clojure." && name ≠ "clojure.lang" && name ≠ "clojure.util" then
      return .value .nil
    else fault .importing

/-- Run a file with a module in it. -/
def runFile (path : String) (args lines : List String) : ShellM Ending := do
  match path with
  | "clojure.py" | "clojure/main.py" => interpreter (Path.base path) args lines
  | "clojure/util/shared_lock.py" =>
    SharedLock.selfTest
    return .value .nil
  | _ => return .value .nil

end HostedLisp.Shell
