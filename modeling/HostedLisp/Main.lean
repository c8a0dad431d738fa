import HostedLisp.Shell.Programs

/-!
# The command line

Runs `Shell.launch` on the arguments; lines are then read from the input as they are typed in.
-/

namespace HostedLisp

/-- A failure in one line. -/
def Error.report : Error → String
  | .fault f => "failed: " ++ (repr f).pretty
  | .reading cause line => "failed: " ++ ((Error.reading cause line).message?).getD ""
  | .signal c message => c.name ++ ": " ++ message

namespace CommandLine

/-- Show what was printed and reported since the last time. -/
def showOutput (st : ShellState) : IO ShellState := do
  let out ← IO.getStdout
  out.putStr (String.join st.session.output.toList)
  out.flush
  let err ← IO.getStderr
  err.putStr st.complaints
  for e in st.traces do err.putStrLn e.report
  return { st with session := { st.session with output := #[] }, traces := #[], complaints := "" }

/-- Run a part of a program and show what it says; no result if it failed. -/
def run {α : Type} (x : ShellM α) (st : ShellState) : IO (Option α × ShellState) := do
  match x.run st with
  | .ok a st => return (some a, ← showOutput st)
  | .error e st => return (none, ← showOutput { st with traces := st.traces.push e })

/-- Take lines from the input until it ends. -/
partial def takeLines (pending : Option String) (st : ShellState) : IO UInt32 := do
  let ask : ShellM Unit := do ShellM.print (← Repl.prompt pending)
  let (_, st) ← run ask st
  let line ← (← IO.getStdin).getLine
  if line.isEmpty then
    (← IO.getStdout).putStrLn ""
    return 0
  else
    match ← run (Repl.accept pending (line.dropEndWhile (· = '\n')).toString) st with
    | (some pending, st) => takeLines pending st
    | (none, _) => return 1

/-- The source file that the arguments name, if it can be read. -/
def sourceOf (args : List String) : IO Shell.Files := do
  match (Shell.Options.parse args).toOption.bind (·.arguments.head?) with
  | none => return []
  | some path =>
    try
      return [(path, ← IO.FS.readFile path)]
    catch _ => return []

end CommandLine

end HostedLisp

open HostedLisp in
def main (args : List String) : IO UInt32 := do
  let files ← CommandLine.sourceOf args
  let terminal ← (← IO.getStdin).isTty
  let st : ShellState := { files := files, terminal := terminal }
  match ← CommandLine.run (Shell.launch Shell.programName args) st with
  | (none, _) => return 1
  | (some (some (.exit code)), _) => return code.toUInt32
  | (some (some (.value _)), _) => return 0
  | (some none, st) => CommandLine.takeLines none st
