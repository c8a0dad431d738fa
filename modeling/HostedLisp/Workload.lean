import HostedLisp.Library.Functions

/-!
# Workloads

Small programs that use one part of the system each, in a size that can be chosen. Their results sum
up what they have built, so that two runs can be compared.

- `Workload.run`: a workload by name.
-/

namespace HostedLisp.Workload

open SessionM

inductive Result where
  | value (v : Value)
  /-- The code of each form, if it could be compiled. -/
  | code (forms : List (Option Instrs))

variable (n : Nat)

/-- Send a message with each number below `n`, starting from a value. -/
def forEach (v : Value) (step : Value → Int → SessionM Value) : SessionM Value :=
  (List.range n).foldlM (fun v (i : Nat) => step v i) v

def sum (vs : List Value) : SessionM Value := lift (vs.foldlM Value.add (.int 0))

def count (s : Value) : SessionM Value := do return .int (← itemsOf s).length

/-- Vectors: all numbers are added, each is replaced by its successor, and all are removed again. -/
def vectors : SessionM Value := do
  let v ← forEach n (Value.vectorOf []) fun v i => send v "cons" [.int i]
  let raised ← forEach n v fun v i => send v "assocN" [.int i, .int (i + 1)]
  let middle ← send v "nth" [.int (n / 2 : Nat), .int 0]
  let total ← sum ((← itemsOf v) ++ (← itemsOf raised) ++ [middle])
  let emptied ← forEach n v fun v _ => send v "pop" []
  return .tuple [total, ← Library.call "size" [v], ← send v "nth" [.int 0, .nil],
    ← send v "peek" [], ← Library.call "size" [emptied]]

/-- The key of a number in a hash map. -/
def keyOf (i : Int) : Value := .str ("k" ++ Text.decimal i)

/-- Hash maps: keys and nil are added, every other key is removed. -/
def hashMaps : SessionM Value := do
  let m ← forEach n (← lift (Value.mapOf [])) fun m i => send m "assoc" [keyOf i, .int i]
  let m ← send m "assoc" [.nil, .int n]
  let odd ← forEach ((n + 1) / 2) m fun m i => send m "without" [keyOf (2 * i)]
  let entries := (← lift (Value.walk (← send m "seq" []))).toList
  let total ← sum (← entries.mapM fun e => send e "getValue" [])
  return .tuple [total, ← Library.call "size" [m], ← Library.call "size" [odd], .int entries.length,
    ← send m "valAt" [keyOf (n / 4 : Nat), .int 0]]

/-- Sorted maps: keys are added and every other one is removed. -/
def sortedMaps : SessionM Value := do
  let m ← forEach n (← Library.call "tree-map" []) fun m i => send m "assoc" [.int i, .int (2 * i)]
  let odd ← forEach ((n + 1) / 2) m fun m i => send m "without" [.int (2 * i)]
  let vals ← (List.range n).mapM fun (i : Nat) => send m "valAt" [.int i]
  let up ← lift (Value.walk (← send m "seq" []))
  let down ← lift (Value.walk (← send m "rseq" []))
  return .tuple [← sum vals, ← send m "count" [], ← send odd "count" [], .int up.size,
    .int down.size]

/-- Lists: numbers are put in front, and one more that is taken away again. -/
def lists : SessionM Value := do
  let l ← forEach n (Value.listOf []) fun l i => send l "cons" [.int i]
  let longer ← send l "cons" [.int (-1)]
  let shorter ← send longer "pop" []
  return .tuple [← sum (← itemsOf l), ← Library.call "size" [l], ← send l "hasheq" [],
    ← Library.call "size" [shorter], ← send longer "first" []]

/-- Atoms: a counter goes up, and another value is put in its place. -/
def atoms : SessionM Value := do
  let a ← Library.call "Atom" [.int 0]
  let counted ← forEach n (.int 0) fun _ _ => send a "swap" [.primitive .inc]
  let _ ← send a "reset" [.int 123]
  return .tuple [← send a "deref" [], counted]

def formsOf (text : String) : SessionM (List Value) := do
  let s ← get
  let r := Reader.readAll false (s.readEnv .unbound) text s.lastId
  set { s with lastId := r.state.lastId }
  match r.failure with
  | some e => throw e
  | none => return r.forms

def lines (line : Nat → String) : String := "\n".intercalate ((List.range n).map line)

/-- Reading function literals, quotations and metadata: so many forms, in groups of five. -/
def functionLiterals : SessionM Value := do
  let group := ["#(+ %1 %2 %& (* %1 %1))", "`foo#", "~bar", "~@baz", "^\x7b:m 1\x7d [1 2 3]"]
  return .array (← formsOf (lines (n / 5) fun _ => "\n".intercalate group))

/-- Printing in both ways: the number of characters of all texts. -/
def printing : SessionM Value := do
  let forms ← formsOf (lines n fun i =>
    let i := Nat.repr i
    "(a b :k" ++ i ++ " \"s" ++ i ++ "\" [1 2 " ++ i ++ "] \x7b:x " ++ i
      ++ "\x7d true nil user/name)")
  let view ← viewer
  let lengths ← forms.mapM fun v => do
    let plain ← lift (v.write view false)
    let readable ← lift (v.write view true)
    return plain.text.length + readable.text.length
  return .int (lengths.foldl (· + ·) 0 : Nat)

/-- The forms of the compiler's workload, in turns. -/
def formText (i : Nat) : String :=
  match i % 8 with
  | 0 => "(def x 1)"
  | 1 => "(let* [a 1] (+ a 1))"
  | 2 => "(fn* [a] a)"
  | 3 => "(if* true 1 2)"
  | 4 => "(loop* [i 0] (recur i))"
  | 5 => "(quote (a b c))"
  | 6 => "[1 2 3 \x7b:a 1\x7d #\x7b1 2\x7d]"
  | _ => "(. a b)"

def compiling : SessionM (List (Option Instrs)) := do
  let ns ← openNamespace "user"
  withCompiler ns "<unknown>" do
    let (outs, _) ← CompileM.compileText {} (lines n formText)
    return outs.toList.map fun o => o.code.toOption

def run (name : String) (n : Nat) : SessionM Result := do
  if name = "compiling" then return .code (← compiling n)
  let others := [("vectors", vectors), ("hash-maps", hashMaps), ("sorted-maps", sortedMaps),
    ("lists", lists), ("atoms", atoms), ("function-literals", functionLiterals),
    ("printing", printing)]
  match others.lookup name with
  | some f => return .value (← f n)
  | none => fault .attribute

end HostedLisp.Workload
