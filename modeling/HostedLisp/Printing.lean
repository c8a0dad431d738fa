import HostedLisp.Equality
import HostedLisp.Text.Regex

/-!
# Printing

Four ways of showing a value. `write` prints for people or, with `readable` set, for the reader;
`shown` gives a plain text and `inspect` a text that tells the class of most collections.

- `Written`: printed text, and whether a part of it was written as octets.
- `RefView`: how a thing held by address shows itself.
- `Value.writeAt`, `Value.showAt`, `Value.inspectAt`: the printers, with a bound on the nesting.
-/

namespace HostedLisp

open Coll

/-- Printed text. Strings and patterns are written as octets, all else as text. -/
structure Written where
  text : String
  octets : Bool
  deriving DecidableEq, Repr, Inhabited

namespace Written

def ofText (s : String) : Written := ⟨s, false⟩

def ofOctets (s : String) : Written := ⟨s, true⟩

/-- Print one after the other. -/
def append (a b : Written) : Written := ⟨a.text ++ b.text, a.octets || b.octets⟩

instance : Append Written := ⟨append⟩

def join (sep : String) : List Written → Written
  | [] => ofText ""
  | [w] => w
  | w :: ws => w ++ ofText sep ++ join sep ws

end Written

/-- How a thing held by address shows itself. -/
structure RefView where
  className : ClassName
  shown : Except Error String
  inspected : Except Error String
  written : (readable : Bool) → Except Error Written

/-- How the things of a session show themselves. -/
abbrev Viewer := Address → RefView

namespace Viewer

/-- Where nothing is held by address. -/
def none : Viewer := fun _ =>
  { className := .basic "object"
    shown := return "<object object at 0xADDR>"
    inspected := return "<object object at 0xADDR>"
    written := fun _ => return .ofText "<object object at 0xADDR>" }

end Viewer

namespace Value

variable (view : Viewer)

def classOf (v : Value) : ClassName :=
  match v with
  | .ref a => (view a).className
  | v => v.className

/-- The text of an integer; very long ones are refused. -/
def intText (n : Int) : Except Error String :=
  let s := Text.decimal n
  if s.length > Text.maxDigits + 1 ∨ (n ≥ 0 ∧ s.length > Text.maxDigits) then fault .value
  else return s

def ratioText (q : Rat) : Except Error String := do
  if q.den = 1 then intText q.num
  else return (← intText q.num) ++ "/" ++ (← intText q.den)

/-- The names under which functions show themselves. -/
def primitiveName : Primitive → String
  | .fail | .macroThrow => "_thrower"
  | _ => "<lambda>"

/-- The text of values that show and inspect alike. -/
def plainText? : Value → Option (Except Error String)
  | .nil => some (return "None")
  | .bool b => some (return if b then "True" else "False")
  | .int n => some (intText n)
  | .float x => some (return Number.floatText x)
  | .nan _ => some (return Number.floatText Number.nan)
  | .regex p => some (return Regex.shown p)
  | .bytes b => some (return Text.quoteBytes b)
  | .symbol s _ => some (return s.text)
  | .keyword s => some (return ":" ++ s.text)
  | .emptyList _ => some (return "()")
  | .primitive p => some (return "<function " ++ primitiveName p ++ " at 0xADDR>")
  | .builtin n => some (return "<built-in function " ++ n ++ ">")
  | .type home name => some (return (ClassName.mk home name).shown)
  | .module n => some (return "<module '" ++ n ++ "'>")
  | .opcode o => some (return o.name)
  | .lineMarker => some (return "SetLineno")
  | .label l => some (return "Label: " ++ l.name)
  | .method => some (return "<bound method>")
  | v@(.arrayMap ..) | v@(.treeMap ..) | v@(.treeNode _) | v@(.comparator _) | v@(.code _)
  | v@(.thing ..) => some (return (v.classOf view).object)
  | _ => none

/-! ## Writing -/

/-- Write an item of one of the kinds that hold no others. -/
def writeLeaf (readable : Bool) (v : Value) : Except Error Written :=
  match v with
  | .nil => return .ofText "nil"
  | .bool b => return .ofText (if b then "true" else "false")
  | .int n => do return .ofText (← intText n)
  | .float x => return .ofText (Number.floatText x)
  | .nan _ => return .ofText (Number.floatText Number.nan)
  | .str s =>
    return .ofOctets (if readable then "\"" ++ Text.readable s ++ "\"" else s)
  | .wide _ => fault .encoding
  | .regex p => return .ofOctets ("#\"" ++ Text.readable p ++ "\"")
  | .symbol s _ => return .ofText s.text
  | .keyword s => return .ofText (":" ++ s.text)
  | .emptyList _ => return .ofText "()"
  | .type home name => return .ofText ("#<" ++ home ++ "." ++ name ++ ">")
  | .primitive p => return .ofText ("#<function " ++ primitiveName p ++ " at 0xADDR>")
  | .ref a => (view a).written readable
  | v =>
    let c := v.classOf view
    if readable then return .ofText ("#" ++ c.object)
    else match plainText? view v with
      | some r => do return .ofText (← r)
      | none => match v with
        | .ratio q => do return .ofText (← ratioText q)
        | .numeral s => return .ofText s
        | _ => return .ofText c.object

/-- The key and the value of each entry of a map's sequence. -/
def entryPairs (es : List Value) : Except Error (List (Value × Value)) := es.mapM entryOf

mutual

def writeAt (readable : Bool) : (depth : Nat) → Value → Except Error Written
  | 0, _ => fault .recursion
  | depth + 1, v =>
    match v with
    | .vector .. | .subvector .. | .entry .. => do
      let ws ← (← v.items).mapM (writeAt readable depth)
      return .ofText "[" ++ .join " " ws ++ .ofText "]"
    | .list .. | .cons .. | .indexSeq .. | .keySeq .. | .valSeq .. | .trieSeq .. | .treeSeq ..
    | .arraySeq .. => do
      let ws ← (← walk v).toList.mapM (writeAt readable depth)
      return .ofText "(" ++ .join " " ws ++ .ofText ")"
    | .hashMap .. | .arrayMap .. | .treeMap .. => do
      let pairs ← entryPairs (← walk (← seqMethod v)).toList
      let ws ← pairs.mapM fun (k, w) => do
        return (← writeAt readable depth k) ++ .ofText " " ++ (← writeAt readable depth w)
      return .ofText "\x7b" ++ .join ", " ws ++ .ofText "\x7d"
    | .hashSet .. => do
      let ws ← (← v.items).mapM (writeAt readable depth)
      return .ofText "#\x7b" ++ .join " " ws ++ .ofText "\x7d"
    | .tuple _ | .array _ | .dict _ =>
      if readable then return .ofText ("#" ++ (v.classOf view).object)
      else do return .ofText (← inspectAt depth v)
    | v => writeLeaf view readable v

def showAt : (depth : Nat) → Value → Except Error String
  | 0, _ => fault .recursion
  | depth + 1, v =>
    match v with
    | .str s | .numeral s => return s
    | .ratio q => ratioText q
    | .vector .. | .subvector .. => do
      return "[" ++ ", ".intercalate (← (← v.items).mapM (showAt depth)) ++ "]"
    | .entry .. => throw (.abstractIn "MapEntry")
    | .list .. | .cons .. | .indexSeq .. | .keySeq .. | .valSeq .. | .trieSeq .. | .treeSeq ..
    | .arraySeq .. => do
      let xs ← walk v
      return "(" ++ ", ".intercalate (← xs.toList.mapM (showAt depth)) ++ ")"
    | .hashSet .. => do
      let xs ← v.items
      if xs.isEmpty then return "set()"
      else return "set([" ++ ", ".intercalate (← xs.mapM (showAt depth)) ++ "])"
    | .ref a => (view a).shown
    | v => inspectAt depth v

/-- Inspect a value. Collections print themselves into a buffer that takes no octets. -/
def inspectAt : (depth : Nat) → Value → Except Error String
  | 0, _ => fault .recursion
  | depth + 1, v =>
    match v with
    | .tuple [x] => do return "(" ++ (← inspectAt depth x) ++ ",)"
    | .tuple xs => do return "(" ++ ", ".intercalate (← xs.mapM (inspectAt depth)) ++ ")"
    | .array xs => do return "[" ++ ", ".intercalate (← xs.mapM (inspectAt depth)) ++ "]"
    | .dict kvs => do
      let ps ← kvs.mapM fun (k, w) => do
        return (← inspectAt depth k) ++ ": " ++ (← inspectAt depth w)
      return "\x7b" ++ ", ".intercalate ps ++ "\x7d"
    | .str s | .numeral s => return Text.quote s
    | .wide codes => return Text.quoteCodes codes
    | .ratio q => do return "Fraction(" ++ (← intText q.num) ++ ", " ++ (← intText q.den) ++ ")"
    | .ref a => (view a).inspected
    | .hashMap m _ => do
      let ps ← (tableEntries m).mapM fun (k, w) => do
        return (← inspectAt depth k) ++ " " ++ (← inspectAt depth w)
      return "\x7b" ++ " ".intercalate ps ++ "\x7d"
    | .indexSeq source i => do
      let n ← indexedLen source
      let xs ← (List.range (n - i).toNat).mapM fun (k : Nat) => indexedItem source (i + k)
      return "[" ++ " ".intercalate (← xs.mapM (showAt depth)) ++ "]"
    | v => match plainText? view v with
      | some r => r
      | none => do
        let w ← writeAt true depth v
        if w.octets then fault .type
        else
          let c := v.classOf view
          return "<" ++ c.home ++ "." ++ c.name ++ " object at 0xADDR " ++ w.text ++ ">"

end

def write (readable : Bool) (v : Value) : Except Error Written := writeAt view readable depthLimit v

def shown (v : Value) : Except Error String := showAt view depthLimit v

def inspect (v : Value) : Except Error String := inspectAt view depthLimit v

end Value

end HostedLisp
