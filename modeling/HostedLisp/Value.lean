import HostedLisp.Coll.Vector
import HostedLisp.Coll.HashTrie
import HostedLisp.Coll.RedBlack
import HostedLisp.Machine.Opcode

/-!
# Values

The values that forms are made of and that programs compute with.

- `Symbol`: a name with an optional namespace.
- `Primitive`, `Comparator`: the stock of functions and orders that can be passed as values.
- `Value`: all values. Immutable values are held by content; things with an identity and a state of
  their own (references, namespaces, types made at run time) are held by their `Address` in a
  session.
- `ClassName`: the name of a class of values and the module that it is at home in.
- `Value.className`: the class of a value, for all but things held by address.
-/

namespace HostedLisp

open Coll Machine

/-- A name, possibly qualified by a namespace. -/
structure Symbol where
  ns : Option String
  name : String
  deriving DecidableEq, Repr, Inhabited

namespace Symbol

def plain (name : String) : Symbol := ⟨none, name⟩

/-- A symbol as it is written. -/
def text (s : Symbol) : String :=
  match s.ns with
  | none => s.name
  | some ns => ns ++ "/" ++ s.name

/-- Split a written name at its last slash; a slash alone is a name. -/
def ofText (s : String) : Symbol :=
  let cs := s.toList
  let tail := cs.reverse.takeWhile (· ≠ '/')
  if s = "/" ∨ tail.length = cs.length then ⟨none, s⟩
  else ⟨some (String.ofList (cs.take (cs.length - tail.length - 1))), String.ofList tail.reverse⟩

end Symbol

/-- The functions that can be passed as values. The last seven expand macros. -/
inductive Primitive where
  | add | mul | sub | inc | identity | first | second | list | count
  | always (answer : Option Bool)
  | isPositive | isEven | typeName | fail
  | macroFirst | macroLast | macroDo | macroVector | macroCount | macroNil | macroThrow
  deriving DecidableEq, Repr, Inhabited

def Primitive.named? : String → Option Primitive
  | "add" => some .add
  | "mul" => some .mul
  | "sub" => some .sub
  | "inc" => some .inc
  | "identity" => some .identity
  | "first" => some .first
  | "second" => some .second
  | "list" => some .list
  | "count" => some .count
  | "true" => some (.always (some true))
  | "false" => some (.always (some false))
  | "nil" => some (.always none)
  | "pos?" => some .isPositive
  | "even?" => some .isEven
  | "typename" => some .typeName
  | "throw" => some .fail
  | "m-first" => some .macroFirst
  | "m-last" => some .macroLast
  | "m-do" => some .macroDo
  | "m-vec" => some .macroVector
  | "m-count" => some .macroCount
  | "m-nil" => some .macroNil
  | "m-throw" => some .macroThrow
  | _ => none

/-- The orders that can be passed as values. -/
inductive Comparator where
  | natural
  /-- An order that a program brings along. -/
  | custom (name : String)
  deriving DecidableEq, Repr, Inhabited

/-- How a list cell came about. -/
inductive ListStyle where
  | plain
  /-- A list that also answers the method `next`, which most special forms need. -/
  | stepping
  /-- A single item without a place for metadata. -/
  | bare
  deriving DecidableEq, Repr, Inhabited

/-- Where a thing with state is found in its session. -/
abbrev Address := Nat

/-- A value. The fields named `info` hold metadata, nil when there is none. -/
inductive Value where
  | nil
  | bool (b : Bool)
  | int (n : Int)
  | float (x : Float)
  /-- A float that is no number, an object of its own: it is equal to nothing, and its mark tells it
  from others. -/
  | nan (mark : Nat)
  | ratio (q : Rat)
  | str (s : String)
  /-- A string that holds surrogates, which no `String` can, as its code points. -/
  | wide (codes : List Nat)
  | bytes (octets : List Nat)
  /-- A numeral handed over in the form that big numbers accept. -/
  | numeral (s : String)
  | regex (pattern : String)
  | symbol (name : Symbol) (info : Value)
  | keyword (name : Symbol)
  | emptyList (info : Value)
  | list (style : ListStyle) (first rest : Value) (count : Int) (info : Value)
  | cons (first rest : Value) (info : Value)
  | vector (items : Vector Value) (info : Value)
  /-- The items of `base` from `start` up to `stop`. -/
  | subvector (base : Value) (start stop : Int) (info : Value)
  | entry (key val : Value)
  | hashMap (table : HashMap Value Value) (info : Value)
  /-- A set binds each of its elements to itself. -/
  | hashSet (table : HashMap Value Value) (info : Value)
  /-- Keys and values in turn, in an array that is `fixed` or can grow. -/
  | arrayMap (items : List Value) (fixed : Bool) (info : Value)
  | treeMap (order : Comparator) (tree : Tree Value Value) (count : Value) (info : Value)
  | treeNode (tree : Tree Value Value)
  /-- The items of an indexed collection from `start` on. -/
  | indexSeq (source : Value) (start : Int)
  | keySeq (entries : Value) (info : Value)
  | valSeq (entries : Value) (info : Value)
  /-- The remaining entries of a hash trie, walked from a dense or a sparse root. -/
  | trieSeq (dense : Bool) (entries : List (Value × Value)) (info : Value)
  | treeSeq (stack : List (Tree Value Value)) (ascending : Bool) (count : Int) (info : Value)
  | arraySeq (items : List Value) (start : Int) (info : Value)
  | tuple (items : List Value)
  | array (items : List Value)
  | dict (pairs : List (Value × Value))
  | primitive (p : Primitive)
  /-- A function of the host, by name. -/
  | builtin (name : String)
  | comparator (c : Comparator)
  | type (home name : String)
  | module (name : String)
  | opcode (o : Opcode)
  | lineMarker
  | label (l : Label)
  | code (unit : CodeUnit Value)
  /-- A method taken off its object without being called. -/
  | method
  /-- A thing of some class that has no further properties. -/
  | thing (home className : String)
  | ref (address : Address)
  deriving Inhabited

/-- The name of a class and of its home. -/
structure ClassName where
  home : String
  name : String
  deriving DecidableEq, Repr, Inhabited

namespace ClassName

/-- A class that is there without being imported. -/
def basic (name : String) : ClassName := ⟨"builtins", name⟩

def lang (home name : String) : ClassName := ⟨"clojure.lang." ++ home, name⟩

/-- The qualified name; the home of a basic class goes without saying. -/
def qualified (c : ClassName) : String :=
  if c.home = "builtins" then c.name else c.home ++ "." ++ c.name

def shown (c : ClassName) : String := "<class '" ++ c.qualified ++ "'>"

/-- How an object of this class shows itself when it has nothing better to show. -/
def object (c : ClassName) : String := "<" ++ c.home ++ "." ++ c.name ++ " object at 0xADDR>"

/-- Classes of values and references by their own names; any other class is basic. -/
def named : String → ClassName
  | "Fraction" => ⟨"fractions", "Fraction"⟩
  | "Symbol" => .lang "symbol" "Symbol"
  | "Keyword" => .lang "cljkeyword" "Keyword"
  | "PersistentList" => .lang "persistentlist" "PersistentList"
  | "EmptyList" => .lang "persistentlist" "EmptyList"
  | "PersistentVector" => .lang "persistentvector" "PersistentVector"
  | "SubVec" => .lang "apersistentvector" "SubVec"
  | "PersistentHashMap" => .lang "persistenthashmap" "PersistentHashMap"
  | "PersistentHashSet" => .lang "persistenthashset" "PersistentHashSet"
  | "MapEntry" => .lang "mapentry" "MapEntry"
  | "Cons" => .lang "cons" "Cons"
  | "IndexableSeq" => .lang "indexableseq" "IndexableSeq"
  | "Var" => .lang "var" "Var"
  | "Atom" => .lang "atom" "Atom"
  | "PersistentTreeMap" => .lang "persistenttreemap" "PersistentTreeMap"
  | n => .basic n

end ClassName

/-- The class of a tree node, which tells its colour, whether it has room for children, and whether
it holds a value. -/
def Coll.Tree.className {K V : Type} : Tree K V → String
  | .empty => "NoneType"
  | .node color branch _ val _ _ =>
    (match color with | .red => "Red" | .black => "Black")
      ++ (if branch then "Branch" else "") ++ (if val.isSome then "Val" else "")

/-- The class of a value. Nothing is known here about things held by address. -/
def Value.className : Value → ClassName
  | .nil => .basic "NoneType"
  | .bool _ => .basic "bool"
  | .int _ => .basic "int"
  | .float _ | .nan _ => .basic "float"
  | .ratio _ => ⟨"fractions", "Fraction"⟩
  | .str _ | .wide _ => .basic "str"
  | .bytes _ => .basic "bytes"
  | .numeral _ => ⟨"__main__", "GStr"⟩
  | .regex _ => ⟨"re", "Pattern"⟩
  | .symbol .. => .lang "symbol" "Symbol"
  | .keyword _ => .lang "cljkeyword" "Keyword"
  | .emptyList _ => .lang "persistentlist" "EmptyList"
  | .list .stepping .. => ⟨"__main__", "NList"⟩
  | .list .. => .lang "persistentlist" "PersistentList"
  | .cons .. => .lang "cons" "Cons"
  | .vector .. => .lang "persistentvector" "PersistentVector"
  | .subvector .. => .lang "apersistentvector" "SubVec"
  | .entry .. => .lang "mapentry" "MapEntry"
  | .hashMap .. => .lang "persistenthashmap" "PersistentHashMap"
  | .hashSet .. => .lang "persistenthashset" "PersistentHashSet"
  | .arrayMap .. => .lang "persistentarraymap" "PersistentArrayMap"
  | .treeMap .. => .lang "persistenttreemap" "PersistentTreeMap"
  | .treeNode t => .lang "persistenttreemap" t.className
  | .indexSeq .. => .lang "indexableseq" "IndexableSeq"
  | .keySeq .. => .lang "apersistentmap" "KeySeq"
  | .valSeq .. => .lang "apersistentmap" "ValueSeq"
  | .trieSeq true .. => .lang "persistenthashmap" "Seq"
  | .trieSeq false .. => .lang "persistenthashmap" "NodeSeq"
  | .treeSeq .. => .lang "persistenttreemap" "Seq"
  | .arraySeq .. => .lang "persistentarraymap" "Seq"
  | .tuple _ => .basic "tuple"
  | .array _ => .basic "list"
  | .dict _ => .basic "dict"
  | .primitive _ => .basic "function"
  | .builtin _ => .basic "builtin_function_or_method"
  | .comparator .natural => .lang "rt" "DefaultComparator"
  | .comparator _ => ⟨"__main__", "Comparator"⟩
  | .type .. => .basic "type"
  | .module _ => .basic "module"
  | .opcode _ => ⟨"clojure.util.byteplay", "Opcode"⟩
  | .lineMarker => ⟨"clojure.util.byteplay", "SetLinenoType"⟩
  | .label _ => ⟨"clojure.util.byteplay", "Label"⟩
  | .code _ => ⟨"clojure.util.byteplay", "Code"⟩
  | .method => .basic "method"
  | .thing home name => ⟨home, name⟩
  | .ref _ => .basic "object"

end HostedLisp
