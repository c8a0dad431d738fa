import HostedLisp.Collection.Sequences
import HostedLisp.Reader.Token

/-!
# Things with a state of their own

A map under construction: an array of keys and values in turn that is changed in place by the
thread that made it, until it is turned into a persistent map.

What the session holds under an address.

- `TransientMap`: the array and its owner.
- `TransientMap.checkEditable`: only the owner may use it.
- `TransientMap.indexOf`, `assoc`, `erase`, `get`: the operations.
- `Namespace`, `Var`, `Frame`: names, the places behind them, and the bindings of a thread.
- `Atom`: a reference that changes by itself.
- `UserType`, `ProtocolFn`, `Protocol`: classes made at run time, and functions that classes extend.
- `TrieCell`: a trie node that is changed in place.
- `StreamSeq`, `BigNumber`: sequences that read on demand, numbers that are changed in place.
- `Cell`: any of these.
-/

namespace HostedLisp

open Coll

/-! ## Transient maps -/

/-- A map under construction. -/
structure TransientMap where
  /-- The thread that may change it; none once it is persistent. -/
  owner : Option Nat
  /-- Keys and values in turn. -/
  items : List Value
  /-- Whether the array was made from a tuple, which cannot be changed. -/
  fixed : Bool := false
  deriving Inhabited

namespace TransientMap

variable (t : TransientMap)

/-- Only the owner may use it. -/
def checkEditable (thread : Nat) : Except Error Unit :=
  match t.owner with
  | none => throw (.signal .illegalAccess "Transient used by non-owner thread")
  | some owner =>
    if owner = thread then return ()
    else throw (.signal .illegalAccess "Transient used after persistent! call")

/-- The index of a key, from `i` on. -/
def indexFrom (key : Value) : List Value → (i : Nat) → Except Error (Option Nat)
  | [], _ => return none
  | [k], i => do if ← Value.eq k key then return some i else return none
  | k :: _ :: rest, i => do if ← Value.eq k key then return some i else indexFrom key rest (i + 2)

def indexOf? (key : Value) : Except Error (Option Nat) := indexFrom key t.items 0

/-- Bind a key in place. A full array cannot grow. -/
def assoc (key val : Value) : Except Error TransientMap := do
  match ← t.indexOf? key with
  | some i =>
    match t.items[i + 1]? with
    | none => fault .index
    | some old =>
      if ← Value.eq old val then return t
      else if t.fixed then fault .type
      else return { t with items := t.items.set (i + 1) val }
  | none =>
    if t.items.length > Value.arrayMapLimit then
      -- the array as a whole takes the place of the first key of a new map
      if ← Value.eq (.array t.items) key then fault .index else fault .attribute
    else if t.fixed then fault .attribute
    else return { t with items := t.items ++ [key, val] }

def erase (key : Value) : Except Error TransientMap := do
  match ← t.indexOf? key with
  | some i => return { t with items := t.items.take i ++ t.items.drop (i + 2) }
  | none => return t

def get (key default : Value) : Except Error Value := do
  match ← t.indexOf? key with
  | some i =>
    match t.items[i + 1]? with
    | some v => return v
    | none => fault .index
  | none => return default

/-- The persistent map with the same bindings. -/
def toMap : Value := .arrayMap t.items t.fixed .nil

end TransientMap

/-! ## Cells -/

/-- A collection of named things. -/
structure Namespace where
  name : String
  members : List (String × Value)
  /-- Short names for other namespaces, once there are any. -/
  aliases : Option (List (Symbol × Value)) := none
  deriving Inhabited

/-- A place for a value that threads can rebind. -/
structure Var where
  ns : Value := .nil
  sym : Value := .nil
  root : Value
  threadBound : Bool := false
  info : Value := Value.emptyMap
  dynamic : Value := .bool false
  isPublic : Value := .bool true
  /-- The check on new values; `none` as long as nobody has set one. -/
  validator : Option Value := none
  deriving Inhabited

/-- The vars that a thread has bound, each to a box, and the frame to go back to. -/
structure Frame where
  bindings : List (Address × Address) := []
  prev : Option Address := none
  deriving Inhabited

/-- A reference that changes by itself. -/
structure Atom where
  state : Value
  info : Value := .nil
  validator : Value := .nil
  watches : Value.Table := .empty
  deriving Inhabited

/-- A class made at run time. -/
structure UserType where
  name : String
  bases : List Value := []
  members : List (String × Value) := []
  deriving Inhabited

/-- A function that chooses what to do by the class of its first argument. -/
structure ProtocolFn where
  name : String
  /-- The name in the protocol that it belongs to. -/
  shortName : Option String := none
  /-- What was put into classes, which their heirs share. -/
  inClasses : List (Value × Value) := []
  /-- What is kept for classes that take no new members. -/
  table : List (Value × Value) := []
  default : Value := .nil
  deriving Inhabited

/-- A group of functions that classes can take up together. -/
structure Protocol where
  ns : Value
  name : Value
  names : Value
  fns : List (String × Value)
  implementors : List Value := []
  deriving Inhabited

/-- The shape of a trie node that is changed in place. -/
inductive TrieShape where
  | sparse (bits : Int)
  | dense (count : Int)
  | collision (hash count : Int)
  deriving Inhabited

/-- A trie node that is changed in place. A sparse or collision node lists keys and values in turn,
where a nil key stands before a child; a dense node lists its children. -/
structure TrieCell where
  /-- Who may change the node in place. -/
  edit : Value
  shape : TrieShape
  slots : List Value
  deriving Inhabited

/-- A sequence of the characters of a stream, which are read when they are asked for. -/
structure StreamSeq where
  /-- The stream, unless the sequence was made from parts. -/
  stream : Option Address
  line : Value
  col : Value
  current : Value
  /-- What follows, once it was asked for. -/
  next : Option Address := none
  deriving Inhabited

/-- A number that is changed in place. Only integers are ever different from zero. -/
inductive BigNumber where
  | integer (n : Int)
  | rational
  | float
  /-- A source of random numbers. -/
  | random
  deriving DecidableEq, Repr, Inhabited

/-- A thing with a state of its own. -/
inductive Cell where
  | namespace (n : Namespace)
  | var (v : Var)
  /-- The root of a var that has none. -/
  | unbound (of : Value)
  | frame (f : Frame)
  /-- The value that a thread has bound a var to. -/
  | threadBox (thread : Nat) (val : Value)
  | atom (a : Atom)
  | box (val : Value)
  /-- A value that is changed in one step: a cell, or else a counter. -/
  | atomic (counter : Bool) (val : Value)
  /-- A function chosen by a selector. -/
  | multi (selector : Value)
  | transient (t : TransientMap)
  | trieNode (n : TrieCell)
  /-- A node of a sorted map that has no colour. -/
  | bareNode (key : Value)
  /-- The items that are still to come, and the failure that may end them. -/
  | generator (rest : List Value) (failure : Option Error)
  /-- A walk over the nodes of a sorted map. -/
  | nodeWalk (stack : List (Tree Value Value)) (ascending : Bool)
  /-- A walk over the keys, or else the values, of another walk. -/
  | partWalk (keys : Bool) (source : Value)
  /-- The empty set that others are built from. -/
  | sharedSet
  | userType (t : UserType)
  /-- A thing of a class made at run time. -/
  | object (type : Value) (fields : List (String × Value))
  | protocolFn (p : ProtocolFn)
  | protocol (p : Protocol)
  /-- A function without arguments that always gives the same. -/
  | constant (val : Value)
  /-- A position in a text. -/
  | textReader (c : Cursor)
  /-- The characters that are left of a stream and the number of those that were taken. -/
  | textStream (rest : List Char) (taken : Nat)
  | streamSeq (s : StreamSeq)
  /-- A stream sequence that was made without any parts. -/
  | hollowSeq
  /-- A sequence that moves along another one and can go back once. -/
  | movingSeq (current previous : Value)
  /-- Numbers given to the things that were written. -/
  | writerState (seen : List (Value × Int)) (last : Int)
  | bigNumber (n : BigNumber)
  /-- A thing that is no more than its named parts. -/
  | record (cls : ClassName) (fields : List (String × Value))
  deriving Inhabited

end HostedLisp
