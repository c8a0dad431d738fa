import HostedLisp.Message.Method
import HostedLisp.Session.Streams

/-!
# Methods of vectors, lists, sequences and readers
-/

namespace HostedLisp.Message

open Coll Method Value SessionM

/-- The metadata of a value. -/
def askInfo : Method := ask fun v => return v.info

/-- Attaching metadata. -/
def askWithInfo : Method := ask1 Value.withInfo

def vectorMethods : Methods := [
  ("nth", ⟨1, some 2, fun v args => SessionM.lift (nthAt v (args[0]?.getD .nil) args[1]?)⟩),
  ("assocN", ask2 assocN),
  ("assoc", ask2 assocN),
  ("cons", ask1 push),
  ("pop", ask popLast),
  ("peek", ask peekLast),
  ("seq", ask seqMethod),
  ("count", ask fun v => do return .int (← v.indexedLen)),
  ("empty", ask fun v => return .vector .empty v.info),
  ("meta", askInfo),
  ("withMeta", askWithInfo),
  ("_arrayFor", ask1 fun v i =>
    match v with
    | .vector xs _ => blockAt xs i
    | _ => fault .attribute),
  ("_tailoff", ask fun v =>
    match v with
    | .vector xs _ => return .int xs.tailStart
    | _ => fault .attribute),
  ("containsKey", required 1 1),
  ("entryAt", required 1 1),
  ("valAt", required 1 2),
  ("rseq", required 0 0)]

def sliceMethods : Methods := [
  ("nth", ask1 fun v i => nthAt v i none),
  ("assoc", required 2 2)]
    ++ vectorMethods.filter fun (name, _) => name ≠ "_arrayFor" && name ≠ "_tailoff"

def entryMethods : Methods := [
  ("getKey", ask fun e => do return (← entryOf e).1),
  ("getValue", ask fun e => do return (← entryOf e).2),
  ("asVector", ask fun e => do
    let (k, v) ← entryOf e
    return entryVector k v),
  ("empty", ask fun _ => return .nil),
  ("nth", required 1 2)]
    ++ sliceMethods.filter fun (name, _) => name ≠ "meta" && name ≠ "withMeta"

/-- Combine the items of a list by a function, the first two first. -/
def reduceList (self : Value) (args : List Value) : SessionM Value := do
  let items ← SessionM.lift (walk self)
  let rest := items.toList.drop 1
  let head ← SessionM.lift self.first
  match args with
  | [f] => rest.foldlM (fun acc x => SessionM.apply f [acc, x]) head
  | [f, start] => do
    rest.foldlM (fun acc x => SessionM.apply f [acc, x]) (← SessionM.apply f [start, head])
  | _ => throw .badArity

/-- The methods of all sequences but the empty list. -/
def seqMethods : Methods := [
  ("first", ask Value.first),
  ("more", ask more),
  ("seq", ask fun s => return s),
  ("cons", ask1 conj),
  ("hasheq", ask fun s => do return .int (← hashSum s)),
  ("meta", askInfo),
  ("withMeta", askWithInfo),
  ("count", required 0 0),
  ("empty", required 0 0)]

def listMethods : Methods := [
  ("peek", ask peek),
  ("pop", ask pop),
  ("empty", ask fun l => return .emptyList l.info),
  ("reduce", actAny reduceList)] ++ seqMethods

/-- The methods of lists that step with a message. -/
def steppingListMethods : Methods := ("next", ask Value.next) :: listMethods

def emptyListMethods : Methods := [
  ("first", ask fun _ => return .nil),
  ("more", ask fun l => return l),
  ("seq", ask fun _ => return .nil),
  ("cons", ask1 conj),
  ("empty", ask fun l => return l),
  ("peek", ask peek),
  ("pop", ask pop),
  ("count", ask fun _ => return .int 0),
  ("meta", askInfo),
  ("withMeta", askWithInfo)]

def arraySeqMethods : Methods := [
  ("count", ask fun s =>
    match s with
    | .arraySeq items i _ => return pairCount (items.length - i)
    | _ => fault .attribute)] ++ seqMethods

def treeSeqMethods : Methods := [
  ("count", ask fun s =>
    match s with
    | .treeSeq _ _ n _ => if n < 0 then throw (.abstractIn "Seq") else return .int n
    | _ => fault .attribute)] ++ seqMethods

/-! ## Readers and stream sequences -/

def readerMethods : Methods := [
  ("read", act readerTake),
  ("first", act readerCurrent),
  ("lineCol", act fun self => do
    let (_, c) ← readerAt self
    return .array [.int c.line, .int 1]),
  ("back", act fun self => thenNil (readerBack self))]

/-- The items of a stream sequence as a list. -/
def streamList (self : Value) : SessionM Value := do
  return .listOf (← walkStream #[] Value.walkLimit self).toList

/-- What stream sequences share with other sequences, by way of their items. -/
def streamBasics (next : Value → SessionM Value) : Methods := [
  ("first", act firstOf),
  ("more", act fun self => do
    match ← next self with
    | .nil => return .emptyList .nil
    | n => return n),
  ("seq", act fun self => return self),
  ("cons", act1 fun self x => return .cons x self .nil),
  ("hasheq", act fun self => do return .int (← lift (← streamList self).hashSum)),
  ("meta", ask fun _ => return .nil),
  ("withMeta", required 1 1),
  ("count", required 0 0),
  ("empty", required 0 0)]

def streamMethods : Methods := [
  ("lineCol", act fun self => do
    let (_, s) ← streamAt self
    return .array [s.line, s.col]),
  ("tell", act fun self => do return .int (← streamTold self)),
  ("atLineStart", act fun self => do return .bool (← atLineStart self)),
  ("atLineEnd", act fun self => do return .bool (← atLineEnd self)),
  ("reuseNext", act1 streamReuse)] ++ streamBasics streamNext

def movingMethods : Methods := [
  ("back", act fun self => thenNil (movingBack self)),
  ("lineCol", act fun self => do
    let (_, current, _) ← movingAt self
    match current with
    | .nil => return .array [.nil, .nil]
    | current =>
      let (_, s) ← streamAt current
      return .array [s.line, s.col])] ++ streamBasics movingNext

end HostedLisp.Message
