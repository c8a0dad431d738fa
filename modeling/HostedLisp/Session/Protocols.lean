import HostedLisp.Session.Vars

/-!
# Protocols

A protocol function chooses what to do by the class of its first argument. Classes are extended one
by one; a class that takes new members passes the extension on to its heirs.

- `SessionM.extendFn`, `SessionM.isExtended`: extending a protocol function.
- `SessionM.newProtocol`, `SessionM.extendProtocol`: groups of protocol functions.
- `SessionM.protocolOfClass`, `SessionM.extendHeirs`: a class as the model of a protocol.
-/

namespace HostedLisp.SessionM

/-! ## Protocol functions -/

def protocolFnAt : Value → SessionM (Address × ProtocolFn) := contentOf fun
  | .protocolFn p => some p
  | _ => none

def newProtocolFn (name : Value) : SessionM Value := do
  allocRef (.protocolFn { name := ← plainText name })

/-- Put a value under a key in front of what was there. -/
def bindClass (known : List (Value × Value)) (t f : Value) : List (Value × Value) :=
  (t, f) :: known.filter fun (u, _) => !u.same t

/-- Say what a protocol function does for a class. -/
def extendFn (fn t f : Value) : SessionM Unit := do
  let (a, p) ← protocolFnAt fn
  if t.isOpen then
    store a (.protocolFn { p with inClasses := bindClass p.inClasses t f })
  else
    let _ ← lift t.hash
    store a (.protocolFn { p with table := bindClass p.table t f })

/-- Whether a protocol function does anything for a class by its own account. -/
def isExtended (fn t : Value) : SessionM Bool := do
  let (_, p) ← protocolFnAt fn
  let line ← match t with
    | .type .. => heritage t
    | t => do match ← cell? t with
      | some (.userType _) => heritage t
      | _ => pure (t :: (← heritage (← typeOf t)))
  if line.any fun t => p.inClasses.any fun (u, _) => u.same t then return true
  else
    let _ ← lift t.hash
    return p.table.any fun (u, _) => u.same t

/-! ## Protocols -/

def protocolAt : Value → SessionM (Address × Protocol) := contentOf fun
  | .protocol p => some p
  | _ => none

/-- The namespace that a value names. -/
def namespaceOf (name : Value) : SessionM Value := do
  match name with
  | .str n | .symbol ⟨_, n⟩ _ => openNamespace n
  | _ => fault .type

/-- Tell a protocol function by which name a protocol knows it. What cannot be named is refused. -/
def nameFn (f : Value) (name : String) : SessionM Unit := do
  match f with
  | .ref a =>
    match ← fetch a with
    | .protocolFn p => store a (.protocolFn { p with shortName := some name })
    | _ => pure ()
  | .nil | .bool _ | .int _ | .float _ | .nan _ | .str _ => fault .attribute
  | _ => pure ()

/-- The protocol function of a name in a namespace, made on demand. -/
def functionIn (ns : Value) (name : Value) : SessionM (String × Value) := do
  let n ← plainText name
  let f ← match ← member? ns n with
    | some f => pure f
    | none => do
      let f ← newProtocolFn (.str ((← moduleName ns) ++ n))
      match ns with
      | .ref a => setMember a n f
      | _ => pure ()
      pure f
  nameFn f n
  return (n, f)

/-- Make a protocol of named functions, which live in a namespace. -/
def newProtocol (ns name names : Value) : SessionM Value := do
  let home ← namespaceOf ns
  let fns ← (← lift names.iterate).mapM (functionIn home)
  allocRef (.protocol { ns := ns, name := name, names := names, fns := fns })

/-- Record that a class has taken up a protocol. -/
def markImplementor (protocol t : Value) : SessionM Unit := do
  let (a, p) ← protocolAt protocol
  let _ ← lift t.hash
  if p.implementors.any t.same then return ()
  else store a (.protocol { p with implementors := p.implementors ++ [t] })

/-- Whether a class has taken up a protocol. -/
def isImplementor (protocol t : Value) : SessionM Bool := do
  let (_, p) ← protocolAt protocol
  let _ ← lift t.hash
  return p.implementors.any t.same

/-- The name that a key of an extension stands for. -/
def extensionName (key : Value) : SessionM String := do
  match key with
  | .keyword s => return s.name
  | .ref a =>
    match (← varAt a).sym with
    | .symbol s _ => return s.name
    | .str n => return n
    | _ => fault .attribute
  | _ => fault .attribute

/-- Say what functions of a protocol do for a class. -/
def extendProtocol (protocol t fns : Value) : SessionM Unit := do
  let (_, p) ← protocolAt protocol
  for key in ← lift fns.iterate do
    match p.fns.lookup (← extensionName key) with
    | none => fault .type
    | some fn => extendFn fn t (← lift (fns.subscript key))
  markImplementor protocol t

/-! ## Classes as models of protocols -/

/-- The member under which a class keeps the protocol that was made from it. -/
def modelledKey : String := "__exactprotocol__"

/-- The member under which a class and its heirs keep their protocols. -/
def protocolsKey : String := "__protocols__"

/-- The protocol that was made from a class, nil if there is none. -/
def modelledProtocol (t : Value) : SessionM Value := do
  match ← cell? t with
  | some (.userType u) => return (u.members.lookup modelledKey).getD .nil
  | _ => return .nil

/-- The protocols of a class or of the nearest one that it inherits from, with the class that keeps
them. -/
def protocolsOf? (t : Value) : SessionM (Option (Address × List Value)) := do
  (← heritage t).foldlM (fun found t => do
    match found, t with
    | some r, _ => return some r
    | none, .ref a =>
      match ← fetch a with
      | .userType u =>
        match u.members.lookup protocolsKey with
        | some (.array ps) => return some (a, ps)
        | _ => return none
      | _ => return none
    | none, _ => return none) none

def setTypeMember (a : Address) (name : String) (v : Value) : SessionM Unit := do
  let u ← userTypeAt a
  store a (.userType { u with members := withMember u.members name v })

/-- The public names that a class has, sorted. -/
def publicNames (t : Value) : SessionM (List String) := do
  let names ← (← heritage t).mapM fun t => do
    match t with
    | .ref a => do return (← userTypeAt a).members.map (·.1)
    | _ => return []
  return (names.flatten.eraseDups.filter fun n => !n.startsWith "_").mergeSort fun a b => a ≤ b

/-- Make a protocol of the public members of a class. -/
def protocolOfClass (ns t : Value) : SessionM Value := do
  match t with
  | .ref a =>
    let u ← userTypeAt a
    let names ← publicNames t
    let home ← namespaceOf ns
    let p ← newProtocol ns (.str u.name) (.array (names.map .str))
    setTypeMember a modelledKey p
    match ← protocolsOf? t with
    | some (owner, ps) => setTypeMember owner protocolsKey (.array (ps ++ [p]))
    | none => setTypeMember a protocolsKey (.array [p])
    match ← member? home u.name, home with
    | none, .ref h => setMember h u.name p
    | _, _ => pure ()
    return p
  | .type home name =>
    if home = "builtins" then fault .type
    else newProtocol ns (.str name) (.array [])
  | _ => fault .attribute

/-- Let a class take up a protocol with the members that it has. -/
def takeUp (protocol t : Value) : SessionM Unit := do
  let (_, p) ← protocolAt protocol
  for (name, fn) in p.fns do
    match ← typeMember? t name with
    | some f => extendFn fn t f
    | none => pure ()
  markImplementor protocol t

/-- The classes that inherit from a class directly, in the order they were made. -/
def heirs (t : Value) : SessionM (List Value) := do
  let cells := (← get).cells.toList
  return cells.zipIdx.filterMap fun (c, a) =>
    match c with
    | .userType u => if u.bases.any t.same then some (.ref a) else none
    | _ => none

/-- Let a class and all that inherit from it take up a protocol. -/
def takeUpAll (protocol : Value) : (depth : Nat) → Value → SessionM Unit
  | 0, _ => fault .recursion
  | depth + 1, t => do
    takeUp protocol t
    for u in ← heirs t do
      takeUpAll protocol depth u

/-- Let all that inherit from a class take up its protocols. -/
def extendHeirs (t : Value) : SessionM Unit := do
  match ← protocolsOf? t with
  | none => return ()
  | some (_, ps) =>
    for p in ps do
      takeUpAll p Value.depthLimit t

/-- Let a class take up the protocols of another one. -/
def extendAs (model t : Value) : SessionM Unit := do
  match ← protocolsOf? model with
  | none => return ()
  | some (_, ps) =>
    for p in ps do
      takeUp p t

/-- Let a class take up protocols, each given by the class that it was made from and followed by
what its functions do. -/
def extendClass (t : Value) : List Value → SessionM Unit
  | [] => return ()
  | model :: rest => do
    match ← modelledProtocol model, rest with
    | .nil, _ | _, [] => fault .name
    | p, fns :: rest =>
      extendProtocol p t fns
      extendClass t rest

end HostedLisp.SessionM
