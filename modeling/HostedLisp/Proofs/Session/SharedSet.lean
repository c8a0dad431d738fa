import HostedLisp.Library.Sequences
import HostedLisp.Proofs.Compiler.Agree
import Mathlib.Data.List.Induction

/-!
# What sets are built on

Sets are built on the table of the shared empty set, where `Library.set` binds its arguments.

- `Building`, `Building.after`: calls that build collections.
- `Building.shared`: what a call makes of the table.
- `Building.sets_after`: sets depend on the table, and on nothing else that was built before.
-/

namespace HostedLisp

open SessionM Library Value

/-- Calls that build collections. -/
inductive Building where
  /-- Bind keys in the shared empty set, to the values that follow them. -/
  | share (args : List Value)
  | map (args : List Value)
  | vector (args : List Value)
  | set (xs : List Value)
  /-- A set whose elements must be distinct. -/
  | distinct (xs : List Value)
  | conj (c x : Value)
  | disjoin (c x : Value)
  /-- The first form of a text. -/
  | read (ns : CurrentNamespace) (text : String)

namespace Building

def run : Building → SessionM Value
  | share args => Library.set args
  | map args => Library.map args
  | vector args => return Library.vector args
  | set xs => Make.setOf xs
  | distinct xs => Make.setWithCheck [.array xs]
  | conj c x => do lift (Value.conj (← resolve c) x)
  | disjoin c x => do lift (Value.disjoin (← resolve c) x)
  | read ns text => readString ns text

/-- The session after calls, whether they succeed or not. -/
def after (s : Session) (calls : List Building) : Session :=
  calls.foldl (fun s c => finalState (c.run s)) s

/-- The bindings that are made before one is refused. -/
def bindAll (m : Table) : List Value → Table
  | k :: v :: rest => (tableInsert m k v).toOption.elim m (bindAll · rest)
  | _ => m

/-- What a call makes of the table of the shared empty set. -/
def shared (m : Table) : Building → Table
  | share args => bindAll m args
  | _ => m

/-- What is bound in the shared empty set is not held by address, nor in one collection. -/
def Plain : Building → Prop
  | share args => args.length ≠ 1 ∧ ∀ a, .ref a ∉ args
  | _ => True

/-- What an operation gives, without the state that it ends in. -/
def answer {α : Type} : EStateM.Result Error Session α → Except Error α
  | .ok a _ => .ok a
  | .error e _ => .error e

variable {m : Table} (s : Session)

instance : Lasting (·.emptySet = m) := ⟨fun _ h => h, fun _ h => h⟩

theorem keeps_resolve (v : Value) : Keeps (·.emptySet = m) (resolve v) := by
  unfold resolve
  split
  · refine .bind (keeps_fetch _) fun c => ?_
    split
    · exact .bind .get fun _ => .pure _
    · exact .pure _
  · exact .pure _

theorem keeps_setOf (xs : List Value) : Keeps (·.emptySet = m) (Make.setOf xs) := by
  unfold Make.setOf
  split
  · exact keeps_allocRef _
  · exact .bind .get fun _ => .bind (keeps_lift _) fun _ => .pure _

theorem keeps_setWithCheck (xs : List Value) :
    Keeps (·.emptySet = m) (Make.setWithCheck [.array xs]) := by
  have hitems : Keeps (·.emptySet = m) (itemsOf (.array xs)) := keeps_lift (iterate (.array xs))
  unfold Make.setWithCheck Make.one
  rw [pure_bind]
  refine .bind hitems fun xs => ?_
  split
  · exact keeps_allocRef _
  · exact .bind keeps_viewer fun _ => .bind .get fun _ => keeps_lift _

theorem keeps_readString (ns : CurrentNamespace) (text : String) :
    Keeps (·.emptySet = m) (readString ns text) := by
  refine .bind (.bind .get fun s => ?_) fun _ => .pure _
  split
  · exact .bind (.modified fun _ h => h) fun _ => .pure _
  · exact .bind (.modified fun _ h => h) fun _ => .throw _

theorem mapM_resolve {args : List Value} (h : ∀ a, .ref a ∉ args) :
    args.mapM resolve = pure args := by
  induction args with
  | nil => rfl
  | cons v args ih =>
    have hv : resolve v = pure v := by
      unfold resolve
      split
      · next a => exact absurd List.mem_cons_self (h a)
      · rfl
    rw [List.mapM_cons, hv, ih fun a ha => h a (List.mem_cons_of_mem _ ha)]
    rfl

theorem bindSharedPairs_shared (args : List Value) :
    (finalState (bindSharedPairs args s)).emptySet = bindAll s.emptySet args := by
  induction args using List.twoStepInduction generalizing s with
  | nil | singleton => rfl
  | cons_cons k v rest ih =>
    rw [bindSharedPairs, bindAll]
    have hone : bindShared k v s = (lift (tableInsert s.emptySet k v) >>= fun m =>
      modify fun s => { s with emptySet := m }) s := rfl
    cases hm : tableInsert s.emptySet k v with
    | error e =>
      rw [hm] at hone
      rw [bind_of_error hone]
      rfl
    | ok m =>
      rw [hm] at hone
      rw [bind_of_ok hone]
      exact ih { s with emptySet := m }

/-- Only the first kind of call changes the table. -/
theorem run_shared {c : Building} (h : c.Plain) :
    (finalState (c.run s)).emptySet = shared s.emptySet c := by
  cases c with
  | share args =>
    have hset : Library.set args = bindSharedPairs args >>= fun _ => Make.sharedSet := by
      unfold Library.set
      rw [mapM_resolve h.2, pure_bind]
      split
      · exact absurd rfl h.1
      · exact absurd rfl h.1
      · rfl
    have hpairs := bindSharedPairs_shared s args
    rw [run, hset]
    cases hx : bindSharedPairs args s with
    | ok a s' =>
      rw [hx] at hpairs
      rw [bind_of_ok hx]
      exact (keeps_allocRef (J := (·.emptySet = _)) _ s' hpairs).2
    | error e s' =>
      rw [hx] at hpairs
      rw [bind_of_error hx]
      exact hpairs
  | map args => exact (Agree.bind (.mapM keeps_resolve args) (fun _ => keeps_lift _) s rfl).2
  | vector args => rfl
  | set xs => exact (keeps_setOf xs s rfl).2
  | distinct xs => exact (keeps_setWithCheck xs s rfl).2
  | conj c x | disjoin c x => exact (Agree.bind (keeps_resolve c) (fun _ => keeps_lift _) s rfl).2
  | read ns text => exact (keeps_readString ns text s rfl).2

theorem after_shared {calls : List Building} (h : ∀ c ∈ calls, c.Plain) :
    (after s calls).emptySet = calls.foldl shared s.emptySet := by
  induction calls generalizing s with
  | nil => rfl
  | cons c calls ih =>
    rw [List.forall_mem_cons] at h
    rw [List.foldl_cons, ← run_shared s h.1]
    exact ih _ h.2

/-- A set has its own elements and what has been bound in the shared empty set, and no other call
makes a difference to it: neither to the empty set, nor to others, nor to what the reader builds
them on. So where nothing was bound there, sets do not depend on earlier calls. (A view of the
session is for the text of an error.) -/
theorem sets_after {calls : List Building} (h : ∀ c ∈ calls, c.Plain) (ns : CurrentNamespace)
    {xs : List Value} (hxs : xs ≠ []) :
    answer ((Make.setOf [] >>= resolve) (after s calls)) =
        .ok (.hashSet (calls.foldl shared s.emptySet) .nil) ∧
      answer (Make.setOf xs (after s calls)) =
        (xs.foldlM setInsert (calls.foldl shared s.emptySet)).map (.hashSet · .nil) ∧
      answer (Make.setWithCheck [.array xs] (after s calls)) =
        setWithCheck (after s calls).view (calls.foldl shared s.emptySet) xs ∧
      ((after s calls).readEnv ns).emptySet = calls.foldl shared s.emptySet := by
  obtain ⟨x, xs, rfl⟩ := List.exists_cons_of_ne_nil hxs
  rw [← after_shared s h]
  generalize after s calls = s'
  refine ⟨?_, ?_, ?_, rfl⟩
  · let t : Session := { s' with cells := s'.cells.push .sharedSet }
    have hcell : t.cells[s'.cells.size]? = some .sharedSet := by simp [t]
    exact congrArg answer (bind_of_ok (fetch_of_some hcell))
  · show answer ((lift ((x :: xs).foldlM setInsert s'.emptySet) >>= fun m =>
      pure (Value.hashSet m .nil)) s') = _
    cases (x :: xs).foldlM setInsert s'.emptySet <;> rfl
  · show answer (lift (setWithCheck s'.view s'.emptySet (x :: xs)) s') = _
    cases setWithCheck s'.view s'.emptySet (x :: xs) <;> rfl

/-- After a call that binds 1 to 2, the set of 3 has two elements. -/
theorem sets_after_share :
    (answer (Make.setOf [.int 3] (after {} [share [.int 1, .int 2], map [], set []])) >>= len) =
      .ok 2 := by
  refine (congrArg (· >>= len) (sets_after {} ?_ .none (List.cons_ne_nil _ _)).2.1).trans rfl
  simp [Plain]

end Building

end HostedLisp
