import HostedLisp.Seq

/-!
# Walking sequences

- `Value.Walks`: the items that stepping through a sequence meets, until nil.
- `Value.Walks.walkInto_eq`: gathering them with enough steps gives these items.
- `Value.walks_of_walk`: whatever walking gives are these items.
- `Value.extent_next`: a step takes the extent of a sequence down.
- `Value.Walks.walk_eq`: walking a sequence gives all its items, however many.
-/

namespace HostedLisp

variable {ε α β : Type}

@[simp] theorem ok_bind (a : α) (f : α → Except ε β) : (.ok a >>= f) = f a := rfl

@[simp] theorem pure_eq_ok (a : α) : (pure a : Except ε α) = .ok a := rfl

/-- What a computation in two parts gives, the first part gave something for. -/
theorem bind_eq_ok {x : Except ε α} {f : α → Except ε β} {b : β} (h : (x >>= f) = .ok b) :
    ∃ a, x = .ok a ∧ f a = .ok b := by
  cases x with
  | error e => cases h
  | ok a => exact ⟨a, rfl, h⟩

/-- Two tests one after the other, the second one only if the first one holds. -/
theorem both_eq_ok_iff {x y : Except ε Bool} :
    (x >>= fun holds => if holds = true then y else pure false) = .ok true ↔
      x = .ok true ∧ y = .ok true := by
  cases x with
  | error e => simp [bind, Except.bind]
  | ok holds => cases holds <;> simp

/-! ## Stacks of walks over trees -/

namespace Coll.Tree

variable {K V : Type}

/-- The binding at the root. -/
def root? : Tree K V → Option (K × Option V)
  | empty => none
  | node _ _ k v _ _ => some (k, v)

/-- A list in the order of a walk. -/
def directed {α : Type} (ascending : Bool) (xs : List α) : List α :=
  if ascending then xs else xs.reverse

/-- The bindings of the nodes that a walk with this stack meets. -/
def pending (ascending : Bool) : List (Tree K V) → List (Option (K × Option V))
  | [] => []
  | empty :: stack => none :: pending ascending stack
  | node _ _ k v l r :: stack => some (k, v) ::
    ((directed ascending (if ascending then r else l).toList).map some ++ pending ascending stack)

variable (ascending : Bool) (t : Tree K V) (stack : List (Tree K V))

theorem pending_pushEdge : pending ascending (pushEdge ascending stack t) =
    (directed ascending t.toList).map some ++ pending ascending stack := by
  induction t generalizing stack with
  | empty => cases ascending <;> rfl
  | node _ _ k v l r ihl ihr =>
    cases ascending <;> simp_all [pushEdge, pending, directed, toList]

/-- Advancing a walk leaves all but the first node. -/
theorem pending_advance : pending ascending (t :: stack) =
    t.root? :: pending ascending (advance ascending (t :: stack)) := by
  cases t with
  | empty => rfl
  | node =>
    rw [advance, pending_pushEdge]
    rfl

theorem length_toList : t.toList.length = t.size := by
  induction t with
  | empty => rfl
  | node _ _ k v l r ihl ihr => simp [toList, size, ihl, ihr, Nat.add_assoc]

theorem length_pending : (pending ascending stack).length = allAhead ascending stack := by
  induction stack with
  | nil => rfl
  | cons t stack ih =>
    cases t <;> cases ascending <;> simp [pending, allAhead, ahead, directed, length_toList,
      ih] <;> omega

end Coll.Tree

namespace Value

open Coll

/-! ## Steps and items -/

/-- Stepping through a sequence meets the given items and then nil. -/
inductive Walks : Value → List Value → Prop where
  | done : Walks .nil []
  | step {s s' x : Value} {xs : List Value} (proper : s ≠ .nil) (first_eq : first s = .ok x)
      (next_eq : next s = .ok s') (rest : Walks s' xs) : Walks s (x :: xs)

theorem walkInto_nil (acc : Array Value) (fuel : Nat) : walkInto acc fuel .nil = .ok acc := by
  unfold walkInto
  rfl

theorem walkInto_step {s s' x : Value} (acc : Array Value) (fuel : Nat) (proper : s ≠ .nil)
    (first_eq : first s = .ok x) (next_eq : next s = .ok s') :
    walkInto acc (fuel + 1) s = walkInto (acc.push x) fuel s' := by
  rw [walkInto, first_eq, next_eq]
  · rfl
  · exact proper

variable {s : Value} {xs : List Value}

/-- Every item is gathered, in order, when the steps allowed are as many as the items. -/
theorem Walks.walkInto_eq (h : Walks s xs) (acc : Array Value) {fuel : Nat}
    (hfuel : xs.length ≤ fuel) : walkInto acc fuel s = .ok (acc ++ xs.toArray) := by
  induction h generalizing acc fuel with
  | done => rw [walkInto_nil, Array.append_empty]
  | @step s s' x xs proper first_eq next_eq _ ih =>
    obtain _ | fuel := fuel
    · exact absurd hfuel (Nat.not_succ_le_zero _)
    · rw [walkInto_step acc fuel proper first_eq next_eq, ih _ (Nat.le_of_succ_le_succ hfuel)]
      simp

theorem Walks.unique {xs ys : List Value} (hxs : Walks s xs) (hys : Walks s ys) : xs = ys := by
  induction hxs generalizing ys with
  | done =>
    cases hys with
    | done => rfl
    | step proper => exact absurd rfl proper
  | step proper first_eq next_eq _ ih =>
    cases hys with
    | done => exact absurd rfl proper
    | step _ first_eq' next_eq' rest' =>
      obtain rfl := Except.ok.inj (first_eq.symm.trans first_eq')
      obtain rfl := Except.ok.inj (next_eq.symm.trans next_eq')
      rw [ih rest']

/-- What was gathered are the items that stepping meets. -/
theorem exists_walks_of_walkInto {acc r : Array Value} {fuel : Nat}
    (h : walkInto acc fuel s = .ok r) : ∃ xs, Walks s xs ∧ r.toList = acc.toList ++ xs := by
  fun_induction walkInto acc fuel s with
  | case1 acc =>
    cases h
    exact ⟨[], .done, (List.append_nil _).symm⟩
  | case2 => cases h
  | case3 acc fuel s proper ih =>
    obtain ⟨x, first_eq, h⟩ := bind_eq_ok h
    obtain ⟨s', next_eq, h⟩ := bind_eq_ok h
    obtain ⟨xs, hxs, hr⟩ := ih x s' h
    refine ⟨x :: xs, .step proper first_eq next_eq hxs, ?_⟩
    rw [hr, Array.toList_push, List.append_assoc, List.singleton_append]

theorem walks_of_walk {r : Array Value} (h : walk s = .ok r) : Walks s r.toList := by
  obtain ⟨xs, hxs, hr⟩ := exists_walks_of_walkInto h
  rw [hr]
  exact hxs

/-! ## How long a walk is -/

theorem extent_tableSeq (m : HashMap Value Value) :
    extent (tableSeq m) ≤ m.nodeEntries.length + 1 := by
  unfold tableSeq
  cases hes : m.nodeEntries with
  | nil | cons => cases m.nilValue <;> simp [extent]

theorem extent_keysOf (s : Value) : extent (keysOf s) = extent s := by
  cases s <;> rfl

theorem extent_valsOf (s : Value) : extent (valsOf s) = extent s := by
  cases s <;> rfl

theorem extent_indexSeq {w : Value} {n : Int} (hn : indexedLen w = .ok n) (i : Int) :
    extent (.indexSeq w i) = max 1 (n - i).toNat := by
  rw [extent, hn]
  rfl

/-- The sequence of a collection is no longer than the collection. -/
theorem extent_seqMethod {v s : Value} (h : seqMethod v = .ok s) : extent s ≤ extent v := by
  -- the indexed collections know their length
  have hindexed {w r : Value} {n : Int} (hn : indexedLen w = .ok n) (hpos : 0 ≤ n)
      (hr : (if n = 0 then pure .nil else pure (.indexSeq w 0) : Except Error Value) = .ok r) :
      extent r ≤ n.toNat := by
    split at hr
    · cases hr
      exact Nat.zero_le _
    · cases hr
      rw [extent_indexSeq hn]
      omega
  cases v with
  | list | cons | indexSeq | keySeq | valSeq | trieSeq | treeSeq | arraySeq =>
    cases h
    exact Nat.le_refl _
  | emptyList =>
    cases h
    exact Nat.zero_le _
  | entry k w =>
    cases h
    exact Nat.le_refl 2
  | vector t info => exact hindexed (w := .vector t info) rfl (Int.natCast_nonneg _) h
  | subvector base start stop info =>
    obtain ⟨n, hn, h⟩ := bind_eq_ok h
    have hlen : n = stop - start ∧ 0 ≤ n := by
      change checkedLen (stop - start) = .ok n at hn
      unfold checkedLen at hn
      split at hn
      · cases hn
      · cases hn
        omega
    rw [show extent (.subvector base start stop info) = n.toNat by rw [hlen.1]; rfl]
    exact hindexed (w := .subvector base start stop info) hn hlen.2 h
  | hashMap m info =>
    cases h
    exact extent_tableSeq m
  | hashSet m info =>
    cases h
    rw [extent_keysOf]
    exact extent_tableSeq m
  | treeMap order tree count info =>
    cases count with
    | int n =>
      change (if n > 0 then pure (.treeSeq (tree.pushEdge true []) true n .nil) else pure .nil :
        Except Error Value) = .ok s at h
      split at h
      · cases h
        show Tree.allAhead true (tree.pushEdge true []) ≤ tree.size
        rw [← Tree.length_pending, Tree.pending_pushEdge, ← Tree.length_toList]
        simp [Tree.directed, Tree.pending]
      · cases h
        exact Nat.zero_le _
    | _ => cases h
  | _ => cases h

/-- A step takes the extent down, or is the last one. -/
theorem extent_next (s : Value) {s' x : Value} (hfirst : first s = .ok x)
    (hnext : next s = .ok s') : extent s' < extent s ∨ s' = .nil := by
  cases s with
  | list style y rest n info =>
    cases hnext
    split
    · exact .inr rfl
    · exact .inl (Nat.lt_succ_self _)
  | emptyList info =>
    cases hnext
    exact .inr rfl
  | cons y rest info =>
    by_cases hrest : rest = .nil
    · subst hrest
      cases hnext
      exact .inr rfl
    · rw [next] at hnext
      · exact .inl (Nat.lt_succ_of_le (extent_seqMethod hnext))
      · exact hrest
  | indexSeq source i =>
    obtain ⟨n, hn, hnext⟩ := bind_eq_ok hnext
    split at hnext
    · cases hnext
      exact .inr rfl
    · cases hnext
      left
      rw [extent_indexSeq hn, extent_indexSeq hn]
      omega
  | keySeq s info | valSeq s info =>
    obtain ⟨t, ht, hnext⟩ := bind_eq_ok hnext
    obtain ⟨y, hy, -⟩ := bind_eq_ok hfirst
    cases hnext
    rcases extent_next s hy ht with hlt | rfl
    · left
      simp only [extent_keysOf, extent_valsOf]
      exact hlt
    · exact .inr rfl
  | trieSeq dense es info =>
    cases es with
    | nil => cases hnext
    | cons e es =>
      cases es with
      | nil =>
        cases hnext
        exact .inr rfl
      | cons e' es =>
        cases hnext
        exact .inl (Nat.lt_succ_self _)
  | treeSeq stack ascending n info =>
    cases stack with
    | nil => cases hfirst
    | cons t stack =>
      have hahead := congrArg List.length (Tree.pending_advance ascending t stack)
      rw [List.length_cons, Tree.length_pending, Tree.length_pending] at hahead
      rw [next] at hnext
      cases hadvance : Tree.advance ascending (t :: stack) with
      | nil =>
        rw [hadvance] at hnext
        cases hnext
        exact .inr rfl
      | cons t' stack' =>
        rw [hadvance] at hnext hahead
        cases hnext
        left
        show Tree.allAhead ascending (t' :: stack') < Tree.allAhead ascending (t :: stack)
        omega
  | _ => cases hnext

/-- A sequence has at most one item more than its extent tells. -/
theorem Walks.length_le (h : Walks s xs) : xs.length ≤ extent s + 1 := by
  induction h with
  | done => exact Nat.zero_le _
  | @step s s' x xs _ first_eq next_eq rest ih =>
    rw [List.length_cons]
    rcases extent_next s first_eq next_eq with hlt | rfl
    · omega
    · cases rest with
      | done => simp
      | step proper => exact absurd rfl proper

/-- Walking a sequence gives its items. -/
theorem Walks.walk_eq (h : Walks s xs) : walk s = .ok xs.toArray := by
  rw [walk, h.walkInto_eq #[] h.length_le]
  simp

end Value

end HostedLisp
