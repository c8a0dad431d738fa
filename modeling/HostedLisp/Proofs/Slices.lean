import HostedLisp.Proofs.Equality

/-!
# Slices of vectors are slices of lists

A slice refers to the vector that it was cut from, which may go on behind it. Slices are cut, edited
and cut again here, next to the same steps on lists.

- `SliceStep`: the steps, on values (`SliceStep.run`) and on lists (`SliceStep.onList`).
- `Value.Windows`: the invariant, kept by each step (`SliceStep.run_matches`).
- `Value.Answers`: a vector or slice answers as a list does.
- `Value.slices_refine_lists`: all that a history meets, in which no version is lost.
-/

namespace HostedLisp

open Coll List

variable {u : Value} {v : Vector Value} {xs ys : List Value} {m n : Nat}

namespace Value

/-- A vector, or a slice that is not empty, and its items. -/
inductive Windows : Value → List Value → Prop where
  | vector {v : Vector Value} {xs : List Value} (h : v.Represents xs) (info : Value) :
      Windows (.vector v info) xs
  | slice {v : Vector Value} {xs ys : List Value} (h : v.Represents ys) (info info' : Value)
      {m n : Nat} (hlt : m < n) (hle : n ≤ ys.length) (hxs : xs = (ys.take n).drop m) :
      Windows (.subvector (.vector v info) m n info') xs

/-- A vector or slice tells nothing but the items of a list: their number, the item at each index in
range and none at any other, their sequence, and what the list is equal to. -/
structure Answers (u : Value) (xs : List Value) : Prop where
  len_eq : u.len = .ok xs.length
  nth_eq : ∀ i (hi : i < xs.length), u.nthAt (.int i) none = .ok xs[i]
  outside : ∀ i : Int, i < 0 ∨ xs.length ≤ i → u.nthAt (.int i) none = .error .outOfBounds
  elements : Elements u xs
  eqv_iff : ∀ [Identity] d {w ys}, Elements w ys →
    (eqv (d + 1) u w = .ok true ↔
      Identity.is u w = true ∨ List.Forall₂ (fun x y => eqv d y x = .ok true) xs ys) ∧
    (eqv (d + 1) w u = .ok true ↔
      Identity.is w u = true ∨ List.Forall₂ (fun y x => eqv d x y = .ok true) ys xs)

theorem length_slice (hle : n ≤ ys.length) : ((ys.take n).drop m).length = n - m := by
  rw [length_drop, length_take, Nat.min_eq_left hle]

theorem indexes_slice (h : v.Represents ys) (info info' : Value) (hlt : m < n)
    (hle : n ≤ ys.length) :
    Indexes (.subvector (.vector v info) m n info') ((ys.take n).drop m) where
  len_eq := by
    rw [indexedLen, checkedLen, if_neg (by omega), length_slice hle, Int.natCast_sub hlt.le]
    rfl
  item_eq i hi := by
    rw [length_slice hle] at hi
    rw [indexedItem, nth, if_neg (by omega), getElem_drop, getElem_take]
    exact nth_vector h info (i := m + i) (by omega)

theorem Windows.answers (h : Windows u xs) : Answers u xs := by
  -- the answers that go by the sequence
  have hseq [Identity] (h : Elements u xs) (d : Nat) {w : Value} {ys : List Value}
    (hw : Elements w ys) :=
    And.intro (h.eqv_iff (d := d) hw) (hw.eqv_iff (d := d) h)
  cases h with
  | vector h info =>
    exact ⟨(indexes_vector h info).len_eq, fun i hi => nthAt_vector h info hi none,
      fun i hi => nthAt_vector_outside h info hi none, elements_vector h info,
      hseq (elements_vector h info)⟩
  | @slice v xs ys h info info' m n hlt hle hxs =>
    subst hxs
    have hindexes := indexes_slice h info info' hlt hle
    have hlen := length_slice (m := m) hle
    refine ⟨hindexes.len_eq, fun i hi => ?_, fun i hi => ?_, ⟨rfl, hindexes.walks_seq⟩,
      hseq ⟨rfl, hindexes.walks_seq⟩⟩
    · simp only [nthAt, less_int, add_int, atMost_int, ok_bind, decide_eq_true_eq]
      rw [if_neg (by omega), if_neg (by omega), getElem_drop, getElem_take]
      exact nthAt_vector h info (i := m + i) (by omega) none
    · simp only [nthAt, less_int, add_int, atMost_int, ok_bind, decide_eq_true_eq]
      rw [hlen] at hi
      split
      · rfl
      · rw [if_pos (by omega)]
        rfl

end Value

/-- A step in a history of vectors and slices. -/
inductive SliceStep where
  | slice (start stop : Int)
  | edit (s : VectorStep)

namespace SliceStep

open Value

/-- The step on a value. -/
def run : SliceStep → Value → Except Error Value
  | slice start stop, u => u.slice (.int start) (.int stop)
  | edit s, u => s.run u

/-- The step on a list, for slices within bounds. -/
def onList : SliceStep → List Value → Option (List Value)
  | slice start stop, xs =>
    if 0 ≤ start ∧ start ≤ stop ∧ stop ≤ xs.length then
      some ((xs.take stop.toNat).drop start.toNat)
    else none
  | edit s, xs => s.onList xs

theorem cut_matches (h : Windows u xs) (start stop : Int) :
    Matches Windows ((slice start stop).run u) ((slice start stop).onList xs) := by
  simp only [run, onList, Value.slice, less_int, eq_int, h.answers.len_eq, ok_bind,
    decide_eq_true_eq]
  by_cases hbounds : 0 ≤ start ∧ start ≤ stop ∧ stop ≤ xs.length
  · rw [if_neg (by omega), if_neg (by omega), if_neg (by omega), if_pos hbounds]
    obtain ⟨hstart, hstop, hle⟩ := hbounds
    lift start to Nat using hstart
    lift stop to Nat using by omega
    rw [Int.toNat_natCast, Int.toNat_natCast]
    split
    · next heq =>
      rw [drop_eq_nil_of_le (by rw [length_take]; omega)]
      exact ⟨_, rfl, .vector (represents_ofList []) .nil⟩
    · next hne =>
      refine ⟨_, rfl, ?_⟩
      cases h with
      | vector h info => exact .slice h info .nil (by omega) (by omega) rfl
      | @slice v xs ys h info info' m n hlt hle' hxs =>
        subst hxs
        rw [length_slice hle'] at hle
        exact .slice (m := start + m) (n := stop + m) h info .nil (by omega) (by omega)
          (ext_getElem? fun j => by grind)
  · rw [if_neg hbounds]
    split
    · exact ⟨_, rfl⟩
    · split
      · exact ⟨_, rfl⟩
      · rw [if_pos (by omega)]
        exact ⟨_, rfl⟩

/-- Replacing an item of the vector underneath, or appending to it. -/
theorem baseSet_matches (h : v.Represents ys) (info x : Value) {k : Nat} (hle : k ≤ ys.length) :
    Matches (VectorStep.IsVector info) (baseSet (.vector v info) (.int k) x)
      (some (if k < ys.length then ys.set k x else ys ++ [x])) := by
  have hmatches := (VectorStep.replace k x).run_matches h info
  rw [VectorStep.onList] at hmatches
  split
  · rwa [if_pos (by omega)] at hmatches
  · rwa [if_neg (by omega), if_pos (by omega)] at hmatches

section

variable (h : v.Represents ys) (info info' : Value) (hlt : m < n) (hle : n ≤ ys.length)

include h hlt hle

theorem push_matches (x : Value) : Matches Windows (push (.subvector (.vector v info) m n info') x)
    (some ((ys.take n).drop m ++ [x])) := by
  obtain ⟨_, hw, w, rfl, hys⟩ := baseSet_matches h info x hle
  rw [push, hw]
  refine ⟨_, rfl, .slice (n := n + 1) hys _ _ (by omega) ?_ (ext_getElem? fun j => ?_)⟩
  · grind
  · grind

theorem edit_matches (s : VectorStep) : Matches Windows
    (s.run (.subvector (.vector v info) m n info')) (s.onList ((ys.take n).drop m)) := by
  cases s with
  | push x => exact push_matches h info info' hlt hle x
  | replace i x =>
    simp only [VectorStep.run, VectorStep.onList, assocN, less_int, add_int, eq_int, ok_bind,
      decide_eq_true_eq, length_slice hle]
    by_cases hbelow : 0 ≤ i ∧ i < (n - m : Nat)
    · lift i to Nat using hbelow.1
      obtain ⟨_, hw, w, rfl, hys⟩ := baseSet_matches h info x (k := m + i) (by omega)
      rw [if_neg (by omega), if_neg (by omega), if_neg (by omega), if_pos hbelow, Int.toNat_natCast]
      rw [if_pos (by omega)] at hys
      refine ⟨_, congrArg (· >>= _) hw, .slice hys _ _ hlt ?_ (ext_getElem? fun j => ?_)⟩
      · simpa using hle
      · grind
    · rw [if_neg hbelow]
      by_cases hend : i = (n - m : Nat)
      · rw [if_pos hend, if_neg (by omega), if_neg (by omega), if_pos (by omega)]
        exact push_matches h info info' hlt hle x
      · rw [if_neg hend]
        split
        · exact ⟨_, rfl⟩
        · rw [if_pos (by omega)]
          exact ⟨_, rfl⟩
  | drop =>
    obtain ⟨n, rfl⟩ : ∃ k, n = k + 1 := ⟨n - 1, by omega⟩
    have hlen := length_slice (m := m) hle
    rw [VectorStep.onList, if_neg (by rw [isEmpty_iff_length_eq_zero]; omega)]
    show Matches Windows (if ((n + 1 : Nat) : Int) - 1 = m then _ else _) _
    rw [Int.natCast_add_one, Int.add_sub_cancel]
    split
    · refine ⟨_, rfl, ?_⟩
      rw [dropLast_eq_take, hlen, show n + 1 - m - 1 = 0 by omega, take_zero]
      exact .vector (represents_ofList []) .nil
    · exact ⟨_, rfl, .slice h info info' (by omega) (by omega)
        (ext_getElem? fun j => by grind)⟩

end

/-- One step. -/
theorem run_matches (s : SliceStep) (h : Windows u xs) :
    Matches Windows (s.run u) (s.onList xs) := by
  cases s with
  | slice start stop => exact cut_matches h start stop
  | edit s =>
    cases h with
    | vector h info => exact (s.run_matches h info).imp fun _ _ ⟨_, hv, h⟩ => hv ▸ .vector h info
    | slice h info info' hlt hle hxs => exact hxs ▸ edit_matches h info info' hlt hle s

/-- A step on one of all that was met so far, the newest first, adds what it gives. -/
def onMet {m : Type → Type} [Monad m] {α : Type} (step : SliceStep → α → m α) (met : List α)
    (s : Nat × SliceStep) : m (List α) :=
  match met[s.1]? with
  | some u => do return (← step s.2 u) :: met
  | none => return met

theorem onMet_matches (s : Nat × SliceStep) {us : List Value} {lists : List (List Value)}
    (h : List.Forall₂ Windows us lists) :
    Matches (List.Forall₂ Windows) (onMet run us s) (onMet onList lists s) := by
  obtain ⟨hlen, hall⟩ := forall₂_iff_get.mp h
  unfold onMet
  by_cases hs : s.1 < us.length
  · rw [getElem?_eq_getElem hs, getElem?_eq_getElem (hlen ▸ hs)]
    exact (s.2.run_matches (hall s.1 hs (hlen ▸ hs))).bind fun u xs hu => ⟨_, rfl, .cons hu h⟩
  · rw [getElem?_eq_none (by omega), getElem?_eq_none (by omega)]
    exact ⟨us, rfl, h⟩

end SliceStep

/-- **Slices are slices.** Cut slices of a vector and of slices and edit them, in any order, each
time starting from any vector or slice that was met before, and do the same to lists. A step fails
just where the list does not allow it. Otherwise all vectors and slices, old and new, answer as the
lists do. -/
theorem Value.slices_refine_lists (steps : List (Nat × SliceStep)) (info : Value) :
    Matches (List.Forall₂ Answers)
      (steps.foldlM (SliceStep.onMet SliceStep.run) [.vector .empty info])
      (steps.foldlM (SliceStep.onMet SliceStep.onList) [[]]) :=
  have hstart : List.Forall₂ Windows [.vector .empty info] [[]] :=
    .cons (.vector Vector.represents_empty info) .nil
  (Matches.foldlM (fun s _ _ h => SliceStep.onMet_matches s h) steps hstart).imp
    fun _ _ h => h.imp fun _ _ h => h.answers

end HostedLisp
