import HostedLisp.Collection.Vectors
import HostedLisp.Proofs.Coll.VectorTree
import HostedLisp.Proofs.Walk

/-!
# Vectors are lists

A vector that was built from the empty one by appending, replacing and dropping items answers as the
list does to which the same was done.

- `Vector.Represents`: the invariant. The tree has the items before the tail and is no higher than
  they need.
- `Represents.get?_eq`, `Represents.push`, `Represents.set?`, `Represents.pop?`: the operations.
- `Matches`: two computations fail together or agree, also over a history (`Matches.foldlM`).
- `VectorStep`: the steps of a history, on values (`VectorStep.run`) and on lists
  (`VectorStep.onList`).
- `Value.vector_refines_list`: a whole history.
-/

variable {i : Nat}

namespace HostedLisp.Coll.Vector

open VectorNode List

variable {α : Type} {v : Vector α} {xs : List α}

/-! ## The tail -/

theorem tailStart_eq (v : Vector α) : v.tailStart = (v.count - 1) / 32 * 32 := by
  unfold tailStart
  split <;> omega

/-- The tree and the tail of a vector hold the items of a list, and the tree is just high enough. -/
structure Represents (v : Vector α) (xs : List α) : Prop where
  count : v.count = xs.length
  tail : v.tail = xs.drop v.tailStart
  depth_pos : 0 < v.depth
  root : v.root = tree v.depth (xs.take v.tailStart)
  fits : v.tailStart ≤ room v.depth
  tight : v.depth = 1 ∨ room (v.depth - 1) < v.tailStart

/-- A vector given by its parts. -/
theorem Represents.of_parts {n d : Nat} (start : Nat) {root : VectorNode α} {tail : List α}
    (count : n = xs.length) (hstart : start = (xs.length - 1) / 32 * 32)
    (tail_eq : tail = xs.drop start) (root_eq : root = tree (d + 1) (xs.take start))
    (fits : start ≤ room (d + 1)) (tight : d = 0 ∨ room d < start) :
    Represents ⟨n, d + 1, root, tail⟩ xs := by
  have htail : (⟨n, d + 1, root, tail⟩ : Vector α).tailStart = start := by
    rw [tailStart_eq, hstart, count]
  refine ⟨count, ?_, Nat.succ_pos d, ?_, ?_, ?_⟩
  · rw [htail]
    exact tail_eq
  · rw [htail]
    exact root_eq
  · rw [htail]
    exact fits
  · rw [htail]
    exact tight.imp_left (congrArg (· + 1))

variable (h : v.Represents xs)

include h

/-- The parts of a vector. -/
theorem Represents.parts :
    ∃ d start, v = ⟨xs.length, d + 1, tree (d + 1) (xs.take start), xs.drop start⟩ ∧
      v.tailStart = start ∧ start = (xs.length - 1) / 32 * 32 ∧ start ≤ room (d + 1) ∧
      (d = 0 ∨ room d < start) := by
  obtain ⟨n, depth, root, tail⟩ := v
  obtain ⟨rfl, htail, hdepth, hroot, hfits, htight⟩ := h
  obtain ⟨d, rfl⟩ : ∃ d, depth = d + 1 := ⟨depth - 1, (Nat.sub_add_cancel hdepth).symm⟩
  refine ⟨d, _, ?_, rfl, tailStart_eq _, hfits, htight.imp_left Nat.succ.inj⟩
  rw [← hroot, ← htail]

omit h in
theorem represents_empty : Represents (empty : Vector α) [] where
  count := rfl
  tail := rfl
  depth_pos := Nat.one_pos
  root := (congrArg branch (childrenOf_nil 0)).symm
  fits := Nat.zero_le _
  tight := .inl rfl

/-! ## Reading -/

/-- The block of an index is the 32 items around it, in the tail as in the tree. -/
theorem Represents.block?_eq (hi : i < xs.length) :
    v.block? i = some ((xs.drop (i / 32 * 32)).take 32) := by
  have hstart := v.tailStart_eq
  rw [h.count] at hstart
  rw [block?, h.count, if_pos hi]
  split
  · next htail =>
    have hblock : i / 32 * 32 = v.tailStart := by omega
    rw [h.tail, hblock, take_of_length_le (by rw [length_drop]; omega)]
  · next htree =>
    have hlen : (xs.take v.tailStart).length = v.tailStart := by
      rw [length_take]
      omega
    have hmod : i % room v.depth = i :=
      Nat.mod_eq_of_lt (Nat.lt_of_lt_of_le (Nat.not_le.mp htree) h.fits)
    rw [h.root, leafFor_tree _ _ _ (Nat.le_trans (Nat.le_of_eq hlen) h.fits) (by omega), hmod,
      drop_take, take_take, Nat.min_eq_left (by omega)]

theorem Represents.get?_eq (i : Nat) : v.get? i = xs[i]? := by
  unfold get?
  by_cases hi : i < xs.length
  · rw [h.block?_eq hi, Option.bind_some, getElem?_take, if_pos (Nat.mod_lt i (by decide)),
      getElem?_drop, Nat.div_add_mod']
  · rw [block?, h.count, if_neg hi, getElem?_eq_none (Nat.not_lt.mp hi)]
    rfl

theorem Represents.toList_eq : v.toList = xs := by
  rw [toList, h.root, items_tree, h.tail, take_append_drop]

/-! ## Appending -/

omit h in
/-- The root that a tree without room is put under. -/
theorem branch_pair {d : Nat} {full : List α} (hxs : xs.length = room d)
    (hfull : full.length = 32) :
    branch [tree d xs, path d (leaf full)] = tree (d + 1) (xs ++ full) := by
  have hone : childrenOf d xs = [tree d xs] :=
    childrenOf_eq_singleton (ne_nil_of_length_pos (hxs ▸ room_pos d)) (Nat.le_of_eq hxs)
  have hle := le_room d
  rw [tree_succ, ← put_childrenOf (k := 1) hfull (by omega) (by omega), hone, path_leaf hfull,
    drop_eq_nil_of_le (by omega)]
  rfl

theorem Represents.push (a : α) : (v.push a).Represents (xs ++ [a]) := by
  obtain ⟨d, start, rfl, htail, hstart, hfits, htight⟩ := h.parts
  have hlen : (xs ++ [a]).length = xs.length + 1 := length_append
  unfold Vector.push
  dsimp only
  split
  · next hroom =>
    refine .of_parts start hlen.symm (by omega) ?_ ?_ hfits htight
    · rw [drop_append_of_le_length (by omega)]
    · rw [take_append_of_le_length (by omega)]
  · next hfull =>
    -- the tail moves into the tree
    have hblock : (xs.drop start).length = 32 := by
      rw [length_drop]
      omega
    have htree : (xs.take start).length = start := by
      rw [length_take]
      omega
    have hitems : xs.take start ++ xs.drop start = (xs ++ [a]).take xs.length := by
      rw [take_append_drop, take_left]
    have hrest : [a] = (xs ++ [a]).drop xs.length := drop_left.symm
    have hshift : 1 <<< (5 * (d + 1)) = room d := by
      rw [Nat.one_shiftLeft, Nat.pow_mul]
      rfl
    split
    · next hover =>
      -- the tree is full and gets a new root above the old one
      have hsize : start = room (d + 1) := by
        rw [room_succ] at hfits ⊢
        omega
      refine .of_parts xs.length hlen.symm (by omega) hrest ?_ ?_ ?_
      · rw [branch_pair (htree.trans hsize) hblock, hitems]
      · have hle := le_room (d + 1)
        rw [room_succ (d + 1)]
        omega
      · exact .inr (by omega)
    · next hspace =>
      have hsize : xs.length ≤ room (d + 1) := by
        rw [room_succ]
        omega
      refine .of_parts xs.length hlen.symm (by omega) hrest ?_ hsize
        (htight.imp_right fun hlt => by omega)
      rw [pushLeaf_tree hblock d _ (by omega) ?_, hitems]
      rw [Nat.mod_eq_of_lt (by omega), htree]
      omega

/-! ## Replacing -/

theorem Represents.set? (hi : i < xs.length) (a : α) :
    ∃ w, v.set? i a = some w ∧ w.Represents (xs.set i a) := by
  obtain ⟨d, start, rfl, htail, hstart, hfits, htight⟩ := h.parts
  have hlen : (xs.set i a).length = xs.length := length_set
  unfold Vector.set?
  rw [htail, if_pos hi]
  split
  · next hle =>
    refine ⟨_, rfl, .of_parts start hlen.symm (hlen ▸ hstart) ?_ ?_ hfits htight⟩
    · rw [drop_set, if_neg (by omega)]
      congr 1
      omega
    · rw [take_set_of_le hle]
  · next hlt =>
    refine ⟨_, rfl, .of_parts start hlen.symm (hlen ▸ hstart) ?_ ?_ hfits htight⟩
    · rw [drop_set, if_pos (by omega)]
    · show VectorNode.set (d + 1) _ i a = _
      rw [set_tree, Nat.mod_eq_of_lt (by omega), take_set]

/-! ## Dropping the last item -/

omit h in
/-- The tree without its last leaf. -/
theorem popLeaf_getD {count d : Nat} (hxs : 32 ∣ xs.length) (hpos : 0 < xs.length)
    (hcount : (count - 2) % room (d + 1) = xs.length - 1) :
    (popLeaf count (d + 1) (tree (d + 1) xs)).getD (branch []) =
      branch (childrenOf d (xs.take (xs.length - 32))) := by
  rw [popLeaf_tree d xs hxs hpos hcount]
  split
  · next hone =>
    rw [hone, take_zero, childrenOf_nil]
    rfl
  · rfl

/-- Dropping the last item when the tail has others. -/
theorem Represents.pop_tail (hmany : 1 < xs.length - v.tailStart) :
    Represents { v with count := v.count - 1, tail := v.tail.dropLast } xs.dropLast := by
  obtain ⟨d, start, rfl, htail, hstart, hfits, htight⟩ := h.parts
  have hlen : xs.dropLast.length = xs.length - 1 := length_dropLast
  refine .of_parts start hlen.symm (by omega) ?_ ?_ hfits htight
  · rw [dropLast_eq_take, dropLast_eq_take, drop_take, length_drop]
    congr 1
    omega
  · rw [dropLast_eq_take, take_take, Nat.min_eq_left (by omega)]

omit h in
/-- Lowering the root where that is possible leaves no tree that is too high. -/
theorem represents_lowered {d start : Nat} (hstart : start = (xs.length - 1) / 32 * 32)
    (hfits : start ≤ room (d + 1)) (htight : d = 0 ∨ room d ≤ start) :
    Represents (lowered xs.length (d + 1) (tree (d + 1) (xs.take start)) (xs.drop start)) xs := by
  have hlen : (xs.take start).length = start := by
    rw [length_take]
    omega
  by_cases hlow : 0 < d ∧ start ≤ room d
  · -- one child has all items
    have hpos := room_pos d
    have hone : childrenOf d (xs.take start) = [tree d (xs.take start)] :=
      childrenOf_eq_singleton (ne_nil_of_length_pos (by omega)) (by omega)
    obtain ⟨e, rfl⟩ : ∃ e, d = e + 1 := ⟨d - 1, by omega⟩
    rw [tree_succ, hone, lowered, if_pos (by omega)]
    refine .of_parts start rfl hstart rfl rfl hlow.2 (.inr ?_)
    have hle := le_room e
    rw [room_succ] at htight
    omega
  · have hkeep : lowered xs.length (d + 1) (tree (d + 1) (xs.take start)) (xs.drop start) =
        ⟨xs.length, d + 1, tree (d + 1) (xs.take start), xs.drop start⟩ := by
      rw [tree_succ]
      unfold lowered
      split
      · next only hone =>
        have hwidth := length_childrenOf d (xs.take start)
        rw [branch.inj hone, hlen] at hwidth
        have hfew : start ≤ 1 * room d := Nat.not_lt.mp fun hlt =>
          Nat.ne_of_gt (lt_width.mpr hlt) hwidth.symm
        rw [if_neg (by omega)]
      · rfl
    rw [hkeep]
    exact .of_parts start rfl hstart rfl rfl hfits (by omega)

/-- Dropping the last item when it is all of the tail: the last leaf of the tree takes its place. -/
theorem Represents.pop_leaf (hlong : 1 < xs.length) (hlast : xs.length - v.tailStart ≤ 1) :
    Represents (lowered (v.count - 1) v.depth ((popLeaf v.count v.depth v.root).getD (.branch []))
      ((v.block? (v.count - 2)).getD [])) xs.dropLast := by
  obtain ⟨d, start, hv, htail, hstart, hfits, htight⟩ := h.parts
  have hblock := h.block?_eq (i := xs.length - 2) (by omega)
  have hlen : xs.dropLast.length = xs.length - 1 := length_dropLast
  have htree : (xs.take start).length = start := by
    rw [length_take]
    omega
  have hroot : (popLeaf xs.length (d + 1) (tree (d + 1) (xs.take start))).getD (branch []) =
      tree (d + 1) (xs.dropLast.take (start - 32)) := by
    rw [popLeaf_getD (by omega) (by omega) (by rw [Nat.mod_eq_of_lt] <;> omega), htree,
      dropLast_eq_take, take_take, take_take]
    congr 3
    omega
  have hrest : (xs.drop ((xs.length - 2) / 32 * 32)).take 32 = xs.dropLast.drop (start - 32) := by
    rw [dropLast_eq_take, drop_take]
    congr 1
    · omega
    · congr 1
      omega
  rw [h.count, hblock, Option.getD_some, hrest, hv]
  rw [hroot, ← hlen]
  obtain ⟨q, hq⟩ := dvd_room d
  exact represents_lowered (by omega) (by omega) (by omega)

theorem Represents.pop? (hne : xs ≠ []) : ∃ w, v.pop? = some w ∧ w.Represents xs.dropLast := by
  have hpos := length_pos_iff.mpr hne
  unfold Vector.pop?
  rw [if_neg (by rw [h.count]; omega)]
  split
  · next hone =>
    rw [h.count] at hone
    obtain ⟨x, rfl⟩ := length_eq_one_iff.mp hone
    exact ⟨empty, rfl, represents_empty⟩
  · next hone =>
    split
    · next hmany =>
      exact ⟨_, rfl, h.pop_tail (h.count ▸ hmany)⟩
    · next hlast =>
      rw [h.count] at hone hlast
      exact ⟨_, rfl, h.pop_leaf (by omega) (by omega)⟩

end HostedLisp.Coll.Vector

/-! ## Vectors as values -/

namespace HostedLisp.Value

open Coll

theorem less_int [Identity] (a b : Int) : less (.int a) (.int b) = .ok (decide (a < b)) := by
  show Except.ok (Number.lt (.exact a) (.exact b)) = _
  rw [Number.lt, decide_eq_decide.mpr Rat.intCast_lt_intCast]

theorem eq_int [Identity] (a b : Int) : eq (.int a) (.int b) = .ok (decide (a = b)) := by
  show Except.ok (Number.eq (.exact a) (.exact b)) = _
  rw [Number.eq, Bool.beq_eq_decide_eq, decide_eq_decide.mpr Rat.intCast_inj]

theorem atMost_int (a b : Int) : atMost (.int a) (.int b) = .ok (decide (a ≤ b)) := by
  show Except.ok (Number.lt (.exact a) (.exact b) || Number.eq (.exact a) (.exact b)) = _
  rw [Number.lt, Number.eq, Bool.beq_eq_decide_eq, decide_eq_decide.mpr Rat.intCast_lt_intCast,
    decide_eq_decide.mpr Rat.intCast_inj, ← Bool.decide_or]
  congr 2
  rw [eq_iff_iff]
  omega

theorem add_int (a b : Int) : add (.int a) (.int b) = .ok (.int (a + b)) := by
  show Except.ok (Value.int ((a : Rat) + (b : Rat)).num) = _
  rw [← Rat.intCast_add, Rat.num_intCast]

theorem isBelow_int (i n : Int) : isBelow (.int i) n = .ok (decide (0 ≤ i ∧ i < n)) := by
  rw [isBelow, atMost_int, less_int]
  by_cases hi : 0 ≤ i
  · simp [hi]
  · simp [hi]

variable {v : Vector Value} {w : Value} {xs : List Value}

/-- A source of indexed sequences and its items. -/
structure Indexes (w : Value) (xs : List Value) : Prop where
  len_eq : indexedLen w = .ok xs.length
  item_eq : ∀ i (hi : i < xs.length), indexedItem w i = .ok xs[i]

/-- Walking an indexed source from an index on. -/
theorem Indexes.walks (h : Indexes w xs) (hi : i < xs.length) :
    Walks (.indexSeq w i) (xs.drop i) := by
  -- on the number of items left after the first
  induction hn : xs.length - (i + 1) generalizing i with
  | zero =>
    rw [List.drop_eq_getElem_cons hi, List.drop_eq_nil_of_le (by omega)]
    refine .step (by simp) (h.item_eq i hi) ?_ .done
    rw [next, h.len_eq, ok_bind, if_pos (by omega)]
    rfl
  | succ n ih =>
    rw [List.drop_eq_getElem_cons hi]
    refine .step (by simp) (h.item_eq i hi) ?_ (ih (i := i + 1) (by omega) (by omega))
    rw [next, h.len_eq, ok_bind, if_neg (by omega)]
    rfl

/-- The sequence that starts at the first item, if there is one. -/
theorem Indexes.walks_seq (h : Indexes w xs) : ∃ s, (indexedLen w >>= fun n =>
    if n = 0 then pure .nil else pure (.indexSeq w 0) : Except Error Value) = .ok s ∧
    Walks s xs := by
  rw [h.len_eq]
  cases xs with
  | nil => exact ⟨.nil, rfl, .done⟩
  | cons x xs => exact ⟨.indexSeq w 0, rfl, h.walks (i := 0) (Nat.succ_pos _)⟩

section

variable (h : v.Represents xs) (info : Value)

include h info

/-- The item at an index, as an indexed sequence asks for it. -/
theorem nth_vector (hi : i < xs.length) : nth (.vector v info) i = .ok xs[i] := by
  rw [nth, if_neg (by omega), Int.toNat_natCast, h.get?_eq, List.getElem?_eq_getElem hi]
  rfl

/-- The item at an index in range. -/
theorem nthAt_vector (hi : i < xs.length)
    (default : Option Value) : nthAt (.vector v info) (.int i) default = .ok xs[i] := by
  rw [nthAt, isBelow_int, h.count, decide_eq_true (by omega)]
  exact nth_vector h info hi

/-- An index out of range. -/
theorem nthAt_vector_outside {i : Int} (hi : i < 0 ∨ xs.length ≤ i) (default : Option Value) :
    nthAt (.vector v info) (.int i) default = orOutOfBounds default := by
  rw [nthAt, isBelow_int, h.count, decide_eq_false (by omega)]
  rfl

/-- A vector as a source of indexed sequences. -/
theorem indexes_vector : Indexes (.vector v info) xs where
  len_eq := by rw [indexedLen, h.count]; rfl
  item_eq _ hi := nth_vector h info hi

end

end HostedLisp.Value

namespace HostedLisp

open Coll

/-! ## Histories -/

/-- Two computations fail together, or what they give is related. -/
def Matches {α β : Type} (R : α → β → Prop) (result : Except Error α) : Option β → Prop
  | none => ∃ e, result = .error e
  | some b => ∃ a, result = .ok a ∧ R a b

section

variable {α β γ δ σ : Type} {R : α → β → Prop} {R' : γ → δ → Prop}

theorem Matches.imp {x : Except Error α} {y : Option β} {R' : α → β → Prop} (h : Matches R x y)
    (himp : ∀ a b, R a b → R' a b) : Matches R' x y := by
  cases y with
  | none => exact h
  | some b =>
    obtain ⟨a, hx, hab⟩ := h
    exact ⟨a, hx, himp a b hab⟩

theorem Matches.bind {x : Except Error α} {y : Option β} {f : α → Except Error γ} {g : β → Option δ}
    (h : Matches R x y) (hf : ∀ a b, R a b → Matches R' (f a) (g b)) :
    Matches R' (x >>= f) (y >>= g) := by
  cases y with
  | none =>
    obtain ⟨e, rfl⟩ := h
    exact ⟨e, rfl⟩
  | some b =>
    obtain ⟨a, rfl, hab⟩ := h
    exact hf a b hab

/-- A history, step after step. -/
theorem Matches.foldlM {f : α → σ → Except Error α} {g : β → σ → Option β}
    (hstep : ∀ s a b, R a b → Matches R (f a s) (g b s)) (steps : List σ) {a : α} {b : β}
    (h : R a b) : Matches R (steps.foldlM f a) (steps.foldlM g b) := by
  induction steps generalizing a b with
  | nil => exact ⟨a, rfl, h⟩
  | cons s steps ih =>
    rw [List.foldlM_cons, List.foldlM_cons]
    exact (hstep s a b h).bind fun _ _ h => ih h

end

/-- A step in the history of a vector. -/
inductive VectorStep where
  | push (x : Value)
  | replace (i : Int) (x : Value)
  | drop

namespace VectorStep

/-- The step on a value. -/
def run : VectorStep → Value → Except Error Value
  | push x, u => u.push x
  | replace i x, u => u.assocN (.int i) x
  | drop, u => u.popLast

/-- The step on a list, for indices from 0 up to the length, and unless there is nothing to drop. -/
def onList : VectorStep → List Value → Option (List Value)
  | push x, xs => some (xs ++ [x])
  | replace i x, xs =>
    if 0 ≤ i ∧ i < xs.length then some (xs.set i.toNat x)
    else if i = xs.length then some (xs ++ [x])
    else none
  | drop, xs => if xs.isEmpty then none else some xs.dropLast

/-- A vector with the items of a list. -/
def IsVector (info u : Value) (xs : List Value) : Prop := ∃ v, u = .vector v info ∧ v.Represents xs

/-- One step. -/
theorem run_matches (s : VectorStep) {v : Vector Value} {xs : List Value} (h : v.Represents xs)
    (info : Value) : Matches (IsVector info) (s.run (.vector v info)) (s.onList xs) := by
  cases s with
  | push x => exact ⟨_, rfl, v.push x, rfl, h.push x⟩
  | replace i x =>
    show Matches (IsVector info) (Value.vectorSet v info (.int i) x) _
    rw [Value.vectorSet, Value.isBelow_int, Value.eq_int, h.count, onList]
    by_cases hbelow : 0 ≤ i ∧ i < xs.length
    · obtain ⟨w, hset, hw⟩ := h.set? (i := i.toNat) (by omega) x
      rw [if_pos hbelow, decide_eq_true hbelow]
      refine ⟨_, ?_, w, rfl, hw⟩
      simp only [Value.asInt?, hset]
      rfl
    · rw [if_neg hbelow, decide_eq_false hbelow]
      by_cases hend : i = xs.length
      · rw [if_pos hend, decide_eq_true hend]
        exact ⟨_, rfl, v.push x, rfl, h.push x⟩
      · rw [if_neg hend, decide_eq_false hend]
        exact ⟨_, rfl⟩
  | drop =>
    unfold run Value.popLast
    cases xs with
    | nil =>
      have hpop : v.pop? = none := by rw [Vector.pop?, h.count]; rfl
      simp only [hpop]
      exact ⟨_, rfl⟩
    | cons x xs =>
      obtain ⟨w, hpop, hw⟩ := h.pop? (List.cons_ne_nil x xs)
      simp only [hpop]
      exact ⟨_, rfl, w, rfl, hw⟩

end VectorStep

/-- **A vector is a list.** Do any steps to the empty vector and to the empty list. The steps fail
on the vector just when the list does not allow them. Otherwise the vector has the length of the
list, it has the item of the list at every index in range and none (or the default) at any other,
and its sequence walks the list. -/
theorem Value.vector_refines_list (steps : List VectorStep) (info : Value) :
    match steps.foldlM (fun xs s => s.onList xs) [] with
    | none => ∃ e, steps.foldlM (fun u s => s.run u) (.vector .empty info) = .error e
    | some xs => ∃ v,
      steps.foldlM (fun u s => s.run u) (.vector .empty info) = .ok (.vector v info) ∧
      len (.vector v info) = .ok xs.length ∧
      (∀ (i : Nat) (hi : i < xs.length) (default : Option Value),
        nthAt (.vector v info) (.int i) default = .ok xs[i]) ∧
      (∀ i : Int, i < 0 ∨ xs.length ≤ i →
        nthAt (.vector v info) (.int i) none = .error .outOfBounds ∧
        ∀ default, nthAt (.vector v info) (.int i) (some default) = .ok default) ∧
      items (.vector v info) = .ok xs ∧
      ∀ fuel, xs.length ≤ fuel →
        (seqMethod (.vector v info) >>= walkInto #[] fuel) = .ok xs.toArray := by
  have hrun := Matches.foldlM (f := fun u s => VectorStep.run s u) (g := fun xs s => s.onList xs)
    (R := VectorStep.IsVector info) (fun s _ _ ⟨_, hv, h⟩ => hv ▸ s.run_matches h info) steps
    ⟨.empty, rfl, Vector.represents_empty⟩
  cases hlist : steps.foldlM (fun xs s => s.onList xs) [] with
  | none =>
    rw [hlist] at hrun
    exact hrun
  | some xs =>
    rw [hlist] at hrun
    obtain ⟨_, hv, v, rfl, h⟩ := hrun
    refine ⟨v, hv, ?_, fun i hi => nthAt_vector h info hi, fun i hi => ?_, ?_, fun fuel hfuel => ?_⟩
    · show Except.ok (v.count : Int) = _
      rw [h.count]
    · exact ⟨nthAt_vector_outside h info hi none, fun d => nthAt_vector_outside h info hi (some d)⟩
    · show Except.ok v.toList = _
      rw [h.toList_eq]
    · obtain ⟨s, hs, hwalks⟩ := (indexes_vector h info).walks_seq
      rw [seqMethod, hs]
      exact (hwalks.walkInto_eq #[] hfuel).trans (by simp)

end HostedLisp
