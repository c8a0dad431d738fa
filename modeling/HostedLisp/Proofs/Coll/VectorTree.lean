import HostedLisp.Coll.Vector
import Mathlib.Algebra.Group.Nat.Defs

/-!
# The tree of a vector

The tree of a vector is determined by its height and by its items.

- `VectorNode.room`: how many items a node of some height has room for.
- `VectorNode.tree`: the tree that has given items; its children share them out in pieces.
- `VectorNode.leafFor_tree`, `set_tree`, `pushLeaf_tree`, `popLeaf_tree`, `items_tree`: what the
  operations do to it. They get positions counted from the start of the vector, of which a node
  looks at the remainder by its room only.
-/

namespace HostedLisp.Coll.VectorNode

open List

variable {α : Type}

/-! ## Sizes and positions -/

/-- The number of items that a node of height `d` has room for. -/
def room (d : Nat) : Nat := 32 ^ (d + 1)

variable (d : Nat) (xs : List α)

theorem room_succ : room (d + 1) = room d * 32 := Nat.pow_succ ..

theorem room_pos : 0 < room d := Nat.pow_pos (by decide)

theorem dvd_room : 32 ∣ room d := ⟨32 ^ d, Nat.pow_succ'⟩

theorem le_room : 32 ≤ room d := Nat.le_of_dvd (room_pos d) (dvd_room d)

/-- Pieces start at multiples of 32. -/
theorem dvd_mul_room (j d : Nat) : 32 ∣ j * room d := Nat.dvd_mul_left_of_dvd (dvd_room d) j

/-- Which child a position leads to. -/
theorem slot_succ (d i : Nat) : slot (d + 1) i = i % room (d + 1) / room d := by
  have hroom : room (d + 1) = room d * 32 := room_succ d
  have hpow : 2 ^ (5 * (d + 1)) = room d := by rw [Nat.pow_mul]; rfl
  rw [slot, Nat.shiftRight_eq_div_pow, hpow, hroom, Nat.mod_mul_right_div_self]

/-- The position below that child. -/
theorem mod_room (d i : Nat) : i % room (d + 1) % room d = i % room d :=
  Nat.mod_mod_of_dvd i ⟨32, room_succ d⟩

/-! ## Pieces -/

/-- The items below the child `j` of a node of height `d + 1`. -/
def piece (d : Nat) (xs : List α) (j : Nat) : List α := (xs.drop (j * room d)).take (room d)

/-- The number of children that `n` items are shared out to. -/
def width (d n : Nat) : Nat := (n + (room d - 1)) / room d

theorem lt_width {d n j : Nat} : j < width d n ↔ j * room d < n := by
  have hpos := room_pos d
  rw [width, ← Nat.succ_le_iff, Nat.le_div_iff_mul_le hpos, Nat.succ_mul]
  omega

theorem length_piece (j : Nat) : (piece d xs j).length = min (room d) (xs.length - j * room d) := by
  rw [piece, length_take, length_drop]

theorem piece_take (d n : Nat) (xs : List α) (j : Nat) :
    piece d (xs.take n) j = (piece d xs j).take (n - j * room d) := by
  rw [piece, piece, drop_take, take_take, take_take, Nat.min_comm]

/-- A piece that lies before a cut. -/
theorem piece_take_of_le {d n j : Nat} {xs : List α} (h : j * room d + room d ≤ n) :
    piece d (xs.take n) j = piece d xs j := by
  rw [piece_take, take_of_length_le]
  rw [length_piece]
  omega

/-- The last piece. -/
theorem piece_last {d j : Nat} {xs : List α} (h : xs.length ≤ j * room d + room d) :
    piece d xs j = xs.drop (j * room d) := take_of_length_le (by rw [length_drop]; omega)

/-- Replacing an item changes one piece. -/
theorem piece_set (r : Nat) (a : α) (j : Nat) :
    piece d (xs.set r a) j =
      if j = r / room d then (piece d xs j).set (r % room d) a else piece d xs j := by
  have hdiv := Nat.div_add_mod' r (room d)
  rw [piece, piece, drop_set]
  by_cases hj : j = r / room d
  · rw [if_pos hj, if_neg (by rw [hj]; omega), take_set]
    congr 1
    rw [hj]
    omega
  · split
    · rfl
    · next hstart =>
      -- the item comes after the piece
      have hlt : j < r / room d :=
        Nat.lt_of_le_of_ne ((Nat.le_div_iff_mul_le (room_pos d)).mpr (Nat.not_lt.mp hstart)) hj
      have hend := Nat.mul_le_mul_right (room d) hlt
      rw [Nat.succ_mul] at hend
      exact take_set_of_le (by omega)

/-- A block of 32 items that lies in a piece. -/
theorem block_piece {d j s : Nat} (hs : s + 32 ≤ room d) :
    ((piece d xs j).drop s).take 32 = (xs.drop (j * room d + s)).take 32 := by
  rw [piece, drop_take, take_take, drop_drop, Nat.min_eq_left (by omega)]

/-! ## Trees -/

/-- The tree of height `d` that has the given items. -/
def tree : Nat → List α → VectorNode α
  | 0, xs => leaf xs
  | d + 1, xs => branch ((List.range (width d xs.length)).map fun j => tree d (piece d xs j))

/-- The children of the tree of height `d + 1` that has the given items. -/
def childrenOf (d : Nat) (xs : List α) : List (VectorNode α) :=
  (List.range (width d xs.length)).map fun j => tree d (piece d xs j)

theorem tree_succ : tree (d + 1) xs = branch (childrenOf d xs) := rfl

theorem getElem?_childrenOf (j : Nat) :
    (childrenOf d xs)[j]? =
      if j * room d < xs.length then some (tree d (piece d xs j)) else none := by
  rw [childrenOf, getElem?_map]
  split
  · next h =>
    rw [getElem?_range (lt_width.mpr h)]
    rfl
  · next h =>
    have hle : (List.range (width d xs.length)).length ≤ j := by
      rw [length_range]
      exact Nat.not_lt.mp (mt lt_width.mp h)
    rw [getElem?_eq_none hle]
    rfl

theorem length_childrenOf : (childrenOf d xs).length = width d xs.length := by
  rw [childrenOf, length_map, length_range]

theorem childrenOf_nil : childrenOf d ([] : List α) = [] := by
  refine ext_getElem? fun j => ?_
  rw [getElem?_childrenOf]
  simp

/-- Items that fit into one child. -/
theorem childrenOf_eq_singleton {d : Nat} {xs : List α} (hne : xs ≠ []) (h : xs.length ≤ room d) :
    childrenOf d xs = [tree d xs] := by
  have hpos := length_pos_iff.mpr hne
  refine ext_getElem? fun j => ?_
  rw [getElem?_childrenOf]
  cases j with
  | zero => simp [piece, hpos, take_of_length_le h]
  | succ j =>
    rw [if_neg, getElem?_eq_none (Nat.succ_le_succ (Nat.zero_le j))]
    rw [Nat.succ_mul]
    omega

theorem path_leaf {full : List α} (hfull : full.length = 32) (d : Nat) :
    path d (leaf full) = tree d full := by
  induction d with
  | zero => rfl
  | succ d ih =>
    have hne : full ≠ [] := ne_nil_of_length_pos (by omega)
    rw [path, ih, tree_succ, childrenOf_eq_singleton hne (hfull ▸ le_room d)]

/-- The leaf of a position is the block of 32 items around it. -/
theorem leafFor_tree (i : Nat) (hlen : xs.length ≤ room d) (hi : i % room d < xs.length) :
    leafFor d (tree d xs) i = some ((xs.drop (i % room d / 32 * 32)).take 32) := by
  induction d generalizing xs with
  | zero =>
    have hzero : i % room 0 / 32 = 0 := Nat.div_eq_of_lt (Nat.mod_lt i (by decide))
    rw [hzero, Nat.zero_mul, drop_zero]
    exact congrArg some (take_of_length_le hlen).symm
  | succ d ih =>
    rw [tree_succ, leafFor, slot_succ, getElem?_childrenOf]
    have hdiv := Nat.div_add_mod' (i % room (d + 1)) (room d)
    rw [mod_room] at hdiv
    have hmod := Nat.mod_lt i (room_pos d)
    obtain ⟨q, hq⟩ := dvd_room d
    obtain ⟨p, hp⟩ := dvd_mul_room (i % room (d + 1) / room d) d
    have hlen' := length_piece d xs (i % room (d + 1) / room d)
    rw [if_pos (by omega), Option.bind_some, ih _ (by omega) (by omega), block_piece xs (by omega)]
    congr 3
    omega

/-- Replacing an item. -/
theorem set_tree (i : Nat) (a : α) : set d (tree d xs) i a = tree d (xs.set (i % room d) a) := by
  induction d generalizing xs with
  | zero => rfl
  | succ d ih =>
    rw [tree_succ, set, tree_succ]
    congr 1
    refine ext_getElem? fun j => ?_
    rw [getElem?_modify, getElem?_childrenOf, getElem?_childrenOf, length_set, piece_set,
      slot_succ, mod_room]
    split
    · next hj =>
      rw [if_pos hj.symm]
      split
      · exact congrArg some (ih _)
      · rfl
    · next hj =>
      rw [if_neg (Ne.symm hj)]
      split <;> rfl

theorem le_width_mul (d n : Nat) : n ≤ width d n * room d :=
  Nat.not_lt.mp (mt lt_width.mpr (Nat.lt_irrefl _))

theorem flatMap_piece (n : Nat) : (List.range n).flatMap (piece d xs) = xs.take (n * room d) := by
  induction n with
  | zero => simp
  | succ n ih =>
    rw [range_succ, flatMap_append, ih, flatMap_singleton, Nat.succ_mul,
      take_add]
    rfl

/-- The items of a tree are those that it was made of. -/
theorem items_tree : items d (tree d xs) = xs := by
  induction d generalizing xs with
  | zero => rfl
  | succ d ih =>
    rw [tree_succ, items, childrenOf, flatMap_map]
    simp only [ih]
    rw [flatMap_piece, take_of_length_le (le_width_mul d xs.length)]

/-! ## Adding a leaf -/

theorem getElem?_put {children : List (VectorNode α)} {k : Nat} (h : k ≤ children.length)
    (node : VectorNode α) (j : Nat) :
    (put children k node)[j]? = if j = k then some node else children[j]? := by
  unfold put
  split
  · next hk =>
    grind
  · next hk =>
    grind

/-- Earlier pieces end before, and later ones start after, the end of a piece. -/
theorem mul_room_cases {j k : Nat} (h : j ≠ k) :
    j * room d + room d ≤ k * room d ∨ k * room d + room d ≤ j * room d := by
  rcases Nat.lt_or_gt_of_ne h with h | h
  · exact .inl (Nat.succ_mul .. ▸ Nat.mul_le_mul_right (room d) h)
  · exact .inr (Nat.succ_mul .. ▸ Nat.mul_le_mul_right (room d) h)

/-- Putting the last child, where what comes before it stays. -/
theorem put_last {d k : Nat} {xs ys : List α}
    (hbefore : xs.take (k * room d) = ys.take (k * room d))
    (hstart : k * room d ≤ xs.length) (hend : xs.length ≤ k * room d + room d)
    (hstart' : k * room d < ys.length) (hend' : ys.length ≤ k * room d + room d) :
    put (childrenOf d xs) k (tree d (ys.drop (k * room d))) = childrenOf d ys := by
  have hpos := room_pos d
  have hwidth : k ≤ (childrenOf d xs).length := by
    rw [length_childrenOf]
    exact Nat.le_of_mul_le_mul_right (Nat.le_trans hstart (le_width_mul ..)) hpos
  refine ext_getElem? fun j => ?_
  rw [getElem?_put hwidth, getElem?_childrenOf, getElem?_childrenOf]
  by_cases hj : j = k
  · rw [if_pos hj, hj, if_pos hstart', piece_last hend']
  · rw [if_neg hj]
    rcases mul_room_cases d hj with hle | hafter
    · rw [if_pos (by omega), if_pos (by omega), ← piece_take_of_le hle, hbefore,
        piece_take_of_le hle]
    · rw [if_neg (by omega), if_neg (by omega)]

/-- Putting the child that further items go to. -/
theorem put_childrenOf {d k : Nat} {xs full : List α} (hfull : full.length = 32)
    (hstart : k * room d ≤ xs.length) (hend : xs.length + 32 ≤ k * room d + room d) :
    put (childrenOf d xs) k (tree d (xs.drop (k * room d) ++ full)) =
      childrenOf d (xs ++ full) := by
  have hlen : (xs ++ full).length = xs.length + 32 := by rw [length_append, hfull]
  rw [← drop_append_of_le_length hstart]
  exact put_last (take_append_of_le_length hstart).symm hstart (by omega) (by omega) (by omega)

/-- Where the next leaf goes. -/
theorem next_leaf_bounds {n : Nat} (hn : 32 ∣ n) :
    (n + 31) / room d * room d ≤ n ∧ n + 32 ≤ (n + 31) / room d * room d + room d := by
  obtain ⟨p, hp⟩ := dvd_mul_room ((n + 31) / room d) d
  have hdiv := Nat.div_add_mod' (n + 31) (room d)
  have hmod := Nat.mod_lt (n + 31) (room_pos d)
  omega

/-- Hanging a full leaf under a tree that has room for it appends its items. -/
theorem pushLeaf_tree {count : Nat} {full : List α} (hfull : full.length = 32) (d : Nat)
    (xs : List α) (hxs : 32 ∣ xs.length) (hcount : (count - 1) % room (d + 1) = xs.length + 31) :
    pushLeaf count (d + 1) (tree (d + 1) xs) (leaf full) = tree (d + 1) (xs ++ full) := by
  induction d generalizing xs with
  | zero =>
    obtain ⟨hstart, hend⟩ := next_leaf_bounds 0 hxs
    have hdrop : xs.drop ((xs.length + 31) / room 0 * room 0) = [] := by
      refine drop_eq_nil_of_le ?_
      have : room 0 = 32 := rfl
      omega
    rw [tree_succ, pushLeaf, slot_succ, hcount, tree_succ, ← put_childrenOf hfull hstart hend,
      hdrop]
    rfl
  | succ d ih =>
    obtain ⟨hstart, hend⟩ := next_leaf_bounds (d + 1) hxs
    have hlocal : (count - 1) % room (d + 1) = (xs.length + 31) % room (d + 1) := by
      rw [← hcount, mod_room]
    have hdiv := Nat.div_add_mod' (xs.length + 31) (room (d + 1))
    rw [tree_succ, pushLeaf, slot_succ, hcount, tree_succ, ← put_childrenOf hfull hstart hend]
    generalize (xs.length + 31) / room (d + 1) = k at hstart hend hdiv ⊢
    congr 2
    rw [getElem?_childrenOf, piece_last (by omega)]
    by_cases hfit : k * room (d + 1) < xs.length
    · -- the last child has room left
      rw [if_pos hfit]
      refine ih _ ?_ ?_
      · rw [length_drop]
        exact Nat.dvd_sub hxs (dvd_mul_room k (d + 1))
      · rw [hlocal, length_drop]
        omega
    · rw [if_neg hfit, drop_eq_nil_of_le (Nat.not_lt.mp hfit), nil_append]
      exact path_leaf hfull (d + 1)

/-! ## Removing a leaf -/

/-- Keeping the first pieces only. -/
theorem take_childrenOf (d k : Nat) (xs : List α) :
    (childrenOf d xs).take k = childrenOf d (xs.take (k * room d)) := by
  have hpos := room_pos d
  refine ext_getElem? fun j => ?_
  rw [getElem?_take, getElem?_childrenOf, getElem?_childrenOf, length_take]
  by_cases hj : j < k
  · have hle := Nat.succ_mul j (room d) ▸ Nat.mul_le_mul_right (room d) hj
    rw [if_pos hj, piece_take_of_le hle]
    congr 1
    rw [eq_iff_iff]
    omega
  · have hle := Nat.mul_le_mul_right (room d) (Nat.not_lt.mp hj)
    rw [if_neg hj, if_neg (by omega)]

/-- Cutting off items from the last piece. -/
theorem set_childrenOf {d k n : Nat} {xs : List α} (hstart : k * room d < n) (hn : n ≤ xs.length)
    (hend : xs.length ≤ k * room d + room d) :
    (childrenOf d xs).set k (tree d ((xs.drop (k * room d)).take (n - k * room d))) =
      childrenOf d (xs.take n) := by
  have hk : k < (childrenOf d xs).length := by
    rw [length_childrenOf]
    exact lt_width.mpr (Nat.lt_of_lt_of_le hstart hn)
  have hlen : (xs.take n).length = n := length_take_of_le hn
  have hbefore : xs.take (k * room d) = (xs.take n).take (k * room d) := by
    rw [take_take, Nat.min_eq_left (Nat.le_of_lt hstart)]
  rw [← drop_take, ← put_last hbefore (by omega) hend (by omega) (by omega)]
  exact (if_pos hk).symm

/-- Where the last leaf is. -/
theorem last_leaf_bounds {n : Nat} (hn : 0 < n) :
    (n - 1) / room d * room d < n ∧ n ≤ (n - 1) / room d * room d + room d := by
  have hdiv := Nat.div_add_mod' (n - 1) (room d)
  have hmod := Nat.mod_lt (n - 1) (room_pos d)
  omega

/-- Removing the last leaf of a tree drops its items; nothing is left of a tree with one leaf. -/
theorem popLeaf_tree {count : Nat} (hxs : 32 ∣ xs.length) (hpos : 0 < xs.length)
    (hcount : (count - 2) % room (d + 1) = xs.length - 1) :
    popLeaf count (d + 1) (tree (d + 1) xs) =
      if xs.length = 32 then none else some (tree (d + 1) (xs.take (xs.length - 32))) := by
  induction d generalizing xs with
  | zero =>
    have hroom : room 0 = 32 := rfl
    rw [tree_succ, popLeaf, slot_succ, hcount, hroom]
    split
    · next hk =>
      rw [if_pos (by omega)]
    · next hk =>
      rw [if_neg (by omega), take_childrenOf, tree_succ, hroom]
      congr 4
      omega
  | succ d ih =>
    obtain ⟨hstart, hend⟩ := last_leaf_bounds (d + 1) hpos
    have hlocal : (count - 2) % room (d + 1) = (xs.length - 1) % room (d + 1) := by
      rw [← hcount, mod_room]
    have hdiv := Nat.div_add_mod' (xs.length - 1) (room (d + 1))
    rw [tree_succ, popLeaf, slot_succ, hcount]
    generalize (xs.length - 1) / room (d + 1) = k at hstart hend hdiv ⊢
    obtain ⟨p, hp⟩ := dvd_mul_room k (d + 1)
    have hlen : (xs.drop (k * room (d + 1))).length = xs.length - k * room (d + 1) := length_drop
    have hchild := ih (xs.drop (k * room (d + 1))) (by omega) (by omega) (by omega)
    rw [getElem?_childrenOf, if_pos hstart, Option.bind_some, piece_last hend, hchild]
    by_cases hlast : xs.length - k * room (d + 1) = 32
    · -- the last child has one leaf and goes
      rw [if_pos (by omega)]
      dsimp only
      by_cases hk : k = 0
      · rw [if_pos hk, if_pos (by rw [hk] at hlast; omega)]
      · have hroom := Nat.le_mul_of_pos_left (room (d + 1)) (Nat.pos_of_ne_zero hk)
        rw [if_neg hk, if_neg (by omega), take_childrenOf, tree_succ]
        congr 4
        omega
    · -- the last child stays and loses a leaf
      have hmany : xs.length ≠ 32 := by
        rcases Nat.eq_zero_or_pos k with hk | hk
        · omega
        · omega
      rw [if_neg (by omega), if_neg hmany, tree_succ (d + 1),
        ← set_childrenOf (n := xs.length - 32) (k := k) (by omega) (Nat.sub_le ..) hend]
      dsimp only
      congr 5
      omega

end HostedLisp.Coll.VectorNode
