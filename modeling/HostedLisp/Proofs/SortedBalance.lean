import HostedLisp.Proofs.SortedMaps
import Mathlib

/-!
# Sorted maps are balanced

The operations on trees are those of the library's red-black trees, whose theory says that they keep
the balance. A tree of the library is drawn as one of ours.

- `Tree.draw`: a tree of the library as one of ours.
- `Tree.append_draw`, `Tree.remove_draw`, `Tree.insert?_draw`: each operation is that of the
  library. No part of a removal fails.
- `Value.InBalance`: the invariant of binding and removing keys, with its step (`InBalance.update`).
- `Value.treeMap_balanced`: the tree of a map.
-/

namespace HostedLisp

open RBTree RBNode Coll

namespace Coll

variable {ε K V : Type}

def Color.of : RBColor → Color
  | .red => .red
  | .black => .black

/-- A tree of the library, drawn with nodes in their usual shape. -/
def Tree.draw : RBNode (K × Option V) → Tree K V
  | .nil => empty
  | .node c l e r => mk (.of c) e.1 e.2 (draw l) (draw r)

namespace Tree

variable {order : TreeOrder ε K} {key k : K} {v : Option V} {e : K × Option V}
  {l r t : RBNode (K × Option V)} {c : RBColor} {n : Nat}

/-! ## Rotations -/

theorem leftBalance_draw : leftBalance k v (draw l) (draw r) = draw (balance1 l (k, v) r) := by
  rcases l with _ | ⟨_ | _, _ | ⟨_ | _, _, _, _⟩, _, _ | ⟨_ | _, _, _, _⟩⟩ <;> rfl

theorem rightBalance_draw : rightBalance k v (draw l) (draw r) = draw (balance2 l (k, v) r) := by
  rcases r with _ | ⟨_ | _, _ | ⟨_ | _, _, _, _⟩, _, _ | ⟨_ | _, _, _, _⟩⟩ <;> rfl

theorem balanceLeft_draw : balanceLeft (draw l) k v (draw r) = draw (balance1 l (k, v) r) := by
  rcases l with _ | ⟨_ | _, _ | ⟨_ | _, _, _, _⟩, _, _ | ⟨_ | _, _, _, _⟩⟩ <;> rfl

theorem balanceRight_draw : balanceRight k v (draw l) (draw r) = draw (balance2 l (k, v) r) := by
  rcases r with _ | ⟨_ | _, _ | ⟨_ | _, _, _, _⟩, _, _ | ⟨_ | _, _, _, _⟩⟩ <;> rfl

theorem blacken_draw : (draw t).blacken = draw t.setBlack := by
  rcases t with _ | ⟨_ | _, _, _, _⟩ <;> rfl

theorem isBlack_draw : (draw t).isBlack = true ↔ t.isBlack = .black := by
  rcases t with _ | ⟨_ | _, _, _, _⟩ <;> simp [draw, mk, Color.of, isBlack, RBNode.isBlack]

/-! ## Removal -/

/-- Every node has a value. -/
abbrev Valued (t : RBNode (K × Option V)) : Prop := t.All (·.2 ≠ none)

theorem redden_draw (hv : e.2 ≠ none) :
    redden order (draw (.node .black l e r)) = .ok (draw (.node .red l e r)) := by
  obtain ⟨k, _ | v⟩ := e
  · exact absurd rfl hv
  · cases l <;> cases r <;> rfl

theorem balanceLeftDel_black (hv : e.2 ≠ none) (l t : RBNode (K × Option V)) :
    balanceLeftDel order k v (draw t) (draw (.node .black l e r)) =
      .ok (draw (t.balLeft (k, v) (.node .black l e r))) := by
  rcases t with _ | ⟨_ | _, _, _, _⟩
  case node.red => rfl
  all_goals
    show (return rightBalance k v _ (← redden order (draw (.node .black ..))) : Except ε _) = _
    rw [redden_draw hv]
    exact congrArg _ rightBalance_draw

/-- The sibling of a subtree that lost a black level is not empty. -/
theorem balanceLeftDel_draw (hr : r.Balanced c (n + 1)) (hv : Valued r) :
    balanceLeftDel order k v (draw l) (draw r) = .ok (draw (l.balLeft (k, v) r)) := by
  cases hr with
  | black => exact balanceLeftDel_black hv.1 _ l
  | red hl hr =>
    cases hl
    cases hr
    rcases l with _ | ⟨_ | _, _, _, _⟩
    case node.red => rfl
    all_goals
      show (return red _ _ _ (rightBalance _ _ _ (← redden order (draw _))) : Except ε _) = _
      rw [redden_draw hv.2.2.1]
      exact congrArg (fun t => Except.ok (red _ _ _ t)) rightBalance_draw

theorem balanceRightDel_draw (hl : l.Balanced c (n + 1)) (hv : Valued l) :
    balanceRightDel order k v (draw l) (draw r) = .ok (draw (l.balRight (k, v) r)) := by
  rcases r with _ | ⟨_ | _, _, _, _⟩
  case node.red => rfl
  all_goals
    cases hl with
    | black =>
      show (return leftBalance k v (← redden order (draw (.node .black ..))) _ : Except ε _) = _
      rw [redden_draw hv.1]
      exact congrArg _ leftBalance_draw
    | red hl hr =>
      cases hl
      cases hr
      show (return red _ _ (leftBalance _ _ (← redden order (draw _)) _) _ : Except ε _) = _
      rw [redden_draw hv.2.1.1]
      exact congrArg (fun t => Except.ok (red _ _ t _)) leftBalance_draw

theorem append_draw (hl : Valued l) (hr : Valued r) :
    append order (draw l) (draw r) = .ok (draw (l.append r)) := by
  fun_induction RBNode.append l r with
  | case1 r =>
    rw [draw, Tree.append]
    rfl
  | case2 l hne =>
    rcases l with _ | ⟨_ | _, _, _, _⟩
    · exact (hne rfl).elim
    all_goals simp [draw, mk, Color.of, Tree.append]
  | case3 _ _ _ _ _ _ _ _ _ happ ih | case5 _ _ _ _ _ _ _ _ _ happ ih =>
    have hok := ih hl.2.2 hr.2.1
    rw [happ] at hok
    simp only [draw, mk, Color.of, Tree.append, hok]
    rfl
  | case4 _ _ b d _ _ hred ih =>
    have hok := ih hl.2.2 hr.2.1
    generalize b.append d = app at hok hred
    simp only [draw, mk, Color.of, Tree.append, hok]
    rcases app with _ | ⟨_ | _, _, _, _⟩
    case node.red => exact (hred _ _ _ rfl).elim
    all_goals rfl
  | case6 a _ b d _ _ hred ih =>
    have hok := ih hl.2.2 hr.2.1
    generalize b.append d = app at hok hred
    simp only [draw, mk, Color.of, Tree.append, hok]
    rcases app with _ | ⟨_ | _, _, _, _⟩
    · exact balanceLeftDel_black hr.1 .nil a
    · exact (hred _ _ _ rfl).elim
    · exact balanceLeftDel_black hr.1 (.node .black ..) a
  | case7 _ _ _ _ _ _ ih =>
    have hok := ih hl hr.2.1
    simp only [draw, mk, Color.of, Tree.append] at hok ⊢
    rw [hok]
    rfl
  | case8 _ _ _ _ _ _ ih =>
    have hok := ih hl.2.2 hr
    simp only [draw, mk, Color.of, Tree.append] at hok ⊢
    rw [hok]
    rfl

theorem size_append (l r : RBNode (K × Option V)) : (l.append r).size = l.size + r.size := by
  fun_induction RBNode.append l r <;> simp_all [size_eq] <;> omega

/-- A black tree is not empty. -/
theorem exists_succ (h : t.Balanced c n) (hblack : t.isBlack = .black) : ∃ m, n = m + 1 := by
  cases h with
  | black => exact ⟨_, rfl⟩
  | _ => cases hblack

/-- The way that a key goes at a node. -/
def turn (cmp : K → Int) (e : K × Option V) : Ordering := compare (cmp e.1) 0

section

variable {cmp : K → Int} (hcmp : t.All fun e => order.compare key e.1 = .ok (cmp e.1))

include hcmp

/-- A key is not there, or it is taken out as the library does it. -/
theorem remove_draw (h : t.Balanced c n) (hv : Valued t) :
    remove order key (draw t) = .ok .absent ∨
      remove order key (draw t) = .ok (.removed (draw (t.del (turn cmp)))) ∧
        (t.del (turn cmp)).size + 1 = t.size := by
  induction t generalizing c n with
  | nil => exact .inl rfl
  | node color l e r ihl ihr =>
    obtain ⟨_, _, m, hl, hr⟩ : ∃ c₁ c₂ m, l.Balanced c₁ m ∧ r.Balanced c₂ m := by
      cases h with
      | red hl hr | black hl hr => exact ⟨_, _, _, hl, hr⟩
    rcases lt_trichotomy (cmp e.1) 0 with hlt | heq | hgt
    · have hturn : turn cmp e = .lt := compare_lt_iff_lt.mpr hlt
      rcases ihl hcmp.2.1 hl hv.2.1 with hok | ⟨hok, hsize⟩
      · exact .inl (by simp [draw, mk, remove, hcmp.1, hlt, hlt.ne, hok])
      · rw [size_eq, size_eq] at hsize
        cases hblack : l.isBlack with
        | red => exact .inr (by simp [draw, mk, remove, hcmp.1, hlt, hlt.ne, hok,
            isBlack_draw, hblack, red, Color.of, RBNode.del, hturn, size_eq]; omega)
        | black =>
          obtain ⟨m, rfl⟩ := exists_succ hl hblack
          exact .inr (by simp [draw, mk, remove, hcmp.1, hlt, hlt.ne, hok, isBlack_draw, hblack,
            balanceLeftDel_draw hr hv.2.2, RBNode.del, hturn, size_eq]; omega)
    · have hturn : turn cmp e = .eq := compare_eq_iff_eq.mpr heq
      refine .inr ⟨?_, by simp [RBNode.del, hturn, size_append]⟩
      simp [draw, mk, remove, hcmp.1, heq, append_draw hv.2.1 hv.2.2, RBNode.del, hturn]
    · have hturn : turn cmp e = .gt := compare_gt_iff_gt.mpr hgt
      rcases ihr hcmp.2.2 hr hv.2.2 with hok | ⟨hok, hsize⟩
      · exact .inl (by simp [draw, mk, remove, hcmp.1, hgt.ne', hgt.not_gt, hok])
      · rw [size_eq, size_eq] at hsize
        cases hblack : r.isBlack with
        | red => exact .inr (by simp [draw, mk, remove, hcmp.1, hgt.ne', hgt.not_gt, hok,
            isBlack_draw, hblack, red, Color.of, RBNode.del, hturn, size_eq]; omega)
        | black =>
          obtain ⟨m, rfl⟩ := exists_succ hr hblack
          exact .inr (by simp [draw, mk, remove, hcmp.1, hgt.ne', hgt.not_gt, hok,
            isBlack_draw, hblack,
            balanceRightDel_draw hl hv.2.1, RBNode.del, hturn, size_eq]; omega)

/-- A key is added as the library does it, or it is there and its value can be replaced. -/
theorem insert?_draw (val : Option V) : (insert? order key val (draw t) =
      .ok (.added (draw (t.ins (fun _ => turn cmp) (key, val)))) ∧
      (t.ins (fun _ => turn cmp) (key, val)).size = t.size + 1) ∨
    ∃ k v u, insert? order key val (draw t) = .ok (.present k v) ∧
      replace order key val (draw t) = .ok (draw u) ∧ u.size = t.size ∧
      (∀ c n, t.Balanced c n → u.Balanced c n) ∧
      ∀ p : K × Option V → Prop, (∀ e, p e → p (e.1, val)) → t.All p → u.All p := by
  induction t with
  | nil => exact .inl ⟨rfl, rfl⟩
  | node color l e r ihl ihr =>
    rcases lt_trichotomy (cmp e.1) 0 with hlt | heq | hgt
    · have hturn : turn cmp e = .lt := compare_lt_iff_lt.mpr hlt
      rcases ihl hcmp.2.1 with ⟨hok, hsize⟩ | ⟨k, v, u, hok, hrep, hsize, hbal, hall⟩
      · rw [size_eq, size_eq] at hsize
        cases color <;> exact .inl (by simp [draw, mk, insert?, hcmp.1, hlt, hlt.ne, hok,
          addLeft, red, Color.of, balanceLeft_draw, RBNode.ins, hturn, size_eq]; omega)
      · refine .inr ⟨k, v, .node color u e r, ?_, ?_, by simp [hsize],
          fun c n h => ?_, fun p hp h =>
          ⟨h.1, hall p hp h.2.1, h.2.2⟩⟩
        · simp [draw, mk, insert?, hcmp.1, hlt, hlt.ne, hok]
        · simp [draw, mk, replace, hcmp.1, hlt, hlt.ne, hlt.not_gt, hrep]
        · cases h with
          | red hl hr => exact .red (hbal _ _ hl) hr
          | black hl hr => exact .black (hbal _ _ hl) hr
    · refine .inr ⟨e.1, e.2, .node color l (e.1, val) r, ?_, ?_, rfl, fun c n h => ?_, fun p hp h =>
        ⟨hp _ h.1, h.2⟩⟩
      · simp [draw, mk, insert?, hcmp.1, heq]
      · simp [draw, mk, replace, hcmp.1, heq]
      · cases h with
        | red hl hr => exact .red hl hr
        | black hl hr => exact .black hl hr
    · have hturn : turn cmp e = .gt := compare_gt_iff_gt.mpr hgt
      rcases ihr hcmp.2.2 with ⟨hok, hsize⟩ | ⟨k, v, u, hok, hrep, hsize, hbal, hall⟩
      · rw [size_eq, size_eq] at hsize
        cases color <;> exact .inl (by simp [draw, mk, insert?, hcmp.1, hgt.ne', hgt.not_gt, hok,
          addRight, red, Color.of, balanceRight_draw, RBNode.ins, hturn, size_eq]; omega)
      · refine .inr ⟨k, v, .node color l e u, ?_, ?_, by simp [hsize],
          fun c n h => ?_, fun p hp h =>
          ⟨h.1, h.2.1, hall p hp h.2.2⟩⟩
        · simp [draw, mk, insert?, hcmp.1, hgt.ne', hgt.not_gt, hok]
        · simp [draw, mk, replace, hcmp.1, hgt, hgt.ne', hgt.not_gt, hrep]
        · cases h with
          | red hl hr => exact .red hl (hbal _ _ hr)
          | black hl hr => exact .black hl (hbal _ _ hr)

end

theorem depth_draw (t : RBNode (K × Option V)) : (draw t).depth = t.depth := by
  induction t with
  | nil => rfl
  | node c l e r ihl ihr =>
    show 1 + Nat.max (draw l).depth (draw r).depth = _
    rw [ihl, ihr, Nat.add_comm]
    rfl

end Tree

end Coll

namespace Value

open Tree

variable {S : Value → Prop} {cmp : Value → Value → Int} {c : Comparator} {n : Nat} {info : Value}
  {t : RBNode (Value × Option Value)}

/-- The map of a balanced tree, with keys of a class and values other than nil. -/
structure InBalance (S : Value → Prop) (c : Comparator) (info m : Value)
    (t : RBNode (Value × Option Value)) : Prop where
  map_eq : m = .treeMap c (draw t) (.int t.size) info
  entries : t.All fun e => S e.1 ∧ e.2 ≠ none
  balanced : ∃ n, t.Balanced .black n

/-- The root is blackened in the end. -/
theorem InBalance.of_redRed {p : Prop} (hred : t.RedRed p n)
    (hall : t.All fun e => S e.1 ∧ e.2 ≠ none) :
    InBalance S c info (.treeMap c (draw t).blacken (.int t.size) info) t.setBlack := by
  refine ⟨?_, ?_, hred.setBlack⟩
  · rw [blacken_draw, size_eq, size_eq, setBlack_toList]
  · cases t <;> exact hall

section

variable [Identity] [Orders]

/-- Bind a key, or remove it where no value is given. -/
def update (m : Value) (x : Value × Option Value) : Except Error Value :=
  x.2.elim (without m x.1) (assoc m x.1)

/-- One operation. -/
theorem InBalance.update {m : Value} (h : InBalance S c info m t) (hord : c.order.PreorderOn S cmp)
    {x : Value × Option Value} (hkey : S x.1) (hval : x.2 ≠ some .nil) :
    ∃ m' t', update m x = .ok m' ∧ InBalance S c info m' t' := by
  obtain ⟨rfl, hall, n, hbal⟩ := h
  obtain ⟨key, val?⟩ := x
  have hcmp : t.All fun e => c.order.compare key e.1 = .ok (cmp key e.1) :=
    hall.imp fun he => hord.compare_eq _ _ hkey he.1
  cases val? with
  | none =>
    show ∃ m' t', treeErase c (draw t) (.int t.size) info key = _ ∧ _
    unfold treeErase
    rcases remove_draw hcmp hbal (hall.imp And.right) with hok | ⟨hok, hsize⟩
    · rw [hok]
      exact ⟨_, t, rfl, rfl, hall, n, hbal⟩
    · obtain ⟨_, hred⟩ : ∃ m, RedRed _ (t.del (turn (cmp key))) m := hbal.del.redred
      have hmap : InBalance S c info _ (t.del (turn (cmp key))).setBlack := .of_redRed hred hall.del
      refine ⟨_, _, ?_, hmap⟩
      rw [hok]
      generalize t.del (turn (cmp key)) = u at hsize
      have hcount : (t.size : Int) + -1 = u.size := by omega
      cases u with
      | nil => rfl
      | node col =>
        rw [← hcount]
        cases col <;> simp only [ok_bind, countPlus, add_int, draw, Color.of] <;> rfl
  | some val =>
    have hslot : ofSlot val = some val :=
      if_neg fun h => hval (congrArg some ((isNil_iff val).mp h))
    show ∃ m' t', treeInsert c (draw t) (.int t.size) info key val = _ ∧ _
    unfold treeInsert
    rw [hslot]
    rcases insert?_draw hcmp (some val) with
      ⟨hok, hsize⟩ | ⟨k, v, u, hok, hrep, hsize, hu, hentries⟩
    · have hred := hbal.ins (fun _ => turn (cmp key)) (key, some val)
      have hmap : InBalance S c info _ _ := .of_redRed hred (hall.ins ⟨hkey, by simp⟩)
      rw [hsize] at hmap
      simp only [hok, ok_bind, countPlus, add_int, pure_eq_ok]
      exact ⟨_, _, rfl, hmap⟩
    · simp only [hok, hrep, ok_bind, pure_eq_ok]
      split
      · exact ⟨_, t, rfl, rfl, hall, n, hbal⟩
      · exact ⟨_, u, rfl, by rw [hsize], hentries _ (fun e h => ⟨h.1, by simp⟩) hall, n,
          hu _ _ hbal⟩

/-- Any number of operations. -/
theorem InBalance.updateAll {m : Value} (h : InBalance S c info m t)
    (hord : c.order.PreorderOn S cmp)
    {calls : List (Value × Option Value)} (hcalls : ∀ x ∈ calls, S x.1 ∧ x.2 ≠ some .nil) :
    ∃ m' t', calls.foldlM Value.update m = .ok m' ∧ InBalance S c info m' t' := by
  induction calls generalizing m t with
  | nil => exact ⟨m, t, rfl, h⟩
  | cons x calls ih =>
    obtain ⟨hx, hcalls⟩ := List.forall_mem_cons.mp hcalls
    obtain ⟨m₁, t₁, hok, h⟩ := h.update hord hx.1 hx.2
    rw [List.foldlM_cons, hok]
    exact ih h hcalls

/-- Under any comparator that is a total preorder on the keys, binding keys to values other than nil
and removing keys never fails. The tree is always a red-black tree with a black root, and so it is
not deep. -/
theorem treeMap_balanced (hord : c.order.PreorderOn S cmp) (info : Value)
    {calls : List (Value × Option Value)} (hcalls : ∀ x ∈ calls, S x.1 ∧ x.2 ≠ some .nil) :
    ∃ (t : RBNode (Value × Option Value)) (n : Nat),
      calls.foldlM update (.treeMap c .empty (.int 0) info) =
        .ok (.treeMap c (draw t) (.int t.size) info) ∧
      t.Balanced .black n ∧ 2 ^ (draw t).depth ≤ (t.size + 1) ^ 2 := by
  have hempty : InBalance S c info (.treeMap c .empty (.int 0) info) .nil := ⟨rfl, trivial, 0, .nil⟩
  obtain ⟨_, t, hok, rfl, -, n, hbal⟩ := hempty.updateAll hord hcalls
  refine ⟨t, n, hok, hbal, ?_⟩
  calc
    2 ^ (draw t).depth ≤ 2 ^ (n * 2) := by
      rw [depth_draw, Nat.mul_comm]
      exact Nat.pow_le_pow_right (by decide) hbal.depth_le
    _ = (2 ^ n) ^ 2 := Nat.pow_mul ..
    _ ≤ (t.size + 1) ^ 2 := Nat.pow_le_pow_left hbal.le_size 2

end

/-- Of two keys that were bound one is removed again. -/
theorem treeMap_balanced_natural : ∃ (t : RBNode (Value × Option Value)) (n : Nat),
    [(Value.int 1, some (.int 5)), (.int 2, some (.int 6)), (.int 1, none)].foldlM update
      (.treeMap .natural .empty (.int 0) .nil) =
        .ok (.treeMap .natural (draw t) (.int t.size) .nil) ∧
      t.Balanced .black n ∧ 2 ^ (draw t).depth ≤ (t.size + 1) ^ 2 :=
  treeMap_balanced natural_preorderOn .nil (by simp)

end Value

end HostedLisp
