import HostedLisp.Collection.Maps
import HostedLisp.Proofs.Coll.HashMapRefines
import HostedLisp.Proofs.Coll.VectorRefines
import Mathlib.Data.Set.BooleanAlgebra
import Mathlib.Order.CompletePartialOrder

/-!
# Sorted maps are finite maps in order

A tree is read as the list of its bindings in order. The way to a key splits that list at the place
of the key, and binding the key works at that place. Keys that compare equal have the same keys
before them, so that proofs deal with a partial order of sets (`lower`).

- `TreeOrder.PreorderOn`: comparing is a total preorder on the keys of a class.
- `Tree.Path`: the way to a key. `Tree.Sound`: trees in order, where every key has its place.
- `Value.Tracks`: the invariant of binding keys, with its step (`Tracks.insert`) and run
  (`Tracks.insertAll`).
- `Value.treeMap_refines_sorted_map`: all answers of a map.
- `Value.treeMap_walks_in_order`: what walking meets from either end and from any key.
-/

namespace HostedLisp

open Coll List

namespace Coll

variable {ε K V : Type} {order : TreeOrder ε K} {S : K → Prop} {cmp : K → K → Int} {key a b : K}

/-- Comparing keys of a class never fails and orders them totally, up to keys that compare equal. -/
structure TreeOrder.PreorderOn (order : TreeOrder ε K) (S : K → Prop) (cmp : K → K → Int) :
    Prop where
  compare_eq : ∀ a b, S a → S b → order.compare a b = .ok (cmp a b)
  swap : ∀ a b, S a → S b → (cmp a b ≤ 0 ↔ 0 ≤ cmp b a)
  trans : ∀ a b c, S a → S b → S c → cmp a b ≤ 0 → cmp b c ≤ 0 → cmp a c ≤ 0

/-- The keys that are not after the given one. -/
def lower (S : K → Prop) (cmp : K → K → Int) (a : K) : Set K := {b | S b ∧ cmp b a ≤ 0}

namespace TreeOrder.PreorderOn

section

variable (h : order.PreorderOn S cmp) (ha : S a) (hb : S b)

include h ha hb

theorem le_iff : lower S cmp a ≤ lower S cmp b ↔ cmp a b ≤ 0 := by
  have hself := h.swap a a ha ha
  constructor
  · intro hle
    exact (hle ⟨ha, by omega⟩ : a ∈ lower S cmp b).2
  · rintro hab x ⟨hx, hxa⟩
    exact ⟨hx, h.trans x a b hx ha hb hxa hab⟩

theorem lt_iff : lower S cmp a < lower S cmp b ↔ cmp a b < 0 := by
  have hba := h.swap b a hb ha
  rw [lt_iff_le_not_ge, h.le_iff ha hb, h.le_iff hb ha]
  omega

theorem eq_iff : lower S cmp a = lower S cmp b ↔ cmp a b = 0 := by
  have hba := h.swap b a hb ha
  rw [le_antisymm_iff, h.le_iff ha hb, h.le_iff hb ha]
  omega

end

end TreeOrder.PreorderOn

namespace Tree

/-! ## The list of a tree -/

@[simp]
theorem toList_mk (color : Color) (k : K) (v : Option V) (l r : Tree K V) :
    (mk color k v l r).toList = l.toList ++ (k, v) :: r.toList := rfl

@[simp]
theorem toList_blacken (t : Tree K V) : t.blacken.toList = t.toList := by
  unfold blacken
  split <;> rfl

/-- Rotations leave the list of a tree alone. -/
@[simp]
theorem toList_addLeft (color : Color) (k : K) (v : Option V) (ins r : Tree K V) :
    (addLeft color k v ins r).toList = ins.toList ++ (k, v) :: r.toList := by
  cases color with
  | red => rfl
  | black =>
    show (balanceLeft ins k v r).toList = _
    unfold balanceLeft
    split <;> simp [red, black, toList]

@[simp]
theorem toList_addRight (color : Color) (k : K) (v : Option V) (l ins : Tree K V) :
    (addRight color k v l ins).toList = l.toList ++ (k, v) :: ins.toList := by
  cases color with
  | red => rfl
  | black =>
    show (balanceRight k v l ins).toList = _
    unfold balanceRight
    split <;> simp [red, black, toList]

/-! ## The way to a key -/

/-- The way to a key: the bindings before its place, the one there, and those after it. -/
inductive Path (order : TreeOrder ε K) (key : K) :
    Tree K V → List (K × Option V) → Option (K × Option V) → List (K × Option V) → Prop where
  | stop : Path order key .empty [] none []
  | here {color : Color} {b : Bool} {k : K} {v : Option V} {l r : Tree K V}
      (h : order.compare key k = .ok 0) :
      Path order key (.node color b k v l r) l.toList (some (k, v)) r.toList
  | left {color : Color} {b : Bool} {k : K} {v : Option V} {l r : Tree K V} {i : Int}
      {A B : List (K × Option V)} {e : Option (K × Option V)} (h : order.compare key k = .ok i)
      (hi : i < 0) (path : Path order key l A e B) :
      Path order key (.node color b k v l r) A e (B ++ (k, v) :: r.toList)
  | right {color : Color} {b : Bool} {k : K} {v : Option V} {l r : Tree K V} {i : Int}
      {A B : List (K × Option V)} {e : Option (K × Option V)} (h : order.compare key k = .ok i)
      (hi : 0 < i) (path : Path order key r A e B) :
      Path order key (.node color b k v l r) (l.toList ++ (k, v) :: A) e B

namespace Path

variable {t : Tree K V} {A B : List (K × Option V)} {e : Option (K × Option V)}

section

variable (path : Path order key t A e B)

include path

theorem toList : t.toList = A ++ (e.toList ++ B) := by
  induction path with
  | stop => rfl
  | here => rfl
  | left _ _ _ ih | right _ _ _ ih => simp [Tree.toList, ih]

theorem find? : ∃ node, t.find? order key = .ok node ∧ node.root? = e := by
  induction path with
  | stop => exact ⟨_, rfl, rfl⟩
  | @here color b k v l r h =>
    exact ⟨.node color b k v l r, by simp [Tree.find?, h], rfl⟩
  | left h hi _ ih => simpa [Tree.find?, h, hi, hi.ne] using ih
  | right h hi _ ih => simpa [Tree.find?, h, hi.not_gt, hi.ne'] using ih

/-- A key that is not there is added at its place. -/
theorem insert? (he : e = none) (val : Option V) :
    ∃ t', t.insert? order key val = .ok (.added t') ∧ t'.toList = A ++ (key, val) :: B := by
  induction path with
  | stop => exact ⟨_, rfl, rfl⟩
  | here => cases he
  | @left color _ k v _ r _ _ _ _ hcmp hi _ ih =>
    obtain ⟨ins, hok, hlist⟩ := ih he
    refine ⟨addLeft color k v ins r, ?_, by simp [hlist]⟩
    simp [Tree.insert?, hcmp, hi, hi.ne, hok]
  | @right color _ k v l _ _ _ _ _ hcmp hi _ ih =>
    obtain ⟨ins, hok, hlist⟩ := ih he
    refine ⟨addRight color k v l ins, ?_, by simp [hlist]⟩
    simp [Tree.insert?, hcmp, hi.le, hi.ne', hok]

/-- A key that is there is reported, and its value is set at its place. -/
theorem replace {k : K} {v : Option V} (he : e = some (k, v))
    (val : Option V) : t.insert? order key val = .ok (.present k v) ∧
      ∃ t', t.replace order key val = .ok t' ∧ t'.toList = A ++ (k, val) :: B := by
  induction path with
  | stop => cases he
  | @here color _ k _ l r hcmp =>
    cases he
    refine ⟨?_, mk color k val l r, ?_, by simp⟩
    · simp [Tree.insert?, hcmp]
    · simp [Tree.replace, hcmp]
  | @left color _ k v _ r _ _ _ _ hcmp hi _ ih =>
    obtain ⟨hins, l', hok, hlist⟩ := ih he
    refine ⟨?_, mk color k v l' r, ?_, by simp [hlist]⟩
    · simp [Tree.insert?, hcmp, hi, hi.ne, hins]
    · simp [Tree.replace, hcmp, hi, hi.ne, hi.le, hok]
  | @right color _ k v l _ _ _ _ _ hcmp hi _ ih =>
    obtain ⟨hins, r', hok, hlist⟩ := ih he
    refine ⟨?_, mk color k v l r', ?_, by simp [hlist]⟩
    · simp [Tree.insert?, hcmp, hi.le, hi.ne', hins]
    · simp [Tree.replace, hcmp, hi, hi.le, hi.ne', hok]

end

end Path

/-! ## Trees in order -/

/-- A tree in order. -/
structure Sound (S : K → Prop) (cmp : K → K → Int) (t : Tree K V) : Prop where
  keys : ∀ e ∈ t.toList, S e.1
  sorted : t.toList.Pairwise fun a b => lower S cmp a.1 < lower S cmp b.1

/-- Where a key belongs: what stands before it, there, and after it. -/
structure Place (order : TreeOrder ε K) (S : K → Prop) (cmp : K → K → Int) (key : K) (t : Tree K V)
    (A : List (K × Option V)) (here : Option (K × Option V)) (B : List (K × Option V)) : Prop where
  path : Path order key t A here B
  before : ∀ e ∈ A, lower S cmp e.1 < lower S cmp key
  after : ∀ e ∈ B, lower S cmp key < lower S cmp e.1
  equal : ∀ e ∈ here, lower S cmp e.1 = lower S cmp key

/-- Every key has its place in a tree in order. -/
theorem Sound.exists_place {t : Tree K V} (h : t.Sound S cmp) (hord : order.PreorderOn S cmp)
    (hkey : S key) : ∃ A here B, Place order S cmp key t A here B := by
  induction t with
  | empty => exact ⟨[], none, [], .stop, by simp, by simp, by simp⟩
  | node color branch k v l r ihl ihr =>
    obtain ⟨hS, hsorted⟩ := h
    simp only [toList, forall_mem_append, forall_mem_cons] at hS
    obtain ⟨hSl, hSk, hSr⟩ := hS
    obtain ⟨hl, hkr, hlk⟩ := pairwise_append.mp hsorted
    obtain ⟨hk, hr⟩ := pairwise_cons.mp hkr
    have hcmp := hord.compare_eq key k hkey hSk
    have hleft (hle : lower S cmp k ≤ lower S cmp key) (e : K × Option V) (he : e ∈ l.toList) :
        lower S cmp e.1 < lower S cmp key := (hlk e he (k, v) mem_cons_self).trans_le hle
    have hright (hle : lower S cmp key ≤ lower S cmp k) (e : K × Option V) (he : e ∈ r.toList) :
        lower S cmp key < lower S cmp e.1 := hle.trans_lt (hk e he)
    rcases lt_trichotomy (cmp key k) 0 with hlt | heq | hgt
    · obtain ⟨A, here, B, path, before, after, equal⟩ := ihl ⟨hSl, hl⟩
      have hlow := (hord.lt_iff hkey hSk).mpr hlt
      exact ⟨_, _, _, .left hcmp hlt path, before, forall_mem_append.mpr
        ⟨after, forall_mem_cons.mpr ⟨hlow, hright hlow.le⟩⟩, equal⟩
    · have hlow := (hord.eq_iff hkey hSk).mpr heq
      exact ⟨_, _, _, .here (heq ▸ hcmp), hleft hlow.ge, hright hlow.le, by simp [hlow]⟩
    · obtain ⟨A, here, B, path, before, after, equal⟩ := ihr ⟨hSr, hr⟩
      have hswap := hord.swap key k hkey hSk
      have hlow := (hord.lt_iff hSk hkey).mpr (by omega)
      exact ⟨_, _, _, .right hcmp hgt path, forall_mem_append.mpr
        ⟨hleft hlow.le, forall_mem_cons.mpr ⟨hlow, before⟩⟩, after, equal⟩

variable {t t' : Tree K V} {A B : List (K × Option V)} {here : Option (K × Option V)} {other : K}

/-- The binding whose key compares equal to the given one. -/
def lookup (cmp : K → K → Int) (key : K) (t : Tree K V) : Option (K × Option V) :=
  t.toList.find? fun e => cmp e.1 key == 0

/-- Of the bindings in order, just the one at the place of a key compares equal to it. -/
theorem find?_between (here : Option (K × Option V)) (hord : order.PreorderOn S cmp)
    (hkeys : ∀ e ∈ A ++ (here.toList ++ B), S e.1)
    (before : ∀ e ∈ A, lower S cmp e.1 < lower S cmp key)
    (after : ∀ e ∈ B, lower S cmp key < lower S cmp e.1)
    (equal : ∀ e ∈ here, lower S cmp e.1 = lower S cmp key) (hkey : S key) (hother : S other) :
    (A ++ (here.toList ++ B)).find? (fun e => cmp e.1 other == 0) =
      if cmp key other = 0 then here else (A ++ B).find? fun e => cmp e.1 other == 0 := by
  obtain ⟨hA, hhere, hB⟩ : (∀ e ∈ A, S e.1) ∧ (∀ e ∈ here.toList, S e.1) ∧ ∀ e ∈ B, S e.1 := by
    simpa only [forall_mem_append] using hkeys
  split
  · next heq =>
    have hlow := (hord.eq_iff hkey hother).mpr heq
    have hnone : A.find? (fun e => cmp e.1 other == 0) = none ∧
        B.find? (fun e => cmp e.1 other == 0) = none := by
      simp only [find?_eq_none, beq_iff_eq]
      exact ⟨fun e he h => (before e he).ne (hlow ▸ (hord.eq_iff (hA e he) hother).mpr h),
        fun e he h => (after e he).ne' (hlow ▸ (hord.eq_iff (hB e he) hother).mpr h)⟩
    cases here with
    | none => simp [find?_append, hnone]
    | some e =>
      have he := (hord.eq_iff (hhere e (by simp)) hother).mp ((equal e rfl).trans hlow)
      simp [find?_append, hnone, he]
  · next hne =>
    cases here with
    | none => rfl
    | some e =>
      have he : cmp e.1 other ≠ 0 := fun h => hne ((hord.eq_iff hkey hother).mp
        ((equal e rfl).symm.trans ((hord.eq_iff (hhere e (by simp)) hother).mpr h)))
      simp [find?_append, he]

section

variable (h : t.Sound S cmp) (place : Place order S cmp key t A here B)
  (hord : order.PreorderOn S cmp) (hkey : S key)

include h place hord hkey

/-- A tree with a new value at the place of a key. A key that stood there is kept. -/
theorem Sound.rebind {w : Option V}
    (hlist : t'.toList = A ++ ((here.map Prod.fst).getD key, w) :: B) :
    t'.Sound S cmp ∧ ∀ other, S other → t'.lookup cmp other =
      if cmp key other = 0 then some (((t.lookup cmp other).map Prod.fst).getD key, w)
      else t.lookup cmp other := by
  have hkeys := place.path.toList ▸ h.keys
  have hsorted := place.path.toList ▸ h.sorted
  obtain ⟨hSA, hShere, hSB⟩ : (∀ e ∈ A, S e.1) ∧ (∀ e ∈ here.toList, S e.1) ∧ ∀ e ∈ B, S e.1 := by
    simpa only [forall_mem_append] using hkeys
  simp only [pairwise_append] at hsorted
  obtain ⟨hA, ⟨-, hB, -⟩, hAB⟩ := hsorted
  obtain ⟨hnew, hlow⟩ : S ((here.map Prod.fst).getD key) ∧
      lower S cmp ((here.map Prod.fst).getD key) = lower S cmp key := by
    cases here with
    | none => exact ⟨hkey, rfl⟩
    | some e => exact ⟨hShere e (by simp), place.equal e rfl⟩
  have hkeys' : ∀ e ∈ A ++ ((here.map Prod.fst).getD key, w) :: B, S e.1 := by
    rw [forall_mem_append, forall_mem_cons]
    exact ⟨hSA, hnew, hSB⟩
  have hsorted' : (A ++ ((here.map Prod.fst).getD key, w) :: B).Pairwise
      fun a b => lower S cmp a.1 < lower S cmp b.1 := by
    refine pairwise_append.mpr ⟨hA, pairwise_cons.mpr ⟨fun b hb => ?_, hB⟩, fun a ha =>
      forall_mem_cons.mpr ⟨?_, fun b hb => hAB a ha b (mem_append_right _ hb)⟩⟩
    · exact hlow ▸ place.after b hb
    · exact hlow ▸ place.before a ha
  refine ⟨⟨hlist ▸ hkeys', hlist ▸ hsorted'⟩, fun other hother => ?_⟩
  have hfind := find?_between here hord hkeys place.before place.after place.equal hkey hother
  have hfind' := find?_between (some _) hord hkeys' place.before place.after
    (by rintro _ ⟨⟩; exact hlow) hkey hother
  rw [lookup, lookup, hlist, place.path.toList, hfind]
  refine hfind'.trans ?_
  split <;> rfl

theorem Sound.lookup_eq : t.lookup cmp key = here := by
  have hkeys := place.path.toList ▸ h.keys
  rw [lookup, place.path.toList, find?_between here hord hkeys place.before place.after
    place.equal hkey hkey, if_pos ((hord.eq_iff hkey hkey).mp rfl)]

end

/-- Looking a key up finds the binding that compares equal to it. -/
theorem Sound.find? (h : t.Sound S cmp) (hord : order.PreorderOn S cmp) (hkey : S key) :
    ∃ node, t.find? order key = .ok node ∧ node.root? = t.lookup cmp key := by
  obtain ⟨A, here, B, place⟩ := h.exists_place hord hkey
  rw [h.lookup_eq place hord hkey]
  exact place.path.find?

theorem Sound.lookup_self (h : t.Sound S cmp) (hord : order.PreorderOn S cmp) {e : K × Option V}
    (he : e ∈ t.toList) : t.lookup cmp e.1 = some e := by
  obtain ⟨L, R, hsplit⟩ := append_of_mem he
  obtain ⟨-, hR, hLR⟩ := pairwise_append.mp (hsplit ▸ h.sorted)
  have hself := h.keys e he
  have hkeys := hsplit ▸ h.keys
  rw [lookup, hsplit]
  exact (find?_between (some e) hord hkeys (fun a ha => hLR a ha e mem_cons_self)
    (pairwise_cons.mp hR).1 (by simp) hself hself).trans (if_pos ((hord.eq_iff hself hself).mp rfl))

/-! ## Walks -/

/-- A walk from a key starts with the binding at its place, if there is one. -/
theorem Path.stackFrom (path : Path order key t A here B) (ascending : Bool)
    (stack : List (Tree K V)) :
    ∃ stack', t.stackFrom order key ascending stack = .ok stack' ∧ pending ascending stack' =
      (here.toList ++ if ascending then B else A.reverse).map some ++ pending ascending stack := by
  induction path generalizing stack with
  | stop => exact ⟨stack, rfl, by simp⟩
  | @here color b k v l r h =>
    refine ⟨.node color b k v l r :: stack, ?_, ?_⟩
    · simp [Tree.stackFrom, h]
    · cases ascending <;> simp [pending, directed]
  | @left color b k v l r i A B here h hi _ ih =>
    cases ascending with
    | true =>
      obtain ⟨stack', hok, hpending⟩ := ih (.node color b k v l r :: stack)
      refine ⟨stack', ?_, by simp [hpending, pending, directed]⟩
      simpa [Tree.stackFrom, h, hi, hi.ne] using hok
    | false =>
      obtain ⟨stack', hok, hpending⟩ := ih stack
      refine ⟨stack', ?_, hpending⟩
      simpa [Tree.stackFrom, h, hi.not_gt, hi.ne] using hok
  | @right color b k v l r i A B here h hi _ ih =>
    cases ascending with
    | true =>
      obtain ⟨stack', hok, hpending⟩ := ih stack
      refine ⟨stack', ?_, hpending⟩
      simpa [Tree.stackFrom, h, hi.not_gt, hi.ne'] using hok
    | false =>
      obtain ⟨stack', hok, hpending⟩ := ih (.node color b k v l r :: stack)
      refine ⟨stack', ?_, by simp [hpending, pending, directed]⟩
      simpa [Tree.stackFrom, h, hi, hi.ne'] using hok

/-- Whether a walk from a key in the given direction meets another key. -/
def meets (cmp : K → K → Int) (ascending : Bool) (key k : K) : Bool :=
  if ascending then cmp k key ≥ 0 else cmp k key ≤ 0

/-- What stands at the place of a key and on one side of it are the bindings that a walk meets. -/
theorem Sound.filter_meets (h : t.Sound S cmp) (place : Place order S cmp key t A here B)
    (hord : order.PreorderOn S cmp) (hkey : S key) (ascending : Bool) :
    directed ascending (t.toList.filter fun e => meets cmp ascending key e.1) =
      here.toList ++ if ascending then B else A.reverse := by
  have hkeys := place.path.toList ▸ h.keys
  simp only [forall_mem_append] at hkeys
  obtain ⟨hSA, hShere, hSB⟩ := hkeys
  have hA : ∀ e ∈ A, meets cmp ascending key e.1 = !ascending := by
    intro e he
    have hlt := (hord.lt_iff (hSA e he) hkey).mp (place.before e he)
    cases ascending <;> simp [meets, hlt, hlt.le]
  have hhere : ∀ e ∈ here.toList, meets cmp ascending key e.1 = true := by
    intro e he
    have heq := (hord.eq_iff (hShere e he) hkey).mp (place.equal e (by simpa using he))
    cases ascending <;> simp [meets, heq]
  have hB : ∀ e ∈ B, meets cmp ascending key e.1 = ascending := by
    intro e he
    have hlt := (hord.lt_iff hkey (hSB e he)).mp (place.after e he)
    have hswap := hord.swap e.1 key (hSB e he) hkey
    cases ascending <;> simp [meets] <;> omega
  rw [place.path.toList, filter_append, filter_append, filter_congr hA,
    filter_congr hhere, filter_congr hB]
  cases ascending <;> cases here <;> simp [directed]

end Tree

end Coll

namespace Value

variable {S : Value → Prop} {cmp : Value → Value → Int} {order : TreeOrder Error Value}
  {c : Comparator} {t t' : Tree Value Value} {key val m : Value} {calls : List (Value × Value)}

/-! ## One operation -/

theorem getD_ofSlot (v : Value) : (ofSlot v).getD .nil = v := by
  unfold ofSlot
  split
  case isTrue h => exact ((isNil_iff v).mp h).symm
  case isFalse => rfl

/-- The map of a tree. -/
def sortedMap (c : Comparator) (t : Tree Value Value) (info : Value) : Value :=
  .treeMap c t (.int t.toList.length) info

section

variable [Identity] [Orders] (hord : c.order.PreorderOn S cmp) (h : t.Sound S cmp) (hkey : S key)
  (info : Value)

include hord h hkey

theorem valAt_sortedMap (default : Value) : valAt (sortedMap c t info) key default =
    .ok ((t.lookup cmp key).elim default (·.2.getD .nil)) := by
  show treeGet c t key default = _
  unfold treeGet
  obtain ⟨node, hfind, hroot⟩ := h.find? hord hkey
  rw [hfind, ← hroot]
  cases node <;> rfl

/-- Binding a key never fails. -/
theorem assoc_sortedMap (val : Value) : ∃ t' w,
    assoc (sortedMap c t info) key val = .ok (sortedMap c t' info) ∧ w.getD .nil = val ∧
    t'.Sound S cmp ∧ ∀ other, S other → t'.lookup cmp other =
      if cmp key other = 0 then some (((t.lookup cmp other).map Prod.fst).getD key, w)
      else t.lookup cmp other := by
  show ∃ t' w, treeInsert c t (.int t.toList.length) info key val = _ ∧ _
  unfold treeInsert
  obtain ⟨A, here, B, place⟩ := h.exists_place hord hkey
  cases here with
  | none =>
    obtain ⟨t', hins, hlist⟩ := place.path.insert? rfl (ofSlot val)
    have hblack := (Tree.toList_blacken t').trans hlist
    refine ⟨t'.blacken, _, ?_, getD_ofSlot val, h.rebind place hord hkey hblack⟩
    have hcount : (t'.blacken.toList.length : Int) = t.toList.length + 1 := by
      simp [hblack, place.path.toList, add_assoc]
    simp only [hins, sortedMap, hcount, ok_bind, countPlus, add_int, pure_eq_ok]
  | some e =>
    obtain ⟨hins, t', hrep, hlist⟩ := place.path.replace rfl (ofSlot val)
    simp only [hins, ok_bind]
    by_cases hsame : sameSlot e.2 (ofSlot val) = true
    · have hv : e.2.getD .nil = val := by
        rw [sameSlot, getD_ofSlot] at hsame
        exact Identity.eq_of_is hsame
      exact ⟨t, _, if_pos hsame, hv, h.rebind place hord hkey place.path.toList⟩
    · refine ⟨t', _, ?_, getD_ofSlot val, h.rebind place hord hkey hlist⟩
      have hcount : t'.toList.length = t.toList.length := by simp [hlist, place.path.toList]
      rw [if_neg hsame, hrep, sortedMap, hcount]
      rfl

end

/-! ## Binding keys -/

/-- The calls whose key compares equal to the given one. -/
def callsOf (cmp : Value → Value → Int) (key : Value) (calls : List (Value × Value)) :
    List (Value × Value) := calls.filter fun x => cmp x.1 key == 0

theorem callsOf_concat (x : Value × Value) : callsOf cmp key (calls ++ [x]) =
    callsOf cmp key calls ++ if cmp x.1 key = 0 then [x] else [] := by
  by_cases hx : cmp x.1 key = 0 <;> simp [callsOf, hx]

/-- The first of the keys that were bound and compare equal to the given one. -/
def firstKey (cmp : Value → Value → Int) (key : Value) (calls : List (Value × Value)) :
    Option Value :=
  (callsOf cmp key calls).head?.map Prod.fst

/-- The keys that were bound, in order, and of those that compare equal just the first. -/
structure Represent (cmp : Value → Value → Int) (keys : List Value) (calls : List (Value × Value)) :
    Prop where
  sorted : keys.Pairwise fun a b => cmp a b < 0
  first : ∀ k ∈ keys, firstKey cmp k calls = some k
  all : ∀ x ∈ calls, ∃ k ∈ keys, cmp k x.1 = 0

/-- A tree in order that has what the given calls have bound: of the calls for a key, the key of the
first and the value of the last. -/
structure Tracks (S : Value → Prop) (cmp : Value → Value → Int) (t : Tree Value Value)
    (calls : List (Value × Value)) : Prop extends t.Sound S cmp where
  first : ∀ key, S key → (t.lookup cmp key).map Prod.fst = firstKey cmp key calls
  last : ∀ key, S key → (t.lookup cmp key).map (·.2.getD .nil) =
    (callsOf cmp key calls).getLast?.map Prod.snd

theorem tracks_empty : Tracks S cmp .empty [] :=
  ⟨⟨by simp [Tree.toList], .nil⟩, fun _ _ => rfl, fun _ _ => rfl⟩

section

variable [Identity] [Orders] (hord : c.order.PreorderOn S cmp) (h : Tracks S cmp t calls)

include hord h

/-- One binding more. -/
theorem Tracks.insert (hkey : S key) (info val : Value) :
    ∃ t', assoc (sortedMap c t info) key val = .ok (sortedMap c t' info) ∧
      Tracks S cmp t' (calls ++ [(key, val)]) := by
  obtain ⟨t', w, hok, hw, ht', hlookup⟩ := assoc_sortedMap hord h.toSound hkey info val
  refine ⟨t', hok, ht', fun other hother => ?_, fun other hother => ?_⟩ <;>
    rw [hlookup other hother] <;> by_cases heq : cmp key other = 0
  · rw [if_pos heq, firstKey, callsOf_concat, if_pos heq, head?_append, Option.map_or, ← firstKey,
      ← h.first other hother]
    cases t.lookup cmp other <;> rfl
  · rw [if_neg heq, firstKey, callsOf_concat, if_neg heq, append_nil]
    exact h.first other hother
  · rw [if_pos heq, callsOf_concat, if_pos heq, getLast?_concat]
    exact congrArg some hw
  · rw [if_neg heq, callsOf_concat, if_neg heq, append_nil]
    exact h.last other hother

/-- Any number of bindings. -/
theorem Tracks.insertAll (info : Value) {more : List (Value × Value)} (hmore : ∀ x ∈ more, S x.1) :
    ∃ t', more.foldlM (fun m x => assoc m x.1 x.2) (sortedMap c t info) =
      .ok (sortedMap c t' info) ∧
      Tracks S cmp t' (calls ++ more) := by
  induction more generalizing t calls with
  | nil => exact ⟨t, rfl, (append_nil calls).symm ▸ h⟩
  | cons x more ih =>
    obtain ⟨hx, hmore⟩ := forall_mem_cons.mp hmore
    obtain ⟨t₁, hins, h⟩ := h.insert hord hx info x.2
    obtain ⟨t', hrun, h⟩ := ih h hmore
    refine ⟨t', ?_, append_cons calls x more ▸ h⟩
    rw [foldlM_cons, hins]
    exact hrun

end

/-- The keys of the tree are those that were bound. -/
theorem Tracks.represent (hord : order.PreorderOn S cmp) (h : Tracks S cmp t calls)
    (hcalls : ∀ x ∈ calls, S x.1) :
    Represent cmp (t.toList.map Prod.fst) calls where
  sorted := by
    refine pairwise_map.mpr (h.sorted.imp_of_mem fun {a b} ha hb hlt => ?_)
    exact (hord.lt_iff (h.keys a ha) (h.keys b hb)).mp hlt
  first := by
    rintro _ hk
    obtain ⟨e, he, rfl⟩ := mem_map.mp hk
    rw [← h.first e.1 (h.keys e he), h.lookup_self hord he]
    rfl
  all := by
    intro x hx
    have hmem : x ∈ callsOf cmp x.1 calls :=
      mem_filter.mpr ⟨hx, beq_iff_eq.mpr ((hord.eq_iff (hcalls x hx) (hcalls x hx)).mp rfl)⟩
    obtain ⟨y, ys, hcalls'⟩ := exists_cons_of_ne_nil (ne_nil_of_mem hmem)
    have hfirst := h.first x.1 (hcalls x hx)
    rw [firstKey, hcalls'] at hfirst
    obtain ⟨e, he, -⟩ := Option.map_eq_some_iff.mp hfirst
    exact ⟨e.1, mem_map_of_mem (mem_of_find?_eq_some he), by simpa using find?_some he⟩

theorem treeKey_min (t : Tree Value Value) :
    treeKey t.min = (t.toList.map Prod.fst).head?.getD .nil := by
  fun_induction Tree.min t with
  | case1 => rfl
  | case2 => rfl
  | case3 _ _ k v l r hl ih =>
    cases l with
    | empty => exact (hl rfl).elim
    | node => simp [ih, Tree.toList]

theorem treeKey_max (t : Tree Value Value) :
    treeKey t.max = (t.toList.map Prod.fst).getLast?.getD .nil := by
  fun_induction Tree.max t with
  | case1 => rfl
  | case2 => simp [treeKey, Tree.toList]
  | case3 _ _ k v l r hr ih =>
    cases r with
    | empty => exact (hr rfl).elim
    | node => simp [ih, Tree.toList, getLast?_append, getLast?_cons]

/-- The ends of a sorted list of keys compare least and greatest. -/
theorem Represent.ends {keys : List Value} (hord : order.PreorderOn S cmp)
    (h : Represent cmp keys calls) (hkeys : ∀ k ∈ keys, S k) (hcalls : ∀ x ∈ calls, S x.1)
    {x : Value × Value} (hx : x ∈ calls) :
    cmp (keys.head?.getD .nil) x.1 ≤ 0 ∧ cmp x.1 (keys.getLast?.getD .nil) ≤ 0 := by
  obtain ⟨k, hk, heq⟩ := h.all x hx
  have hle {a b : Value} (hlt : cmp a b < 0) (ha : a ∈ keys) (hb : b ∈ keys) :=
    ((hord.lt_iff (hkeys a ha) (hkeys b hb)).mpr hlt).le
  have hlow := (hord.eq_iff (hkeys k hk) (hcalls x hx)).mpr heq
  have hne := ne_nil_of_mem hk
  obtain ⟨low, rest, hcons⟩ := exists_cons_of_ne_nil hne
  obtain ⟨init, high, hconcat⟩ := (eq_nil_or_concat' keys).resolve_left hne
  have hmem : low ∈ keys := hcons ▸ mem_cons_self
  have hmem' : high ∈ keys := hconcat ▸ mem_append_right _ mem_cons_self
  have hleast : lower S cmp low ≤ lower S cmp k := by
    rcases mem_cons.mp (hcons ▸ hk) with rfl | hrest
    · exact le_rfl
    · exact hle ((pairwise_cons.mp (hcons ▸ h.sorted)).1 k hrest) hmem hk
  have hgreatest : lower S cmp k ≤ lower S cmp high := by
    rcases mem_append.mp (hconcat ▸ hk) with hinit | hlast
    · have hsorted := (pairwise_append.mp (hconcat ▸ h.sorted)).2.2
      exact hle (hsorted k hinit high mem_cons_self) hk hmem'
    · rw [mem_singleton.mp hlast]
  rw [hconcat, getLast?_concat, ← hconcat, hcons]
  exact ⟨(hord.le_iff (hkeys low hmem) (hcalls x hx)).mp (hlow ▸ hleast),
    (hord.le_iff (hcalls x hx) (hkeys high hmem')).mp (hlow ▸ hgreatest)⟩

/-- A sorted map that was built by binding keys, under any comparator that is a total preorder on
them, is a finite map in order. Binding never fails. The count is that of the keys that compare
different. A key has an entry just when one that compares equal was bound; the entry keeps the first
of these keys, and its value is the one that was bound last. The ends of the map have the least and
the greatest key, each as it was bound first. -/
theorem treeMap_refines_sorted_map [Identity] [Orders] (hord : c.order.PreorderOn S cmp)
    (info : Value) (hcalls : ∀ x ∈ calls, S x.1) :
    ∃ t m keys, m = .treeMap c t (.int keys.length) info ∧ Represent cmp keys calls ∧
      calls.foldlM (fun m x => assoc m x.1 x.2) (.treeMap c .empty (.int 0) info) = .ok m ∧
      (∀ key, S key → ∃ e, entryAt m key .nil = .ok e ∧
        (e ≠ .nil ↔ ∃ x ∈ calls, cmp x.1 key = 0) ∧
        ∀ k, firstKey cmp key calls = some k →
          ∃ w color branch l r, e = .treeNode (.node color branch k w l r)) ∧
      (∀ key default, S key →
        valAt m key default = .ok ((callsOf cmp key calls).getLast?.elim default Prod.snd)) ∧
      treeKey t.min = keys.head?.getD .nil ∧ treeKey t.max = keys.getLast?.getD .nil ∧
      ∀ x ∈ calls, cmp (treeKey t.min) x.1 ≤ 0 ∧ cmp x.1 (treeKey t.max) ≤ 0 := by
  obtain ⟨t, hrun, h⟩ := tracks_empty.insertAll hord info hcalls
  rw [nil_append] at h
  have hkeys := h.represent hord hcalls
  have hbound (key : Value) : firstKey cmp key calls ≠ none ↔ ∃ x ∈ calls, cmp x.1 key = 0 := by
    simp [firstKey, callsOf]
  refine ⟨t, sortedMap c t info, _, by rw [sortedMap, length_map], hkeys, hrun,
    fun key hkey => ?_, fun key default hkey => ?_, treeKey_min t, treeKey_max t, fun x hx => ?_⟩
  · show ∃ e, treeEntry c t key = .ok e ∧ _
    unfold treeEntry
    obtain ⟨node, hfind, hroot⟩ := h.toSound.find? hord hkey
    rw [← hbound, hfind, ← h.first key hkey, ← hroot]
    refine ⟨_, rfl, ?_⟩
    cases node with
    | empty => simp [ofTree, Tree.root?]
    | node color branch k w l r =>
      refine ⟨by simp [ofTree, Tree.root?], fun k' hk => ⟨w, color, branch, l, r, ?_⟩⟩
      cases hk
      rfl
  · have hlast := h.last key hkey
    rw [valAt_sortedMap hord h.toSound hkey info default]
    cases hfound : t.lookup cmp key <;> cases hcall : (callsOf cmp key calls).getLast? <;>
      simp_all
  · rw [treeKey_min, treeKey_max]
    refine hkeys.ends hord (fun k hk => ?_) hcalls hx
    obtain ⟨e, he, rfl⟩ := mem_map.mp hk
    exact h.keys e he

/-- How integers compare. -/
def intOrder (a b : Value) : Int :=
  if rank a = rank b then 0 else if rank a < rank b then -1 else 1

/-- The natural comparator is a total preorder on the integers. -/
theorem natural_preorderOn [Identity] [Orders] :
    Comparator.natural.order.PreorderOn (fun v => ∃ n, v = .int n) intOrder where
  compare_eq := by
    rintro _ _ ⟨m, rfl⟩ ⟨n, rfl⟩
    show compareNatural (.int m) (.int n) = .ok (if m = n then 0 else if m < n then -1 else 1)
    simp only [compareNatural, eq_int, less_int, ok_bind, decide_eq_true_eq]
    split_ifs <;> rfl
  swap := by
    rintro _ _ ⟨m, rfl⟩ ⟨n, rfl⟩
    simp only [intOrder, rank]
    split_ifs <;> omega
  trans := by
    rintro _ _ _ ⟨m, rfl⟩ ⟨n, rfl⟩ ⟨p, rfl⟩
    simp only [intOrder, rank]
    split_ifs <;> omega

theorem reverse_preorderOn : (Comparator.custom "reverse").order.PreorderOn
    (fun v => ∃ n, v = .int n) fun a b => intOrder b a where
  compare_eq a b ha hb := natural_preorderOn.compare_eq b a hb ha
  swap a b ha hb := natural_preorderOn.swap b a hb ha
  trans a b c ha hb hc hab hbc := natural_preorderOn.trans c b a hc hb ha hbc hab

theorem equal_preorderOn :
    (Comparator.custom "equal").order.PreorderOn (fun _ => True) fun _ _ => 0 where
  compare_eq _ _ _ _ := rfl
  swap _ _ _ _ := Iff.rfl
  trans _ _ _ _ _ _ _ h := h

/-- Of three bindings of two keys, the second value of 2 is kept, and 1 is the least key. Where all
keys are alike, there is one entry, of the first key and with the last value. -/
theorem treeMap_refines_sorted_map_three :
    (∃ t m, (∃ n, m = .treeMap .natural t (.int n) .nil) ∧
      [(Value.int 2, Value.nil), (.int 1, .int 5), (.int 2, .int 6)].foldlM
        (fun m x => assoc m x.1 x.2) (.treeMap .natural .empty (.int 0) .nil) = .ok m ∧
      valAt m (.int 2) .nil = .ok (.int 6) ∧ intOrder (treeKey t.min) (.int 1) ≤ 0) ∧
    ∃ m, [(Value.str "a", Value.nil), (.int 1, .int 5), (.int 2, .int 6)].foldlM
        (fun m x => assoc m x.1 x.2) (.treeMap (.custom "equal") .empty (.int 0) .nil) = .ok m ∧
      valAt m .nil .nil = .ok (.int 6) ∧
      ∃ w color branch l r,
        entryAt m .nil .nil = .ok (.treeNode (.node color branch (.str "a") w l r)) := by
  constructor
  · have hcalls : ∀ x ∈ [(Value.int 2, Value.nil), (.int 1, .int 5), (.int 2, .int 6)],
        ∃ n, x.1 = .int n := by simp
    obtain ⟨t, m, keys, hm, -, hrun, -, hval, -, -, hends⟩ :=
      treeMap_refines_sorted_map natural_preorderOn .nil hcalls
    exact ⟨t, m, ⟨_, hm⟩, hrun, hval (.int 2) .nil ⟨2, rfl⟩, (hends (.int 1, .int 5) (by simp)).1⟩
  · have hcalls : ∀ x ∈ [(Value.str "a", Value.nil), (.int 1, .int 5), (.int 2, .int 6)], True := by
      simp
    obtain ⟨t, m, keys, -, -, hrun, hentry, hval, -⟩ :=
      treeMap_refines_sorted_map equal_preorderOn .nil hcalls
    obtain ⟨e, he, -, hfirst⟩ := hentry .nil trivial
    obtain ⟨w, color, branch, l, r, rfl⟩ := hfirst (.str "a") rfl
    exact ⟨m, hrun, hval .nil .nil trivial, w, color, branch, l, r, he⟩

/-! ## Walking a map -/

open Tree

/-- Walking a sequence meets nodes with these bindings, and then nil. -/
def WalksBindings (s : Value) (es : List (Value × Option Value)) : Prop :=
  ∃ ts : List (Tree Value Value), Walks s (ts.map .treeNode) ∧ ts.map root? = es.map some

/-- The sequence of a walk with the given stack, nil when nothing waits there. -/
def ofStack (ascending : Bool) (n : Int) : List (Tree Value Value) → Value
  | [] => .nil
  | stack => .treeSeq stack ascending n .nil

/-- Stepping meets the bindings that wait on the stack. -/
theorem walks_ofStack (ascending : Bool) (n : Int) {stack : List (Tree Value Value)}
    {es : List (Value × Option Value)} (hes : pending ascending stack = es.map some) :
    WalksBindings (ofStack ascending n stack) es := by
  induction es generalizing stack n with
  | nil =>
    cases stack with
    | nil => exact ⟨[], .done, rfl⟩
    | cons t stack => simp [pending_advance] at hes
  | cons e es ih =>
    cases stack with
    | nil => cases hes
    | cons t stack =>
      rw [pending_advance, map_cons] at hes
      obtain ⟨hroot, hrest⟩ := List.cons.inj hes
      obtain ⟨ts, hwalk, hts⟩ := ih (n - 1) hrest
      refine ⟨t :: ts, .step (by simp [ofStack]) rfl ?_ hwalk, by simp [hroot, hts]⟩
      show next (.treeSeq (t :: stack) ascending n .nil) = _
      rw [next]
      cases advance ascending (t :: stack) <;> rfl

/-- A walk from either end meets all bindings. -/
theorem treeSeqOf_walks (t : Tree Value Value) (ascending : Bool) :
    ∃ s, treeSeqOf t ascending (.int t.toList.length) = .ok s ∧
      WalksBindings s (directed ascending t.toList) := by
  have hpending := (pending_pushEdge ascending t []).trans (append_nil _)
  refine ⟨_, ?_, walks_ofStack ascending t.toList.length hpending⟩
  cases t with
  | empty => rfl
  | node color b k v l r =>
    rw [treeSeqOf, if_pos (by simp [toList]; omega)]
    cases hstack : pushEdge ascending [] (.node color b k v l r) with
    | nil =>
      rw [hstack] at hpending
      cases ascending <;> simp [pending, directed, toList] at hpending
    | cons => rfl

/-- A walk from a key meets the bindings that are not before it. -/
theorem treeFrom_walks [Identity] [Orders] (h : t.Sound S cmp) (hord : c.order.PreorderOn S cmp)
    (hkey : S key) (ascending : Bool) :
    ∃ s, treeFrom c t (.int t.toList.length) key ascending = .ok s ∧ WalksBindings s
      (directed ascending (t.toList.filter fun e => meets cmp ascending key e.1)) := by
  obtain ⟨A, here, B, place⟩ := h.exists_place hord hkey
  obtain ⟨stack, hstack, hes⟩ := place.path.stackFrom ascending []
  rw [← h.filter_meets place hord hkey] at hes
  refine ⟨_, ?_, walks_ofStack ascending (-1) (hes.trans (append_nil _))⟩
  rw [treeFrom, less_int]
  cases t with
  | empty =>
    cases hstack
    rfl
  | node color b k v l r =>
    rw [decide_eq_true (by simp [toList]; omega), hstack]
    cases stack <;> rfl

/-- A sorted map that was built by binding keys, under any comparator that is a total preorder on
them, is walked in order. Its bindings are one for each class of keys that compare equal, with the
first of the keys and the value bound last. From its ends a walk meets them all, ascending or
descending, and from any key just those that are not before it in that direction. -/
theorem treeMap_walks_in_order [Identity] [Orders] (hord : c.order.PreorderOn S cmp) (info : Value)
    (hcalls : ∀ x ∈ calls, S x.1) :
    ∃ t count es, calls.foldlM (fun m x => assoc m x.1 x.2) (.treeMap c .empty (.int 0) info) =
        .ok (.treeMap c t count info) ∧
      Represent cmp (es.map Prod.fst) calls ∧
      (∀ e ∈ es, (callsOf cmp e.1 calls).getLast?.map Prod.snd = some (e.2.getD .nil)) ∧
      (∃ s, seqMethod (.treeMap c t count info) = .ok s ∧ WalksBindings s es) ∧
      (∃ s, treeSeqOf t false count = .ok s ∧ WalksBindings s es.reverse) ∧
      ∀ key ascending, S key → ∃ s, treeFrom c t count key ascending = .ok s ∧ WalksBindings s
        (directed ascending (es.filter fun e => meets cmp ascending key e.1)) := by
  obtain ⟨t, hrun, h⟩ := tracks_empty.insertAll hord info hcalls
  rw [nil_append] at h
  refine ⟨t, .int t.toList.length, t.toList, hrun, h.represent hord hcalls, fun e he => ?_,
    treeSeqOf_walks t true, treeSeqOf_walks t false,
    fun key ascending hkey => treeFrom_walks h.toSound hord hkey ascending⟩
  rw [← h.last e.1 (h.keys e he), h.lookup_self hord he]
  rfl

/-- Three keys bound in disorder are met in order; from 2 on, in the order turned round, two of
them. -/
theorem treeMap_walks_in_order_reverse :
    ∃ t count es, [(Value.int 2, Value.nil), (.int 3, .int 5), (.int 1, .int 6)].foldlM
        (fun m x => assoc m x.1 x.2) (.treeMap (.custom "reverse") .empty (.int 0) .nil) =
          .ok (.treeMap (.custom "reverse") t count .nil) ∧
      (∃ s, seqMethod (.treeMap (.custom "reverse") t count .nil) = .ok s ∧ WalksBindings s es) ∧
      ∃ s, treeFrom (.custom "reverse") t count (.int 2) true = .ok s ∧ WalksBindings s
        (es.filter fun e => intOrder (.int 2) e.1 ≥ 0) := by
  have hcalls : ∀ x ∈ [(Value.int 2, Value.nil), (.int 3, .int 5), (.int 1, .int 6)],
      ∃ n, x.1 = .int n := by simp
  obtain ⟨t, count, es, hrun, -, -, hseq, -, hfrom⟩ :=
    treeMap_walks_in_order reverse_preorderOn .nil hcalls
  exact ⟨t, count, es, hrun, hseq, hfrom (.int 2) true ⟨2, rfl⟩⟩

end Value

end HostedLisp
