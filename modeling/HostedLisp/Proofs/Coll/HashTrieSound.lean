import HostedLisp.Proofs.Coll.BitCount
import Mathlib.Data.List.Find
import Mathlib.Order.BooleanAlgebra.Defs

/-!
# Sound hash tries

What a trie that insertions and removals made looks like, and why looking a key up in it finds the
binding.

- `Keying.Lawful`: equality of keys is an equivalence that goes with the hash, and a hash has 64
  bits. `Keying.LawfulOn` says so for the keys of a class.
- `lookup`: the binding of a key in a list of bindings, which is what a node is compared with.
- `TrieNode.Sound`: the invariant. It is indexed by the level, because a path has at most 14 levels.
  It asks for lawful keys only where it says that keys differ or that the levels end.
- `TrieNode.Sound.find?_eq`: looking up in a sound node is `lookup` in its bindings.
- `TrieNode.Sound.distinct`: a sound node binds no key twice.
-/

namespace HostedLisp.Coll

open List

variable {K V : Type} {keying keying' : Keying K V} {S : K → Prop} {key : K}
  {xs ys es : List (K × V)}

/-! ## Keys and bindings -/

/-- What a hash trie relies on: keys that are equal have one hash, and hashes are signed words of 64
bits. -/
structure Keying.Lawful (keying : Keying K V) : Prop where
  eq_refl : ∀ a, keying.eq a a = true
  eq_symm : ∀ a b, keying.eq a b = true → keying.eq b a = true
  eq_trans : ∀ a b c, keying.eq a b = true → keying.eq b c = true → keying.eq a c = true
  hash_eq : ∀ a b, keying.eq a b = true → keying.hash a = keying.hash b
  hash_range : ∀ a, -2 ^ 63 ≤ keying.hash a ∧ keying.hash a < 2 ^ 63

/-- The laws for the keys of a class. -/
structure Keying.LawfulOn (keying : Keying K V) (S : K → Prop) : Prop where
  eq_refl : ∀ a, S a → keying.eq a a = true
  eq_symm : ∀ a b, S a → S b → keying.eq a b = true → keying.eq b a = true
  eq_trans : ∀ a b c, S a → S b → S c → keying.eq a b = true → keying.eq b c = true →
    keying.eq a c = true
  hash_eq : ∀ a b, S a → S b → keying.eq a b = true → keying.hash a = keying.hash b
  hash_range : ∀ a, S a → -2 ^ 63 ≤ keying.hash a ∧ keying.hash a < 2 ^ 63

theorem Keying.Lawful.on (hl : keying.Lawful) : keying.LawfulOn S where
  eq_refl a _ := hl.eq_refl a
  eq_symm a b _ _ := hl.eq_symm a b
  eq_trans a b c _ _ _ := hl.eq_trans a b c
  hash_eq a b _ _ := hl.hash_eq a b
  hash_range a _ := hl.hash_range a

theorem Keying.LawfulOn.lawful (hl : keying.LawfulOn ⊤) : keying.Lawful where
  eq_refl a := hl.eq_refl a trivial
  eq_symm a b := hl.eq_symm a b trivial trivial
  eq_trans a b c := hl.eq_trans a b c trivial trivial trivial
  hash_eq a b := hl.hash_eq a b trivial trivial
  hash_range a := hl.hash_range a trivial

section

variable {a b c : K} (hl : keying.LawfulOn S) (ha : S a) (hb : S b)

include hl ha hb

theorem Keying.LawfulOn.eq_comm : keying.eq a b = keying.eq b a :=
  Bool.eq_iff_iff.mpr ⟨hl.eq_symm a b ha hb, hl.eq_symm b a hb ha⟩

/-- Equal keys are equal to the same keys. -/
theorem Keying.LawfulOn.eq_congr (hc : S c) (h : keying.eq a b = true) :
    keying.eq a c = keying.eq b c :=
  Bool.eq_iff_iff.mpr
    ⟨hl.eq_trans b a c hb ha hc (hl.eq_symm a b ha hb h), hl.eq_trans a b c ha hb hc h⟩

end

/-- Two keyings that treat the keys of a class alike. -/
structure Keying.AgreesOn (keying keying' : Keying K V) (S : K → Prop) : Prop where
  isNil : keying.isNil = keying'.isNil
  hash : ∀ a, S a → keying.hash a = keying'.hash a
  eq : ∀ a b, S a → S b → keying.eq a b = keying'.eq a b

theorem Keying.Lawful.eq_comm (hl : keying.Lawful) (a b : K) : keying.eq a b = keying.eq b a :=
  (hl.on (S := ⊤)).eq_comm trivial trivial

theorem Keying.Lawful.eq_congr (hl : keying.Lawful) {a b : K} (h : keying.eq a b = true) (c : K) :
    keying.eq a c = keying.eq b c := (hl.on (S := ⊤)).eq_congr trivial trivial trivial h

variable (keying)

/-- The slot of a key at a level. -/
abbrev Keying.slot (level : Nat) (key : K) : Nat := hashSlot (keying.hash key) (5 * level)

section

variable (key : K) (es : List (K × V))

/-- The value that a list of bindings has for a key. -/
def lookup : Option V := (es.find? fun e => keying.eq key e.1).map Prod.snd

/-- A key that a list of bindings does not have. -/
def Fresh : Prop := ∀ e ∈ es, keying.eq key e.1 = false

/-- A hash that no key of a list of bindings has. -/
def Apart : Prop := ∀ e ∈ es, keying.hash e.1 ≠ keying.hash key

end

/-- Bindings of different keys. -/
def Distinct (es : List (K × V)) : Prop := es.Pairwise fun a b => keying.eq a.1 b.1 = false

variable {keying}

theorem fresh_append : Fresh keying key (xs ++ ys) ↔ Fresh keying key xs ∧ Fresh keying key ys := by
  unfold Fresh
  simp only [mem_append, or_imp, forall_and]

theorem apart_append : Apart keying key (xs ++ ys) ↔ Apart keying key xs ∧ Apart keying key ys := by
  unfold Apart
  simp only [mem_append, or_imp, forall_and]

theorem Apart.fresh (h : Apart keying key es) (hl : keying.LawfulOn S) (hkey : S key)
    (hes : ∀ e ∈ es, S e.1) : Fresh keying key es := fun e he =>
  Bool.eq_false_iff.mpr fun heq => h e he (hl.hash_eq key e.1 hkey (hes e he) heq).symm

theorem Fresh.find? (h : Fresh keying key es) : es.find? (fun e => keying.eq key e.1) = none :=
  find?_eq_none.mpr fun e he => by simp [h e he]

theorem lookup_of_fresh (h : Fresh keying key es) : lookup keying key es = none := by
  unfold lookup
  rw [h.find?]
  rfl

/-- A key is looked up in the part of a list of bindings where it can be. -/
theorem lookup_middle {xs ys zs : List (K × V)} (hx : Fresh keying key xs)
    (hz : Fresh keying key zs) : lookup keying key (xs ++ (ys ++ zs)) = lookup keying key ys := by
  unfold lookup
  rw [find?_append, find?_append, hx.find?, hz.find?, Option.none_or, Option.or_none]

theorem lookup_cons (k : K) (v : V) (es : List (K × V)) :
    lookup keying key ((k, v) :: es) =
      if keying.eq key k then some v else lookup keying key es := by
  unfold lookup
  rw [find?_cons]
  cases keying.eq key k <;> rfl

theorem lookup_eq_some_iff (hl : keying.LawfulOn S) (hkey : S key) (hes : ∀ e ∈ es, S e.1)
    (hd : Distinct keying es) {v : V} :
    lookup keying key es = some v ↔ ∃ e ∈ es, e.2 = v ∧ keying.eq key e.1 = true := by
  induction es with
  | nil => simp [lookup]
  | cons e rest ih =>
    obtain ⟨hhead, htail⟩ := pairwise_cons.mp hd
    obtain ⟨hself, hrest⟩ := forall_mem_cons.mp hes
    rw [lookup_cons e.1 e.2 rest]
    simp only [mem_cons, exists_eq_or_imp, ← ih hrest htail]
    cases he : keying.eq key e.1 with
    | true =>
      have hfresh : Fresh keying key rest := fun d hd' => by
        rw [hl.eq_congr hkey hself (hrest d hd') he]
        exact hhead d hd'
      simp [lookup_of_fresh hfresh]
    | false => simp

/-! ## The bindings of nodes -/

/-- The bindings in or below a slot. -/
def TrieSlot.bindings : TrieSlot K V → List (K × V)
  | .vacant => []
  | .entry k v => [(k, v)]
  | .child n => n.entries

namespace TrieNode

theorem slotEntries_eq (slots : List (TrieSlot K V)) :
    slotEntries slots = slots.flatMap TrieSlot.bindings := by
  induction slots with
  | nil => simp [slotEntries]
  | cons s rest ih => cases s <;> simp [slotEntries, TrieSlot.bindings, ih]

/-- The bindings below an optional child. -/
def childBindings (c : Option (TrieNode K V)) : List (K × V) := c.elim [] entries

theorem childEntries_eq (children : List (Option (TrieNode K V))) :
    childEntries children = children.flatMap childBindings := by
  induction children with
  | nil => simp [childEntries]
  | cons c rest ih => cases c <;> simp [childEntries, childBindings, ih]

/-- The slots of a sparse node, given with the bits that they stand for; vacant ones follow. -/
def slotsOf (table : List (Nat × TrieSlot K V)) (pad : Nat) : List (TrieSlot K V) :=
  table.map Prod.snd ++ List.replicate pad .vacant

/-- The bindings of a sparse node. -/
def tableEntries (table : List (Nat × TrieSlot K V)) : List (K × V) :=
  table.flatMap fun c => c.2.bindings

@[simp] theorem tableEntries_append (xs ys : List (Nat × TrieSlot K V)) :
    tableEntries (xs ++ ys) = tableEntries xs ++ tableEntries ys := flatMap_append

@[simp] theorem tableEntries_cons (c : Nat × TrieSlot K V) (xs : List (Nat × TrieSlot K V)) :
    tableEntries (c :: xs) = c.2.bindings ++ tableEntries xs := flatMap_cons

@[simp] theorem tableEntries_nil : tableEntries ([] : List (Nat × TrieSlot K V)) = [] := rfl

theorem entries_sparse (bits : Nat) (table : List (Nat × TrieSlot K V)) (pad : Nat) :
    (TrieNode.bitmap bits (slotsOf table pad)).entries = tableEntries table := by
  have hpad : (List.replicate pad (TrieSlot.vacant (K := K) (V := V))).flatMap TrieSlot.bindings
      = [] := by
    rw [flatMap_eq_nil_iff]
    intro s hs
    rw [eq_of_mem_replicate hs]
    rfl
  rw [entries, slotEntries_eq, slotsOf, flatMap_append, hpad, append_nil,
    flatMap_map]
  rfl

theorem entries_dense (count : Int) (children : List (Option (TrieNode K V))) :
    (TrieNode.array count children).entries = children.flatMap childBindings := by
  rw [entries, childEntries_eq]

/-- The collision node that has the given bindings. -/
abbrev bucket (own : Int) (pairs : List (K × V)) : TrieNode K V :=
  .collision own pairs.length (pairs.map fun e => .entry e.1 e.2)

theorem entries_collision (own : Int) (pairs : List (K × V)) :
    (bucket own pairs).entries = pairs := by
  rw [entries, slotEntries_eq, flatMap_map]
  simp [TrieSlot.bindings]

/-! ## The invariant -/

/-- The last level that a node can have. -/
def lastLevel : Nat := 13

/-- A node as insertions and removals leave it. The slots of a sparse node stand where the bit count
finds them (`narrow`, `bits_eq`), every binding stands below the slot of its hash (`route`), and a
collision node holds at least two keys. A node may have lost all of its bindings, but a dense one
still has the nodes that they were in. -/
inductive Sound (keying : Keying K V) (S : K → Prop) : Nat → TrieNode K V → Prop where
  | sparse {level bits pad : Nat} {table : List (Nat × TrieSlot K V)}
      (level_le : keying.LawfulOn S → level ≤ lastLevel) (narrow : Narrow bits)
      (bits_eq : table.map Prod.fst = ones bits) (full : ∀ c ∈ table, c.2 ≠ .vacant)
      (route : ∀ c ∈ table, ∀ e ∈ c.2.bindings, hashSlot (keying.hash e.1) (5 * level) = c.1)
      (below : ∀ j n, (j, .child n) ∈ table → Sound keying S (level + 1) n) :
      Sound keying S level (.bitmap bits (slotsOf table pad))
  | dense {level : Nat} {count : Int} {children : List (Option (TrieNode K V))}
      (level_le : keying.LawfulOn S → level ≤ lastLevel) (width : children.length = 32)
      (occupied : ∃ n, some n ∈ children)
      (route : ∀ j c, children[j]? = some c →
        ∀ e ∈ childBindings c, hashSlot (keying.hash e.1) (5 * level) = j)
      (below : ∀ n, some n ∈ children → Sound keying S (level + 1) n) :
      Sound keying S level (.array count children)
  | collision {level : Nat} {own : Int} {pairs : List (K × V)}
      (level_le : keying.LawfulOn S → level ≤ lastLevel) (two_le : 2 ≤ pairs.length)
      (hash_own : ∀ e ∈ pairs, keying.hash e.1 = own)
      (distinct : keying.LawfulOn S → Distinct keying pairs) :
      Sound keying S level (.collision own pairs.length (pairs.map fun e => .entry e.1 e.2))

/-- The table of a sound sparse node. -/
structure SparseSound (keying : Keying K V) (S : K → Prop) (level bits : Nat)
    (table : List (Nat × TrieSlot K V)) : Prop where
  level_le : keying.LawfulOn S → level ≤ lastLevel
  narrow : Narrow bits
  bits_eq : table.map Prod.fst = ones bits
  full : ∀ c ∈ table, c.2 ≠ .vacant
  route : ∀ c ∈ table, ∀ e ∈ c.2.bindings, keying.slot level e.1 = c.1
  below : ∀ j n, (j, .child n) ∈ table → Sound keying S (level + 1) n

/-- The children of a sound dense node. -/
structure DenseSound (keying : Keying K V) (S : K → Prop) (level : Nat)
    (children : List (Option (TrieNode K V))) : Prop where
  level_le : keying.LawfulOn S → level ≤ lastLevel
  width : children.length = 32
  route : ∀ j c, children[j]? = some c → ∀ e ∈ childBindings c, keying.slot level e.1 = j
  below : ∀ n, some n ∈ children → Sound keying S (level + 1) n

variable {level j pad : Nat} {node : TrieNode K V} {pre post table : List (Nat × TrieSlot K V)}
  {s : TrieSlot K V} {children : List (Option (TrieNode K V))} {c : Option (TrieNode K V)}
  {pairs : List (K × V)}

theorem Sound.level_le (h : Sound keying S level node) : keying.LawfulOn S → level ≤ lastLevel := by
  cases h <;> assumption

/-! ## Finding slots -/

/-- The set bits below the slot at which a table is cut. -/
theorem filter_lt_split {xs ys : List Nat} {j : Nat} (hx : ∀ i ∈ xs, i < j) (hy : ∀ i ∈ ys, j ≤ i) :
    (xs ++ ys).filter (· < j) = xs := by
  rw [filter_append, filter_eq_self.mpr fun i hi => by simpa using hx i hi,
    filter_eq_nil_iff.mpr fun i hi => by simpa using hy i hi, append_nil]

/-- The slot of a set bit, with the slots on both sides of it. -/
theorem exists_slot {σ : Type} {bits j : Nat} {table : List (Nat × σ)} (hnarrow : Narrow bits)
    (hbits : table.map Prod.fst = ones bits) (hj : j ∈ ones bits) :
    ∃ pre s post, (j, s) ∈ table ∧ table = pre ++ (j, s) :: post ∧
      pre.length = slotIndex bits (2 ^ j) ∧ (∀ c ∈ pre, c.1 ≠ j) ∧ ∀ c ∈ post, c.1 ≠ j := by
  obtain ⟨⟨i, s⟩, hmem, hi⟩ := mem_map.mp (hbits ▸ hj)
  obtain rfl : i = j := hi
  obtain ⟨pre, post, rfl⟩ := append_of_mem hmem
  have hsorted := ones_sorted bits
  rw [← hbits, map_append, map_cons, pairwise_append, pairwise_cons] at hsorted
  obtain ⟨-, ⟨hpost, -⟩, hpre⟩ := hsorted
  have hlt : ∀ k ∈ pre.map Prod.fst, k < i := fun k hk => hpre k hk i mem_cons_self
  refine ⟨pre, s, post, hmem, rfl, ?_, fun c hc => ?_, fun c hc => ?_⟩
  · rw [slotIndex_eq (hnarrow.mod_lt hj), ← hbits, map_append, map_cons,
      filter_lt_split hlt, length_map]
    intro k hk
    rcases mem_cons.mp hk with rfl | hk
    · exact Nat.le_refl _
    · exact Nat.le_of_lt (hpost k hk)
  · exact Nat.ne_of_lt (hlt c.1 (mem_map_of_mem hc))
  · exact Nat.ne_of_gt (hpost c.1 (mem_map_of_mem hc))

/-- The place for the slot of a bit that is not set. -/
theorem exists_gap {σ : Type} {bits j : Nat} {table : List (Nat × σ)} (hlt : bits < 256)
    (hj : j < 32) (hbits : table.map Prod.fst = ones bits) (hnew : bits.testBit j = false) :
    ∃ pre post, table = pre ++ post ∧ pre.length = slotIndex bits (2 ^ j) ∧
      pre.map Prod.fst ++ j :: post.map Prod.fst = ones (bits ||| 2 ^ j) := by
  have hmod : bits % 2 ^ j < 256 := Nat.lt_of_le_of_lt (Nat.mod_le ..) hlt
  have hins := ones_insert hj hnew
  have hsplit : ones bits = (ones bits).filter (· < j) ++ (ones bits).filter (j < ·) := by
    refine ones_eq ?_ fun i => ?_
    · have := ones_sorted (bits ||| 2 ^ j)
      rw [hins] at this
      exact this.sublist ((sublist_cons_self ..).append_left _)
    · simp only [mem_append, mem_filter, decide_eq_true_eq, ← and_or_left]
      refine ⟨fun hi => ⟨hi, ?_⟩, fun hi => hi.1⟩
      have hne : i ≠ j := by
        rintro rfl
        have := (mem_ones.mp hi).2
        rw [hnew] at this
        cases this
      omega
  have hmap := hbits.trans hsplit
  obtain ⟨pre, post, rfl, hpre, hpost⟩ := map_eq_append_iff.mp hmap
  refine ⟨pre, post, rfl, ?_, ?_⟩
  · rw [slotIndex_eq hmod, ← hpre, length_map]
  · rw [hins, hpre, hpost]

theorem slotsOf_getElem? : (slotsOf (pre ++ (j, s) :: post) pad)[pre.length]? = some s := by
  simp [slotsOf]

theorem slotsOf_set {s s' : TrieSlot K V} :
    (slotsOf (pre ++ (j, s) :: post) pad).set pre.length s' =
      slotsOf (pre ++ (j, s') :: post) pad := by
  simp [slotsOf]

theorem slotsOf_insert :
    (slotsOf (pre ++ post) pad).take pre.length ++ [s] ++
      (slotsOf (pre ++ post) pad).drop pre.length = slotsOf (pre ++ (j, s) :: post) pad := by
  simp [slotsOf]

/-- A hash is not below the slot of another one. -/
theorem apart_of_route {es : List (K × V)} {j : Nat} (hroute : ∀ e ∈ es, keying.slot level e.1 = j)
    (hj : keying.slot level key ≠ j) : Apart keying key es := by
  intro e he hhash
  rw [Keying.slot, ← hhash] at hj
  exact hj (hroute e he)

theorem apart_tableEntries
    (hroute : ∀ c ∈ table, ∀ e ∈ c.2.bindings, keying.slot level e.1 = c.1)
    (hj : ∀ c ∈ table, c.1 ≠ keying.slot level key) : Apart keying key (tableEntries table) := by
  intro e he
  obtain ⟨c, hc, he⟩ := mem_flatMap.mp he
  exact apart_of_route (hroute c hc) (hj c hc).symm e he

/-- The slots beside that of a hash do not have it. -/
theorem apart_beside
    (route : ∀ c ∈ pre ++ (keying.slot level key, s) :: post,
      ∀ e ∈ c.2.bindings, keying.slot level e.1 = c.1)
    (hpre : ∀ c ∈ pre, c.1 ≠ keying.slot level key)
    (hpost : ∀ c ∈ post, c.1 ≠ keying.slot level key) :
    Apart keying key (tableEntries pre) ∧ Apart keying key (tableEntries post) :=
  ⟨apart_tableEntries (fun c hc => route c (mem_append_left _ hc)) hpre,
    apart_tableEntries
      (fun c hc => route c (mem_append_right _ (mem_cons_of_mem _ hc))) hpost⟩

/-- The child at a place of a dense node, with the children on both sides of it. -/
theorem exists_child {j : Nat} (h : children[j]? = some c) :
    ∃ pre post, children = pre ++ c :: post ∧ pre.length = j := by
  obtain ⟨hj, hc⟩ := List.getElem?_eq_some_iff.mp h
  refine ⟨children.take j, children.drop (j + 1), ?_, List.length_take_of_le (Nat.le_of_lt hj)⟩
  rw [← hc, List.getElem_cons_drop, List.take_append_drop]

/-- The children beside the slot of a hash do not have it. -/
theorem apart_children {pre post : List (Option (TrieNode K V))}
    (hroute : ∀ j d, (pre ++ c :: post)[j]? = some d →
      ∀ e ∈ childBindings d, keying.slot level e.1 = j) (hj : pre.length = keying.slot level key) :
    Apart keying key (pre.flatMap childBindings) ∧
      Apart keying key (post.flatMap childBindings) := by
  constructor
  · intro e he
    obtain ⟨d, hd, he⟩ := mem_flatMap.mp he
    obtain ⟨i, hi, rfl⟩ := mem_iff_getElem.mp hd
    refine apart_of_route (hroute i _ ?_) (by omega) e he
    rw [getElem?_append_left hi, getElem?_eq_getElem hi]
  · intro e he
    obtain ⟨d, hd, he⟩ := mem_flatMap.mp he
    obtain ⟨i, hi, rfl⟩ := mem_iff_getElem.mp hd
    refine apart_of_route (hroute (pre.length + (i + 1)) _ ?_) (by omega) e he
    rw [getElem?_append_right (by omega), Nat.add_sub_cancel_left, getElem?_cons_succ,
      getElem?_eq_getElem hi]

/-! ## No key is bound twice -/

section

variable (hl : keying.LawfulOn S)

include hl

theorem not_eq_of_hashSlot_ne {a b : K} (ha : S a) (hb : S b) (shift : Nat)
    (h : hashSlot (keying.hash a) shift ≠ hashSlot (keying.hash b) shift) : keying.eq a b = false :=
  Bool.eq_false_iff.mpr fun heq => h (by rw [hl.hash_eq a b ha hb heq])

theorem Sound.distinct (h : Sound keying S level node) (hes : ∀ e ∈ node.entries, S e.1) :
    Distinct keying node.entries := by
  induction h with
  | @sparse level bits pad table _ _ bits_eq _ route _ ih =>
    rw [entries_sparse] at hes ⊢
    have hes {c} (hc : c ∈ table) {e} (he : e ∈ c.2.bindings) := hes e (mem_flatMap.mpr ⟨c, hc, he⟩)
    refine pairwise_flatMap.mpr ⟨fun c hc => ?_, ?_⟩
    · obtain ⟨j, s⟩ := c
      cases s with
      | vacant => exact List.Pairwise.nil
      | entry k v => exact pairwise_singleton ..
      | child n => exact ih j n hc fun e => hes hc
    · -- bindings of different slots differ in the slot of their hash
      have hne : table.Pairwise fun c d => c.1 ≠ d.1 :=
        pairwise_map.mp (bits_eq ▸ (ones_sorted bits).imp Nat.ne_of_lt)
      refine hne.imp_of_mem fun hc hd hcd x hx y hy =>
        not_eq_of_hashSlot_ne hl (hes hc hx) (hes hd hy) (5 * level) ?_
      rw [route _ hc x hx, route _ hd y hy]
      exact hcd
  | @dense level count children _ _ _ route _ ih =>
    rw [entries_dense] at hes ⊢
    have hes {c} (hc : c ∈ children) {e} (he : e ∈ childBindings c) :=
      hes e (mem_flatMap.mpr ⟨c, hc, he⟩)
    refine pairwise_flatMap.mpr ⟨fun c hc => ?_, ?_⟩
    · cases c with
      | none => exact List.Pairwise.nil
      | some n => exact ih n hc fun e => hes hc
    · refine pairwise_iff_getElem.mpr fun i j hi hj hij x hx y hy =>
        not_eq_of_hashSlot_ne hl (hes (getElem_mem hi) hx) (hes (getElem_mem hj) hy) (5 * level) ?_
      rw [route i _ (getElem?_eq_getElem hi) x hx,
        route j _ (getElem?_eq_getElem hj) y hy]
      exact Nat.ne_of_lt hij
  | @collision level own pairs _ _ _ distinct =>
    rw [entries_collision]
    exact distinct hl

/-! ## Looking up -/

omit hl in
theorem collisionIndex_eq (key : K) (pairs : List (K × V)) (i : Nat) :
    collisionIndex keying key pairs.length (pairs.map fun e => .entry e.1 e.2) i =
      .ok ((pairs.findIdx? fun e => keying.eq e.1 key).map (i + ·)) := by
  induction pairs generalizing i with
  | nil => rfl
  | cons e rest ih =>
    show (if keying.eq e.1 key then pure (some i) else collisionIndex keying key rest.length
      (rest.map fun e => .entry e.1 e.2) (i + 1)) = _
    rw [findIdx?_cons]
    cases keying.eq e.1 key with
    | true => rfl
    | false =>
      rw [if_neg Bool.false_ne_true, ih (i + 1)]
      simp [Option.map_map, Function.comp_def, Nat.add_comm, Nat.add_left_comm]

omit hl in
/-- The slots of a collision node are its bindings. -/
theorem getElem?_collision {i : Nat} (hi : i < pairs.length) :
    (pairs.map fun e => (TrieSlot.entry e.1 e.2 : TrieSlot K V))[0 + i]? =
      some (.entry pairs[i].1 pairs[i].2) := by
  rw [Nat.zero_add, getElem?_map, getElem?_eq_getElem hi]
  rfl

variable {bits fuel : Nat} (hkey : S key)

omit hl in
/-- No key has a free slot. -/
theorem SparseSound.slot_ne (sound : SparseSound keying S level bits table)
    (hfree : bits.testBit (keying.slot level key) = false) :
    ∀ e ∈ tableEntries table, keying.slot level e.1 ≠ keying.slot level key := by
  intro e he heq
  obtain ⟨c, hc, he⟩ := mem_flatMap.mp he
  have hmem : c.1 ∈ ones bits := sound.bits_eq ▸ mem_map_of_mem hc
  rw [← sound.route c hc e he, heq, mem_ones, hfree] at hmem
  exact Bool.false_ne_true hmem.2

include hkey

theorem SparseSound.fresh (sound : SparseSound keying S level bits table)
    (hes : ∀ e ∈ tableEntries table, S e.1) (hfree : bits.testBit (keying.slot level key) = false) :
    Fresh keying key (tableEntries table) :=
  fun e he => not_eq_of_hashSlot_ne hl hkey (hes e he) (5 * level) (sound.slot_ne hfree e he).symm

variable (hagree : keying'.AgreesOn keying S)

include hagree

/-- Looking a key up in a sparse node, given how it goes in the nodes below. -/
theorem find?_sparse (pad : Nat) (sound : SparseSound keying S level bits table)
    (hes : ∀ e ∈ tableEntries table, S e.1)
    (ih : ∀ j n, (j, .child n) ∈ table →
      find? keying' (keying.hash key) key fuel (5 * level + 5) n =
        .ok (lookup keying key n.entries)) :
    find? keying' (keying.hash key) key (fuel + 1) (5 * level) (.bitmap bits (slotsOf table pad)) =
      .ok (lookup keying key (tableEntries table)) := by
  rw [find?]
  by_cases hbit : bits.testBit (keying.slot level key) = false
  · rw [if_pos (and_hashBit_eq_zero.mpr hbit), lookup_of_fresh]
    · rfl
    · exact sound.fresh hl hkey hes hbit
  · rw [if_neg (fun h0 => hbit (and_hashBit_eq_zero.mp h0)), hashBit_eq]
    have hmem : keying.slot level key ∈ ones bits :=
      mem_ones.mpr ⟨hashSlot_lt .., by simpa using hbit⟩
    obtain ⟨pre, s, post, hself, rfl, hlen, hpre, hpost⟩ :=
      exists_slot sound.narrow sound.bits_eq hmem
    -- the other slots do not have the key
    obtain ⟨hpre', hpost'⟩ := apart_beside sound.route hpre hpost
    rw [tableEntries_append, tableEntries_cons, forall_mem_append, forall_mem_append] at hes
    rw [← hlen, slotsOf_getElem?, tableEntries_append, tableEntries_cons,
      lookup_middle (hpre'.fresh hl hkey hes.1) (hpost'.fresh hl hkey hes.2.2)]
    cases s with
    | vacant => exact absurd rfl (sound.full _ hself)
    | entry k v =>
      dsimp only
      rw [hagree.eq key k hkey (hes.2.1 _ mem_cons_self)]
      cases hk : keying.eq key k <;> simp [TrieSlot.bindings, lookup, hk] <;> rfl
    | child n => exact ih _ n hself

omit hagree in
/-- Looking a key up in a dense node. -/
theorem find?_dense (count : Int) (sound : DenseSound keying S level children)
    (hes : ∀ e ∈ children.flatMap childBindings, S e.1)
    (ih : ∀ n, some n ∈ children → find? keying' (keying.hash key) key fuel (5 * level + 5) n =
        .ok (lookup keying key n.entries)) :
    find? keying' (keying.hash key) key (fuel + 1) (5 * level) (.array count children) =
      .ok (lookup keying key (children.flatMap childBindings)) := by
  rw [find?]
  have hj : hashSlot (keying.hash key) (5 * level) < children.length := sound.width ▸ hashSlot_lt ..
  obtain ⟨pre, post, hsplit, hlen⟩ := exists_child (getElem?_eq_getElem hj)
  generalize children[hashSlot (keying.hash key) (5 * level)] = c at hsplit
  subst hsplit
  obtain ⟨hpre, hpost⟩ := apart_children sound.route hlen
  have hget : (pre ++ c :: post)[pre.length]? = some c := by simp
  rw [flatMap_append, flatMap_cons, forall_mem_append, forall_mem_append] at hes
  rw [← hlen, hget, flatMap_append, flatMap_cons,
    lookup_middle (hpre.fresh hl hkey hes.1) (hpost.fresh hl hkey hes.2.2)]
  cases c with
  | none => rfl
  | some n => exact ih n mem_append_cons_self

/-- Looking a key up in a collision node. -/
theorem find?_collision {fuel shift : Nat} (hash own : Int) (hes : ∀ e ∈ pairs, S e.1) :
    find? keying' hash key (fuel + 1) shift (bucket own pairs) = .ok (lookup keying key pairs) := by
  have hcomm (e : K × V) (he : e ∈ pairs) : keying.eq key e.1 = keying'.eq e.1 key := by
    rw [hagree.eq _ _ (hes e he) hkey, hl.eq_comm hkey (hes e he)]
  rw [find?, collisionIndex_eq, lookup, List.find?_congr hcomm]
  cases hidx : pairs.findIdx? fun e => keying'.eq e.1 key with
  | none =>
    rw [find?_eq_none.mpr fun e he => by simp [findIdx?_eq_none_iff.mp hidx e he]]
    rfl
  | some i =>
    obtain ⟨hi, heq, hbefore⟩ := findIdx?_eq_some_iff_getElem.mp hidx
    have hfind : pairs.find? (fun e => keying'.eq e.1 key) = some pairs[i] :=
      find?_eq_some_iff_getElem.mpr ⟨heq, i, hi, rfl, fun j hj => by simpa using hbefore j hj⟩
    rw [hfind]
    simp only [bind, Except.bind, Option.map_some, getElem?_collision hi]
    rfl

/-- Looking a key up in a sound node gives its binding. -/
theorem Sound.find?_eq (h : Sound keying S level node) (hes : ∀ e ∈ node.entries, S e.1)
    (fuel : Nat)
    (hfuel : lastLevel < level + fuel) : find? keying' (keying.hash key) key fuel (5 * level) node =
      .ok (lookup keying key node.entries) := by
  induction fuel generalizing level node with
  | zero => exact absurd (h.level_le hl) (by omega)
  | succ fuel ih =>
    cases h with
    | sparse level_le narrow bits_eq full route below =>
      rw [entries_sparse] at hes ⊢
      exact find?_sparse hl hkey hagree _ ⟨level_le, narrow, bits_eq, full, route, below⟩ hes
        fun j n hn => ih (below j n hn) (fun e he => hes e (mem_flatMap.mpr ⟨_, hn, he⟩)) (by omega)
    | dense level_le width _ route below =>
      rw [entries_dense] at hes ⊢
      exact find?_dense hl hkey _ ⟨level_le, width, route, below⟩ hes fun n hn =>
        ih (below n hn) (fun e he => hes e (mem_flatMap.mpr ⟨_, hn, he⟩)) (by omega)
    | collision =>
      rw [entries_collision] at hes ⊢
      exact find?_collision hl hkey hagree _ _ hes

end

end TrieNode

end HostedLisp.Coll
