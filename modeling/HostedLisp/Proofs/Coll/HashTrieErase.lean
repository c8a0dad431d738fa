import HostedLisp.Proofs.Coll.HashMapRefines

/-!
# Taking a key out of a hash trie

Removal gives back a trie without the binding, except in two cases. A key that shares its hash with
another one is in a collision node, and those refuse to give a binding up. A key that is not there
is still counted as removed where the search for it goes through a dense node, which takes an
unchanged child for a changed one.

- `TrieNode.MeetsDense`: the search for a hash goes through a dense node.
- `Removes`: the outcomes of removing a key from a node.
- `TrieNode.erase_removes`: removing a key from a sound node has one of them.
-/

namespace HostedLisp.Coll

open List

variable {K V : Type} {keying : Keying K V} {key : K}

theorem Apart.fresh_of_lawful {es : List (K × V)} (h : Apart keying key es) (hl : keying.Lawful) :
    Fresh keying key es := h.fresh (hl.on (S := ⊤)) trivial fun _ _ => trivial

/-! ## Bitmaps -/

theorem ones_erase {bits j : Nat} (hj : j ∈ ones bits) (i : Nat) :
    i ∈ ones (bits ^^^ 2 ^ j) ↔ i ∈ ones bits ∧ i ≠ j := by
  rw [mem_ones] at hj
  rw [mem_ones, mem_ones, Nat.testBit_xor, Nat.testBit_two_pow]
  by_cases hij : j = i
  · subst hij
    simp [hj.2]
  · simp [hij, Ne.symm hij]

/-- Taking a bit away keeps a bitmap narrow. -/
theorem Narrow.erase {bits j : Nat} (h : Narrow bits) (hj : j ∈ ones bits) :
    Narrow (bits ^^^ 2 ^ j) :=
  ⟨Nat.xor_lt_two_pow h.1 (Nat.pow_lt_pow_right (by decide) (mem_ones.mp hj).1), fun i hi k hk =>
    h.2 i ((ones_erase hj i).mp hi).1 k ((ones_erase hj k).mp hk).1⟩

namespace TrieNode

theorem slotsOf_remove {pre post : List (Nat × TrieSlot K V)} {j pad : Nat} {s : TrieSlot K V} :
    (slotsOf (pre ++ (j, s) :: post) pad).take pre.length ++
      (slotsOf (pre ++ (j, s) :: post) pad).drop (pre.length + 1) = slotsOf (pre ++ post) pad := by
  simp [slotsOf, drop_append]

/-- Taking a slot away from a sparse node. -/
theorem sparse_remove {level bits pad j : Nat} {pre post : List (Nat × TrieSlot K V)}
    {s : TrieSlot K V} (sound : SparseSound keying ⊤ level bits (pre ++ (j, s) :: post))
    (hpre : ∀ c ∈ pre, c.1 ≠ j) (hpost : ∀ c ∈ post, c.1 ≠ j) :
    Sound keying ⊤ level (.bitmap (bits ^^^ 2 ^ j) (slotsOf (pre ++ post) pad)) := by
  have hj : j ∈ ones bits := by simp [← sound.bits_eq]
  have hsub : (pre ++ post).Sublist (pre ++ (j, s) :: post) := (sublist_cons_self ..).append_left _
  refine sound.change (sound.narrow.erase hj) (ones_eq ?_ fun i => ?_).symm
    (fun c hc => .inl (hsub.subset hc)) pad
  · exact (sound.bits_eq ▸ ones_sorted bits).sublist (hsub.map Prod.fst)
  · rw [ones_erase hj, ← sound.bits_eq, map_append, map_append, map_cons, mem_append,
      mem_append, mem_cons]
    have hne : i ∈ pre.map Prod.fst ∨ i ∈ post.map Prod.fst → i ≠ j := by
      rintro (h | h)
      · obtain ⟨c, hc, rfl⟩ := mem_map.mp h
        exact hpre c hc
      · obtain ⟨c, hc, rfl⟩ := mem_map.mp h
        exact hpost c hc
    tauto

/-! ## Outcomes -/

/-- The search for a hash goes through a slot in use of a dense node. -/
inductive MeetsDense (hash : Int) : Nat → TrieNode K V → Prop where
  | here {level : Nat} {count : Int} {children : List (Option (TrieNode K V))} {n : TrieNode K V}
      (slot : children[hashSlot hash (5 * level)]? = some (some n)) :
      MeetsDense hash level (.array count children)
  | sparse {level bits : Nat} {slots : List (TrieSlot K V)} {n : TrieNode K V}
      (used : bits.testBit (hashSlot hash (5 * level)) = true)
      (slot : slots[slotIndex bits (hashBit hash (5 * level))]? = some (.child n))
      (below : MeetsDense hash (level + 1) n) : MeetsDense hash level (.bitmap bits slots)

/-- The outcomes of removing a key from a node, as far as keys are lawful. -/
inductive Removes (keying : Keying K V) (key : K) (level : Nat) (node : TrieNode K V) :
    Except TrieFailure (TrieRemoval K V) → Prop where
  /-- The key is not there. -/
  | absent (fresh : keying.Lawful → Fresh keying key node.entries)
      (plain : ¬MeetsDense (keying.hash key) level node) :
      Removes keying key level node (.ok .unchanged)
  /-- The key is not there, but the node counts as changed. -/
  | stray (fresh : keying.Lawful → Fresh keying key node.entries)
      (dense : MeetsDense (keying.hash key) level node) :
      Removes keying key level node (.ok (.changed node))
  /-- The key is there, and another one of its hash. -/
  | failed {failure : TrieFailure} (shared : keying.Lawful → failure = .collisionRemoval ∧
      (∃ e ∈ node.entries, keying.eq key e.1 = true) ∧ ∃ d ∈ node.entries,
        keying.hash d.1 = keying.hash key ∧ keying.eq key d.1 = false) :
      Removes keying key level node (.error failure)
  /-- The key was there, and none of its hash is left. -/
  | removed {n : TrieNode K V} {e : K × V} (sound : Sound keying ⊤ level n)
      (found : keying.eq key e.1 = true) (perm : node.entries.Perm (e :: n.entries))
      (alone : Apart keying key n.entries) :
      Removes keying key level node (.ok (.changed n))

/-- What removing with a bound on the levels comes to. -/
def EraseRemoves (keying : Keying K V) (key : K) (fuel : Nat) : Prop :=
  ∀ (level : Nat) (node : TrieNode K V), Sound keying ⊤ level node → lastLevel < level + fuel →
    Removes keying key level node (erase keying (keying.hash key) key fuel (5 * level) node)

/-- What removing a key from a node comes to. -/
def Erases (keying : Keying K V) (key : K) (fuel level : Nat) (node : TrieNode K V) : Prop :=
  Removes keying key level node (erase keying (keying.hash key) key fuel (5 * level) node)

/-- What becomes of a node when the key is removed from the one in its slot, where `f` puts another
one there. The node above decides what to make of one that is unchanged. -/
theorem Removes.above {level : Nat} {node n : TrieNode K V} {f : TrieNode K V → TrieNode K V}
    {xs ys : List (K × V)} (hnode : f n = node)
    (hentries : ∀ n', (f n').entries = xs ++ (n'.entries ++ ys)) (hx : Apart keying key xs)
    (hy : Apart keying key ys)
    (hroute : ∀ d ∈ n.entries, keying.slot level d.1 = keying.slot level key)
    (hsound : ∀ n', Sound keying ⊤ (level + 1) n' →
      (∀ d ∈ n'.entries, keying.slot level d.1 = keying.slot level key) →
      Sound keying ⊤ level (f n'))
    (hdense : MeetsDense (keying.hash key) (level + 1) n → MeetsDense (keying.hash key) level node)
    {outcome : Except TrieFailure (TrieRemoval K V)}
    (h : Removes keying key (level + 1) n outcome) :
    (outcome = .ok .unchanged ∧ (keying.Lawful → Fresh keying key node.entries) ∧
      ¬MeetsDense (keying.hash key) (level + 1) n) ∨
    (∃ n', outcome = .ok (.changed n') ∧ Removes keying key level node (.ok (.changed (f n')))) ∨
    ∃ failure, outcome = .error failure ∧ Removes keying key level node (.error failure) := by
  subst hnode
  have hfresh (fresh : keying.Lawful → Fresh keying key n.entries) (hl : keying.Lawful) :
      Fresh keying key (f n).entries := by
    rw [hentries]
    exact fresh_append.mpr ⟨hx.fresh_of_lawful hl,
      fresh_append.mpr ⟨fresh hl, hy.fresh_of_lawful hl⟩⟩
  have hmem {e : K × V} (he : e ∈ n.entries) : e ∈ (f n).entries := by
    rw [hentries]
    exact mem_append_right _ (mem_append_left _ he)
  cases h with
  | absent fresh plain => exact .inl ⟨rfl, hfresh fresh, plain⟩
  | stray fresh dense => exact .inr (.inl ⟨n, rfl, .stray (hfresh fresh) (hdense dense)⟩)
  | failed shared =>
    refine .inr (.inr ⟨_, rfl, .failed fun hl => ?_⟩)
    obtain ⟨hfailure, ⟨e, he, found⟩, d, hd, other⟩ := shared hl
    exact ⟨hfailure, ⟨e, hmem he, found⟩, d, hmem hd, other⟩
  | @removed n' e sound found perm alone =>
    refine .inr (.inl ⟨n', rfl, .removed (hsound n' sound fun d hd => ?_) found ?_ ?_⟩)
    · exact hroute d (perm.mem_iff.mpr (mem_cons_of_mem _ hd))
    · rw [hentries, hentries]
      exact perm_frame _ _ perm
    · rw [hentries]
      exact apart_append.mpr ⟨hx, apart_append.mpr ⟨alone, hy⟩⟩

section Sparse

variable {fuel level bits pad : Nat} {pre post : List (Nat × TrieSlot K V)}
  (hused : bits.testBit (keying.slot level key) = true)
  (hlen : pre.length = slotIndex bits (2 ^ keying.slot level key))
  (hpre : ∀ c ∈ pre, c.1 ≠ keying.slot level key) (hpost : ∀ c ∈ post, c.1 ≠ keying.slot level key)

include hused hlen hpre hpost

/-- Removing a key from a sparse node that has a binding in the slot of the key. -/
theorem erase_sparse_entry {k : K} {v : V}
    (sound : SparseSound keying ⊤ level bits (pre ++ (keying.slot level key, .entry k v) :: post)) :
    Erases keying key (fuel + 1) level
      (.bitmap bits (slotsOf (pre ++ (keying.slot level key, .entry k v) :: post) pad)) := by
  obtain ⟨hpre', hpost'⟩ := apart_beside sound.route hpre hpost
  rw [Erases, erase]
  dsimp only
  rw [if_neg (and_hashBit_ne_zero hused), hashBit_eq, ← hlen, slotsOf_getElem?, slotsOf_remove]
  dsimp only
  cases heq : keying.eq key k with
  | true =>
    refine .removed (e := (k, v)) (sparse_remove sound hpre hpost) heq ?_ ?_
    · rw [entries_sparse, entries_sparse, tableEntries_append, tableEntries_append,
        tableEntries_cons]
      exact perm_middle
    · rw [entries_sparse, tableEntries_append]
      exact apart_append.mpr ⟨hpre', hpost'⟩
  | false =>
    refine .absent (fun hl => ?_) fun hdense => ?_
    · rw [entries_sparse, tableEntries_append, tableEntries_cons]
      refine fresh_append.mpr ⟨hpre'.fresh_of_lawful hl,
        fresh_append.mpr ⟨fun e he => ?_, hpost'.fresh_of_lawful hl⟩⟩
      rw [mem_singleton.mp he]
      exact heq
    · cases hdense with
      | sparse _ slot _ =>
        rw [hashBit_eq, ← hlen, slotsOf_getElem?] at slot
        cases slot

/-- Removing a key from a sparse node that has a child in the slot of the key. -/
theorem erase_sparse_child {n : TrieNode K V}
    (sound : SparseSound keying ⊤ level bits (pre ++ (keying.slot level key, .child n) :: post))
    (ih : Erases keying key fuel (level + 1) n) :
    Erases keying key (fuel + 1) level
      (.bitmap bits (slotsOf (pre ++ (keying.slot level key, .child n) :: post) pad)) := by
  have hself : (keying.slot level key, .child n) ∈
      pre ++ (keying.slot level key, .child n) :: post :=
    mem_append_cons_self
  obtain ⟨hpre', hpost'⟩ := apart_beside sound.route hpre hpost
  have hslot : (slotsOf (pre ++ (keying.slot level key, .child n) :: post)
      pad)[slotIndex bits (hashBit (keying.hash key) (5 * level))]? = some (.child n) := by
    rw [hashBit_eq, ← hlen, slotsOf_getElem?]
  have habove := Removes.above (f := fun n' =>
      .bitmap bits (slotsOf (pre ++ (keying.slot level key, .child n') :: post) pad)) rfl
    (fun n' => by rw [entries_sparse, tableEntries_append, tableEntries_cons]; rfl) hpre' hpost'
    (sound.route _ hself) (fun n' below hroute => sparse_replace sound (by simp)
      (fun m hm => by cases hm; exact below) hroute) (.sparse hused hslot) ih
  rw [Nat.mul_add_one] at habove
  rw [Erases, erase]
  dsimp only
  rw [if_neg (and_hashBit_ne_zero hused), hslot]
  dsimp only
  rcases habove with ⟨hn, fresh, plain⟩ | ⟨n', hn, h⟩ | ⟨failure, hn, h⟩
  · rw [hn]
    refine .absent fresh fun hdense => ?_
    cases hdense with
    | sparse _ slot dense =>
      cases hslot.symm.trans slot
      exact plain dense
  · rw [hn]
    show Removes keying key level _ (.ok (.changed (.bitmap bits _)))
    rw [hashBit_eq, ← hlen, slotsOf_set]
    exact h
  · rw [hn]
    exact h

end Sparse

/-- Removing a key from a sparse node. -/
theorem erase_sparse {fuel level bits : Nat}
    {table : List (Nat × TrieSlot K V)} (pad : Nat) (sound : SparseSound keying ⊤ level bits table)
    (hfuel : lastLevel < level + (fuel + 1)) (ih : EraseRemoves keying key fuel) :
    Erases keying key (fuel + 1) level (.bitmap bits (slotsOf table pad)) := by
  cases hbit : bits.testBit (keying.slot level key) with
  | false =>
    rw [Erases, erase, if_pos (and_hashBit_eq_zero.mpr hbit)]
    refine .absent (fun hl => ?_) fun hdense => ?_
    · rw [entries_sparse]
      exact sound.fresh hl.on trivial (fun _ _ => trivial) hbit
    · cases hdense with
      | sparse used _ _ => exact Bool.false_ne_true (hbit.symm.trans used)
  | true =>
    obtain ⟨pre, s, post, hself, rfl, hlen, hpre, hpost⟩ :=
      exists_slot sound.narrow sound.bits_eq (mem_ones.mpr ⟨hashSlot_lt .., hbit⟩)
    cases s with
    | vacant => exact absurd rfl (sound.full _ hself)
    | entry k v => exact erase_sparse_entry hbit hlen hpre hpost sound
    | child n =>
      exact erase_sparse_child hbit hlen hpre hpost sound
        (ih (level + 1) n (sound.below _ n hself) (by omega))

/-- Removing a key from a dense node. -/
theorem erase_dense {fuel level : Nat} (count : Int)
    {children : List (Option (TrieNode K V))} (dense : DenseSound keying ⊤ level children)
    (hfuel : lastLevel < level + (fuel + 1)) (ih : EraseRemoves keying key fuel) :
    Erases keying key (fuel + 1) level (.array count children) := by
  have hj : keying.slot level key < children.length := dense.width ▸ hashSlot_lt ..
  have hget := getElem?_eq_getElem hj
  generalize children[keying.slot level key] = c at hget
  obtain ⟨pre, post, rfl, hlen⟩ := exists_child hget
  obtain ⟨hpre, hpost⟩ := apart_children dense.route hlen
  have hset (n : TrieNode K V) : (pre ++ c :: post).set (keying.slot level key)
      (some n) = pre ++ some n :: post := by
    rw [← hlen]
    simp
  rw [Erases, erase, hget]
  cases c with
  | none =>
    refine .absent (fun hl => ?_) fun hdense => ?_
    · rw [entries_dense, flatMap_append, flatMap_cons]
      exact fresh_append.mpr ⟨hpre.fresh_of_lawful hl, hpost.fresh_of_lawful hl⟩
    · cases hdense with
      | here slot => cases hget.symm.trans slot
  | some n =>
    have habove := Removes.above (f := fun n' => .array count (pre ++ some n' :: post)) rfl
      (fun n' => by rw [entries_dense, flatMap_append, flatMap_cons]; rfl) hpre hpost
      (dense.route _ _ hget) (fun n' below hroute => hset n' ▸
        sound_set dense (hashSlot_lt ..) hroute below) (fun _ => .here hget)
      (ih (level + 1) n (dense.below n mem_append_cons_self) (by omega))
    rw [Nat.mul_add_one] at habove
    dsimp only
    rcases habove with ⟨hn, fresh, -⟩ | ⟨n', hn, h⟩ | ⟨failure, hn, h⟩
    · rw [hn]
      exact .stray fresh (.here hget)
    · rw [hn]
      show Removes keying key level _ (.ok (.changed (.array count _)))
      rw [hset]
      exact h
    · rw [hn]
      exact h

/-- Removing a key from a collision node, which never has just one. -/
theorem erase_collision {fuel level : Nat} {own : Int} {pairs : List (K × V)}
    (two_le : 2 ≤ pairs.length) (hash_own : ∀ e ∈ pairs, keying.hash e.1 = own)
    (distinct : keying.LawfulOn ⊤ → Distinct keying pairs) :
    Erases keying key (fuel + 1) level (bucket own pairs) := by
  have hmem (e : K × V) : e ∈ pairs ↔ e ∈ (bucket own pairs).entries := by rw [entries_collision]
  rw [Erases, erase, collisionIndex_eq]
  cases hidx : pairs.findIdx? fun e => keying.eq e.1 key with
  | none =>
    refine .absent (fun hl e he => ?_) fun hdense => by cases hdense
    rw [hl.eq_comm]
    exact findIdx?_eq_none_iff.mp hidx e ((hmem e).mpr he)
  | some i =>
    obtain ⟨hi, heq, -⟩ := findIdx?_eq_some_iff_getElem.mp hidx
    have hmany : pairs.length ≠ 1 := by omega
    simp only [Option.map_some, bind, Except.bind, if_neg hmany]
    refine .failed fun hl => ⟨rfl, ?_⟩
    rw [hl.eq_comm] at heq
    have hperm : pairs.Perm (pairs[i] :: pairs.eraseIdx i) := (getElem_cons_eraseIdx_perm hi).symm
    -- one of the other keys
    obtain ⟨d, hd⟩ : ∃ d, d ∈ pairs.eraseIdx i :=
      exists_mem_of_length_pos (by rw [length_eraseIdx_of_lt hi]; omega)
    have hdp : d ∈ pairs := hperm.mem_iff.mpr (mem_cons_of_mem _ hd)
    have hne : keying.eq key d.1 = false := by
      rw [hl.eq_congr heq]
      exact (pairwise_cons.mp ((Distinct.perm hl hperm).mp (distinct hl.on))).1 d hd
    refine ⟨⟨_, (hmem _).mp (getElem_mem hi), heq⟩, d, (hmem d).mp hdp, ?_, hne⟩
    rw [hash_own d hdp, hl.hash_eq _ _ heq, hash_own _ (getElem_mem hi)]

/-- Removing a key from a sound node. -/
theorem erase_removes (key : K) : ∀ fuel, EraseRemoves keying key fuel := by
  intro fuel
  induction fuel with
  | zero =>
    intro level node hsound hfuel
    exact .failed fun hl => absurd (hsound.level_le hl.on) (by omega)
  | succ fuel ih =>
    intro level node hsound hfuel
    cases hsound with
    | sparse level_le narrow bits_eq full route below =>
      exact erase_sparse _ ⟨level_le, narrow, bits_eq, full, route, below⟩ hfuel ih
    | dense level_le width _ route below =>
      exact erase_dense _ ⟨level_le, width, route, below⟩ hfuel ih
    | collision _ two_le hash_own distinct => exact erase_collision two_le hash_own distinct

end TrieNode

end HostedLisp.Coll
