import HostedLisp.Proofs.Coll.HashTrieSound
import Mathlib.Data.List.Perm.Basic

/-!
# Binding a key in a hash trie

- `Binds`: what binding a key does to a list of bindings, up to their order: the new binding is
  added, or the value of the key that is there gives way.
- `TrieNode.LoneAt`, `TrieNode.Blocked`: a key alone in its slot, and one that stands in the way of
  another.
- `TrieNode.spread_eq`: a sparse node that becomes dense keeps its bindings.
- `TrieNode.join_cases`: a node made for two keys holds just these, if bits are left to tell them.
- `TrieNode.insert_spec`: inserting into a sound node fails where a key stands in the way, and
  elsewhere binds the key and gives a sound node.
- `TrieNode.takesByRank`: a binding goes to the rank of its bit, or the node becomes dense.
-/

namespace HostedLisp.Coll

open List

variable {K V : Type} {keying : Keying K V} {S : K → Prop} {key : K} {val : V}

/-- A value stands for another: it is the same, or comparing the two in one of the orders in which
that happens finds them equal. -/
def Keying.Same (keying : Keying K V) (w v : V) : Prop :=
  w = v ∨ keying.valEq w v = true ∨ keying.valEq v w = true

/-- The effect of binding `key` to `val` on the bindings `es`. The flag tells whether the key was
new. A key that is there already stays as it is and only its value gives way, unless that is found
equal to the new one. -/
inductive Binds (keying : Keying K V) (key : K) (val : V) (es : List (K × V)) :
    List (K × V) → Bool → Prop where
  | added {es' : List (K × V)} (perm : es'.Perm ((key, val) :: es)) :
    Binds keying key val es es' true
  | replaced {es' rest : List (K × V)} {k : K} {v w : V}
      (found : keying.eq key k = true ∨ keying.eq k key = true) (before : es.Perm ((k, v) :: rest))
      (same : keying.Same w val)
      (after : es'.Perm ((k, w) :: rest)) : Binds keying key val es es' false

/-- What is permuted within one part of a list is permuted within the list. -/
theorem perm_frame {α : Type} (xs zs : List α) {as bs : List α} {e : α} (h : as.Perm (e :: bs)) :
    (xs ++ (as ++ zs)).Perm (e :: (xs ++ (bs ++ zs))) :=
  ((h.append_right zs).append_left xs).trans perm_middle

variable {added : Bool} {es es' pairs : List (K × V)}

/-- Binding a key in one part of the bindings. -/
theorem Binds.frame (xs zs : List (K × V)) {ys ys' : List (K × V)}
    (h : Binds keying key val ys ys' added) :
    Binds keying key val (xs ++ (ys ++ zs)) (xs ++ (ys' ++ zs)) added := by
  cases h with
  | added perm => exact .added (perm_frame xs zs perm)
  | replaced found before same after =>
    exact .replaced found (perm_frame xs zs before) same (perm_frame xs zs after)

/-- What holds of the keys that were there and of the new one holds of the keys of the result. -/
theorem Binds.forall_keys {P : K → Prop}
    (h : Binds keying key val es es' added) (hkey : P key) (hes : ∀ e ∈ es, P e.1) :
    ∀ e ∈ es', P e.1 := by
  intro e he
  cases h with
  | added perm =>
    rcases mem_cons.mp (perm.mem_iff.mp he) with rfl | he
    · exact hkey
    · exact hes e he
  | @replaced _ k v _ _ before _ after =>
    rcases mem_cons.mp (after.mem_iff.mp he) with rfl | he
    · exact hes (k, v) (before.mem_iff.mpr mem_cons_self)
    · exact hes e (before.mem_iff.mpr (mem_cons_of_mem _ he))

/-- Where every binding stands below one slot, and the key belongs there, so does the result. -/
theorem Binds.slot_eq {level : Nat} (h : Binds keying key val es es' added)
    (hroute : ∀ e ∈ es, keying.slot level e.1 = keying.slot level key) :
    ∀ e ∈ es', keying.slot level e.1 = keying.slot level key :=
  h.forall_keys (P := fun k => keying.slot level k = keying.slot level key) rfl hroute

/-- Replacing the value of a binding keeps the keys distinct. -/
theorem Distinct.set (hd : Distinct keying pairs) {i : Nat}
    (hi : i < pairs.length) (v : V) : Distinct keying (pairs.set i (pairs[i].1, v)) := by
  have hkeys : (pairs.set i (pairs[i].1, v)).map Prod.fst = pairs.map Prod.fst := by
    rw [map_set, ← getElem_map Prod.fst (h := by simpa using hi), set_getElem_self]
  have hpairs : (pairs.map Prod.fst).Pairwise fun a b => keying.eq a b = false :=
    pairwise_map.mpr hd
  rw [← hkeys] at hpairs
  exact pairwise_map.mp hpairs

/-- Hashes that agree in some bits agree in fewer. -/
theorem Agree.mono {m n : Nat} {a b : Int} (hmn : m ≤ n) (h : Agree n a b) : Agree m a b := by
  have hdvd : (2 : Int) ^ m ∣ 2 ^ n := pow_dvd_pow 2 hmn
  unfold Agree at h ⊢
  rw [← Int.emod_emod_of_dvd a hdvd, ← Int.emod_emod_of_dvd b hdvd, h]

namespace TrieNode

/-! ## Keys alone in their slots -/

/-- The key `k` stands alone in a slot of a sparse node at level `deep`, in or below a node of the
given level. -/
inductive LoneAt (deep : Nat) (k : K) : Nat → TrieNode K V → Prop where
  | here {bits : Nat} {slots : List (TrieSlot K V)} {v : V} (mem : .entry k v ∈ slots) :
      LoneAt deep k deep (.bitmap bits slots)
  | sparse {level bits : Nat} {slots : List (TrieSlot K V)} {n : TrieNode K V}
      (mem : .child n ∈ slots) (below : LoneAt deep k (level + 1) n) :
      LoneAt deep k level (.bitmap bits slots)
  | dense {level : Nat} {count : Int} {children : List (Option (TrieNode K V))} {n : TrieNode K V}
      (mem : some n ∈ children) (below : LoneAt deep k (level + 1) n) :
      LoneAt deep k level (.array count children)

/-- A key that has the hash of another one, which stands alone and so far down that no node can be
made below it. -/
def Blocked (keying : Keying K V) (key : K) (level : Nat) (node : TrieNode K V) : Prop :=
  ∃ deep k, LoneAt deep k level node ∧ 64 < 5 * (deep + 1) ∧ keying.hash k = keying.hash key ∧
    keying.eq key k = false

variable {level : Nat}

theorem LoneAt.mem_entries {deep : Nat} {k : K} {node : TrieNode K V}
    (h : LoneAt deep k level node) : ∃ v, (k, v) ∈ node.entries := by
  induction h with
  | @here bits slots v mem =>
    refine ⟨v, ?_⟩
    rw [entries, slotEntries_eq]
    exact mem_flatMap.mpr ⟨_, mem, mem_cons_self⟩
  | sparse mem _ ih =>
    obtain ⟨v, hv⟩ := ih
    refine ⟨v, ?_⟩
    rw [entries, slotEntries_eq]
    exact mem_flatMap.mpr ⟨_, mem, hv⟩
  | dense mem _ ih =>
    obtain ⟨v, hv⟩ := ih
    refine ⟨v, ?_⟩
    rw [entries_dense]
    exact mem_flatMap.mpr ⟨_, mem, hv⟩

variable {table : List (Nat × TrieSlot K V)}

theorem mem_slotsOf {pad : Nat} {s : TrieSlot K V}
    (hs : s ≠ .vacant) : s ∈ slotsOf table pad ↔ ∃ j, (j, s) ∈ table := by
  unfold slotsOf
  rw [mem_append, mem_map]
  constructor
  · rintro (⟨c, hc, rfl⟩ | h)
    · exact ⟨c.1, hc⟩
    · exact absurd (eq_of_mem_replicate h) hs
  · rintro ⟨j, hj⟩
    exact .inl ⟨(j, s), hj, rfl⟩

variable {pre post : List (Nat × TrieSlot K V)} {s s' : TrieSlot K V} {c : Option (TrieNode K V)}
  {bits : Nat}

/-- Only one slot stands at a place. -/
theorem eq_of_mem_table {j : Nat} (hpre : ∀ c ∈ pre, c.1 ≠ j) (hpost : ∀ c ∈ post, c.1 ≠ j)
    (h : (j, s') ∈ pre ++ (j, s) :: post) : s' = s := by
  rcases mem_append.mp h with h | h
  · exact absurd rfl (hpre _ h)
  · rcases mem_cons.mp h with h | h
    · exact congrArg Prod.snd h
    · exact absurd rfl (hpost _ h)

/-- A key that stands alone in or below a sparse node is in or below the slot of its hash. -/
theorem loneAt_sparse_iff (deep bits pad : Nat) {j : Nat} {k : K} {s : TrieSlot K V}
    (route : ∀ c ∈ pre ++ (j, s) :: post, ∀ e ∈ c.2.bindings, keying.slot level e.1 = c.1)
    (hpre : ∀ c ∈ pre, c.1 ≠ j) (hpost : ∀ c ∈ post, c.1 ≠ j) (hj : keying.slot level k = j) :
    LoneAt deep k level (.bitmap bits (slotsOf (pre ++ (j, s) :: post) pad)) ↔
      (∃ v, s = .entry k v ∧ deep = level) ∨ ∃ n, s = .child n ∧ LoneAt deep k (level + 1) n := by
  have hself : (j, s) ∈ pre ++ (j, s) :: post := mem_append_cons_self
  constructor
  · intro h
    cases h with
    | @here _ _ v mem =>
      obtain ⟨i, hi⟩ := (mem_slotsOf (by simp)).mp mem
      obtain rfl : i = j := (route _ hi (k, v) mem_cons_self).symm.trans hj
      exact .inl ⟨v, (eq_of_mem_table hpre hpost hi).symm, rfl⟩
    | @sparse _ _ _ n mem below =>
      obtain ⟨i, hi⟩ := (mem_slotsOf (by simp)).mp mem
      obtain ⟨v, hv⟩ := below.mem_entries
      obtain rfl : i = j := (route _ hi (k, v) hv).symm.trans hj
      exact .inr ⟨n, (eq_of_mem_table hpre hpost hi).symm, below⟩
  · rintro (⟨v, rfl, rfl⟩ | ⟨n, rfl, below⟩)
    · exact .here ((mem_slotsOf (by simp)).mpr ⟨j, hself⟩)
    · exact .sparse ((mem_slotsOf (by simp)).mpr ⟨j, hself⟩) below

/-- The same for a dense node. -/
theorem loneAt_dense_iff (deep : Nat) (count : Int) {k : K}
    {children : List (Option (TrieNode K V))} (sound : DenseSound keying S level children)
    (hget : children[keying.slot level k]? = some c) :
    LoneAt deep k level (.array count children) ↔
      ∃ n, c = some n ∧ LoneAt deep k (level + 1) n := by
  constructor
  · intro h
    cases h with
    | @dense _ _ _ n mem below =>
      obtain ⟨i, hi⟩ := mem_iff_getElem?.mp mem
      obtain ⟨v, hv⟩ := below.mem_entries
      obtain rfl := sound.route i _ hi (k, v) hv
      exact ⟨n, Option.some_inj.mp (hget.symm.trans hi), below⟩
  · rintro ⟨n, rfl, below⟩
    exact .dense (mem_of_getElem? hget) below

/-! ## Small nodes -/

theorem SparseSound.sound (h : SparseSound keying S level bits table) (pad : Nat) :
    Sound keying S level (.bitmap bits (slotsOf table pad)) :=
  .sparse h.level_le h.narrow h.bits_eq h.full h.route h.below

/-- A sparse node with other slots, all of them taken over or sound themselves. -/
theorem SparseSound.change {bits' : Nat} {table' : List (Nat × TrieSlot K V)}
    (sound : SparseSound keying S level bits table) (narrow : Narrow bits')
    (bits_eq : table'.map Prod.fst = ones bits')
    (hslots : ∀ c ∈ table', c ∈ table ∨ c.2 ≠ .vacant ∧
      (∀ e ∈ c.2.bindings, keying.slot level e.1 = c.1) ∧
      ∀ n, c.2 = .child n → Sound keying S (level + 1) n) (pad : Nat) :
    Sound keying S level (.bitmap bits' (slotsOf table' pad)) := by
  refine .sparse sound.level_le narrow bits_eq (fun c hc => ?_) (fun c hc => ?_) fun j n hn => ?_
  · exact (hslots c hc).elim (sound.full c) fun h => h.1
  · exact (hslots c hc).elim (sound.route c) fun h => h.2.1
  · exact (hslots _ hn).elim (sound.below j n) fun h => h.2.2 n rfl

theorem sparse_one {j : Nat} {s : TrieSlot K V} (level_le : keying.LawfulOn S → level ≤ lastLevel)
    (hj : j < 32) (full : s ≠ .vacant) (route : ∀ e ∈ s.bindings, keying.slot level e.1 = j)
    (below : ∀ n, s = .child n → Sound keying S (level + 1) n) :
    SparseSound keying S level (2 ^ j) [(j, s)] := by
  refine ⟨level_le, narrow_two_pow hj, (ones_two_pow hj).symm,
    fun c hc => ?_, fun c hc => ?_, fun i n hn => ?_⟩
  · rw [mem_singleton.mp hc]
    exact full
  · rw [mem_singleton.mp hc]
    exact route
  · exact below n (congrArg Prod.snd (mem_singleton.mp hn)).symm

section

variable {level : Nat} (level_le : keying.LawfulOn S → level ≤ lastLevel) (k : K) (v : V)

include level_le

theorem sparse_entry :
    SparseSound keying S level (2 ^ keying.slot level k) [(keying.slot level k, .entry k v)] := by
  refine sparse_one level_le (hashSlot_lt ..) (fun h => nomatch h) (fun e he => ?_)
    fun n h => nomatch h
  rw [mem_singleton.mp he]

theorem sound_entry (pad : Nat) :
    Sound keying S level (.bitmap (hashBit (keying.hash k) (5 * level))
      (.entry k v :: List.replicate pad .vacant)) := by
  rw [hashBit_eq]
  exact (sparse_entry level_le k v).sound pad

theorem single_sound : Sound keying S level (single (5 * level) (keying.hash k) k v) :=
  sound_entry level_le k v 0

theorem roomy_sound : Sound keying S level (roomy (5 * level) (keying.hash k) k v) :=
  sound_entry level_le k v 3

end

variable {level : Nat} (pad : Nat) {children : List (Option (TrieNode K V))} {added : Bool} {k : K}
  {wrap : K → V → TrieNode K V}

@[simp] theorem entries_single (shift : Nat) (hash : Int) (k : K) (v : V) :
    (single shift hash k v).entries = [(k, v)] := by
  simp [single, entries, slotEntries]

@[simp] theorem entries_roomy (shift : Nat) (hash : Int) (k : K) (v : V) :
    (roomy shift hash k v).entries = [(k, v)] := by
  simp [roomy, entries, slotEntries]

/-! ## From sparse to dense -/

/-- The child that a slot turns into. -/
def childOf (wrap : K → V → TrieNode K V) : TrieSlot K V → Option (TrieNode K V)
  | .vacant => none
  | .entry k v => some (wrap k v)
  | .child n => some n

theorem childBindings_childOf (hwrap : ∀ k v, (wrap k v).entries = [(k, v)]) (s : TrieSlot K V) :
    childBindings (childOf wrap s) = s.bindings := by
  cases s with
  | vacant => rfl
  | entry k v => exact hwrap k v
  | child n => rfl

/-- Spreading the slots of a sparse node gives a child for each set bit and keeps the bindings. -/
theorem spread_eq (hwrap : ∀ k v, (wrap k v).entries = [(k, v)])
    (pad : Nat) (places : List Nat) (table : List (Nat × TrieSlot K V))
    (hbits : table.map Prod.fst = places.filter bits.testBit) :
    ∃ children, spread wrap bits places (slotsOf table pad) = .ok children ∧
      children.length = places.length ∧
      children.flatMap childBindings = tableEntries table ∧
      ∀ (i : Nat) c, children[i]? = some c → c = none ∨
        ∃ j s, places[i]? = some j ∧ (j, s) ∈ table ∧ c = childOf wrap s := by
  induction places generalizing table with
  | nil =>
    obtain rfl : table = [] := map_eq_nil_iff.mp hbits
    exact ⟨[], rfl, rfl, rfl, fun i c hc => nomatch hc⟩
  | cons j places ih =>
    cases hj : bits.testBit j with
    | false =>
      rw [filter_cons_of_neg (by simp [hj])] at hbits
      obtain ⟨children, hspread, hlen, hentries, hget⟩ := ih table hbits
      refine ⟨none :: children, ?_, congrArg (· + 1) hlen, hentries, fun i c hc => ?_⟩
      · rw [spread.eq_def]
        dsimp only
        rw [if_neg (by simp [hj]), hspread]
        rfl
      · cases i with
        | zero => exact .inl (Option.some_inj.mp hc).symm
        | succ i => exact hget i c hc
    | true =>
      rw [filter_cons_of_pos hj] at hbits
      obtain ⟨⟨_, s⟩, table, rfl, rfl, hrest⟩ := map_eq_cons_iff.mp hbits
      obtain ⟨children, hspread, hlen, hentries, hget⟩ := ih table hrest
      refine ⟨childOf wrap s :: children, ?_, congrArg (· + 1) hlen, ?_, fun i c hc => ?_⟩
      · rw [spread.eq_def]
        dsimp only
        rw [if_pos hj]
        cases s <;> (show (spread wrap bits places (slotsOf table pad) >>= _) = _) <;>
          rw [hspread] <;> rfl
      · rw [flatMap_cons, childBindings_childOf hwrap, hentries, tableEntries_cons]
      · cases i with
        | zero =>
          refine .inr ⟨_, s, rfl, mem_cons_self, (Option.some_inj.mp hc).symm⟩
        | succ i =>
          rcases hget i c hc with h | ⟨j', s', hp, hmem, hc'⟩
          · exact .inl h
          · exact .inr ⟨j', s', hp, mem_cons_of_mem _ hmem, hc'⟩

/-- Putting a child into a dense node. -/
theorem sound_set {j : Nat} {count : Int} {n : TrieNode K V}
    (sound : DenseSound keying S level children) (hj : j < 32)
    (hroute : ∀ e ∈ n.entries, keying.slot level e.1 = j) (hn : Sound keying S (level + 1) n) :
    Sound keying S level (.array count (children.set j (some n))) := by
  have hlen : j < children.length := sound.width ▸ hj
  refine .dense sound.level_le (by rw [length_set, sound.width]) ⟨n, mem_set hlen _⟩
    (fun i c hc => ?_) fun m hm => ?_
  · rw [getElem?_set] at hc
    split at hc
    · next hij =>
      subst hij
      obtain rfl := Option.some_inj.mp hc
      exact hroute
    · exact sound.route i c hc
  · rcases mem_or_eq_of_mem_set hm with h | h
    · exact sound.below m h
    · rw [Option.some_inj.mp h]
      exact hn

/-- Binding a key in a child of a dense node. -/
theorem binds_set {n : TrieNode K V} (hget : children[keying.slot level key]? = some c)
    (h : Binds keying key val (childBindings c) n.entries added) :
    Binds keying key val (children.flatMap childBindings)
      ((children.set (keying.slot level key) (some n)).flatMap childBindings)
      added := by
  obtain ⟨pre, post, rfl, hlen⟩ := exists_child hget
  have hset : (pre ++ c :: post).set pre.length (some n) = pre ++ some n :: post := by simp
  rw [← hlen, hset, flatMap_append, flatMap_cons, flatMap_append, flatMap_cons]
  exact h.frame _ _

/-- The bindings of nothing and of the binding alone. -/
theorem binds_nil (key : K) (val : V) : Binds keying key val [] [(key, val)] true :=
  .added (List.Perm.refl _)

/-- The children that a sparse node spreads into stand at the places of their slots, and no other
nodes are made. -/
theorem spread_range (hwrap : ∀ k v, (wrap k v).entries = [(k, v)]) (pad : Nat)
    {table : List (Nat × TrieSlot K V)} (hbits : table.map Prod.fst = ones bits) :
    ∃ children, spread wrap bits (List.range 32) (slotsOf table pad) = .ok children ∧
      children.length = 32 ∧ children.flatMap childBindings = tableEntries table ∧
      (∀ (i : Nat) c, children[i]? = some c → c = none ∨ ∃ s, (i, s) ∈ table ∧ c = childOf wrap s) ∧
      (∀ j < 32, j ∉ ones bits → children[j]? = some none) ∧
      ∀ P : TrieNode K V → Prop, (∀ k v, P (wrap k v)) → (∀ j n, (j, .child n) ∈ table → P n) →
        ∀ n, some n ∈ children → P n := by
  obtain ⟨children, hspread, hlen, hentries, hget⟩ :=
    spread_eq hwrap pad (List.range 32) table hbits
  have hchild : ∀ (i : Nat) c, children[i]? = some c → c = none ∨
      ∃ s, (i, s) ∈ table ∧ c = childOf wrap s := by
    intro i c hc
    rcases hget i c hc with h | ⟨j, s, hp, hmem, hc'⟩
    · exact .inl h
    · obtain ⟨hi, rfl⟩ := List.getElem?_eq_some_iff.mp hp
      rw [List.getElem_range] at hmem
      exact .inr ⟨s, hmem, hc'⟩
  refine ⟨children, hspread, hlen, hentries, hchild, fun j hj hfree => ?_, fun P hw ht n hn => ?_⟩
  · have hlt : j < children.length := hlen ▸ hj
    rcases hchild _ _ (getElem?_eq_getElem hlt) with h | ⟨s, hmem, -⟩
    · rw [getElem?_eq_getElem hlt, h]
    · exact absurd (hbits ▸ mem_map_of_mem hmem) hfree
  · obtain ⟨i, hi⟩ := mem_iff_getElem?.mp hn
    rcases hchild i _ hi with h | ⟨s, hmem, hc⟩
    · cases h
    · cases s with
      | vacant => cases hc
      | entry k v => exact Option.some.inj hc ▸ hw k v
      | child m => exact Option.some.inj hc ▸ ht i m hmem

/-- A sparse node that becomes dense, with one more binding at a place that was free. -/
theorem spread_insert (pad : Nat) (count : Int) (table : List (Nat × TrieSlot K V))
    (wrap : K → V → TrieNode K V) (n : TrieNode K V)
    (sound : SparseSound keying S level bits table) (hwrap : ∀ k v, (wrap k v).entries = [(k, v)])
    (hwrap' : ∀ k v, Sound keying S (level + 1) (wrap k v))
    (hbit : keying.slot level key ∉ ones bits)
    (hn : n.entries = [(key, val)]) (hn' : Sound keying S (level + 1) n) :
    ∃ children, spread wrap bits (List.range 32) (slotsOf table pad) = .ok children ∧
      Sound keying S level (.array count
        (children.set (keying.slot level key) (some n))) ∧
      Binds keying key val (tableEntries table) (TrieNode.array count
        (children.set (keying.slot level key) (some n))).entries true := by
  obtain ⟨children, hspread, hlen, hentries, hchild, hfree, hbelow⟩ :=
    spread_range hwrap pad sound.bits_eq
  have hroute : ∀ i c, children[i]? = some c →
      ∀ e ∈ childBindings c, keying.slot level e.1 = i := by
    intro i c hc e he
    rcases hchild i c hc with rfl | ⟨s, hmem, rfl⟩
    · cases he
    · rw [childBindings_childOf hwrap] at he
      exact sound.route (i, s) hmem e he
  have hdense : DenseSound keying S level children :=
    ⟨sound.level_le, hlen, hroute, hbelow _ hwrap' sound.below⟩
  refine ⟨children, hspread, sound_set hdense (hashSlot_lt ..) (fun e he => ?_) hn', ?_⟩
  · rw [hn] at he
    rw [mem_singleton.mp he]
  · rw [entries_dense, ← hentries]
    refine binds_set (hfree _ (hashSlot_lt ..) hbit) ?_
    rw [hn]
    exact binds_nil key val

/-! ## Nodes for two keys -/

/-- A sparse node with one more binding at a place that was free. -/
theorem sparse_insert (pre post : List (Nat × TrieSlot K V))
    (sound : SparseSound keying S level bits (pre ++ post)) (hlt : bits < 256)
    (bits_eq : pre.map Prod.fst ++ keying.slot level key :: post.map Prod.fst =
      ones (bits ||| 2 ^ keying.slot level key)) :
    Sound keying S level (.bitmap (bits ||| 2 ^ keying.slot level key)
      (slotsOf (pre ++ (keying.slot level key, .entry key val) :: post) pad)) := by
  refine sound.change (Narrow.insert hlt (hashSlot_lt ..)) (by rw [map_append, map_cons, bits_eq])
    (fun c hc => ?_) pad
  rw [mem_append, mem_cons] at hc
  rw [mem_append]
  rcases hc with hc | rfl | hc
  · exact .inl (.inl hc)
  · exact .inr ⟨by simp, fun e he => by rw [mem_singleton.mp he], by simp⟩
  · exact .inl (.inr hc)

/-- Two bindings in slots of their own. Where the later one comes first, a slot is left vacant. -/
theorem pair_sound (v val : V) (level_le : keying.LawfulOn S → level ≤ lastLevel)
    (hlt : 2 ^ keying.slot level k < 256) (hslot : keying.slot level k ≠ keying.slot level key) :
    Sound keying S level (.bitmap
      (2 ^ keying.slot level k ||| 2 ^ keying.slot level key)
      (if keying.slot level k < keying.slot level key then
        [.entry k v, .entry key val] else [.entry key val, .entry k v, .vacant])) := by
  have hjk := hashSlot_lt (keying.hash k) (5 * level)
  have hnew : (2 ^ keying.slot level k).testBit
      (keying.slot level key) = false := Nat.testBit_two_pow_of_ne hslot
  have hones := ones_insert (hashSlot_lt (keying.hash key) (5 * level)) hnew
  rw [ones_two_pow hjk] at hones
  split
  · next hjlt =>
    refine sparse_insert 0 [_] [] (sparse_entry level_le k v) hlt ?_
    rw [hones]
    simp [hjlt, Nat.le_of_lt hjlt]
  · next hjge =>
    have hjgt := Nat.lt_of_le_of_ne (Nat.le_of_not_lt hjge) hslot.symm
    refine sparse_insert 1 [] [_] (sparse_entry level_le k v) hlt ?_
    rw [hones]
    simp [hjgt, Nat.le_of_lt hjgt]

theorem le_of_not_shift_gt (h : ¬ 5 * level > 64) : level < lastLevel := by
  unfold lastLevel
  omega

/-- Two keys of one hash are held by a collision node. -/
theorem collide_sound (v : V) (val : V) (hne : keying.LawfulOn S → keying.eq k key = false)
    (hhash : keying.hash k = keying.hash key) (level_le : keying.LawfulOn S → level ≤ lastLevel) :
    Sound keying S level (.collision (keying.hash k) 2 [.entry k v, .entry key val]) := by
  refine @Sound.collision _ _ _ _ _ _ [(k, v), (key, val)] level_le (Nat.le_refl 2)
    (fun e he => ?_) fun hl => ?_
  · rcases mem_cons.mp he with rfl | he
    · rfl
    · rw [mem_singleton.mp he]
      exact hhash.symm
  · refine pairwise_cons.mpr ⟨fun e he => ?_, pairwise_singleton ..⟩
    rw [mem_singleton.mp he]
    exact hne hl

/-- A sparse node with nothing but a child has what the child has. -/
theorem wrap_sound {es : List (K × V)} {child : TrieNode K V} {hash : Int}
    (level_le : keying.LawfulOn S → level ≤ lastLevel)
    (hslot : hashSlot hash (5 * level) = keying.slot level key)
    (hroute : ∀ e ∈ es, keying.slot level e.1 = keying.slot level key)
    (hsound : Sound keying S (level + 1) child)
    (hbinds : Binds keying key val es child.entries added) :
    Sound keying S level
        (.bitmap (hashBit hash (5 * level)) (.child child :: List.replicate pad .vacant)) ∧
      Binds keying key val es (TrieNode.bitmap (hashBit hash (5 * level))
        (.child child :: List.replicate pad .vacant)).entries added := by
  have hnode : TrieNode.bitmap (hashBit hash (5 * level))
      (.child child :: List.replicate pad .vacant) =
      .bitmap (2 ^ keying.slot level key)
        (slotsOf [(keying.slot level key, .child child)] pad) := by
    rw [hashBit_eq, hslot]
    rfl
  rw [hnode]
  refine ⟨(sparse_one (s := .child child) level_le (hashSlot_lt ..) (by simp)
    (hbinds.slot_eq hroute) fun n hn => ?_).sound pad, ?_⟩
  · cases hn
    exact hsound
  · rw [entries_sparse, tableEntries_cons, tableEntries_nil, append_nil]
    exact hbinds

/-- The keys below a node agree with a key in the bits of the hash that led to the node, and all of
them are of the class. -/
structure Stem (keying : Keying K V) (S : K → Prop) (level : Nat) (key : K) (es : List (K × V)) :
    Prop where
  self : S key
  keys : ∀ e ∈ es, S e.1
  agree : ∀ e ∈ es, Agree (5 * level) (keying.hash e.1) (keying.hash key)

theorem Stem.down {es' : List (K × V)} (h : Stem keying S level key es) (hes : ∀ e ∈ es', e ∈ es)
    (hslot : ∀ e ∈ es', keying.slot level e.1 = keying.slot level key) :
    Stem keying S (level + 1) key es' :=
  ⟨h.self, fun e he => h.keys e (hes e he), fun e he =>
    agree_succ.mpr ⟨h.agree e (hes e he), hslot e he⟩⟩

/-- Past the last bit the hashes are the same. -/
theorem Stem.hash_eq (h : Stem keying S level key es) (hl : keying.LawfulOn S)
    (hlast : lastLevel ≤ level) {e : K × V} (he : e ∈ es) : keying.hash e.1 = keying.hash key :=
  ((h.agree e he).mono (Nat.mul_le_mul_left 5 hlast)).eq (hl.hash_range _ (h.keys e he))
    (hl.hash_range _ h.self)

/-- A node for two keys that agree so far holds just these. It is refused only where the bits are
used up: as long as they are not, keys of different hashes part in time. -/
theorem join_cases {v : V} (hne : keying.eq key k = false) :
    ∀ fuel level, Stem keying S level key [(k, v)] → lastLevel < level + fuel →
      join keying fuel (5 * level) k v (keying.hash key) key val = .error .shiftExhausted ∧
        (keying.LawfulOn S → 64 < 5 * level) ∨
      ∃ node, join keying fuel (5 * level) k v (keying.hash key) key val = .ok node ∧
        ¬64 < 5 * level ∧ Sound keying S level node ∧
          Binds keying key val [(k, v)] node.entries true := by
  intro fuel
  induction fuel with
  | zero =>
    intro level _ hfuel
    refine .inl ⟨rfl, fun _ => ?_⟩
    unfold lastLevel at hfuel
    omega
  | succ fuel ih =>
    intro level hstem hfuel
    rw [join]
    by_cases hshift : 64 < 5 * level
    · exact .inl ⟨if_pos hshift, fun _ => hshift⟩
    rw [if_neg hshift]
    have hlevel (_ : keying.LawfulOn S) := le_of_not_shift_gt hshift
    have hle (hl : keying.LawfulOn S) := Nat.le_of_lt (hlevel hl)
    by_cases hhash : keying.hash k = keying.hash key
    · have hne' (hl : keying.LawfulOn S) : keying.eq k key = false :=
        (hl.eq_comm (hstem.keys _ mem_cons_self) hstem.self).trans hne
      refine .inr ⟨_, if_pos hhash, hshift, collide_sound v val hne' hhash hle, .added ?_⟩
      exact List.Perm.swap ..
    rw [if_neg hhash]
    by_cases hbit : hashBit (keying.hash k) (5 * level) = hashBit (keying.hash key) (5 * level)
    · -- the keys meet again one level further down
      rw [if_pos hbit]
      have hslot := hashBit_inj.mp hbit
      have hroute : ∀ e ∈ [(k, v)], keying.slot level e.1 = keying.slot level key :=
        fun e he => mem_singleton.mp he ▸ hslot
      have hstem' := hstem.down (fun _ he => he) hroute
      have hnext := ih (level + 1) hstem' (by omega)
      rw [Nat.mul_add_one] at hnext
      rcases hnext with ⟨hjoin, hdeep⟩ | ⟨child, hjoin, -, hsound, hbinds⟩
      · rw [hjoin]
        refine .inl ⟨rfl, fun hl => absurd ?_ hhash⟩
        exact hstem'.hash_eq hl (by have := hdeep hl; unfold lastLevel; omega) mem_cons_self
      · rw [hjoin]
        exact .inr ⟨_, rfl, hshift, wrap_sound _ hle hslot hroute hsound hbinds⟩
    · rw [if_neg hbit]
      have hslot : keying.slot level k ≠ keying.slot level key := fun h => hbit (hashBit_inj.mpr h)
      simp only [hashBit_eq]
      split
      · have hlt : 2 ^ keying.slot level k < 256 :=
          (narrow_two_pow (hashSlot_lt ..)).lt_of_bitCount_lt (by omega)
        have hpair := pair_sound v val hle hlt hslot
        simp only [Nat.pow_lt_pow_iff_right Nat.one_lt_two]
        split
        · next hjlt =>
          rw [if_pos hjlt] at hpair
          refine .inr ⟨_, rfl, hshift, hpair, .added ?_⟩
          exact List.Perm.swap ..
        · next hjge =>
          rw [if_neg hjge] at hpair
          refine .inr ⟨_, rfl, hshift, hpair, .added ?_⟩
          exact List.Perm.refl _
      · obtain ⟨children, hspread, hsound, hbinds⟩ := spread_insert 3
          (bitCount ((2 ^ keying.slot level k : Nat) : Int) + 1)
          [(keying.slot level k, .entry k v)]
          (fun k v => roomy (5 * level + 5) (keying.hash k) k v)
          (roomy (5 * level + 5) (keying.hash key) key val) (sparse_entry hle k v)
          (fun k v => entries_roomy ..) (fun k v => roomy_sound hlevel k v)
          (by rw [ones_two_pow (hashSlot_lt ..), mem_singleton]; exact hslot.symm)
          (entries_roomy ..) (roomy_sound hlevel key val)
        change spread _ _ _ [.entry k v, .vacant, .vacant, .vacant] = _ at hspread
        rw [hspread]
        exact .inr ⟨_, rfl, hshift, hsound, hbinds⟩

/-! ## Insertion -/

/-- A sparse node with something in another slot than that of the key is not at the last level,
where all keys have one hash. -/
theorem level_lt (hl : keying.LawfulOn S) (sound : SparseSound keying S level bits table)
    (hne : table ≠ []) (hstem : Stem keying S level key (tableEntries table))
    (hslot : ∀ e ∈ tableEntries table, keying.slot level e.1 ≠ keying.slot level key) :
    level < lastLevel := by
  obtain ⟨⟨j, s⟩, rest, rfl⟩ := exists_cons_of_ne_nil hne
  cases s with
  | vacant => exact absurd rfl (sound.full _ mem_cons_self)
  | child n => exact (sound.below j n mem_cons_self).level_le hl
  | entry k v =>
    refine Nat.lt_of_le_of_ne (sound.level_le hl) fun hlast => ?_
    have he : (k, v) ∈ tableEntries ((j, .entry k v) :: rest) := mem_cons_self
    exact hslot _ he (by rw [Keying.slot, hstem.hash_eq hl hlast.ge he])

/-- What inserting a key comes to: it fails for want of hash bits where the key is blocked, and
anywhere else it binds the key in a sound node. -/
def Inserts (keying : Keying K V) (S : K → Prop) (key : K) (val : V) (level : Nat)
    (es : List (K × V)) (blocked : Prop) (x : Except TrieFailure (TrieInsertion K V)) : Prop :=
  x = .error .shiftExhausted ∧ (keying.LawfulOn S → blocked) ∨ ∃ r, x = .ok r ∧ ¬blocked ∧
    Sound keying S level r.node ∧ Binds keying key val es r.node.entries r.added

/-- What is made of a node in which the key was bound. -/
theorem Inserts.bind_pure {level' : Nat} {p q : Prop}
    {x : Except TrieFailure (TrieInsertion K V)} {f : TrieInsertion K V → TrieInsertion K V}
    (h : Inserts keying S key val level es p x) (hpq : p ↔ q)
    (hf : ∀ r, Sound keying S level r.node → Binds keying key val es r.node.entries r.added →
      Sound keying S level' (f r).node ∧ Binds keying key val es' (f r).node.entries (f r).added) :
    Inserts keying S key val level' es' q (x >>= fun r => pure (f r)) := by
  rcases h with ⟨rfl, hp⟩ | ⟨r, rfl, hp, hsound, hbinds⟩
  · exact .inl ⟨rfl, fun hl => hpq.mp (hp hl)⟩
  · exact .inr ⟨f r, rfl, mt hpq.mpr hp, hf r hsound hbinds⟩

/-- What inserting into a node comes to. -/
def InsertsInto (keying : Keying K V) (S : K → Prop) (key : K) (val : V) (fuel level : Nat)
    (node : TrieNode K V) : Prop :=
  Inserts keying S key val level node.entries (Blocked keying key level node)
    (insert keying (keying.hash key) key val fuel (5 * level) node)

/-- What inserting with a bound on the levels does to sound nodes. -/
def InsertSpec (keying : Keying K V) (S : K → Prop) (key : K) (val : V) (fuel : Nat) : Prop :=
  ∀ (level : Nat) (node : TrieNode K V), Sound keying S level node →
    Stem keying S level key node.entries → lastLevel < level + fuel →
    InsertsInto keying S key val fuel level node

/-- Putting something else into a slot of a sparse node. -/
theorem sparse_replace {pad j : Nat}
    (sound : SparseSound keying S level bits (pre ++ (j, s) :: post))
    (hfull : s' ≠ .vacant) (hbelow : ∀ n, s' = .child n → Sound keying S (level + 1) n)
    (hroute : ∀ e ∈ s'.bindings, keying.slot level e.1 = j) :
    Sound keying S level (.bitmap bits (slotsOf (pre ++ (j, s') :: post) pad)) := by
  refine sound.change sound.narrow ?_ (fun c hc => ?_) pad
  · rw [← sound.bits_eq, map_append, map_append, map_cons, map_cons]
  · rw [mem_append, mem_cons] at hc ⊢
    rcases hc with hc | rfl | hc
    · exact .inl (.inl hc)
    · exact .inr ⟨hfull, hroute, hbelow⟩
    · exact .inl (.inr (.inr hc))

/-- Binding a key in the slot of its hash. -/
theorem sparse_set {pad : Nat}
    (sound : SparseSound keying S level bits (pre ++ (keying.slot level key, s) :: post))
    (hfull : s' ≠ .vacant) (hbelow : ∀ n, s' = .child n → Sound keying S (level + 1) n)
    (hbinds : Binds keying key val s.bindings s'.bindings added) :
    Sound keying S level (.bitmap bits
        ((slotsOf (pre ++ (keying.slot level key, s) :: post) pad).set pre.length s')) ∧
      Binds keying key val (tableEntries (pre ++ (keying.slot level key, s) :: post))
        (TrieNode.bitmap bits ((slotsOf (pre ++ (keying.slot level key, s) :: post) pad).set
          pre.length s')).entries added := by
  rw [slotsOf_set, entries_sparse]
  have hself : (keying.slot level key, s) ∈ pre ++ (keying.slot level key, s) :: post :=
    mem_append_cons_self
  constructor
  · exact sparse_replace sound hfull hbelow
      (hbinds.slot_eq (sound.route _ hself))
  · rw [tableEntries_append, tableEntries_append, tableEntries_cons, tableEntries_cons]
    exact hbinds.frame _ _

section Sparse

variable {fuel level bits : Nat} {table : List (Nat × TrieSlot K V)} (pad : Nat)
  (sound : SparseSound keying S level bits table)
  (hstem : Stem keying S level key (tableEntries table))

include sound hstem

/-- A key goes into the slot of its hash if that is free. -/
theorem insert_sparse_free (hfree : bits.testBit (keying.slot level key) = false) :
    InsertsInto keying S key val (fuel + 1) level (.bitmap bits (slotsOf table pad)) := by
  have hmem : keying.slot level key ∉ ones bits := fun hm => by
    have hset := (mem_ones.mp hm).2
    rw [hfree] at hset
    cases hset
  have hslot := sound.slot_ne hfree
  have hopen : ¬Blocked keying key level (.bitmap bits (slotsOf table pad)) := by
    rintro ⟨deep, k, hlone, -, hhash, -⟩
    obtain ⟨v, hv⟩ := hlone.mem_entries
    rw [entries_sparse] at hv
    exact hslot (k, v) hv (by rw [Keying.slot, Keying.slot, hhash])
  rw [InsertsInto, entries_sparse, insert]
  dsimp only
  rw [if_pos (and_hashBit_eq_zero.mpr hfree)]
  split
  · next hn =>
    -- the node counts as full and becomes dense
    have hne : table ≠ [] := by
      rintro rfl
      rw [eq_zero_of_ones sound.narrow.1 sound.bits_eq.symm] at hn
      exact absurd hn (by decide)
    have hlevel (hl : keying.LawfulOn S) := level_lt hl sound hne hstem hslot
    obtain ⟨children, hspread, hsound, hbinds⟩ := spread_insert pad (bitCount (bits : Int) + 1)
      table (fun k v => single (5 * level + 5) (keying.hash k) k v)
      (single (5 * level + 5) (keying.hash key) key val) sound (fun k v => entries_single ..)
      (fun k v => single_sound hlevel k v) hmem (entries_single ..) (single_sound hlevel key val)
    rw [hspread]
    exact .inr ⟨_, rfl, hopen, hsound, hbinds⟩
  · next hn =>
    -- only the lowest byte is in use, so the new bit keeps the bitmap narrow
    have hlt := sound.narrow.lt_of_bitCount_lt (by omega)
    obtain ⟨pre, post, rfl, hlen, hones⟩ := exists_gap hlt (hashSlot_lt ..) sound.bits_eq hfree
    rw [hashBit_eq, ← hlen, slotsOf_insert (j := keying.slot level key)]
    refine .inr ⟨_, rfl, hopen,
      sparse_insert pad pre post sound hlt hones, ?_⟩
    rw [entries_sparse]
    refine .added ?_
    rw [tableEntries_append, tableEntries_append, tableEntries_cons]
    exact perm_middle

/-- A key meets what is in the slot of its hash. -/
theorem insert_sparse_used (hfuel : lastLevel < level + (fuel + 1))
    (ih : InsertSpec keying S key val fuel) (hused : bits.testBit (keying.slot level key) = true) :
    InsertsInto keying S key val (fuel + 1) level (.bitmap bits (slotsOf table pad)) := by
  obtain ⟨pre, s, post, hself, rfl, hlen, hpre, hpost⟩ :=
    exists_slot sound.narrow sound.bits_eq (mem_ones.mpr ⟨hashSlot_lt .., hused⟩)
  have hstem' := hstem.down (fun e he => mem_flatMap.mpr ⟨_, hself, he⟩) (sound.route _ hself)
  have hlone (deep : Nat) (k : K) (hk : keying.hash k = keying.hash key) :=
    loneAt_sparse_iff deep bits pad (k := k) sound.route hpre hpost (by rw [Keying.slot, hk])
  rw [InsertsInto, entries_sparse, insert]
  rw [if_neg (and_hashBit_ne_zero hused), hashBit_eq, ← hlen, slotsOf_getElem?]
  cases s with
  | vacant => exact absurd rfl (sound.full _ hself)
  | child n =>
    refine Inserts.bind_pure (ih (level + 1) n (sound.below _ n hself) hstem' (by omega))
      (exists₂_congr fun deep k => and_congr_left fun hk => ?_)
      fun r hsound hbinds => sparse_set sound (by simp)
        (fun m hm => by cases hm; exact hsound) hbinds
    rw [hlone deep k hk.2.1]
    simp
  | entry k v =>
    -- the key in the slot is the only one that can be in the way
    have hblocked : Blocked keying key level (.bitmap bits
        (slotsOf (pre ++ (keying.slot level key, .entry k v) :: post) pad)) ↔
        64 < 5 * (level + 1) ∧ keying.hash k = keying.hash key ∧ keying.eq key k = false := by
      constructor
      · rintro ⟨deep, k', hk, hdeep, hhash, hne⟩
        rcases (hlone deep k' hhash).mp hk with ⟨v', hv, rfl⟩ | ⟨m, hm, -⟩
        · cases hv
          exact ⟨hdeep, hhash, hne⟩
        · cases hm
      · rintro ⟨hdeep, hhash, hne⟩
        exact ⟨level, k, (hlone level k hhash).mpr (.inl ⟨v, rfl, rfl⟩), hdeep, hhash, hne⟩
    dsimp only
    split
    · next heq =>
      refine .inr ⟨_, rfl, fun hb => ?_, sparse_set sound (by simp)
        (fun m hm => by cases hm) (.replaced (.inl heq) (.refl _) (.inl rfl) (.refl _))⟩
      rw [heq] at hblocked
      exact Bool.noConfusion (hblocked.mp hb).2.2
    · next hne =>
      have hne : keying.eq key k = false := by simpa using hne
      rcases join_cases hne fuel (level + 1) hstem' (by omega) with
        ⟨hjoin, hdeep⟩ | ⟨n, hjoin, hshort, hsound, hbinds⟩
      · rw [Nat.mul_add_one] at hjoin
        rw [hjoin]
        refine .inl ⟨rfl, fun hl => hblocked.mpr ⟨hdeep hl, ?_, hne⟩⟩
        exact hstem'.hash_eq hl (by have := hdeep hl; unfold lastLevel; omega) mem_cons_self
      · rw [Nat.mul_add_one] at hjoin
        rw [hjoin]
        exact .inr ⟨_, rfl, fun hb => hshort (hblocked.mp hb).1, sparse_set sound (by simp)
          (fun m hm => by cases hm; exact hsound) hbinds⟩

end Sparse

/-- Inserting into a dense node, given what inserting into the nodes below does. -/
theorem insert_dense {fuel : Nat} {count : Int}
    (sound : DenseSound keying S level children) (occupied : ∃ n, some n ∈ children)
    (hstem : Stem keying S level key (children.flatMap childBindings))
    (hfuel : lastLevel < level + (fuel + 1)) (ih : InsertSpec keying S key val fuel) :
    InsertsInto keying S key val (fuel + 1) level (.array count children) := by
  have hj : keying.slot level key < children.length := sound.width ▸ hashSlot_lt ..
  have hget := getElem?_eq_getElem hj
  have hmem := getElem_mem hj
  generalize children[keying.slot level key] = c at hget hmem
  have hlone (deep : Nat) (k : K) (hk : keying.hash k = keying.hash key) :=
    loneAt_dense_iff deep count (k := k) sound (by rw [Keying.slot, hk]; exact hget)
  rw [InsertsInto, entries_dense, insert]
  rw [hget]
  cases c with
  | none =>
    obtain ⟨other, hother⟩ := occupied
    refine .inr ⟨_, rfl, ?_, sound_set sound (hashSlot_lt ..) (fun e he => ?_)
      (single_sound (sound.below other hother).level_le key val), ?_⟩
    · rintro ⟨deep, k, hk, -, hhash, -⟩
      obtain ⟨n, hn, -⟩ := (hlone deep k hhash).mp hk
      cases hn
    · rw [mem_singleton.mp he]
    · rw [entries_dense]
      refine binds_set hget ?_
      exact binds_nil key val
  | some n =>
    have hroute := sound.route _ _ hget
    have hstem' := hstem.down (fun e he => mem_flatMap.mpr ⟨_, hmem, he⟩) hroute
    refine Inserts.bind_pure (ih (level + 1) n (sound.below n hmem) hstem' (by omega))
      (exists₂_congr fun deep k => and_congr_left fun hk => ?_)
      fun r hsound hbinds => ⟨sound_set sound (hashSlot_lt ..)
        (hbinds.slot_eq hroute) hsound, ?_⟩
    · rw [hlone deep k hk.2.1]
      simp
    · rw [entries_dense]
      exact binds_set hget hbinds

/-- A collision node takes in every key of its hash. -/
theorem insert_collision (val : V) (fuel : Nat) (level_le : keying.LawfulOn S → level ≤ lastLevel)
    (two_le : 2 ≤ pairs.length) (hash_own : ∀ e ∈ pairs, keying.hash e.1 = keying.hash key)
    (distinct : keying.LawfulOn S → Distinct keying pairs) :
    ∃ r, insert keying (keying.hash key) key val (fuel + 1) (5 * level)
        (bucket (keying.hash key) pairs) = .ok r ∧
      Sound keying S level r.node ∧ Binds keying key val pairs r.node.entries r.added := by
  rw [insert, if_pos rfl, collisionIndex_eq]
  cases hidx : pairs.findIdx? fun e => keying.eq e.1 key with
  | none =>
    have hnode : TrieNode.collision (keying.hash key) (pairs.length + 1)
        ((pairs.map fun e => .entry e.1 e.2) ++ [.entry key val]) =
        bucket (keying.hash key) (pairs ++ [(key, val)]) := by simp [bucket]
    refine ⟨_, rfl, ?_⟩
    rw [hnode, entries_collision]
    refine ⟨.collision level_le (by simp; omega) (fun e he => ?_) fun hl => ?_, .added ?_⟩
    · rcases mem_append.mp he with he | he
      · exact hash_own e he
      · rw [mem_singleton.mp he]
    · refine pairwise_append.mpr ⟨distinct hl, pairwise_singleton .., fun a ha b hb => ?_⟩
      rw [mem_singleton.mp hb]
      exact findIdx?_eq_none_iff.mp hidx a ha
    · exact perm_append_comm
  | some i =>
    obtain ⟨hi, heq, -⟩ := findIdx?_eq_some_iff_getElem.mp hidx
    have hperm : pairs.Perm (pairs[i] :: pairs.eraseIdx i) := (getElem_cons_eraseIdx_perm hi).symm
    dsimp only [Option.map_some, bind, Except.bind]
    rw [getElem?_collision hi]
    dsimp only
    split
    · next hval =>
      refine ⟨_, rfl, .collision level_le two_le hash_own distinct, ?_⟩
      rw [entries_collision]
      exact .replaced (.inr heq) hperm (.inr (.inl hval)) hperm
    · have hnode : TrieNode.collision (keying.hash key) pairs.length
          ((pairs.map fun e => .entry e.1 e.2).set (0 + i) (.entry pairs[i].1 val)) =
          bucket (keying.hash key) (pairs.set i (pairs[i].1, val)) := by
        rw [bucket, length_set, map_set, Nat.zero_add]
      refine ⟨_, rfl, ?_⟩
      rw [hnode, entries_collision]
      refine ⟨.collision level_le (by rwa [length_set]) (fun e he => ?_)
          fun hl => (distinct hl).set hi val,
        .replaced (.inr heq) hperm (.inl rfl) (set_perm_cons_eraseIdx hi _)⟩
      rcases mem_or_eq_of_mem_set he with he | rfl
      · exact hash_own e he
      · exact hash_own pairs[i] (getElem_mem hi)

/-- A collision node that meets another hash goes below a sparse node. -/
theorem insert_collision_eq {fuel count shift : Nat} {hash own : Int} {slots : List (TrieSlot K V)}
    (hne : hash ≠ own) :
    insert keying hash key val (fuel + 1) shift (.collision own count slots) =
      insert keying hash key val (fuel + 1) shift
        (.bitmap (hashBit own shift) [.child (.collision own count slots)]) := by
  conv_lhs => rw [insert, if_neg hne]
  conv_rhs => rw [insert]
  by_cases hslot : hashSlot hash shift = hashSlot own shift
  · have hindex : slotIndex (hashBit own shift) (hashBit own shift) = 0 := by
      rw [hashBit_eq, slotIndex_eq (by rw [Nat.mod_self]; decide), ones_two_pow (hashSlot_lt ..)]
      simp
    have hbit : hashBit hash shift = hashBit own shift := hashBit_inj.mpr hslot
    have hand : hashBit own shift &&& hashBit own shift ≠ 0 := by
      rw [Nat.and_self, hashBit_eq]
      exact Nat.ne_of_gt (Nat.two_pow_pos _)
    simp only [hbit, if_pos, if_neg hand, hindex]
    rfl
  · have hbit : hashBit hash shift ≠ hashBit own shift := fun h => hslot (hashBit_inj.mp h)
    have hand : hashBit own shift &&& hashBit hash shift = 0 := by
      rw [and_hashBit_eq_zero, hashBit_eq]
      exact Nat.testBit_two_pow_of_ne (Ne.symm hslot)
    rw [if_neg hbit, if_pos hand]

theorem entries_child (bits : Nat) (n : TrieNode K V) :
    (TrieNode.bitmap bits [.child n]).entries = n.entries := by
  simp [entries, slotEntries]

/-- The sparse node is sound, because keys of different hashes do not meet at the last level. -/
theorem collision_below_sound {own : Int} (level_le : keying.LawfulOn S → level ≤ lastLevel)
    (two_le : 2 ≤ pairs.length) (hash_own : ∀ e ∈ pairs, keying.hash e.1 = own)
    (distinct : keying.LawfulOn S → Distinct keying pairs)
    (hstem : Stem keying S level key pairs) (hown : keying.hash key ≠ own) :
    Sound keying S level (.bitmap (hashBit own (5 * level)) [.child (bucket own pairs)]) := by
  have hlevel (hl : keying.LawfulOn S) : level < lastLevel := by
    refine Nat.lt_of_le_of_ne (level_le hl) fun hlast => hown ?_
    obtain ⟨e, he⟩ := exists_mem_of_length_pos (Nat.lt_of_lt_of_le Nat.two_pos two_le)
    rw [← hash_own e he, hstem.hash_eq hl hlast.ge he]
  rw [hashBit_eq]
  refine (sparse_one (s := .child _) level_le (hashSlot_lt ..) (fun h => nomatch h) (fun e he => ?_)
    fun n hn => ?_).sound 0
  · rw [Keying.slot, hash_own e (entries_collision own pairs ▸ he)]
  · cases hn
    exact .collision hlevel two_le hash_own distinct

/-- Inserting into a sound node fails just when a key stands in the way, and otherwise binds the key
and gives a sound node. -/
theorem insert_spec (key : K) (val : V) : ∀ fuel, InsertSpec keying S key val fuel := by
  intro fuel
  induction fuel with
  | zero =>
    intro level node hsound _ hfuel
    exact .inl ⟨rfl, fun hl => absurd (hsound.level_le hl) (by omega)⟩
  | succ fuel ih =>
    intro level node hsound hstem hfuel
    -- collision nodes come back to sparse ones
    have hsparse : ∀ bits slots, Sound keying S level (.bitmap bits slots) →
        Stem keying S level key (TrieNode.bitmap bits slots).entries →
        InsertsInto keying S key val (fuel + 1) level (.bitmap bits slots) := by
      intro bits slots hsound hstem
      cases hsound with
      | sparse level_le narrow bits_eq full route below =>
        rw [entries_sparse] at hstem
        have sound : SparseSound .. := ⟨level_le, narrow, bits_eq, full, route, below⟩
        cases hbit : bits.testBit (keying.slot level key) with
        | false => exact insert_sparse_free _ sound hstem hbit
        | true => exact insert_sparse_used _ sound hstem hfuel ih hbit
    cases hsound with
    | sparse level_le narrow bits_eq full route below =>
      exact hsparse _ _ (.sparse level_le narrow bits_eq full route below) hstem
    | dense level_le width occupied route below =>
      rw [entries_dense] at hstem
      exact insert_dense ⟨level_le, width, route, below⟩ occupied hstem hfuel ih
    | @collision _ own pairs level_le two_le hash_own distinct =>
      -- keys of one hash are never alone
      have hopen : ¬Blocked keying key level (bucket own pairs) := by
        rintro ⟨deep, k, hk, -⟩
        cases hk
      by_cases hown : keying.hash key = own
      · subst hown
        rw [InsertsInto, entries_collision]
        obtain ⟨r, hr, hbound⟩ := insert_collision val fuel level_le two_le hash_own distinct
        exact .inr ⟨r, hr, hopen, hbound⟩
      · rw [InsertsInto, insert_collision_eq hown]
        rw [← entries_child (hashBit own (5 * level))] at hstem ⊢
        have hbelow := hstem
        rw [entries_child, entries_collision] at hbelow
        rcases hsparse _ _ (collision_below_sound level_le two_le hash_own distinct hbelow hown)
          hstem with ⟨hr, hblocked⟩ | ⟨r, hr, -, hbound⟩
        · refine .inl ⟨hr, fun hl => ?_⟩
          obtain ⟨deep, k, hk, -⟩ := hblocked hl
          cases hk with
          | here mem => cases mem_singleton.mp mem
          | sparse mem below =>
            cases mem_singleton.mp mem
            cases below
        · exact .inr ⟨r, hr, hopen, hbound⟩

/-! ## Where slots stand -/

/-- A node is part of a trie. -/
inductive Has (n : TrieNode K V) : TrieNode K V → Prop where
  | self : Has n n
  | sparse {bits : Nat} {slots : List (TrieSlot K V)} {m : TrieNode K V} (mem : .child m ∈ slots)
      (below : Has n m) : Has n (.bitmap bits slots)
  | dense {count : Int} {children : List (Option (TrieNode K V))} {m : TrieNode K V}
      (mem : some m ∈ children) (below : Has n m) : Has n (.array count children)
  | collision {own : Int} {count : Nat} {slots : List (TrieSlot K V)} {m : TrieNode K V}
      (mem : .child m ∈ slots) (below : Has n m) : Has n (.collision own count slots)

/-- The nodes of a sound trie are sound. -/
theorem Has.sound {n root : TrieNode K V} (h : Has n root) :
    ∀ {level}, Sound keying S level root → ∃ level, Sound keying S level n := by
  induction h with
  | self => exact fun hroot => ⟨_, hroot⟩
  | sparse mem _ ih =>
    intro level hroot
    cases hroot with
    | sparse _ _ _ _ _ below =>
      obtain ⟨j, hj⟩ := (mem_slotsOf (by simp)).mp mem
      exact ih (below j _ hj)
  | dense mem _ ih =>
    intro level hroot
    cases hroot with
    | dense _ _ _ _ below => exact ih (below _ mem)
  | collision mem _ _ =>
    intro level hroot
    cases hroot with
    | collision =>
      obtain ⟨e, -, he⟩ := mem_map.mp mem
      cases he

/-- A binding whose bit is not set goes to the rank of the bit, or the node becomes dense and keeps
its bindings. -/
def TakesByRank (keying : Keying K V) (bits : Nat) (slots : List (TrieSlot K V)) : Prop :=
  ∀ (key : K) (val : V) (fuel level : Nat), bits.testBit (keying.slot level key) = false →
    let rank := ((ones bits).filter (· < keying.slot level key)).length
    ∃ n, insert keying (keying.hash key) key val (fuel + 1) (5 * level) (.bitmap bits slots) =
        .ok ⟨n, true⟩ ∧
      (n = .bitmap (bits ||| 2 ^ keying.slot level key)
          (slots.take rank ++ [.entry key val] ++ slots.drop rank) ∨
        ∃ count children, n = .array count children ∧
          n.entries.Perm ((key, val) :: (TrieNode.bitmap bits slots).entries))

theorem takesByRank (narrow : Narrow bits) (bits_eq : table.map Prod.fst = ones bits) :
    TakesByRank keying bits (slotsOf table pad) := by
  intro key val fuel level hfree rank
  rw [insert]
  dsimp only
  rw [if_pos (and_hashBit_eq_zero.mpr hfree)]
  split
  · have hfree' : keying.slot level key ∉ ones bits := by simp [mem_ones, hfree]
    obtain ⟨children, hspread, -, hentries, -, hnone, -⟩ :=
      spread_range (fun k v => entries_single (5 * level + 5) (keying.hash k) k v) pad bits_eq
    rw [hspread]
    refine ⟨_, rfl, .inr ⟨_, _, rfl, ?_⟩⟩
    obtain ⟨pre, post, rfl, hlen⟩ := exists_child (hnone _ (hashSlot_lt ..) hfree')
    rw [entries_dense, entries_sparse, ← hentries, ← hlen]
    simp [childBindings, perm_middle]
  · next hfew =>
    have hlow : bits % 2 ^ keying.slot level key < 256 :=
      Nat.lt_of_le_of_lt (Nat.mod_le ..) (narrow.lt_of_bitCount_lt (by omega))
    rw [hashBit_eq, slotIndex_eq hlow]
    exact ⟨_, rfl, .inl rfl⟩

end TrieNode

end HostedLisp.Coll
