import HostedLisp.Equality
import HostedLisp.Proofs.Coll.HashTrieErase

/-!
# Taking a key out of a hash map

A map that insertions and removals have made loses the binding of a key and nothing else. Its count
goes down when a binding was there, and also when none was and the search for the key went through a
dense node. From then on the count is one less than the number of bindings. A key whose hash another
bound key has cannot be removed.

- `HashMap.SharesHash`, `HashMap.Stray`: the two cases.
- `HashMap.Erases`: the outcomes of removing a key from a map, with `HashMap.Sound.erase`.
- `HashMap.Reachable`: the maps that insertions and removals make, with the number of removals that
  lowered the count for nothing.
- `HashMap.Reachable.slots_addressed`: slots are found where they stand in such a map.
- `Value.hashMap_erase`: what removal does to it.
-/

namespace HostedLisp.Coll

open TrieNode List

variable {K V : Type} {keying : Keying K V} {key : K}

namespace HashMap

/-! ## Removing a key from a map -/

/-- The key is bound, and so is another one of its hash. -/
def SharesHash (keying : Keying K V) (m : HashMap K V) (key : K) : Prop :=
  keying.isNil key = false ∧ (∃ e ∈ m.nodeEntries, keying.eq key e.1 = true) ∧
    ∃ d ∈ m.nodeEntries, keying.hash d.1 = keying.hash key ∧ keying.eq key d.1 = false

/-- The key is not bound, and the search for it goes through a dense node. -/
def Stray (keying : Keying K V) (m : HashMap K V) (key : K) : Prop :=
  keying.isNil key = false ∧ Fresh keying key m.nodeEntries ∧
    ∃ root, m.root = some root ∧ root.MeetsDense (keying.hash key) 0

/-- The outcomes of removing a key from a map. What they say of the key holds if keys are lawful. -/
inductive Erases (keying : Keying K V) (nilKey key : K) (m : HashMap K V) :
    Except TrieFailure (HashMap K V) → Prop where
  | absent (fresh : keying.Lawful → Fresh keying.strict key (m.bindings nilKey))
      (tidy : ¬m.Stray keying key) : Erases keying nilKey key m (.ok m)
  | stray (fresh : keying.Lawful → Fresh keying.strict key (m.bindings nilKey))
      (stray : keying.Lawful → m.Stray keying key) :
      Erases keying nilKey key m (.ok { m with count := m.count - 1 })
  | failed {failure : TrieFailure}
      (shared : keying.Lawful → failure = .collisionRemoval ∧ m.SharesHash keying key) :
      Erases keying nilKey key m (.error failure)
  | removed {m' : HashMap K V} {e : K × V} (sound : m'.Sound keying ⊤ nilKey)
      (count : m'.count = m.count - 1) (found : keying.strict.eq key e.1 = true)
      (perm : (m.bindings nilKey).Perm (e :: m'.bindings nilKey))
      (alone : ¬m.SharesHash keying key) : Erases keying nilKey key m (.ok m')

variable {nilKey : K} {m m' : HashMap K V}

section

variable (hl : keying.Lawful) (hnil : ∀ k, keying.isNil k = true ↔ k = nilKey)
  (h : m.Sound keying ⊤ nilKey)

include hnil h

theorem Sound.erase_nil (hkey : keying.isNil key = true) :
    Erases keying nilKey key m (m.erase keying key) := by
  have hcount := h.count
  unfold HashMap.erase
  rw [if_pos hkey]
  unfold bindings at hcount
  cases hval : m.nilValue with
  | none =>
    refine .absent (fun _ => ?_) fun hstray => ?_
    · unfold bindings
      rw [hval]
      exact h.fresh_nil hkey
    · cases hkey.symm.trans hstray.1
  | some v =>
    rw [hval] at hcount
    refine .removed (e := (nilKey, v)) ⟨h.root, h.nodes, fun _ _ => trivial, fun hl => ?_⟩ rfl
      ((Keying.strict_eq_of_nil hkey _).trans ((hnil _).mpr rfl)) ?_ fun hshares => ?_
    · have hcount' : m.count = m.nodeEntries.length + 1 := hcount hl
      show m.count - 1 = (m.nodeEntries.length : Int)
      omega
    · unfold bindings
      rw [hval]
      exact .refl _
    · cases hkey.symm.trans hshares.1

/-- A key other than nil that no node has is not bound. -/
theorem Sound.fresh_bindings (hkey : keying.isNil key = false)
    (fresh : Fresh keying key m.nodeEntries) : Fresh keying.strict key (m.bindings nilKey) := by
  refine fresh_append.mpr ⟨fun e he => ?_, (fresh_strict h.nodes hkey).mpr fresh⟩
  obtain ⟨v, -, rfl⟩ := mem_map.mp he
  simp [Keying.strict, Keying.sameKey, hkey, (hnil nilKey).mpr rfl]

/-- Removing a key other than nil goes to the nodes. -/
theorem Sound.erase_node (hkey : keying.isNil key = false) :
    Erases keying nilKey key m (m.erase keying key) := by
  have hfresh := h.fresh_bindings hnil hkey
  unfold HashMap.erase
  rw [if_neg (by simp [hkey])]
  cases hroot : m.root with
  | none =>
    have hentries : m.nodeEntries = [] := by
      unfold nodeEntries
      rw [hroot]
    refine .absent (fun _ => hfresh ?_) fun hstray => ?_
    · rw [hentries]
      exact fun e he => by cases he
    · obtain ⟨-, -, root, hr, -⟩ := hstray
      cases hroot.symm.trans hr
  | some n =>
    have hentries : m.nodeEntries = n.entries := by
      unfold nodeEntries
      rw [hroot]
    have hremoves := erase_removes key maxLevels 0 n (h.root n hroot) (by decide)
    dsimp only
    generalize n.erase keying (keying.hash key) key maxLevels 0 = outcome at hremoves ⊢
    cases hremoves with
    | failed shared =>
      rw [← hentries] at shared
      exact .failed fun hl => ⟨(shared hl).1, hkey, (shared hl).2⟩
    | absent fresh plain =>
      refine .absent (fun hl => hfresh (hentries ▸ fresh hl)) fun hstray => ?_
      obtain ⟨-, -, root, hr, hdense⟩ := hstray
      cases hroot.symm.trans hr
      exact plain hdense
    | stray fresh dense =>
      have hsame : { m with count := m.count - 1, root := some n } =
          { m with count := m.count - 1 } := by rw [← hroot]
      show Erases keying nilKey key m (.ok { m with count := m.count - 1, root := some n })
      rw [hsame]
      exact .stray (fun hl => hfresh (hentries ▸ fresh hl))
        fun hl => ⟨hkey, hentries ▸ fresh hl, n, hroot, dense⟩
    | @removed n' e sound found perm alone =>
      have hnode (d : K × V) (hd : d ∈ e :: n'.entries) : keying.isNil d.1 = false :=
        h.nodes d (hentries ▸ perm.mem_iff.mpr hd)
      have hperm : (m.bindings nilKey).Perm
          (e :: (m.nilValue.toList.map (nilKey, ·) ++ n'.entries)) := by
        unfold bindings
        rw [hentries]
        exact (perm.append_left _).trans perm_middle
      refine .removed (e := e) ⟨fun r hr => ?_, fun d hd => hnode d (mem_cons_of_mem _ hd),
        fun _ _ => trivial, fun hl => ?_⟩ rfl ?_ hperm ?_
      · cases hr
        exact sound
      · show m.count - 1 = ((m.nilValue.toList.map (nilKey, ·) ++ n'.entries).length : Int)
        rw [h.count hl, hperm.length_eq, length_cons]
        omega
      · rw [Keying.strict_eq_of_not_nil hkey (hnode e mem_cons_self)]
        exact found
      · rintro ⟨-, -, d, hd, hhash, hne⟩
        rw [hentries] at hd
        rcases mem_cons.mp (perm.mem_iff.mp hd) with rfl | hd
        · cases hne.symm.trans found
        · exact alone d hd hhash

theorem Sound.erase (key : K) : Erases keying nilKey key m (m.erase keying key) := by
  cases hkey : keying.isNil key with
  | true => exact h.erase_nil hnil hkey
  | false => exact h.erase_node hnil hkey

/-! ## What the outcomes mean -/

omit hnil in
/-- A bound key of a node is a bound key of the map. -/
theorem not_fresh_of_sharesHash (hshares : m.SharesHash keying key) :
    ¬Fresh keying.strict key (m.bindings nilKey) := by
  obtain ⟨hkey, ⟨e, he, heq⟩, -⟩ := hshares
  intro hfresh
  have hne := hfresh e (mem_append_right _ he)
  rw [Keying.strict_eq_of_not_nil hkey (h.nodes e he)] at hne
  cases hne.symm.trans heq

include hl

omit hnil in
theorem Erases.error_iff {r : Except TrieFailure (HashMap K V)}
    (he : Erases keying nilKey key m r) (failure : TrieFailure) :
    r = .error failure ↔ failure = .collisionRemoval ∧ m.SharesHash keying key := by
  cases he with
  | absent fresh | stray fresh =>
    exact iff_of_false (fun hr => by cases hr) fun hr => not_fresh_of_sharesHash h hr.2 (fresh hl)
  | failed shared =>
    obtain ⟨rfl, shares⟩ := shared hl
    rw [Except.error.injEq, eq_comm]
    exact ⟨fun hr => ⟨hr, shares⟩, fun hr => hr.1⟩
  | removed _ _ _ _ alone => exact iff_of_false (fun hr => by cases hr) fun hr => alone hr.2

/-- After a removal a key is not found, and all others are found as before. -/
theorem Erases.find?_eq (he : Erases keying nilKey key m (.ok m')) (j : K) :
    m'.find? keying j = if keying.sameKey key j then .ok none else m.find? keying j := by
  have hs : keying.strict.Lawful := hl.strict hnil
  -- where the key is not bound, no key that counts as it is
  have habsent (fresh : Fresh keying.strict key (m.bindings nilKey)) :
      m.find? keying j = if keying.sameKey key j then .ok none else m.find? keying j := by
    cases hj : keying.sameKey key j with
    | false => rfl
    | true =>
      rw [if_pos rfl, h.find?_lookup hl hnil, lookup_of_fresh]
      intro e hmem
      rw [← hs.eq_congr hj]
      exact fresh e hmem
  cases he with
  | absent fresh | stray fresh => exact habsent (fresh hl)
  | @removed _ e sound _ found perm _ =>
    have hd := h.distinct hl.on hnil
    have hd' := (Distinct.perm hs perm).mp hd
    rw [sound.find?_lookup hl hnil, h.find?_lookup hl hnil, lookup_perm hs hd perm]
    cases hj : keying.sameKey key j with
    | true =>
      rw [if_pos rfl, lookup_of_fresh]
      intro d hmem
      rw [← hs.eq_congr hj, hs.eq_congr found]
      exact (pairwise_cons.mp hd').1 d hmem
    | false =>
      have hne : keying.strict.eq j e.1 = false := by
        rw [hs.eq_comm, ← hs.eq_congr found]
        exact hj
      rw [if_neg Bool.false_ne_true, lookup_cons, hne]
      rfl

theorem Erases.count_eq (he : Erases keying nilKey key m (.ok m')) :
    (m.find? keying key = .ok none → ¬m.Stray keying key → m'.count = m.count) ∧
      (m.find? keying key ≠ .ok none ∨ m.Stray keying key → m'.count = m.count - 1) := by
  have hs : keying.strict.Lawful := hl.strict hnil
  have hunbound (fresh : Fresh keying.strict key (m.bindings nilKey)) :
      m.find? keying key = .ok none := by
    rw [h.find?_lookup hl hnil, lookup_of_fresh fresh]
  cases he with
  | absent fresh tidy =>
    refine ⟨fun _ _ => rfl, ?_⟩
    rintro (hbound | hstray)
    · exact absurd (hunbound (fresh hl)) hbound
    · exact absurd hstray tidy
  | stray fresh hstray => exact ⟨fun _ htidy => absurd (hstray hl) htidy, fun _ => rfl⟩
  | @removed _ e _ count found perm _ =>
    refine ⟨fun hnone _ => ?_, fun _ => count⟩
    rw [h.find?_lookup hl hnil, lookup_perm hs (h.distinct hl.on hnil) perm, lookup_cons,
      found] at hnone
    cases hnone

end

/-! ## Maps with a count that is too low -/

/-- The map with something added to its count. -/
def recount (m : HashMap K V) (c : Int) : HashMap K V := { m with count := m.count + c }

theorem insert_recount (m : HashMap K V) (c : Int) (key : K) (val : V) :
    (m.recount c).insert keying key val = (m.insert keying key val).map (·.recount c) := by
  obtain ⟨count, root, nilValue⟩ := m
  unfold HashMap.insert recount
  cases keying.isNil key with
  | true =>
    rw [if_pos rfl, if_pos rfl]
    cases nilValue with
    | none =>
      show Except.ok _ = Except.ok _
      simp only [Int.add_right_comm]
    | some old =>
      dsimp only
      split <;> rfl
  | false =>
    cases (root.getD .empty).insert keying (keying.hash key) key val maxLevels 0 with
    | error e => rfl
    | ok r =>
      show Except.ok _ = Except.ok _
      cases r.added with
      | false => rfl
      | true => simp only [if_pos, Int.add_right_comm]

theorem erase_recount (m : HashMap K V) (c : Int) (key : K) :
    (m.recount c).erase keying key = (m.erase keying key).map (·.recount c) := by
  obtain ⟨count, root, nilValue⟩ := m
  have hcount : count + c - 1 = count - 1 + c := by omega
  unfold HashMap.erase recount
  cases keying.isNil key with
  | true =>
    cases nilValue with
    | none => rfl
    | some v =>
      rw [hcount]
      rfl
  | false =>
    cases root with
    | none => rfl
    | some root =>
      dsimp only
      cases root.erase keying (keying.hash key) key maxLevels 0 with
      | error e => rfl
      | ok removal =>
        cases removal with
        | unchanged => rfl
        | changed n =>
          show Except.ok _ = Except.ok _
          rw [hcount]
        | gone =>
          show Except.ok _ = Except.ok _
          rw [hcount]

theorem recount_recount (m : HashMap K V) (a b : Int) :
    (m.recount a).recount b = m.recount (a + b) := by
  simp [recount, Int.add_assoc]

theorem Sound.erase_recount (hnil : ∀ k, keying.isNil k = true ↔ k = nilKey) {c : Int}
    (h : (m.recount c).Sound keying ⊤ nilKey) (hm' : m.erase keying key = .ok m') :
    Erases keying nilKey key (m.recount c) (.ok (m'.recount c)) := by
  have herases := h.erase hnil key
  rw [HashMap.erase_recount, hm'] at herases
  exact herases

/-- The maps that insertions and removals make of the empty one, with the number of removals that
lowered the count though the key was not bound. -/
inductive Reachable (keying : Keying K V) : HashMap K V → Nat → Prop where
  | empty : Reachable keying .empty 0
  | insert {m m' : HashMap K V} {strays : Nat} {key : K} {val : V}
    (reach : Reachable keying m strays)
      (step : m.insert keying key val = .ok m') : Reachable keying m' strays
  | erase {m m' : HashMap K V} {strays : Nat} {key : K} (reach : Reachable keying m strays)
      (tidy : ¬m.Stray keying key) (step : m.erase keying key = .ok m') : Reachable keying m' strays
  | eraseStray {m m' : HashMap K V} {strays : Nat} {key : K} (reach : Reachable keying m strays)
      (stray : m.Stray keying key) (step : m.erase keying key = .ok m') :
      Reachable keying m' (strays + 1)

/-- Insertions alone leave no stray removals. -/
theorem Reachable.insertAll {calls : List (K × V)} {strays : Nat} (h : Reachable keying m strays)
    (hins : m.insertAll keying calls = .ok m') : Reachable keying m' strays := by
  induction calls generalizing m with
  | nil =>
    cases hins
    exact h
  | cons c calls ih =>
    unfold HashMap.insertAll at hins
    rw [foldlM_cons] at hins
    obtain ⟨m₁, hone, hins⟩ := bind_eq_ok hins
    exact ih (h.insert hone) hins

/-- A reachable map is sound but for its count, which lacks the stray removals. -/
theorem Reachable.sound (hnil : ∀ k, keying.isNil k = true ↔ k = nilKey)
    {strays : Nat} (h : Reachable keying m strays) : (m.recount strays).Sound keying ⊤ nilKey := by
  induction h with
  | empty => exact sound_empty keying ⊤ nilKey
  | @insert m m' strays key val _ step ih =>
    have hins : (m.recount strays).insert keying key val = _ := insert_recount m strays key val
    rw [step] at hins
    exact (ih.insert hnil trivial hins).1
  | @erase m m' strays key _ tidy step ih =>
    have herases := ih.erase_recount hnil step
    generalize m'.recount strays = after at herases ⊢
    cases herases with
    | absent _ _ => exact ih
    | stray _ stray => exact ⟨ih.root, ih.nodes, ih.keys, fun hl => absurd (stray hl.lawful) tidy⟩
    | removed sound _ _ _ _ => exact sound
  | @eraseStray m m' strays key _ stray step ih =>
    have herases := ih.erase_recount hnil step
    have hfresh := ih.fresh_bindings hnil stray.1 stray.2.1
    rw [Int.natCast_succ, ← recount_recount]
    generalize m'.recount strays = after at herases ⊢
    cases herases with
    | absent _ tidy => exact absurd stray tidy
    | stray _ _ =>
      -- putting the count right takes the step back
      have hback : ({ m.recount strays with count := (m.recount strays).count - 1 } :
          HashMap K V).recount 1 = m.recount strays := by simp [recount]
      rw [hback]
      exact ih
    | @removed _ e _ _ found perm _ =>
      have hne := hfresh e (perm.mem_iff.mpr mem_cons_self)
      cases hne.symm.trans found

/-- **Slots are found where they stand.** Take any map that insertions and removals make of the
empty one, whatever its hashes and comparisons are, and any sparse node in it. The node has at most
one set bit beyond its lowest byte. Every set bit has as many set bits below it as its index says,
and its slot is one of the node's. A key whose bit is not set goes to the rank of the bit, or the
node becomes a dense one with the same bindings and the new one. -/
theorem Reachable.slots_addressed (hnil : ∀ k, keying.isNil k = true ↔ k = nilKey)
    {strays : Nat} (h : Reachable keying m strays) {root : TrieNode K V}
    (hroot : m.root = some root)
    {bits : Nat} {slots : List (TrieSlot K V)} (hhas : TrieNode.Has (.bitmap bits slots) root) :
    (bits < 2 ^ 32 ∧ ∀ i ∈ ones bits, ∀ j ∈ ones bits, 8 ≤ i → 8 ≤ j → i = j) ∧
    (∀ j ∈ ones bits, TrieNode.slotIndex bits (2 ^ j) = ((ones bits).filter (· < j)).length ∧
      TrieNode.slotIndex bits (2 ^ j) < slots.length) ∧
    TrieNode.TakesByRank keying bits slots := by
  obtain ⟨level, hsound⟩ := hhas.sound ((h.sound hnil).root root hroot)
  cases hsound with
  | @sparse _ _ pad table _ narrow bits_eq _ _ _ =>
    refine ⟨⟨narrow.1, fun i hi j hj hi8 hj8 => ?_⟩, fun j hj =>
      ⟨slotIndex_eq (narrow.mod_lt hj), ?_⟩, TrieNode.takesByRank pad narrow bits_eq⟩
    · have hlow := narrow.2 i hi j hj
      have hlow' := narrow.2 j hj i hi
      omega
    · obtain ⟨pre, s, post, -, rfl, hlen, -⟩ := TrieNode.exists_slot narrow bits_eq hj
      simp [← hlen, TrieNode.slotsOf]

/-- A map of 1, 2 and 9, whose bits are set in one node, and the rank of each. -/
theorem Reachable.slots_addressed_three :
    ∃ m root slots, Reachable Value.keying m 0 ∧ m.root = some root ∧
      TrieNode.Has (.bitmap (2 ^ 1 + 2 ^ 2 + 2 ^ 9) slots) root ∧ slots.length = 3 ∧
      ones (2 ^ 1 + 2 ^ 2 + 2 ^ 9) = [1, 2, 9] ∧
      ∀ j ∈ [1, 2, 9], TrieNode.slotIndex (2 ^ 1 + 2 ^ 2 + 2 ^ 9) (2 ^ j) =
        ([1, 2, 9].filter (· < j)).length := by
  have hins : ∃ m root slots, HashMap.empty.insertAll Value.keying
      [(.int 1, .nil), (.int 2, .nil), (.int 9, .nil)] = .ok m ∧ m.root = some root ∧
      root = .bitmap (2 ^ 1 + 2 ^ 2 + 2 ^ 9) slots ∧ slots.length = 3 :=
    ⟨_, _, _, rfl, rfl, rfl, rfl⟩
  obtain ⟨m, root, slots, hins, hroot, rfl, hlen⟩ := hins
  have hreach := Reachable.empty.insertAll hins
  have hones : ones (2 ^ 1 + 2 ^ 2 + 2 ^ 9) = [1, 2, 9] := by decide
  have haddressed := (hreach.slots_addressed Value.isNil_iff hroot .self).2.1
  rw [hones] at haddressed
  exact ⟨m, _, slots, hreach, hroot, .self, hlen, hones, fun j hj => (haddressed j hj).1⟩

end HashMap

end HostedLisp.Coll

namespace HostedLisp.Value

open Coll

/-- **Removing a key from a hash map.** Take any map that insertions and removals make of the empty
one, `strays` of them removals of a key that was not bound through a dense node, and any key. The
count lacks the stray removals, which are the only fault in it. Removing the key fails just when it
is bound and another bound key has its hash. Otherwise the key is not there any more, all others
keep their values, and the count goes down by one when the key was bound, or when the removal is one
more stray one. -/
theorem hashMap_erase {keying : Keying Value Value} (hl : keying.Lawful)
    (hnil : keying.isNil = isNil) {m : HashMap Value Value} {strays : Nat}
    (hm : HashMap.Reachable keying m strays) :
    (∃ es : List (Value × Value), Walks (tableSeq m) (es.map fun e => .entry e.1 e.2) ∧
      Distinct keying.strict es ∧ (∀ j, m.find? keying j = .ok (lookup keying.strict j es)) ∧
      m.count + strays = es.length) ∧
    ∀ key,
      (∀ failure, m.erase keying key = .error failure ↔
        failure = .collisionRemoval ∧ m.SharesHash keying key) ∧
      ∀ m', m.erase keying key = .ok m' →
        (∀ j, m'.find? keying j = if keying.sameKey key j then .ok none else m.find? keying j) ∧
        (m.find? keying key = .ok none → ¬m.Stray keying key → m'.count = m.count) ∧
        (m.find? keying key ≠ .ok none ∨ m.Stray keying key → m'.count = m.count - 1) := by
  have hiff (k : Value) : keying.isNil k = true ↔ k = .nil := by rw [hnil, isNil_iff]
  have hsound := hm.sound hiff
  constructor
  · have hdistinct := hsound.distinct hl.on hiff
    have hfind := hsound.find?_lookup hl hiff
    exact ⟨m.bindings .nil, walks_tableSeq m, hdistinct, hfind, hsound.count hl.on⟩
  · intro key
    constructor
    · intro failure
      have hfails := (hsound.erase hiff key).error_iff hl hsound failure
      rw [HashMap.erase_recount] at hfails
      refine Iff.trans ?_ hfails
      cases m.erase keying key <;> simp [Except.map]
    · intro m' hm'
      have herases := hsound.erase_recount hiff hm'
      have hfind := herases.find?_eq hl hiff hsound
      obtain ⟨hsame, hdown⟩ := herases.count_eq hl hiff hsound
      refine ⟨hfind, fun hnone htidy => ?_, fun hbound => ?_⟩
      · have hcount : m'.count + (strays : Int) = m.count + strays := hsame hnone htidy
        omega
      · have hcount : m'.count + (strays : Int) = m.count + strays - 1 := hdown hbound
        omega

/-- The count after a key was removed from the map of `topCalls`, if that is possible. -/
def topCountAfter (key : Value) : Option Int :=
  (HashMap.empty.insertAll topBits topCalls >>= fun m => m.erase topBits key).toOption.map (·.count)

theorem exists_of_toOption {ε α β : Type} {x : Except ε α} {f : α → β} {b : β}
    (h : x.toOption.map f = some b) : ∃ a, x = .ok a ∧ f a = b := by
  cases x with
  | error e => cases h
  | ok a => exact ⟨a, rfl, Option.some.inj h⟩

/-- A key that is alone, one that shares its hash, and one that is not there but counts as
removed. -/
theorem hashMap_erase_topBits :
    ∃ m, HashMap.empty.insertAll topBits topCalls = .ok m ∧
      (∃ es : List (Value × Value), Walks (tableSeq m) (es.map fun e => .entry e.1 e.2) ∧
        m.count + (0 : Nat) = es.length) ∧
      (∃ m', m.erase topBits (.int 2) = .ok m' ∧ m'.find? topBits (.int 2) = .ok none ∧
        m'.find? topBits .nil = m.find? topBits .nil) ∧
      m.SharesHash topBits (.int 5) ∧ m.Stray topBits (.int 4) := by
  have hcount : (HashMap.empty.insertAll topBits topCalls).toOption.map (·.count) = some 5 := by
    decide +kernel
  have halone : topCountAfter (.int 2) = some 4 := by decide +kernel
  have hshared : topCountAfter (.int 5) = none := by decide +kernel
  have hstray : topCountAfter (.int 4) = some 4 := by decide +kernel
  have hunbound : (HashMap.empty.insertAll topBits topCalls >>= fun m =>
      m.find? topBits (.int 4)).toOption.map Option.isSome = some false := by decide +kernel
  unfold topCountAfter at halone hshared hstray
  obtain ⟨m, hins, hfive⟩ := exists_of_toOption hcount
  rw [hins] at halone hshared hstray hunbound
  obtain ⟨⟨es, hwalks, -, -, hlength⟩, herase⟩ :=
    hashMap_erase topBits_lawful rfl (HashMap.Reachable.empty.insertAll hins)
  refine ⟨m, hins, ⟨es, hwalks, hlength⟩, ?_, ?_, ?_⟩
  · obtain ⟨m', hm', -⟩ := exists_of_toOption (x := m.erase topBits (.int 2)) halone
    obtain ⟨hfind, -⟩ := (herase (.int 2)).2 m' hm'
    exact ⟨m', hm', hfind (.int 2), hfind .nil⟩
  · change (m.erase topBits (.int 5)).toOption.map (·.count) = none at hshared
    cases hm' : m.erase topBits (.int 5) with
    | error failure => exact (((herase (.int 5)).1 failure).mp hm').2
    | ok m' =>
      rw [hm'] at hshared
      cases hshared
  · obtain ⟨m', hm', hfour⟩ := exists_of_toOption (x := m.erase topBits (.int 4)) hstray
    obtain ⟨found, hfind, hnone⟩ := exists_of_toOption (x := m.find? topBits (.int 4)) hunbound
    obtain rfl : found = none := by simpa using hnone
    -- a count that goes down without a binding is that of a stray removal
    by_contra htidy
    have hsame := ((herase (.int 4)).2 m' hm').2.1 hfind htidy
    omega

end HostedLisp.Value
