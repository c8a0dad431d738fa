import HostedLisp.Coll.HashTrie
import Mathlib.Data.Nat.Bitwise

/-!
# Where a sparse node keeps its slots

A sparse node finds a slot by counting the set bits below its own. The count in parallel is exact
for words of one byte only, so slots are found where they stand as long as no two bits beyond the
lowest byte are set.

- `ones`: the set bits of a bitmap, in the order of their slots.
- `bitCount_exact_iff`: what the count in parallel counts, and when it is exact.
- `Narrow`: below every set bit there are only bits of the lowest byte.
- `slotIndex_eq`: a slot stands behind as many slots as there are set bits below its own.
- `Narrow.lt_of_bitCount_lt`: a narrow bitmap that counts as not full uses the lowest byte only, so
  that a further bit keeps it narrow (`Narrow.insert`).
- `Agree`, `agree_succ`: hashes that lead to the same node, one level after the other.
-/

namespace HostedLisp.Coll

open List

/-! ## The count in parallel -/

/-- The set bits of a bitmap, lowest first. -/
def ones (bits : Nat) : List Nat := (List.range 32).filter bits.testBit

section

variable {w b m r s k : Nat}

theorem and_mod_of_lt (m : Nat) (hr : r < 2 ^ k) : r &&& m % 2 ^ k = r &&& m := by
  have hlt : r &&& m < 2 ^ k := Nat.lt_of_le_of_lt Nat.and_le_left hr
  rw [← Nat.mod_eq_of_lt hlt, Nat.and_mod_two_pow, Nat.mod_eq_of_lt hr]

/-- A mask of four equal bytes takes one byte after the other. If it has only the lowest `k` bits of
a byte, it does not see the others. -/
theorem and_append (hr : r % 2 ^ k = s % 2 ^ k) (hm : m % 2 ^ 24 = m / 2 ^ 8 := by decide)
    (hk : m % 2 ^ 8 < 2 ^ k := by decide) (hw : w < 2 ^ 24 := by omega)
    (hr' : r < 2 ^ 8 := by omega)
    (hs : s < 2 ^ 8 := by omega) : 2 ^ 8 * w + r &&& m = 2 ^ 8 * (w &&& m) + (s &&& m) := by
  have hlow : r &&& m % 2 ^ 8 = s &&& m % 2 ^ 8 := by
    rw [Nat.and_comm, ← and_mod_of_lt r hk, hr, and_mod_of_lt s hk, Nat.and_comm]
  have hdiv : (2 ^ 8 * w + r &&& m) / 2 ^ 8 = w &&& m := by
    rw [Nat.and_div_two_pow, ← hm, Nat.mul_add_div (by decide), Nat.div_eq_of_lt hr', Nat.add_zero,
      and_mod_of_lt m hw]
  have hmod : (2 ^ 8 * w + r &&& m) % 2 ^ 8 = s &&& m := by
    rw [Nat.and_mod_two_pow, Nat.mul_add_mod, Nat.mod_eq_of_lt hr', hlow, and_mod_of_lt m hs]
  rw [← hdiv, ← hmod, Nat.div_add_mod]

/-- The counts of pairs of bits, each in its place. -/
def pairCounts (word : Nat) : Nat := word - (word / 2 &&& 0x55555555)

/-- The sums of neighbouring pairs. -/
def nibbleSums (pairs : Nat) : Nat := (pairs &&& 0x33333333) + (pairs / 4 &&& 0x33333333)

/-- The counts of the bytes of a word. -/
def byteCounts (word : Nat) : Nat :=
  let nibbles := nibbleSums (pairCounts word)
  nibbles + nibbles / 16 &&& 0x0F0F0F0F

theorem bitCount_eq_byteCounts (word : Nat) :
    bitCount word = (byteCounts word * 0x01010101 / 2 ^ 24 : Nat) := by
  have hmask (x m : Nat) (hm : m < 2 ^ 32) : maskBits x m = (x &&& m : Nat) := by
    rw [Nat.and_comm, ← and_mod_of_lt x hm, Nat.and_comm]
    rfl
  have hshift (x k : Nat) : (x : Int).shiftRight k = (x / 2 ^ k : Nat) :=
    congrArg _ (Nat.shiftRight_eq_div_pow x k)
  have hle : word / 2 ^ 1 &&& 0x55555555 ≤ word := Nat.le_trans Nat.and_le_left (Nat.div_le_self ..)
  simp (disch := decide) only [bitCount, hshift, hmask, ← Int.ofNat_sub hle, ← Int.natCast_add]
  exact hshift _ 24

theorem nibbleSums_le (hr : r < 2 ^ k) : nibbleSums r ≤ 2 * (0x33333333 % 2 ^ k) := by
  have hle {x : Nat} (hx : x ≤ r) : x &&& 0x33333333 ≤ 0x33333333 % 2 ^ k :=
    and_mod_of_lt _ (Nat.lt_of_le_of_lt hx hr) ▸ Nat.and_le_right
  have hsum := Nat.add_le_add (hle (Nat.le_refl r)) (hle (Nat.div_le_self r 4))
  rwa [← Nat.two_mul] at hsum

variable (hw : w < 2 ^ 24) (hb : b < 2 ^ 8)

include hw hb

theorem pairCounts_append : pairCounts (2 ^ 8 * w + b) = 2 ^ 8 * pairCounts w + pairCounts b := by
  have hhalf : (2 ^ 8 * w + b) / 2 = 2 ^ 8 * (w / 2) + (2 ^ 7 * (w % 2) + b / 2) := by omega
  have hle : w / 2 &&& 0x55555555 ≤ w / 2 := Nat.and_le_left
  have hle' : b / 2 &&& 0x55555555 ≤ b / 2 := Nat.and_le_left
  unfold pairCounts
  rw [hhalf, and_append (s := b / 2) (k := 7) (by omega)]
  omega

theorem nibbleSums_append : nibbleSums (2 ^ 8 * w + b) = 2 ^ 8 * nibbleSums w + nibbleSums b := by
  have hquarter : (2 ^ 8 * w + b) / 4 = 2 ^ 8 * (w / 4) + (2 ^ 6 * (w % 4) + b / 4) := by omega
  unfold nibbleSums
  rw [hquarter, and_append (k := 8) rfl, and_append (s := b / 4) (k := 6) (by omega)]
  omega

/-- Bytes are counted one after the other. -/
theorem byteCounts_append : byteCounts (2 ^ 8 * w + b) = 2 ^ 8 * byteCounts w + byteCounts b := by
  have hw' : pairCounts w < 2 ^ 24 := Nat.lt_of_le_of_lt (Nat.sub_le ..) hw
  have hb' : pairCounts b < 2 ^ 8 := Nat.lt_of_le_of_lt (Nat.sub_le ..) hb
  have hle := nibbleSums_le hw'
  have hle' := nibbleSums_le hb'
  have hlow (x : Nat) : (x &&& 0x33333333) % 2 ^ 4 ≤ 3 := Nat.and_mod_two_pow ▸ Nat.and_le_right
  have hmod : nibbleSums (pairCounts w) % 2 ^ 4 ≤ 3 + 3 := by
    rw [nibbleSums, Nat.add_mod]
    exact Nat.le_trans (Nat.mod_le ..) (Nat.add_le_add (hlow _) (hlow _))
  unfold byteCounts
  rw [pairCounts_append hw hb, nibbleSums_append hw' hb']
  generalize nibbleSums (pairCounts w) = x at *
  generalize nibbleSums (pairCounts b) = y at *
  -- no sum of two nibbles reaches into the next byte
  have hsum : 2 ^ 8 * x + y + (2 ^ 8 * x + y) / 16 =
      2 ^ 8 * (x + x / 16) + (2 ^ 4 * (x % 2 ^ 4) + (y + y / 16)) := by omega
  dsimp only
  rw [hsum, and_append (s := y + y / 16) (k := 4) (by omega)]

end

set_option maxRecDepth 10000 in
theorem byteCounts_byte : ∀ b < 2 ^ 8, byteCounts b = (ones b).length := by
  decide +kernel

variable {bits : Nat}

theorem byteCounts_step (bits : Nat) (hbits : bits < 2 ^ 32) :
    byteCounts bits = 2 ^ 8 * byteCounts (bits / 2 ^ 8) + (ones (bits % 2 ^ 8)).length := by
  have hlow : bits % 2 ^ 8 < 2 ^ 8 := Nat.mod_lt _ (by decide)
  have hcounts := byteCounts_append (w := bits / 2 ^ 8) (by omega) hlow
  rwa [Nat.div_add_mod, byteCounts_byte _ hlow] at hcounts

/-- The number of set bits, where one beyond the lowest byte counts with the weights of the bytes up
to its own. -/
def weightedCount (bits : Nat) : Nat :=
  (ones (bits % 2 ^ 8)).length + 0x101 * (ones (bits / 2 ^ 8 % 2 ^ 8)).length +
    0x10101 * (ones (bits / 2 ^ 16 % 2 ^ 8)).length + 0x1010101 * (ones (bits / 2 ^ 24)).length

theorem length_ones_le (bits : Nat) : (ones bits).length ≤ 32 := length_filter_le ..

theorem bitCount_eq_weightedCount (hbits : bits < 2 ^ 32) : bitCount bits = weightedCount bits := by
  have hdiv (k : Nat) : bits / 2 ^ k / 2 ^ 8 = bits / 2 ^ (k + 8) := by
    rw [Nat.div_div_eq_div_mul, Nat.pow_add]
  have h₁ := byteCounts_step (bits / 2 ^ 8) (by omega)
  have h₂ := byteCounts_step (bits / 2 ^ 16) (by omega)
  have h₃ := byteCounts_byte (bits / 2 ^ 24) (by omega)
  have hle := length_ones_le (bits % 2 ^ 8)
  have hle₁ := length_ones_le (bits / 2 ^ 8 % 2 ^ 8)
  have hle₂ := length_ones_le (bits / 2 ^ 16 % 2 ^ 8)
  rw [hdiv] at h₁ h₂
  rw [bitCount_eq_byteCounts, byteCounts_step bits hbits, h₁, h₂, h₃, weightedCount]
  omega

/-- Within one byte the count is exact. -/
theorem bitCount_eq (hbits : bits < 2 ^ 8) : bitCount bits = (ones bits).length := by
  have hle := length_ones_le bits
  rw [bitCount_eq_byteCounts, byteCounts_byte _ hbits]
  omega

variable {a b : Int}

/-! ## The slots of a bitmap -/

theorem mem_ones {bits j : Nat} : j ∈ ones bits ↔ j < 32 ∧ bits.testBit j = true := by
  rw [ones, mem_filter, mem_range]

theorem ones_sorted (bits : Nat) : (ones bits).Pairwise (· < ·) :=
  List.Pairwise.filter _ pairwise_lt_range

theorem ones_mod (bits j : Nat) : ones (bits % 2 ^ j) = (ones bits).filter (· < j) := by
  unfold ones
  rw [filter_filter]
  refine filter_congr fun i _ => ?_
  rw [Nat.testBit_mod_two_pow]

/-- The set bits are the only ascending list of them. -/
theorem ones_eq {l : List Nat} (hl : l.Pairwise (· < ·)) (h : ∀ i, i ∈ ones bits ↔ i ∈ l) :
    ones bits = l := by
  have hperm : (ones bits).Perm l :=
    (perm_ext_iff_of_nodup ((ones_sorted bits).imp Nat.ne_of_lt) (hl.imp Nat.ne_of_lt)).mpr h
  exact hperm.eq_of_pairwise (fun a b _ _ hab hba => absurd hba (Nat.lt_asymm hab))
    (ones_sorted bits) hl

theorem ones_two_pow {j : Nat} (hj : j < 32) : ones (2 ^ j) = [j] := by
  refine ones_eq (pairwise_singleton _ j) fun i => ?_
  rw [mem_ones, Nat.testBit_two_pow, mem_singleton, decide_eq_true_eq]
  omega

/-- A word without set bits is zero. -/
theorem eq_zero_of_ones (h : bits < 2 ^ 32) (hones : ones bits = []) : bits = 0 := by
  refine Nat.zero_of_testBit_eq_false fun i => Bool.eq_false_iff.mpr fun hbit => ?_
  have hlt : 2 ^ i < 2 ^ 32 := Nat.lt_of_le_of_lt (Nat.ge_two_pow_of_testBit hbit) h
  have hmem := mem_ones.mpr ⟨(Nat.pow_lt_pow_iff_right Nat.one_lt_two).mp hlt, hbit⟩
  rw [hones] at hmem
  cases hmem

/-- A bit beyond the lowest byte makes a word count as a large number. -/
theorem le_bitCount (h : bits < 2 ^ 32) (hhigh : 2 ^ 8 ≤ bits) : 2 ^ 8 ≤ bitCount bits := by
  have hpos {x : Nat} (hx : x < 2 ^ 32) (hne : x ≠ 0) : 0 < (ones x).length :=
    length_pos_iff.mpr fun hones => hne (eq_zero_of_ones hx hones)
  have hbyte : bits / 2 ^ 8 % 2 ^ 8 ≠ 0 ∨ bits / 2 ^ 16 % 2 ^ 8 ≠ 0 ∨ bits / 2 ^ 24 ≠ 0 := by omega
  rw [bitCount_eq_weightedCount h, weightedCount]
  rcases hbyte with hne | hne | hne
  all_goals
    have hcount := hpos (by omega) hne
    omega

/-- **The count in parallel.** For a word of 32 bits it is a weighted count of the set bits. It is
their number just for words of one byte, and for no others does it stay below 33. -/
theorem bitCount_exact_iff (h : bits < 2 ^ 32) : bitCount bits = weightedCount bits ∧
    (bitCount bits = (ones bits).length ↔ bits < 2 ^ 8) ∧ (bitCount bits ≤ 32 ↔ bits < 2 ^ 8) := by
  have hle := length_ones_le bits
  refine ⟨bitCount_eq_weightedCount h, ?_⟩
  rcases Nat.lt_or_ge bits (2 ^ 8) with hlt | hge
  · have hexact := bitCount_eq hlt
    omega
  · have hlarge := le_bitCount h hge
    omega

/-- The lowest bit beyond one byte. -/
theorem bitCount_exact_iff_256 : bitCount (256 : Nat) = weightedCount 256 ∧
    bitCount (256 : Nat) ≠ (ones 256).length ∧ ¬bitCount (256 : Nat) ≤ 32 := by
  have hlt : 256 < 2 ^ 32 := by decide
  obtain ⟨hcount, hexact, hle⟩ := bitCount_exact_iff hlt
  exact ⟨hcount, fun h => absurd (hexact.mp h) (by decide), fun h => absurd (hle.mp h) (by decide)⟩

/-- The slot of a bit stands behind the slots of the set bits below it. -/
theorem slotIndex_eq {bits j : Nat} (h : bits % 2 ^ j < 256) :
    TrieNode.slotIndex bits (2 ^ j) = ((ones bits).filter (· < j)).length := by
  unfold TrieNode.slotIndex
  rw [Nat.and_two_pow_sub_one_eq_mod, bitCount_eq h, ones_mod]
  rfl

/-- Below every set bit there are only bits of the lowest byte. -/
def Narrow (bits : Nat) : Prop := bits < 2 ^ 32 ∧ ∀ i ∈ ones bits, ∀ j ∈ ones bits, i < j → i < 8

theorem narrow_two_pow {j : Nat} (hj : j < 32) : Narrow (2 ^ j) := by
  refine ⟨Nat.pow_lt_pow_right (by decide) hj, fun i hi k hk hlt => ?_⟩
  rw [ones_two_pow hj, mem_singleton] at hi hk
  omega

/-- What is below a set bit of a narrow bitmap is one byte. -/
theorem Narrow.mod_lt (h : Narrow bits) {j : Nat} (hj : j ∈ ones bits) : bits % 2 ^ j < 256 := by
  refine Nat.lt_pow_two_of_testBit (n := 8) _ fun i hi => Bool.eq_false_iff.mpr fun hbit => ?_
  rw [Nat.testBit_mod_two_pow, Bool.and_eq_true, decide_eq_true_eq] at hbit
  have hmem := mem_ones.mpr ⟨Nat.lt_trans hbit.1 (mem_ones.mp hj).1, hbit.2⟩
  exact absurd (h.2 i hmem j hj hbit.1) (Nat.not_lt.mpr hi)

/-- A narrow bitmap that does not count as full uses the lowest byte only. -/
theorem Narrow.lt_of_bitCount_lt (h : Narrow bits) (hn : bitCount (bits : Int) < 16) :
    bits < 256 := by
  refine Nat.lt_of_not_le fun hle => ?_
  have hlarge := le_bitCount h.1 hle
  omega

/-- One more bit keeps a bitmap of one byte narrow. -/
theorem Narrow.insert {bits j : Nat} (h : bits < 256) (hj : j < 32) : Narrow (bits ||| 2 ^ j) := by
  -- a set bit beyond the lowest byte is the new one
  have hnew {i : Nat} (hi : i ∈ ones (bits ||| 2 ^ j)) : i < 8 ∨ i = j := by
    refine (Nat.lt_or_ge i 8).imp_right fun hi8 => ?_
    have hbit := (mem_ones.mp hi).2
    rw [Nat.testBit_or, Nat.testBit_lt_two_pow (Nat.lt_of_lt_of_le h
      (Nat.pow_le_pow_right Nat.two_pos hi8)), Bool.false_or, Nat.testBit_two_pow] at hbit
    exact (of_decide_eq_true hbit).symm
  refine ⟨Nat.or_lt_two_pow (Nat.lt_trans h (by decide)) (Nat.pow_lt_pow_right (by decide) hj),
    fun i hi k hk hik => ?_⟩
  have hi := hnew hi
  have hk := hnew hk
  omega

/-- The set bits after one more was set: it comes in between those below and those above. -/
theorem ones_insert {bits j : Nat} (hj : j < 32) (hnew : bits.testBit j = false) :
    ones (bits ||| 2 ^ j) = (ones bits).filter (· < j) ++ j :: (ones bits).filter (j < ·) := by
  refine ones_eq ?_ fun i => ?_
  · rw [pairwise_append, pairwise_cons]
    refine ⟨(ones_sorted bits).filter _, ⟨fun i hi => ?_, (ones_sorted bits).filter _⟩,
      fun a ha b hb => ?_⟩
    · simpa using (mem_filter.mp hi).2
    · have hlt : a < j := by simpa using (mem_filter.mp ha).2
      rcases mem_cons.mp hb with rfl | hb
      · exact hlt
      · exact Nat.lt_trans hlt (by simpa using (mem_filter.mp hb).2)
  · simp only [mem_append, mem_cons, mem_filter, mem_ones, Nat.testBit_or,
      Nat.testBit_two_pow, decide_eq_true_eq, Bool.or_eq_true]
    rcases Nat.lt_trichotomy i j with h | h | h
    · simp [h, Nat.ne_of_gt h, Nat.lt_asymm h, Nat.ne_of_lt h]
    · subst h
      simp [hj]
    · simp [h, Nat.ne_of_lt h, Nat.lt_asymm h, Nat.ne_of_gt h]

/-! ## Hashes and levels -/

/-- Hashes that agree in their lowest bits. -/
def Agree (n : Nat) (a b : Int) : Prop := a % 2 ^ n = b % 2 ^ n

theorem hashSlot_lt (hash : Int) (shift : Nat) : hashSlot hash shift < 32 := by
  unfold hashSlot
  omega

theorem hashBit_eq (hash : Int) (shift : Nat) : hashBit hash shift = 2 ^ hashSlot hash shift :=
  Nat.one_shiftLeft _

theorem and_hashBit_eq_zero {hash : Int} {shift : Nat} :
    bits &&& hashBit hash shift = 0 ↔ bits.testBit (hashSlot hash shift) = false := by
  rw [hashBit_eq, Nat.and_two_pow]
  cases bits.testBit (hashSlot hash shift) <;> simp

theorem and_hashBit_ne_zero {hash : Int} {shift : Nat}
    (h : bits.testBit (hashSlot hash shift) = true) : ¬bits &&& hashBit hash shift = 0 := by
  rw [and_hashBit_eq_zero, h]
  exact Bool.noConfusion

theorem hashBit_inj {shift : Nat} :
    hashBit a shift = hashBit b shift ↔ hashSlot a shift = hashSlot b shift := by
  rw [hashBit_eq, hashBit_eq, Nat.pow_right_inj (by decide)]

theorem emod_mul_eq {p : Int} (hp : 0 < p) (x : Int) : x % (p * 32) = x % p + p * (x / p % 32) := by
  rw [Int.emod_def x (p * 32), Int.emod_def x p, Int.emod_def (x / p) 32,
    ← Int.ediv_ediv_of_nonneg (Int.le_of_lt hp), Int.mul_sub, Int.mul_assoc]
  omega

theorem agree_zero (a b : Int) : Agree 0 a b := by
  simp [Agree]

/-- Hashes agree one level further down when their slots are the same. -/
theorem agree_succ {level : Nat} :
    Agree (5 * (level + 1)) a b ↔
      Agree (5 * level) a b ∧ hashSlot a (5 * level) = hashSlot b (5 * level) := by
  unfold Agree hashSlot
  have hpow : (2 : Int) ^ (5 * (level + 1)) = 2 ^ (5 * level) * 32 := by
    rw [Nat.mul_succ, Int.pow_add]
    rfl
  have hpos : (0 : Int) < 2 ^ (5 * level) := Int.pow_pos (by decide)
  simp only [hpow, Int.shiftRight_eq_div_pow, Int.natCast_pow, Int.cast_ofNat_Int]
  generalize (2 : Int) ^ (5 * level) = p at hpos ⊢
  rw [emod_mul_eq hpos a, emod_mul_eq hpos b]
  constructor
  · intro h
    have hlow : a % p = b % p := by
      have := congrArg (· % p) h
      simpa only [Int.add_mul_emod_self_left, Int.emod_emod_of_dvd _ (Int.dvd_refl p)] using this
    rw [hlow] at h
    have hhigh : a / p % 32 = b / p % 32 :=
      Int.eq_of_mul_eq_mul_left (Int.ne_of_gt hpos) (Int.add_left_cancel h)
    exact ⟨hlow, by rw [hhigh]⟩
  · rintro ⟨hlow, hslot⟩
    have hhigh : a / p % 32 = b / p % 32 := by omega
    rw [hlow, hhigh]

/-- Two hashes of 64 bits that agree in their lowest 65 bits are the same. -/
theorem Agree.eq (h : Agree 65 a b) (ha : -2 ^ 63 ≤ a ∧ a < 2 ^ 63)
    (hb : -2 ^ 63 ≤ b ∧ b < 2 ^ 63) : a = b := by
  unfold Agree at h
  omega

end HostedLisp.Coll
