import HostedLisp.Compiler.Functions
import HostedLisp.Proofs.Reader.Numeral
import Mathlib.Data.List.TakeWhile

/-!
# The variables of local names

Arguments and the variables of handlers keep the name of their symbol. The variable of any other
local name is called by the symbol's name with a number after it, or with an underscore and two
numbers if the symbol was in use already. Nothing marks where the name ends and the number begins.

- `Local`: a symbol and a variable that it stands for.
- `Local.Overwrites`: storing into one variable changes what reading the other gives.
- `Local.Confusable`: names of symbols that numbers may fail to tell apart, which can be computed.
- `Local.Numbered.apart`: variables of different numbers overwrite each other only if the names of
  their symbols are confusable.
- `Local.confusable_iff`: for no other names are there numbers with which the variables overwrite
  each other.
-/

namespace HostedLisp

open Machine List HostedLisp.Symbol

/-- The variable of the machine that a local name is kept in. -/
def Alias.slot? : Alias → Option String
  | .argument name | .renamed name => some name
  | .closure .. | .expansion _ => none

theorem Alias.storeAlias_eq_iff {a : Alias} {slot : String} :
    Template.storeAlias a = .ok [named .storeFast slot] ↔ a.slot? = some slot := by
  cases a with
  | argument | renamed | closure =>
    simp [Template.storeAlias, slot?, named, instr, pure, Except.pure]
  | expansion form => simp [Template.storeAlias, slot?, throw, throwThe, MonadExceptOf.throw]

theorem Alias.readAlias_eq_iff {a : Alias} {slot : String} :
    Template.readAlias a = [named .loadFast slot] ↔ a.slot? = some slot := by
  cases a <;> simp [Template.readAlias, slot?, named, instr]

/-! ## Numbers after a name -/

/-- The digits of a number. -/
abbrev digits (n : Nat) : List Char := Nat.toDigits 10 n

/-- Two numbers in a row. -/
def twoNumbers (n : Nat) : List Char := digits n ++ digits (n + 1)

/-- A numeral without leading zeros. -/
def isNumeral : List Char → Bool
  | [] => false
  | d :: ds => Token.isLeadingDigit d && ds.all Char.isDigit

/-- What is put behind a name when its variable gets a number, or two of them; the last number
counts. -/
inductive Numbering : List Char → Nat → Prop where
  | fresh {n : Nat} (hn : 0 < n) : Numbering (digits n) n
  | shadowing {n : Nat} (hn : 0 < n) : Numbering ('_' :: twoNumbers n) (n + 1)

/-- The first of two numbers in a row. -/
def firstNumber (cs : List Char) : Nat := Nat.ofDigitChars 10 (cs.take (cs.length / 2)) 0

/-- Whether it can be what is put behind a name. -/
def isNumbering : List Char → Bool
  | '_' :: cs => decide (0 < firstNumber cs) && cs == twoNumbers (firstNumber cs)
  | cs => isNumeral cs

/-- Whether it can be the beginning of what is put behind a name, with digits left over. -/
def isMark : List Char → Bool
  | '_' :: cs => cs.isEmpty || isNumeral cs
  | cs => isNumeral cs

theorem digits_injective {m n : Nat} (h : digits m = digits n) : m = n := by
  calc
    m = Nat.ofDigitChars 10 (digits m) 0 := Nat.ofDigitChars_ten_toDigits.symm
    _ = Nat.ofDigitChars 10 (digits n) 0 := by rw [h]
    _ = n := Nat.ofDigitChars_ten_toDigits

variable {c : Char} (n : Nat) {cs : List Char} {s t xs ys : List Char}

theorem not_mem_digits (hc : c.isDigit = false) (n : Nat) : c ∉ digits n := fun h =>
  absurd (Token.isDigit_toDigits h) (by rw [hc]; exact Bool.false_ne_true)

theorem not_mem_twoNumbers (hc : c.isDigit = false) (n : Nat) : c ∉ twoNumbers n := by
  rw [twoNumbers, mem_append]
  rintro (h | h)
  · exact not_mem_digits hc n h
  · exact not_mem_digits hc (n + 1) h

theorem length_digits_pos : 0 < (digits n).length := length_pos_iff.mpr Nat.toDigits_ne_nil

theorem lt_pow_length_digits : n < 10 ^ (digits n).length :=
  (Nat.length_toDigits_le_iff (by omega) (length_digits_pos n)).mp (Nat.le_refl _)

/-- The next number has as many digits, or one more. -/
theorem length_digits_succ :
    (digits n).length ≤ (digits (n + 1)).length ∧
    (digits (n + 1)).length ≤ (digits n).length + 1 := by
  have hn := lt_pow_length_digits n
  have hn' := lt_pow_length_digits (n + 1)
  constructor
  · exact (Nat.length_toDigits_le_iff (by omega) (length_digits_pos _)).mpr (by omega)
  · refine (Nat.length_toDigits_le_iff (by omega) (by omega)).mpr ?_
    omega

/-- Where the first number ends is known from the length of both. -/
theorem firstNumber_twoNumbers : firstNumber (twoNumbers n) = n := by
  have hhalf : (twoNumbers n).length / 2 = (digits n).length := by
    have h := length_digits_succ n
    rw [twoNumbers, length_append]
    omega
  rw [firstNumber, hhalf, twoNumbers, take_left, Nat.ofDigitChars_ten_toDigits]

theorem twoNumbers_injective {m n : Nat} (h : twoNumbers m = twoNumbers n) : m = n := by
  rw [← firstNumber_twoNumbers m, h, firstNumber_twoNumbers]

/-! ### Numerals -/

/-- A beginning of a numeral is a numeral. -/
theorem isNumeral_append {ys : List Char} (hne : xs ≠ []) (h : isNumeral (xs ++ ys) = true) :
    isNumeral xs = true := by
  cases xs with
  | nil => exact absurd rfl hne
  | cons d ds =>
    rw [cons_append, isNumeral, all_append, Bool.and_eq_true, Bool.and_eq_true] at h
    rw [isNumeral, h.1, h.2.1]
    rfl

theorem isNumeral_digits_append {n : Nat} (hn : 0 < n)
    (hxs : ∀ x ∈ xs, x.isDigit = true) : isNumeral (digits n ++ xs) = true := by
  obtain ⟨d, ds, hdigits, hd⟩ := Token.toDigits_leading hn
  have hall : (ds ++ xs).all Char.isDigit = true := by
    refine all_eq_true.mpr fun e he => ?_
    rcases mem_append.mp he with he | he
    · exact Token.isDigit_toDigits (n := n) (by rw [hdigits]; exact mem_cons_of_mem _ he)
    · exact hxs e he
  rw [digits, hdigits, cons_append, isNumeral, hd, hall]
  rfl

theorem isNumeral_digits {n : Nat} (hn : 0 < n) : isNumeral (digits n) = true := by
  have h := isNumeral_digits_append hn (fun (x : Char) (hx : x ∈ []) => absurd hx not_mem_nil)
  rwa [append_nil] at h

theorem isNumeral_twoNumbers {n : Nat} (hn : 0 < n) : isNumeral (twoNumbers n) = true :=
  isNumeral_digits_append hn fun _ => Token.isDigit_toDigits

theorem digits_of_isDigit (hc : c.isDigit = true) :
    c.toNat - 48 < 10 ∧ digits (c.toNat - 48) = [c] :=
  of_digits (P := fun c => c.toNat - 48 < 10 ∧ digits (c.toNat - 48) = [c]) (by decide) hc

/-- Digits behind a number make another one. -/
theorem exists_digits_append {n : Nat} (hn : 0 < n)
    (hxs : ∀ x ∈ xs, x.isDigit = true) : ∃ m, 0 < m ∧ digits n ++ xs = digits m := by
  induction xs generalizing n with
  | nil => exact ⟨n, hn, append_nil _⟩
  | cons x xs ih =>
    obtain ⟨hlt, hx⟩ := digits_of_isDigit (hxs x mem_cons_self)
    obtain ⟨m, hm, hdigits⟩ := ih (n := 10 * n + (x.toNat - 48)) (by omega)
      fun y hy => hxs y (mem_cons_of_mem _ hy)
    refine ⟨m, hm, ?_⟩
    rw [← hdigits, digits, digits, ← Nat.toDigits_append_toDigits (by omega) hn hlt]
    show Nat.toDigits 10 n ++ x :: xs = Nat.toDigits 10 n ++ digits (x.toNat - 48) ++ xs
    rw [hx, append_assoc, singleton_append]

theorem exists_digits_of_isNumeral (h : isNumeral cs = true) : ∃ n, 0 < n ∧ cs = digits n := by
  cases cs with
  | nil => cases h
  | cons d ds =>
    rw [isNumeral, Bool.and_eq_true, all_eq_true] at h
    have hd : d.isDigit = true ∧ 0 < d.toNat - 48 := by
      obtain ⟨hlo, hhi⟩ := Bool.and_eq_true_iff.mp h.1
      have hlo : 49 ≤ d.toNat := of_decide_eq_true hlo
      have hzero : 48 ≤ d.toNat := by omega
      exact ⟨Bool.and_eq_true_iff.mpr ⟨decide_eq_true hzero, hhi⟩, by omega⟩
    obtain ⟨m, hm, hdigits⟩ := exists_digits_append hd.2 h.2
    rw [(digits_of_isDigit hd.1).2, singleton_append] at hdigits
    exact ⟨m, hm, hdigits⟩

theorem isNumeral_underscore (cs : List Char) : isNumeral ('_' :: cs) = false := rfl

theorem isNumbering_of_isNumeral (h : isNumeral cs = true) : isNumbering cs = true := by
  unfold isNumbering
  split
  next cs => exact absurd ((isNumeral_underscore cs).symm.trans h) Bool.false_ne_true
  next => exact h

theorem isNumbering_iff : isNumbering cs = true ↔ ∃ n, Numbering cs n := by
  constructor
  · intro h
    unfold isNumbering at h
    split at h
    next cs =>
      rw [Bool.and_eq_true, decide_eq_true_eq, beq_iff_eq] at h
      have hcs := Numbering.shadowing h.1
      rw [← h.2] at hcs
      exact ⟨_, hcs⟩
    next =>
      obtain ⟨n, hn, rfl⟩ := exists_digits_of_isNumeral h
      exact ⟨n, .fresh hn⟩
  · rintro ⟨n, hn | hn⟩
    · exact isNumbering_of_isNumeral (isNumeral_digits hn)
    · rw [isNumbering, firstNumber_twoNumbers, beq_self_eq_true, Bool.and_true]
      exact decide_eq_true hn

theorem isMark_of_isNumeral (h : isNumeral cs = true) : isMark cs = true := by
  unfold isMark
  split
  next cs => exact absurd ((isNumeral_underscore cs).symm.trans h) Bool.false_ne_true
  next => exact h

/-- A name with a numeral after it, and another: one of the names is the other with the beginning of
its numeral, unless the numerals are the same. -/
theorem append_numeral_cases (hxs : isNumeral xs = true) (hys : isNumeral ys = true)
    (h : s ++ xs = t ++ ys) :
    xs = ys ∨ ∃ mark, isMark mark = true ∧ (s = t ++ mark ∨ t = s ++ mark) := by
  rcases append_eq_append_iff.mp h with ⟨mark, rfl, rfl⟩ | ⟨mark, rfl, rfl⟩
  · rcases eq_or_ne mark [] with rfl | hne
    · exact .inl rfl
    · exact .inr ⟨mark, isMark_of_isNumeral (isNumeral_append hne hxs), .inr rfl⟩
  · rcases eq_or_ne mark [] with rfl | hne
    · exact .inl rfl
    · exact .inr ⟨mark, isMark_of_isNumeral (isNumeral_append hne hys), .inl rfl⟩

/-- A name with a numeral after it, and another with an underscore before its numeral: the first
goes beyond the underscore of the second. -/
theorem append_underscore_cases (hxs : '_' ∉ xs) (hys : isNumeral ys = true)
    (h : s ++ xs = t ++ '_' :: ys) : ∃ mark, isMark mark = true ∧ s = t ++ mark := by
  rcases append_eq_append_iff.mp h with ⟨as, rfl, rfl⟩ | ⟨bs, rfl, hbs⟩
  · exact absurd (mem_append_right _ mem_cons_self) hxs
  · cases bs with
    | nil =>
      rw [nil_append] at hbs
      exact absurd (hbs ▸ mem_cons_self) hxs
    | cons c cs =>
      obtain ⟨rfl, rfl⟩ := hbs
      refine ⟨'_' :: cs, ?_, rfl⟩
      rw [isMark, Bool.or_eq_true, List.isEmpty_iff]
      rcases eq_or_ne cs [] with rfl | hne
      · exact .inl rfl
      · exact .inr (isNumeral_append hne hys)

/-- The last underscore tells where a name ends that has two numbers. -/
theorem append_underscore_injective (hxs : '_' ∉ xs) (hys : '_' ∉ ys)
    (h : s ++ '_' :: xs = t ++ '_' :: ys) : xs = ys := by
  have hlast {xs ys as : List Char} (hxs : '_' ∉ xs) (has : '_' :: xs = as ++ '_' :: ys) :
    xs = ys := by
    cases as with
    | nil => exact (List.cons.inj has).2
    | cons c cs =>
      rw [(List.cons.inj has).2] at hxs
      exact absurd (mem_append_right _ mem_cons_self) hxs
  rcases append_eq_append_iff.mp h with ⟨as, -, has⟩ | ⟨as, -, has⟩
  · exact hlast hxs has
  · exact (hlast hys has).symm

namespace Numbering

/-- Names with different numbers behind them: where these read the same, one of the names goes on
with the beginning of the other's numbers. -/
theorem append_cases {s t ys : List Char} {m n : Nat} (hxs : Numbering xs m) (hys : Numbering ys n)
    (hne : m ≠ n) (h : s ++ xs = t ++ ys) :
    ∃ mark, isMark mark = true ∧ (s = t ++ mark ∨ t = s ++ mark) := by
  cases hxs with
  | fresh hm =>
    cases hys with
    | fresh hn =>
      exact (append_numeral_cases (isNumeral_digits hm) (isNumeral_digits hn) h).resolve_left
        fun hsame => hne (digits_injective hsame)
    | shadowing hn =>
      obtain ⟨mark, hmark, hs⟩ := append_underscore_cases (not_mem_digits rfl _)
        (isNumeral_twoNumbers hn) h
      exact ⟨mark, hmark, .inl hs⟩
  | shadowing hm =>
    cases hys with
    | fresh hn =>
      obtain ⟨mark, hmark, ht⟩ := append_underscore_cases (not_mem_digits rfl _)
        (isNumeral_twoNumbers hm) h.symm
      exact ⟨mark, hmark, .inr ht⟩
    | shadowing hn =>
      have hsame := append_underscore_injective (not_mem_twoNumbers rfl _)
        (not_mem_twoNumbers rfl _) h
      exact absurd (congrArg (· + 1) (twoNumbers_injective hsame)) hne

/-- Every mark is the beginning of numbers whose rest is another number. -/
theorem exists_of_isMark {mark : List Char} (h : isMark mark = true) :
    ∃ xs m n, Numbering xs m ∧ Numbering (mark ++ xs) n ∧ m ≠ n := by
  have hone : ∀ {k : Nat}, 0 < k → digits k ++ digits 1 = digits (10 * k + 1) := fun hk =>
    Nat.toDigits_append_toDigits (by omega) hk (by omega)
  unfold isMark at h
  split at h
  next cs =>
    rw [Bool.or_eq_true, List.isEmpty_iff] at h
    rcases h with rfl | h
    · exact ⟨digits 12, 12, 2, .fresh (by omega), .shadowing (n := 1) (by omega), by omega⟩
    · -- after `k` come the last digit of `10 * k + 1` and the whole next number
      obtain ⟨k, hk, rfl⟩ := exists_digits_of_isNumeral h
      obtain ⟨m, hm, hdigits⟩ := exists_digits_append Nat.one_pos
        fun (x : Char) (hx : x ∈ digits (10 * k + 2)) => Token.isDigit_toDigits hx
      refine ⟨digits m, m, 10 * k + 2, .fresh hm, ?_, ?_⟩
      · have htwo : digits k ++ digits m = twoNumbers (10 * k + 1) := by
          rw [← hdigits, ← append_assoc, hone hk]
          rfl
        rw [cons_append, htwo]
        exact .shadowing (by omega)
      · rintro rfl
        have hlen := congrArg List.length hdigits
        have hpos := length_digits_pos 1
        rw [length_append] at hlen
        omega
  next =>
    obtain ⟨k, hk, rfl⟩ := exists_digits_of_isNumeral h
    refine ⟨digits 1, 1, 10 * k + 1, .fresh (by omega), ?_, by omega⟩
    rw [hone hk]
    exact .fresh (by omega)

end Numbering

/-! ## Variables and the names of their symbols -/

/-- The part of a symbol's name that the name of a variable starts with. -/
def Symbol.stem (s : Symbol) : List Char := (s.name.toList.reverse.takeWhile (· ≠ '/')).reverse

/-- A symbol and a variable that it stands for. -/
structure Local where
  symbol : Symbol
  meaning : Alias

namespace Local

/-- Whether the variable is called like the symbol. -/
def isKept (l : Local) : Bool :=
  match l.meaning with
  | .argument _ => true
  | _ => false

/-- What the name of the variable starts with. -/
def stem (l : Local) : List Char := if l.isKept then l.symbol.name.toList else l.symbol.stem

/-- Storing into the one variable changes what reading the other gives. -/
def Overwrites (a b : Local) : Prop :=
  ∃ slot, Template.storeAlias a.meaning = .ok [named .storeFast slot] ∧
    Template.readAlias b.meaning = [named .loadFast slot]

/-- Whether the rest of a longer name can be taken for numbers, or for the beginning of numbers if
more of them follow. -/
def isTail (l : Local) (cs : List Char) : Bool := if l.isKept then isNumbering cs else isMark cs

/-- The one name is the other, which gets numbers, with something like numbers behind it. -/
def Extends (a b : Local) : Prop :=
  b.isKept = false ∧ b.stem <+: a.stem ∧ a.isTail (a.stem.drop b.stem.length) = true

/-- The names of the symbols do not tell the variables apart, whatever their numbers. -/
def Confusable (a b : Local) : Prop :=
  a.Extends b ∨ b.Extends a ∨ (a.isKept = true ∧ b.isKept = true ∧ a.symbol.name = b.symbol.name)

/-- The variables overwrite each other only if their names are confusable. -/
def Apart (a b : Local) : Prop := a.Overwrites b → a.Confusable b

variable {a b : Local}

theorem overwrites_iff :
    a.Overwrites b ↔ ∃ slot, a.meaning.slot? = some slot ∧ b.meaning.slot? = some slot := by
  simp only [Overwrites, Alias.storeAlias_eq_iff, Alias.readAlias_eq_iff]

instance (a b : Local) : Decidable (a.Overwrites b) :=
  decidable_of_iff (a.meaning.slot?.isSome = true ∧ a.meaning.slot? = b.meaning.slot?) <| by
    rw [overwrites_iff, Option.isSome_iff_exists]
    constructor
    · rintro ⟨⟨slot, ha⟩, hab⟩
      exact ⟨slot, ha, hab ▸ ha⟩
    · rintro ⟨slot, ha, hb⟩
      exact ⟨⟨slot, ha⟩, ha.trans hb.symm⟩

instance (a b : Local) : Decidable (a.Extends b) := inferInstanceAs (Decidable (_ ∧ _ ∧ _))

instance (a b : Local) : Decidable (a.Confusable b) :=
  inferInstanceAs (Decidable (_ ∨ _ ∨ _ ∧ _ ∧ _))

instance (a b : Local) : Decidable (a.Apart b) := inferInstanceAs (Decidable (_ → _))

theorem Overwrites.symm (h : a.Overwrites b) : b.Overwrites a := by
  obtain ⟨slot, ha, hb⟩ := overwrites_iff.mp h
  exact overwrites_iff.mpr ⟨slot, hb, ha⟩

theorem Confusable.symm (h : a.Confusable b) : b.Confusable a := by
  rcases h with h | h | ⟨ha, hb, hname⟩
  · exact .inr (.inl h)
  · exact .inl h
  · exact .inr (.inr ⟨hb, ha, hname.symm⟩)

theorem Apart.symm (h : a.Apart b) : b.Apart a := fun hba => (h hba.symm).symm

theorem extends_iff :
    a.Extends b ↔ b.isKept = false ∧ ∃ cs, a.stem = b.stem ++ cs ∧ a.isTail cs = true := by
  constructor
  · rintro ⟨hb, ⟨cs, hcs⟩, htail⟩
    rw [← hcs, drop_left] at htail
    exact ⟨hb, cs, hcs.symm, htail⟩
  · rintro ⟨hb, cs, hcs, htail⟩
    refine ⟨hb, ⟨cs, hcs.symm⟩, ?_⟩
    rw [hcs, drop_left]
    exact htail

/-- How the variable of a symbol is called, given the last number that was used for it. -/
inductive Numbered : Local → Nat → Prop where
  | kept (s : Symbol) (n : Nat) : Numbered ⟨s, .argument s.name⟩ n
  | renamed {s : Symbol} {slot : String} {cs : List Char} {n : Nat} (hcs : Numbering cs n)
    (hslot : slot.toList = s.stem ++ cs) : Numbered ⟨s, .renamed slot⟩ n

/-- A variable that keeps its name, and one with numbers behind it. -/
theorem extends_of_kept {s t : Symbol} {cs : List Char} {n : Nat} (hcs : Numbering cs n)
    (hname : s.name.toList = t.stem ++ cs) : Extends ⟨s, .argument s.name⟩ ⟨t, .renamed s.name⟩ :=
  extends_iff.mpr ⟨rfl, cs, hname, isNumbering_iff.mpr ⟨n, hcs⟩⟩

theorem Numbered.apart {m n : Nat} (ha : Numbered a m) (hb : Numbered b n) (hne : m ≠ n) :
    a.Apart b := by
  intro hover
  obtain ⟨slot, hslotA, hslotB⟩ := overwrites_iff.mp hover
  cases ha with
  | kept s =>
    obtain rfl := Option.some.inj hslotA
    cases hb with
    | kept t => exact .inr (.inr ⟨rfl, rfl, (Option.some.inj hslotB).symm⟩)
    | renamed hcs hslot =>
      obtain rfl := Option.some.inj hslotB
      exact .inl (extends_of_kept hcs hslot)
  | renamed hxs hslotM =>
    obtain rfl := Option.some.inj hslotA
    cases hb with
    | kept t =>
      obtain rfl := Option.some.inj hslotB
      exact .inr (.inl (extends_of_kept hxs hslotM))
    | renamed hys hslot =>
      obtain rfl := Option.some.inj hslotB
      obtain ⟨mark, hmark, hstem | hstem⟩ := hxs.append_cases hys hne (hslotM.symm.trans hslot)
      · exact .inl (extends_iff.mpr ⟨rfl, mark, hstem, hmark⟩)
      · exact .inr (.inl (extends_iff.mpr ⟨rfl, mark, hstem, hmark⟩))

/-! ### Names that some numbers do not tell apart -/

/-- The same symbol, whose name both variables keep or neither does. -/
structure Alike (a b : Local) : Prop where
  symbol : a.symbol = b.symbol
  isKept : a.isKept = b.isKept

/-- There are different numbers with which the variables of the symbols overwrite each other. -/
def CanClash (a b : Local) : Prop :=
  ∃ a' b' m n, a.Alike a' ∧ b.Alike b' ∧ a'.Numbered m ∧ b'.Numbered n ∧ m ≠ n ∧ a'.Overwrites b'

theorem CanClash.symm (h : a.CanClash b) : b.CanClash a := by
  obtain ⟨a', b', m, n, ha, hb, hm, hn, hne, hover⟩ := h
  exact ⟨b', a', n, m, hb, ha, hn, hm, hne.symm, hover.symm⟩

theorem Alike.stem (h : a.Alike b) : a.stem = b.stem := by
  rw [Local.stem, Local.stem, h.symbol, h.isKept]

theorem Alike.extends {a b a' b' : Local} (ha : a.Alike a') (hb : b.Alike b') (h : a'.Extends b') :
    a.Extends b := by
  rwa [Extends, isTail, ha.stem, hb.stem, ha.isKept, hb.isKept]

theorem Alike.confusable {a b a' b' : Local} (ha : a.Alike a') (hb : b.Alike b')
    (h : a'.Confusable b') : a.Confusable b := by
  rcases h with h | h | h
  · exact .inl (ha.extends hb h)
  · exact .inr (.inl (hb.extends ha h))
  · rw [← ha.isKept, ← hb.isKept, ← ha.symbol, ← hb.symbol] at h
    exact .inr (.inr h)

theorem Extends.canClash (h : a.Extends b) : a.CanClash b := by
  obtain ⟨hb, cs, hstem, htail⟩ := extends_iff.mp h
  have hstemB : b.stem = b.symbol.stem := by rw [stem, hb]; rfl
  rw [hstemB] at hstem
  cases ha : a.isKept with
  | true =>
    rw [isTail, ha] at htail
    rw [stem, ha] at hstem
    obtain ⟨n, hcs⟩ := isNumbering_iff.mp htail
    exact ⟨⟨a.symbol, .argument a.symbol.name⟩, ⟨b.symbol, .renamed a.symbol.name⟩, n + 1, n,
      ⟨rfl, ha⟩, ⟨rfl, hb⟩, .kept _ _, .renamed hcs hstem, by omega,
      overwrites_iff.mpr ⟨_, rfl, rfl⟩⟩
  | false =>
    rw [isTail, ha] at htail
    rw [stem, ha] at hstem
    obtain ⟨xs, m, n, hxs, hys, hne⟩ := Numbering.exists_of_isMark htail
    have hslot : (String.ofList (a.symbol.stem ++ xs)).toList = b.symbol.stem ++ (cs ++ xs) := by
      rw [String.toList_ofList, ← append_assoc]
      exact congrArg (· ++ xs) hstem
    exact ⟨⟨a.symbol, .renamed (String.ofList (a.symbol.stem ++ xs))⟩,
      ⟨b.symbol, .renamed (String.ofList (a.symbol.stem ++ xs))⟩, m, n,
      ⟨rfl, ha⟩, ⟨rfl, hb⟩, .renamed hxs String.toList_ofList, .renamed hys hslot, hne,
      overwrites_iff.mpr ⟨_, rfl, rfl⟩⟩

/-- The names that are confusable are those that numbers may fail to tell apart, and no others. -/
theorem confusable_iff : a.Confusable b ↔ a.CanClash b := by
  constructor
  · rintro (h | h | ⟨ha, hb, hname⟩)
    · exact h.canClash
    · exact h.canClash.symm
    · exact ⟨⟨a.symbol, .argument a.symbol.name⟩, ⟨b.symbol, .argument b.symbol.name⟩, 0, 1,
        ⟨rfl, ha⟩, ⟨rfl, hb⟩, .kept _ _, .kept _ _, by omega,
        overwrites_iff.mpr ⟨_, rfl, congrArg some hname.symm⟩⟩
  · rintro ⟨a', b', m, n, ha, hb, hm, hn, hne, hover⟩
    exact ha.confusable hb (hm.apart hn hne hover)

end Local

/-! ## The names that are made -/

theorem Symbol.ne_slash (h : '/' ∉ xs) : ∀ c ∈ xs.reverse, decide (c ≠ '/') = true :=
  fun _ hc => decide_eq_true fun hc' => h (hc' ▸ mem_reverse.mp hc)

/-- Characters that are no slash stay together with the end of a name. -/
theorem Symbol.toList_name_ofText {s : String} (hxs : '/' ∉ xs) (hne : xs ≠ [])
    {name : String} (hs : s.toList = name.toList ++ xs) :
    (ofText s).name.toList = (plain name).stem ++ xs := by
  have hstem : (s.toList.reverse.takeWhile (· ≠ '/')).reverse = (plain name).stem ++ xs := by
    rw [hs, reverse_append, takeWhile_append_of_pos (ne_slash hxs), reverse_append,
      reverse_reverse]
    rfl
  have hslash : s ≠ "/" := by
    rintro rfl
    have hlast : xs.getLast? = some '/' := by
      have h := congrArg List.getLast? hs
      rw [getLast?_append, getLast?_eq_some_getLast hne] at h
      rw [getLast?_eq_some_getLast hne]
      exact h.symm
    exact hxs (mem_of_getLast? hlast)
  simp only [ofText]
  split
  next h =>
    have hall := h.resolve_left hslash
    rw [← hstem]
    have hwhole : s.toList.reverse.takeWhile (· ≠ '/') = s.toList.reverse :=
      (List.takeWhile_prefix _).eq_of_length (by rw [hall, length_reverse])
    rw [hwhole, reverse_reverse]
  next h =>
    rw [String.toList_ofList]
    exact hstem

theorem Symbol.slash_not_mem_stem (s : Symbol) : '/' ∉ s.stem := fun h => by
  have hne : decide ('/' ≠ '/') = true := mem_takeWhile_imp (p := (· ≠ '/')) (mem_reverse.mp h)
  exact absurd rfl (of_decide_eq_true hne)

/-- A name without a slash is its own stem. -/
theorem Symbol.stem_plain {name : String} (h : '/' ∉ name.toList) :
    (plain name).stem = name.toList := by
  show (name.toList.reverse.takeWhile (· ≠ '/')).reverse = name.toList
  rw [takeWhile_eq_self_iff.mpr (ne_slash h), reverse_reverse]

namespace Local

theorem numbered_fresh (name : String) {n : Nat} (hn : 0 < n) :
    Numbered ⟨.plain name, .renamed (ofText (name ++ Nat.repr n)).name⟩ n := by
  refine .renamed (.fresh hn)
    (toList_name_ofText (not_mem_digits rfl n) Nat.toDigits_ne_nil ?_)
  rw [String.toList_append, Nat.toList_repr]

theorem numbered_shadowing (name : String) {n : Nat} (hn : 0 < n) :
    Numbered ⟨.plain name, .renamed (ofText
      ((ofText (name ++ "_" ++ Nat.repr n)).name ++ Nat.repr (n + 1))).name⟩ (n + 1) := by
  have hfirst : (ofText (name ++ "_" ++ Nat.repr n)).name.toList
      = (plain name).stem ++ '_' :: digits n := by
    refine toList_name_ofText ?_ (cons_ne_nil _ _) ?_
    · rintro (_ | ⟨_, h⟩)
      exact not_mem_digits rfl n h
    · rw [String.toList_append, String.toList_append, Nat.toList_repr, append_assoc]
      rfl
  -- the second number is put behind a name that has lost its slashes already
  have hslash : '/' ∉ (ofText (name ++ "_" ++ Nat.repr n)).name.toList := by
    rw [hfirst, mem_append]
    rintro (h | _ | ⟨_, h⟩)
    · exact slash_not_mem_stem _ h
    · exact not_mem_digits rfl n h
  generalize (ofText (name ++ "_" ++ Nat.repr n)).name = stem at hfirst hslash ⊢
  refine .renamed (.shadowing hn) ((toList_name_ofText (not_mem_digits rfl (n + 1))
    Nat.toDigits_ne_nil (by rw [String.toList_append, Nat.toList_repr])).trans
    (b := (plain stem).stem ++ _) ?_)
  rw [stem_plain hslash, hfirst, twoNumbers, append_assoc]
  rfl

end Local

end HostedLisp
