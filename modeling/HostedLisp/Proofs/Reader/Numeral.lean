import HostedLisp.Proofs.Reader.Logic
import Mathlib.Algebra.Group.Nat.Defs

/-!
# Decimal numerals

- `Text.integer_digits`: the digits of a number, with a sign in front, read as that number.
- `Token.number?_decimal`: a token that is the decimal text of an integer is that integer.
- `Value.intText_eq`: integers below the bound on digits have a text.
-/

namespace HostedLisp

open List

/-! ## Digits -/

/-- What holds of the ten digits holds of every digit. -/
theorem of_digits {P : Char → Prop} (hall : ∀ n < 10, P (Char.ofNat (48 + n))) {c : Char}
    (h : c.isDigit) : P c := by
  simp only [Char.isDigit, Bool.and_eq_true, decide_eq_true_eq] at h
  have hlo : 48 ≤ c.toNat := h.1
  have hhi : c.toNat ≤ 57 := h.2
  have hc := hall (c.toNat - 48) (by omega)
  rwa [Nat.add_sub_cancel' hlo, Char.ofNat_toNat] at hc

variable {ds : List Char}

namespace Text

variable {c : Char}

theorem isDecimal_digit (h : c.isDigit) : isDecimal c :=
  of_digits (P := (isDecimal ·)) (by decide) h

theorem isDigit_digit (h : c.isDigit) : isDigit c := of_digits (P := (isDigit ·)) (by decide) h

theorem isSpace_digit (h : c.isDigit) : isSpace c = false :=
  of_digits (P := (isSpace · = false)) (by decide) h

theorem isBlank_digit (h : c.isDigit) : isBlank c = false :=
  of_digits (P := (isBlank · = false)) (by decide) h

/-- White space inside a text stays. -/
theorem strip_eq {cs : List Char} (hhead : ∀ c ∈ cs.head?, isSpace c = false)
    (hlast : ∀ c ∈ cs.getLast?, isSpace c = false) : strip cs = cs := by
  have hdrop {ds : List Char} (h : ∀ c ∈ ds.head?, isSpace c = false) :
    ds.dropWhile isSpace = ds := by
    cases ds with
    | nil => rfl
    | cons d ds => exact dropWhile_cons_of_neg (by simp [h d rfl])
  rw [strip, hdrop hhead, hdrop (by rwa [head?_reverse]), reverse_reverse]

theorem digitsIn_digits (hds : ∀ d ∈ ds, d.isDigit) (hne : ds ≠ []) :
    digitsIn 10 ds = some (ds.map (·.toNat - 48)) := by
  have hdigit {d : Char} (hd : d.isDigit) : digitsIn.digitIn 10 d = some (d.toNat - 48) :=
    of_digits (P := fun d => digitsIn.digitIn 10 d = some (d.toNat - 48)) (by decide) hd
  induction ds with
  | nil => exact absurd rfl hne
  | cons d ds ih =>
    have hd := hdigit (hds d mem_cons_self)
    cases ds with
    | nil =>
      rw [digitsIn, hd]
      rfl
    | cons e ds =>
      have he : e ≠ '_' := by
        rintro rfl
        exact absurd (hds '_' (by simp)) (by decide)
      rw [digitsIn, hd, ih (fun c hc => hds c (mem_cons_of_mem _ hc)) (cons_ne_nil _ _)]
      · rfl
      · simp
      · rintro rest h
        exact absurd (List.cons.inj h).1 he

theorem ofDigits_digits (ds : List Char) :
    ofDigits 10 (ds.map (·.toNat - 48)) = Nat.ofDigitChars 10 ds 0 := by
  rw [ofDigits, foldl_map, Nat.ofDigitChars_eq_foldl]
  simp only [Nat.mul_comm 10]
  rfl

theorem dropMarker_ten (cs : List Char) : dropMarker 10 cs = cs := by
  unfold dropMarker
  split
  · rw [if_neg (by omega)]
  · rfl

/-- Digits after a sign are read as they stand. -/
theorem integer_digits {mark : Char} {sign : Int}
    (hmark : mark = '-' ∧ sign = -1 ∨ mark = '+' ∧ sign = 1) (hds : ∀ d ∈ ds, d.isDigit)
    (hne : ds ≠ []) (hlen : ds.length ≤ maxDigits) :
    integer (mark :: ds) 10 = .ok (sign * Nat.ofDigitChars 10 ds 0) := by
  have hstrip : strip (mark :: ds) = mark :: ds := by
    refine strip_eq ?_ ?_
    · intro c hc
      obtain rfl := Option.some.inj hc
      rcases hmark with ⟨rfl, -⟩ | ⟨rfl, -⟩ <;> decide
    · intro c hc
      rw [Option.mem_def, getLast?_cons_of_ne_nil hne] at hc
      exact isSpace_digit (hds c (mem_of_getLast? hc))
  have hshort : ¬((10 : Nat) ∉ [2, 4, 8, 16, 32] ∧ (ds.map (·.toNat - 48)).length > maxDigits) := by
    rw [length_map]
    omega
  rw [integer, if_neg (by omega)]
  rcases hmark with ⟨rfl, rfl⟩ | ⟨rfl, rfl⟩ <;>
  · simp only [hstrip, dropMarker_ten, digitsIn_digits hds hne, if_neg hshort, ofDigits_digits]
    rfl

end Text

theorem ReadM.isMacro_digit {c : Char} (h : c.isDigit) : isMacro c = false :=
  of_digits (P := (isMacro · = false)) (by decide) h

/-! ## Numerals -/

namespace Token

open Text

theorem dropFinalNewline_eq {cs : List Char} (h : cs.getLast? ≠ some '\n') :
    dropFinalNewline cs = cs := by
  unfold dropFinalNewline
  split
  next hlast => exact absurd hlast h
  next => rfl

/-- Digits alone have no radix. -/
theorem radix?_digits (hds : ∀ d ∈ ds, d.isDigit) : radix? ds = none := by
  have hmark {c : Char} (hc : c.isDigit) : ¬(c = 'r' ∨ c = 'R') := by
    rintro (rfl | rfl) <;> exact absurd hc (by decide)
  have hcolon : ∀ rest, ds ≠ ':' :: rest := by
    rintro rest rfl
    exact absurd (hds ':' mem_cons_self) (by decide)
  unfold radix?
  split
  next rest => exact absurd rfl (hcolon rest)
  next =>
    cases ds with
    | nil => rfl
    | cons d ds =>
      cases ds with
      | nil => rfl
      | cons e ds =>
        have he : e.isDigit := hds e (by simp)
        simp only [isDecimal_digit he, if_true]
        split
        · cases ds with
          | nil => rfl
          | cons r ds => exact if_neg fun h => hmark (hds r (by simp)) h.1
        · rfl

variable {n : Nat}

/-- The first digit of a number other than zero is not zero. -/
theorem toDigits_leading (hn : 0 < n) : ∃ d ds, Nat.toDigits 10 n = d :: ds ∧ isLeadingDigit d := by
  induction n using Nat.strongRecOn with
  | ind n ih =>
    by_cases hlt : n < 10
    · refine ⟨n.digitChar, [], Nat.toDigits_of_lt_base hlt, ?_⟩
      have hall : ∀ k < 10, 0 < k → isLeadingDigit (Nat.digitChar k) := by decide
      exact hall n hlt hn
    · obtain ⟨d, ds, hdigits, hd⟩ := ih (n / 10) (by omega) (by omega)
      refine ⟨d, ds ++ [(n % 10).digitChar], ?_, hd⟩
      rw [Nat.toDigits_of_base_le (by omega) (by omega), hdigits]
      rfl

theorem isDigit_toDigits {d : Char} (h : d ∈ Nat.toDigits 10 n) : d.isDigit :=
  Nat.isDigit_of_mem_toDigits (by omega) (by omega) h

theorem isDecimalNumeral_toDigits (n : Nat) : isDecimalNumeral (Nat.toDigits 10 n) := by
  obtain rfl | hn := Nat.eq_zero_or_pos n
  · decide
  · obtain ⟨d, ds, hdigits, hd⟩ := toDigits_leading hn
    have hne : d ≠ '0' := by
      rintro rfl
      exact absurd hd (by decide)
    have hds : ds.all isDecimal := by
      rw [all_eq_true]
      intro e he
      exact isDecimal_digit (isDigit_toDigits (by rw [hdigits]; exact mem_cons_of_mem _ he))
    rw [hdigits, isDecimalNumeral]
    · rw [hd, hds]
      rfl
    · rintro rfl
      exact absurd rfl hne

theorem integerParts?_toDigits (n : Nat) :
    integerParts? (Nat.toDigits 10 n) = some (Nat.toDigits 10 n, .ok 10) := by
  have hradix := radix?_digits fun d hd => isDigit_toDigits (n := n) hd
  unfold integerParts?
  simp only [hradix, isDecimalNumeral_toDigits n, if_true]
  rfl

theorem spanSign_digits (hds : ∀ d ∈ ds, d.isDigit) : spanSign ds = (none, ds) := by
  unfold spanSign
  split
  next => exact absurd (hds '+' mem_cons_self) (by decide)
  next => exact absurd (hds '-' mem_cons_self) (by decide)
  next => rfl

/-- The number of digits of a number below the bound. -/
theorem length_toDigits_le (hn : n < 10 ^ maxDigits) : (Nat.toDigits 10 n).length ≤ maxDigits :=
  (Nat.length_toDigits_le_iff (by omega) (by decide)).mpr hn

theorem number?_toDigits {mark : Option Char} {sign : Int}
    (hmark : mark = some '-' ∧ sign = -1 ∨ mark = none ∧ sign = 1) (hn : n < 10 ^ maxDigits) :
    number? (mark.toList ++ Nat.toDigits 10 n) = .ok (some (.int (sign * n))) := by
  have hne : Nat.toDigits 10 n ≠ [] := Nat.toDigits_ne_nil
  have hlast : (mark.toList ++ Nat.toDigits 10 n).getLast? ≠ some '\n' := by
    intro h
    rw [getLast?_append, getLast?_eq_some_getLast hne] at h
    exact absurd (isDigit_toDigits (getLast_mem hne)) (by rw [Option.some.inj h]; decide)
  have hspan : spanSign (mark.toList ++ Nat.toDigits 10 n) = (mark, Nat.toDigits 10 n) := by
    rcases hmark with ⟨rfl, -⟩ | ⟨rfl, -⟩
    · rfl
    · exact spanSign_digits fun d hd => isDigit_toDigits hd
  have hinteger : integer (mark.getD '+' :: Nat.toDigits 10 n) 10 = .ok (sign * n) := by
    have hsigned : mark.getD '+' = '-' ∧ sign = -1 ∨ mark.getD '+' = '+' ∧ sign = 1 := by
      rcases hmark with ⟨rfl, rfl⟩ | ⟨rfl, rfl⟩
      · exact .inl ⟨rfl, rfl⟩
      · exact .inr ⟨rfl, rfl⟩
    rw [integer_digits hsigned (fun d hd => isDigit_toDigits hd) hne (length_toDigits_le hn),
      Nat.ofDigitChars_ten_toDigits]
  rw [number?, dropFinalNewline_eq hlast, hspan]
  simp only [integerParts?_toDigits, hinteger]
  rfl

/-- The decimal text of an integer is a numeral of it. -/
theorem number?_decimal {n : Int} (hn : n.natAbs < 10 ^ maxDigits) :
    number? (decimal n).toList = .ok (some (.int n)) := by
  cases n with
  | ofNat n =>
    have h := number?_toDigits (.inr ⟨rfl, rfl⟩) (n := n) hn
    rw [Int.one_mul] at h
    rw [decimal, Nat.toList_repr]
    exact h
  | negSucc n =>
    have h := number?_toDigits (.inl ⟨rfl, rfl⟩) (n := n + 1) hn
    rw [decimal, String.toList_append, Nat.toList_repr]
    rw [Int.neg_one_mul] at h
    exact h

/-- The decimal text of an integer is digits, or a dash and digits. -/
theorem decimal_shape (n : Int) :
    ∃ c cs, (decimal n).toList = c :: cs ∧ (∀ d ∈ cs, d.isDigit) ∧
      (c.isDigit ∨ c = '-' ∧ ∃ d ∈ cs.head?, d.isDigit) := by
  have hshape (k : Nat) :
      ∃ c cs, Nat.toDigits 10 k = c :: cs ∧ c.isDigit ∧ ∀ d ∈ cs, d.isDigit := by
    obtain ⟨c, cs, h⟩ := exists_cons_of_ne_nil (Nat.toDigits_ne_nil (n := k) (b := 10))
    refine ⟨c, cs, h, isDigit_toDigits (n := k) ?_, fun d hd => isDigit_toDigits (n := k) ?_⟩
    · rw [h]
      exact mem_cons_self
    · rw [h]
      exact mem_cons_of_mem _ hd
  cases n with
  | ofNat n =>
    obtain ⟨c, cs, h, hc, hcs⟩ := hshape n
    rw [decimal, Nat.toList_repr]
    exact ⟨c, cs, h, hcs, .inl hc⟩
  | negSucc n =>
    obtain ⟨c, cs, h, hc, hcs⟩ := hshape (n + 1)
    rw [decimal, String.toList_append, Nat.toList_repr, h]
    refine ⟨'-', c :: cs, rfl, ?_, .inr ⟨rfl, c, rfl, hc⟩⟩
    intro d hd
    obtain rfl | hd := mem_cons.mp hd
    · exact hc
    · exact hcs d hd

end Token

namespace Value

/-- Integers below the bound have a text. -/
theorem intText_eq {n : Int} (hn : n.natAbs < 10 ^ Text.maxDigits) :
    intText n = .ok (Text.decimal n) := by
  rw [intText, if_neg]
  · rfl
  · rw [← String.length_toList]
    cases n with
    | ofNat n =>
      have hlen := Token.length_toDigits_le (n := n) hn
      rw [Text.decimal, Nat.toList_repr]
      omega
    | negSucc n =>
      have hlen := Token.length_toDigits_le (n := n + 1) hn
      rw [Text.decimal, String.toList_append, Nat.toList_repr, length_append]
      simp only [String.reduceToList, length_singleton]
      omega

end Value

end HostedLisp
