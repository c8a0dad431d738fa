import HostedLisp.Proofs.Reader.Logic
import HostedLisp.Proofs.Walk

/-!
# Names and symbols that are read

- `Symbol.text_ofText`: splitting a written name loses nothing.
- `Token.name?_symbol`: a token that names a symbol starts with the same character as the symbol's
  text, which is no longer than the token.
- `Token.Starts`: the characters that a symbol's text can start with.
- `Value.AsRead`: the symbols and lists that reading can give: the text of a symbol starts as a
  token does, and no list is a stepping one.
- `ReadM.number_isNumber`: what starts as a number is read as one.
-/

namespace HostedLisp

open List

theorem Symbol.text_ofText (s : String) : (Symbol.ofText s).text = s := by
  simp only [ofText]
  split
  next => rfl
  next h =>
    have hparts := takeWhile_append_dropWhile (p := (· ≠ '/')) (l := s.toList.reverse)
    cases hdrop : s.toList.reverse.dropWhile (· ≠ '/') with
    | nil =>
      refine absurd (Or.inr ?_) h
      rw [hdrop, append_nil] at hparts
      rw [hparts, length_reverse]
    | cons c rest =>
      have hc : c = '/' := by
        have hhead := head?_dropWhile_not (· ≠ '/') s.toList.reverse
        rw [hdrop] at hhead
        exact Decidable.not_not.mp (of_decide_eq_false hhead)
      subst hc
      rw [hdrop] at hparts
      generalize s.toList.reverse.takeWhile (· ≠ '/') = tail at hparts ⊢
      have hs : s.toList = rest.reverse ++ '/' :: tail.reverse := by
        rw [← reverse_reverse s.toList, ← hparts]
        simp
      have htake : s.toList.take (s.toList.length - tail.length - 1) = rest.reverse := by
        rw [hs]
        exact take_left' (by simp; omega)
      show String.ofList (s.toList.take (s.toList.length - tail.length - 1)) ++ "/" ++
        String.ofList tail.reverse = s
      rw [htake]
      apply String.toList_injective
      rw [hs]
      simp

namespace Token

/-! ## The parts of a token -/

theorem pos_of_mem_slashes {cs : List Char} {p : Nat} (h : p ∈ slashes cs) : 0 < p := by
  simp only [slashes, mem_reverse, mem_map, mem_filter, decide_eq_true_eq] at h
  obtain ⟨⟨c, i⟩, ⟨-, -, hi⟩, rfl⟩ := h
  exact hi

theorem nameAfter?_eq_some {cs ns name : List Char} {p : Nat}
    (h : nameAfter? cs p = some (ns, name)) :
    p + 1 < cs.length ∧ ns = cs.take (p + 1) ∧ name.length + p + 1 ≤ cs.length := by
  unfold nameAfter? at h
  split at h
  next c rest hdrop =>
    have hlen := congrArg List.length hdrop
    rw [length_drop, length_cons] at hlen
    have hle := (takeWhile_sublist (· ≠ '/') (l := rest)).length_le
    split at h
    · cases h
      refine ⟨by omega, rfl, ?_⟩
      rw [length_cons]
      omega
    · cases h
  next => cases h

/-- The namespace and the name of a token: either the name starts where the token does, or the
namespace does. -/
theorem qualified?_eq_some {cs name : List Char} {ns : Option (List Char)}
    (h : qualified? cs = some (ns, name)) :
    (ns = none ∧ name ≠ [] ∧ name.head? = cs.head? ∧ name.length ≤ cs.length) ∨
      ∃ p, 0 < p ∧ p + 1 < cs.length ∧ ns = some (cs.take (p + 1)) ∧
        name.length + p + 1 ≤ cs.length := by
  cases cs with
  | nil => cases h
  | cons c rest =>
    rw [qualified?] at h
    split at h
    · cases hfind : (slashes (c :: rest)).findSome? (nameAfter? (c :: rest)) with
      | none =>
        rw [hfind] at h
        cases h
        have hle := (takeWhile_sublist (· ≠ '/') (l := rest)).length_le
        exact .inl ⟨rfl, cons_ne_nil _ _, rfl, Nat.succ_le_succ hle⟩
      | some found =>
        obtain ⟨ns', name'⟩ := found
        rw [hfind] at h
        cases h
        obtain ⟨p, hp, hafter⟩ := exists_of_findSome?_eq_some hfind
        obtain ⟨hlt, rfl, hlen⟩ := nameAfter?_eq_some hafter
        exact .inr ⟨p, pos_of_mem_slashes hp, hlt, rfl, hlen⟩
    · cases h

theorem length_dropFinalDot_le (name : List Char) : (dropFinalDot name).length ≤ name.length := by
  unfold dropFinalDot
  split
  · rw [length_dropLast]
    omega
  · exact Nat.le_refl _

/-- A dot is never dropped from the front. -/
theorem head?_dropFinalDot (name : List Char) : (dropFinalDot name).head? = name.head? := by
  unfold dropFinalDot
  split
  next h =>
    cases name with
    | nil => rfl
    | cons c rest =>
      cases rest with
      | nil => exact absurd h.1 h.2
      | cons d rest => rfl
  next => rfl

/-- What a token that names a symbol is made of. -/
theorem name?_eq_symbol {token : List Char} {s : Symbol} (h : name? token = some (.symbol s)) :
    ∃ ns name, qualified? token = some (ns, name) ∧
      s = ⟨ns.map fun cs => String.ofList cs.dropLast, String.ofList (dropFinalDot name)⟩ := by
  unfold name? at h
  cases hparts : symbolParts? token with
  | none =>
    rw [hparts] at h
    cases h
  | some parts =>
    obtain ⟨ns, name⟩ := parts
    rw [hparts, Option.bind_eq_bind, Option.bind_some] at h
    have h := (Option.ite_none_left_eq_some.mp h).2
    split at h
    next => cases h
    next => cases h
    next hcolon =>
      cases h
      refine ⟨ns, name, ?_, rfl⟩
      rw [← hparts, symbolParts?]
      exact hcolon

/-- The text of a symbol starts as the token does that names it, and is no longer. -/
theorem name?_symbol {token : List Char} {s : Symbol} (h : name? token = some (.symbol s)) :
    s.text.toList.head? = token.head? ∧ s.text.toList.length ≤ token.length := by
  obtain ⟨ns, name, hqualified, rfl⟩ := name?_eq_symbol h
  have hname := length_dropFinalDot_le name
  rcases qualified?_eq_some hqualified with ⟨rfl, -, hhead, hlen⟩ | ⟨p, hpos, hlt, rfl, hlen⟩
  · have htext : (Symbol.text ⟨none, String.ofList (dropFinalDot name)⟩).toList =
      dropFinalDot name := by
      simp [Symbol.text]
    rw [Option.map_none, htext, head?_dropFinalDot]
    exact ⟨hhead, by omega⟩
  · have htext : (Symbol.text ⟨some (String.ofList (token.take (p + 1)).dropLast),
        String.ofList (dropFinalDot name)⟩).toList =
        token.take p ++ '/' :: dropFinalDot name := by
      rw [dropLast_take hlt]
      simp [Symbol.text]
    rw [Option.map_some, htext]
    obtain ⟨p, rfl⟩ := Nat.exists_eq_succ_of_ne_zero (Nat.ne_of_gt hpos)
    refine ⟨?_, ?_⟩
    · cases token with
      | nil => simp at hlt
      | cons c rest => rfl
    · rw [length_append, length_take, length_cons]
      omega

/-- What a token with a single colon names. -/
theorem name?_colon {rest : List Char} {name : Name} (h : name? (':' :: rest) = some name)
    (hsingle : rest.head? ≠ some ':') : name = .keyword (.ofText (String.ofList rest)) := by
  unfold name? at h
  cases hparts : symbolParts? (':' :: rest) with
  | none =>
    rw [hparts] at h
    cases h
  | some parts =>
    rw [hparts, Option.bind_eq_bind, Option.bind_some] at h
    have h := (Option.ite_none_left_eq_some.mp h).2
    split at h
    next htoken =>
      cases htoken
      exact absurd rfl hsingle
    next htoken =>
      cases htoken
      exact (Option.some.inj h).symm
    next hcolon => exact absurd rfl (hcolon rest)

/-- The characters that start a token of a name. -/
def Starts (c : Char) : Prop :=
  Text.isBlank c = false ∧ Text.isDigit c = false ∧ (ReadM.isMacro c → c = '%')

end Token

namespace Value

/-- The symbols and lists that reading can give. -/
def AsRead : Value → Prop
  | .symbol s _ => ∃ c, s.text.toList.head? = some c ∧ Token.Starts c
  | .list .stepping .. => False
  | _ => True

theorem asRead_listOf (xs : List Value) : (listOf xs).AsRead := by
  cases xs <;> trivial

theorem asRead_ofCodes (codes : List Nat) : (ofCodes codes).AsRead := by
  unfold ofCodes
  split <;> trivial

/-- Metadata does not change what a symbol or list is. -/
theorem AsRead.withInfo {v w data : Value} (hv : v.AsRead) (h : v.withInfo data = .ok w) :
    w.AsRead := by
  cases v with
  | symbol s info =>
    cases h
    exact hv
  | emptyList old =>
    obtain ⟨same, -, h⟩ := bind_eq_ok h
    cases same <;> cases h <;> trivial
  | list style x rest n old =>
    obtain ⟨same, -, h⟩ := bind_eq_ok h
    cases same
    · cases h
      trivial
    · cases h
      exact hv
  | treeMap order tree count info =>
    simp only [Value.withInfo] at h
    split at h <;> cases h
    trivial
  | _ => cases h <;> trivial

end Value

theorem Value.asRead_number {v : Value} (h : v.asNumber?.isSome) : v.AsRead := by
  cases v <;> trivial

/-- A token that has the shape of a number is one. -/
theorem Token.number?_isSome {token : List Char} {v : Value} (h : number? token = .ok (some v)) :
    v.asNumber?.isSome := by
  have hfraction {sign : Option Char} {num den : List Char} {w : Value}
      (hw : fractionValue sign num den = .ok w) : w.asNumber?.isSome := by
    obtain ⟨n, -, hw⟩ := bind_eq_ok hw
    obtain ⟨d, -, hw⟩ := bind_eq_ok hw
    by_cases hd : d = 0
    · simp only [hd, if_true] at hw
      cases hw
    · simp only [hd, if_false] at hw
      cases hw
      rfl
  unfold number? at h
  dsimp only at h
  split at h
  · split at h
    · cases h
    · split at h <;> cases h
      rfl
  · split at h
    · cases h
      rfl
    · split at h
      · obtain ⟨w, hw, h⟩ := bind_eq_ok h
        cases h
        exact hfraction hw
      · cases h

theorem ReadM.number_isNumber (start : Char) {env : ReadEnv} {st : ReadState} :
    Ends True (number start) env st fun v _ => v.asNumber?.isSome := by
  refine ends_self.bind fun n _ _ => ends_self.bind fun cs _ _ => ?_
  split
  next => trivial
  next => trivial
  next hv => exact .pure (Token.number?_isSome hv)

/-- Only stepping lists are unquoted. -/
theorem SyntaxQuote.marked_asRead {form v : Value} (hform : form.AsRead) : marked form ≠ .ok v := by
  intro h
  cases form with
  | list style x rest n info =>
    cases style with
    | plain | bare => cases h
    | stepping => exact hform
  | _ => cases h

end HostedLisp
