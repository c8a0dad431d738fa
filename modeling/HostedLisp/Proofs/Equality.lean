import HostedLisp.Proofs.Coll.HashMapRefines
import HostedLisp.Proofs.Coll.VectorRefines
import Mathlib.Data.List.Forall2

/-!
# Equality of sequential collections

- `Value.Alike`: values that are equal either way round, given enough depth for their nesting.
- `Value.Elements`: a sequential collection of any kind and its elements.
- `Value.Elements.eqv_iff`: two of them are equal element by element.
- `Value.IsList`: a list and its items.
- `Value.isList_withInfo`: a list with the number of its line is the same list.
-/

namespace HostedLisp.Value

open Coll

variable {n : Nat} {v w : Value} {xs ys : List Value}

/-! ## Values without items -/

theorem toNat_inj {s t : String} (h : s.toList.map Char.toNat = t.toList.map Char.toNat) : s = t :=
  String.toList_inj.mp (List.map_injective_iff.mpr (fun _ _ h => Char.toNat_inj.mp h) h)

section

variable [Identity]

/-- Equal either way round, wherever comparing may nest deeper than `n`. -/
def Alike (n : Nat) (v w : Value) : Prop := ∀ d, n < d → eqv d v w = .ok true ∧ eqv d w v = .ok true

theorem alike_of_succ (h : ∀ d, n ≤ d → eqv (d + 1) v w = .ok true ∧ eqv (d + 1) w v = .ok true) :
    Alike n v w := by
  intro d hd
  obtain ⟨d, rfl⟩ := Nat.exists_eq_succ_of_ne_zero (Nat.ne_zero_of_lt hd)
  exact h d (Nat.le_of_lt_succ hd)

/-- Whether a value has no parts. -/
def isAtom : Value → Bool
  | .nil | .bool _ | .int _ | .str _ | .symbol .. | .keyword _ => true
  | _ => false

/-- What equality sees of a value without parts. -/
inductive Atom where
  | nil
  | number (n : Int)
  | text (s : String)
  | symbol (s : Symbol)
  | keyword (s : Symbol)
  deriving DecidableEq

/-- What equality sees of a value that has no parts. Booleans are numbers. -/
def atom : Value → Atom
  | .bool b => .number (if b then 1 else 0)
  | .int n => .number n
  | .str s => .text s
  | .symbol s _ => .symbol s
  | .keyword s => .keyword s
  | _ => .nil

theorem eqv_atom_iff {d : Nat} (hv : v.isAtom = true) (hw : w.isAtom = true) :
    eqv (d + 1) v w = .ok true ↔ v.atom = w.atom := by
  have hnil : Identity.is .nil .nil = true := Identity.is_self rfl
  have hkeyword (s t : Symbol) : Identity.is (.keyword s) (.keyword t) = true ↔ s = t :=
    (Identity.is_iff rfl).trans (by rw [keyword.injEq])
  cases v <;> cases hv <;> cases w <;> cases hw
  all_goals simp only [eqv, eqFromLeft, eqBasic, asNumber?, codes?, atom, Number.eq, hnil, hkeyword,
    Identity.is_eq_false, ne_eq, not_false_eq_true, pure, Except.pure, Except.ok.injEq, beq_iff_eq,
    Atom.number.injEq, Atom.text.injEq,
    Atom.symbol.injEq, Atom.keyword.injEq, reduceCtorEq]
  · next b c => cases b <;> cases c <;> decide
  · split <;> norm_cast
  · split <;> norm_cast
  · norm_cast
  · exact ⟨toNat_inj, fun h => h ▸ rfl⟩

theorem alike_atom (hv : v.isAtom = true) (hw : w.isAtom = true) (h : v.atom = w.atom) :
    Alike n v w :=
  alike_of_succ fun _ _ => ⟨(eqv_atom_iff hv hw).mpr h, (eqv_atom_iff hw hv).mpr h.symm⟩

end

/-! ## Element by element -/

theorem seqable_of_sequential (h : v.isSequential = true) :
    (v.isSeqable && !v.isMap && !v.isSet) = true ∧ (v.isSeqable && !v.isSet) = true := by
  cases v
  all_goals first | exact ⟨rfl, rfl⟩ | cases h

theorem isNil_of_walks {s : Value} (h : Walks s xs) : s.isNil = xs.isEmpty := by
  cases h with
  | done => rfl
  | step proper => exact Bool.eq_false_iff.mpr fun hnil => proper ((isNil_iff s).mp hnil)

/-- Stepping through two sequences compares their items one by one. -/
theorem eqSteps_iff {eq : Value → Value → Except Error Bool} {fuel : Nat} {s t : Value}
    (hxs : Walks s xs) (hys : Walks t ys) (hfuel : ys.length ≤ fuel) :
    eqSteps eq fuel s t = .ok true ↔ List.Forall₂ (fun x y => eq y x = .ok true) xs ys := by
  induction hys generalizing s xs fuel with
  | done =>
    have hend : eqSteps eq fuel s .nil = .ok s.isNil := by
      unfold eqSteps
      rfl
    rw [hend, isNil_of_walks hxs]
    cases xs <;> simp
  | @step t t' y ys proper first_eq next_eq _ ih =>
    obtain _ | fuel := fuel
    · exact absurd hfuel (Nat.not_succ_le_zero _)
    rw [eqSteps, isNil_of_walks hxs, first_eq, next_eq]
    · cases hxs with
      | done => simp
      | step _ first_eq' next_eq' rest =>
        rw [first_eq', next_eq', List.forall₂_cons, ← ih rest (Nat.le_of_succ_le_succ hfuel)]
        exact both_eq_ok_iff
    · exact proper

/-- A sequential collection and its elements: stepping through its sequence meets them. -/
structure Elements (v : Value) (xs : List Value) : Prop where
  sequential : v.isSequential = true
  walks : ∃ s, seq v = .ok s ∧ Walks s xs

section

variable [Identity]

/-- Sequential collections are equal if they are one object, or if their elements are equal. Of
which kinds they are makes no difference. -/
theorem Elements.eqv_iff {d : Nat} (hv : Elements v xs) (hw : Elements w ys) :
    eqv (d + 1) v w = .ok true ↔
      Identity.is v w = true ∨ List.Forall₂ (fun x y => eqv d y x = .ok true) xs ys := by
  obtain ⟨hv, s, hs, hxs⟩ := hv
  obtain ⟨hw, t, ht, hys⟩ := hw
  obtain ⟨hvector, hcell⟩ := seqable_of_sequential hw
  rw [← eqSteps_iff hxs hys hys.length_le, eqv]
  cases v
  case emptyList info =>
    -- it only asks whether the other one is empty
    have hleft : eqFromLeft (eqv d) (.emptyList info) w = some (.ok t.isNil) := by
      cases w
      all_goals first | cases hw; done | simp [eqFromLeft, hw, ht]
    have hsteps : eqSteps (eqv d) (extent t + 1) .nil t = .ok t.isNil := by
      cases t <;> rfl
    have hself (h : Identity.is (.emptyList info) w = true) : t.isNil = true := by
      obtain rfl := Identity.eq_of_is h
      cases ht
      rfl
    cases hs
    rw [hleft, hsteps, Except.ok.injEq]
    exact ⟨.inr, fun h => h.elim hself id⟩
  case vector | subvector | entry =>
    simp only [eqFromLeft, eqSeqs, hs, ht, hvector, if_true, ok_bind]
    split <;> simp_all
  case list | cons | indexSeq | keySeq | valSeq | trieSeq | treeSeq | arraySeq =>
    cases hs
    simp only [eqFromLeft, eqSeqs, ht, hcell, if_true, ok_bind]
    split <;> simp_all
  all_goals cases hv

/-- Equal either way round. -/
theorem Elements.alike (hv : Elements v xs) (hw : Elements w ys)
    (h : List.Forall₂ (Alike n) xs ys) : Alike (n + 1) v w :=
  alike_of_succ fun d hd =>
    ⟨(hv.eqv_iff hw).mpr (.inr (h.imp fun _ _ hxy => (hxy d hd).2)),
      (hw.eqv_iff hv).mpr (.inr (h.flip.imp fun _ _ hxy => (hxy d hd).1))⟩

end

/-! ## The elements of each kind -/

/-- A list that knows how many items it has. -/
inductive IsList : Value → List Value → Prop where
  | empty (info : Value) : IsList (.emptyList info) []
  | one (style : ListStyle) (x rest info : Value) : IsList (.list style x rest 1 info) [x]
  | more (style : ListStyle) (x info : Value) {rest y : Value} {ys : List Value}
      (hrest : IsList rest (y :: ys)) :
      IsList (.list style x rest (ys.length + 2) info) (x :: y :: ys)

theorem IsList.elements (h : IsList v xs) : Elements v xs := by
  induction h with
  | empty info => exact ⟨rfl, .nil, rfl, .done⟩
  | one style x rest info => exact ⟨rfl, _, rfl, .step (by simp) rfl rfl .done⟩
  | @more style x info rest y ys hrest ih =>
    obtain ⟨-, s, hs, hwalks⟩ := ih
    have hself : s = rest := by cases hrest <;> cases hs <;> rfl
    have hnext : next (.list style x rest (ys.length + 2) info) = .ok rest := by
      show Except.ok (if (ys.length : Int) + 2 = 1 then Value.nil else rest) = .ok rest
      rw [if_neg (by omega)]
    exact ⟨rfl, _, rfl, .step (by simp) rfl hnext (hself ▸ hwalks)⟩

theorem elements_vector {s : Vector Value} (h : s.Represents xs) (info : Value) :
    Elements (.vector s info) xs := ⟨rfl, (indexes_vector h info).walks_seq⟩

/-! ## Building lists and vectors -/

theorem listOf_cons {x y rest : Value} {xs : List Value} {count : Int}
    (h : listOf (y :: xs) = .list .plain y rest count .nil) :
    listOf (x :: y :: xs) = .list .plain x (listOf (y :: xs)) (count + 1) .nil := by
  injection h with _ _ _ hcount _
  subst hcount
  rfl

theorem isList_listOf (xs : List Value) : IsList (listOf xs) xs := by
  have hcons (x : Value) (xs : List Value) :
      ∃ rest, listOf (x :: xs) = .list .plain x rest (xs.length + 1) .nil ∧
        IsList (listOf (x :: xs)) (x :: xs) := by
    induction xs generalizing x with
    | nil => exact ⟨.nil, rfl, .one .plain x .nil .nil⟩
    | cons y xs ih =>
      obtain ⟨rest, heq, hlist⟩ := ih y
      have hlist' := listOf_cons (x := x) heq
      rw [hlist']
      exact ⟨_, rfl, .more .plain x .nil hlist⟩
  cases xs with
  | nil => exact .empty .nil
  | cons x xs =>
    obtain ⟨_, -, hlist⟩ := hcons x xs
    exact hlist

theorem represents_ofList (xs : List Value) : (Vector.ofList xs).Represents xs := by
  have hfold (v : Vector Value) (done : List Value) (hv : v.Represents done) :
      (xs.foldl Coll.Vector.push v).Represents (done ++ xs) := by
    induction xs generalizing v done with
    | nil => simpa using hv
    | cons x xs ih => simpa using ih (v.push x) (done ++ [x]) (hv.push x)
  exact hfold _ [] Coll.Vector.represents_empty

theorem elements_entry (key val : Value) : Elements (.entry key val) [key, val] :=
  ⟨rfl, _, rfl, (indexes_vector (represents_ofList _) .nil).walks (i := 0) (Nat.succ_pos _)⟩

theorem elements_cons (x info : Value) (h : Elements v xs) :
    Elements (.cons x v info) (x :: xs) := by
  obtain ⟨hv, s, hs, hwalks⟩ := h
  have hnext : next (.cons x v info) = .ok s := by
    cases v
    all_goals first | exact hs | cases hv
  exact ⟨rfl, _, rfl, .step (by simp) rfl hnext hwalks⟩

/-- **Equality goes element by element.** Two sequential collections of whatever kinds are equal if
and only if they are one and the same, or they have equally many elements and each element of the
second one is equal to the element of the first one at its position. -/
theorem eqv_sequential_iff [Identity] {d : Nat} (hv : Elements v xs) (hw : Elements w ys) :
    eqv (d + 1) v w = .ok true ↔ Identity.is v w = true ∨ xs.length = ys.length ∧
      ∀ i (hi : i < xs.length) (hi' : i < ys.length), eqv d ys[i] xs[i] = .ok true := by
  rw [hv.eqv_iff hw, List.forall₂_iff_get]
  rfl

/-- The entry of 1 and 2, a sequence and a vector. -/
theorem eq_entry_cons : eq (.entry (.int 1) (.int 2)) (.cons (.int 1) (vectorOf [.int 2]) .nil) =
    .ok true := by
  refine (eqv_sequential_iff (elements_entry ..) (elements_cons _ _ (elements_vector
    (represents_ofList _) _))).mpr (.inr ⟨rfl, fun i hi _ => ?_⟩)
  obtain rfl | rfl : i = 0 ∨ i = 1 := Nat.le_one_iff_eq_zero_or_eq_one.mp (Nat.le_of_lt_succ hi)
  · rfl
  · rfl

/-- A list is equal to itself although its element, which is no number, is not; it is not equal to
another list of that element. -/
theorem eq_list_nan : let list := listOf [.nan 0]
    Elements list [.nan 0] ∧ Identity.is list list = true ∧ eq list list = .ok true ∧
      eqv 999 (.nan 0) (.nan 0) = .ok false ∧ @eq apart list list = .ok false :=
  ⟨(isList_listOf _).elements, rfl, rfl, rfl, rfl⟩

/-- Metadata and style are no part of what a list holds. -/
theorem IsList.restyle {style : ListStyle} {x rest info : Value} {count : Int}
    (h : IsList (.list style x rest count info) xs) (style' : ListStyle) (info' : Value) :
    IsList (.list style' x rest count info') xs := by
  cases h with
  | one => exact .one ..
  | more _ _ _ hrest => exact .more _ _ _ hrest

/-- The number of a line is not nil. -/
theorem eq_lineInfo_nil (line : Int) :
    eq (lineInfo line) .nil = .ok false ∧ eq .nil (lineInfo line) = .ok false := ⟨rfl, rfl⟩

/-- A list with the number of its line is the same list. -/
theorem isList_withInfo (xs : List Value) (line : Int) :
    ∃ v, (listOf xs).withInfo (lineInfo line) = .ok v ∧ IsList v xs ∧ v.info = lineInfo line := by
  obtain ⟨hleft, hright⟩ := eq_lineInfo_nil line
  have hlist := isList_listOf xs
  cases xs with
  | nil =>
    refine ⟨.emptyList (lineInfo line), ?_, .empty _, rfl⟩
    show (eq .nil (lineInfo line) >>= fun same => _) = _
    rw [hright]
    rfl
  | cons x xs =>
    refine ⟨_, ?_, hlist.restyle .plain (lineInfo line), rfl⟩
    show (eq (lineInfo line) .nil >>= fun same => _) = _
    rw [hleft]
    rfl

end HostedLisp.Value
