import HostedLisp.Compiler.Functions
import HostedLisp.Proofs.Code.Segment
import HostedLisp.Proofs.Compiler.Agree

/-!
# Expanding references to global names

A reference to a global name counts as one value. The code that it is expanded to leaves one value
too, and brings no labels with it.

- `Code.Expands`: code with its references expanded.
- `Code.Expands.runs`, `Code.Expands.forward`: the heights stay, and the jumps still go ahead.
- `Special.expands_expandGlobals`: what the compiler does.
-/

namespace HostedLisp

open Machine CompileM List

namespace Code

/-- References to global names are replaced by code that leaves one value and has no labels. -/
inductive Expands : Instrs → Instrs → Prop where
  | nil : Expands [] []
  | keep {i : Instr Value} {is js : Instrs} (hi : ∀ ns name, i.op ≠ .global ns name)
    (his : Expands is js) : Expands (i :: is) (i :: js)
  | replace {i : Instr Value} {ns name : String} {code is js : Instrs}
    (hop : i.op = .global ns name)
    (hcode : Segment 0 0 0 1 code) (hplain : ∀ k ∈ code, ∀ ns name, k.op ≠ .global ns name)
    (his : Expands is js) : Expands (i :: is) (code ++ js)

/-- Code with labels from an empty range mentions none. -/
theorem Segment.not_mem_mentioned {m n : Nat} {code : Instrs} (h : Segment 0 0 m n code)
    (id : Nat) : id ∉ mentioned code := fun hid => Nat.not_lt_zero id (h.inRange id hid).2

namespace Expands

variable {code code' : Instrs}

variable (h : Expands code code')

include h

/-- What is read off the other instructions, and comes with labels only, stays. -/
theorem filterMap_eq {φ : Instr Value → Option Nat}
    (hglobal : ∀ i ns name, i.op = .global ns name → φ i = none)
    (hmentioned : ∀ code, code.filterMap φ ⊆ mentioned code) :
    code'.filterMap φ = code.filterMap φ := by
  induction h with
  | nil => rfl
  | keep _ _ ih => rw [filterMap_cons, filterMap_cons, ih]
  | @replace i ns name code is js hop hcode _ _ ih =>
    have hnone : code.filterMap φ = [] := eq_nil_iff_forall_not_mem.mpr fun id hid =>
      hcode.not_mem_mentioned id (hmentioned code hid)
    rw [filterMap_append, hnone, nil_append, ih,
      filterMap_cons_none (hglobal i ns name hop)]

theorem placed_eq : placed code' = placed code :=
  h.filterMap_eq (fun _ _ _ hop => by rw [labelOf?, hop]) fun _ => subset_append_left _ _

theorem targets_eq : targets code' = targets code :=
  h.filterMap_eq (fun _ _ _ hop => by rw [targetOf?, hop]) fun _ => subset_append_right _ _

omit h in
theorem runs {Γ : Nat → Nat} {h h' : Option Nat} (hexpands : Expands code code')
    (hruns : Runs Γ h code h') : Runs Γ h code' h' := by
  induction hexpands generalizing h with
  | nil => exact hruns
  | keep _ _ ih =>
    cases hruns with
    | cons hflow hrest => exact .cons hflow (ih hrest)
  | replace hop hcode _ _ ih =>
    cases hruns with
    | cons hflow hrest =>
      obtain ⟨n, rfl, rfl⟩ := hflow.inv hop
      obtain ⟨γ, hfits⟩ := hcode.fits
      refine runs_append ((hfits.runs n).congr fun id hid => ?_) (ih hrest)
      exact absurd hid (hcode.not_mem_mentioned id)

theorem forward (hforward : Forward code) : Forward code' := by
  induction h with
  | nil => exact hforward
  | keep _ his ih =>
    obtain ⟨hjump, hlabel, hrest⟩ := hforward
    refine ⟨fun id hid => ?_, fun id hid => ?_, ih hrest⟩
    · rw [his.placed_eq]
      exact hjump id hid
    · rw [his.targets_eq]
      exact hlabel id hid
  | replace _ hcode _ _ ih =>
    obtain ⟨γ, hfits⟩ := hcode.fits
    refine hfits.forward.append (ih hforward.2.2) fun id hid => ?_
    exact absurd (mem_append_left _ hid) (hcode.not_mem_mentioned id)

theorem expanded : ∀ i ∈ code', ∀ ns name, i.op ≠ .global ns name := by
  induction h with
  | nil => exact fun i hi => absurd hi not_mem_nil
  | keep hi _ ih => exact forall_mem_cons.mpr ⟨hi, ih⟩
  | replace _ _ hplain _ ih => exact forall_mem_append.mpr ⟨hplain, ih⟩

/-- Expanded code of a form is balanced. -/
theorem balanced {lo hi : Nat} (hcode : Segment lo hi 0 1 code) : Balanced code' := by
  obtain ⟨γ, hfits⟩ := hcode.fits
  exact balanced_of_runs (h.runs (hfits.runs 0)) (h.forward hfits.forward) h.expanded

end Expands

end Code

namespace Special

open Code

variable {st st' : CompileState}

/-- A member is a constant, an attribute of its module or the value of its var. -/
theorem segment_expandGlobal {ns name : String} {code : Instrs}
    (h : expandGlobal ns name st = .ok code st') :
    Segment 0 0 0 1 code ∧ ∀ k ∈ code, ∀ ns name, k.op ≠ .global ns name := by
  have hattr (m : Value) (attr : String) :
      Segment 0 0 0 1 [loadConst m, named .loadAttr attr] :=
    (Segment.constant 0 m).append (.fixed 0 0 rfl (.str attr) : Segment 0 0 (0 + 1) (0 + 1) _)
  have hcall : Segment 0 0 (1 + 0) 1 [callWith 0] := .call 0 rfl rfl (by decide)
  obtain ⟨m?, st₁, -, h⟩ := exists_of_bind_ok h
  obtain ⟨member, st₂, -, h⟩ := exists_of_bind_ok h
  split at h
  · cases h
  · obtain ⟨c, st₃, -, h⟩ := exists_of_bind_ok h
    split at h
    · obtain ⟨dynamic, st₄, -, h⟩ := exists_of_bind_ok h
      split at h
      · cases h
        exact ⟨(hattr _ _).append hcall, by simp [loadConst, named, callWith, instr]⟩
      · obtain ⟨v, st₅, -, h⟩ := exists_of_bind_ok h
        cases h
        exact ⟨.constant 0 v, by simp [loadConst, instr]⟩
    · cases h
      exact ⟨hattr _ _, by simp [loadConst, named, instr]⟩

theorem expands_expandGlobals {code code' : Instrs}
    (h : expandGlobals code st = .ok code' st') : Expands code code' := by
  induction code generalizing code' st with
  | nil =>
    cases h
    exact .nil
  | cons i is ih =>
    unfold expandGlobals at h
    cases hop : i.op with
    | global ns name =>
      rw [hop] at h
      obtain ⟨here, st₁, hhere, hthen⟩ := exists_of_bind_ok h
      obtain ⟨rest, st₂, hrest, hjoin⟩ := exists_of_bind_ok hthen
      cases hjoin
      obtain ⟨hcode, hplain⟩ := segment_expandGlobal hhere
      exact .replace hop hcode hplain (ih hrest)
    | code | label | lineMarker =>
      rw [hop] at h
      obtain ⟨here, st₁, hhere, hthen⟩ := exists_of_bind_ok h
      obtain ⟨rest, st₂, hrest, hjoin⟩ := exists_of_bind_ok hthen
      cases hjoin
      cases hhere
      exact .keep (by simp [hop]) (ih hrest)

end Special

end HostedLisp
