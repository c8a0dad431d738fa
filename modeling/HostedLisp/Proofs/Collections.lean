import HostedLisp.Collection.Maps
import HostedLisp.Proofs.Walk

/-!
# Metadata and array maps

- `Value.withInfo_frame`: what a collection becomes when metadata is attached to it.
- `Value.arrayMap_answers`: what an array map answers.
-/

namespace HostedLisp.Value

/-- Metadata is attached unless it is taken to be there already. -/
def Attached (v data : Value) : Except Error Bool → Prop
  | .ok true => v.withInfo data = .ok v
  | .ok false => ∃ w, v.withInfo data = .ok w ∧ w.info = data ∧ w.items = v.items ∧ w.len = v.len
  | .error e => v.withInfo data = .error e

theorem attached {v w data : Value} {same : Except Error Bool}
    (h : v.withInfo data = do if ← same then return v else return w) (hinfo : w.info = data)
    (hitems : w.items = v.items) (hlen : w.len = v.len) : Attached v data same := by
  rcases same with e | _ | _
  · exact h
  · exact ⟨w, h, hinfo, hitems, hlen⟩
  · exact h

/-- Attaching metadata changes nothing else. Lists ask whether it is new, and a slice keeps its
own. The tree map that a tree map gives answers for keys, but has lost its count and with it its
sequence. -/
theorem withInfo_frame (v data : Value) :
    match v with
    | .cons .. | .vector .. | .hashMap .. | .hashSet .. | .keySeq .. | .valSeq .. | .trieSeq .. =>
      Attached v data (.ok false)
    | .emptyList old => Attached v data (old.eq data)
    | .list _ _ _ _ old => Attached v data (data.eq old)
    | .subvector .. => Attached v data (.ok true)
    | .treeMap .. =>
      if data.isMap then ∃ w, v.withInfo data = .ok w ∧ w.info = data ∧
        (∀ key default, w.valAt key default = v.valAt key default) ∧ w.items = .error (.fault .type)
      else v.withInfo data = .error .badArity
    | _ => True := by
  cases v with
  | emptyList | list => exact attached rfl rfl rfl rfl
  | vector | hashMap | hashSet | keySeq | valSeq => exact ⟨_, rfl, rfl, rfl, rfl⟩
  | cons x rest => exact ⟨_, rfl, rfl, by cases rest <;> rfl, by cases rest <;> rfl⟩
  | trieSeq dense es => exact ⟨_, rfl, rfl, by rcases es with _ | ⟨_, _ | _⟩ <;> rfl, rfl⟩
  | subvector => rfl
  | treeMap order tree =>
    change if data.isMap then _ else _
    unfold withInfo
    split
    · exact ⟨_, rfl, rfl, fun _ _ => rfl, by cases tree <;> rfl⟩
    · rfl
  | _ => trivial

/-- An array map finds nothing, and without a binding it cannot even be asked. Once a key is bound
in one it cannot be asked either. -/
theorem arrayMap_answers (items : List Value) (fixed : Bool) (info key val : Value) :
    let m := arrayMap items fixed info
    let answer {α : Type} (a : α) : Except Error α :=
      if items.length < 2 then .error (.fault .index) else .ok a
    m.valAt key val = answer val ∧ m.entryAt key val = answer .nil ∧
    m.containsKey key = answer false ∧ m.without key = answer m ∧
    ∀ m', m.assoc key val = .ok m' → 2 ≤ items.length ∧
      ∀ key val, m'.valAt key val = .error (.fault .index) := by
  intro m answer
  simp only [m, answer, valAt, entryAt, containsKey, without, assoc, arrayMapInsert,
    arrayMapSearch]
  by_cases h : items.length < 2
  · simp only [if_pos h]
    exact ⟨rfl, rfl, rfl, rfl, fun m' hm => by cases hm⟩
  · simp only [if_neg h]
    refine ⟨rfl, rfl, rfl, rfl, fun m' hm => ⟨by omega, fun k d => ?_⟩⟩
    simp only [pure_eq_ok, ok_bind] at hm
    split at hm
    · cases hm
    · split at hm
      · cases hm
      · cases hm
        rfl

end HostedLisp.Value
