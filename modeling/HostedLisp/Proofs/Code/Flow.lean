import HostedLisp.Code.StackSize
import Mathlib.Logic.Relation

/-!
# The height of the stack along every path

Code runs from its first instruction on, and jumps go to labels. Heights of the stack can be checked
instruction by instruction, once each label has a height of its own. If the check succeeds and jumps
only go ahead, the height is the same on all paths.

- `Code.Step`, `Code.Reaches`: running code, as far as positions and the height of the stack go.
- `Code.Balanced`: code that leaves one value on the stack and touches nothing below.
- `Code.Flows`, `Code.Runs`: the check, with the height at each label.
- `Code.Forward`: every jump has its label ahead.
- `Code.balanced_of_runs`: code that passes the check is balanced.
-/

namespace HostedLisp.Code

open Machine

/-! ## Running code -/

/-- How a jump goes: always, or depending on a value that it pops. -/
inductive Jump where
  | always
  | ifPopped

/-- The operations that jump to a label. -/
def jump? : Opcode → Option Jump
  | .jumpForward | .jumpAbsolute => some .always
  | .popJumpIfFalse | .popJumpIfTrue => some .ifPopped
  | _ => none

/-- The number of values that a jump pops. -/
def Jump.pops : Jump → Nat
  | .always => 0
  | .ifPopped => 1

/-- The number of values that an instruction pops. -/
def pops (i : Instr Value) : Int :=
  match i.op with
  | .code o =>
    match jump? o with
    | some j => j.pops
    | none =>
      match effect o i.arg with
      | .ok (pop, _) => pop
      | .error _ => 0
  | _ => 0

/-- A position where a label stands. Labels are told apart by their numbers. -/
def StandsAt (code : List (Instr Value)) (l : Label) (q : Nat) : Prop :=
  ∃ i l', code[q]? = some i ∧ i.op = .label l' ∧ l'.id = l.id

/-- One step, from a position and a height of the stack. References to global names have to be
expanded before code runs, and neither blocks nor returns go on in this sense. -/
inductive Step (code : List (Instr Value)) : Nat × Int → Nat × Int → Prop where
  | marker {p : Nat} {e : Int} {i : Instr Value} (hi : code[p]? = some i)
    (hop : i.op = .lineMarker) : Step code (p, e) (p + 1, e)
  | label {p : Nat} {e : Int} {i : Instr Value} {l : Label} (hi : code[p]? = some i)
    (hop : i.op = .label l) : Step code (p, e) (p + 1, e)
  | plain {p : Nat} {e pop push : Int} {i : Instr Value} {o : Opcode} (hi : code[p]? = some i)
    (hop : i.op = .code o) (heffect : effect o i.arg = .ok (pop, push)) :
    Step code (p, e) (p + 1, e - pop + push)
  | jump {p q : Nat} {e : Int} {i : Instr Value} {o : Opcode} {j : Jump} {l : Label}
    (hi : code[p]? = some i) (hop : i.op = .code o) (hjump : jump? o = some j)
    (harg : i.arg = .label l)
    (hq : StandsAt code l q) : Step code (p, e) (q, e - j.pops)
  | pass {p : Nat} {e : Int} {i : Instr Value} {o : Opcode} (hi : code[p]? = some i)
    (hop : i.op = .code o) (hjump : jump? o = some .ifPopped) : Step code (p, e) (p + 1, e - 1)

/-- Any number of steps. -/
abbrev Reaches (code : List (Instr Value)) : Nat × Int → Nat × Int → Prop :=
  Relation.ReflTransGen (Step code)

/-- Code that leaves one value on the stack, from whatever height `d` it starts. -/
structure Balanced (code : List (Instr Value)) : Prop where
  /-- No instruction pops what was there before, and each can go on. -/
  safe : ∀ {d e : Int} {p : Nat} {i : Instr Value}, Reaches code (0, d) (p, e) → code[p]? = some i →
    d ≤ e - pops i ∧ ∃ c, Step code (p, e) c
  /-- Steps go ahead, so that every run comes to an end. -/
  ahead : ∀ {d e e' : Int} {p q : Nat}, Reaches code (0, d) (p, e) →
    Step code (p, e) (q, e') → p < q
  /-- A run ends behind the last instruction, with one more value on the stack. -/
  ends : ∀ {d e : Int} {p : Nat}, Reaches code (0, d) (p, e) → code[p]? = none →
    p = code.length ∧ e = d + 1
  /-- The height at a position is the same on all paths. -/
  same : ∀ {d e e' : Int} {p : Nat}, Reaches code (0, d) (p, e) →
    Reaches code (0, d) (p, e') → e = e'
  /-- So is the height at a label. -/
  labels : ∀ {d e e' : Int} {p q : Nat} {l : Label}, StandsAt code l p → StandsAt code l q →
    Reaches code (0, d) (p, e) → Reaches code (0, d) (q, e') → e = e'

/-! ## Checking heights -/

/-- The height of the stack before and after an instruction, counted from some base. The labels have
the heights `Γ`. There is no height between a jump that is always taken and the next label. -/
inductive Flows (Γ : Nat → Nat) : Option Nat → Instr Value → Option Nat → Prop where
  | marker {i : Instr Value} (hop : i.op = .lineMarker) (n : Nat) : Flows Γ (some n) i (some n)
  | global {i : Instr Value} {ns name : String} (hop : i.op = .global ns name) (n : Nat) :
    Flows Γ (some n) i (some (n + 1))
  | plain {i : Instr Value} {o : Opcode} {pop push : Nat} (hop : i.op = .code o)
    (heffect : effect o i.arg = .ok (pop, push)) (n : Nat) :
    Flows Γ (some (n + pop)) i (some (n + push))
  | branch {i : Instr Value} {o : Opcode} {l : Label} (hop : i.op = .code o)
    (hjump : jump? o = some .ifPopped) (harg : i.arg = .label l) :
    Flows Γ (some (Γ l.id + 1)) i (some (Γ l.id))
  | jump {i : Instr Value} {o : Opcode} {l : Label} (hop : i.op = .code o)
    (hjump : jump? o = some .always) (harg : i.arg = .label l) : Flows Γ (some (Γ l.id)) i none
  | label {i : Instr Value} {l : Label} (hop : i.op = .label l) :
    Flows Γ (some (Γ l.id)) i (some (Γ l.id))
  | labelAfterJump {i : Instr Value} {l : Label} (hop : i.op = .label l) :
    Flows Γ none i (some (Γ l.id))

/-- The height before and after a piece of code. -/
inductive Runs (Γ : Nat → Nat) : Option Nat → List (Instr Value) → Option Nat → Prop where
  | nil (h : Option Nat) : Runs Γ h [] h
  | cons {h h' h'' : Option Nat} {i : Instr Value} {is : List (Instr Value)} (hi : Flows Γ h i h')
    (his : Runs Γ h' is h'') : Runs Γ h (i :: is) h''

theorem runs_append {Γ : Nat → Nat} {h h' h'' : Option Nat} {a b : List (Instr Value)}
    (ha : Runs Γ h a h') (hb : Runs Γ h' b h'') : Runs Γ h (a ++ b) h'' := by
  induction ha with
  | nil => exact hb
  | cons hi _ ih => exact .cons hi (ih hb)

/-- The heights at all positions. -/
theorem exists_heights {Γ : Nat → Nat} {h h' : Option Nat} {code : List (Instr Value)}
    (hcode : Runs Γ h code h') : ∃ H : Nat → Option Nat, H 0 = h ∧ H code.length = h' ∧
      ∀ p i, code[p]? = some i → Flows Γ (H p) i (H (p + 1)) := by
  induction hcode with
  | nil h => exact ⟨fun _ => h, rfl, rfl, fun p i hi => by cases hi⟩
  | @cons h _ _ i is hi _ ih =>
    obtain ⟨H, hstart, hend, hflows⟩ := ih
    refine ⟨fun p => p.casesOn h H, rfl, hend, fun p k hk => ?_⟩
    cases p with
    | zero =>
      obtain rfl := Option.some.inj hk
      show Flows Γ h i (H 0)
      rw [hstart]
      exact hi
    | succ p => exact hflows p k hk

/-! ## Jumps that go ahead -/

/-- The number of the label that an instruction is. -/
def labelOf? (i : Instr Value) : Option Nat :=
  match i.op with
  | .label l => some l.id
  | _ => none

/-- The number of the label that an instruction jumps to. -/
def targetOf? (i : Instr Value) : Option Nat :=
  match i.op, i.arg with
  | .code o, .label l => (jump? o).map fun _ => l.id
  | _, _ => none

/-- The labels of a piece of code. -/
def placed (code : List (Instr Value)) : List Nat := code.filterMap labelOf?

/-- The labels that a piece of code jumps to. -/
def targets (code : List (Instr Value)) : List Nat := code.filterMap targetOf?

/-- Every jump has its label ahead and never behind. -/
def Forward : List (Instr Value) → Prop
  | [] => True
  | i :: is => (∀ id, targetOf? i = some id → id ∈ placed is) ∧
      (∀ id, labelOf? i = some id → id ∉ targets is) ∧ Forward is

variable {o : Opcode}

section

variable {code : List (Instr Value)} {p q : Nat} {i k : Instr Value} {id : Nat}

theorem targetOf?_eq_none (h : labelOf? i = some id) : targetOf? i = none := by
  unfold labelOf? at h
  split at h
  · next hop => rw [targetOf?, hop]
  · cases h

theorem targetOf?_eq {j : Jump} {l : Label} (hop : i.op = .code o)
    (hjump : jump? o = some j) (harg : i.arg = .label l) : targetOf? i = some l.id := by
  simp only [targetOf?, hop, harg, hjump, Option.map_some]

theorem mem_targets (hi : code[p]? = some i) (h : targetOf? i = some id) : id ∈ targets code :=
  List.mem_filterMap.mpr ⟨i, List.mem_of_getElem? hi, h⟩

theorem Forward.exists_label (h : Forward code) (hi : code[p]? = some i)
    (htarget : targetOf? i = some id) : ∃ (q : Nat) (k : Instr Value),
      code[q]? = some k ∧ labelOf? k = some id := by
  induction code generalizing p with
  | nil => cases hi
  | cons j is ih =>
    obtain ⟨hjump, -, hrest⟩ := h
    cases p with
    | zero =>
      obtain rfl := Option.some.inj hi
      obtain ⟨k, hk, hlabel⟩ := List.mem_filterMap.mp (hjump id htarget)
      obtain ⟨q, hq⟩ := List.mem_iff_getElem?.mp hk
      exact ⟨q + 1, k, hq, hlabel⟩
    | succ p =>
      obtain ⟨q, k, hq, hlabel⟩ := ih hrest hi
      exact ⟨q + 1, k, hq, hlabel⟩

theorem Forward.lt (h : Forward code) (hi : code[p]? = some i) (htarget : targetOf? i = some id)
    (hk : code[q]? = some k) (hlabel : labelOf? k = some id) : p < q := by
  induction code generalizing p q with
  | nil => cases hi
  | cons j is ih =>
    obtain ⟨-, hbehind, hrest⟩ := h
    cases q with
    | zero =>
      -- a label in front has no jump to it behind, and is no jump itself
      obtain rfl := Option.some.inj hk
      cases p with
      | zero =>
        obtain rfl := Option.some.inj hi
        rw [targetOf?_eq_none hlabel] at htarget
        cases htarget
      | succ p => exact absurd (mem_targets (p := p) hi htarget) (hbehind id hlabel)
    | succ q =>
      cases p with
      | zero => exact Nat.succ_pos q
      | succ p => exact Nat.succ_lt_succ (ih hrest hi hk)

end

/-! ## Soundness of the check -/

theorem jump?_of_effect {arg : Value} {e : Int × Int} (heffect : effect o arg = .ok e) :
    jump? o = none := by
  cases o
  case jumpForward | jumpAbsolute | popJumpIfFalse | popJumpIfTrue => cases arg <;> cases heffect
  all_goals rfl

section

variable {Γ : Nat → Nat} {h h' : Option Nat} {i : Instr Value}

/-- What the heights around an instruction say, for each kind of instructions. -/
theorem Flows.inv (hflow : Flows Γ h i h') {op : Op} : i.op = op →
    match op with
    | .lineMarker => ∃ n, h = some n ∧ h' = some n
    | .global .. => ∃ n, h = some n ∧ h' = some (n + 1)
    | .label l => (h = none ∨ h = some (Γ l.id)) ∧ h' = some (Γ l.id)
    | .code o => ∀ j?, jump? o = j? → match j? with
      | none => ∃ n pop push : Nat, h = some (n + pop) ∧ h' = some (n + push) ∧
        effect o i.arg = .ok (pop, push)
      | some j => ∃ l : Label, i.arg = .label l ∧ h = some (Γ l.id + j.pops) ∧
        (j = .ifPopped → h' = some (Γ l.id)) := by
  rintro rfl
  cases hflow with
  | marker hop n | global hop n =>
    rw [hop]
    exact ⟨n, rfl, rfl⟩
  | label hop =>
    rw [hop]
    exact ⟨.inr rfl, rfl⟩
  | labelAfterJump hop =>
    rw [hop]
    exact ⟨.inl rfl, rfl⟩
  | plain hop heffect n =>
    rw [hop]
    rintro _ rfl
    rw [jump?_of_effect heffect]
    exact ⟨n, _, _, rfl, rfl, heffect⟩
  | branch hop hjump harg =>
    rw [hop]
    rintro _ rfl
    rw [hjump]
    exact ⟨_, harg, rfl, fun _ => rfl⟩
  | jump hop hjump harg =>
    rw [hop]
    rintro _ rfl
    rw [hjump]
    exact ⟨_, harg, rfl, fun hj => by cases hj⟩

end

/-- Heights at all positions that fit the code, all of whose references have been expanded. -/
structure Heights (Γ : Nat → Nat) (code : List (Instr Value)) (H : Nat → Option Nat) : Prop where
  start : H 0 = some 0
  finish : H code.length = some 1
  flows : ∀ {p : Nat} {i : Instr Value}, code[p]? = some i → Flows Γ (H p) i (H (p + 1))
  forward : Forward code
  expanded : ∀ i ∈ code, ∀ ns name, i.op ≠ .global ns name

/-- The height at a position. Behind a jump that is always taken it is that of the label there. -/
def At (Γ : Nat → Nat) (code : List (Instr Value)) (H : Nat → Option Nat) (p n : Nat) : Prop :=
  H p = some n ∨ H p = none ∧ ∃ i l, code[p]? = some i ∧ i.op = .label l ∧ n = Γ l.id

namespace Heights

variable {Γ : Nat → Nat} {code : List (Instr Value)} {H : Nat → Option Nat} {p q n n' : Nat}
  {d e e' : Int} {i : Instr Value} {l : Label}

theorem at_unique (h : At Γ code H p n) (h' : At Γ code H p n') : n = n' := by
  rcases h with h | ⟨h, i, l, hi, hop, hn⟩
  · rcases h' with h' | ⟨h', -⟩
    · exact Option.some.inj (h.symm.trans h')
    · rw [h] at h'
      cases h'
  · rcases h' with h' | ⟨-, i', l', hi', hop', hn'⟩
    · rw [h] at h'
      cases h'
    · rw [hi] at hi'
      obtain rfl := Option.some.inj hi'
      rw [hop] at hop'
      cases hop'
      rw [hn, hn']

variable (h : Heights Γ code H)

include h

/-- A label has its own height. -/
theorem at_label (hi : code[p]? = some i) (hop : i.op = .label l) : At Γ code H p (Γ l.id) := by
  rcases (h.flows hi).inv hop with ⟨hnone | hsome, -⟩
  · exact .inr ⟨hnone, i, l, hi, hop, rfl⟩
  · exact .inl hsome

theorem at_stands (hq : StandsAt code l q) : At Γ code H q (Γ l.id) := by
  obtain ⟨i, l', hi, hop, hid⟩ := hq
  rw [← hid]
  exact h.at_label hi hop

/-- A step leads from the height at a position to that at the next one. -/
theorem step (hn : At Γ code H p n) (hstep : Step code (p, d + n) (q, e')) :
    ∃ n', At Γ code H q n' ∧ e' = d + n' := by
  cases hstep with
  | marker hi hop =>
    obtain ⟨m, hbefore, hafter⟩ := (h.flows hi).inv hop
    obtain rfl := at_unique hn (.inl hbefore)
    exact ⟨n, .inl hafter, rfl⟩
  | label hi hop =>
    obtain rfl := at_unique hn (h.at_label hi hop)
    exact ⟨_, .inl ((h.flows hi).inv hop).2, rfl⟩
  | plain hi hop heffect =>
    obtain ⟨m, pop, push, hbefore, hafter, heffect'⟩ :=
      (h.flows hi).inv hop _ (jump?_of_effect heffect)
    rw [heffect] at heffect'
    cases heffect'
    refine ⟨m + push, .inl hafter, ?_⟩
    rw [at_unique hn (.inl hbefore)]
    omega
  | @jump _ _ _ _ o j l' hi hop hjump harg hq =>
    obtain ⟨l, harg', hbefore, -⟩ := (h.flows hi).inv hop _ hjump
    rw [harg] at harg'
    cases harg'
    refine ⟨Γ l'.id, h.at_stands hq, ?_⟩
    rw [at_unique hn (.inl hbefore)]
    omega
  | pass hi hop hjump =>
    obtain ⟨l, -, hbefore, hafter⟩ := (h.flows hi).inv hop _ hjump
    refine ⟨Γ l.id, .inl (hafter rfl), ?_⟩
    rw [at_unique hn (.inl hbefore)]
    simp only [Jump.pops]
    omega

/-- Every position is reached with its own height. -/
theorem reaches (hreach : Reaches code (0, d) (p, e)) : ∃ n, At Γ code H p n ∧ e = d + n := by
  generalize hc : (p, e) = c at hreach
  induction hreach generalizing p e with
  | refl =>
    cases hc
    exact ⟨0, .inl h.start, by simp⟩
  | @tail b c _ hstep ih =>
    obtain ⟨q, e'⟩ := b
    obtain ⟨n, hn, rfl⟩ := ih rfl
    subst hc
    exact h.step hn hstep

theorem ahead (hstep : Step code (p, e) (q, e')) : p < q := by
  cases hstep with
  | marker | label | plain | pass => exact Nat.lt_succ_self p
  | jump hi hop hjump harg hq =>
    obtain ⟨k, l', hk, hlabel, hid⟩ := hq
    refine h.forward.lt hi (targetOf?_eq hop hjump harg) hk ?_
    rw [labelOf?, hlabel, ← hid]

omit h in
theorem le_length (hreach : Reaches code (0, d) (p, e)) : p ≤ code.length := by
  generalize hc : (p, e) = c at hreach
  induction hreach generalizing p e with
  | refl =>
    cases hc
    exact Nat.zero_le _
  | @tail b c _ hstep ih =>
    subst hc
    -- wherever a step leads to, there is an instruction in front of it or at it
    cases hstep with
    | marker hi | label hi | plain hi | pass hi => exact (List.getElem?_eq_some_iff.mp hi).1
    | jump hi hop hjump harg hq =>
      obtain ⟨k, l', hk, -⟩ := hq
      exact Nat.le_of_lt (List.getElem?_eq_some_iff.mp hk).1

/-- No instruction pops more than what was pushed, and each can go on. -/
theorem safe (hn : At Γ code H p n) (hi : code[p]? = some i) :
    d ≤ d + n - pops i ∧ ∃ c, Step code (p, d + n) c := by
  cases hop : i.op with
  | lineMarker =>
    have hpops : pops i = 0 := by rw [pops, hop]
    exact ⟨by omega, _, .marker hi hop⟩
  | label l =>
    have hpops : pops i = 0 := by rw [pops, hop]
    exact ⟨by omega, _, .label hi hop⟩
  | global ns name => exact absurd hop (h.expanded i (List.mem_of_getElem? hi) ns name)
  | code o =>
    cases hjump : jump? o with
    | none =>
      obtain ⟨m, pop, push, hbefore, -, heffect⟩ := (h.flows hi).inv hop _ hjump
      have hpops : pops i = pop := by simp only [pops, hop, hjump, heffect]
      have hm := at_unique hn (.inl hbefore)
      exact ⟨by omega, _, .plain hi hop heffect⟩
    | some j =>
      obtain ⟨l, harg, hbefore, -⟩ := (h.flows hi).inv hop _ hjump
      have hpops : pops i = j.pops := by simp only [pops, hop, hjump]
      have hm := at_unique hn (.inl hbefore)
      obtain ⟨q, k, hk, hlabel⟩ := h.forward.exists_label hi (targetOf?_eq hop hjump harg)
      have hq : StandsAt code l q := by
        unfold labelOf? at hlabel
        split at hlabel
        next l' hop' => exact ⟨k, l', hk, hop', Option.some.inj hlabel⟩
        next => cases hlabel
      exact ⟨by omega, _, .jump hi hop hjump harg hq⟩

theorem balanced : Balanced code where
  safe hreach hi := by
    obtain ⟨n, hn, rfl⟩ := h.reaches hreach
    exact h.safe hn hi
  ahead _ hstep := h.ahead hstep
  ends {d e p} hreach hend := by
    have hp : p = code.length := by
      have hle := le_length hreach
      have hge := List.getElem?_eq_none_iff.mp hend
      omega
    subst hp
    obtain ⟨n, hn, rfl⟩ := h.reaches hreach
    rcases hn with hn | ⟨hnone, -⟩
    · rw [h.finish] at hn
      obtain rfl := Option.some.inj hn
      exact ⟨rfl, rfl⟩
    · rw [h.finish] at hnone
      cases hnone
  same hreach hreach' := by
    obtain ⟨n, hn, rfl⟩ := h.reaches hreach
    obtain ⟨n', hn', rfl⟩ := h.reaches hreach'
    rw [at_unique hn hn']
  labels hp hq hreach hreach' := by
    obtain ⟨n, hn, rfl⟩ := h.reaches hreach
    obtain ⟨n', hn', rfl⟩ := h.reaches hreach'
    rw [at_unique hn (h.at_stands hp), at_unique hn' (h.at_stands hq)]

end Heights

/-- Code that passes the check is balanced. -/
theorem balanced_of_runs {Γ : Nat → Nat} {code : List (Instr Value)}
    (hruns : Runs Γ (some 0) code (some 1)) (hforward : Forward code)
    (hexpanded : ∀ i ∈ code, ∀ ns name, i.op ≠ .global ns name) : Balanced code := by
  obtain ⟨H, hstart, hfinish, hflows⟩ := exists_heights hruns
  exact Heights.balanced ⟨hstart, hfinish, fun hi => hflows _ _ hi, hforward, hexpanded⟩

end HostedLisp.Code
