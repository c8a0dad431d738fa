import HostedLisp.Compiler.Templates
import HostedLisp.Proofs.Code.Flow

/-!
# Pieces of code that fit together

Code is put together from pieces, each of which uses labels of its own: those whose numbers lie in a
certain range. Pieces of ranges that follow each other can be joined.

- `Code.Fits`: code that passes the check of heights from any base, with the heights of its labels.
- `Code.Segment`: the same with labels from a range of numbers.
- `Code.Segment.append`, `Code.Segment.raise`: pieces after each other, and above other values.
- `Code.Segment.branch`, `Code.Segment.test`: conditionals.
- `Code.Segments.flatten`, `Code.Segments.sequence`: lists of pieces.
-/

namespace HostedLisp.Code

open Machine List

/-! ## Labels -/

section

variable {i : Instr Value} {code a b : Instrs} {id : Nat} {l : Label}

@[simp] theorem placed_nil : placed [] = [] := rfl

@[simp] theorem targets_nil : targets [] = [] := rfl

@[simp] theorem placed_append : placed (a ++ b) = placed a ++ placed b := filterMap_append

@[simp] theorem targets_append : targets (a ++ b) = targets a ++ targets b := filterMap_append

@[simp] theorem placed_landing : placed (landing l :: code) = l.id :: placed code := rfl

@[simp] theorem targets_landing : targets (landing l :: code) = targets code := rfl

@[simp] theorem placed_jump (o : Opcode) : placed (jump o l :: code) = placed code := rfl

@[simp] theorem targets_popJump :
    targets (jump .popJumpIfFalse l :: code) = l.id :: targets code := rfl

@[simp] theorem targets_jumpAbsolute :
    targets (jump .jumpAbsolute l :: code) = l.id :: targets code := rfl

theorem targetOf?_of_jump?_none {o : Opcode} (hop : i.op = .code o) (hjump : jump? o = none) :
    targetOf? i = none := by
  unfold targetOf?
  rw [hop]
  split
  next heq _ =>
    cases heq
    rw [hjump]
    rfl
  next => rfl

/-- The labels that code places or jumps to. -/
def mentioned (code : Instrs) : List Nat := placed code ++ targets code

theorem mem_mentioned_append : id ∈ mentioned (a ++ b) ↔ id ∈ mentioned a ∨ id ∈ mentioned b := by
  simp only [mentioned, placed_append, targets_append, mem_append]
  exact or_or_or_comm

theorem mem_mentioned_cons : id ∈ mentioned (i :: code) ↔
    (labelOf? i = some id ∨ targetOf? i = some id) ∨ id ∈ mentioned code := by
  have hone : id ∈ mentioned [i] ↔ labelOf? i = some id ∨ targetOf? i = some id := by
    simp [mentioned, placed, targets]
  rw [← singleton_append, mem_mentioned_append, hone]

/-- Jumps in either part have their labels ahead, and those in the second none in the first. -/
theorem Forward.append (ha : Forward a) (hb : Forward b) (hab : ∀ id ∈ placed a, id ∉ targets b) :
    Forward (a ++ b) := by
  induction a with
  | nil => exact hb
  | cons i a ih =>
    obtain ⟨hjump, hlabel, hrest⟩ := ha
    have hplaced : ∀ id ∈ placed a, id ∉ targets b := by
      intro id hid
      obtain ⟨k, hk, hkid⟩ := mem_filterMap.mp hid
      exact hab id (mem_filterMap.mpr ⟨k, mem_cons_of_mem i hk, hkid⟩)
    rw [cons_append]
    refine ⟨fun id hid => ?_, fun id hid => ?_, ih hrest hplaced⟩
    · rw [placed_append]
      exact mem_append_left _ (hjump id hid)
    · rw [targets_append, mem_append]
      rintro (hmem | hmem)
      · exact hlabel id hid hmem
      · exact hab id (mem_filterMap.mpr ⟨i, mem_cons_self, hid⟩) hmem

end

/-- Only the heights of labels that an instruction mentions matter. -/
theorem Flows.congr {Γ Γ' : Nat → Nat} {h h' : Option Nat} {i : Instr Value}
    (hflow : Flows Γ h i h')
    (hsame : ∀ id, labelOf? i = some id ∨ targetOf? i = some id → Γ id = Γ' id) :
    Flows Γ' h i h' := by
  cases hflow with
  | marker hop n => exact .marker hop n
  | global hop n => exact .global hop n
  | plain hop heffect n => exact .plain hop heffect n
  | branch hop hjump harg =>
    rw [hsame _ (.inr (targetOf?_eq hop hjump harg))]
    exact .branch hop hjump harg
  | jump hop hjump harg =>
    rw [hsame _ (.inr (targetOf?_eq hop hjump harg))]
    exact .jump hop hjump harg
  | @label _ l hop =>
    rw [hsame l.id (.inl (by rw [labelOf?, hop]))]
    exact .label hop
  | @labelAfterJump _ l hop =>
    rw [hsame l.id (.inl (by rw [labelOf?, hop]))]
    exact .labelAfterJump hop

theorem Runs.congr {Γ Γ' : Nat → Nat} {h h' : Option Nat} {code : Instrs} (hcode : Runs Γ h code h')
    (hsame : ∀ id ∈ mentioned code, Γ id = Γ' id) : Runs Γ' h code h' := by
  induction hcode with
  | nil h => exact .nil h
  | cons hi _ ih =>
    refine .cons (hi.congr fun id hid => ?_) (ih fun id hid => ?_)
    · exact hsame id (mem_mentioned_cons.mpr (.inl hid))
    · exact hsame id (mem_mentioned_cons.mpr (.inr hid))

/-! ## Code and the heights of its labels -/

variable {pop push : Nat}

theorem effect_of_fixed {o : Opcode} (h : o.fixedEffect = some (pop, push))
    (arg : Value) : effect o arg = .ok (pop, push) := by
  unfold effect
  rw [h]
  rfl

/-- The number of positional arguments has to fit in a byte. -/
theorem effect_call {args : Nat} (hargs : args < 256) :
    effect .callFunction (.int args) = .ok ((1 + args : Nat), (1 : Nat)) := by
  have heffect : Opcode.effect .callFunction args = some (((1 + args : Nat) : Int), 1) := by
    show Opcode.callEffect args 0 = _
    rw [Opcode.callEffect, if_neg (by omega)]
    congr 2
    omega
  simp only [effect, Opcode.fixedEffect, Opcode.countsArgument, Value.asInt?, heffect, ↓reduceIte]
  rfl

/-- From any base the code goes from the height `m` to the height `n`, with the labels at the
heights `γ`; and its jumps go ahead. -/
structure Fits (γ : Nat → Nat) (m n : Nat) (code : Instrs) : Prop where
  runs : ∀ h, Runs (fun l => h + γ l) (some (h + m)) code (some (h + n))
  forward : Forward code

namespace Fits

variable {γ γ' : Nat → Nat} {m n k : Nat} {code a b : Instrs} {i : Instr Value} {l : Label}

theorem nil (γ : Nat → Nat) (m : Nat) : Fits γ m m [] := ⟨fun _ => .nil _, trivial⟩

theorem append (ha : Fits γ m k a) (hb : Fits γ k n b) (hab : ∀ id ∈ placed a, id ∉ targets b) :
    Fits γ m n (a ++ b) :=
  ⟨fun h => runs_append (ha.runs h) (hb.runs h), ha.forward.append hb.forward hab⟩

theorem congr (h : Fits γ m n code) (hsame : ∀ id ∈ mentioned code, γ id = γ' id) :
    Fits γ' m n code :=
  ⟨fun base => (h.runs base).congr fun id hid => congrArg (base + ·) (hsame id hid), h.forward⟩

theorem raise (h : Fits γ m n code) (k : Nat) : Fits (fun l => k + γ l) (k + m) (k + n) code := by
  refine ⟨fun base => ?_, h.forward⟩
  have hruns := h.runs (base + k)
  simp only [Nat.add_assoc] at hruns
  exact hruns

/-- An instruction that mentions no label. -/
theorem silent (h : Fits γ k n code) (hlabel : labelOf? i = none) (htarget : targetOf? i = none)
    (hflow : ∀ Γ base, Flows Γ (some (base + m)) i (some (base + k))) : Fits γ m n (i :: code) := by
  refine ⟨fun base => .cons (hflow _ base) (h.runs base), fun id hid => ?_, fun id hid => ?_,
    h.forward⟩
  · rw [htarget] at hid
    cases hid
  · rw [hlabel] at hid
    cases hid

variable {o : Opcode}

theorem plain (h : Fits γ (k + push) n code) (hop : i.op = .code o)
    (heffect : effect o i.arg = .ok (pop, push)) : Fits γ (k + pop) n (i :: code) := by
  refine h.silent (by rw [labelOf?, hop]) (targetOf?_of_jump?_none hop (jump?_of_effect heffect)) ?_
  intro Γ base
  rw [← Nat.add_assoc, ← Nat.add_assoc]
  exact .plain hop heffect (base + k)

theorem fixed (h : Fits γ (k + push) n code) (ho : o.fixedEffect = some (pop, push)) (arg : Value) :
    Fits γ (k + pop) n (instr o arg :: code) := h.plain rfl (effect_of_fixed ho arg)

theorem load (h : Fits γ (m + 1) n code) (ho : o.fixedEffect = some (0, 1)) (arg : Value) :
    Fits γ m n (instr o arg :: code) := h.fixed ho arg

theorem store (h : Fits γ m n code) (slot : String) :
    Fits γ (m + 1) n (named .storeFast slot :: code) := h.fixed (k := m) rfl (.str slot)

theorem compare (h : Fits γ (m + 1) n code) (how : String) :
    Fits γ (m + 2) n (named .compareOp how :: code) := h.fixed (k := m) rfl (.str how)

theorem label (h : Fits γ m n code) (hl : γ l.id = m) (hbehind : l.id ∉ targets code) :
    Fits γ m n (landing l :: code) := by
  refine ⟨fun base => ?_, fun id hid => ?_, fun id hid => ?_, h.forward⟩
  · rw [← hl]
    refine .cons (.label rfl) ?_
    rw [hl]
    exact h.runs base
  · cases hid
  · cases hid
    exact hbehind

theorem popJump (h : Fits γ m n code) (hl : γ l.id = m) (hahead : l.id ∈ placed code) :
    Fits γ (m + 1) n (jump .popJumpIfFalse l :: code) := by
  refine ⟨fun base => ?_, fun id hid => ?_, fun id hid => ?_, h.forward⟩
  · rw [← hl, ← Nat.add_assoc]
    refine .cons (.branch (l := l) rfl rfl rfl) ?_
    rw [hl]
    exact h.runs base
  · cases hid
    exact hahead
  · cases hid

/-- A jump that is always taken goes on at another label than the next one. -/
theorem jumpOver {l' : Label} (h : Fits γ m n code) (hl : γ l.id = k) (hl' : γ l'.id = m)
    (hahead : l.id ∈ placed code) (hbehind : l'.id ∉ targets code) :
    Fits γ k n (jump .jumpAbsolute l :: landing l' :: code) := by
  refine ⟨fun base => ?_, fun id hid => ?_, fun id hid => ?_, ?_⟩
  · rw [← hl]
    refine .cons (.jump (l := l) rfl rfl rfl) (.cons (.labelAfterJump (l := l') rfl) ?_)
    rw [hl']
    exact h.runs base
  · cases hid
    exact mem_cons_of_mem _ hahead
  · cases hid
  · exact (h.label hl' hbehind).forward

end Fits

/-! ## Code with labels from a range -/

/-- Code that goes from the height `m` to the height `n`. The numbers of its labels are at least
`lo` and less than `hi`. -/
structure Segment (lo hi m n : Nat) (code : Instrs) : Prop where
  le : lo ≤ hi
  fits : ∃ γ, Fits γ m n code
  inRange : ∀ id ∈ mentioned code, lo ≤ id ∧ id < hi

namespace Segment

variable {lo lo' mid hi hi' m n k : Nat} {code a b : Instrs}

theorem nil (lo m : Nat) : Segment lo lo m m [] where
  le := Nat.le_refl lo
  fits := ⟨fun _ => 0, .nil _ m⟩
  inRange _ hid := absurd hid not_mem_nil

theorem widen (h : Segment lo hi m n code) (hlo : lo' ≤ lo) (hhi : hi ≤ hi') :
    Segment lo' hi' m n code where
  le := Nat.le_trans hlo (Nat.le_trans h.le hhi)
  fits := h.fits
  inRange id hid :=
    ⟨Nat.le_trans hlo (h.inRange id hid).1, Nat.lt_of_lt_of_le (h.inRange id hid).2 hhi⟩

/-- The same above `k` other values. -/
theorem raise (h : Segment lo hi m n code) (k : Nat) : Segment lo hi (k + m) (k + n) code where
  le := h.le
  fits := by
    obtain ⟨γ, hfits⟩ := h.fits
    exact ⟨_, hfits.raise k⟩
  inRange := h.inRange

/-- One piece after the other. Each keeps the heights of its own labels. -/
theorem append (ha : Segment lo mid m k a) (hb : Segment mid hi k n b) :
    Segment lo hi m n (a ++ b) where
  le := Nat.le_trans ha.le hb.le
  fits := by
    obtain ⟨α, hα⟩ := ha.fits
    obtain ⟨β, hβ⟩ := hb.fits
    refine ⟨fun l => if l < mid then α l else β l, .append (hα.congr ?_) (hβ.congr ?_) ?_⟩
    · exact fun id hid => (if_pos (ha.inRange id hid).2).symm
    · exact fun id hid => (if_neg (Nat.not_lt.mpr (hb.inRange id hid).1)).symm
    · intro id hid hid'
      have hlt := (ha.inRange id (mem_append_left _ hid)).2
      have hge := (hb.inRange id (mem_append_right _ hid')).1
      omega
  inRange id hid := by
    have hle := ha.le
    have hle' := hb.le
    rcases mem_mentioned_append.mp hid with hid | hid
    · have := ha.inRange id hid
      omega
    · have := hb.inRange id hid
      omega

variable {i : Instr Value} {l f : Label}

/-- An instruction that mentions no label. -/
theorem silent (lo : Nat) (hlabel : labelOf? i = none) (htarget : targetOf? i = none)
    (hflow : ∀ Γ base, Flows Γ (some (base + m)) i (some (base + n))) : Segment lo lo m n [i] where
  le := Nat.le_refl lo
  fits := ⟨fun _ => 0, (Fits.nil _ n).silent hlabel htarget hflow⟩
  inRange id hid := by
    rw [mem_mentioned_cons, hlabel, htarget] at hid
    rcases hid with (hid | hid) | hid <;> cases hid

theorem plain {o : Opcode} (lo k : Nat) (hop : i.op = .code o)
    (heffect : effect o i.arg = .ok (pop, push)) : Segment lo lo (k + pop) (k + push) [i] := by
  refine silent lo (by rw [labelOf?, hop]) (targetOf?_of_jump?_none hop (jump?_of_effect heffect))
    ?_
  intro Γ base
  rw [← Nat.add_assoc, ← Nat.add_assoc]
  exact .plain hop heffect (base + k)

/-- An operation whose effect does not depend on its argument. -/
theorem fixed {o : Opcode} (lo k : Nat) (ho : o.fixedEffect = some (pop, push))
    (arg : Value) : Segment lo lo (k + pop) (k + push) [instr o arg] :=
  plain lo k rfl (effect_of_fixed ho arg)

theorem constant (lo : Nat) (v : Value) : Segment lo lo 0 1 [loadConst v] :=
  (fixed lo 0 rfl v : Segment lo lo (0 + 0) (0 + 1) [instr .loadConst v])

theorem global {ns name : String} (lo : Nat) (hop : i.op = .global ns name) :
    Segment lo lo 0 1 [i] :=
  silent lo (by rw [labelOf?, hop]) (by rw [targetOf?, hop]) fun _ base => .global hop base

theorem marker (lo m : Nat) (hop : i.op = .lineMarker) : Segment lo lo m m [i] :=
  silent lo (by rw [labelOf?, hop]) (by rw [targetOf?, hop]) fun _ base => .marker hop (base + m)

/-- A label that nothing jumps to. -/
theorem label (l : Label) (m : Nat) : Segment l.id (l.id + 1) m m [landing l] where
  le := Nat.le_succ _
  fits := ⟨fun _ => m, (Fits.nil _ m).label rfl not_mem_nil⟩
  inRange id hid := by
    obtain rfl : id = l.id := mem_singleton.mp hid
    omega

/-- A call with few enough arguments. -/
theorem call {args : Nat} (lo : Nat) (hop : i.op = .code .callFunction) (harg : i.arg = .int args)
    (hargs : args < 256) : Segment lo lo (1 + args) 1 [i] := by
  have heffect := effect_call hargs
  rw [← harg] at heffect
  simpa using plain lo 0 hop heffect

/-! ## Conditionals -/

/-- A conditional, with the height at the label of its second part. -/
theorem exists_fits_branch {yes no : Instrs} (hyes : Segment lo mid m n yes)
    (hno : Segment mid hi m n no) (hl : hi ≤ l.id) (hf : l.id < f.id) :
    ∃ γ, γ l.id = m ∧ Fits γ (m + 1) n (Template.branch l f yes no) := by
  obtain ⟨α, hα⟩ := hyes.fits
  obtain ⟨β, hβ⟩ := hno.fits
  have hle' := hno.le
  let γ : Nat → Nat := fun id =>
    if id < mid then α id else if id < hi then β id else if id = l.id then m else n
  have hγl : γ l.id = m := by
    show (if _ then _ else if _ then _ else if _ then _ else _) = _
    rw [if_neg (by omega), if_neg (by omega), if_pos rfl]
  have hγf : γ f.id = n := by
    simp only [γ]
    rw [if_neg (by omega), if_neg (by omega), if_neg (by omega)]
  have hγyes : Fits γ m n yes := hα.congr fun id hid => (if_pos (hyes.inRange id hid).2).symm
  have hγno : Fits γ m n no := by
    refine hβ.congr fun id hid => ?_
    have := hno.inRange id hid
    simp only [γ]
    rw [if_neg (by omega), if_pos (by omega)]
  -- from the end backwards: the last label, the second part, the jump over it, the first part
  have hsecond : Fits γ m n (no ++ [landing f]) :=
    hγno.append ((Fits.nil γ n).label hγf not_mem_nil) fun _ _ => not_mem_nil
  have htargets : ∀ id ∈ targets (no ++ [landing f]), mid ≤ id ∧ id < hi := by
    intro id hid
    simp only [targets_append, targets_landing, targets_nil, append_nil] at hid
    exact hno.inRange id (mem_append_right _ hid)
  have hover : Fits γ n n (jump .jumpAbsolute f :: landing l :: (no ++ [landing f])) := by
    refine hsecond.jumpOver hγf hγl (by simp) fun hmem => ?_
    have := htargets l.id hmem
    omega
  have hboth : Fits γ m n (yes ++ (jump .jumpAbsolute f :: landing l :: (no ++ [landing f]))) := by
    refine hγyes.append hover fun id hid hid' => ?_
    have hplaced := hyes.inRange id (mem_append_left _ hid)
    rw [targets_jumpAbsolute, targets_landing, mem_cons] at hid'
    rcases hid' with rfl | hid'
    · omega
    · have := htargets id hid'
      omega
  refine ⟨γ, hγl, ?_⟩
  have hall := hboth.popJump (l := l) hγl (by simp)
  simpa [Template.branch] using hall

theorem branch {yes no : Instrs} (hyes : Segment lo mid m n yes) (hno : Segment mid hi m n no)
    (hl : hi ≤ l.id) (hf : l.id < f.id) :
    Segment lo (f.id + 1) (m + 1) n (Template.branch l f yes no) where
  le := by
    have hle := hyes.le
    have hle' := hno.le
    omega
  fits := by
    obtain ⟨γ, -, hfits⟩ := exists_fits_branch hyes hno hl hf
    exact ⟨γ, hfits⟩
  inRange id hid := by
    have hle := hyes.le
    have hle' := hno.le
    have hid : id ∈ mentioned yes ∨ id ∈ mentioned no ∨ id = l.id ∨ id = f.id := by
      simp only [mentioned, Template.branch, cons_append, nil_append, append_assoc,
        placed_jump, placed_append, placed_landing, placed_nil, targets_popJump, targets_append,
        targets_jumpAbsolute, targets_landing, targets_nil, mem_append, mem_cons,
        not_mem_nil, or_false] at hid ⊢
      grind
    rcases hid with hid | hid | rfl | rfl
    · have := hyes.inRange id hid
      omega
    · have := hno.inRange id hid
      omega
    · omega
    · omega

/-- A conditional that keeps its value in a slot and looks at it twice. -/
theorem test {condition yes no : Instrs} {start : Nat} (slot : String)
    (hcondition : Segment start lo 0 1 condition) (hyes : Segment lo mid 0 1 yes)
    (hno : Segment mid hi 0 1 no) (hl : hi ≤ l.id) (hf : l.id < f.id) :
    Segment start (f.id + 1) 0 1 (Template.test slot l f condition yes no) := by
  have hbranch := branch hyes hno hl hf
  obtain ⟨γ, hγ, hfits⟩ := exists_fits_branch hyes hno hl hf
  have hlabel : l.id ∈ placed (Template.branch l f yes no) := by simp [Template.branch]
  have htwice : Segment lo (f.id + 1) 1 1 ([named .storeFast slot, named .loadFast slot,
      HostedLisp.loadConst .nil, named .compareOp "is not", jump .popJumpIfFalse l,
      named .loadFast slot, HostedLisp.loadConst (.bool false), named .compareOp "is not"]
      ++ Template.branch l f yes no) := by
    refine ⟨hbranch.le, ⟨γ, ?_⟩, fun id hid => hbranch.inRange id ?_⟩
    · -- the value is compared with nil, and if it is not nil with false
      have hsecond : Fits γ 0 1 (named .loadFast slot :: HostedLisp.loadConst (.bool false)
          :: named .compareOp "is not" :: Template.branch l f yes no) :=
        ((hfits.compare _).load rfl _).load rfl _
      exact ((((hsecond.popJump hγ hlabel).compare _).load rfl _).load rfl _).store slot
    · -- the first jump goes to a label of the branch
      rcases mem_mentioned_append.mp hid with hid | hid
      · obtain rfl : id = l.id := mem_singleton.mp hid
        exact mem_append_left _ hlabel
      · exact hid
  have hall := hcondition.append htwice
  simpa [Template.test] using hall

end Segment

/-! ## Lists of pieces -/

/-- Pieces of code that leave `k` values each, with labels from ranges that follow each other. -/
inductive Segments (k : Nat) : Nat → List Instrs → Nat → Prop where
  | nil {lo hi : Nat} (h : lo ≤ hi) : Segments k lo [] hi
  | cons {lo mid hi : Nat} {code : Instrs} {codes : List Instrs} (h : Segment lo mid 0 k code)
    (hrest : Segments k mid codes hi) : Segments k lo (code :: codes) hi

namespace Segments

variable {k lo hi hi' : Nat} {codes : List Instrs}

theorem widen (h : Segments k lo codes hi) (hhi : hi ≤ hi') : Segments k lo codes hi' := by
  induction h with
  | nil hle => exact .nil (Nat.le_trans hle hhi)
  | cons hcode _ ih => exact .cons hcode (ih hhi)

/-- All the values are left, above `m` others. -/
theorem flatten (h : Segments k lo codes hi) (m : Nat) :
    Segment lo hi m (m + k * codes.length) codes.flatten := by
  induction h generalizing m with
  | nil h => exact (Segment.nil _ m).widen (Nat.le_refl _) h
  | cons h _ ih =>
    have happend := (h.raise m).append (ih (m + k))
    rw [flatten_cons, length_cons, Nat.mul_succ, Nat.add_comm _ k, ← Nat.add_assoc]
    exact happend

/-- All but the last value are dropped. -/
theorem intersperse (h : Segments 1 lo codes hi) (hne : codes ≠ []) :
    Segment lo hi 0 1 (codes.intersperse [bare .popTop]).flatten := by
  induction h with
  | nil => exact absurd rfl hne
  | @cons lo mid hi code codes h hrest ih =>
    cases codes with
    | nil =>
      cases hrest with
      | nil hle => simpa using h.widen (Nat.le_refl _) hle
    | cons code' codes =>
      have hpop : Segment mid mid (0 + 1) (0 + 0) [bare .popTop] := .fixed mid 0 rfl .nil
      have happend := h.append (hpop.append (ih (cons_ne_nil _ _)))
      simpa using happend

theorem sequence (h : Segments 1 lo codes hi) : Segment lo hi 0 1 (Template.sequence codes) := by
  unfold Template.sequence
  split
  · exact (Segment.constant lo .nil).widen (Nat.le_refl lo) (h.flatten 0).le
  · next hne =>
    refine h.intersperse fun hnil => hne ?_
    rw [hnil]
    rfl

end Segments

end HostedLisp.Code
