import HostedLisp.Proofs.Reader.Logic

/-!
# A text read alone and in a longer one

- `Cursor.Reached`: where moves over a text lead to; `Cursor.Reached.spec` counts the lines.
- `Excerpt`: a text with what stands before and after it.
- `Excerpt.Level`: two states that have come equally far, one in the text alone and one in the
  longer text. `Excerpt.Moved`: so they have, by taking a character.
- `Excerpt.Edge`, `Excerpt.Past`: the text alone has come to its end, and in the longer one the
  newline after it was taken.
- `ReadM.Agrees`: what a reading of the longer text does, given what a reading of the text alone
  does. Where more follows, nothing is said of readings that fail alone: they may need what follows.
- `ReadM.Alike`: readings that go on in the same way in both texts, and what they give.
-/

namespace HostedLisp

open List

/-! ## Lines -/

/-- The line that is reached with some characters of a text. -/
def lineAfter (first : Int) (text : List Char) (n : Nat) : Int :=
  first + ((text.take n).count '\n' : Nat)

/-- One more character, and perhaps one more line. -/
theorem lineAfter_succ (first : Int) (text : List Char) (n : Nat) : lineAfter first text (n + 1) =
    if text[n]? = some '\n' then lineAfter first text n + 1 else lineAfter first text n := by
  unfold lineAfter
  rw [take_add_one, count_append]
  cases hc : text[n]? with
  | none => simp
  | some c =>
    by_cases hn : c = '\n'
    · subst hn
      simp
      omega
    · simp [hn]

/-- Where taking characters and stepping back lead to from the start of a text. -/
inductive Cursor.Reached (first : Int) (text : List Char) : Cursor → Prop where
  | start : Reached first text { source := text.toArray, line := first }
  | take {c : Cursor} (h : Reached first text c) : Reached first text c.take.2
  | back {c c' : Cursor} (h : Reached first text c) (hback : c.back? = some c') :
    Reached first text c'

/-- The line is that of the characters taken, and so was the one before the last of them. No step
back is refused. -/
theorem Cursor.Reached.spec {first : Int} {text : List Char} {c : Cursor}
    (h : Reached first text c) : c.source.toList = text ∧ c.line = lineAfter first text c.pos ∧
      (c.canStepBack = true → c.lastLine = lineAfter first text (c.pos - 1)) ∧
      c.refused = false := by
  induction h with
  | start => simp [lineAfter]
  | @take c _ ih =>
    obtain ⟨hsource, hline, -, hrefused⟩ := ih
    refine ⟨hsource, ?_, fun _ => hline, hrefused⟩
    show (if c.source[c.pos]? = some '\n' then c.line + 1 else c.line) = lineAfter first text
      (c.pos + 1)
    rw [lineAfter_succ, hline, ← hsource, Array.getElem?_toList]
  | back _ hback ih =>
    obtain ⟨hsource, -, hlast, hrefused⟩ := ih
    unfold Cursor.back? at hback
    split at hback
    · next hmoved =>
      cases hback
      exact ⟨hsource, hlast hmoved, by simp, hrefused⟩
    · cases hback

/-- The character of a text that was taken last. -/
def Cursor.Took (c : Cursor) (text : List Char) (ch : Char) : Prop :=
  (text.take c.pos).getLast? = some ch

/-! ## Texts in longer ones -/

/-- A text with what stands before and after it. -/
structure Excerpt where
  before : List Char
  text : List Char
  after : List Char
  /-- The line that the text starts in. -/
  first : Int
  /-- What follows starts with a new line. -/
  newline : after = [] ∨ after.head? = some '\n'
  /-- Whether it is read inside a function literal. -/
  inLiteral : Bool := false
  /-- Whether it is read inside a syntax quote. -/
  inQuote : Bool := false

namespace Excerpt

variable {e : Excerpt} {b b' : Nat} {st st' : ReadState}

variable (e)

/-- The text inside a function literal. -/
def literal : Excerpt := { e with inLiteral := true }

theorem after_literal : e.literal.after = e.after := rfl

/-- The text inside a syntax quote. -/
def quoted : Excerpt := { e with inQuote := true }

theorem after_quoted : e.quoted.after = e.after := rfl

/-- Two states, one for the text alone and one for the longer text, that differ in their cursors
only. -/
structure Beside (st st' : ReadState) : Prop where
  reached : st.cursor.Reached e.first e.text
  whole : st'.cursor.source.toList = e.before ++ e.text ++ e.after
  lastId : st'.lastId = st.lastId
  placeholders : st'.placeholders = st.placeholders
  gensyms : st'.gensyms = st.gensyms
  inLiteral : st.placeholders.isSome = e.inLiteral
  inQuote : st.gensyms.isSome = e.inQuote

/-- The cursors have come equally far, and `b` characters of the text are left at most. Where more
follows, the text alone has not been left. -/
structure Level (b : Nat) (st st' : ReadState) : Prop extends Beside e st st' where
  pos : st'.cursor.pos = e.before.length + st.cursor.pos
  within : e.after ≠ [] → st.cursor.pos ≤ e.text.length
  left : e.text.length ≤ st.cursor.pos + b
  line_eq : st'.cursor.line = st.cursor.line

/-- A character was just taken, with `b` characters left at most before. -/
structure Taken (b : Nat) (st st' : ReadState) : Prop where
  moved : st.cursor.canStepBack = true
  moved' : st'.cursor.canStepBack = true
  back : e.Level b st.steppedBack st'.steppedBack

/-- It was the same character in both texts. -/
structure Moved (b : Nat) (st st' : ReadState) : Prop
    extends Level e (b - 1) st st', Taken e b st st'

/-- The text alone has been left, and in the longer text the newline after it was taken. -/
structure Past (st st' : ReadState) : Prop extends Beside e st st' where
  more : e.after ≠ []
  beyond : e.text.length < st.cursor.pos
  pos : st'.cursor.pos = e.before.length + e.text.length + 1
  line : st'.cursor.line = lineAfter e.first e.text e.text.length + 1

/-- This has just happened. -/
structure Edge (b : Nat) (st st' : ReadState) : Prop
    extends Past e st st', Taken e b st st'

variable {e}

theorem Beside.alone (h : e.Beside st st') : st.cursor.source.toList = e.text := h.reached.spec.1

theorem nothing_follows : ([] : List Char) = [] ∨ [].head? = some '\n' := .inl rfl

/-- A text that nothing stands around, as a state comes to it. -/
def lone (first : Int) (text : List Char) (st : ReadState) : Excerpt where
  before := []
  text := text
  after := []
  first := first
  newline := nothing_follows
  inLiteral := st.placeholders.isSome
  inQuote := st.gensyms.isSome

theorem lone_level {first : Int} {text : List Char} (h : st.cursor.Reached first text) :
    (lone first text st).Level text.length st st where
  reached := h
  whole := by simp [lone, h.spec.1]
  lastId := rfl
  placeholders := rfl
  gensyms := rfl
  inLiteral := rfl
  inQuote := rfl
  pos := (Nat.zero_add _).symm
  within := fun hc => absurd rfl hc
  left := Nat.le_add_left _ _
  line_eq := rfl

section

variable (h : e.Level b st st')

include h

theorem Level.mono (hb : b ≤ b') : e.Level b' st st' :=
  { h with left := Nat.le_trans h.left (Nat.add_le_add_left hb _) }

omit h in
theorem Moved.level (h : e.Moved b st st') : e.Level b st st' := h.toLevel.mono (Nat.sub_le _ _)

omit h in
theorem Moved.mono (h : e.Moved b st st') (hb : b ≤ b') : e.Moved b' st st' :=
  { h.toLevel.mono (Nat.sub_le_sub_right hb 1), h.toTaken with back := h.back.mono hb }

/-- How much is left of the text alone. -/
theorem Level.remaining_le : st.cursor.remaining ≤ b := by
  have hleft := h.left
  have hsize := congrArg List.length h.alone
  simp only [Array.length_toList] at hsize
  unfold Cursor.remaining
  omega

/-- What follows is left besides. -/
theorem Level.remaining_whole : st'.cursor.remaining = st.cursor.remaining + e.after.length := by
  have hsize := congrArg List.length h.alone
  have hsize' := congrArg List.length h.whole
  simp only [Array.length_toList, length_append] at hsize hsize'
  unfold Cursor.remaining
  rw [h.pos, hsize, hsize']
  by_cases hafter : e.after = []
  · rw [hafter]
    simp only [length_nil]
    omega
  · have hwithin := h.within hafter
    omega

theorem Level.tight : e.Level st.cursor.remaining st st' := by
  have hsize := congrArg List.length h.alone
  simp only [Array.length_toList] at hsize
  refine { h with left := ?_ }
  unfold Cursor.remaining
  omega

/-- Enough steps to go through what is left, in the text alone and in the longer text. -/
structure Ample (e : Excerpt) (b n n' : Nat) : Prop where
  alone : b < n
  whole : b + e.after.length < n'

/-- There are enough steps for what is left. -/
theorem Level.ample :
    e.Ample st.cursor.remaining (st.cursor.remaining + 2) (st'.cursor.remaining + 2) := by
  refine ⟨by omega, ?_⟩
  rw [h.remaining_whole]
  omega

omit h in
/-- A loop takes a character in each step. -/
@[elab_as_elim]
theorem Ample.induction {motive : Nat → Nat → Nat → Prop}
    (step : ∀ b n n', e.Ample b (n + 1) (n' + 1) → (∀ d, d < b → motive d n n') →
      motive b (n + 1) (n' + 1)) {n n' : Nat} (h : e.Ample b n n') : motive b n n' := by
  induction n generalizing b n' with
  | zero => exact absurd h.alone (Nat.not_lt_zero _)
  | succ n ih =>
    cases n' with
    | zero => exact absurd h.whole (Nat.not_lt_zero _)
    | succ n' =>
      obtain ⟨halone, hwhole⟩ := h
      exact step b n n' ⟨halone, hwhole⟩ fun d hd => ih ⟨by omega, by omega⟩

/-- The character at a place of the text, in the longer text. -/
theorem Level.getElem?_whole : st'.cursor.take.1 = (e.text ++ e.after)[st.cursor.pos]? := by
  refine Array.getElem?_toList.symm.trans ?_
  rw [h.whole, h.pos, append_assoc, getElem?_append_right (by omega)]
  congr 1
  omega

theorem Level.getElem?_alone : st.cursor.take.1 = e.text[st.cursor.pos]? := by
  rw [← h.alone]
  exact Array.getElem?_toList.symm

theorem Level.taken : e.Taken b (st.skip 1) (st'.skip 1) :=
  ⟨rfl, rfl, { h.toBeside with reached := h.reached.take.back rfl }, h.pos, h.within,
    h.left, h.line_eq⟩

/-- The states after a character is taken. -/
theorem Level.take {c : Option Char} (hc : st.cursor.take.1 = c) (hc' : st'.cursor.take.1 = c)
    (hin : c = none → e.after = []) : e.Moved b (st.skip 1) (st'.skip 1) := by
  have htext := h.getElem?_alone.symm.trans hc
  refine ⟨⟨{ h.toBeside with reached := h.reached.take }, ?_, fun hafter => ?_, ?_, ?_⟩, h.taken⟩
  · show st'.cursor.pos + 1 = _ + (st.cursor.pos + 1)
    rw [h.pos]
    omega
  · show st.cursor.pos + 1 ≤ _
    refine Nat.lt_of_not_le fun hle => hafter (hin ?_)
    rw [← htext, getElem?_eq_none hle]
  · show _ ≤ st.cursor.pos + 1 + (b - 1)
    have hleft := h.left
    omega
  · show (if st'.cursor.take.1 = some '\n' then _ else _) = if st.cursor.take.1 =
      some '\n' then _ else _
    simp only [hc, hc', Cursor.skip, h.line_eq]

/-- The states after the end of the text is found where a newline follows. -/
theorem Level.take_edge (hc : st.cursor.take.1 = none) (hafter : e.after ≠ []) :
    st'.cursor.take.1 = some '\n' ∧ e.Edge b (st.skip 1) (st'.skip 1) := by
  have hend : st.cursor.pos = e.text.length := by
    refine Nat.le_antisymm (h.within hafter) ?_
    rw [h.getElem?_alone] at hc
    exact getElem?_eq_none_iff.1 hc
  have hc' : st'.cursor.take.1 = some '\n' := by
    rw [h.getElem?_whole, hend, getElem?_append_right (Nat.le_refl _), Nat.sub_self,
      ← head?_eq_getElem?]
    exact e.newline.resolve_left hafter
  have hline : st'.cursor.line = lineAfter e.first e.text e.text.length := by
    rw [h.line_eq, h.reached.spec.2.1, hend]
  refine ⟨hc', ⟨{ h.toBeside with reached := h.reached.take }, hafter, ?_, ?_, ?_⟩, h.taken⟩
  · show _ < st.cursor.pos + 1
    omega
  · show st'.cursor.pos + 1 = _
    rw [h.pos, hend]
  · show (if st'.cursor.take.1 = some '\n' then _ else _) = _
    rw [if_pos hc', Cursor.skip, hline]

end

end Excerpt

namespace ReadM

open Excerpt

variable {α β : Type} {e : Excerpt} {b : Nat} {env : ReadEnv} {st st' : ReadState}

/-- How a reading ends. -/
abbrev Ending (α : Type) := EStateM.Result Error ReadState α

/-- What is known of a reading of the longer text, given how the reading of the text alone ended:
`Q` if it succeeded. If it failed, so does the other one, unless more follows. -/
def Follows (e : Excerpt) (Q : α → ReadState → Ending α → Prop) (r r' : Ending α) : Prop :=
  match r with
  | .ok a s => Q a s r'
  | .error err s => e.after ≠ [] ∨ ∃ b s', r' = .error err s' ∧ e.Level b s s'

/-- Both readings succeed with the same result. -/
def Both (P : α → ReadState → ReadState → Prop) (a : α) (s : ReadState) (r' : Ending α) : Prop :=
  ∃ s', r' = .ok a s' ∧ P a s s'

/-- A reading of the text alone and one of the longer text, from two states. -/
def Agrees (e : Excerpt) (env : ReadEnv) (Q : α → ReadState → Ending α → Prop) (x x' : ReadM α)
    (st st' : ReadState) : Prop := Follows e Q (x env st) (x' env st')

variable {Q : α → ReadState → Ending α → Prop} {R : β → ReadState → Ending β → Prop}
  {P : α → ReadState → ReadState → Prop} {x x' : ReadM α} {f f' : α → ReadM β}

variable {err : Error} {s : ReadState} {cause : ReadError} {handle : Error → ReadM α}

/-- Where more follows, a failure says nothing. -/
theorem Agrees.of_error (hafter : e.after ≠ []) (hx : x env st = .error err s) :
    Agrees e env Q x x' st st' := by
  unfold Agrees
  rw [hx]
  exact .inl hafter

theorem Agrees.bind_of (h : Agrees e env Q x x' st st')
    (hf : ∀ a s, Q a s (x' env st') → Follows e R (f a env s) ((x' >>= f') env st')) :
    Agrees e env R (x >>= f) (x' >>= f') st st' := by
  unfold Agrees at h ⊢
  cases hx : x env st with
  | ok a s =>
    rw [hx] at h
    rw [bind_ok hx]
    exact hf a s h
  | error err s =>
    rw [hx] at h
    rw [bind_error hx]
    refine h.imp id fun h => ?_
    obtain ⟨b, s', hx', hlevel⟩ := h
    exact ⟨b, s', bind_error hx', hlevel⟩

theorem Agrees.bind (h : Agrees e env (Both P) x x' st st')
    (hf : ∀ a s s', P a s s' → Agrees e env R (f a) (f' a) s s') :
    Agrees e env R (x >>= f) (x' >>= f') st st' := by
  refine h.bind_of fun a s hQ => ?_
  obtain ⟨s', hx', hP⟩ := hQ
  rw [bind_ok hx']
  exact hf a s s' hP

theorem Agrees.mono {Q' : α → ReadState → Ending α → Prop} (h : Agrees e env Q x x' st st')
    (hQ : ∀ a s, x env st = .ok a s → Q a s (x' env st') → Q' a s (x' env st')) :
    Agrees e env Q' x x' st st' := by
  unfold Agrees at h ⊢
  cases hx : x env st with
  | ok a s =>
    rw [hx] at h
    exact hQ a s hx h
  | error err s =>
    rw [hx] at h
    exact h

theorem Agrees.weaken {P' : α → ReadState → ReadState → Prop}
    (h : Agrees e env (Both P) x x' st st')
    (hP : ∀ a s s', P a s s' → P' a s s') : Agrees e env (Both P') x x' st st' := by
  refine h.mono fun a s _ hboth => ?_
  obtain ⟨s', hx', hP'⟩ := hboth
  exact ⟨s', hx', hP a s s' hP'⟩

theorem Agrees.exact (h : Agrees e env (Both P) x x' st st') :
    Agrees e env (Both fun a s s' => P a s s' ∧ x env st = .ok a s) x x' st st' := by
  refine h.mono fun a s hx hboth => ?_
  obtain ⟨s', hx', hP⟩ := hboth
  exact ⟨s', hx', hP, hx⟩

theorem Agrees.pure {a : α} (h : P a st st') :
    Agrees e env (Both P) (Pure.pure a) (Pure.pure a) st st' :=
  ⟨st', rfl, h⟩

section

variable (h : e.Level b st st')

include h

theorem agrees_throw : Agrees e env Q (throw err) (throw err) st st' := .inr ⟨b, st', rfl, h⟩

theorem agrees_fail : Agrees e env Q (fail cause) (fail cause) st st' := .inr ⟨b, st', rfl, h⟩

theorem agrees_failHere : Agrees e env Q (failHere cause) (failHere cause) st st' := by
  refine .inr ⟨b, st', ?_, h⟩
  show EStateM.Result.error (Error.reading cause (some st'.cursor.line)) st' = _
  rw [h.line_eq]

theorem agrees_lift {r : Except Error α} (hP : ∀ a, r = .ok a → P a st st') :
    Agrees e env (Both P) (lift r) (lift r) st st' := by
  cases r with
  | ok a => exact ⟨st', rfl, hP a rfl⟩
  | error err => exact agrees_throw h

end

theorem Agrees.get_bind {f f' : ReadState → ReadM α} (h : Agrees e env Q (f st) (f' st') st st') :
    Agrees e env Q (get >>= f) (get >>= f') st st' := h

theorem Agrees.modify_bind {g g' : ReadState → ReadState} {f f' : PUnit → ReadM α}
    (h : Agrees e env Q (f ⟨⟩) (f' ⟨⟩) (g st) (g' st')) :
    Agrees e env Q (modify g >>= f) (modify g' >>= f') st st' := h

theorem Agrees.fuel_bind {f f' : Nat → ReadM α}
    (h : Agrees e env Q (f (st.cursor.remaining + 2)) (f' (st'.cursor.remaining + 2)) st st') :
    Agrees e env Q (fuel >>= f) (fuel >>= f') st st' := h

/-- Taking a character: the same one in both texts, the end in both, or the end and the newline that
follows. -/
theorem Agrees.take_bind {f f' : Option Char → ReadM α} (h : e.Level b st st')
    (hchar : ∀ c s s', 0 < b → s.cursor.Took e.text c → e.Moved b s s' →
      Agrees e env Q (f (some c)) (f' (some c)) s s')
    (hend : ∀ s s', e.after = [] → e.Moved b s s' → Agrees e env Q (f none) (f' none) s s')
    (hedge : ∀ s s', e.Edge b s s' → Agrees e env Q (f none) (f' (some '\n')) s s') :
    Agrees e env Q (take >>= f) (take >>= f') st st' := by
  show Agrees e env Q (f st.cursor.take.1) (f' st'.cursor.take.1) (st.skip 1) (st'.skip 1)
  cases hc : st.cursor.take.1 with
  | some c =>
    have hin : st.cursor.pos < e.text.length := by
      rw [h.getElem?_alone] at hc
      exact (List.getElem?_eq_some_iff.1 hc).1
    have hc' : st'.cursor.take.1 = some c := by
      rw [h.getElem?_whole, List.getElem?_append_left hin, ← h.getElem?_alone, hc]
    have hleft := h.left
    rw [hc']
    have htook : st.cursor.take.2.Took e.text c := by
      show (e.text.take (st.cursor.pos + 1)).getLast? = some c
      rw [take_add_one, ← h.getElem?_alone, hc]
      simp
    exact hchar c _ _ (by omega) htook (h.take hc hc' (by simp))
  | none =>
    by_cases hafter : e.after = []
    · have hc' : st'.cursor.take.1 = none := by
        rw [h.getElem?_whole, hafter, append_nil, ← h.getElem?_alone, hc]
      rw [hc']
      exact hend _ _ hafter (h.take hc hc' fun _ => hafter)
    · obtain ⟨hc', hmoved⟩ := h.take_edge hc hafter
      rw [hc']
      exact hedge _ _ hmoved

/-- Stepping back over what was just taken, which may be the end of the text alone and the newline
after it. -/
theorem Agrees.back_bind {f f' : Unit → ReadM α} (h : e.Taken b st st')
    (hf : ∀ s s', e.Level b s s' → Agrees e env Q (f ()) (f' ()) s s') :
    Agrees e env Q (back >>= f) (back >>= f') st st' := by
  unfold Agrees
  rw [bind_ok (back_apply h.moved), bind_ok (back_apply h.moved')]
  exact hf _ _ h.back

theorem tryCatch_apply :
    tryCatch x handle env st = EStateM.tryCatch (x env) (fun err => handle err env) st := rfl

theorem tryCatch_ok {a : α} (hx : x env st = .ok a s) : tryCatch x handle env st = .ok a s := by
  rw [tryCatch_apply]
  delta EStateM.tryCatch
  rw [hx]

theorem tryCatch_error (hx : x env st = .error err s) :
    tryCatch x handle env st = handle err env s := by
  rw [tryCatch_apply]
  delta EStateM.tryCatch
  rw [hx]
  rfl

/-- A reading inside a function literal or a syntax quote. Its failure is kept until later, and then
it is the failure of the whole. -/
theorem Agrees.caught (inner : Excerpt) (hinner : inner.after = e.after)
    {x x' : ReadM (Except Error α)}
    {P : Except Error α → ReadState → ReadState → Prop} {f : Except Error α → ReadM β}
    (hx : Agrees inner env (Both P) x x' st st')
    (hok : ∀ r s s', P r s s' → Agrees e env R (f r) (f r) s s')
    (herror : ∀ err d s s', inner.Level d s s' →
      Agrees e env R (f (.error err)) (f (.error err)) s s')
    (hfails : ∀ err s, ∃ err' s', f (.error err) env s = .error err' s') :
    Agrees e env R (tryCatch x (fun err => Pure.pure (.error err)) >>= f)
      (tryCatch x' (fun err => Pure.pure (.error err)) >>= f) st st' := by
  unfold Agrees at hx ⊢
  cases hr : x env st with
  | ok a s =>
    rw [hr] at hx
    obtain ⟨s', hr', hP⟩ := hx
    rw [bind_ok (tryCatch_ok hr), bind_ok (tryCatch_ok hr')]
    exact hok a s s' hP
  | error err s =>
    rw [hr] at hx
    rw [bind_ok (a := .error err) (tryCatch_error hr)]
    rcases hx with hafter | ⟨d, s', hr', hlevel⟩
    · -- the other reading may have succeeded, but more follows and this one fails in the end
      obtain ⟨err', t, hfail⟩ := hfails err s
      rw [hfail]
      exact .inl (hinner ▸ hafter)
    · rw [bind_ok (a := .error err) (tryCatch_error hr')]
      exact herror err d s s' hlevel

/-- Readings that go on in the same way in both texts, with a result of which `A` holds. -/
def Alike (e : Excerpt) (b : Nat) (x x' : ReadM α) (A : α → Prop := fun _ => True) : Prop :=
  ∀ env st st', e.Level b st st' →
    Agrees e env (Both fun a s s' => e.Level b s s' ∧ A a) x x' st st'

/-- A reading that goes on in the same way in both texts. -/
abbrev Steady (e : Excerpt) (b : Nat) (x : ReadM α) (A : α → Prop := fun _ => True) : Prop :=
  Alike e b x x A

namespace Alike

variable {A A' : α → Prop} {B : β → Prop}

theorem pure {a : α} (h : A a) : Steady e b (Pure.pure a) A := fun _ _ _ hst => .pure ⟨hst, h⟩

theorem done {a : α} : Steady e b (Pure.pure a) := pure trivial

/-- What is read first is known to what comes after it. -/
theorem known (h : Alike e b x x' A) (hf : ∀ a, A a → Alike e b (f a) (f' a) B) :
    Alike e b (x >>= f) (x' >>= f') B :=
  fun env st st' hst => (h env st st' hst).bind fun a s s' hs => hf a hs.2 env s s' hs.1

theorem bind (h : Alike e b x x') (hf : ∀ a, Alike e b (f a) (f' a) B) :
    Alike e b (x >>= f) (x' >>= f') B := h.known fun a _ => hf a

theorem mono (h : Alike e b x x' A) (hA : ∀ a, A a → A' a) : Alike e b x x' A' :=
  fun env st st' hst => (h env st st' hst).weaken fun a _ _ hs => ⟨hs.1, hA a hs.2⟩

theorem throw {err : Error} : Steady e b (throw err : ReadM α) A := fun _ _ _ h => agrees_throw h

theorem fail : Steady e b (ReadM.fail cause : ReadM α) A := fun _ _ _ h => agrees_fail h

theorem failHere : Steady e b (ReadM.failHere cause : ReadM α) A := fun _ _ _ h => agrees_failHere h

theorem lift_of {r : Except Error α} (hA : ∀ a, r = .ok a → A a) : Steady e b (ReadM.lift r) A :=
  fun _ _ _ h => agrees_lift h fun a ha => ⟨h, hA a ha⟩

theorem lift {r : Except Error α} : Steady e b (ReadM.lift r) := lift_of fun _ _ => trivial

theorem read : Steady e b (MonadReader.read : ReadM ReadEnv) :=
  fun _ _ st' h => ⟨st', rfl, h, trivial⟩

theorem line : Steady e b ReadM.line := by
  intro env st st' h
  refine ⟨st', ?_, h, trivial⟩
  show EStateM.Result.ok st'.cursor.line st' = _
  rw [h.line_eq]

theorem nextId : Steady e b ReadM.nextId := by
  intro env st st' h
  refine ⟨{ st' with lastId := st'.lastId + 1 }, ?_, ?_, trivial⟩
  · show EStateM.Result.ok (st'.lastId + 1) _ = _
    rw [h.lastId]
  · exact { h with lastId := congrArg (· + 1) h.lastId }

/-- A character that must be there: without one, all texts fail. -/
theorem take_bind {f f' : Option Char → ReadM α}
    (hnone : ∀ {e b}, Alike e b (f none) (f' none) fun _ => False)
    (hchar : ∀ c, 0 < b → Alike e (b - 1) (f (some c)) (f' (some c)) A) :
    Alike e b (take >>= f) (take >>= f') A := by
  intro env st st' h
  refine .take_bind h (fun c s s' hb _ hs => ?_) (fun s s' _ hs => ?_) fun s s' hs => ?_
  · exact (hchar c hb env s s' hs.toLevel).weaken fun _ _ _ h => ⟨h.1.mono (Nat.sub_le _ _), h.2⟩
  · exact hnone.mono (fun _ => False.elim) env s s' hs.level
  · -- a newline does where the text alone has nothing: only the failure of the latter is known
    have hfails := hnone env s s (lone_level hs.reached)
    unfold Agrees at hfails
    cases hr : f none env s with
    | ok a t =>
      rw [hr] at hfails
      obtain ⟨_, _, _, hfalse⟩ := hfails
      exact hfalse.elim
    | error err t => exact .of_error hs.more hr

/-- Steps enough for what is left. -/
theorem fuel_bind {f f' : Nat → ReadM α}
    (hf : ∀ d n n', d ≤ b → e.Ample d n n' → Alike e d (f n) (f' n') A) :
    Alike e b (fuel >>= f) (fuel >>= f') A := by
  intro env st st' h
  have hd := h.remaining_le
  exact (hf _ _ _ hd h.ample env st st' h.tight).weaken fun _ _ _ hs => ⟨hs.1.mono hd, hs.2⟩

theorem mapM {ι : Type} {g : ι → ReadM α} (h : ∀ i, Steady e b (g i)) (is : List ι) :
    Steady e b (is.mapM g) := by
  induction is with
  | nil =>
    exact .done
  | cons i is ih =>
    rw [mapM_cons]
    exact (h i).bind fun _ => ih.bind fun _ => .done

end Alike

end ReadM

end HostedLisp
