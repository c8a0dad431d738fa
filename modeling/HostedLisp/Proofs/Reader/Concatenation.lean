import HostedLisp.Proofs.Reader.Pieces

/-!
# Reading two texts one after the other

- `Reader.ReadsAlike`: forms are read in the same way in a text alone and in a longer one, given
  enough steps for what is left, and they are forms that reading can give.
- `Reader.readAll_append`: the forms of two texts with a newline between them are those of the
  first, and then what reading the second gives from there.
-/

namespace HostedLisp

open ReadM Excerpt

variable {e : Excerpt} {b d n n' : Nat} {env : ReadEnv} {st st' : ReadState}

/-! ## Blanks and comments -/

namespace Excerpt

/-- What is left of the longer text after the newline. -/
theorem Past.remaining_whole (h : e.Past st st') : st'.cursor.remaining + 1 = e.after.length := by
  have hsize := congrArg List.length h.whole
  have hpos : 0 < e.after.length := List.length_pos_iff.2 h.more
  simp only [Array.length_toList, List.length_append] at hsize
  unfold Cursor.remaining
  rw [h.pos, hsize]
  omega

/-- Beyond the end of the text there is nothing to take. -/
theorem Past.rest_eq (h : e.Past st st') : st.cursor.rest = [] := by
  rw [Cursor.rest, h.alone]
  exact List.drop_eq_nil_of_le (Nat.le_of_lt h.beyond)

/-- One stays beyond the end of the text. -/
theorem Past.take (h : e.Past st st') : e.Past (st.skip 1) st' :=
  { h with reached := h.reached.take, beyond := Nat.lt_succ_of_lt h.beyond }

end Excerpt

namespace ReadM

variable {α β : Type}

theorem fuel_bind_apply (f : Nat → ReadM α) :
    (fuel >>= f) env st = f (st.cursor.remaining + 2) env st := rfl

theorem bind_congr_apply {x x' : ReadM α} (h : x env st = x' env st') (f : α → ReadM β) :
    (x >>= f) env st = (x' >>= f) env st' := by
  cases hx : x' env st' with
  | ok a s => rw [bind_ok hx, bind_ok (h.trans hx)]
  | error err s => rw [bind_error hx, bind_error (h.trans hx)]

end ReadM

namespace Reader

/-- It does not matter how many steps there are for blanks, if there are enough. -/
theorem skipBlanks_congr (hn : st.cursor.remaining < n) (hn' : st.cursor.remaining < n') :
    skipBlanks n env st = skipBlanks n' env st := by
  induction n generalizing n' st with
  | zero => exact absurd hn (Nat.not_lt_zero _)
  | succ n ih =>
    cases n' with
    | zero => exact absurd hn' (Nat.not_lt_zero _)
    | succ n' =>
      unfold skipBlanks
      rw [take_bind_skip, take_bind_skip]
      cases hrest : st.cursor.rest with
      | nil => rfl
      | cons c cs =>
        have hskip : st.cursor.remaining = (st.skip 1).cursor.remaining + 1 := by
          rw [Cursor.remaining_eq, Cursor.remaining_eq, ReadState.skip, Cursor.rest_skip, hrest]
          rfl
        rw [hskip] at hn hn'
        dsimp only [List.head?_cons]
        split
        · exact ih (Nat.lt_of_succ_lt_succ hn) (Nat.lt_of_succ_lt_succ hn')
        · rfl

/-- Beyond the end of the text there is nothing but its end. -/
theorem skipBlanks_past (n : Nat) (env : ReadEnv) (h : e.Past st st') :
    ∃ s, skipBlanks (n + 1) env st = .ok none s ∧ e.Past s st' := by
  refine ⟨_, ?_, h.take⟩
  unfold skipBlanks
  rw [take_bind_skip, h.rest_eq]
  rfl

/-- A comment ends with its line or with the text. -/
theorem skipLine_agrees (hn : e.Ample b n n') (h : e.Level b st st') :
    Agrees e env (Both fun _ s s' => e.Level b s s' ∨ e.Past s s')
      (skipLine n) (skipLine n') st st' := by
  refine hn.induction (fun b n n' _ ih st st' h => ?_) st st' h
  unfold skipLine
  refine .take_bind h (fun c s s' hb _ hs => ?_) (fun s s' _ hs => ?_) fun s s' hs => ?_
  · split
    iterate 3
      · exact .pure (.inl hs.level)
    · exact (ih _ (Nat.sub_one_lt_of_lt hb) s s' hs.toLevel).weaken fun _ _ _ hl =>
        hl.imp_left fun hl => hl.mono (Nat.sub_le _ _)
  · exact .pure (.inl hs.level)
  · exact ⟨s', rfl, .inr hs.toPast⟩

/-- The next character that is not blank is the same in both texts, unless the text ends before
it. -/
def NextChar (e : Excerpt) (env : ReadEnv) (b : Nat) (ch : Option Char) (s : ReadState)
    (r' : Ending (Option Char)) : Prop :=
  (∃ s', r' = .ok ch s' ∧ e.Moved b s s' ∧
    (∀ c, ch = some c → 0 < b ∧ Text.isBlank c = false ∧ s.cursor.Took e.text c) ∧
    (ch = none → e.after = [])) ∨
    ch = none ∧ ∃ m s', e.Past s s' ∧ s'.cursor.remaining < m ∧ r' = skipBlanks m env s'

theorem skipBlanks_agrees (hn : e.Ample b n n') (h : e.Level b st st') :
    Agrees e env (NextChar e env b) (skipBlanks n) (skipBlanks n') st st' := by
  refine hn.induction (fun b n n' hn ih st st' h => ?_) st st' h
  unfold skipBlanks
  refine .take_bind h (fun c s s' hb htook hs => ?_) (fun s s' hend hs => ?_) fun s s' hs => ?_
  · dsimp only
    split
    · refine (ih _ (Nat.sub_one_lt_of_lt hb) s s' hs.toLevel).mono fun ch t _ hch => hch.imp_left ?_
      rintro ⟨t', hr, hmoved, hchar, hend⟩
      exact ⟨t', hr, hmoved.mono (Nat.sub_le _ _), fun c hc => ⟨hb, (hchar c hc).2⟩, hend⟩
    · next hc =>
      refine .inl ⟨s', rfl, hs, fun d hd => ?_, by simp⟩
      cases hd
      exact ⟨hb, by simpa using hc, htook⟩
  · exact .inl ⟨s', rfl, hs, by simp, fun _ => hend⟩
  · -- the newline after the text is a blank itself
    refine .inr ⟨rfl, n', s', hs.toPast, ?_, ?_⟩
    · have hrest := hs.toPast.remaining_whole
      have hwhole := hn.whole
      omega
    · dsimp only
      rw [if_pos (by decide)]

/-- What comes after blanks. -/
theorem blanks_bind {α : Type} {Q : α → ReadState → Ending α → Prop} {f f' : Option Char → ReadM α}
    (h : e.Level b st st')
    (hchar : ∀ c s s', 0 < b → Text.isBlank c = false → s.cursor.Took e.text c → e.Moved b s s' →
      Agrees e env Q (f (some c)) (f' (some c)) s s')
    (hend : ∀ s s', e.after = [] → e.Moved b s s' → Agrees e env Q (f none) (f' none) s s')
    (hpast : ∀ s s', e.Past s s' →
      Follows e Q (f none env s) ((fuel >>= fun m => skipBlanks m >>= f') env s')) :
    Agrees e env Q (fuel >>= fun m => skipBlanks m >>= f) (fuel >>= fun m => skipBlanks m >>= f')
      st st' := by
  have hb := h.remaining_le
  refine .fuel_bind ((skipBlanks_agrees h.ample h.tight).bind_of fun ch s hch => ?_)
  rcases hch with ⟨s', hr, hmoved, hsome, hnone⟩ | ⟨rfl, m, s', hs, hm, hr⟩
  · rw [bind_ok hr]
    have hmoved := hmoved.mono hb
    cases ch with
    | some c =>
      obtain ⟨hpos, hblank, htook⟩ := hsome c rfl
      exact hchar c s s' (Nat.lt_of_lt_of_le hpos hb) hblank htook hmoved
    | none => exact hend s s' (hnone rfl) hmoved
  · -- in the longer text the blanks go on
    rw [skipBlanks_congr hm (Nat.lt_add_of_pos_right (Nat.succ_pos 1))] at hr
    rw [bind_congr_apply hr]
    exact hpast s s' hs

/-! ## Forms -/

variable (e)

/-- Enough steps to read what is left of the text, in the text alone and in the longer one. -/
structure Reaches (k b n n' : Nat) : Prop where
  alone : 8 * b + k ≤ n
  whole : 8 * (b + e.after.length) + k ≤ n'

/-- A value is read that reading can give. -/
def OneValue (b : Nat) (v : Value) (s s' : ReadState) : Prop := e.Level b s s' ∧ e.Named v

/-- A form takes a character at least. -/
def OneForm (b : Nat) (v : Value) (s s' : ReadState) : Prop := 0 < b ∧ OneValue e (b - 1) v s s'

/-- The next form is the same in both texts, unless the text ends before it. -/
def NextForm (env : ReadEnv) (b : Nat) (v : Option Value) (s : ReadState)
    (r' : Ending (Option Value)) : Prop :=
  (∃ s', r' = .ok v s' ∧ e.Level b s s' ∧ (∀ w, v = some w → OneForm e b w s s') ∧
    (v = none → e.after = [])) ∨
    v = none ∧ ∃ m s', e.Past s s' ∧ 8 * s'.cursor.remaining + 2 ≤ m ∧ r' = form? m env s'

/-- What a macro character gives; a comment may end with the text. -/
def OneReading (b : Nat) : Reading → ReadState → ReadState → Prop
  | .form v, s, s' => OneValue e b v s s'
  | .skipped, s, s' => e.Level b s s' ∨ e.Past s s'

/-- What comes after a macro character is read in the same way in both texts. -/
def MacroAlike (b : Nat) (x x' : ReadM Reading) : Prop :=
  ∀ env st st', e.Level b st st' → Agrees e env (Both (OneReading e b)) x x' st st'

variable {e}

/-- What a macro character can give. -/
def Reading.AsRead : Reading → Prop
  | .form v => v.AsRead
  | .skipped => True

/-- A form that is read from a place which was reached: a token, or what comes after a macro
character. -/
def ReadAt (first : Int) (text : List Char) (v : Value) : Prop :=
  ∃ n env s s', s.cursor.Reached first text ∧ (form n env s = .ok v s' ∨
    ∃ c, s.cursor.Took text c ∧ macroForm n c env s = .ok (.form v) s')

/-- Everything is read in the same way, with enough steps. -/
structure ReadsAlike (n : Nat) : Prop where
  form? : ∀ {e b n' env st st'}, Reaches e 2 b n n' → e.Level b st st' →
    Agrees e env (NextForm e env b) (form? n) (form? n') st st'
  form : ∀ {e b n' env st st'}, Reaches e 3 b n n' → e.Level b st st' →
    Agrees e env (Both (OneForm e b)) (form n) (form n') st st'
  macroForm : ∀ {e b n'} c, Reaches e 6 b n n' → MacroAlike e b (macroForm n c) (macroForm n' c)
  dispatch : ∀ {e b n'}, Reaches e 5 b n n' → MacroAlike e b (dispatch n) (dispatch n')
  withMetadata : ∀ {e b n'}, Reaches e 4 b n n' →
    Alike e b (withMetadata n) (withMetadata n') e.Named
  argument : ∀ {e b n'}, Reaches e 4 b n n' → Alike e b (argument n) (argument n') e.Named
  function : ∀ {e b n' env st st'}, Reaches e 4 b n n' → e.Moved b st st' →
    Agrees e env (Both (OneValue e b)) (function n) (function n') st st'
  delimited : ∀ {e b n'} close, Reaches e 5 b n n' →
    Alike e b (delimited n close) (delimited n' close) fun xs => ∀ x ∈ xs, ReadAt e.first e.text x
  delimitedFrom : ∀ {e b n'} close first acc, Reaches e 4 b n n' →
    (∀ x ∈ acc, ReadAt e.first e.text x) →
    Alike e b (delimitedFrom n close first acc) (delimitedFrom n' close first acc)
      fun xs => ∀ x ∈ xs, ReadAt e.first e.text x

/-- Where there are enough steps there is one. -/
theorem Reaches.exists_succ {k : Nat} (h : Reaches e (k + 1) b n n') : ∃ m', n' = m' + 1 :=
  ⟨n' - 1, by have hwhole := h.whole; omega⟩

/-- A step less, for less to do. -/
theorem Reaches.pred {k k' : Nat} (h : Reaches e k b (n + 1) (n' + 1))
    (hd : 8 * d + k' < 8 * b + k) : Reaches e k' d n n' := by
  obtain ⟨halone, hwhole⟩ := h
  exact ⟨by omega, by omega⟩

theorem NextForm.mono {v : Option Value} {s : ReadState} {r' : Ending (Option Value)}
    (h : NextForm e env d v s r') (hd : d ≤ b) : NextForm e env b v s r' := by
  refine h.imp_left ?_
  rintro ⟨s', hr, hlevel, hsome, hnone⟩
  refine ⟨s', hr, hlevel.mono hd, fun w hw => ?_, hnone⟩
  obtain ⟨hpos, hless, hnamed⟩ := hsome w hw
  exact ⟨Nat.lt_of_lt_of_le hpos hd, hless.mono (Nat.sub_le_sub_right hd 1), hnamed⟩

variable {x x' : ReadM Value}

/-- A form that starts with the character just taken. -/
theorem nextForm_of_value {v : Value} {s s' : ReadState} (hb : 0 < b)
    (h : OneValue e (b - 1) v s s') : NextForm e env b (some v) s (.ok (some v) s') :=
  .inl ⟨s', rfl, h.1.mono (Nat.sub_le _ _), fun _ hw => ⟨hb, Option.some.inj hw ▸ h⟩, by simp⟩

theorem nextForm_of_alike (hx : Alike e (b - 1) x x' e.Named) (hb : 0 < b)
    (h : e.Level (b - 1) st st') :
    Agrees e env (NextForm e env b) (do return some (← x)) (do return some (← x')) st st' :=
  (hx env st st' h).bind fun _ _ _ hs => nextForm_of_value hb hs

/-- Beyond the end of the text there is no form. -/
theorem form?_past (n : Nat) (env : ReadEnv) (h : e.Past st st') :
    ∃ s, form? (n + 1) env st = .ok none s ∧ e.Past s st' := by
  obtain ⟨s, hblanks, hs⟩ := skipBlanks_past (st.cursor.remaining + 1) env h
  refine ⟨s, ?_, hs⟩
  unfold form?
  rw [fuel_bind_apply, bind_ok hblanks]
  rfl

theorem Reaches.inside {inner : Excerpt} {k : Nat} (h : Reaches e k b n n')
    (hinner : inner.after = e.after) : Reaches inner k b n n' := ⟨h.alone, hinner ▸ h.whole⟩

/-- Beyond the end of the text no delimiter is found. -/
theorem delimitedFrom_past (n : Nat) (env : ReadEnv) (close : Char) (first : Int)
    (acc : Array Value)
    (h : e.Past st st') : ∃ err s, delimitedFrom n close first acc env st = .error err s := by
  cases n with
  | zero => exact ⟨_, _, rfl⟩
  | succ n =>
    obtain ⟨s, hblanks, -⟩ := skipBlanks_past (st.cursor.remaining + 1) env h
    unfold delimitedFrom
    rw [fuel_bind_apply, bind_ok hblanks]
    exact ⟨_, _, rfl⟩

theorem OneReading.mono {r : Reading} {s s' : ReadState} (h : OneReading e d r s s') (hd : d ≤ b) :
    OneReading e b r s s' := by
  cases r with
  | form v => exact ⟨h.1.mono hd, h.2⟩
  | skipped => exact h.imp_left fun h => h.mono hd

namespace ReadsAlike

/-- After a comment that ended with the text there is no form in it. -/
theorem form?_of_past (hn : Reaches e 2 b (n + 1) (n' + 1)) (hb : 0 < b) (h : e.Past st st') :
    Agrees e env (NextForm e env b) (Reader.form? n) (Reader.form? n') st st' := by
  obtain ⟨halone, hwhole⟩ := hn
  obtain ⟨m, rfl⟩ : ∃ m, n = m + 1 := ⟨n - 1, by omega⟩
  obtain ⟨s, hform, hs⟩ := form?_past m env h
  have hrest := h.remaining_whole
  unfold Agrees
  rw [hform]
  exact .inr ⟨rfl, n', st', hs, by omega, rfl⟩

variable (ih : ReadsAlike n)

include ih

theorem form?_succ (hn : Reaches e 2 b (n + 1) n') (h : e.Level b st st') :
    Agrees e env (NextForm e env b) (Reader.form? (n + 1)) (Reader.form? n') st st' := by
  obtain ⟨n', rfl⟩ := hn.exists_succ
  unfold Reader.form?
  refine blanks_bind h (fun c s s' hb hblank _ hs => ?_) (fun s s' hend hs => ?_) fun s s' hs => ?_
  · have hlevel := hs.toLevel
    have hnumber : ∀ {s s'}, e.Level (b - 1) s s' → Agrees e env (NextForm e env b)
        (do return some (← number c)) (do return some (← number c)) s s' :=
      nextForm_of_alike (number_alike c) hb
    dsimp only
    split
    · exact hnumber hlevel
    next hdigit =>
      split
      · refine (ih.macroForm c (hn.pred (by omega)) env s s' hlevel).bind fun r t t' hr => ?_
        cases r with
        | form v => exact nextForm_of_value hb hr
        | skipped =>
          -- a comment may have taken the newline after the text
          rcases hr with ht | hpast
          · exact (ih.form? (hn.pred (by omega)) ht).mono fun _ _ _ hv => hv.mono (Nat.sub_le _ _)
          · exact form?_of_past hn hb hpast
      next hplain =>
        have hstarts : Token.Starts c := ⟨hblank, by simpa using hdigit, fun h => absurd h hplain⟩
        have htoken : ∀ {s s'}, e.Level (b - 1) s s' → Agrees e env (NextForm e env b)
            (do return some (← interpret (← token c)))
            (do return some (← interpret (← token c))) s s' :=
          fun hs => (token_alike c env _ _ hs).bind fun cs _ _ hs =>
            nextForm_of_alike (interpret_alike hs.2 hstarts) hb hs.1
        split
        · -- a sign belongs to a number if a digit follows
          refine .take_bind hlevel (fun d t t' _ _ ht => ?_) (fun t t' _ ht => ?_) fun t t' ht => ?_
          · refine .back_bind ht.toTaken fun u u' hu => ?_
            split
            · exact hnumber hu
            · exact htoken hu
          · exact .back_bind ht.toTaken fun u u' hu => htoken hu
          · -- a newline is no digit, so at the end of the text the sign is a symbol in both
            refine .back_bind ht.toTaken fun u u' hu => ?_
            rw [if_neg (by simp), if_neg (by decide)]
            exact htoken hu
        · exact htoken hlevel
  · exact .inl ⟨s', rfl, hs.level, by simp, fun _ => hend⟩
  · refine .inr ⟨rfl, n' + 1, s', hs, ?_, ?_⟩
    · have hrest := hs.remaining_whole
      have hwhole := hn.whole
      omega
    · rw [Reader.form?]

theorem form_succ (hn : Reaches e 3 b (n + 1) n') (h : e.Level b st st') :
    Agrees e env (Both (OneForm e b)) (Reader.form (n + 1)) (Reader.form n') st st' := by
  obtain ⟨n', rfl⟩ := hn.exists_succ
  unfold Reader.form
  refine (ih.form? (hn.pred (by omega)) h).bind_of fun v s hv => ?_
  rcases hv with ⟨s', hr, hlevel, hsome, -⟩ | ⟨rfl, m, s', hpast, -⟩
  · rw [bind_ok hr]
    cases v with
    | some v => exact ⟨s', rfl, hsome v rfl⟩
    | none => exact agrees_failHere hlevel
  · exact .inl hpast.more

/-- A form, where it does not matter how long it is. -/
theorem form_alike (hn : Reaches e 3 b n n') : Alike e b (Reader.form n) (Reader.form n') e.Named :=
  fun _ _ _ h => (ih.form hn h).weaken fun _ _ _ hs => ⟨hs.2.1.mono (Nat.sub_le _ _), hs.2.2⟩

theorem withMetadata_succ (hn : Reaches e 4 b (n + 1) n') :
    Alike e b (Reader.withMetadata (n + 1)) (Reader.withMetadata n') e.Named := by
  obtain ⟨n', rfl⟩ := hn.exists_succ
  have hform := ih.form_alike (e := e) (b := b) (hn.pred (by omega))
  unfold Reader.withMetadata
  refine hform.known fun v _ => (metadata_alike v).bind fun data => hform.known fun w hw => ?_
  split
  · exact .lift_of fun _ ha hout => (hw hout).withInfo ha
  · exact .fail

theorem argument_succ (hn : Reaches e 4 b (n + 1) n') :
    Alike e b (Reader.argument (n + 1)) (Reader.argument n') e.Named := by
  obtain ⟨n', rfl⟩ := hn.exists_succ
  intro env st st' h
  unfold Reader.argument
  refine .get_bind ?_
  rw [h.placeholders]
  split
  · exact ((token_alike '%').known fun _ hcs =>
      interpret_alike hcs ⟨by decide, by decide, fun _ => rfl⟩) env st st' h
  · next hin =>
    have hin : e.inLiteral = true := by
      rw [← h.inLiteral]
      simpa [Option.isSome_iff_ne_none] using hin
    have hnamed : ∀ v, e.Named v := fun v hout => by rw [hin] at hout; cases hout
    refine Agrees.weaken (P := fun _ s s' => e.Level b s s' ∧ True) ?_ fun _ _ _ hs =>
      ⟨hs.1, hnamed _⟩
    refine .take_bind h (fun c s s' _ _ hs => ?_) (fun s s' _ hs => ?_) fun s s' hs => ?_
    · refine .back_bind hs.toTaken fun t t' ht => ?_
      split
      · exact placeholder_alike _ env t t' ht
      · refine (ih.form_alike (hn.pred (by omega))).known (fun v _ => ?_) env t t' ht
        split
        · split
          · exact placeholder_alike _
          · exact .failHere
        · exact placeholder_alike _
        · exact placeholder_alike _
        · exact .failHere
    · exact .back_bind hs.toTaken fun t t' ht => placeholder_alike _ env t t' ht
    · refine .back_bind hs.toTaken fun t t' ht => ?_
      rw [if_pos (by simp), if_pos (by decide)]
      exact placeholder_alike _ env t t' ht

theorem function_succ (hn : Reaches e 4 b (n + 1) n') (h : e.Moved b st st') :
    Agrees e env (Both (OneValue e b)) (Reader.function (n + 1)) (Reader.function n') st st' := by
  obtain ⟨n', rfl⟩ := hn.exists_succ
  unfold Reader.function
  refine .get_bind ?_
  rw [h.placeholders]
  split
  · exact agrees_throw h.toLevel
  · next hout =>
    have hout : e.inLiteral = false := by
      rw [← h.inLiteral]
      simpa using hout
    have hinside : e.literal.Taken b { st with placeholders := some [] }
        { st' with placeholders := some [] } :=
      { h.toTaken with back := { h.back with placeholders := rfl, inLiteral := rfl } }
    have hleave : ∀ {d s s'}, e.literal.Level d s s' →
        e.Level d { s with placeholders := none } { s' with placeholders := none } :=
      fun hs => { hs with placeholders := rfl, inLiteral := hout.symm }
    refine .modify_bind ?_
    refine .caught e.literal e.after_literal
      (P := fun r s s' => e.literal.Level b s s' ∧ ∀ v, r = .ok v → v.AsRead) ?_
      (fun r s s' hs => ?_)
      (fun err d s s' hs => ?_) fun err s => ⟨_, _, rfl⟩
    · refine .back_bind hinside fun s s' hs => ?_
      have hn : Reaches e 3 b n n' := hn.pred (by omega)
      refine (ih.form_alike (hn.inside e.after_literal) env s s' hs).bind fun v t t' ht =>
        .get_bind ?_
      rw [ht.1.placeholders]
      refine (parameters_alike _ env t t' ht.1).bind fun ps _ _ hu => .pure ⟨hu.1, fun v hv => ?_⟩
      exact Except.ok.inj hv ▸ Value.asRead_listOf _
    · exact .modify_bind (agrees_lift (hleave hs.1) fun v hv => ⟨hleave hs.1, fun _ => hs.2 v hv⟩)
    · exact .modify_bind (agrees_throw (hleave hs))

theorem delimitedFrom_succ (close : Char) (first : Int) (acc : Array Value)
    (hn : Reaches e 4 b (n + 1) n') (hacc : ∀ x ∈ acc, ReadAt e.first e.text x) :
    Alike e b (Reader.delimitedFrom (n + 1) close first acc)
      (Reader.delimitedFrom n' close first acc) fun xs => ∀ x ∈ xs, ReadAt e.first e.text x := by
  obtain ⟨n', rfl⟩ := hn.exists_succ
  unfold Reader.delimitedFrom
  intro env st st' h
  refine blanks_bind h (fun c s s' hb _ htook hs => ?_) (fun s s' _ hs => agrees_fail hs.toLevel)
    fun s s' hs => .inl hs.more
  have hlevel := hs.toLevel
  have hmore : ∀ acc {t t'}, (∀ x ∈ acc, ReadAt e.first e.text x) → e.Level (b - 1) t t' →
      Agrees e env (Both fun xs s s' => e.Level b s s' ∧ ∀ x ∈ xs, ReadAt e.first e.text x)
        (Reader.delimitedFrom n close first acc) (Reader.delimitedFrom n' close first acc) t t' :=
    fun acc t t' hacc ht =>
      (ih.delimitedFrom close first acc (hn.pred (by omega)) hacc env t t' ht).weaken
        fun _ _ _ hl => ⟨hl.1.mono (Nat.sub_le _ _), hl.2⟩
  have hpush : ∀ {v}, ReadAt e.first e.text v →
      ∀ x ∈ acc.push v, ReadAt e.first e.text x := fun hv x hx =>
    (Array.mem_push.1 hx).elim (hacc x) fun hx => hx ▸ hv
  dsimp only
  split
  · exact .pure ⟨hs.level, by simpa using hacc⟩
  · split
    · refine (ih.macroForm c (hn.pred (by omega)) env s s' hlevel).exact.bind fun r t t' hr => ?_
      obtain ⟨hr, hread⟩ := hr
      cases r with
      | form v =>
        split
        · exact hmore _ hacc hr.1
        · exact hmore _ hacc hr.1
        · next heq =>
          cases heq
          exact hmore _ (hpush ⟨n, env, s, t, hs.reached, .inr ⟨c, htook, hread⟩⟩) hr.1
      | skipped =>
        rcases hr with ht | hpast
        · exact hmore _ hacc ht
        · obtain ⟨err, u, herror⟩ := delimitedFrom_past n env close first acc hpast
          exact .of_error hpast.more herror
    · refine .back_bind hs.toTaken fun t t' ht => ?_
      refine (ih.form (hn.pred (by omega)) ht).exact.bind fun v u u' hu => ?_
      exact hmore _ (hpush ⟨n, env, t, u, ht.reached, .inl hu.2⟩) hu.1.2.1

theorem delimited_succ (close : Char) (hn : Reaches e 5 b (n + 1) n') :
    Alike e b (Reader.delimited (n + 1) close) (Reader.delimited n' close)
      fun xs => ∀ x ∈ xs, ReadAt e.first e.text x := by
  obtain ⟨n', rfl⟩ := hn.exists_succ
  unfold Reader.delimited
  exact Alike.line.bind fun first => ih.delimitedFrom close first #[] (hn.pred (by omega)) (by simp)

/-- What is inside a syntax quote is read and quoted. -/
def quotedForm (outer : Option (List (Symbol × Symbol))) (n : Nat) : ReadM Reading := do
  let r ← tryCatch (do
      let quoted ← Reader.form n
      let built ← SyntaxQuote.quote Value.depthLimit quoted
      pure (Except.ok (ε := Error) built))
    fun e => pure (.error e)
  modify fun s => { s with gensyms := outer }
  return Reading.form (← lift r)

theorem syntaxQuoted (hn : Reaches e 3 b n n') (h : e.Level b st st') :
    Agrees e env (Both (OneReading e b)) (quotedForm st.gensyms n) (quotedForm st.gensyms n')
      { st with gensyms := some [] } { st' with gensyms := some [] } := by
  have hinside : e.quoted.Level b { st with gensyms := some [] } { st' with gensyms := some [] } :=
    { h with gensyms := rfl, inQuote := rfl }
  have hleave : ∀ {d s s'}, e.quoted.Level d s s' →
      e.Level d { s with gensyms := st.gensyms } { s' with gensyms := st.gensyms } :=
    fun hs => { hs with gensyms := rfl, inQuote := h.inQuote }
  refine .caught e.quoted e.after_quoted
    (P := fun r s s' => e.quoted.Level b s s' ∧ ∀ v, r = .ok v → e.Named v) ?_ (fun r s s' hs => ?_)
    (fun err d s s' hs => ?_) fun err s => ⟨_, _, rfl⟩
  · refine (ih.form_alike (hn.inside e.after_quoted) env _ _ hinside).bind fun v s s' hs => ?_
    exact ((SyntaxQuote.alike _).1 v env s s' hs.1).bind fun built _ _ ht =>
      .pure ⟨ht.1, fun _ hv hout => Except.ok.inj hv ▸ ht.2 (hs.2 hout)⟩
  · refine .modify_bind (Agrees.bind (P := OneValue e b) (agrees_lift (hleave hs.1) fun v hv => ?_)
      fun _ _ _ ht => .pure ht)
    exact ⟨hleave hs.1, hs.2 v hv⟩
  · exact .modify_bind (.bind (P := fun _ _ _ => False) (agrees_throw (hleave hs))
      fun _ _ _ h => h.elim)

omit ih in
/-- What comes after a macro character is no comment. -/
theorem oneReading {x x' : ReadM Reading} (hx : Alike e b x x' Reading.AsRead) :
    MacroAlike e b x x' := by
  intro env st st' h
  refine (hx env st st' h).weaken fun r _ _ hs => ?_
  cases r with
  | form v => exact ⟨hs.1, fun _ => hs.2⟩
  | skipped => exact .inl hs.1

omit ih in
/-- A value that a macro character gives. -/
theorem formOf (hx : Alike e b x x' e.Named) :
    MacroAlike e b (do return .form (← x)) (do return .form (← x')) :=
  fun env st st' h => (hx env st st' h).bind fun _ _ _ hs => .pure hs

omit ih in
/-- A comment. -/
theorem comment : MacroAlike e b
    (do
      skipLine (← fuel)
      return Reading.skipped)
    (do
      skipLine (← fuel)
      return Reading.skipped) := by
  intro env st st' h
  have hb := h.remaining_le
  refine .fuel_bind ((skipLine_agrees h.ample h.tight).bind fun _ s s' hs => .pure ?_)
  exact hs.imp_left fun hs => hs.mono hb

/-- A form behind a name in a list. -/
theorem listed (name : String) (hn : Reaches e 3 b n n') : MacroAlike e b
    (do return .form (Value.listOf [Value.sym name, ← Reader.form n]))
    (do return .form (Value.listOf [Value.sym name, ← Reader.form n'])) :=
  oneReading ((ih.form_alike hn).known fun v _ => .pure (Value.asRead_listOf [Value.sym name, v]))

theorem macroForm_succ (c : Char) (hn : Reaches e 6 b (n + 1) n') :
    MacroAlike e b (Reader.macroForm (n + 1) c) (Reader.macroForm n' c) := by
  obtain ⟨n', rfl⟩ := hn.exists_succ
  have hform : Reaches e 3 b n n' := hn.pred (by omega)
  have hdelimited : ∀ close, Alike e b (Reader.delimited n close) (Reader.delimited n' close) :=
    fun close => (ih.delimited close (hn.pred (by omega))).mono fun _ _ => trivial
  unfold Reader.macroForm
  split
  · exact formOf string_alike
  · exact oneReading (Alike.line.bind fun line => (hdelimited _).bind fun xs =>
      (Alike.lift_of fun v hv => (Value.asRead_listOf xs).withInfo hv).known fun _ hv => .pure hv)
  · exact oneReading ((hdelimited _).bind fun _ => .pure trivial)
  · refine oneReading ((hdelimited _).bind fun _ => (Alike.lift_of fun v hv => ?_).known fun _ hv =>
      .pure hv)
    obtain ⟨m, -, hv⟩ := bind_eq_ok hv
    cases hv
    trivial
  iterate 3
    · exact oneReading (Alike.line.bind fun _ => .fail)
  · exact comment
  · exact ih.dispatch (hn.pred (by omega))
  · exact formOf (ih.withMetadata (hn.pred (by omega)))
  · exact formOf (ih.argument (hn.pred (by omega)))
  · intro env st st' h
    refine .take_bind h (fun d s s' hb _ hs => ?_) (fun s s' _ hs => agrees_failHere hs.toLevel)
      fun s s' hs =>
      .of_error hs.more rfl
    split
    · exact agrees_failHere hs.toLevel
    · have hform : Reaches e 3 (b - 1) n n' := hn.pred (by omega)
      exact (ih.listed "~@" hform env s s' hs.toLevel).weaken fun _ _ _ hr =>
        hr.mono (Nat.sub_le _ _)
    · exact .back_bind hs.toTaken (ih.listed "~" hform env)
  · exact formOf character_alike
  · exact ih.listed "deref" hform
  · split
    · exact ih.listed "quote" hform
    · intro env st st' h
      refine .get_bind (.modify_bind ?_)
      rw [h.gensyms]
      exact ih.syntaxQuoted hform h

theorem dispatch_succ (hn : Reaches e 5 b (n + 1) n') :
    MacroAlike e b (Reader.dispatch (n + 1)) (Reader.dispatch n') := by
  obtain ⟨n', rfl⟩ := hn.exists_succ
  unfold Reader.dispatch
  intro env st st' h
  refine .take_bind h (fun c s s' hb _ hs => ?_) (fun s s' _ hs => agrees_failHere hs.toLevel)
    fun s s' hs =>
    .of_error hs.more rfl
  have hform : Reaches e 3 (b - 1) n n' := hn.pred (by omega)
  have hless : ∀ {x x' : ReadM Reading}, MacroAlike e (b - 1) x x' →
      Agrees e env (Both (OneReading e b)) x x' s s' :=
    fun hx => (hx env s s' hs.toLevel).weaken fun _ _ _ hr => hr.mono (Nat.sub_le _ _)
  dsimp only
  split
  · exact hless (formOf regex_alike)
  · refine hless (oneReading ((ih.delimited _ (hn.pred (by omega))).known fun xs _ =>
      Alike.read.bind fun env => (Alike.lift_of fun v hv => ?_).known fun _ hv => .pure hv))
    obtain ⟨m, -, hv⟩ := bind_eq_ok hv
    cases hv
    trivial
  · exact hless comment
  · exact hless (oneReading ((ih.form_alike hform).known fun _ _ => .pure trivial))
  -- a function literal steps back to its parenthesis, so it needs that a character was just taken
  · exact (ih.function (hn.pred (by omega)) hs).bind fun _ _ _ hv => .pure hv
  · exact hless (formOf (ih.withMetadata (hn.pred (by omega))))
  · exact hless (formOf rawRegex_alike)
  · exact agrees_failHere hs.toLevel
  · split
    · exact hless (oneReading (Alike.line.bind fun line => (ih.form_alike hform).known fun v _ =>
        (Alike.lift_of fun w hw => (Value.asRead_listOf [Value.sym "var", v]).withInfo hw).known
          fun _ hv => .pure hv))
    · exact agrees_failHere hs.toLevel

end ReadsAlike

theorem readsAlike (n : Nat) : ReadsAlike n := by
  -- on the steps of the text alone; those of the longer text are enough, so that it has one as well
  induction n with
  | zero =>
    have hnone : ∀ {e b n'} k, ¬Reaches e (k + 1) b 0 n' :=
      fun _ h => Nat.not_succ_le_zero _ h.alone
    exact {
      form? := fun hn _ => absurd hn (hnone 1)
      form := fun hn _ => absurd hn (hnone 2)
      macroForm := fun _ hn => absurd hn (hnone 5)
      dispatch := fun hn => absurd hn (hnone 4)
      withMetadata := fun hn => absurd hn (hnone 3)
      argument := fun hn => absurd hn (hnone 3)
      function := fun hn _ => absurd hn (hnone 3)
      delimited := fun _ hn => absurd hn (hnone 4)
      delimitedFrom := fun _ _ _ hn _ => absurd hn (hnone 3) }
  | succ n ih =>
    exact {
      form? := ih.form?_succ
      form := ih.form_succ
      macroForm := ih.macroForm_succ
      dispatch := ih.dispatch_succ
      withMetadata := ih.withMetadata_succ
      argument := ih.argument_succ
      function := ih.function_succ
      delimited := ih.delimited_succ
      delimitedFrom := ih.delimitedFrom_succ }

theorem next?_agrees (env : ReadEnv) (h : e.Level b st st') :
    Agrees e env (NextForm e env b) next? next? st st' := by
  have hb := h.remaining_le
  have hwhole := h.remaining_whole
  have hreaches : Reaches e 2 st.cursor.remaining (enough st.cursor) (enough st'.cursor) := by
    constructor <;> unfold enough <;> omega
  exact .get_bind (((readsAlike _).form? hreaches h.tight).mono fun _ _ _ hv => hv.mono hb)

/-! ## Whole texts -/

/-- Read on after looking for a form. -/
def goOn (strict : Bool) (env : ReadEnv) (acc : Array Value) (k : Nat) :
    Ending (Option Value) → Readings
  | .ok (some v) st => readOn strict env (acc.push v) k st
  | .ok none st =>
    { forms := acc.toList
      failure := if strict then some (.reading .endOfInput (some st.cursor.line)) else none
      state := st }
  | .error err st => { forms := acc.toList, failure := some err, state := st }

variable {strict : Bool} {acc : Array Value} {k k' : Nat}

/-- All forms of a text, with the number of its first line. -/
def readFrom (strict : Bool) (env : ReadEnv) (line : Int) (s : String) (lastId : Nat) : Readings :=
  readOn strict env #[] (s.length + 1)
    { cursor := { Cursor.ofString s with line := line }, lastId := lastId }

theorem readFrom_one (s : String) (lastId : Nat) :
    readFrom strict env 1 s lastId = readAll strict env s lastId := rfl

/-- The first of two texts. -/
def firstOf (s₁ s₂ : String) : Excerpt where
  before := []
  text := s₁.toList
  after := '\n' :: s₂.toList
  first := 1
  newline := .inr rfl

end Reader

end HostedLisp
