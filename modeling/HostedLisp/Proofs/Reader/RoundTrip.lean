import HostedLisp.Proofs.Equality
import HostedLisp.Proofs.Reader.Numeral
import HostedLisp.Proofs.Reader.Tokens

/-!
# Reading what was written

- `Value.Printable`: the values that are read back, with a bound on how deeply they nest.
- `Reader.ReadsAs`: a text that is read as a value like a given one, whatever follows that ends it.
- `Reader.readsAs_list`, `Reader.readsAs_vector`: lists and vectors of texts that are read back.
- `Value.Printable.readsAs`: the text of every printable value is one.
- `Value.readString_write`: reading the text of a printable value gives an equal value.
-/

namespace HostedLisp

open List Text

variable {t : Coll.Vector Value}

namespace Reader

open ReadM ReadState Value

variable {n : Nat} {v : Value} {env : ReadEnv} {st : ReadState} {lead cs rest : List Char}

/-- How many steps reading a text takes at most. -/
def stepsFor (cs : List Char) : Nat := 4 * cs.length + 4

variable {k : Nat} {close : Char} {vs : List Value} {texts : List (List Char)}

theorem exists_steps (hk : stepsFor cs ≤ k) : ∃ k', k = k' + 4 :=
  ⟨k - 4, by rw [stepsFor] at hk; omega⟩

/-- A text that is read as a value like `v`, by a macro character or as a token. -/
inductive ReadsAs (n : Nat) (v : Value) : List Char → Prop where
  | special {c : Char} {cs : List Char} (blank : isBlank c = false)
      (digit : isDigit c = false) (special : isMacro c = true) (opening : c ≠ ')' ∧ c ≠ ']')
      (read : ∀ {k : Nat} {env : ReadEnv} {st : ReadState} {rest : List Char},
        stepsFor (c :: cs) ≤ k → Ended rest → At (cs ++ rest) st →
        Ends False (macroForm k c) env st fun r st' =>
          ∃ w, r = .form w ∧ w ≠ .nil ∧ Alike n w v ∧ At rest st') : ReadsAs n v (c :: cs)
  | token {c : Char} {cs : List Char} (blank : isBlank c = false) (ordinary : isMacro c = false)
      (read : ∀ {k : Nat} {env : ReadEnv} {st : ReadState} {rest : List Char},
        stepsFor (c :: cs) ≤ k → Ended rest → At (c :: cs ++ rest) st →
        Ends False (form? k) env st fun r st' => ∃ w, r = some w ∧ Alike n w v ∧ At rest st') :
      ReadsAs n v (c :: cs)

/-- Such a text is read as a form. -/
theorem ReadsAs.form?_ends (h : ReadsAs n v cs) (hk : stepsFor cs ≤ k) (hrest : Ended rest)
    (hat : At (cs ++ rest) st) :
    Ends False (form? (k + 1)) env st fun r st' => ∃ w, r = some w ∧ Alike n w v ∧ At rest st' := by
  cases h with
  | @special c cs blank digit special opening read =>
    have hlead : At ([] ++ c :: (cs ++ rest)) st := hat
    unfold form?
    refine skipBlanks_fuel_ends hlead rfl blank fun st' hafter => ?_
    dsimp only
    rw [if_neg (by simp [digit]), if_pos special]
    refine (read hk hrest hafter.at_tail).bind fun r st'' hr => ?_
    obtain ⟨w, rfl, -, halike, hat⟩ := hr
    exact .pure ⟨w, rfl, halike, hat⟩
  | token blank ordinary read => exact read (Nat.le_succ_of_le hk) hrest hat

/-- A closing delimiter. -/
def Closes (close : Char) : Prop := close = ')' ∨ close = ']'

theorem Closes.facts (h : Closes close) :
    isBlank close = false ∧ isMacro close = true ∧ endsToken close = true := by
  rcases h with rfl | rfl <;> decide

/-- Such a text is read as the next item before a closing delimiter. -/
theorem ReadsAs.delimitedFrom_ends {first : Int} {acc : Array Value}
    {Q : List Value → ReadState → Prop} (h : ReadsAs n v cs) (hclose : Closes close)
    (hk : stepsFor cs + 1 ≤ k) (hlead : lead.all isBlank) (hrest : Ended rest)
    (hat : At (lead ++ (cs ++ rest)) st)
    (hnext : ∀ w st', Alike n w v → At rest st' →
      Ends False (delimitedFrom k close first (acc.push w)) env st' Q) :
    Ends False (delimitedFrom (k + 1) close first acc) env st Q := by
  unfold delimitedFrom
  cases h with
  | @special c cs blank digit special opening read =>
    refine skipBlanks_fuel_ends hat hlead blank fun st' hafter => ?_
    have hne : c ≠ close := by
      rcases hclose with rfl | rfl
      · exact opening.1
      · exact opening.2
    dsimp only
    rw [if_neg hne, if_pos special]
    refine (read (Nat.le_of_succ_le hk) hrest hafter.at_tail).bind fun r st'' hr => ?_
    obtain ⟨w, rfl, hw, halike, hat⟩ := hr
    split
    next heq => exact absurd (Reading.form.inj heq) hw
    next heq => cases heq
    next heq =>
      cases heq
      exact hnext w st'' halike hat
  | @token c cs blank ordinary read =>
    refine skipBlanks_fuel_ends hat hlead blank fun st' hafter => ?_
    have hne : c ≠ close := by
      rintro rfl
      exact Bool.false_ne_true (ordinary.symm.trans hclose.facts.2.1)
    obtain ⟨k, rfl⟩ : ∃ k', k = k' + 1 := ⟨k - 1, by omega⟩
    dsimp only
    rw [if_neg hne, if_neg (by simp [ordinary])]
    refine (back_ends hafter).bind fun _ st'' hback => ?_
    refine Ends.bind (Q := fun w st' => Alike n w v ∧ At rest st') ?_ fun w st' hw =>
      hnext w st' hw.1 hw.2
    unfold form
    refine (read (Nat.le_of_succ_le_succ hk) hrest hback).bind fun r st''' hr => ?_
    obtain ⟨w, rfl, halike, hat⟩ := hr
    exact .pure ⟨halike, hat⟩

/-! ## Items between delimiters -/

/-- The texts of items with blanks between. -/
def spaced : List (List Char) → List Char
  | [] => []
  | cs :: more => cs ++ more.flatMap (' ' :: ·)

theorem Closes.ended (hclose : Closes close) (texts : List (List Char)) (rest : List Char) :
    Ended (texts.flatMap (' ' :: ·) ++ close :: rest) := by
  intro c hc
  cases texts with
  | nil =>
    cases hc
    exact hclose.facts.2.2
  | cons t texts =>
    cases hc
    decide

/-- A blank in front of each text, and so one in front of the first. -/
theorem flatMap_blank (texts : List (List Char)) :
    ∃ lead, lead.all isBlank ∧ texts.flatMap (' ' :: ·) = lead ++ spaced texts := by
  cases texts with
  | nil => exact ⟨[], rfl, rfl⟩
  | cons cs more => exact ⟨[' '], rfl, rfl⟩

theorem ReadsAs.length_pos (h : ReadsAs n v cs) : 0 < cs.length := by
  cases h <;> exact Nat.succ_pos _

/-- Items with blanks between them, up to a closing delimiter. -/
theorem delimitedFrom_items {first : Int} {acc : Array Value} (hclose : Closes close)
    (h : Forall₂ (ReadsAs n) vs texts) (hk : stepsFor (spaced texts) + 2 ≤ k)
    (hlead : lead.all isBlank) (hat : At (lead ++ (spaced texts ++ close :: rest)) st) :
    Ends False (delimitedFrom k close first acc) env st fun ws st' =>
      ∃ new, ws = acc.toList ++ new ∧ Forall₂ (Alike n) new vs ∧ At rest st' := by
  obtain ⟨k, rfl⟩ : ∃ k', k = k' + 1 := ⟨k - 1, by omega⟩
  induction h generalizing k acc st lead with
  | nil =>
    unfold delimitedFrom
    refine skipBlanks_fuel_ends hat hlead hclose.facts.1 fun st' hafter => ?_
    dsimp only
    rw [if_pos rfl]
    exact .pure ⟨[], by simp, .nil, hafter.at_tail⟩
  | @cons v cs vs texts hread _ ih =>
    obtain ⟨lead', hlead', hblank⟩ := flatMap_blank texts
    have hpos := hread.length_pos
    have hended := hclose.ended texts rest
    rw [spaced, hblank, stepsFor, length_append, length_append] at hk
    rw [spaced, append_assoc] at hat
    refine hread.delimitedFrom_ends hclose (by rw [stepsFor]; omega) hlead hended hat
      fun w st' halike hat => ?_
    rw [hblank, append_assoc] at hat
    obtain ⟨k, rfl⟩ : ∃ k', k = k' + 1 := ⟨k - 1, by omega⟩
    refine (ih hlead' hat k (by rw [stepsFor]; omega)).mono fun ws st'' hws => ?_
    obtain ⟨new, rfl, hnew, hat⟩ := hws
    exact ⟨w :: new, by simp, .cons halike hnew, hat⟩

/-- A whole text in delimiters, after the opening one. -/
theorem delimited_whole {opening close : Char} (hclose : Closes close)
    (h : Forall₂ (ReadsAs n) vs texts)
    (hk : stepsFor (opening :: (spaced texts ++ [close])) ≤ k + 1)
    (hat : At (spaced texts ++ [close] ++ rest) st) :
    Ends False (delimited k close) env st fun ws st' =>
      Forall₂ (Alike n) ws vs ∧ At rest st' := by
  simp only [stepsFor, length_cons, length_append, length_nil] at hk
  have hat : At ([] ++ (spaced texts ++ close :: rest)) st := by simpa using hat
  obtain ⟨k, rfl⟩ : ∃ k', k = k' + 1 := ⟨k - 1, by omega⟩
  unfold delimited
  refine Ends.line_bind ?_
  refine (delimitedFrom_items hclose h (by rw [stepsFor]; omega) rfl hat).mono fun ws st' hws => ?_
  obtain ⟨new, rfl, hnew, hat⟩ := hws
  exact ⟨by simpa using hnew, hat⟩

theorem readsAs_list (hv : IsList v vs) (h : Forall₂ (ReadsAs n) vs texts) :
    ReadsAs (n + 1) v ('(' :: (spaced texts ++ [')'])) := by
  refine .special (by decide) (by decide) (by decide) (by decide) ?_
  intro k env st rest hk _ hat
  obtain ⟨k, rfl⟩ := exists_steps hk
  unfold macroForm
  refine Ends.line_bind ((delimited_whole (.inl rfl) h hk hat).bind fun ws st' hws => ?_)
  obtain ⟨w, hinfo, hlist, -⟩ := isList_withInfo ws st.cursor.line
  have hne : w ≠ .nil := by
    rintro rfl
    cases hlist
  rw [hinfo]
  exact .pure ⟨w, rfl, hne, hlist.elements.alike hv.elements hws.1, hws.2⟩

theorem readsAs_vector (info : Value) (ht : t.Represents vs) (h : Forall₂ (ReadsAs n) vs texts) :
    ReadsAs (n + 1) (.vector t info) ('[' :: (spaced texts ++ [']'])) := by
  refine .special (by decide) (by decide) (by decide) (by decide) ?_
  intro k env st rest hk _ hat
  obtain ⟨k, rfl⟩ := exists_steps hk
  unfold macroForm
  refine (delimited_whole (.inr rfl) h hk hat).bind fun ws st' hws => ?_
  refine .pure ⟨vectorOf ws, rfl, fun hnil => ?_, ?_, hws.2⟩
  · cases hnil
  · exact (elements_vector (represents_ofList ws) .nil).alike (elements_vector ht info) hws.1

/-! ## Tokens and numbers -/

theorem readsAs_token {w : Value} (htoken : TokenOf cs w) (hw : cs.head? = some '%' → w ≠ .nil)
    (h : Alike n w v) : ReadsAs n v cs := by
  obtain ⟨c, hhead, ⟨hblank, hdigit, hmacro⟩, hunsigned⟩ := htoken.starts
  obtain ⟨cs, rfl⟩ := head?_eq_some_iff.mp hhead
  by_cases hspecial : isMacro c
  · obtain rfl := hmacro hspecial
    refine .special hblank hdigit hspecial (by decide) ?_
    intro k env st rest hk hrest hat
    obtain ⟨k, rfl⟩ := exists_steps hk
    refine (htoken.macroForm_ends hrest hat).mono fun r st' hr => ?_
    exact ⟨w, hr.1, hw rfl, h, hr.2⟩
  · refine .token hblank (by simpa using hspecial) ?_
    intro k env st rest hk hrest hat
    obtain ⟨k, rfl⟩ := exists_steps hk
    refine (htoken.form?_ends hrest hat).mono fun r st' hr => ?_
    exact ⟨w, hr.1, h, hr.2⟩

/-- Digits are taken up to what ends a token. -/
theorem number_ends {c : Char} {v : Value} (hcs : ∀ d ∈ cs, d.isDigit) (hrest : Ended rest)
    (hv : Token.number? (c :: cs) = .ok (some v)) (hat : At (cs ++ rest) st) :
    Ends False (number c) env st fun w st' => w = v ∧ At rest st' := by
  have hinside : ∀ d ∈ cs, (isBlank d || isMacro d) = false := by
    intro d hd
    rw [isBlank_digit (hcs d hd), isMacro_digit (hcs d hd)]
    rfl
  have hend : ∀ d, rest.head? = some d → (isBlank d || isMacro d) = true := by
    intro d hd
    have hd := hrest d hd
    simp only [endsToken, isTerminating, Bool.or_eq_true, Bool.and_eq_true] at hd ⊢
    exact hd.imp_right And.right
  obtain ⟨htake, hdrop⟩ := divide_at_stop hinside hend
  unfold number
  refine Ends.fuel_bind ?_
  refine (takeUntil_ends hat (by rw [hat.remaining_eq]; omega)).bind fun found st' hfound => ?_
  rw [htake, hdrop] at hfound
  obtain ⟨rfl, hat⟩ := hfound
  simp only [reverse_singleton, singleton_append, hv]
  exact .pure ⟨rfl, hat⟩

theorem readsAs_int {m : Int} (hm : m.natAbs < 10 ^ maxDigits) :
    ReadsAs n (.int m) (decimal m).toList := by
  obtain ⟨c, cs, htext, hcs, hc⟩ := Token.decimal_shape m
  have hnumber := Token.number?_decimal hm
  rw [htext] at hnumber ⊢
  have hplain : isBlank c = false ∧ isMacro c = false := by
    rcases hc with hc | ⟨rfl, -⟩
    · exact ⟨isBlank_digit hc, isMacro_digit hc⟩
    · decide
  refine .token hplain.1 hplain.2 ?_
  intro k env st rest hk hrest hat
  obtain ⟨k, rfl⟩ := exists_steps hk
  have hread {st' : ReadState} (hat : At (cs ++ rest) st') :
      Ends False (do return some (← number c)) env st' fun r st'' =>
        ∃ w, r = some w ∧ Alike n w (.int m) ∧ At rest st'' := by
    refine (number_ends hcs hrest hnumber hat).bind fun w st'' hw => .pure ⟨w, rfl, ?_, hw.2⟩
    rw [hw.1]
    exact alike_atom rfl rfl rfl
  have hat : At ([] ++ c :: (cs ++ rest)) st := hat
  unfold form?
  refine skipBlanks_fuel_ends hat rfl hplain.1 fun st' hafter => ?_
  dsimp only
  rcases hc with hc | ⟨rfl, d, hd, hdigit⟩
  · rw [if_pos (isDigit_digit hc)]
    exact hread hafter.at_tail
  · refine (take_ends hafter.at_tail).bind fun ch st'' hch => ?_
    obtain ⟨rfl, hafter⟩ := hch
    refine (back_ends hafter).bind fun _ st''' hat => ?_
    have hsign : (((('-' :: (cs ++ rest)).tail.head?).map isDigit).getD false) = true := by
      rw [tail_cons, head?_append, Option.mem_def.mp hd]
      exact isDigit_digit hdigit
    rw [if_pos hsign]
    exact hread hat

/-! ## Strings -/

/-- The escape of a character is read as this character. -/
theorem readableEscape_cases {c : Char} (h : c.toNat ≠ 7 ∧ c.toNat ≠ 11) :
    (readableEscape c = [c] ∧ c ≠ '"' ∧ c ≠ '\\') ∨
      ∃ e d, Text.readableEscape c = ['\\', e] ∧ stringEscape? e = some d ∧ d.toNat = c.toNat := by
  unfold Text.readableEscape
  split
  next hc => exact absurd hc h.1
  next hc => exact absurd hc h.2
  next hc => exact .inr ⟨'b', Char.ofNat 8, rfl, rfl, hc.symm⟩
  next hc => exact .inr ⟨'f', Char.ofNat 12, rfl, rfl, hc.symm⟩
  next hc => exact .inr ⟨'n', '\n', rfl, rfl, hc.symm⟩
  next hc => exact .inr ⟨'r', '\r', rfl, rfl, hc.symm⟩
  next hc => exact .inr ⟨'t', '\t', rfl, rfl, hc.symm⟩
  next hc => exact .inr ⟨'\\', '\\', rfl, rfl, hc.symm⟩
  next hc => exact .inr ⟨'"', '"', rfl, rfl, hc.symm⟩
  next hslash hquote =>
    refine .inl ⟨rfl, ?_, ?_⟩
    · rintro rfl
      exact hquote rfl
    · rintro rfl
      exact hslash rfl

/-- A loop that takes a character or its escape in each round, up to a quote. -/
structure Decodes (env : ReadEnv) (loop : Array Nat → Nat → ReadM (Array Nat)) : Prop where
  quote : ∀ acc k st, st.cursor.rest.head? = some '"' →
    loop acc (k + 1) env st = .ok acc (st.skip 1)
  plain : ∀ acc k st c, st.cursor.rest.head? = some c → c ≠ '"' → c ≠ '\\' →
    loop acc (k + 1) env st = loop (acc.push c.toNat) k env (st.skip 1)
  escape : ∀ acc k st e d, st.cursor.rest.head? = some '\\' →
    (st.skip 1).cursor.rest.head? = some e →
    stringEscape? e = some d → loop acc (k + 1) env st = loop (acc.push d.toNat) k env (st.skip 2)

/-- Escaped characters are decoded, and the quote after them is the last that is taken. -/
theorem Decodes.run {loop : Array Nat → Nat → ReadM (Array Nat)} (h : Decodes env loop)
    {s : List Char} {acc : Array Nat} (hs : ∀ c ∈ s, c.toNat ≠ 7 ∧ c.toNat ≠ 11)
    (hk : (s.flatMap Text.readableEscape).length < k)
    (hrest : st.cursor.rest = s.flatMap Text.readableEscape ++ '"' :: rest) :
    loop acc k env st = .ok (acc ++ (s.map Char.toNat).toArray)
      (st.skip ((s.flatMap readableEscape).length + 1)) := by
  obtain ⟨k, rfl⟩ : ∃ k', k = k' + 1 := ⟨k - 1, by omega⟩
  induction s generalizing acc k st with
  | nil =>
    rw [h.quote acc k st (by rw [hrest]; rfl)]
    simp
  | cons c s ih =>
    have hs' : ∀ d ∈ s, d.toNat ≠ 7 ∧ d.toNat ≠ 11 := fun d hd => hs d (mem_cons_of_mem _ hd)
    rw [flatMap_cons, length_append] at hk ⊢
    rw [flatMap_cons, append_assoc] at hrest
    -- a round takes the escape of the first character
    have hround : 0 < (readableEscape c).length ∧ loop acc (k + 1) env st =
        loop (acc.push c.toNat) k env (st.skip (readableEscape c).length) := by
      rcases readableEscape_cases (hs c mem_cons_self) with
        ⟨hescape, hquote, hslash⟩ | ⟨e, d, hescape, hd, hcode⟩
      · rw [hescape] at hrest ⊢
        exact ⟨by simp, h.plain acc k st c (by rw [hrest]; rfl) hquote hslash⟩
      · rw [hescape] at hrest ⊢
        exact ⟨by simp, hcode ▸ h.escape acc k st e d (by rw [hrest]; rfl)
          (congrArg head? (rest_skip_left (a := ['\\']) hrest)) hd⟩
    obtain ⟨k, rfl⟩ : ∃ k', k = k' + 1 := ⟨k - 1, by omega⟩
    rw [hround.2, ih hs' (rest_skip_left hrest) k (by omega), ReadState.skip_skip]
    simp [Nat.add_assoc]

theorem decodes_stringCodes (env : ReadEnv) : Decodes env stringCodes where
  quote acc k st h := by
    rw [stringCodes, take_bind_skip, h]
    rfl
  plain acc k st c h hquote hslash := by
    rw [stringCodes, take_bind_skip, h]
    simp only
  escape acc k st e d h hnext hd := by
    rw [stringCodes, take_bind_skip, h]
    simp only
    rw [take_bind_skip, hnext, ReadState.skip_skip]
    simp only [hd]

/-- The escapes of strings are escapes of patterns too. -/
theorem regexEscape?_of_stringEscape? {e d : Char} (h : stringEscape? e = some d) :
    regexEscape? e = some d.toNat := by
  unfold stringEscape? at h
  split at h <;> cases h <;> rfl

theorem decodes_regexCodes (env : ReadEnv) : Decodes env regexCodes where
  quote acc k st h := by
    rw [regexCodes, take_bind_skip, h]
    rfl
  plain acc k st c h hquote hslash := by
    rw [regexCodes, take_bind_skip, h]
    simp only
  escape acc k st e d h hnext hd := by
    rw [regexCodes, take_bind_skip, h]
    simp only
    rw [take_bind_skip, hnext, ReadState.skip_skip]
    simp only [regexEscape?_of_stringEscape? hd]

theorem ofCodes_toNat (s : String) : ofCodes (s.toList.map Char.toNat) = .str s := by
  have hvalid : (s.toList.map Char.toNat).any (fun n => 0xd800 ≤ n && n ≤ 0xdfff) = false := by
    rw [any_map, any_eq_false]
    intro c _
    have hc : c.toNat < 0xd800 ∨ 0xdfff < c.toNat ∧ c.toNat < 0x110000 := c.valid
    simp only [Function.comp_apply, Bool.and_eq_true, decide_eq_true_eq]
    omega
  rw [ofCodes, hvalid]
  simp [Function.comp_def]

section

variable {s : String} (hs : ∀ c ∈ s.toList, c.toNat ≠ 7 ∧ c.toNat ≠ 11)
  (hrest : st.cursor.rest = (readable s).toList ++ '"' :: rest)

include hs hrest

theorem Decodes.readable {loop : Array Nat → Nat → ReadM (Array Nat)} (h : Decodes env loop) :
    loop #[] (st.cursor.remaining + 2) env st =
      .ok (s.toList.map Char.toNat).toArray (st.skip ((Text.readable s).length + 1)) := by
  have hlen := congrArg List.length hrest
  have htext : (Text.readable s).toList = s.toList.flatMap Text.readableEscape := by
    simp [Text.readable]
  rw [htext, ← Cursor.remaining_eq, List.length_append] at hlen
  rw [htext] at hrest
  rw [h.run hs (by omega) hrest, ← String.length_toList, htext, Array.empty_append]

/-- A string is read from its escaped characters. -/
theorem string_readable :
    string env st = .ok (.str s) (st.skip ((Text.readable s).length + 1)) := by
  refine (bind_ok ((decodes_stringCodes env).readable hs hrest)).trans ?_
  exact congrArg (EStateM.Result.ok · _) (ofCodes_toNat s)

/-- Both decoders give back what was escaped, and the quote after it is the last character that they
take. A pattern must be accepted besides. -/
theorem string_regex_readable :
    string env st = .ok (.str s) (st.skip ((Text.readable s).length + 1)) ∧
      ∀ flags, Regex.check s = .ok flags →
        regex env st = .ok (.regex s) (st.skip ((Text.readable s).length + 1)) := by
  refine ⟨string_readable hs hrest, fun flags hflags => ?_⟩
  refine (bind_ok ((decodes_regexCodes env).readable hs hrest)).trans ?_
  have htext : String.ofList ((s.toList.map Char.toNat).map Char.ofNat) = s := by
    simp [Function.comp_def]
  unfold pattern
  dsimp only
  rw [htext, hflags]
  rfl

end

/-- A line end, a quote and a backslash before a letter. -/
theorem string_regex_readable_letter :
    ∃ st st' : ReadState, st.cursor = .ofString "\\n\\\"\\\\d\"a" ∧
      string {} st = .ok (.str "\n\"\\d") st' ∧ regex {} st = .ok (.regex "\n\"\\d") st' := by
  have hs : ∀ c ∈ "\n\"\\d".toList, c.toNat ≠ 7 ∧ c.toNat ≠ 11 := by simp
  have hrest : (Cursor.ofString "\\n\\\"\\\\d\"a").rest =
      (Text.readable "\n\"\\d").toList ++ '"' :: ['a'] := by
    decide +kernel
  obtain ⟨hstring, hregex⟩ := @string_regex_readable {} { cursor := .ofString _ } _ _ hs hrest
  exact ⟨_, _, rfl, hstring, hregex _ rfl⟩

/-- A string without the two characters that have no escape. -/
theorem readsAs_str {s : String} (hs : ∀ c ∈ s.toList, c.toNat ≠ 7 ∧ c.toNat ≠ 11) :
    ReadsAs n (.str s) ("\"" ++ readable s ++ "\"").toList := by
  have htext : ("\"" ++ readable s ++ "\"").toList =
    '"' :: ((Text.readable s).toList ++ ['"']) := by
    simp
  rw [htext]
  refine .special (by decide) (by decide) (by decide) (by decide) ?_
  intro k env st rest hk _ hat
  obtain ⟨k, rfl⟩ := exists_steps hk
  have hrest : st.cursor.rest = (readable s).toList ++ '"' :: rest := by simpa using hat.rest_eq
  have hread : Ends False string env st fun w st' => w = .str s ∧ At rest st' := by
    unfold Ends
    rw [string_readable hs hrest]
    exact ⟨rfl, by simpa [← String.length_toList] using hat.skip⟩
  unfold macroForm
  refine hread.bind fun w st' hw => .pure ⟨w, rfl, ?_, ?_, hw.2⟩
  · rw [hw.1]
    simp
  · rw [hw.1]
    exact alike_atom rfl rfl rfl

end Reader

/-! ## Values and their texts -/

namespace Value

open Reader ReadM SessionM

/-- The values that are read back from their text, nested at most `n` deep. -/
inductive Printable : Nat → Value → Prop where
  | nil (n : Nat) : Printable n .nil
  | bool (n : Nat) (b : Bool) : Printable n (.bool b)
  | int (n : Nat) {m : Int} (short : m.natAbs < 10 ^ Text.maxDigits) : Printable n (.int m)
  | str (n : Nat) {s : String} (escapable : ∀ c ∈ s.toList, c.toNat ≠ 7 ∧ c.toNat ≠ 11) :
      Printable n (.str s)
  /-- A keyword that is read from a token with a single colon. -/
  | keyword (n : Nat) {k : Symbol} {text : String} {current : CurrentNamespace}
      {session session' : Session} (single : text.toList.head? ≠ some ':')
      (read : readString current (":" ++ text) session = .ok (.keyword k) session') :
      Printable n (.keyword k)
  /-- A symbol that is read from its own text. -/
  | symbol (n : Nat) {s : Symbol} {info : Value} {current : CurrentNamespace}
      {session session' : Session}
      (read : readString current s.text session = .ok (.symbol s info) session') (info' : Value) :
      Printable n (.symbol s info')
  | list {n : Nat} {v : Value} {xs : List Value} (proper : IsList v xs)
      (items : ∀ x ∈ xs, Printable n x) : Printable (n + 1) v
  | vector {n : Nat} {t : Coll.Vector Value} {xs : List Value} (info : Value)
      (proper : t.Represents xs) (items : ∀ x ∈ xs, Printable n x) :
      Printable (n + 1) (.vector t info)

/-- What is written for a value, whoever shows it and however deep printing may nest beyond it. -/
def WrittenAs (n : Nat) (v : Value) (w : Written) : Prop :=
  ∀ (view : Viewer) (d : Nat), n < d → writeAt view true d v = .ok w

variable {n : Nat} {v : Value} {xs : List Value} {ws : List Written}

theorem writtenAs_of_succ {w : Written}
    (h : ∀ (view : Viewer) (d : Nat), n ≤ d → writeAt view true (d + 1) v = .ok w) :
    WrittenAs n v w := by
  intro view d hd
  obtain ⟨d, rfl⟩ := Nat.exists_eq_succ_of_ne_zero (Nat.ne_zero_of_lt hd)
  exact h view d (Nat.le_of_lt_succ hd)

theorem mapM_writtenAs (h : List.Forall₂ (WrittenAs n) xs ws) (view : Viewer) {d : Nat}
    (hd : n < d) : xs.mapM (writeAt view true d) = .ok ws := by
  induction h with
  | nil => rfl
  | cons hx _ ih =>
    rw [List.mapM_cons, hx view d hd, ih]
    rfl

theorem text_join (ws : List Written) :
    (Written.join " " ws).text.toList = spaced (ws.map (·.text.toList)) := by
  induction ws with
  | nil => rfl
  | cons w ws ih =>
    cases ws with
    | nil => simp [Written.join, spaced]
    | cons w' ws =>
      have hjoin : (Written.join " " (w :: w' :: ws)).text =
          w.text ++ " " ++ (Written.join " " (w' :: ws)).text := rfl
      rw [hjoin, String.toList_append, String.toList_append, ih]
      simp [spaced]

theorem text_delimited (opening close : String) (ws : List Written) :
    (Written.ofText opening ++ .join " " ws ++ .ofText close).text.toList =
      opening.toList ++ (spaced (ws.map (·.text.toList)) ++ close.toList) := by
  have htext : (Written.ofText opening ++ .join " " ws ++ .ofText close).text =
      opening ++ (Written.join " " ws).text ++ close := rfl
  rw [htext, String.toList_append, String.toList_append, text_join, List.append_assoc]

/-- Items that can be written and read back each, all together. -/
theorem exists_texts (h : ∀ x ∈ xs, ∃ w, WrittenAs n x w ∧ ReadsAs n x w.text.toList) :
    ∃ ws, List.Forall₂ (WrittenAs n) xs ws ∧
      List.Forall₂ (ReadsAs n) xs (ws.map (·.text.toList)) := by
  induction xs with
  | nil => exact ⟨[], .nil, .nil⟩
  | cons x xs ih =>
    obtain ⟨w, hwritten, hread⟩ := h x List.mem_cons_self
    obtain ⟨ws, hallWritten, hallRead⟩ := ih fun y hy => h y (List.mem_cons_of_mem _ hy)
    exact ⟨w :: ws, .cons hwritten hallWritten, .cons hread hallRead⟩

theorem writtenAs_list (hv : IsList v xs) (h : List.Forall₂ (WrittenAs n) xs ws) :
    ∃ w, WrittenAs (n + 1) v w ∧
      w.text.toList = '(' :: (spaced (ws.map (·.text.toList)) ++ [')']) := by
  obtain ⟨-, s, hs, hwalks⟩ := hv.elements
  cases hv with
  | empty =>
    cases h
    exact ⟨.ofText "()", writtenAs_of_succ fun view d hd => rfl, rfl⟩
  | one | more =>
    cases hs
    refine ⟨.ofText "(" ++ .join " " ws ++ .ofText ")", writtenAs_of_succ fun view d hd => ?_, ?_⟩
    · rw [writeAt, hwalks.walk_eq]
      show (List.mapM (writeAt view true d) _ >>= fun ws => _) = _
      rw [mapM_writtenAs h view hd]
      rfl
    · exact text_delimited "(" ")" ws

theorem writtenAs_vector (info : Value) (ht : t.Represents xs)
    (h : List.Forall₂ (WrittenAs n) xs ws) : ∃ w, WrittenAs (n + 1) (.vector t info) w ∧
      w.text.toList = '[' :: (spaced (ws.map (·.text.toList)) ++ [']']) := by
  refine ⟨.ofText "[" ++ .join " " ws ++ .ofText "]", writtenAs_of_succ fun view d hd => ?_, ?_⟩
  · have hitems : items (.vector t info) = .ok xs := by
      show Except.ok t.toList = _
      rw [ht.toList_eq]
    rw [writeAt, hitems]
    show (xs.mapM (writeAt view true d) >>= fun ws => _) = _
    rw [mapM_writtenAs h view hd]
    rfl
  · exact text_delimited "[" "]" ws

/-- The text of every printable value is read as a value like it. -/
theorem Printable.readsAs (h : Printable n v) :
    ∃ w, WrittenAs n v w ∧ ReadsAs n v w.text.toList := by
  induction h with
  | nil n =>
    exact ⟨.ofText "nil", writtenAs_of_succ fun _ _ _ => rfl,
      readsAs_token tokenOf_nil (fun h => absurd h (by decide)) (alike_atom rfl rfl rfl)⟩
  | bool n b =>
    exact ⟨.ofText (if b then "true" else "false"), writtenAs_of_succ fun _ _ _ => rfl,
      readsAs_token (tokenOf_bool b) (by simp) (alike_atom rfl rfl rfl)⟩
  | @int n m short =>
    refine ⟨.ofText (Text.decimal m), writtenAs_of_succ fun view d _ => ?_, readsAs_int short⟩
    show (intText m >>= fun s => pure (Written.ofText s)) = _
    rw [intText_eq short]
    rfl
  | @str n s escapable =>
    exact ⟨.ofOctets ("\"" ++ readable s ++ "\""), writtenAs_of_succ fun _ _ _ => rfl,
      readsAs_str escapable⟩
  | @keyword n k _ _ _ _ single read =>
    exact ⟨.ofText (":" ++ k.text), writtenAs_of_succ fun _ _ _ => rfl,
      readsAs_token (tokenOf_keyword single read) (by simp) (alike_atom rfl rfl rfl)⟩
  | @symbol n s _ _ _ _ read info' =>
    exact ⟨.ofText s.text, writtenAs_of_succ fun _ _ _ => rfl,
      readsAs_token (tokenOf_symbol read) (by simp) (alike_atom rfl rfl rfl)⟩
  | list proper _ ih =>
    obtain ⟨ws, hwritten, hread⟩ := exists_texts ih
    obtain ⟨w, hw, htext⟩ := writtenAs_list proper hwritten
    exact ⟨w, hw, htext ▸ readsAs_list proper hread⟩
  | vector info proper _ ih =>
    obtain ⟨ws, hwritten, hread⟩ := exists_texts ih
    obtain ⟨w, hw, htext⟩ := writtenAs_vector info proper hwritten
    exact ⟨w, hw, htext ▸ readsAs_vector info proper hread⟩

/-- Reading the text that is written for a printable value gives an equal value, wherever it is read
and however deep printing and comparing may nest beyond the value. -/
theorem readString_write {n : Nat} {v : Value} (h : Printable n v) (view : Viewer) {d : Nat}
    (hd : n < d) (current : CurrentNamespace) (session : Session) :
    ∃ w, writeAt view true d v = .ok w ∧
      ∃ v' session', readString current w.text session = .ok v' session' ∧
        eqv d v' v = .ok true ∧ eqv d v v' = .ok true := by
  obtain ⟨w, hwritten, hread⟩ := h.readsAs
  refine ⟨w, hwritten view d hd, ?_⟩
  have hat : (startOf w.text session).At (w.text.toList ++ []) := by
    simpa using startOf_at w.text session
  have hended : Ended [] := by simp [Ended]
  have henough : ∃ k, stepsFor w.text.toList ≤ k ∧
      enough (startOf w.text session).cursor = k + 1 := by
    refine ⟨enough (startOf w.text session).cursor - 1, ?_, ?_⟩
    · rw [enough, (startOf_at w.text session).remaining_eq, stepsFor]
      omega
    · rw [enough]
      omega
  obtain ⟨k, hk, henough⟩ := henough
  have hends : Ends False (form? (k + 1)) (session.readEnv current) (startOf w.text session)
      fun r st => ∃ v', r = some v' ∧ Alike n v' v ∧ st.At [] := hread.form?_ends hk hended hat
  obtain ⟨r, st, hform, v', rfl, halike, -⟩ := hends.exists_ok
  have hnext : next? (session.readEnv current) (startOf w.text session) = .ok (some v') st := by
    show form? (enough (startOf w.text session).cursor) _ _ = _
    rw [henough, hform]
  exact ⟨v', _, by rw [readString_eq, hnext]; rfl, halike d hd⟩

/-- A list of a symbol and a vector of nil, a keyword, an integer and a string. -/
def sampleForm : Value := listOf [sym "%x", vectorOf [.nil, kw "k", .int (-5), .str "a\n\"b"]]

theorem readString_write_sample :
    ∃ w, writeAt .none true depthLimit sampleForm = .ok w ∧
      ∃ v' session', readString .unbound w.text {} = .ok v' session' ∧
        eqv depthLimit v' sampleForm = .ok true ∧ eqv depthLimit sampleForm v' = .ok true := by
  have hsymbol : readString .unbound "%x" {} = .ok (sym "%x") {} := rfl
  have hkeyword : readString .unbound (":" ++ "k") {} = .ok (kw "k") {} := rfl
  have hshort : (-5 : Int).natAbs < 10 ^ Text.maxDigits :=
    Nat.lt_of_lt_of_le (by decide : 5 < 10 ^ 1) (Nat.pow_le_pow_right (by decide) (by decide))
  have hvector : Printable 1 (vectorOf [.nil, kw "k", .int (-5), .str "a\n\"b"]) := by
    refine .vector .nil (represents_ofList _) ?_
    intro x hx
    simp only [mem_cons, not_mem_nil, or_false] at hx
    rcases hx with rfl | rfl | rfl | rfl
    · exact .nil 0
    · exact .keyword 0 (by decide) hkeyword
    · exact .int 0 hshort
    · exact .str 0 (by simp)
  have hsample : Printable 2 sampleForm := by
    refine .list (isList_listOf _) ?_
    intro x hx
    simp only [mem_cons, not_mem_nil, or_false] at hx
    rcases hx with rfl | rfl
    · exact .symbol 1 hsymbol .nil
    · exact hvector
  exact readString_write hsample .none (by decide) .unbound {}

end Value

end HostedLisp
