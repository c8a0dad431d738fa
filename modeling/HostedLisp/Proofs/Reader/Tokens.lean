import HostedLisp.Proofs.Reader.Concatenation
import HostedLisp.Session.Streams

/-!
# Texts that are one token

- `Reader.TokenOf`: a text that is one token, and the value that it names.
- `Reader.TokenOf.form?_ends`: it is read as this value wherever something follows that ends it.
- `SessionM.tokenOf_symbol`, `SessionM.tokenOf_keyword`: a symbol that is read from its own text is
  one token; so is the text of a keyword that is read from a text with a single colon in front.
-/

namespace HostedLisp

open List

variable {v : Value}

namespace Reader

open ReadM ReadState Value

variable {env : ReadEnv} {st : ReadState} {fails : Prop} {c : Char} {cs rest : List Char} {n : Nat}

/-- The characters that end a token. -/
def endsToken (c : Char) : Bool := Text.isBlank c || isTerminating c

/-- The characters up to the end of a token. -/
theorem token_ends (h : At cs st) :
    Ends fails (token c) env st fun found st' =>
      found = c :: cs.takeWhile (!endsToken ·) ∧ At (cs.dropWhile (!endsToken ·)) st' := by
  refine Ends.fuel_bind ?_
  refine (takeUntil_ends h ?_).mono fun found st' hfound => hfound
  rw [h.remaining_eq]
  omega

/-- A sign in front of a digit starts a number. -/
def Signed (c : Char) (cs : List Char) : Prop :=
  (c = '+' ∨ c = '-') ∧ (cs.head?.map Text.isDigit).getD false = true

theorem not_signed (hplus : c ≠ '+') (hminus : c ≠ '-') : ¬Signed c cs :=
  fun h => h.1.elim hplus hminus

/-- The symbols that start with a percent sign are read by a macro character. -/
theorem macroForm_percent {Q : Reading → ReadState → Prop} (h : At cs st)
    (htoken : ∀ st', At (cs.dropWhile (!endsToken ·)) st' →
      Ends fails (interpret ('%' :: cs.takeWhile (!endsToken ·))) env st' fun v => Q (.form v)) :
    Ends fails (macroForm (n + 2) '%') env st Q := by
  unfold macroForm argument
  refine Ends.bind (Q := fun v => Q (.form v)) ?_ fun v st' hv => .pure hv
  refine Ends.get_bind ?_
  rw [h.outside]
  refine (token_ends h).bind fun found st' hfound => ?_
  obtain ⟨rfl, hat⟩ := hfound
  exact htoken st' hat

/-- Where a name can start, a token or a signed number is read. -/
theorem form?_starts {Q : Option Value → ReadState → Prop} (hc : Token.Starts c)
    (h : At (c :: cs) st) (htoken : ¬Signed c cs → ∀ st', At (cs.dropWhile (!endsToken ·)) st' →
      Ends fails (interpret (c :: cs.takeWhile (!endsToken ·))) env st' fun v => Q (some v))
    (hnumber : Signed c cs → ∀ st', At cs st' → Ends fails (number c) env st' fun v => Q (some v)) :
    Ends fails (form? (n + 3)) env st Q := by
  obtain ⟨hblank, hdigit, hmacro⟩ := hc
  have hread {st' : ReadState} (hunsigned : ¬Signed c cs) (hat : At cs st') :
      Ends fails (do return some (← interpret (← token c))) env st' Q := by
    refine (token_ends hat).bind fun found st'' hfound => ?_
    obtain ⟨rfl, hat⟩ := hfound
    exact (htoken hunsigned st'' hat).bind fun v _ hv => .pure hv
  have hat : At ([] ++ c :: cs) st := h
  unfold form?
  refine skipBlanks_fuel_ends hat rfl hblank fun st' hafter => ?_
  dsimp only
  rw [if_neg (by simp [hdigit])]
  split
  next hm =>
    obtain rfl := hmacro hm
    refine Ends.bind (Q := fun r st'' => ∃ v, r = .form v ∧ Q (some v) st'') ?_ ?_
    · refine macroForm_percent hafter.at_tail fun st'' hat => ?_
      exact (htoken (not_signed (by decide) (by decide)) st'' hat).mono fun v _ hv => ⟨v, rfl, hv⟩
    · rintro r st'' ⟨v, rfl, hv⟩
      exact .pure hv
  next =>
    split
    next hsign =>
      refine (take_ends hafter.at_tail).bind fun d st'' hd => ?_
      obtain ⟨rfl, hafter'⟩ := hd
      refine (back_ends hafter').bind fun _ st''' hat => ?_
      split
      next hd => exact (hnumber ⟨hsign, hd⟩ st''' hat).bind fun v _ hv => .pure hv
      next hd => exact hread (fun h => hd h.2) hat
    next hsign => exact hread (fun h => hsign h.1) hafter.at_tail

/-! ## Tokens and their values -/

/-- A text that is one token, and the value that it names. -/
structure TokenOf (cs : List Char) (v : Value) : Prop where
  starts : ∃ c, cs.head? = some c ∧ Token.Starts c ∧ ¬Signed c cs.tail
  whole : ∀ d ∈ cs.tail, endsToken d = false
  interpret_eq : interpret cs = pure v

/-- A text that no token runs into. -/
def Ended (rest : List Char) : Prop := ∀ c, rest.head? = some c → endsToken c = true

theorem isDigit_endsToken (h : endsToken c = true) : Text.isDigit c = false := by
  simp only [endsToken, isTerminating, Bool.or_eq_true, Bool.and_eq_true] at h
  rcases h with hblank | ⟨-, hmacro⟩
  · have hlow : c.toNat < 48 := by
      simp only [Text.isBlank, Bool.or_eq_true, beq_iff_eq] at hblank
      rcases hblank with (((((rfl | rfl) | rfl) | rfl) | hn) | hn) | rfl
      any_goals decide
      all_goals omega
    have hdecimal : Text.decimalDigit? c = none := by
      rw [Text.decimalDigit?, if_pos (by omega), if_neg (by omega)]
    simp only [Text.isDigit, Text.isDecimal, hdecimal, Option.isSome_none, Bool.false_or,
      Bool.and_eq_false_iff, decide_eq_false_iff_not]
    exact .inl (by omega)
  · have hall : macroChars.all (!Text.isDigit ·) = true := by decide
    simpa using all_eq_true.mp hall c (contains_iff_mem.mp hmacro)

/-- A sign is not followed by a digit after the end of a token. -/
theorem not_signed_append (hcs : ¬Signed c cs) (hrest : Ended rest) : ¬Signed c (cs ++ rest) := by
  rintro ⟨hsign, hdigit⟩
  cases cs with
  | nil =>
    cases rest with
    | nil => exact absurd hdigit (by decide)
    | cons d rest =>
      simp [isDigit_endsToken (hrest d rfl)] at hdigit
  | cons d cs => exact hcs ⟨hsign, hdigit⟩

/-- A token is read as its value, up to what ends it. -/
theorem TokenOf.interpret_ends (htoken : TokenOf (c :: cs) v) (hrest : Ended rest)
    (hat : At ((cs ++ rest).dropWhile (!endsToken ·)) st) :
    Ends fails (interpret (c :: (cs ++ rest).takeWhile (!endsToken ·))) env st fun w st' =>
      w = v ∧ At rest st' := by
  obtain ⟨htake, hdrop⟩ := divide_at_stop htoken.whole hrest
  rw [tail_cons] at htake hdrop
  rw [hdrop] at hat
  rw [htake, htoken.interpret_eq]
  exact .pure ⟨rfl, hat⟩

theorem TokenOf.form?_ends {token : List Char} (htoken : TokenOf token v)
    (hrest : Ended rest) (h : At (token ++ rest) st) :
    Ends fails (form? (n + 3)) env st fun r st' => r = some v ∧ At rest st' := by
  obtain ⟨c, hhead, hc, hsigned⟩ := htoken.starts
  obtain ⟨cs, rfl⟩ := head?_eq_some_iff.mp hhead
  rw [cons_append] at h
  refine form?_starts hc h (fun _ st' hat => ?_) fun hs =>
    absurd hs (not_signed_append hsigned hrest)
  exact (htoken.interpret_ends hrest hat).mono fun w _ hw => ⟨congrArg some hw.1, hw.2⟩

theorem TokenOf.macroForm_ends (htoken : TokenOf ('%' :: cs) v) (hrest : Ended rest)
    (h : At (cs ++ rest) st) :
    Ends fails (macroForm (n + 2) '%') env st fun r st' => r = .form v ∧ At rest st' :=
  macroForm_percent h fun _ hat =>
    (htoken.interpret_ends hrest hat).mono fun _ _ hw => ⟨congrArg Reading.form hw.1, hw.2⟩

theorem whole_of_all (h : cs.all (!endsToken ·) = true) : ∀ d ∈ cs, endsToken d = false := by
  simpa using h

theorem tokenOf_nil : TokenOf "nil".toList .nil :=
  ⟨⟨'n', rfl, ⟨by decide, by decide, by decide⟩, not_signed (by decide) (by decide)⟩,
    whole_of_all (by decide), rfl⟩

theorem tokenOf_bool (b : Bool) : TokenOf (if b then "true" else "false").toList (.bool b) := by
  cases b
  all_goals
    exact ⟨⟨_, rfl, ⟨by decide, by decide, by decide⟩, not_signed (by decide) (by decide)⟩,
      whole_of_all (by decide), rfl⟩

/-! ## Symbols and keywords read from a text -/

/-- A token that is read as a symbol names it, wherever it is read. -/
theorem interpret_symbol (cs : List Char) :
    Ends True (interpret cs) env st fun v _ => ∀ s i, v = .symbol s i →
      interpret cs = pure (.symbol s .nil) ∧ s.text.toList.length ≤ cs.length := by
  unfold interpret
  split
  next => exact .pure (by simp)
  next => exact .pure (by simp)
  next => exact .pure (by simp)
  next =>
    split
    next => trivial
    next s hs =>
      refine .pure fun s' i h => ?_
      cases h
      exact ⟨rfl, (Token.name?_symbol hs).2⟩
    next => exact .pure (by simp)
    next => exact ends_self.bind fun _ _ _ => .pure (by simp)

/-- A token with a single colon that is read as a keyword names it, wherever it is read. -/
theorem interpret_keyword (hsingle : cs.head? ≠ some ':') :
    Ends True (interpret (':' :: cs)) env st fun v _ => ∀ k, v = .keyword k →
      interpret (':' :: cs) = pure (.keyword k) ∧ k.text.toList = cs := by
  unfold interpret
  split
  next => exact .pure (by simp)
  next => exact .pure (by simp)
  next => exact .pure (by simp)
  next =>
    cases hname : Token.name? (':' :: cs) with
    | none => trivial
    | some name =>
      obtain rfl := Token.name?_colon hname hsingle
      refine .pure fun k h => ?_
      cases h
      exact ⟨rfl, by rw [Symbol.text_ofText, String.toList_ofList]⟩

end Reader

namespace SessionM

open Reader ReadM ReadState

variable {current : CurrentNamespace} {text : String} {session session' : Session}

/-- The state in which a text is read in a session. -/
def startOf (text : String) (session : Session) : ReadState :=
  { cursor := .ofString text, lastId := session.lastId }

theorem startOf_at (text : String) (session : Session) : (startOf text session).At text.toList :=
  ⟨rfl, rfl⟩

/-- How reading in a session ends, given how reading from the start of the text does. -/
def readingOf (session : Session) : Ending (Option Value) → EStateM.Result Error Session Value
  | .ok r st => .ok (r.getD .nil) { session with lastId := st.lastId }
  | .error e st => .error e { session with lastId := st.lastId }

theorem readString_eq : readString current text session =
    readingOf session (next? (session.readEnv current) (startOf text session)) := by
  have hget : (get : SessionM Session) session = .ok session session := rfl
  have hrun : next?.run (session.readEnv current)
    { cursor := .ofString text, lastId := session.lastId } =
    next? (session.readEnv current) (startOf text session) := rfl
  unfold readString runReader
  simp only [bind, EStateM.bind, hget, hrun]
  cases next? (session.readEnv current) (startOf text session) <;> rfl

/-- A value other than nil that is read is the first form of the text, and one that reading can
give. -/
theorem form?_of_readString (hv : v ≠ .nil) (h : readString current text session = .ok v session') :
    (∃ n st, form? (n + 3) (session.readEnv current) (startOf text session) = .ok (some v) st) ∧
      v.AsRead := by
  have hreading := readString_eq.symm.trans h
  have henough : enough (startOf text session).cursor =
      8 * (startOf text session).cursor.remaining + 29 + 3 := by
    rw [enough]
    omega
  cases hnext : next? (session.readEnv current) (startOf text session) with
  | error e st =>
    rw [hnext] at hreading
    cases hreading
  | ok r st =>
    rw [hnext] at hreading
    obtain ⟨rfl, -⟩ := EStateM.Result.ok.inj hreading
    obtain ⟨v, rfl⟩ : ∃ v, r = some v := Option.ne_none_iff_exists'.1 fun hnone => hv (hnone ▸ rfl)
    refine ⟨⟨8 * (startOf text session).cursor.remaining + 29, st, henough ▸ hnext⟩, ?_⟩
    have hstart : (startOf text session).cursor.Reached 1 text.toList := .start
    have hagrees := next?_agrees (session.readEnv current) (Excerpt.lone_level hstart)
    unfold Agrees at hagrees
    rw [hnext] at hagrees
    rcases hagrees with ⟨s', -, -, hsome, -⟩ | ⟨hnone, -⟩
    · exact (hsome v rfl).2.2 rfl
    · cases hnone

/-- A symbol that is read from its own text is one token. -/
theorem tokenOf_symbol {s : Symbol} {info : Value}
    (h : readString current s.text session = .ok (.symbol s info) session') :
    TokenOf s.text.toList (.symbol s .nil) := by
  obtain ⟨⟨n, st, hform⟩, c, hhead, hc⟩ := form?_of_readString (by simp) h
  obtain ⟨cs, hcs⟩ := head?_eq_some_iff.mp hhead
  have hat : (startOf s.text session).At (c :: cs) := hcs ▸ startOf_at s.text session
  have hread : Ends True (form? (n + 3)) (session.readEnv current) (startOf s.text session)
    fun r _ =>
      ∀ s' i, r = some (.symbol s' i) → ¬Signed c cs ∧
        interpret (c :: cs.takeWhile (!endsToken ·)) = pure (.symbol s' .nil) ∧
        s'.text.toList.length ≤ (c :: cs.takeWhile (!endsToken ·)).length := by
    refine form?_starts hc hat ?_ ?_
    · intro hunsigned st' _
      exact (interpret_symbol _).mono fun v _ hv s' i hs =>
        ⟨hunsigned, hv s' i (Option.some.inj hs)⟩
    · intro _ st' _
      refine (number_isNumber c).mono fun v _ hv s' i hs => ?_
      rw [Option.some.inj hs] at hv
      cases hv
  obtain ⟨hunsigned, hinterpret, hlen⟩ := hread.of_ok hform s info rfl
  -- the text is no longer than its first token
  have hwhole : cs.takeWhile (!endsToken ·) = cs := by
    refine (takeWhile_sublist _).eq_of_length_le ?_
    rw [hcs] at hlen
    exact Nat.le_of_succ_le_succ hlen
  rw [hwhole] at hinterpret
  rw [hcs]
  refine ⟨⟨c, rfl, hc, hunsigned⟩, fun d hd => ?_, hinterpret⟩
  rw [tail_cons, ← hwhole] at hd
  simpa using all_eq_true.mp all_takeWhile d hd

/-- The text of a keyword that is read from a text with a single colon in front is one token. -/
theorem tokenOf_keyword {k : Symbol} (hsingle : text.toList.head? ≠ some ':')
    (h : readString current (":" ++ text) session = .ok (.keyword k) session') :
    TokenOf (":" ++ k.text).toList (.keyword k) := by
  obtain ⟨⟨n, st, hform⟩, -⟩ := form?_of_readString (by simp) h
  have hc : Token.Starts ':' := ⟨by decide, by decide, by decide⟩
  have hunsigned (cs : List Char) : ¬Signed ':' cs := not_signed (by decide) (by decide)
  have hat : (startOf (":" ++ text) session).At (':' :: text.toList) := by
    have hstart := startOf_at (":" ++ text) session
    rwa [String.toList_append] at hstart
  have hread : Ends True (form? (n + 3)) (session.readEnv current) (startOf (":" ++ text) session)
      fun r _ => ∀ k', r = some (.keyword k') →
        interpret (':' :: text.toList.takeWhile (!endsToken ·)) = pure (.keyword k') ∧
        k'.text.toList = text.toList.takeWhile (!endsToken ·) := by
    refine form?_starts hc hat ?_ fun hsigned => absurd hsigned (hunsigned _)
    intro _ st' _
    refine (interpret_keyword ?_).mono fun v _ hv k' hk => hv k' (Option.some.inj hk)
    cases htext : text.toList with
    | nil => simp
    | cons d ds =>
      rw [htext] at hsingle
      rw [takeWhile_cons]
      split
      · exact hsingle
      · simp
  obtain ⟨hinterpret, hk⟩ := hread.of_ok hform k rfl
  have htext : (":" ++ k.text).toList = ':' :: text.toList.takeWhile (!endsToken ·) := by
    rw [String.toList_append, hk]
    rfl
  rw [htext]
  refine ⟨⟨':', rfl, hc, hunsigned _⟩, fun d hd => ?_, hinterpret⟩
  simpa using all_eq_true.mp all_takeWhile d hd

end SessionM

end HostedLisp
