import HostedLisp.Proofs.Reader.Excerpt
import HostedLisp.Proofs.Reader.Name

/-!
# Pieces of a text, alone and in a longer one

Tokens, literals and syntax quotes go on in the same way whether the text is read alone or in a
longer one: none of them needs more than the one character after it. They give what reading can
give.
-/

namespace HostedLisp

open ReadM Excerpt Value Alike

variable {e : Excerpt} {b n n' : Nat}

/-- The symbols and lists that reading can give outside function literals. -/
def Excerpt.Named (e : Excerpt) (v : Value) : Prop := e.inLiteral = false → v.AsRead

namespace ReadM

/-- A run of characters that a newline ends. -/
theorem takeUntil_alike {stop : Char → Bool} (hstop : stop '\n' = true) (h : e.Ample b n n')
    (acc : List Char) : Alike e b (takeUntil stop acc n) (takeUntil stop acc n')
      fun cs => ∃ more, cs = acc.reverse ++ more := by
  refine h.induction (fun b n n' _ ih acc => ?_) acc
  intro env st st' hst
  have hdone : ∃ more, acc.reverse = acc.reverse ++ more := ⟨[], (List.append_nil _).symm⟩
  unfold takeUntil
  refine .take_bind hst (fun c s s' hb _ hs => ?_) (fun s s' _ hs => ?_) fun s s' hs => ?_
  · dsimp only
    split
    · exact .back_bind hs.toTaken fun _ _ hl => .pure ⟨hl, hdone⟩
    · refine (ih _ (Nat.sub_one_lt_of_lt hb) _ env s s' hs.toLevel).weaken fun _ _ _ hl => ?_
      obtain ⟨hl, more, rfl⟩ := hl
      exact ⟨hl.mono (Nat.sub_le _ _), c :: more, by simp⟩
  · exact .back_bind hs.toTaken fun _ _ hl => .pure ⟨hl, hdone⟩
  · dsimp only
    rw [if_pos hstop]
    exact .back_bind hs.toTaken fun _ _ hl => .pure ⟨hl, hdone⟩

theorem token_alike (start : Char) : Steady e b (token start) fun cs => cs.head? = some start := by
  refine .fuel_bind fun _ _ _ _ h => (takeUntil_alike (by decide) h [start]).mono fun cs hcs => ?_
  obtain ⟨more, rfl⟩ := hcs
  rfl

theorem number_alike (start : Char) : Steady e b (number start) e.Named := by
  refine .fuel_bind fun d n n' _ h => (takeUntil_alike (by decide) h [start]).known fun cs _ => ?_
  split
  · exact .failHere
  · exact .failHere
  next hv => exact .pure fun _ => Value.asRead_number (Token.number?_isSome hv)

/-- A token that starts as names do gives a symbol that starts so. -/
theorem interpret_alike {cs : List Char} {c : Char} (hhead : cs.head? = some c)
    (hc : Token.Starts c) : Steady e b (interpret cs) e.Named := by
  have hname : Steady e b currentName := by
    refine read.bind fun env => ?_
    split
    · exact .throw
    · exact .throw
    · exact .done
  unfold interpret
  split
  iterate 3
    · exact .pure fun _ => trivial
  · split
    · exact .fail
    next hs => exact .pure fun _ => ⟨c, (Token.name?_symbol hs).1.trans hhead, hc⟩
    · exact .pure fun _ => trivial
    · exact hname.bind fun _ => .pure fun _ => trivial

theorem moreDigits_alike (base length : Nat) (exact : Bool) (acc : List Char) (n i : Nat) :
    Steady e b (moreDigits base length exact acc n i) := by
  induction n generalizing b acc i with
  | zero => exact .done
  | succ n ih =>
    intro env st st' hst
    unfold moreDigits
    refine .take_bind hst (fun c s s' hb _ hs => ?_) (fun s s' _ hs => ?_) fun s s' hs => ?_
    · dsimp only
      split
      · exact .back_bind hs.toTaken fun _ _ hl => .pure ⟨hl, trivial⟩
      · split
        · exact ih _ _ env s s' hs.level
        · split
          · exact agrees_failHere hs.level
          · exact .back_bind hs.toTaken fun _ _ hl => .pure ⟨hl, trivial⟩
    · exact .back_bind hs.toTaken fun _ _ hl => .pure ⟨hl, trivial⟩
    · dsimp only
      exact .back_bind hs.toTaken fun _ _ hl => .pure ⟨hl, trivial⟩

theorem codePoint_alike (start : Option Char) (base length : Nat) (exact : Bool) :
    Steady e b (codePoint start base length exact) := by
  unfold codePoint
  split
  · exact .failHere
  · split
    · refine (moreDigits_alike _ _ _ _ _ _).bind fun found => ?_
      dsimp only
      split
      · exact .throw
      · split
        · exact .failHere
        · split
          · exact .lift
          · exact .throw
    · exact .failHere

end ReadM

namespace Reader

/-! ## Literals -/

theorem hexCode_alike (letter : Char) (place : EscapePlace) (length : Nat) :
    Steady e b (hexCode letter place length) := by
  refine .take_bind .failHere fun c _ => ?_
  dsimp only
  split
  · exact codePoint_alike _ _ _ _
  · exact .failHere

theorem stringCodes_alike (h : e.Ample b n n') (acc : Array Nat) :
    Alike e b (stringCodes acc n) (stringCodes acc n') := by
  refine h.induction (fun b n n' _ ih acc => ?_) acc
  unfold stringCodes
  refine .take_bind .fail fun c hb => ?_
  split
  · exact .fail
  · exact .done
  · refine .take_bind .fail fun c _ => ?_
    have ih := ih (b - 1 - 1) (by omega)
    dsimp only
    split
    · exact ih _
    · split
      · exact (hexCode_alike _ _ _).bind fun _ => ih _
      · split
        · refine (codePoint_alike _ _ _ _).bind fun code => ?_
          split
          · exact .failHere
          · exact ih _
        · exact .failHere
  · exact ih _ (Nat.sub_one_lt_of_lt hb) _

theorem string_alike : Steady e b string e.Named :=
  .fuel_bind fun _ _ _ _ h => (stringCodes_alike h #[]).bind fun _ =>
    .pure fun _ => asRead_ofCodes _

theorem character_alike : Steady e b character e.Named := by
  refine .take_bind .failHere fun c _ => (token_alike c).known fun cs _ => ?_
  dsimp only
  split
  · exact .pure fun _ => trivial
  · split
    · exact .pure fun _ => trivial
    · split
      · split
        · exact .failHere
        · split
          · exact .failHere
          · exact .pure fun _ => asRead_ofCodes _
      · split
        · exact .failHere
        · split
          · exact .failHere
          · split
            · exact .failHere
            · exact .pure fun _ => asRead_ofCodes _
      · exact .failHere

theorem escapeName_alike (h : e.Ample b n n') (acc : List Char) :
    Alike e b (escapeName acc n) (escapeName acc n') := by
  refine h.induction (fun b n n' _ ih acc => ?_) acc
  unfold escapeName
  refine .take_bind .failHere fun c hb => ?_
  dsimp only
  split
  · exact ih _ (Nat.sub_one_lt_of_lt hb) _
  · split
    · exact .failHere
    · split
      · exact .done
      · exact .failHere

theorem namedCode_alike : Steady e b namedCode := by
  refine .take_bind .throw fun c _ => ?_
  split
  · refine .fuel_bind fun _ _ _ _ h => (escapeName_alike h []).bind fun name => ?_
    dsimp only
    split
    · exact .failHere
    · split
      · exact .done
      · exact .failHere
  · exact .throw

theorem pattern_alike (codes : Array Nat) : Steady e b (pattern codes) e.Named := by
  unfold pattern
  dsimp only
  split
  · exact .pure fun _ => trivial
  · exact .failHere
  · exact .throw
  · exact .throw

theorem regexCodes_alike (h : e.Ample b n n') (acc : Array Nat) :
    Alike e b (regexCodes acc n) (regexCodes acc n') := by
  refine h.induction (fun b n n' _ ih acc => ?_) acc
  unfold regexCodes
  refine .take_bind .failHere fun c hb => ?_
  split
  · exact .failHere
  · exact .done
  · -- an escape: two characters are taken before the next round
    refine .take_bind .failHere fun c _ => ?_
    have ih := ih (b - 1 - 1) (by omega)
    dsimp only
    split
    · exact ih _
    · split
      · exact (hexCode_alike _ _ _).bind fun _ => ih _
      · split
        · exact (hexCode_alike _ _ _).bind fun _ => ih _
        · split
          · exact (hexCode_alike _ _ _).bind fun _ => ih _
          · split
            · exact (codePoint_alike _ _ _ _).bind fun _ => ih _
            · split
              · exact namedCode_alike.bind fun _ => ih _
              · exact ih _
  · exact ih _ (Nat.sub_one_lt_of_lt hb) _

theorem rawCodes_alike (h : e.Ample b n n') (acc : Array Nat) (slashes : Nat) :
    Alike e b (rawCodes acc n slashes) (rawCodes acc n' slashes) := by
  refine h.induction (fun b n n' _ ih acc slashes => ?_) acc slashes
  unfold rawCodes
  refine .take_bind .failHere fun c hb => ?_
  split
  · exact .failHere
  · exact .done
  · refine .take_bind .failHere fun c _ => ?_
    have ih := ih (b - 1 - 1) (by omega)
    dsimp only
    split
    · exact (hexCode_alike _ _ _).bind fun _ => ih _ _
    · split
      · exact (hexCode_alike _ _ _).bind fun _ => ih _ _
      · exact ih _ _
  · exact ih _ (Nat.sub_one_lt_of_lt hb) _ _

theorem regex_alike : Steady e b regex e.Named :=
  .fuel_bind fun _ _ _ _ h => (regexCodes_alike h #[]).bind fun _ => pattern_alike _

theorem rawRegex_alike : Steady e b rawRegex e.Named := by
  refine .take_bind .failHere fun c _ => ?_
  split
  · exact .failHere
  · exact .fuel_bind fun _ _ _ _ h => (rawCodes_alike h #[] 0).bind fun _ => pattern_alike _
  · exact .failHere

/-! ## Metadata and function literals -/

theorem metadata_alike (v : Value) : Steady e b (metadata v) := by
  unfold metadata
  split
  any_goals exact .lift
  any_goals exact .done
  exact .failHere

theorem parameter_alike (v : Value) : Steady e b (parameter v) := by
  unfold parameter
  split
  · exact .done
  · exact nextId.bind fun _ => lift.bind fun _ => .done

theorem placeholder_alike (v : Value) : Steady e b (placeholder v) := by
  intro env st st' h
  unfold placeholder
  refine .get_bind ?_
  rw [h.placeholders]
  split
  · exact agrees_throw h
  · next known hknown =>
    split
    · exact .pure ⟨h, trivial⟩
    · refine (parameter_alike v env st st' h).bind fun p s s' hs =>
        .modify_bind (.pure ⟨?_, trivial⟩)
      exact { hs.1 with placeholders := rfl, inLiteral := by rw [← h.inLiteral, hknown]; rfl }

theorem parameters_alike (known : List (Value × Value)) : Steady e b (parameters known) := by
  refine lift.bind fun top => ?_
  split
  · exact .done
  · refine (mapM (fun i => ?_) _).bind fun ps => ?_
    · split
      · exact .done
      · exact parameter_alike _
    · split
      · exact .done
      · exact .done

end Reader

/-! ## Syntax quotes -/

namespace SyntaxQuote

theorem resolve_alike (s : Symbol) : Steady e b (resolve s) := by
  unfold resolve
  split
  · intro env st st' h
    refine .get_bind ?_
    rw [h.gensyms]
    split
    · exact agrees_throw h
    · next known hknown =>
      split
      · exact .pure ⟨h, trivial⟩
      · refine (nextId env st st' h).bind fun n s s' hs => .modify_bind (.pure ⟨?_, trivial⟩)
        exact { hs.1 with gensyms := rfl, inQuote := by rw [← h.inQuote, hknown]; rfl }
  · split
    · exact .done
    · refine read.bind fun env => ?_
      split
      · exact .throw
      · exact .throw
      · split
        · exact .done
        · exact .done
        · exact .throw

/-- What is quoted is a list or no symbol; nothing that is `AsRead` is unquoted. -/
theorem alike (depth : Nat) :
    (∀ form : Value, Steady e b (quote depth form) fun v => form.AsRead → v.AsRead) ∧
      (∀ form : Value, Steady e b (body depth form) fun r =>
        form.AsRead → ∃ v : Value, r = .inr v ∧ v.AsRead) ∧
      ∀ items : List Value, Steady e b (expand depth items) := by
  induction depth with
  | zero => exact ⟨fun _ => .throw, fun _ => .throw, fun _ => .throw⟩
  | succ depth ih =>
    obtain ⟨ihquote, ihbody, ihexpand⟩ := ih
    refine ⟨fun form => ?_, fun form => ?_, fun items => ?_⟩
    · unfold quote
      refine lift.bind fun _ => (ihbody form).known fun r hr => ?_
      have hbuilt : ∀ v, r = .inr v → form.AsRead → v.AsRead := by
        rintro v rfl hform
        obtain ⟨w, hw, hread⟩ := hr hform
        exact Sum.inr.inj hw ▸ hread
      cases r with
      | inl v =>
        refine .pure fun hform => ?_
        obtain ⟨w, hw, -⟩ := hr hform
        cases hw
      | inr v =>
        dsimp only
        split
        · exact .pure (hbuilt v rfl)
        · refine lift.bind fun rest => ?_
          split
          · exact .throw
          · exact .pure (hbuilt v rfl)
        · exact .throw
    · have hlist (xs : List Value) : Steady e b (pure (Sum.inr (listOf xs)) : ReadM (Value ⊕ Value))
          fun r => form.AsRead → ∃ v : Value, r = .inr v ∧ v.AsRead :=
        .pure fun _ => ⟨_, rfl, asRead_listOf xs⟩
      unfold body
      split
      · split
        · exact hlist _
        · exact (resolve_alike _).bind fun _ => hlist _
      · refine lift.bind fun unquoted => ?_
        split
        · exact (lift_of fun _ hv => hv).known fun v hv => .pure fun hform =>
            absurd hv (marked_asRead hform)
        · refine lift.bind fun spliced => ?_
          split
          · exact .throw
          · -- all collections are built from the parts of their items in the same way
            have hconcat (items : List Value) : Steady e b (do
                let parts ← expand depth items
                let s := if parts.isEmpty then Value.nil else .indexSeq (vectorOf parts) 0
                return consOnto (qsym "clojure.core" "concat") s) :=
              (ihexpand items).bind fun _ => .done
            split
            all_goals first
              | exact hlist _
              | exact .pure fun _ => ⟨_, rfl, trivial⟩
              | exact lift.bind fun _ => (hconcat _).bind fun _ => hlist _
              | exact lift.bind fun _ => lift.bind fun _ => (hconcat _).bind fun _ => hlist _
    · cases items with
      | nil => exact .done
      | cons item rest =>
        unfold expand
        have hrest (part : Value) : Steady e b (do return part :: (← expand depth rest)) :=
          (ihexpand rest).bind fun _ => .done
        refine lift.bind fun unquoted => ?_
        split
        · exact lift.bind fun _ => hrest _
        · refine lift.bind fun spliced => ?_
          split
          · exact lift.bind fun _ => hrest _
          · exact (ihquote item).known fun _ _ => hrest _

end SyntaxQuote

end HostedLisp
