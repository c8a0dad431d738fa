import HostedLisp.Reader.Read

/-!
# How readings end

- `ReadM.Ends`: what holds of the result of a reading and of the new state. Whether it may fail
  instead is a parameter, so that the same rules serve for readings that succeed and for what is
  known of a reading once it has succeeded.
- `Ends.bind`, `Ends.mono`, `Ends.tryCatch`: readings one after the other, and failures caught.
- `ReadState.At`, `ReadState.After`: what is left of the text, before and after a character is
  taken.
- `takeUntil_ends`, `skipBlanks_ends`: runs of characters; `divide_at_stop` says where they end.
- `rawCodes_escape`: which escapes of a raw pattern are replaced.
- `macroForm_map`: the map that a literal is, given its forms.
-/

namespace HostedLisp

open List

/-- The characters that are left. -/
def Cursor.rest (c : Cursor) : List Char := c.source.toList.drop c.pos

theorem Cursor.remaining_eq (c : Cursor) : c.remaining = c.rest.length := by
  simp [Cursor.remaining, Cursor.rest]

/-- Take some characters. -/
def Cursor.skip (c : Cursor) : Nat → Cursor
  | 0 => c
  | n + 1 => (c.skip n).take.2

theorem Cursor.rest_skip (c : Cursor) (n : Nat) : (c.skip n).rest = c.rest.drop n := by
  induction n with
  | zero => rfl
  | succ n ih =>
    have htake : (c.skip (n + 1)).rest = (c.skip n).rest.tail := tail_drop.symm
    rw [htake, ih, tail_drop]

theorem Cursor.skip_skip (c : Cursor) (n m : Nat) : (c.skip n).skip m = c.skip (n + m) := by
  induction m with
  | zero => rfl
  | succ m ih => exact congrArg (·.take.2) ih

/-- The state after some characters are taken. -/
def ReadState.skip (st : ReadState) (n : Nat) : ReadState := { st with cursor := st.cursor.skip n }

theorem ReadState.skip_skip (st : ReadState) (n m : Nat) :
    (st.skip n).skip m = st.skip (n + m) := by
  simp only [skip, Cursor.skip_skip]

/-- The state after a step back. -/
def ReadState.steppedBack (st : ReadState) : ReadState :=
  { st with cursor := { st.cursor with
      pos := st.cursor.pos - 1, line := st.cursor.lastLine, canStepBack := false } }

namespace ReadM

variable {α β : Type} {env : ReadEnv} {st : ReadState} {fails : Prop}
  {Q : α → ReadState → Prop} {R : β → ReadState → Prop}

/-- A reading ends with a result and a state of which `Q` holds, or with a failure where `fails`
allows it. -/
def Ends (fails : Prop) (x : ReadM α) (env : ReadEnv) (st : ReadState)
    (Q : α → ReadState → Prop) : Prop :=
  match x env st with
  | .ok a st' => Q a st'
  | .error _ _ => fails

variable {a : α} {x : ReadM α} {f : α → ReadM β} {st' : ReadState}

theorem Ends.pure (h : Q a st) : Ends fails (Pure.pure a) env st Q := h

theorem bind_ok (hx : x env st = .ok a st') : (x >>= f) env st = f a env st' := by
  show EStateM.bind (x env) (fun a => f a env) st = f a env st'
  rw [EStateM.bind, hx]

theorem bind_error {e : Error} (hx : x env st = .error e st') :
    (x >>= f) env st = .error e st' := by
  show EStateM.bind (x env) (fun a => f a env) st = .error e st'
  rw [EStateM.bind, hx]

theorem Ends.bind (h : Ends fails x env st Q) (hf : ∀ a st', Q a st' → Ends fails (f a) env st' R) :
    Ends fails (x >>= f) env st R := by
  cases hx : x env st with
  | ok a st' =>
    rw [Ends, hx] at h
    rw [Ends, bind_ok hx]
    exact hf a st' h
  | error e st' =>
    rw [Ends, hx] at h
    rw [Ends, bind_error hx]
    exact h

theorem Ends.mono {Q' : α → ReadState → Prop} (h : Ends fails x env st Q)
    (hQ : ∀ a st', Q a st' → Q' a st') : Ends fails x env st Q' := by
  unfold Ends at h ⊢
  cases hx : x env st with
  | ok a st' =>
    rw [hx] at h
    exact hQ a st' h
  | error e st' =>
    rw [hx] at h
    exact h

/-- Of a reading that may fail nothing is known but that it ends as it does. -/
theorem ends_self : Ends True x env st fun a st' => x env st = .ok a st' := by
  unfold Ends
  cases x env st <;> trivial

/-- A reading that succeeds, and what comes of it. -/
theorem Ends.exists_ok (h : Ends False x env st Q) : ∃ a st', x env st = .ok a st' ∧ Q a st' := by
  unfold Ends at h
  cases hx : x env st with
  | ok a st' =>
    rw [hx] at h
    exact ⟨a, st', rfl, h⟩
  | error e st' =>
    rw [hx] at h
    exact h.elim

theorem Ends.of_ok (h : Ends fails x env st Q) (hx : x env st = .ok a st') : Q a st' := by
  unfold Ends at h
  rw [hx] at h
  exact h

theorem Ends.get_bind {f : ReadState → ReadM α} (h : Ends fails (f st) env st Q) :
    Ends fails (get >>= f) env st Q := h

theorem Ends.line_bind {f : Int → ReadM α} (h : Ends fails (f st.cursor.line) env st Q) :
    Ends fails (line >>= f) env st Q := h

theorem Ends.fuel_bind {f : Nat → ReadM α} (h : Ends fails (f (st.cursor.remaining + 2)) env st Q) :
    Ends fails (fuel >>= f) env st Q := h

end ReadM

/-! ## What is left of the text -/

namespace ReadState

/-- The text that is left, outside function literals. -/
structure At (cs : List Char) (st : ReadState) : Prop where
  rest_eq : st.cursor.rest = cs
  outside : st.placeholders = none

/-- The text that was left before the last character was taken. -/
structure After (cs : List Char) (st : ReadState) : Prop where
  moved : st.cursor.canStepBack = true
  pos_pos : 0 < st.cursor.pos
  drop_eq : st.cursor.source.toList.drop (st.cursor.pos - 1) = cs
  outside : st.placeholders = none

theorem After.at_tail {cs : List Char} {st : ReadState} (h : After cs st) : At cs.tail st := by
  refine ⟨?_, h.outside⟩
  rw [← h.drop_eq, tail_drop, Nat.sub_add_cancel h.pos_pos]
  rfl

theorem At.remaining_eq {cs : List Char} {st : ReadState} (h : At cs st) :
    st.cursor.remaining = cs.length := by
  rw [Cursor.remaining_eq, h.rest_eq]

theorem rest_skip_left {a b : List Char} {st : ReadState} (h : st.cursor.rest = a ++ b) :
    (st.skip a.length).cursor.rest = b := by
  rw [skip, Cursor.rest_skip, h, drop_left]

theorem At.skip {cs rest : List Char} {st : ReadState} (h : At (cs ++ rest) st) :
    At rest (st.skip cs.length) := ⟨rest_skip_left h.rest_eq, h.outside⟩

end ReadState

namespace ReadM

open ReadState

variable {env : ReadEnv} {st : ReadState} {fails : Prop} {cs : List Char}

theorem take_bind_skip {α : Type} (f : Option Char → ReadM α) :
    (take >>= f) env st = f st.cursor.rest.head? env (st.skip 1) := by
  rw [Cursor.rest, head?_drop, Array.getElem?_toList]
  rfl

theorem take_ends (h : At cs st) :
    Ends fails take env st fun ch st' => ch = cs.head? ∧ After cs st' := by
  show st.cursor.source[st.cursor.pos]? = cs.head? ∧ After cs _
  have hrest := h.rest_eq
  unfold Cursor.rest at hrest
  refine ⟨?_, rfl, Nat.succ_pos _, hrest, h.outside⟩
  rw [← hrest, head?_drop, Array.getElem?_toList]

theorem back_apply (hmoved : st.cursor.canStepBack = true) :
    back env st = .ok () st.steppedBack := by
  have hback : st.cursor.back? = some st.steppedBack.cursor := if_pos hmoved
  refine (bind_ok (a := st) rfl).trans ?_
  simp only [hback]
  rfl

theorem back_ends (h : After cs st) : Ends fails back env st fun _ st' => At cs st' := by
  rw [Ends, back_apply h.moved]
  exact ⟨h.drop_eq, h.outside⟩

/-- A text divides where the first character stands at which to stop. -/
theorem divide_at_stop {stop : Char → Bool} {rest : List Char} (hcs : ∀ d ∈ cs, stop d = false)
    (hrest : ∀ c, rest.head? = some c → stop c = true) :
    (cs ++ rest).takeWhile (!stop ·) = cs ∧ (cs ++ rest).dropWhile (!stop ·) = rest := by
  have hall : ∀ d ∈ cs, (!stop d) = true := by simpa using hcs
  rw [takeWhile_append_of_pos hall, dropWhile_append_of_pos hall]
  cases rest with
  | nil => simp
  | cons d rest =>
    have hd := hrest d rfl
    simp [hd]

/-- The characters up to the first at which to stop. -/
theorem takeUntil_ends {stop : Char → Bool} {acc : List Char} {n : Nat} (h : At cs st)
    (hn : cs.length < n) :
    Ends fails (takeUntil stop acc n) env st fun taken st' =>
      taken = acc.reverse ++ cs.takeWhile (!stop ·) ∧ At (cs.dropWhile (!stop ·)) st' := by
  induction n generalizing cs acc st with
  | zero => exact absurd hn (Nat.not_lt_zero _)
  | succ n ih =>
    unfold takeUntil
    refine (take_ends h).bind fun ch st' hch => ?_
    obtain ⟨rfl, hafter⟩ := hch
    cases cs with
    | nil => exact (back_ends hafter).bind fun _ st'' hat => .pure ⟨by simp, hat⟩
    | cons c cs =>
      show Ends fails (if stop c then back >>= fun _ => pure acc.reverse
        else takeUntil stop (c :: acc) n) env st' _
      split
      next hstop =>
        refine (back_ends hafter).bind fun _ st'' hat => .pure ⟨?_, ?_⟩
        · simp [hstop]
        · simpa [hstop] using hat
      next hstop =>
        refine (ih hafter.at_tail (Nat.lt_of_succ_lt_succ hn)).mono fun taken st'' hend => ?_
        obtain ⟨rfl, hat⟩ := hend
        refine ⟨?_, ?_⟩
        · simp [hstop]
        · simpa [hstop] using hat

end ReadM

namespace Reader

open ReadM ReadState

variable {env : ReadEnv} {st : ReadState} {fails : Prop} {cs : List Char}

/-- The first character that is not blank, if there is one. -/
theorem skipBlanks_ends {n : Nat} (h : At cs st) (hn : cs.length < n) :
    Ends fails (skipBlanks n) env st fun ch st' =>
      ch = (cs.dropWhile Text.isBlank).head? ∧ After (cs.dropWhile Text.isBlank) st' := by
  induction n generalizing cs st with
  | zero => exact absurd hn (Nat.not_lt_zero _)
  | succ n ih =>
    unfold skipBlanks
    refine (take_ends h).bind fun ch st' hch => ?_
    obtain ⟨rfl, hafter⟩ := hch
    cases cs with
    | nil => exact .pure ⟨rfl, hafter⟩
    | cons c cs =>
      show Ends fails (if Text.isBlank c then skipBlanks n else pure (some c)) env st' _
      split
      next hblank =>
        rw [dropWhile_cons_of_pos hblank]
        exact ih hafter.at_tail (Nat.lt_of_succ_lt_succ hn)
      next hblank =>
        rw [dropWhile_cons_of_neg hblank]
        exact .pure ⟨rfl, hafter⟩

/-- Blanks are skipped up to the character after them. -/
theorem skipBlanks_fuel_ends {lead rest : List Char} {c : Char} {α : Type}
    {f : Option Char → ReadM α} {Q : α → ReadState → Prop} (h : At (lead ++ c :: rest) st)
    (hlead : lead.all Text.isBlank) (hc : Text.isBlank c = false)
    (hf : ∀ st', After (c :: rest) st' → Ends fails (f (some c)) env st' Q) :
    Ends fails (fuel >>= fun n => skipBlanks n >>= f) env st Q := by
  apply Ends.fuel_bind
  have hlen : (lead ++ c :: rest).length < st.cursor.remaining + 2 := by
    rw [h.remaining_eq]
    omega
  have hdrop : (lead ++ c :: rest).dropWhile Text.isBlank = c :: rest := by
    rw [dropWhile_append_of_pos (by simpa using hlead), dropWhile_cons_of_neg (by simp [hc])]
  refine (skipBlanks_ends h hlen).bind fun ch st' hch => ?_
  rw [hdrop] at hch
  obtain ⟨rfl, hafter⟩ := hch
  exact hf st' hafter

/-! ## Raw patterns -/

variable {acc : Array Nat} {pre rest : List Char} {c : Char} {k s : Nat}

/-- What a raw pattern keeps after `s` backslashes: any character, and a backslash with the one
after it, unless the two begin an escape. -/
inductive Kept : Nat → List Char → Prop where
  | nil {s : Nat} : Kept s []
  | plain {s : Nat} {c : Char} {cs : List Char} (hquote : c ≠ '"') (hslash : c ≠ '\\')
      (h : Kept s cs) : Kept s (c :: cs)
  | pair {s : Nat} {c : Char} {cs : List Char} (hc : c = 'u' ∨ c = 'U' → s % 2 = 1)
      (h : Kept (s + ['\\', c].count '\\') cs) : Kept s ('\\' :: c :: cs)

theorem rawCodes_slash (hrest : st.cursor.rest = '\\' :: c :: rest) :
    rawCodes acc (k + 1) s env st =
      if (c = 'u' ∨ c = 'U') ∧ s % 2 = 0 then
        (do rawCodes (acc.push (← hexCode c .regex (if c = 'u' then 4 else 8))) k 0) env (st.skip 2)
      else rawCodes ((acc.push 92).push c.toNat) k (s + ['\\', c].count '\\') env (st.skip 2) := by
  have hnext : (st.skip 1).cursor.rest = c :: rest := rest_skip_left (a := ['\\']) hrest
  rw [rawCodes, take_bind_skip, hrest]
  simp only [List.head?_cons]
  rw [take_bind_skip, hnext, skip_skip]
  simp only [List.head?_cons, show (s + 1) % 2 ≠ 0 ↔ s % 2 = 0 by omega]
  grind

/-- The backslashes are counted through all that is kept. -/
theorem Kept.run (h : Kept s pre) (hk : pre.length < k) (hrest : st.cursor.rest = pre ++ rest) :
    ∃ j, k ≤ j + 1 + pre.length ∧ rawCodes acc k s env st =
      rawCodes (acc ++ (pre.map Char.toNat).toArray) (j + 1) (s + pre.count '\\') env
        (st.skip pre.length) := by
  obtain ⟨k, rfl⟩ : ∃ j, k = j + 1 := ⟨k - 1, by omega⟩
  induction h generalizing acc k st with
  | nil => exact ⟨k, Nat.le_refl _, by simp [ReadState.skip, Cursor.skip]⟩
  | @plain s c cs hquote hslash _ ih =>
    rw [rawCodes, take_bind_skip, hrest]
    simp only [List.cons_append, List.head?_cons]
    obtain ⟨k, rfl⟩ : ∃ j, k = j + 1 := ⟨k - 1, by simp at hk; omega⟩
    obtain ⟨j, hj, hrun⟩ := @ih (st.skip 1) (acc.push c.toNat) (rest_skip_left (a := [c]) hrest) k
      (Nat.lt_of_succ_lt_succ hk)
    refine ⟨j, Nat.succ_le_succ hj, hrun.trans ?_⟩
    simp [skip_skip, Nat.add_comm 1, hslash]
  | @pair s c cs hc _ ih =>
    rw [rawCodes_slash hrest, if_neg fun h => by have hodd := hc h.1; omega]
    rw [List.length_cons, List.length_cons] at hk ⊢
    obtain ⟨k, rfl⟩ : ∃ j, k = j + 1 := ⟨k - 1, by omega⟩
    obtain ⟨j, hj, hrun⟩ := @ih (st.skip 2) ((acc.push 92).push c.toNat)
      (rest_skip_left (a := ['\\', c]) hrest) k (by omega)
    refine ⟨j, by omega, hrun.trans ?_⟩
    simp [skip_skip, List.count_cons, Nat.add_comm, Nat.add_left_comm]

/-- An escape is replaced iff the backslashes before it are even in number, all of them counted that
came since the last escape which was replaced; whether they stand right before it does not matter.
Everything else is kept as it is. -/
theorem rawCodes_escape (hpre : Kept s pre) (hk : pre.length < k) :
    (st.cursor.rest = pre ++ '"' :: rest → rawCodes acc k s env st =
      .ok (acc ++ (pre.map Char.toNat).toArray) (st.skip (pre.length + 1))) ∧
    (c = 'u' ∨ c = 'U' → st.cursor.rest = pre ++ '\\' :: c :: rest →
      ∃ j, k ≤ j + 1 + pre.length ∧ rawCodes acc k s env st =
        if (s + pre.count '\\') % 2 = 0 then
          (do rawCodes ((acc ++ (pre.map Char.toNat).toArray).push
            (← hexCode c .regex (if c = 'u' then 4 else 8))) j 0) env (st.skip (pre.length + 2))
        else rawCodes (acc ++ ((pre ++ ['\\', c]).map Char.toNat).toArray) j
          (s + pre.count '\\' + 1) env (st.skip (pre.length + 2))) := by
  refine ⟨fun hrest => ?_, fun hc hrest => ?_⟩
  · obtain ⟨j, -, hrun⟩ := hpre.run hk hrest
    rw [hrun, rawCodes, take_bind_skip, rest_skip_left hrest, skip_skip]
    rfl
  · obtain ⟨j, hj, hrun⟩ := hpre.run hk hrest
    refine ⟨j, hj, ?_⟩
    rw [hrun, rawCodes_slash (rest_skip_left hrest), skip_skip]
    have hcount : ['\\', c].count '\\' = 1 := by rcases hc with rfl | rfl <;> rfl
    simp [hc, hcount]

/-- After `\d` a `\u` is kept. -/
theorem rawCodes_escape_after_class : ∃ st, rawCodes #[] 9 0 {} { cursor := .ofString "\\d\\u\"" } =
    .ok #[92, 100, 92, 117] st := by
  have hkept : Kept 0 ['\\', 'd', '\\', 'u'] := .pair (by decide) (.pair (fun _ => rfl) .nil)
  exact ⟨_, ((@rawCodes_escape {} _ #[] _ [] 'u' 9 0 hkept (by decide)).1 rfl).trans rfl⟩

end Reader

/-! ## Map literals -/

theorem ReadM.lift_bind {α β : Type} (x : Except Error α) (f : α → Except Error β) :
    ReadM.lift (x >>= f) = ReadM.lift x >>= fun a => ReadM.lift (f a) := by
  cases x <;> rfl

namespace Value

/-- Keys and values in turn, as pairs. -/
def pairUp : List Value → List (Value × Value)
  | k :: v :: rest => (k, v) :: pairUp rest
  | _ => []

/-- Keys and values in turn are bound in order, and a key that is left over fails. -/
theorem bindArgs_eq (m : Table) (xs : List Value) : bindArgs m xs =
    tableInsertAll m (pairUp xs) >>= fun m =>
      if xs.length % 2 = 0 then pure m else fault .index := by
  induction xs using pairUp.induct generalizing m with
  | case1 k v rest ih =>
    have hparity : (k :: v :: rest).length % 2 = rest.length % 2 := Nat.add_mod_right rest.length 2
    rw [bindArgs, pairUp, tableInsertAll, bind_assoc, hparity]
    exact bind_congr ih
  | case2 xs hpair =>
    obtain _ | ⟨k, _ | ⟨v, rest⟩⟩ := xs
    · rfl
    · rfl
    · exact (hpair k v rest rfl).elim

/-- The items of a collection, as asking for them by position gives them. -/
structure HasItems (x : Value) (ys : List Value) : Prop where
  len_eq : x.len = .ok ys.length
  item_eq : ∀ i (h : i < ys.length), subscript x (.int i) = .ok ys[i]

theorem HasItems.drop_cons {x y : Value} {ys rest : List Value} (h : HasItems x ys) {i : Nat}
    (hdrop : ys.drop i = y :: rest) : i < ys.length ∧ subscript x (.int i) = .ok y ∧
      ys.drop (i + 1) = rest := by
  have hi : i < ys.length := Nat.lt_of_not_le fun hge => by
    rw [drop_eq_nil_of_le hge] at hdrop
    cases hdrop
  rw [drop_eq_getElem_cons hi] at hdrop
  obtain ⟨rfl, hrest⟩ := List.cons.inj hdrop
  exact ⟨hi, h.item_eq i hi, hrest⟩

/-- Items are bound in turn, the last one of an odd number to what the collection gives past its
end. -/
theorem HasItems.bindPairs_eq {x : Value} {ys rest : List Value} (h : HasItems x ys) (m : Table)
    {i fuel : Nat} (hrest : ys.drop i = rest) (hfuel : rest.length < fuel) :
    bindPairs x ys.length m fuel i = tableInsertAll m (pairUp rest) >>= fun m =>
      if rest.length % 2 = 0 then pure m
      else subscript x (.int ys.length) >>= tableInsert m (rest.getLast?.getD .nil) := by
  obtain _ | fuel := fuel
  · exact absurd hfuel (Nat.not_lt_zero _)
  induction rest using pairUp.induct generalizing m i fuel with
  | case1 k v rest ih =>
    obtain ⟨hi, hkey, hmore⟩ := h.drop_cons hrest
    obtain ⟨-, hval, hmore⟩ := h.drop_cons hmore
    obtain _ | fuel := fuel
    · simp at hfuel
    have hparity : (k :: v :: rest).length % 2 = rest.length % 2 := Nat.add_mod_right rest.length 2
    have hlast : rest.length % 2 ≠ 0 → (k :: v :: rest).getLast? = rest.getLast? := by
      cases rest <;> simp
    rw [bindPairs, if_pos hi, hkey, pairUp, tableInsertAll, bind_assoc]
    show (subscript x (.int (i + 1 : Nat)) >>= fun v => tableInsert m k v >>= fun m =>
      bindPairs x ys.length m (fuel + 1) (i + 2)) = _
    rw [hval]
    refine bind_congr (x := tableInsert m k v) fun m' => ?_
    rw [ih m' hmore fuel (by simp at hfuel; omega), hparity]
    refine bind_congr fun m'' => ?_
    split
    · rfl
    · next hodd => rw [hlast hodd]
  | case2 rest hpair =>
    obtain _ | ⟨k, _ | ⟨v, rest⟩⟩ := rest
    · have hi : ¬i < ys.length := Nat.not_lt.mpr (drop_eq_nil_iff.mp hrest)
      rw [bindPairs, if_neg hi]
      rfl
    · obtain ⟨hi, hkey, hmore⟩ := h.drop_cons hrest
      have hend : i + 1 = ys.length := Nat.le_antisymm hi (drop_eq_nil_iff.mp hmore)
      have hstop (m : Table) : bindPairs x ys.length m fuel (i + 2) = .ok m := by
        cases fuel with
        | zero => rfl
        | succ fuel => exact if_neg (by omega)
      rw [bindPairs, if_pos hi, hkey]
      show (subscript x (.int (i + 1 : Nat)) >>= fun v => tableInsert m k v >>= fun m =>
        bindPairs x ys.length m fuel (i + 2)) = subscript x (.int ys.length) >>= tableInsert m k
      simp only [hend, hstop]
      refine bind_congr fun v => ?_
      cases tableInsert m k v <;> rfl
    · exact (hpair k v rest rfl).elim

end Value

namespace Reader

open Value

/-- A map literal binds its forms pairwise in order, and a form that is left over fails. But a
single form that has items stands for them: they are bound pairwise, and an item that is left over
to what the form gives past its end. -/
theorem macroForm_map {n : Nat} {env : ReadEnv} {st st' : ReadState} {xs : List Value}
    (hforms : delimited n '\x7d' env st = .ok xs st') :
    ((∀ x, xs = [x] → x.isIndexable = false) →
      macroForm (n + 1) '\x7b' env st = (ReadM.lift (mapOf (pairUp xs)) >>= fun m =>
        if xs.length % 2 = 0 then pure (.form m) else fault .index) env st') ∧
    ∀ x ys, xs = [x] → x.isIndexable = true → (∀ pairs, x ≠ .dict pairs) → HasItems x ys →
      macroForm (n + 1) '\x7b' env st = (do
        let m ← ReadM.lift (tableInsertAll .empty (pairUp ys))
        if ys.length % 2 = 0 then return Reading.form (.hashMap m .nil)
        else
          let v ← ReadM.lift (subscript x (.int ys.length))
          let m ← ReadM.lift (tableInsert m (ys.getLast?.getD .nil) v)
          return Reading.form (.hashMap m .nil)) env st' := by
  have hform : macroForm (n + 1) '\x7b' env st = (ReadM.lift (mapFromArgs xs) >>= fun m =>
      pure (.form m)) env st' := by
    unfold macroForm
    exact ReadM.bind_ok hforms
  refine ⟨fun hsingle => ?_, fun x ys hxs hindexable hdict hitems => ?_⟩
  · have hargs : tableFromArgs .empty xs = bindArgs .empty xs := by
      unfold tableFromArgs
      split
      · cases hsingle _ rfl
      · next x _ =>
        rw [hsingle x rfl]
        rfl
      · rfl
    rw [hform, mapFromArgs, hargs, bindArgs_eq, mapOf]
    by_cases heven : xs.length % 2 = 0
    · simp only [if_pos heven, ReadM.lift_bind, bind_assoc, pure_bind]
    · simp only [if_neg heven, ReadM.lift_bind, bind_assoc]
      rfl
  · have hargs : tableFromArgs .empty xs = bindPairs x ys.length .empty (ys.length + 1) 0 := by
      subst hxs
      unfold tableFromArgs
      split
      · next heq => exact absurd (List.cons.inj heq).1 (hdict _)
      · next heq =>
        obtain ⟨rfl, -⟩ := List.cons.inj heq
        rw [hindexable, hitems.len_eq]
        rfl
      · next hne => exact absurd rfl (hne x)
    rw [hform, mapFromArgs, hargs,
      hitems.bindPairs_eq _ (drop_zero (l := ys)) (Nat.lt_succ_self ys.length)]
    by_cases heven : ys.length % 2 = 0
    · simp only [if_pos heven, ReadM.lift_bind, bind_assoc, pure_bind]
      rfl
    · simp only [if_neg heven, ReadM.lift_bind, bind_assoc]
      rfl

/-- A symbol alone makes no map; a text of two characters binds the one to the other. -/
theorem macroForm_map_alone :
    (∃ st', macroForm 8 '\x7b' {} { cursor := .ofString "a\x7d" } = .error (.fault .index) st') ∧
    ∃ m st', macroForm 8 '\x7b' {} { cursor := .ofString "\"ab\"\x7d" } = .ok (.form m) st' ∧
      mapOf [(.str "a", .str "b")] = .ok m := by
  constructor
  · have hforms : ∃ st', delimited 7 '\x7d' {} { cursor := .ofString "a\x7d" } =
        .ok [sym "a"] st' :=
      ⟨_, rfl⟩
    obtain ⟨st', hforms⟩ := hforms
    refine ⟨st', ((macroForm_map hforms).1 ?_).trans rfl⟩
    simp [isIndexable, sym]
  · have hforms : ∃ st', delimited 7 '\x7d' {} { cursor := .ofString "\"ab\"\x7d" } =
        .ok [.str "ab"] st' := ⟨_, rfl⟩
    obtain ⟨st', hforms⟩ := hforms
    have hitems : HasItems (.str "ab") [.str "a", .str "b"] := ⟨rfl, fun i hi => by
      match i, hi with
      | 0, _ => rfl
      | 1, _ => rfl⟩
    exact ⟨_, st', ((macroForm_map hforms).2 _ _ rfl rfl (by simp) hitems).trans rfl, rfl⟩

end Reader

end HostedLisp
