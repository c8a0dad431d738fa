import HostedLisp.Proofs.Stm.View

/-!
# What a try does

- `requireLive_ends`, `barge_ends`, `rival?_ends`, `takeOwnership_ends`: tries and their conflicts.
- `read_ends`, `write_ends`, `commute_ends`, `ensure_ends`: what a try does with a reference.
- `begin_ends`, `finish_ends`: start and end of a try.
- `Yields`: the most that an action does that does not succeed.
-/

namespace HostedLisp.Stm

open Function View

variable {w : World} {t r : Nat}

/-! ## Tries -/

/-- The present try of a thread, if it is not over. -/
def View.LiveIn (v : View) (t i : Nat) : Prop :=
  (v.txn t).self = some i ∧ (v.status i).isLive = true

theorem requireLive_ends (t : Nat) :
    Ends (requireLive t) w (fun _ w' => w = w' ∧ ∃ i, w.view.LiveIn t i)
      fun e w' => w = w' ∧ e = .retry ∧ ∀ i, ¬w.view.LiveIn t i := by
  unfold requireLive
  refine Ends.txnOf_bind ?_
  split
  · next hself =>
    refine ends_throw ⟨rfl, rfl, fun i hi => ?_⟩
    exact nomatch hself.symm.trans hi.1
  · next i hself =>
    refine Ends.statusOf_bind ?_
    split
    · next hlive => exact Ends.pure ⟨rfl, i, hself, hlive⟩
    · next hlive =>
      refine ends_throw ⟨rfl, rfl, fun j hj => hlive ?_⟩
      obtain rfl := Option.some.inj (hself.symm.trans hj.1)
      exact hj.2

variable {E : Signal → World → Prop} {i : Nat} {β : Type}

/-- Stopping another try. -/
theorem barge_ends (t other : Nat) :
    Ends (barge t other) w (fun b w' => if b then w.status other = .running ∧
      w'.view = w.view.setStatus other .killed ∧ w'.refs = w.refs else w = w') E := by
  unfold barge
  refine Ends.get_bind ?_
  split
  · next x hx =>
    refine Ends.txnOf_bind ?_
    split
    · next hold =>
      have hlt : other < w.tries.size := (Array.getElem?_eq_some_iff.mp hx).1
      refine Ends.bind
        (Q := fun _ w' => w'.view = w.view.setStatus other .killed ∧ w'.refs = w.refs)
        (ends_setStatus ⟨view_setStatus hlt, rfl⟩) fun _ w' h => Ends.pure ?_
      refine ⟨?_, h⟩
      rw [World.status, hx]
      exact hold.2
    · exact Ends.pure rfl
  · exact Ends.pure rfl

/-- The rival of a try is a try of another transaction that is not over and has the reference. -/
theorem rival?_ends (t r : Nat) :
    Ends (rival? t r) w (fun rival w' => w = w' ∧ ∃ x, w.view.ref r = some x ∧
        match rival with
        | none => ∀ i, x.owner = some i → (w.view.txn t).self ≠ some i → (w.status i).isLive = false
        | some i => x.owner = some i ∧ (w.view.txn t).self ≠ some i ∧ (w.status i).isLive = true)
      fun e w' => w = w' ∧ e = .failed (.fault .index) ∧ w.refs[r]? = none := by
  unfold rival?
  refine Ends.refAt_bind (fun x hx => ?_) fun hn => ⟨rfl, rfl, hn⟩
  have hcore : w.view.ref r = some x.core := congrArg (Option.map Ref.core) hx
  split
  · next hnone =>
    refine Ends.pure ⟨rfl, x.core, hcore, fun i hi => ?_⟩
    exact nomatch hnone.symm.trans hi
  · next i hi =>
    have howner : ∀ j, x.core.owner = some j → j = i := fun j hj =>
      Option.some.inj (hj.symm.trans hi)
    refine Ends.txnOf_bind ?_
    split
    · next hself =>
      refine Ends.pure ⟨rfl, x.core, hcore, fun j hj hne => absurd ?_ hne⟩
      rw [howner j hj]
      exact hself
    · next hself =>
      refine Ends.statusOf_bind ?_
      split
      · next hlive => exact Ends.pure ⟨rfl, x.core, hcore, hi, hself, hlive⟩
      · next hlive =>
        refine Ends.pure ⟨rfl, x.core, hcore, fun j hj _ => ?_⟩
        rw [howner j hj]
        exact Bool.eq_false_iff.mpr hlive

theorem changed_ends (t r : Nat) :
    Ends (changed t r) w (fun b w' => w = w' ∧ ∃ x, w.view.ref r = some x ∧
        b = x.changedSince (w.view.txn t).readPoint)
      fun e w' => w = w' ∧ e = .failed (.fault .index) ∧ w.refs[r]? = none := by
  unfold changed
  refine Ends.refAt_bind (fun x hx => ?_) fun hn => ⟨rfl, rfl, hn⟩
  exact Ends.txnOf_bind (Ends.pure ⟨rfl, x.core, congrArg (Option.map Ref.core) hx, rfl⟩)

/-- A transaction that has not begun has done nothing. -/
def Txn.Resting (x : Txn) : Prop := x.self = none → x.values = [] ∧ x.sets = [] ∧ x.commutes = []

theorem Txn.resting_of_self {x : Txn} (h : x.self = some i) : x.Resting :=
  fun hnone => nomatch hnone.symm.trans h

/-- The most that a thread does by an action that does not succeed: it stops other tries, and what
happens to its own transaction is of no importance, because its try is over. -/
structure Yields (t : Nat) (v v' : View) : Prop where
  ref : v'.ref = v.ref
  clock : v'.clock = v.clock
  tries : v'.tries = v.tries
  threads : v'.threads = v.threads
  others : ∀ u, u ≠ t → v'.txn u = v.txn u
  self : (v'.txn t).self = (v.txn t).self ∨ (v'.txn t).self = none
  resting : (v.txn t).Resting → (v'.txn t).Resting
  status : ∀ i, v'.status i = v.status i ∨ (v'.status i).isLive = false ∨ (v.txn t).self = some i

theorem Yields.of_eq {v v' : View} (h : v' = v) : Yields t v v' := by
  subst h
  exact ⟨rfl, rfl, rfl, rfl, fun _ _ => rfl, .inl rfl, id, fun _ => .inl rfl⟩

/-- Tries other than the given one may have been stopped. -/
def Kills (i : Nat) (old new : Nat → Status) : Prop := ∀ j, new j = old j ∨ j ≠ i ∧ new j = .killed

theorem Kills.refl (i : Nat) (old : Nat → Status) : Kills i old old := fun _ => .inl rfl

theorem Kills.kill {i j : Nat} {old new : Nat → Status} (h : Kills i old new) (hj : j ≠ i) :
    Kills i old (update new j .killed) := by
  intro k
  rw [update_apply]
  split
  · next hk => exact .inr ⟨hk ▸ hj, rfl⟩
  · exact h k

theorem lt_of_self (h : (w.view.txn t).self = some i) : t < w.txns.size := by
  by_contra hge
  have hself : (w.txn t).self = some i := h
  rw [World.txn, Array.getElem?_eq_none (Nat.le_of_not_lt hge)] at hself
  cases hself

/-- Ending a try. -/
theorem stop_ends (t : Nat) (s : Status) :
    Ends (stop t s) w (fun _ w' => Yields t w.view w'.view ∧ (w'.view.txn t).self = none) E := by
  unfold stop
  refine Ends.txnOf_bind ?_
  split
  · next hself => exact Ends.pure ⟨.of_eq rfl, hself⟩
  · next i hself =>
    have ht : t < w.txns.size := lt_of_self (i := i) hself
    refine Ends.bind (Q := fun _ w' => w'.txns = w.txns ∧
      w'.view = { w.view with status := w'.status } ∧ ∀ j, j ≠ i → w'.status j = w.status j)
      (ends_setStatus ⟨rfl, ?_, fun j hj => ?_⟩) ?_
    · rw [World.view, World.view, Array.size_modify]
      rfl
    · unfold World.status
      rw [Array.getElem?_modify, if_neg (Ne.symm hj)]
    · rintro _ w' ⟨htxns, hview, hstatus⟩
      refine ends_updateTxn ?_
      rw [view_changeTxn (g := fun x => { readPoint := x.readPoint }) (htxns ▸ ht) fun _ => rfl,
        hview]
      have hnew : (changeTxn { w.view with status := w'.status } t fun x =>
          { readPoint := x.readPoint }).txn t = { readPoint := (w.view.txn t).readPoint } :=
        changeTxn_txn_self ..
      refine ⟨⟨rfl, rfl, rfl, rfl, fun u hu => changeTxn_txn_of_ne hu, .inr (by rw [hnew]),
        fun _ => ?_, fun j => ?_⟩, by rw [hnew]⟩
      · rw [hnew]
        exact fun _ => ⟨rfl, rfl, rfl⟩
      by_cases hj : j = i
      · exact .inr (.inr (hj ▸ hself))
      · exact .inl (hstatus j hj)

/-- The try `i` has taken a reference: it had not changed since the try began, and no other try that
is not over has it. -/
def Taken (t r i : Nat) (v v' : View) : Prop :=
  ∃ x status, v.ref r = some x ∧ x.changedSince (v.txn t).readPoint = false ∧
    Kills i v.status status ∧ (∀ j, x.owner = some j → j ≠ i → (status j).isLive = false) ∧
    v' = changeRef { v with status := status } r fun y => { y with owner := some i }

/-- Setting the owner. -/
theorem setOwner_ends (hlock : HoldsLock t r w) (hself : (w.view.txn t).self = some i) :
    Ends (do
      let txn ← txnOf t
      updateRef r fun x => { x with owner := txn.self }
      unlock t r) w
      (fun _ w' => w'.view = w.view.changeRef r fun y => { y with owner := some i }) E := by
  refine Ends.txnOf_bind ?_
  refine Ends.bind (Q := fun _ w' =>
    w'.view = w.view.changeRef r (fun y => { y with owner := some i }) ∧ HoldsLock t r w')
    (ends_updateRef ⟨?_, ?_⟩) fun _ w' h => ?_
  · exact view_changeRef fun x => by rw [show (w.txn t).self = some i from hself]; rfl
  · obtain ⟨x, hx, howner⟩ := hlock
    refine ⟨{ x with owner := (w.txn t).self }, ?_, howner⟩
    rw [Array.getElem?_modify, if_pos rfl, hx]
    rfl
  · exact (unlock_ends h.2).mono (fun _ _ h' => h'.trans h.1) fun _ _ h => h

/-- Taking a reference, unless the try is over. -/
theorem takeOwnership_ends (hlive : w.view.LiveIn t i) (r : Nat) :
    Ends (takeOwnership t r) w (fun _ w' => Taken t r i w.view w'.view)
      fun e w' => Yields t w.view w'.view ∧ ((∃ e', e = .failed e') → w'.view = w.view) := by
  have hkeep : ∀ {e : Signal} {w w' : World}, w'.view = w.view →
      Yields t w.view w'.view ∧ ((∃ e', e = .failed e') → w'.view = w.view) :=
    fun h => ⟨.of_eq h, fun _ => h⟩
  unfold takeOwnership
  refine (releaseEnsured_ends t r).then (fun _ _ h => hkeep h) fun _ w₁ h₁ => ?_
  rw [← h₁] at hlive ⊢
  refine (lockSoon_ends t r).then (fun _ _ h => hkeep h) ?_
  rintro _ w₂ ⟨h₂, hlock⟩
  rw [← h₂] at hlive ⊢
  refine (changed_ends t r).then (fun _ _ h => hkeep (h.1 ▸ rfl)) ?_
  rintro b _ ⟨rfl, x, hx, hchanged⟩
  split
  · exact Ends.bind (unlock_ends hlock) fun _ w₃ h₃ => ends_throw (hkeep h₃)
  · next hsame =>
    have hkept : x.changedSince (w₂.view.txn t).readPoint = false := by
      rw [← hchanged]
      exact Bool.eq_false_iff.mpr hsame
    refine (rival?_ends t r).then (fun _ _ h => hkeep (h.1 ▸ rfl)) ?_
    rintro rival _ ⟨rfl, y, hy, hrival⟩
    obtain rfl := Option.some.inj (hx.symm.trans hy)
    cases rival with
    | none =>
      -- no try that is not over has the reference
      refine Ends.pure_bind ?_
      refine (setOwner_ends hlock hlive.1).mono (fun _ w' h => ?_) fun _ _ h => h
      refine ⟨x, w₂.view.status, hx, hkept, .refl _ _, fun j hj hne => ?_, h⟩
      refine hrival j hj fun hself => hne ?_
      exact Option.some.inj (hself.symm.trans hlive.1)
    | some other =>
      obtain ⟨howner, hother, -⟩ := hrival
      refine Ends.bind (barge_ends t other) fun won w₃ h₃ => Ends.pure_bind ?_
      cases won with
      | true =>
        -- the rival is killed, and what it has taken is free
        obtain ⟨-, hview, hrefs⟩ := h₃
        have hne : other ≠ i := fun h => hother (h ▸ hlive.1)
        have hlock₃ : HoldsLock t r w₃ := by
          obtain ⟨z, hz, howner⟩ := hlock
          exact ⟨z, hrefs ▸ hz, howner⟩
        have hself₃ : (w₃.view.txn t).self = some i := by
          rw [hview]
          exact hlive.1
        refine (setOwner_ends hlock₃ hself₃).mono (fun _ w' h => ?_) fun _ _ h => h
        refine ⟨x, update w₂.view.status other .killed, hx, hkept,
          (Kills.refl _ _).kill hne, fun j hj _ => ?_, h.trans (by rw [hview]; rfl)⟩
        obtain rfl := Option.some.inj (hj.symm.trans howner)
        rw [update_self]
        rfl
      | false =>
        -- the rival stays, so this try is over
        subst h₃
        refine Ends.bind (unlock_ends hlock) fun _ w₄ h₄ => ?_
        refine Ends.bind (stop_ends t .abandoned) fun _ w₅ h₅ => ends_throw ⟨?_, ?_⟩
        · rw [← h₄]
          exact h₅.1
        · rintro ⟨_, h⟩
          cases h

/-! ## Reading and writing -/

/-- Remembering a value. -/
theorem remember_ends (ht : t < w.txns.size) (r : Nat) (u : Value) :
    Ends (remember t r u) w (fun _ w' => w'.view =
      w.view.changeTxn t fun x => { x with values := insertAt r u x.values }) E :=
  ends_updateTxn (view_changeTxn ht fun _ => rfl)

/-- Reading: the new value of the try, or else the latest one from before its point. -/
theorem read_ends (t r : Nat) :
    Ends (read t r) w (fun u w' => w'.view = w.view ∧ (∃ i, w.view.LiveIn t i) ∧
        match (w.view.txn t).values.lookup r with
        | some u' => u = u'
        | none => ∃ x, w.view.ref r = some x ∧ x.valueBefore? (w.view.txn t).readPoint = some u)
      fun _ w' => w'.view = w.view := by
  unfold read
  refine (requireLive_ends t).then (fun _ _ h => by rw [h.1]) ?_
  rintro _ _ ⟨rfl, hlive⟩
  refine Ends.txnOf_bind ?_
  show Ends _ _ (fun u w' => w'.view = w.view ∧ _ ∧
    match (w.txn t).values.lookup r with | some u' => u = u' | none => _) _
  cases hvalue : (w.txn t).values.lookup r with
  | some u => exact Ends.pure ⟨rfl, hlive, rfl⟩
  | none =>
    refine Ends.bind (lock_ends t r) ?_
    rintro _ w₁ ⟨h₁, hlock⟩
    refine Ends.refAt_bind (fun x hx => ?_) fun hn => ?_
    · refine Ends.bind (unlock_ends hlock) fun _ w₂ h₂ => ?_
      have hview : w₂.view = w.view := h₂.trans h₁
      have hcore : w.view.ref r = some x.core := by
        rw [← h₁]
        exact congrArg (Option.map Ref.core) hx
      split
      · exact ends_fail hview
      · split
        · next u hu => exact Ends.pure ⟨hview, hlive, x.core, hcore, hu⟩
        · refine Ends.bind (Q := fun _ w' => w'.view = w.view)
            (ends_updateRef ?_) fun _ _ h => ends_throw h
          refine Eq.trans ?_ hview
          exact view_modify_ref (f := fun x => { x with faults := x.faults + 1 }) fun _ => rfl
    · obtain ⟨x, hx, -⟩ := hlock
      exact nomatch hn.symm.trans hx

/-- The reference `r` has got a new value in the try `i`, which has taken it now or before. -/
structure Wrote (t r i : Nat) (u : Value) (v v' : View) : Prop where
  live : v.LiveIn t i
  fresh : (v.txn t).commutes.lookup r = none
  effect : ∃ v₁, (if r ∈ (v.txn t).sets then v₁ = v else
      Taken t r i (v.changeTxn t fun x => { x with sets := x.sets ++ [r] }) v₁) ∧
    v' = v₁.changeTxn t fun x => { x with values := insertAt r u x.values }

theorem Yields.of_changeTxn {v v' : View} {f : Txn → Txn} (hself : (v.txn t).self = some i)
    (hf : (f (v.txn t)).self = (v.txn t).self) (h : Yields t (v.changeTxn t f) v') :
    Yields t v v' :=
  { h with
    others := fun u hu => (h.others u hu).trans (changeTxn_txn_of_ne hu)
    self := by
      have hself := h.self
      rwa [changeTxn_txn_self, hf] at hself
    resting := fun _ => by
      refine h.resting ?_
      rw [changeTxn_txn_self]
      exact Txn.resting_of_self (hf.trans hself)
    status := fun i => by
      have hstatus := h.status i
      rwa [changeTxn_txn_self, hf] at hstatus }

/-- A write that fails changes nothing, or else the reference could not be taken and is marked as if
it had been. -/
theorem write_ends (t r : Nat) (u : Value) :
    Ends (write t r u) w (fun _ w' => ∃ i, Wrote t r i u w.view w'.view)
      fun e w' => Yields t w.view w'.view ∧ ((∃ e', e = .failed e') →
        (w'.view.txn t).sets = (w.view.txn t).sets → w'.view = w.view) := by
  unfold write
  refine (requireLive_ends t).then (fun _ _ h =>
    ⟨.of_eq (h.1 ▸ rfl), fun _ _ => h.1 ▸ rfl⟩) ?_
  rintro _ _ ⟨rfl, i, hlive⟩
  have ht := lt_of_self hlive.1
  refine Ends.txnOf_bind ?_
  split
  · exact ends_fail ⟨.of_eq rfl, fun _ _ => rfl⟩
  · next hcommutes =>
    have hfresh : (w.txn t).commutes.lookup r = none :=
      SharedLock.lookup_none_iff.mpr (by simpa using hcommutes)
    extract_lets jp
    -- what comes after the reference has been taken
    have hjp : ∀ w₁ : World, w₁.view.threads = w.view.threads →
        (if r ∈ (w.view.txn t).sets then w₁.view = w.view else
          Taken t r i (w.view.changeTxn t fun x => { x with sets := x.sets ++ [r] }) w₁.view) →
        Ends (jp ()) w₁ (fun _ w' => ∃ i, Wrote t r i u w.view w'.view)
          fun e w' => Yields t w.view w'.view ∧ ((∃ e', e = .failed e') →
            (w'.view.txn t).sets = (w.view.txn t).sets → w'.view = w.view) := by
      intro w₁ hsize htaken
      refine Ends.bind (remember_ends (Nat.lt_of_lt_of_eq ht hsize.symm) r u) fun _ w₂ h₂ =>
        Ends.pure ⟨i, hlive, hfresh, w₁.view, htaken, h₂⟩
    split
    · next hnew =>
      have hnot : r ∉ (w.view.txn t).sets := fun hr => by
        rw [show (w.txn t).sets.contains r = true from List.contains_iff_mem.mpr hr] at hnew
        cases hnew
      refine Ends.bind (Q := fun _ w' => w'.view = w.view.changeTxn t fun x =>
        { x with sets := x.sets ++ [r] }) (ends_updateTxn (view_changeTxn ht fun _ => rfl))
        fun _ w₁ h₁ => ?_
      have hlive₁ : w₁.view.LiveIn t i := by
        rw [h₁]
        exact ⟨(congrArg Txn.self (changeTxn_txn_self ..)).trans hlive.1, hlive.2⟩
      refine (takeOwnership_ends hlive₁ r).then (fun _ _ h => ?_) fun _ w₂ h₂ => hjp w₂ ?_ ?_
      · rw [h₁] at h
        refine ⟨h.1.of_changeTxn hlive.1 rfl, fun hfailed hsets => ?_⟩
        rw [h.2 hfailed, changeTxn_txn_self] at hsets
        simp at hsets
      · obtain ⟨_, _, -, -, -, -, h₂⟩ := h₂
        rw [h₂, h₁]
        rfl
      · rw [if_neg hnot, ← h₁]
        exact h₂
    · next hold =>
      have hmem : r ∈ (w.view.txn t).sets := by
        rw [Bool.not_eq_true, Bool.not_eq_false'] at hold
        exact List.contains_iff_mem.mp hold
      exact hjp w rfl (by rw [if_pos hmem])

/-- The functions that a try has for a reference, to be called again at the commit. -/
def Txn.changes (x : Txn) (r : Nat) : List (Value × Value) := (x.commutes.lookup r).getD []

/-- A further function for a reference is kept, to be called again at the commit. -/
def Txn.keep (x : Txn) (r : Nat) (f args : Value) : Txn :=
  { x with commutes := insertAt r (x.changes r ++ [(f, args)]) x.commutes }

/-- A value for a reference is there from now on. -/
def Txn.fill (x : Txn) (r : Nat) (base : Value) : Txn :=
  { x with values := if (x.values.lookup r).isNone then insertAt r base x.values else x.values }

/-- The value that a function for a reference is called with: the new one of the try, or the
latest. -/
def View.Base (v : View) (t r : Nat) (base : Value) : Prop :=
  match (v.txn t).values.lookup r with
  | some u => base = u
  | none => ∃ x, v.ref r = some x ∧ base = x.current

theorem lookup_cons_eq (p : Nat × β) (l : List (Nat × β)) (j : Nat) :
    (p :: l).lookup j = if j = p.1 then some p.2 else l.lookup j := by
  rw [List.lookup_cons]
  by_cases hj : j = p.1
  · rw [if_pos hj, beq_iff_eq.mpr hj]
  · rw [if_neg hj, beq_false_of_ne hj]

theorem lookup_insertAt (k : Nat) (b : β) (l : List (Nat × β)) (j : Nat) :
    (insertAt k b l).lookup j = if j = k then some b else l.lookup j := by
  induction l with
  | nil => rw [insertAt, lookup_cons_eq]
  | cons p l ih =>
    rw [insertAt]
    by_cases hp : p.1 = k
    · rw [if_pos hp, lookup_cons_eq, lookup_cons_eq, hp]
      split <;> rfl
    · rw [if_neg hp, lookup_cons_eq, lookup_cons_eq, ih]
      by_cases hj : j = p.1
      · rw [if_pos hj, if_pos hj, if_neg (hj ▸ hp)]
      · rw [if_neg hj, if_neg hj]

theorem insertAt_insertAt (k : Nat) (b b' : β) (l : List (Nat × β)) :
    insertAt k b (insertAt k b' l) = insertAt k b l := by
  induction l with
  | nil => simp [insertAt]
  | cons p l ih =>
    rw [insertAt]
    by_cases hp : p.1 = k
    · rw [if_pos hp, insertAt, if_pos hp, insertAt, if_pos hp]
    · rw [if_neg hp, insertAt, if_neg hp, ih, insertAt, if_neg hp]

theorem Txn.lookup_fill {v : View} {base : Value} (h : v.Base t r base) :
    ((v.txn t).fill r base).values.lookup r = some base := by
  unfold Base at h
  unfold Txn.fill
  cases hvalue : (v.txn t).values.lookup r with
  | none => simp [lookup_insertAt]
  | some u =>
    rw [hvalue] at h
    simp [hvalue, h]

theorem Txn.insertAt_fill (x : Txn) (r : Nat) (base u : Value) :
    insertAt r u (x.fill r base).values = insertAt r u x.values := by
  unfold Txn.fill
  split
  · rw [insertAt_insertAt]
  · rfl

/-- A function for a reference is kept, and its value of now is the new one of the reference. -/
def Commuted (call : Caller) (t r : Nat) (f args u : Value) (v v' : View) : Prop :=
  (∃ i, v.LiveIn t i) ∧ ∃ base, v.Base t r base ∧ change call f args base = .ok u ∧
    v' = v.changeTxn t fun x => { x.keep r f args with values := insertAt r u x.values }

/-- A function for a reference is kept although its call has failed now. -/
def KeptOnly (t r : Nat) (f args : Value) (v v' : View) : Prop :=
  (∃ i, v.LiveIn t i) ∧ ∃ base, v.Base t r base ∧
    v' = v.changeTxn t fun x => (x.fill r base).keep r f args

/-- A function is kept and called, once there is a value for it. -/
theorem keepAndCall_ends (call : Caller) {w₁ : World} (hlive : w.view.LiveIn t i) (f args : Value)
    {base : Value} (hbase : w.view.Base t r base)
    (h₁ : w₁.view = w.view.changeTxn t (·.fill r base)) :
    Ends (do
      let txn ← txnOf t
      updateTxn t fun x => { x with
        commutes := insertAt r ((txn.commutes.lookup r).getD [] ++ [(f, args)]) x.commutes }
      let u ← lift (change call f args ((txn.values.lookup r).getD .nil))
      remember t r u
      return u) w₁ (fun u w' => Commuted call t r f args u w.view w'.view)
      fun e w' => (∃ e', e = .failed e') ∧ KeptOnly t r f args w.view w'.view := by
  have hthread : ∀ w' : World, w'.view.threads = w.view.threads → t < w'.txns.size := fun _ h =>
    Nat.lt_of_lt_of_eq (lt_of_self hlive.1) h.symm
  have htxn : w₁.view.txn t = (w.view.txn t).fill r base := by
    rw [h₁, changeTxn_txn_self]
  have hvalue : (w₁.txn t).values.lookup r = some base := by
    show (w₁.view.txn t).values.lookup r = _
    rw [htxn]
    exact Txn.lookup_fill hbase
  refine Ends.txnOf_bind ?_
  refine Ends.bind (Q := fun _ w' => w'.view = w.view.changeTxn t fun x =>
    (x.fill r base).keep r f args) (ends_updateTxn ?_) fun _ w₂ h₂ => ?_
  · rw [view_changeTxn (g := fun x => { x with
      commutes := insertAt r ((w₁.view.txn t).changes r ++ [(f, args)]) x.commutes })
      (hthread w₁ (by rw [h₁]; rfl)) fun _ => rfl, htxn, h₁, changeTxn_changeTxn]
    exact changeTxn_congr rfl
  · rw [hvalue, Option.getD_some]
    refine Ends.bind (Q := fun u w' => w₂ = w' ∧ change call f args base = .ok u)
      (ends_lift (fun u hu => ⟨rfl, hu⟩) fun e _ => ⟨⟨e, rfl⟩, ⟨i, hlive⟩, base, hbase, h₂⟩) ?_
    rintro u _ ⟨rfl, hu⟩
    refine Ends.bind (remember_ends (hthread w₂ (by rw [h₂]; rfl)) r u)
      fun _ w₃ h₃ => Ends.pure ?_
    refine ⟨⟨i, hlive⟩, base, hbase, hu, ?_⟩
    rw [h₃, h₂, changeTxn_changeTxn]
    refine changeTxn_congr ?_
    show ({ ((w.view.txn t).fill r base).keep r f args with values := _ } : Txn) = _
    rw [show (((w.view.txn t).fill r base).keep r f args).values =
      ((w.view.txn t).fill r base).values from rfl, Txn.insertAt_fill]
    rfl

theorem commute_ends (call : Caller) (t r : Nat) (f args : Value) :
    Ends (commute call t r f args) w (fun u w' => Commuted call t r f args u w.view w'.view)
      fun e w' => w'.view = w.view ∧ (∀ e', e = .failed e' → w.view.ref r = none) ∨
        (∃ e', e = .failed e') ∧ KeptOnly t r f args w.view w'.view := by
  unfold commute
  refine (requireLive_ends t).then (fun _ _ h => .inl ?_) ?_
  · obtain ⟨rfl, rfl, -⟩ := h
    exact ⟨rfl, fun _ h => nomatch h⟩
  rintro _ _ ⟨rfl, i, hlive⟩
  have ht := lt_of_self hlive.1
  refine Ends.txnOf_bind ?_
  extract_lets jp
  show Ends _ w _ _
  cases hvalue : (w.txn t).values.lookup r with
  | some u =>
    have hview : (w.view.txn t).values.lookup r = some u := hvalue
    have hbase : w.view.Base t r u := by
      unfold Base
      rw [hview]
    have hfill : (w.view.txn t).fill r u = w.view.txn t := by
      unfold Txn.fill
      rw [hview]
      rfl
    exact (keepAndCall_ends call hlive f args hbase (changeTxn_eq_self hfill).symm).mono
      (fun _ _ h => h) fun _ _ h => .inr h
  | none =>
    have hview : (w.view.txn t).values.lookup r = none := hvalue
    refine (lockShared_ends t r).then (fun _ _ h => .inl ⟨h.1, ?_⟩) ?_
    · exact fun e' he => congrArg (Option.map Ref.core) (h.2 e' he)
    rintro _ w₁ ⟨h₁, hshares⟩
    refine Ends.refAt_bind (fun x hx => ?_) fun hn => ?_
    · refine (unlockShared_ends t r).then (fun _ _ h => absurd hshares h.2) fun _ w₂ h₂ => ?_
      have hsame : w₂.view = w.view := h₂.trans h₁
      have ht₂ : t < w₂.txns.size := by
        have hthreads : w₂.view.threads = w.view.threads := by rw [hsame]
        exact Nat.lt_of_lt_of_eq ht hthreads.symm
      have hbase : w.view.Base t r x.current := by
        unfold Base
        rw [hview]
        refine ⟨x.core, ?_, rfl⟩
        rw [← h₁]
        exact congrArg (Option.map Ref.core) hx
      refine Ends.bind (remember_ends ht₂ r x.current) fun _ w₃ h₃ =>
        (keepAndCall_ends call hlive f args hbase ?_).mono (fun _ _ h => h) fun _ _ h => .inr h
      rw [h₃, hsame]
      refine changeTxn_congr ?_
      unfold Txn.fill
      rw [hview]
      rfl
    · obtain ⟨x, hx, -⟩ := hshares
      exact nomatch hn.symm.trans hx

/-- What a thread ensures is not in view. -/
theorem ensure_ends (t r : Nat) :
    Ends (ensure t r) w (fun _ w' => w'.view = w.view) fun _ w' => w'.view = w.view := by
  unfold ensure
  refine (requireLive_ends t).then (fun _ _ h => by rw [h.1]) ?_
  rintro _ _ ⟨rfl, -⟩
  refine Ends.txnOf_bind ?_
  split
  · refine Ends.bind ((lockShared_ends t r).mono (fun _ _ h => h.1) fun _ _ h => h.1)
      fun _ w₁ h₁ => ?_
    refine Ends.bind ((changed_ends t r).mono (fun _ _ h => h.1) fun _ _ h => by rw [← h.1, h₁]) ?_
    rintro b _ rfl
    split
    · refine Ends.bind (Q := fun _ w' => w'.view = w.view) ?_ fun _ w₂ h₂ => Ends.throw_bind h₂
      exact (unlockShared_ends t r).mono (fun _ _ h => h.trans h₁) fun _ _ h => h.1.trans h₁
    · have hmark : ∀ taken : Bool, Ends (if taken = true then fail (.fault .attribute) else
          updateTxn t fun x => { x with ensures := x.ensures ++ [r] }) w₁
          (fun _ w' => w'.view = w.view) fun _ w' => w'.view = w.view := by
        intro taken
        cases taken with
        | true => exact ends_fail h₁
        | false =>
          refine ends_updateTxn ((view_modify_txn fun x => ?_).trans h₁)
          rfl
      refine Ends.refAt_bind (fun x _ => ?_) fun _ => h₁
      split
      · exact Ends.pure_bind (hmark false)
      · exact Ends.statusOf_bind (Ends.pure_bind (hmark _))
  · exact Ends.pure rfl

/-! ## Beginning and ending -/

/-- The view after a try has begun. -/
def View.begun (v : View) (t : Nat) (first : Bool) : View :=
  { v with
    txn := update v.txn t { v.txn t with
      readPoint := v.clock
      start := if first then (v.clock : Int) else (v.txn t).start
      self := some v.tries }
    status := update v.status v.tries .running
    tries := v.tries + 1
    clock := v.clock + 1 }

theorem status_push (x : Try) :
    World.status { w with tries := w.tries.push x } =
      update w.status w.tries.size x.status := by
  funext j
  unfold World.status
  rw [Array.getElem?_push, update_apply]
  split <;> rfl

theorem view_push (x : Try) :
    World.view { w with tries := w.tries.push x } =
      { w.view with
        status := update w.status w.tries.size x.status
        tries := w.tries.size + 1 } := by
  unfold World.view
  rw [status_push, Array.size_push]
  rfl

theorem begin_ends (ht : t < w.txns.size) (first : Bool) :
    Ends (begin t first) w (fun _ w' => w'.view = w.view.begun t first ∧ w'.refs = w.refs) E := by
  unfold begin
  refine Ends.nextPoint_bind ?_
  let stamp (x : Txn) : Txn :=
    { x with readPoint := w.clock, start := if first then (w.clock : Int) else x.start }
  refine Ends.bind (Q := fun _ w' => w'.view = changeTxn { w.view with clock := w.clock + 1 } t
    stamp ∧ w'.refs = w.refs) (ends_updateTxn ⟨?_, rfl⟩) ?_
  · exact view_changeTxn (w := { w with clock := w.clock + 1 }) ht fun _ => rfl
  · rintro _ w₁ ⟨h₁, hrefs⟩
    refine Ends.txnOf_bind (Ends.get_bind ?_)
    let begun : World :=
      { w₁ with tries := w₁.tries.push { status := .running, start := (w₁.txn t).start } }
    refine Ends.bind (Q := fun _ w' => begun = w') rfl ?_
    rintro _ _ rfl
    refine ends_updateTxn ⟨?_, hrefs⟩
    have ht₁ : t < w₁.txns.size := by
      have hthreads : w₁.view.threads = w.view.threads := by rw [h₁]; rfl
      exact Nat.lt_of_lt_of_eq ht hthreads.symm
    have htries : w₁.tries.size = w.tries.size := by
      show w₁.view.tries = w.view.tries
      rw [h₁]
      rfl
    rw [view_changeTxn (w := begun) (g := fun x => { x with self := some w₁.tries.size }) ht₁
      fun _ => rfl]
    show changeTxn (World.view begun) t _ = _
    rw [view_push, htries]
    show changeTxn { w₁.view with
      status := update w₁.view.status w.tries.size .running
      tries := w.tries.size + 1 } t _ = _
    rw [h₁]
    show changeTxn (changeTxn { w.view with
      status := update w.view.status w.tries.size .running
      tries := w.tries.size + 1
      clock := w.clock + 1 } t stamp) t _ = _
    rw [changeTxn_changeTxn]
    rfl

/-- Ending a try: afterwards the transaction has not begun. -/
theorem finish_ends (t : Nat) (committed : Bool) :
    Ends (finish t committed) w (fun _ w' => Yields t w.view w'.view ∧ (w'.view.txn t).self = none)
      fun _ w' => w'.view = w.view := by
  unfold finish
  refine Ends.txnOf_bind ?_
  refine Ends.bind (Ends.forIn (I := fun _ w' => w'.view = w.view) rfl fun _ r _ w₁ _ h₁ => ?_)
    fun _ w₂ h₂ => ?_
  · exact Ends.bind ((unlock_keeps t r).mono (fun _ _ h => h.trans h₁) fun _ _ h => h.trans h₁)
      fun _ w' h => Ends.pure ⟨rfl, h⟩
  refine Ends.bind (Ends.forIn (I := fun _ w' => w'.view = w.view) h₂ fun _ r _ w₁ _ h₁ => ?_)
    fun _ w₃ h₃ => ?_
  · exact Ends.bind
      ((unlockShared_ends t r).mono (fun _ _ h => h.trans h₁) fun _ _ h => h.1.trans h₁)
      fun _ w' h => Ends.pure ⟨rfl, h⟩
  rw [← h₃]
  exact stop_ends t _

end HostedLisp.Stm
