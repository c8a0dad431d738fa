import HostedLisp.Proofs.Stm.Commit

/-!
# What a try has done so far

The writes of a try are replayed, one after the other, on the latest value of a reference. As long
as the try is not over, this gives the value that the try has for a reference it has taken, and for
any other reference the functions that are called again at the commit.

- `Write`, `replay`, `writesTo`: writes to references, and what they make of a value.
- `Working`: the invariant of a try that is not over.
- `Working.fresh`, `Working.saw`, `Working.write`, `Working.keep`: the steps of the try.
- `Kept`: references as they were, apart from who has taken them.
- `Working.frame`: the steps of others.
- `Working.renewed`: the commit of the try.
-/

namespace HostedLisp.Stm

open Function View List

variable {call : Caller} {t r i : Nat} {u : Value} {y : Ref}

/-! ## Writes -/

/-- A write to a reference: a new value, or a function that is called with the value of the
reference and further arguments. -/
inductive Write where
  | assign (u : Value)
  | apply (f args : Value)

/-- What a write makes of a value: the value that is set, or what the function gives if it is called
with the value before and the items of `args`. -/
def Write.run (call : Caller) : Write → Value → Except Error Value
  | .assign u, _ => .ok u
  | .apply f args, u => do
    let rest ← Value.walk (← args.seq)
    call f (u :: rest.toList)

theorem Write.run_apply (call : Caller) (f args u : Value) :
    (Write.apply f args).run call u = change call f args u := by
  simp only [Write.run, change, argumentsOf, bind_assoc, pure_bind]

/-- What writes make of a value, one after the other. -/
def replay (call : Caller) (writes : List Write) (u : Value) : Except Error Value :=
  writes.foldlM (fun u x => x.run call u) u

/-- The writes to a reference. -/
def writesTo (r : Nat) (log : List (Nat × Write)) : List Write :=
  log.filterMap fun p => if p.1 = r then some p.2 else none

theorem replay_concat {writes : List Write} {x : Write} {u u' : Value}
    (h : replay call writes u = .ok u') : replay call (writes ++ [x]) u = x.run call u' := by
  unfold replay at h ⊢
  rw [foldlM_append, h]
  show [x].foldlM (fun u (x : Write) => x.run call u) u' = _
  rw [foldlM_cons]
  cases x.run call u' <;> rfl

theorem writesTo_concat_self (log : List (Nat × Write)) (x : Write) :
    writesTo r (log ++ [(r, x)]) = writesTo r log ++ [x] := by
  unfold writesTo
  simp

theorem writesTo_concat_of_ne {q : Nat} (h : q ≠ r) (log : List (Nat × Write)) (x : Write) :
    writesTo q (log ++ [(r, x)]) = writesTo q log := by
  unfold writesTo
  simp [Ne.symm h]

/-! ## The invariant of a try -/

/-- What a try has done: its writes, and the reference that it has read last with the value that it
found. -/
structure Trail where
  writes : List (Nat × Write) := []
  seen : Option (Nat × Value) := none

/-- A further write of a try. -/
def Trail.write (trail : Trail) (r : Nat) (x : Write) : Trail where
  writes := trail.writes ++ [(r, x)]

/-- The try `i` is not over and has left a trail: its transaction is `x`, and it meets references at
the time `clock`. -/
structure Working (call : Caller) (trail : Trail) (i : Nat) (x : Txn) (ref : Nat → Option Ref)
    (clock : Nat) : Prop where
  before : x.readPoint < clock
  /-- No commit has the point at which the try began. -/
  between : ∀ r y, ref r = some y → ∀ ver ∈ y.history, ver.point ≠ x.readPoint
  taken : ∀ r ∈ x.sets, ∃ y u, ref r = some y ∧ y.owner = some i ∧
    y.changedSince x.readPoint = false ∧ writesTo r trail.writes ≠ [] ∧
    x.values.lookup r = some u ∧ replay call (writesTo r trail.writes) y.current = .ok u
  kept : ∀ r y, ref r = some y → r ∉ x.sets →
    writesTo r trail.writes = (x.changes r).map fun c => .apply c.1 c.2
  functions : ∀ r, x.commutes.lookup r ≠ some []
  values : ∀ r, (x.values.lookup r).isSome = true → r ∈ x.sets ∨ (x.commutes.lookup r).isSome = true
  nodupValues : (x.values.map (·.1)).Nodup
  nodupCommutes : (x.commutes.map (·.1)).Nodup
  /-- The value that was read is the latest one, with the own writes replayed, as long as nobody
  else has committed one. -/
  seen : ∀ r u, trail.seen = some (r, u) → x.commutes.lookup r = none → ∀ y, ref r = some y →
    y.changedSince x.readPoint = false → replay call (writesTo r trail.writes) y.current = .ok u

/-- Where nothing has been committed since a point, the latest value is that of the point. -/
theorem Ref.valueBefore_eq {x : Ref} {point : Nat}
    (hbetween : ∀ ver ∈ x.history, ver.point ≠ point) (hsame : x.changedSince point = false)
    (hu : x.valueBefore? point = some u) : u = x.current := by
  unfold Ref.changedSince at hsame
  unfold Ref.valueBefore? at hu
  unfold Ref.current
  cases hhist : x.history with
  | nil =>
    rw [hhist] at hu
    cases hu
  | cons ver older =>
    rw [hhist] at hbetween hsame hu
    have hlt : ver.point < point := by
      have hne := hbetween ver (mem_cons_self ..)
      have hle : ¬ver.point > point := of_decide_eq_false hsame
      omega
    rw [find?_cons_of_pos (by simpa using hlt)] at hu
    exact (Option.some.inj hu).symm

theorem Txn.changes_keep (x : Txn) (f args : Value) (q : Nat) :
    (x.keep r f args).changes q = if q = r then x.changes r ++ [(f, args)] else x.changes q := by
  unfold Txn.keep Txn.changes
  rw [lookup_insertAt]
  split <;> rfl

theorem Txn.lookup_keep (x : Txn) (f args : Value) (q : Nat) :
    (x.keep r f args).commutes.lookup q =
      if q = r then some (x.changes r ++ [(f, args)]) else x.commutes.lookup q := lookup_insertAt ..

namespace Working

variable {trail : Trail} {x : Txn} {ref ref' : Nat → Option Ref} {clock clock' : Nat}

/-- A try that has just begun. -/
theorem fresh (hpoints : ∀ r y, ref r = some y → ∀ ver ∈ y.history, ver.point < clock)
    (hpoint : x.readPoint = clock) (hvalues : x.values = []) (hsets : x.sets = [])
    (hcommutes : x.commutes = []) : Working call {} i x ref (clock + 1) where
  before := hpoint ▸ Nat.lt_succ_self _
  between r y hy ver hver := hpoint ▸ Nat.ne_of_lt (hpoints r y hy ver hver)
  taken r hr := by
    rw [hsets] at hr
    cases hr
  kept r y _ _ := by
    rw [Txn.changes, hcommutes]
    rfl
  functions r := by
    rw [hcommutes]
    exact fun h => nomatch h
  values r hr := by
    rw [hvalues] at hr
    cases hr
  nodupValues := hvalues ▸ Pairwise.nil
  nodupCommutes := hcommutes ▸ Pairwise.nil
  seen _ _ h := nomatch h

variable (h : Working call trail i x ref clock)

include h

/-- A reference that the try has not written to has no new value. -/
theorem lookup_eq_none (hr : r ∉ x.sets) (hfresh : x.commutes.lookup r = none) :
    x.values.lookup r = none := by
  refine Option.not_isSome_iff_eq_none.mp fun hsome => ?_
  rcases h.values r hsome with hmem | hcommute
  · exact hr hmem
  · rw [hfresh] at hcommute
    cases hcommute

/-- The writes so far can be replayed on a reference that has no functions for the commit. -/
theorem replays (hfresh : x.commutes.lookup r = none) (hy : ref r = some y) :
    ∃ u, replay call (writesTo r trail.writes) y.current = .ok u := by
  by_cases hr : r ∈ x.sets
  · obtain ⟨z, u, hz, -, -, -, -, hu⟩ := h.taken r hr
    obtain rfl := Option.some.inj (hy.symm.trans hz)
    exact ⟨u, hu⟩
  · refine ⟨y.current, ?_⟩
    rw [h.kept r y hy hr, Txn.changes, hfresh]
    rfl

/-- What the try reads is remembered with its trail. -/
theorem saw (hu : match x.values.lookup r with
      | some u' => u = u'
      | none => ∃ y, ref r = some y ∧ y.valueBefore? x.readPoint = some u) :
    Working call { trail with seen := some (r, u) } i x ref clock := by
  refine { h with seen := fun q u' hseen hfresh y hy hsame => ?_ }
  obtain ⟨rfl, rfl⟩ := Prod.mk.inj (Option.some.inj hseen)
  by_cases hr : r ∈ x.sets
  · obtain ⟨z, u'', hz, -, -, -, hvalue, hreplay⟩ := h.taken r hr
    obtain rfl := Option.some.inj (hy.symm.trans hz)
    rw [hvalue] at hu
    rw [hu]
    exact hreplay
  · rw [h.lookup_eq_none hr hfresh] at hu
    obtain ⟨z, hz, hbefore⟩ := hu
    obtain rfl := Option.some.inj (hy.symm.trans hz)
    rw [Ref.valueBefore_eq (h.between r y hy) hsame hbefore, h.kept r y hy hr, Txn.changes, hfresh]
    rfl

/-- The try has taken a reference and gives it a value that the new write leads to. -/
theorem write {a : Write} (hy : ref r = some y) (hsame : y.changedSince x.readPoint = false)
    (hu : replay call (writesTo r trail.writes ++ [a]) y.current = .ok u) (sets : List Nat)
    (hsets : ∀ q, q ∈ sets ↔ q ∈ x.sets ∨ q = r) :
    Working call (trail.write r a) i { x with sets := sets, values := insertAt r u x.values }
      (update ref r (some { y with owner := some i })) clock where
  before := h.before
  between q z hz ver hver := by
    by_cases hq : q = r
    · rw [hq, update_self] at hz
      obtain rfl := Option.some.inj hz
      exact h.between r y hy ver hver
    · rw [update_of_ne hq] at hz
      exact h.between q z hz ver hver
  taken q hq := by
    show ∃ z u', _ ∧ _ ∧ _ ∧ _ ∧ (insertAt r u x.values).lookup q = some u' ∧ _
    rw [lookup_insertAt]
    by_cases hqr : q = r
    · rw [if_pos hqr, hqr, update_self]
      refine ⟨_, u, rfl, rfl, hsame, ?_, rfl, ?_⟩
      · rw [Trail.write, writesTo_concat_self]
        simp
      · rw [Trail.write, writesTo_concat_self]
        exact hu
    · rw [if_neg hqr, update_of_ne hqr, Trail.write, writesTo_concat_of_ne hqr]
      exact h.taken q (((hsets q).mp hq).resolve_right hqr)
  kept q z hz hq := by
    have hnot : ¬(q ∈ x.sets ∨ q = r) := fun hc => hq ((hsets q).mpr hc)
    have hqr : q ≠ r := fun hc => hnot (.inr hc)
    rw [update_of_ne hqr] at hz
    rw [Trail.write, writesTo_concat_of_ne hqr]
    exact h.kept q z hz fun hc => hnot (.inl hc)
  functions := h.functions
  values q hq := by
    rw [lookup_insertAt] at hq
    by_cases hqr : q = r
    · exact .inl ((hsets q).mpr (.inr hqr))
    · rw [if_neg hqr] at hq
      exact (h.values q hq).imp_left fun hc => (hsets q).mpr (.inl hc)
  nodupValues := nodup_insertAt h.nodupValues
  nodupCommutes := h.nodupCommutes
  seen _ _ h := nomatch h

/-- A further function for a reference. If the reference was taken, its new value is that of the
function. -/
theorem keep {f args : Value} (values : List (Nat × Value))
    (hvalues : ∀ q, q ≠ r → values.lookup q = x.values.lookup q) (hnodup : (values.map (·.1)).Nodup)
    (hset : r ∈ x.sets → ∃ u u', x.values.lookup r = some u ∧ change call f args u = .ok u' ∧
      values.lookup r = some u') :
    Working call (trail.write r (.apply f args)) i { x.keep r f args with values := values } ref
      clock where
  before := h.before
  between := h.between
  taken q hq := by
    obtain ⟨y, u, hy, howner, hsame, hwrites, hu, hreplay⟩ := h.taken q hq
    by_cases hqr : q = r
    · obtain rfl := hqr
      obtain ⟨b, u', hb, hu', hvalue⟩ := hset hq
      obtain rfl := Option.some.inj (hu.symm.trans hb)
      refine ⟨y, u', hy, howner, hsame, ?_, hvalue, ?_⟩
      · rw [Trail.write, writesTo_concat_self]
        simp
      · rw [Trail.write, writesTo_concat_self, replay_concat hreplay]
        exact (Write.run_apply ..).trans hu'
    · refine ⟨y, u, hy, howner, hsame, ?_⟩
      rw [Trail.write, writesTo_concat_of_ne hqr]
      exact ⟨hwrites, (hvalues q hqr).trans hu, hreplay⟩
  kept q y hy hq := by
    show _ = map _ ((x.keep r f args).changes q)
    rw [Txn.changes_keep]
    by_cases hqr : q = r
    · obtain rfl := hqr
      rw [if_pos rfl, Trail.write, writesTo_concat_self, h.kept q y hy hq, map_append]
      rfl
    · rw [if_neg hqr, Trail.write, writesTo_concat_of_ne hqr]
      exact h.kept q y hy hq
  functions q := by
    show (x.keep r f args).commutes.lookup q ≠ _
    rw [Txn.lookup_keep]
    split
    · simp
    · exact h.functions q
  values q hq := by
    show _ ∨ ((x.keep r f args).commutes.lookup q).isSome = true
    rw [Txn.lookup_keep]
    by_cases hqr : q = r
    · rw [if_pos hqr]
      exact .inr rfl
    · rw [if_neg hqr]
      rw [hvalues q hqr] at hq
      exact h.values q hq
  nodupValues := hnodup
  nodupCommutes := nodup_insertAt h.nodupCommutes
  seen _ _ h := nomatch h

/-- A further function for a reference that was taken is not called at the commit. -/
theorem keep_taken (hr : r ∈ x.sets) (f args : Value) :
    Working call trail i (x.keep r f args) ref clock where
  before := h.before
  between := h.between
  taken := h.taken
  kept q y hy hq := by
    have hqr : q ≠ r := fun hc => hq (hc ▸ hr)
    rw [Txn.changes_keep, if_neg hqr]
    exact h.kept q y hy hq
  functions q := by
    rw [Txn.lookup_keep]
    split
    · simp
    · exact h.functions q
  values q hq := by
    by_cases hqr : q = r
    · exact .inl (hqr ▸ hr)
    · rw [Txn.lookup_keep, if_neg hqr]
      exact h.values q hq
  nodupValues := h.nodupValues
  nodupCommutes := nodup_insertAt h.nodupCommutes
  seen q u hseen hfresh := by
    rw [Txn.lookup_keep] at hfresh
    split at hfresh
    · cases hfresh
    · exact h.seen q u hseen hfresh

/-- Writes to a reference that is not there do not matter. -/
theorem write_absent (hr : ref r = none) (a : Write) :
    Working call (trail.write r a) i x ref clock := by
  have hne : ∀ {q y}, ref q = some y → q ≠ r := fun hy hc => nomatch (hc ▸ hr).symm.trans hy
  refine { h with
    taken := fun q hq => ?_, kept := fun q y hy hq => ?_, seen := fun _ _ h => nomatch h }
  · obtain ⟨y, u, hy, hrest⟩ := h.taken q hq
    refine ⟨y, u, hy, ?_⟩
    rw [Trail.write, writesTo_concat_of_ne (hne hy)]
    exact hrest
  · rw [Trail.write, writesTo_concat_of_ne (hne hy)]
    exact h.kept q y hy hq

end Working

/-! ## References as they were -/

variable {v v' : View}

/-- A reference that nobody has taken. -/
def Ref.unowned (x : Ref) : Ref := { x with owner := none }

/-- References are as they were, apart from who has taken them. -/
def Kept (v v' : View) : Prop := ∀ r, (v'.ref r).map Ref.unowned = (v.ref r).map Ref.unowned

theorem Kept.of_ref_eq (h : v'.ref = v.ref) : Kept v v' := fun r => by rw [h]

theorem Kept.symm (h : Kept v v') : Kept v' v := fun r => (h r).symm

theorem Kept.trans {v'' : View} (h : Kept v v') (h' : Kept v' v'') : Kept v v'' :=
  fun r => (h' r).trans (h r)

theorem Kept.exists_eq (h : Kept v v') {x : Ref} (hx : v.ref r = some x) :
    ∃ y, v'.ref r = some y ∧ y.history = x.history ∧ y.minHistory = x.minHistory ∧
      y.validator = x.validator := by
  have hr := h r
  rw [hx] at hr
  obtain ⟨y, hy, heq⟩ := Option.map_eq_some_iff.mp hr
  obtain ⟨hhistory, -, -, hminHistory, -, hvalidator, -⟩ := Ref.mk.inj heq
  exact ⟨y, hy, hhistory, hminHistory, hvalidator⟩

theorem Wrote.frame (h : Wrote t r i u v v') :
    (v'.txn t).self = (v.txn t).self ∧ v'.status i = v.status i ∧ v'.clock = v.clock := by
  obtain ⟨-, -, v₁, hv₁, rfl⟩ := h
  split at hv₁
  · subst hv₁
    exact ⟨by rw [changeTxn_txn_self], rfl, rfl⟩
  · obtain ⟨x, status, -, -, hkills, -, rfl⟩ := hv₁
    refine ⟨by simp [changeTxn, changeRef], ?_, rfl⟩
    rcases hkills i with hsame | ⟨hne, -⟩
    · exact hsame
    · exact absurd rfl hne

theorem Wrote.kept (h : Wrote t r i u v v') : Kept v v' := by
  obtain ⟨-, -, v₁, hv₁, rfl⟩ := h
  split at hv₁
  · subst hv₁
    exact .of_ref_eq rfl
  · obtain ⟨x, status, hx, -, -, -, rfl⟩ := hv₁
    intro q
    by_cases hq : q = r
    · rw [hq, changeTxn_ref, changeRef_ref_self, Option.map_map]
      rfl
    · rw [changeTxn_ref, changeRef_ref_of_ne hq]
      rfl

/-! ## The steps of the try -/

namespace Working

variable {trail : Trail}

theorem begun (hpoints : ∀ r y, v.ref r = some y → ∀ ver ∈ y.history, ver.point < v.clock)
    (hself : (v.txn t).self = none) (hresting : (v.txn t).Resting) (first : Bool) :
    Working call {} i ((v.begun t first).txn t) (v.begun t first).ref (v.begun t first).clock := by
  obtain ⟨hvalues, hsets, hcommutes⟩ := hresting hself
  have htxn : (v.begun t first).txn t = { v.txn t with
      readPoint := v.clock
      start := if first then (v.clock : Int) else (v.txn t).start
      self := some v.tries } := update_self ..
  rw [htxn]
  exact fresh hpoints rfl hvalues hsets hcommutes

variable (h : Working call trail i (v.txn t) v.ref v.clock)

include h

theorem wrote {a : Write} (hwrote : Wrote t r i u v v')
    (hu : ∀ y, v.ref r = some y → y.changedSince (v.txn t).readPoint = false →
      replay call (writesTo r trail.writes ++ [a]) y.current = .ok u) :
    Working call (trail.write r a) i (v'.txn t) v'.ref v'.clock := by
  obtain ⟨-, hfresh, v₁, hv₁, rfl⟩ := hwrote
  rw [changeTxn_txn_self]
  by_cases hr : r ∈ (v.txn t).sets
  · rw [if_pos hr] at hv₁
    subst hv₁
    obtain ⟨y, -, hy, howner, hsame, -⟩ := h.taken r hr
    have hwritten := h.write hy hsame (hu y hy hsame) (v₁.txn t).sets
      fun q => ⟨.inl, fun hq => hq.elim id fun hqr => hqr ▸ hr⟩
    rwa [← howner, ← hy, update_eq_self] at hwritten
  · rw [if_neg hr] at hv₁
    obtain ⟨y, status, hy, hsame, -, -, rfl⟩ := hv₁
    rw [changeTxn_ref] at hy
    rw [changeTxn_txn_self] at hsame
    have hwritten := h.write hy hsame (hu y hy hsame) ((v.txn t).sets ++ [r])
      fun q => by simp
    have href : update v.ref r (some { y with owner := some i }) =
        update v.ref r ((v.ref r).map fun z => { z with owner := some i }) := by
      rw [hy]
      rfl
    rw [href] at hwritten
    simpa [changeTxn, changeRef] using hwritten

/-- A value is set. -/
theorem assigned (hwrote : Wrote t r i u v v') :
    Working call (trail.write r (.assign u)) i (v'.txn t) v'.ref v'.clock := by
  refine h.wrote hwrote fun y hy _ => ?_
  obtain ⟨u', hu'⟩ := h.replays hwrote.fresh hy
  rw [replay_concat hu']
  rfl

/-- A function is called with the value that was read. -/
theorem altered {f args u u' : Value} (hseen : trail.seen = some (r, u))
    (hchange : change call f args u = .ok u') (hwrote : Wrote t r i u' v v') :
    Working call (trail.write r (.apply f args)) i (v'.txn t) v'.ref v'.clock := by
  refine h.wrote hwrote fun y hy hsame => ?_
  rw [replay_concat (h.seen r u hseen hwrote.fresh y hy hsame)]
  exact (Write.run_apply ..).trans hchange

/-- A function is called now and again at the commit. -/
theorem commuted {f args u : Value} (hcommuted : Commuted call t r f args u v v') :
    Working call (trail.write r (.apply f args)) i (v'.txn t) v'.ref v'.clock := by
  obtain ⟨-, base, hbase, hchange, rfl⟩ := hcommuted
  rw [changeTxn_txn_self]
  refine h.keep (insertAt r u (v.txn t).values) (fun q hq => ?_) (nodup_insertAt h.nodupValues)
    fun hr => ?_
  · rw [lookup_insertAt, if_neg hq]
  · obtain ⟨-, b, -, -, -, -, hb, -⟩ := h.taken r hr
    unfold Base at hbase
    rw [hb] at hbase
    subst hbase
    exact ⟨base, u, hb, hchange, by rw [lookup_insertAt, if_pos rfl]⟩

/-- A function whose call has failed is called again at the commit, unless the reference was
taken. -/
theorem keptOnly {f args : Value} (hkept : KeptOnly t r f args v v') :
    Working call (if r ∈ (v.txn t).sets then trail else trail.write r (.apply f args)) i (v'.txn t)
      v'.ref v'.clock := by
  obtain ⟨-, base, -, rfl⟩ := hkept
  rw [changeTxn_txn_self]
  by_cases hr : r ∈ (v.txn t).sets
  · obtain ⟨-, b, -, -, -, -, hb, -⟩ := h.taken r hr
    have hfill : (v.txn t).fill r base = v.txn t := by
      unfold Txn.fill
      rw [hb]
      rfl
    rw [if_pos hr, hfill]
    exact h.keep_taken hr f args
  · rw [if_neg hr]
    refine h.keep ((v.txn t).fill r base).values (fun q hq => ?_) ?_ fun hc => absurd hc hr
    · unfold Txn.fill
      split
      · rw [lookup_insertAt, if_neg hq]
      · rfl
    · unfold Txn.fill
      split
      · exact nodup_insertAt h.nodupValues
      · exact h.nodupValues

end Working

/-! ## The steps of others -/

/-- What others do to a reference: they commit a value at the time `clock`, or they leave the
history as it is. -/
def Ref.Moved (clock : Nat) (x y : Ref) : Prop :=
  y.history = x.history ∨
    ∃ u older, older <+: x.history ∧ y.history = (⟨u, clock⟩ : Version) :: older

theorem Ref.changedSince_congr {x y : Ref} (h : y.history = x.history) (point : Nat) :
    y.changedSince point = x.changedSince point := by
  unfold Ref.changedSince
  rw [h]

theorem Ref.current_congr {x y : Ref} (h : y.history = x.history) : y.current = x.current := by
  unfold Ref.current
  rw [h]

namespace Working

variable {trail : Trail} {x : Txn} {ref ref' : Nat → Option Ref} {clock clock' : Nat}

/-- Others leave a try as it is if they leave alone what it has taken. -/
theorem frame (h : Working call trail i x ref clock) (hclock : clock ≤ clock')
    (hmoved : ∀ r y', ref' r = some y' → ∃ y, ref r = some y ∧ y.Moved clock y')
    (htaken : ∀ r ∈ x.sets, ∀ y, ref r = some y → ∃ y', ref' r = some y' ∧
      y'.owner = y.owner ∧ y'.history = y.history) : Working call trail i x ref' clock' where
  before := Nat.lt_of_lt_of_le h.before hclock
  between r y' hy' ver hver := by
    obtain ⟨y, hy, hsame | ⟨u, older, hinitial, hnew⟩⟩ := hmoved r y' hy'
    · exact h.between r y hy ver (hsame ▸ hver)
    · rw [hnew] at hver
      rcases mem_cons.mp hver with rfl | hver
      · exact Nat.ne_of_gt h.before
      · exact h.between r y hy ver (hinitial.subset hver)
  taken r hr := by
    obtain ⟨y, u, hy, howner, hsame, hrest⟩ := h.taken r hr
    obtain ⟨y', hy', howner', hhistory⟩ := htaken r hr y hy
    refine ⟨y', u, hy', howner'.trans howner, ?_⟩
    rw [Ref.changedSince_congr hhistory, Ref.current_congr hhistory]
    exact ⟨hsame, hrest⟩
  kept r y' hy' hr := by
    obtain ⟨y, hy, -⟩ := hmoved r y' hy'
    exact h.kept r y hy hr
  functions := h.functions
  values := h.values
  nodupValues := h.nodupValues
  nodupCommutes := h.nodupCommutes
  seen r u hseen hfresh y' hy' hunchanged := by
    obtain ⟨y, hy, hsame | ⟨u', older, -, hnew⟩⟩ := hmoved r y' hy'
    · rw [Ref.changedSince_congr hsame] at hunchanged
      rw [Ref.current_congr hsame]
      exact h.seen r u hseen hfresh y hy hunchanged
    · -- a value that was committed meanwhile is newer than the try
      unfold Ref.changedSince at hunchanged
      rw [hnew] at hunchanged
      exact absurd h.before (of_decide_eq_false hunchanged)

end Working

/-! ## The commit -/

theorem replay_apply (changes : List (Value × Value)) (u : Value) :
    replay call (changes.map fun c => .apply c.1 c.2) u =
      changes.foldlM (fun u (f, args) => change call f args u) u := by
  unfold replay
  simp only [foldlM_map, Write.run_apply]

/-- The commit of a try offers a reference what the writes of the try make of its latest value. -/
theorem Working.offer_eq {trail : Trail}
    (h : Working call trail i (v.txn t) v.ref v.clock) (hy : v.ref r = some y) :
    v.offer call t (v.txn t).commutes r =
      if writesTo r trail.writes = [] then .ok none
      else (replay call (writesTo r trail.writes) y.current).map some := by
  unfold offer
  by_cases hr : r ∈ (v.txn t).sets
  · obtain ⟨z, u, hz, -, -, hwrites, hvalue, hreplay⟩ := h.taken r hr
    obtain rfl := Option.some.inj (hy.symm.trans hz)
    rw [if_pos hr, if_neg hwrites, hvalue, hreplay]
    rfl
  · have hkept := h.kept r y hy hr
    rw [if_neg hr]
    cases hlookup : (v.txn t).commutes.lookup r with
    | none =>
      rw [Txn.changes, hlookup, Option.getD_none, map_nil] at hkept
      rw [if_pos hkept, h.lookup_eq_none hr hlookup]
    | some changes =>
      have hne : changes ≠ [] := fun hc => h.functions r (hc ▸ hlookup)
      rw [Txn.changes, hlookup, Option.getD_some] at hkept
      rw [hkept, if_neg (by simpa using hne), replay_apply, current, hy]
      rfl

/-- A reference with writes gets a new value that its validator accepts, and the others stay as they
are. -/
theorem Working.renewed {trail : Trail}
    (h : Working call trail i (v.txn t) v.ref v.clock) (hcommitted : Committed call t i v v')
    (hy : v.ref r = some y) :
    if writesTo r trail.writes = [] then v'.ref r = some y
    else ∃ u older, replay call (writesTo r trail.writes) y.current = .ok u ∧
      Accepts call y.validator u ∧ older <+: y.history ∧
      v'.ref r = some { y with history := ⟨u, v.clock⟩ :: older } := by
  obtain ⟨new, hoffer, hrenewed, hvalid⟩ := hcommitted.ref r
  rw [h.offer_eq hy] at hoffer
  split at hoffer
  · next hwrites =>
    obtain rfl := Except.ok.inj hoffer
    rw [if_pos hwrites]
    exact hrenewed.trans hy
  · next hwrites =>
    rw [if_neg hwrites]
    cases hreplay : replay call (writesTo r trail.writes) y.current with
    | error e =>
      rw [hreplay] at hoffer
      cases hoffer
    | ok u =>
      rw [hreplay] at hoffer
      obtain rfl := Except.ok.inj hoffer
      obtain ⟨z, older, hz, hinitial, hnew⟩ := hrenewed
      obtain rfl := Option.some.inj (hy.symm.trans hz)
      exact ⟨u, older, rfl, hvalid u rfl y hy, hinitial, hnew⟩

end HostedLisp.Stm
