import HostedLisp.Proofs.Compiler.Agree
import Mathlib.Data.List.Induction
import Mathlib.Data.List.Nodup
import Mathlib.Logic.Function.Basic

/-!
# Swaps that race

A call of `swap` reads the state of an atom, works out the next one and puts it in its place. The
state that is there by then is not compared with the one that was read. So calls that take turns
lose each other's work, unless each puts its state in the place of the very one that it read.

- `Race`, `Race.step`, `Race.run`: calls of `swap` that take their steps in any order.
- `Race.run_alone`: a call that is not disturbed is `SessionM.atomSwap`.
- `Race.step_cases`: what one step can do.
- `Race.Lawful`: what can be said of the state of the atom after any steps, and of the calls that
  put it there.
- `Race.lawful_run`: every race is lawful; `compareAndSet` does not compare either.
-/

namespace HostedLisp

open SessionM List Function

/-! ## Races -/

/-- A call of `swap`: the function, and what it is passed after the state. -/
structure SwapCall where
  function : Value
  args : List Value := []

/-- How far a call has got. -/
inductive SwapStage where
  | waiting
  /-- The state has been read. -/
  | holding (seen : Value)
  /-- The next state has been worked out. -/
  | ready (seen new : Value)
  /-- The next state is in its place. -/
  | placed (new : Value)
  /-- The watches have been told. -/
  | done (new : Value)
  | failed (e : Error)

/-- A state that a call has put in the place of the one it had seen. -/
structure Put (ι : Type) where
  call : ι
  seen : Value
  new : Value

/-- Calls that take turns, and the states that they have put so far, the oldest first. -/
structure Race (ι : Type) where
  session : Session
  stages : ι → SwapStage := fun _ => .waiting
  puts : List (Put ι) := []

namespace Race

variable {ι : Type} [DecidableEq ι] {α : Type}

/-- A step of a call takes place in the session. -/
def advance (r : Race ι) (i : ι) (x : SessionM α) (next : α → SwapStage) : Race ι :=
  match x r.session with
  | .ok v s => { r with session := s, stages := update r.stages i (next v) }
  | .error e s => { r with session := s, stages := update r.stages i (.failed e) }

/-- The next step of a call. -/
def step [Calls] (a : Address) (calls : ι → SwapCall) (r : Race ι) (i : ι) : Race ι :=
  match r.stages i with
  | .waiting => r.advance i (atomState a) .holding
  | .holding seen => r.advance i (nextState a (calls i).function (calls i).args seen) (.ready seen)
  | .ready seen new =>
    { r.advance i (replaceState a seen new) fun _ => .placed new with
      puts := r.puts ++ [{ call := i, seen := seen, new := new }] }
  | .placed new => r.advance i (notify a) fun _ => .done new
  | .done _ | .failed _ => r

/-- Steps of calls in any order. -/
def run [Calls] (a : Address) (calls : ι → SwapCall) (schedule : List ι) (r : Race ι) : Race ι :=
  schedule.foldl (step a calls) r

end Race

/-! ## The steps in a session with an atom -/

namespace SessionM

/-- There is a certain atom at an address. -/
def HoldsAtom (a : Address) (x : Atom) (s : Session) : Prop := s.cells[a]? = some (.atom x)

/-- New cells get addresses of their own. -/
instance (a : Address) (x : Atom) : Lasting (HoldsAtom a x) where
  alloc {s} c h := by
    have hlt : a < s.cells.size := (Array.getElem?_eq_some_iff.mp h).1
    show (s.cells.push c)[a]? = _
    rw [Array.getElem?_push, if_neg (Nat.ne_of_lt hlt)]
    exact h
  frames _ h := h

variable {a : Address} {x : Atom} {s : Session}

section

variable (h : HoldsAtom a x s)

include h

theorem atomAt_eq : atomAt a s = .ok x s := by
  rw [atomAt, contentAt, bind_of_ok (fetch_of_some h)]
  rfl

theorem atomState_eq : atomState a s = .ok x.state s := by
  rw [atomState, bind_of_ok (atomAt_eq h)]
  rfl

/-- The watches of an atom are counted. Where there are any, telling them fails. -/
theorem notify_eq : notify a s =
    if x.watches.count < 0 then .error (.fault .value) s
    else if x.watches.count > 0 then .error (.fault .attribute) s
    else .ok () s := by
  rw [notify, bind_of_ok (atomAt_eq h), Value.tellWatches, Value.checkedLen]
  split
  next => rfl
  next =>
    rw [pure_bind]
    split <;> rfl

theorem updateAtom_eq (f : Atom → Atom) :
    ∃ s', updateAtom a f s = .ok () s' ∧ HoldsAtom a (f x) s' := by
  have hlt : a < s.cells.size := (Array.getElem?_eq_some_iff.mp h).1
  rw [updateAtom, bind_of_ok (atomAt_eq h)]
  exact ⟨_, rfl, Array.getElem?_setIfInBounds_self_of_lt hlt⟩

end

theorem keeps_notify (b : Address) : Keeps (HoldsAtom a x) (notify b) :=
  .bind (keeps_contentAt b _) fun _ => keeps_lift _

/-- No function that is called changes the atom at an address. -/
def LeavesAtom [Calls] (a : Address) : Prop :=
  ∀ (x : Atom) (f : Value) (args : List Value), Keeps (HoldsAtom a x) (Calls.call f args)

/-- The functions of the session change no atom. -/
theorem leavesAtom (a : Address) : LeavesAtom a := fun _ f args => keeps_apply f args

variable [Calls] (hcalls : LeavesAtom a)

include hcalls

theorem keeps_validate (validator v : Value) : Keeps (HoldsAtom a x) (validate validator v) := by
  unfold validate
  split
  · exact .pure _
  · refine .bind (hcalls x _ _) fun r => ?_
    split
    · exact .pure _
    · exact .throw _

theorem keeps_nextState (f : Value) (rest : List Value) (seen : Value) :
    Keeps (HoldsAtom a x) (nextState a f rest seen) :=
  .bind (hcalls x _ _) fun _ => .bind (keeps_contentAt a _) fun _ =>
    .bind (keeps_validate hcalls _ _) fun _ => .pure _

end SessionM

/-! ## Functions of the state -/

/-- A function makes a state of another one, in some session. -/
def SwapCall.Gives [Calls] (c : SwapCall) (seen new : Value) : Prop :=
  ∃ s s', Calls.call c.function (seen :: c.args) s = .ok new s'

/-- Steps of a call that leave the atom alone, if `state` is its state. -/
inductive SwapStage.Quiet [Calls] (c : SwapCall) (state : Value) :
    SwapStage → SwapStage → Prop where
  | read : Quiet c state .waiting (.holding state)
  | computed {seen new : Value} (h : c.Gives seen new) :
    Quiet c state (.holding seen) (.ready seen new)
  | refused (seen : Value) (e : Error) : Quiet c state (.holding seen) (.failed e)
  | told (new : Value) : Quiet c state (.placed new) (.done new)
  | untold (new : Value) (e : Error) : Quiet c state (.placed new) (.failed e)
  | stayedDone (new : Value) : Quiet c state (.done new) (.done new)
  | stayedFailed (e : Error) : Quiet c state (.failed e) (.failed e)

variable {c : SwapCall} {s : Session}

theorem SessionM.gives_of_nextState [Calls] {a : Address} {seen new : Value} {s' : Session}
    (h : nextState a c.function c.args seen s = .ok new s') : c.Gives seen new := by
  obtain ⟨v, s₁, happly, h⟩ := exists_of_bind_ok h
  obtain ⟨y, s₂, -, h⟩ := exists_of_bind_ok h
  obtain ⟨-, s₃, -, h⟩ := exists_of_bind_ok h
  obtain ⟨rfl, -⟩ := EStateM.Result.ok.inj h
  exact ⟨s, s₁, happly⟩

namespace Race

variable {ι : Type} {a : Address} {x : Atom} {calls : ι → SwapCall} {i : ι}

/-! ## What holds after any steps -/

section

variable (initial : Value) (puts : List (Put ι))

/-- The state that was put last. -/
def latest : Value := (puts.map (·.new)).getLastD initial

/-- Every put found the state that its call had seen. -/
def Undisturbed : Value → List (Put ι) → Prop
  | _, [] => True
  | v, p :: puts => p.seen = v ∧ Undisturbed p.new puts

/-- The states that there have been. -/
def states : List Value := initial :: puts.map (·.new)

theorem latest_concat (p : Put ι) : latest initial (puts ++ [p]) = p.new := by
  simp [latest]

theorem latest_mem_states : latest initial puts ∈ states initial puts := by
  cases puts using List.reverseRecOn with
  | nil => exact mem_cons_self
  | append_singleton puts p =>
    rw [latest_concat]
    simp [states]

end

/-- The atom has the state that was put last. Each call puts one state at most, which its function
has made of a state that there was; a call that is done has put the one it returns. -/
structure Lawful [Calls] (a : Address) (x : Atom) (calls : ι → SwapCall) (r : Race ι) : Prop where
  state : HoldsAtom a { x with state := latest x.state r.puts } r.session
  once : (r.puts.map (·.call)).Nodup
  applied : ∀ p ∈ r.puts, (calls p.call).Gives p.seen p.new
  seen : ∀ before p after, r.puts = before ++ p :: after → p.seen ∈ states x.state before
  done : ∀ i v, r.stages i = .done v → ∃ seen, { call := i, seen := seen, new := v } ∈ r.puts

/-- What is known of a call at a stage. -/
def StageSound [Calls] (c : SwapCall) (initial : Value) (puts : List (Put ι)) (i : ι) :
    SwapStage → Prop
  | .waiting => i ∉ puts.map (·.call)
  | .holding seen => i ∉ puts.map (·.call) ∧ seen ∈ states initial puts
  | .ready seen new => i ∉ puts.map (·.call) ∧ seen ∈ states initial puts ∧ c.Gives seen new
  | .placed new | .done new => ∃ seen, { call := i, seen := seen, new := new } ∈ puts
  | .failed _ => True

variable {initial : Value} {puts : List (Put ι)} [Calls]

/-- A quiet step of a call. -/
theorem StageSound.quiet {g g' : SwapStage} (h : StageSound c initial puts i g)
    (hquiet : SwapStage.Quiet c (latest initial puts) g g') : StageSound c initial puts i g' := by
  cases hquiet with
  | read => exact ⟨h, latest_mem_states _ _⟩
  | computed hgives => exact ⟨h.1, h.2, hgives⟩
  | refused => exact trivial
  | told => exact h
  | untold => exact trivial
  | stayedDone => exact h
  | stayedFailed => exact trivial

/-- A put of another call. -/
theorem StageSound.concat {g : SwapStage} (h : StageSound c initial puts i g)
    {p : Put ι} (hp : p.call ≠ i) : StageSound c initial (puts ++ [p]) i g := by
  have hcall (hi : i ∉ puts.map (·.call)) : i ∉ (puts ++ [p]).map (·.call) := by
    simpa using ⟨by simpa using hi, fun heq => hp heq.symm⟩
  have hseen {v : Value} (hv : v ∈ states initial puts) : v ∈ states initial (puts ++ [p]) := by
    simp only [states, map_append, ← cons_append]
    exact mem_append_left _ hv
  cases g with
  | waiting => exact hcall h
  | holding seen => exact ⟨hcall h.1, hseen h.2⟩
  | ready seen new => exact ⟨hcall h.1, hseen h.2.1, h.2.2⟩
  | placed | done => exact h.imp fun _ hmem => mem_append_left _ hmem
  | failed e => exact trivial

/-- What is kept up from step to step. -/
structure Sound (a : Address) (x : Atom) (calls : ι → SwapCall) (r : Race ι) : Prop
    extends Lawful a x calls r where
  stage : ∀ i, StageSound (calls i) x.state r.puts i (r.stages i)

theorem Sound.start (h : HoldsAtom a x s) (calls : ι → SwapCall) :
    Sound a x calls { session := s } where
  state := h
  once := nodup_nil
  applied _ hp := absurd hp not_mem_nil
  seen before p after h := by simp at h
  done i v h := by cases h
  stage i := not_mem_nil

/-! ## Calls that do not disturb each other -/

/-- Functions applied one after the other, each to what the one before has made. -/
inductive InTurn (calls : ι → SwapCall) : Value → List ι → Value → Prop where
  | nil (v : Value) : InTurn calls v [] v
  | cons {v w u : Value} {i : ι} {order : List ι} (h : (calls i).Gives v w)
    (hrest : InTurn calls w order u) : InTurn calls v (i :: order) u

theorem inTurn_of_undisturbed (hgives : ∀ p ∈ puts, (calls p.call).Gives p.seen p.new)
    (h : Undisturbed initial puts) :
    InTurn calls initial (puts.map (·.call)) (latest initial puts) := by
  induction puts generalizing initial with
  | nil => exact .nil initial
  | cons p puts ih =>
    obtain ⟨hseen, hrest⟩ := h
    have hlatest : latest initial (p :: puts) = latest p.new puts := by
      rw [latest, latest, map_cons, getLastD_cons]
    rw [hlatest, ← hseen]
    exact .cons (hgives p mem_cons_self) (ih (fun q hq => hgives q (mem_cons_of_mem p hq)) hrest)

end Race

/-! ## What one step does -/

namespace Race

variable {ι α : Type} [DecidableEq ι] {a : Address} {x : Atom} {calls : ι → SwapCall} {r : Race ι}
  {i : ι} {next : α → SwapStage}

theorem advance_of_ok {m : SessionM α} {v : α} (h : m r.session = .ok v s) : r.advance i m next
      = { r with session := s, stages := update r.stages i (next v) } := by
  rw [advance, h]

/-- A step that leaves the atom alone, whatever comes of it. -/
theorem advance_of_keeps {m : SessionM α} {P : SwapStage → Prop} (hm : Keeps (HoldsAtom a x) m)
    (h : HoldsAtom a x r.session) (hok : ∀ v s, m r.session = .ok v s → P (next v))
    (hfailed : ∀ e, P (.failed e)) :
    ∃ stage s, P stage ∧ HoldsAtom a x s ∧
      r.advance i m next = { r with session := s, stages := update r.stages i stage } := by
  have hkeeps := (hm r.session h).2
  rw [advance]
  cases hrun : m r.session with
  | ok v s =>
    rw [hrun] at hkeeps
    exact ⟨_, s, hok v s hrun, hkeeps, rfl⟩
  | error e s =>
    rw [hrun] at hkeeps
    exact ⟨_, s, hfailed e, hkeeps, rfl⟩

section

variable [Calls] (hcalls : LeavesAtom a)

include hcalls

/-- A step leaves the atom alone or puts the state that the call has worked out. -/
theorem step_cases (calls : ι → SwapCall) (i : ι) (h : HoldsAtom a x r.session) :
    (∃ stage s, SwapStage.Quiet (calls i) x.state (r.stages i) stage ∧ HoldsAtom a x s ∧
      step a calls r i = { r with session := s, stages := update r.stages i stage }) ∨
    ∃ seen new s, r.stages i = .ready seen new ∧ HoldsAtom a { x with state := new } s ∧
      step a calls r i =
        { session := s
          stages := update r.stages i (.placed new)
          puts := r.puts ++ [{ call := i, seen := seen, new := new }] } := by
  unfold step
  cases hstage : r.stages i with
  | waiting => exact .inl ⟨_, _, .read, h, advance_of_ok (atomState_eq h)⟩
  | holding seen =>
    exact .inl (advance_of_keeps (keeps_nextState hcalls _ _ seen) h
      (fun _ _ hnext => .computed (gives_of_nextState hnext)) (.refused seen))
  | ready seen new =>
    obtain ⟨s, hput, hs⟩ := updateAtom_eq h fun x => { x with state := new }
    refine .inr ⟨seen, new, s, rfl, hs, ?_⟩
    dsimp only
    rw [advance_of_ok (m := replaceState a seen new) hput]
  | placed new =>
    exact .inl (advance_of_keeps (keeps_notify a) h (fun _ _ _ => .told new) (.untold new))
  | done | failed =>
    have hsame := update_eq_self i r.stages
    rw [hstage] at hsame
    exact .inl ⟨_, r.session, by constructor, h, by rw [hsame]⟩

omit hcalls in
/-- One call goes on, the others stay where they are. -/
theorem stageSound_update {initial : Value} {puts : List (Put ι)} {g : SwapStage}
    (hown : StageSound (calls i) initial puts i g)
    (hothers : ∀ j ≠ i, StageSound (calls j) initial puts j (r.stages j)) (j : ι) :
    StageSound (calls j) initial puts j (update r.stages i g j) := by
  by_cases hj : j = i
  · subst hj
    rwa [update_self]
  · rw [update_of_ne hj]
    exact hothers j hj

theorem Sound.step (h : Sound a x calls r) (i : ι) : Sound a x calls (r.step a calls i) := by
  rcases step_cases hcalls calls i h.state with
    ⟨stage, s, hquiet, hs, heq⟩ | ⟨seen, new, s, hready, hs, heq⟩
  · rw [heq]
    have hstage := stageSound_update ((h.stage i).quiet hquiet) fun j _ => h.stage j
    refine ⟨⟨hs, h.once, h.applied, h.seen, fun j v hj => ?_⟩, hstage⟩
    have hdone := hstage j
    rwa [show update r.stages i stage j = .done v from hj] at hdone
  · rw [heq]
    have hown := h.stage i
    rw [hready] at hown
    obtain ⟨hnew, hseen, hgives⟩ := hown
    have hplaced : StageSound (calls i) x.state
        (r.puts ++ [{ call := i, seen := seen, new := new }]) i (.placed new) :=
      ⟨seen, mem_append_right _ (mem_singleton_self _)⟩
    have hstage := stageSound_update hplaced fun j hj => (h.stage j).concat (Ne.symm hj)
    refine ⟨⟨?_, ?_, ?_, ?_, fun j v hj => ?_⟩, hstage⟩
    · rw [latest_concat]
      exact hs
    · rw [map_append, nodup_append]
      refine ⟨h.once, nodup_singleton _, fun j hj k hk => ?_⟩
      obtain rfl : k = i := by simpa using hk
      exact fun hjk => hnew (hjk ▸ hj)
    · intro p hp
      rcases mem_append.mp hp with hp | hp
      · exact h.applied p hp
      · rw [mem_singleton.mp hp]
        exact hgives
    · intro before p after hsplit
      -- the put is the last one, or one from before
      cases after using List.reverseRecOn with
      | nil =>
        obtain ⟨rfl, hp⟩ := append_inj' hsplit rfl
        obtain rfl := singleton_inj.mp hp
        exact hseen
      | append_singleton after q =>
        rw [← cons_append, ← append_assoc] at hsplit
        exact h.seen before p after (append_inj' hsplit rfl).1
    · have hdone := hstage j
      rwa [show update r.stages i (.placed new) j = .done v from hj] at hdone

theorem Sound.run (h : Sound a x calls r) (schedule : List ι) :
    Sound a x calls (Race.run a calls schedule r) := by
  induction schedule generalizing r with
  | nil => exact h
  | cons i schedule ih => exact ih (h.step hcalls i)

end

/-- How far a call has got that has ended. -/
def outcome : EStateM.Result Error Session Value → SwapStage
  | .ok v _ => .done v
  | .error e _ => .failed e

/-- A call that takes its four steps in a row is a swap. -/
theorem run_alone [Calls] {args : List Value} (hstage : r.stages i = .waiting)
    (hargs : swapArgs args = .ok ((calls i).function, (calls i).args)) :
    (run a calls [i, i, i, i] r).session = finalState (atomSwap a args r.session) ∧
      (run a calls [i, i, i, i] r).stages i = outcome (atomSwap a args r.session) := by
  have hlift : lift (swapArgs args) r.session =
      .ok ((calls i).function, (calls i).args) r.session := by
    rw [hargs]
    rfl
  rw [atomSwap, bind_of_ok hlift]
  dsimp only
  cases hread : atomState a r.session with
  | error e s =>
    rw [bind_of_error hread]
    simp [run, step, hstage, advance, hread, outcome, finalState]
  | ok seen s =>
    rw [bind_of_ok hread]
    cases hnext : nextState a (calls i).function (calls i).args seen s with
    | error e s =>
      rw [bind_of_error hnext]
      simp [run, step, hstage, advance, hread, hnext, outcome, finalState]
    | ok new s =>
      rw [bind_of_ok hnext]
      cases hput : replaceState a seen new s with
      | error e s =>
        rw [bind_of_error hput]
        simp [run, step, hstage, advance, hread, hnext, hput, outcome, finalState]
      | ok u s =>
        rw [bind_of_ok hput]
        cases htell : notify a s with
        | error e s =>
          rw [bind_of_error htell]
          simp [run, step, hstage, advance, hread, hnext, hput, htell, outcome, finalState]
        | ok u s =>
          rw [bind_of_ok htell]
          simp [run, step, hstage, advance, hread, hnext, hput, htell, outcome, finalState]
          exact ⟨rfl, rfl⟩

end Race

/-! ## Compare and set -/

namespace SessionM

variable {a : Address} {x : Atom} {s s' : Session} [Calls] (hcalls : LeavesAtom a)

include hcalls

/-- A state that the validator refuses is not put. -/
theorem atomCompareAndSet_of_error (h : HoldsAtom a x s) (expected : Value) {v : Value} {e : Error}
    (hvalid : validate x.validator v s = .error e s') :
    atomCompareAndSet a expected v s = .error e s' ∧ HoldsAtom a x s' := by
  have hkeeps := (keeps_validate hcalls x.validator v s h).2
  rw [hvalid] at hkeeps
  have hput : atomPut a v s = .error e s' := by
    rw [atomPut, bind_of_ok (atomAt_eq h), bind_of_error hvalid]
  exact ⟨bind_of_error hput, hkeeps⟩

/-- Any other state is put, whatever state was expected, before the watches are told. -/
theorem atomCompareAndSet_of_ok (h : HoldsAtom a x s) (expected : Value) {v : Value}
    (hvalid : validate x.validator v s = .ok () s') :
    ∃ s'', HoldsAtom a { x with state := v } s'' ∧ atomCompareAndSet a expected v s =
      if x.watches.count < 0 then .error (.fault .value) s''
      else if x.watches.count > 0 then .error (.fault .attribute) s''
      else .ok (.bool true) s'' := by
  have hkeeps := (keeps_validate hcalls x.validator v s h).2
  rw [hvalid] at hkeeps
  change HoldsAtom a x s' at hkeeps
  obtain ⟨s'', hupdate, hs''⟩ := updateAtom_eq hkeeps fun x => { x with state := v }
  refine ⟨s'', hs'', ?_⟩
  have hput : atomPut a v s = notify a s'' := by
    rw [atomPut, bind_of_ok (atomAt_eq h), bind_of_ok hvalid, bind_of_ok hupdate]
  rw [notify_eq hs''] at hput
  split at hput
  next hnegative =>
    rw [if_pos hnegative]
    exact bind_of_error hput
  next hnegative =>
    rw [if_neg hnegative]
    split at hput
    next hwatched =>
      rw [if_pos hwatched]
      exact bind_of_error hput
    next hwatched =>
      rw [if_neg hwatched]
      exact bind_of_ok hput

end SessionM

namespace Race

variable {ι : Type} [DecidableEq ι] {a : Address} {x : Atom} {s : Session}

/-- Whatever the functions and the order of the steps, the atom ends with the state that was put
last. Where every put found the state that its call had seen, this is what all the functions make in
turn of the state at first. And `compareAndSet` puts its state whatever it expects, unless the
validator refuses it. -/
theorem lawful_run [Calls] (hcalls : LeavesAtom a) (h : HoldsAtom a x s) (calls : ι → SwapCall)
    (schedule : List ι) :
    Lawful a x calls (run a calls schedule { session := s }) ∧
    (Undisturbed x.state (run a calls schedule { session := s }).puts →
      InTurn calls x.state ((run a calls schedule { session := s }).puts.map (·.call))
        (latest x.state (run a calls schedule { session := s }).puts)) ∧
    ∀ expected v : Value,
      (∀ e s', validate x.validator v s = .error e s' →
        atomCompareAndSet a expected v s = .error e s' ∧ HoldsAtom a x s') ∧
      ∀ s', validate x.validator v s = .ok () s' →
        ∃ s'', HoldsAtom a { x with state := v } s'' ∧ atomCompareAndSet a expected v s =
          if x.watches.count < 0 then .error (.fault .value) s''
          else if x.watches.count > 0 then .error (.fault .attribute) s''
          else .ok (.bool true) s'' := by
  have hlawful := ((Sound.start h calls).run hcalls schedule).toLawful
  refine ⟨hlawful, inTurn_of_undisturbed hlawful.applied, fun expected v => ⟨?_, ?_⟩⟩
  · exact fun e s' => atomCompareAndSet_of_error hcalls h expected
  · exact fun s' => atomCompareAndSet_of_ok hcalls h expected

/-- An atom that counts. -/
def counter (n : Int) : Atom := { state := .int n }

/-- Two calls that add one each. -/
def increments : Bool → SwapCall := fun _ => { function := .primitive .inc }

/-- Two calls of which each reads the state before the other one puts any. -/
def bothRead : Race Bool :=
  run 0 increments [false, true, false, true, false, true, false, true]
    { session := { cells := #[.atom (counter 0)] } }

/-- Both calls have returned, and the counter has gone up by one only. It can be set to two by who
expects it to be five. -/
theorem lawful_run_bothRead :
    Lawful 0 (counter 0) increments bothRead ∧ bothRead.stages false = .done (.int 1) ∧
      bothRead.stages true = .done (.int 1) ∧ HoldsAtom 0 (counter 1) bothRead.session ∧
      ∃ s', HoldsAtom 0 (counter 2) s' ∧
        atomCompareAndSet 0 (.int 5) (.int 2) { cells := #[.atom (counter 0)] } =
          .ok (.bool true) s' := by
  have hcounter : HoldsAtom 0 (counter 0) { cells := #[.atom (counter 0)] } := rfl
  obtain ⟨hlawful, -, hset⟩ := lawful_run (leavesAtom 0) hcounter increments
    [false, true, false, true, false, true, false, true]
  refine ⟨hlawful, ?_, ?_, ?_, (hset (.int 5) (.int 2)).2 _ rfl⟩
  all_goals with_unfolding_all rfl

end Race

end HostedLisp
