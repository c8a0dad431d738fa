import HostedLisp.Proofs.Stm.Publishing
import Mathlib.Data.List.Induction

/-!
# Threads that take turns

Threads ask things of references, in transactions and outside, and take their steps in any order.

- `Doing`: what a thread is doing. `Threads`: a world and what its threads are doing.
- `Turn`, `Threads.step`, `Threads.run`: one step of a thread, and a whole schedule.
- `Goes`: what a thread is doing goes well. `Threads.Sound`: this is so for all threads.
- `Threads.Sound.step`, `Threads.Sound.run`: soundness along every schedule.
-/

namespace HostedLisp.Stm

open Course List

/-- What a thread is doing. -/
inductive Doing : Type 1 where
  /-- Nothing, outside of a transaction. -/
  | idle
  /-- Nothing, in a try. -/
  | ready
  /-- Asking something, in a try or outside. The world is that in which it was asked. -/
  | asking (q : Request) (inTry : Bool) (asked : World) (p : Course Value)
  | committing (p : Course Bool)
  /-- Ending a try. -/
  | finishing (p : Course Unit)

/-- Whether what a thread is doing leaves a reference as it is ensured. -/
def Doing.Leaves : Doing → Nat → Prop
  | .asking q _ _ _, r => q.writes → r ≠ q.ref
  | _, _ => True

theorem Doing.exists_leaves (d : Doing) : ∃ r, d.Leaves r := by
  cases d with
  | asking q inTry asked p => exact ⟨q.ref + 1, fun _ => Nat.succ_ne_self _⟩
  | idle | ready | committing | finishing => exact ⟨0, trivial⟩

/-- How a request of a thread ended, with the world in which it was asked and the worlds before and
after its last step. -/
structure Reply where
  thread : Nat
  request : Request
  asked : World
  before : World
  after : World
  outcome : Except Signal Value

/-- A world and its threads. -/
structure Threads : Type 1 where
  world : World
  doing : Nat → Doing := fun _ => .idle
  /-- How requests ended, the latest first. -/
  replies : List Reply := []
  /-- The tries that each thread has begun. -/
  begun : Nat → List Nat := fun _ => []

/-- What a thread may do next. -/
inductive Turn where
  /-- Begin a try, the first one of a transaction or another one. -/
  | begin (first : Bool)
  | ask (q : Request)
  | commit
  /-- End the try without a commit. -/
  | giveUp
  /-- Take a step of what it is doing. -/
  | go (c : Chance)

namespace Threads

/-- A thread does something else in another world. -/
def set (m : Threads) (t : Nat) (w : World) (d : Doing) : Threads :=
  { m with world := w, doing := Function.update m.doing t d }

/-- A thread begins a try. -/
def start (m : Threads) (t : Nat) (first : Bool) : Threads :=
  match Stm.begin t first m.world with
  | .ok _ w =>
    { m.set t w .ready with begun := Function.update m.begun t (m.world.tries.size :: m.begun t) }
  | .error _ _ => m

/-- A thread asks something. What was ever bound stays bound. -/
def pose (call : Caller) (m : Threads) (t : Nat) (q : Request) (inTry : Bool) : Threads :=
  if q.name = "unbind" then m else m.set t m.world (.asking q inTry m.world (askSteps call t q))

/-- A request of a thread ends. -/
def reply (m : Threads) (t : Nat) (q : Request) (inTry : Bool) (asked w : World)
    (outcome : Except Signal Value) : Threads :=
  { m.set t w (if inTry then .ready else .idle) with
    replies := ⟨t, q, asked, m.world, w, outcome⟩ :: m.replies }

/-- Whether a commit has succeeded. -/
def succeeded : Except Signal Bool → Bool
  | .ok b => b
  | .error _ => false

/-- A thread takes a step of what it is doing. -/
def go (m : Threads) (t : Nat) (c : Chance) : Threads :=
  match m.doing t with
  | .idle => m
  | .ready => m
  | .asking q inTry asked p =>
    match p.step c m.world with
    | .stuck => m
    | .on rest w => m.set t w (.asking q inTry asked rest)
    | .ended outcome w => m.reply t q inTry asked w outcome
  | .committing p =>
    match p.step c m.world with
    | .stuck => m
    | .on rest w => m.set t w (.committing rest)
    | .ended outcome w => m.set t w (.finishing (finishSteps t (succeeded outcome)))
  | .finishing p =>
    match p.step c m.world with
    | .stuck => m
    | .on rest w => m.set t w (.finishing rest)
    | .ended _ w => m.set t w .idle

/-- One step of a thread. What it cannot do now changes nothing. -/
def step (call : Caller) (m : Threads) (t : Nat) (turn : Turn) : Threads :=
  if m.world.txns.size ≤ t then m
  else
    match m.doing t, turn with
    | .idle, .begin first => m.start t first
    | .idle, .ask q => m.pose call t q false
    | .ready, .ask q => m.pose call t q true
    | .ready, .commit => m.set t m.world (.committing (commitSteps call t))
    | .ready, .giveUp => m.set t m.world (.finishing (finishSteps t false))
    | _, .go c => m.go t c
    | _, _ => m

section

variable (call : Caller) (m : Threads) (schedule : List (Nat × Turn))

/-- Threads take steps in any order. -/
def run : Threads := schedule.foldl (fun m e => m.step call e.1 e.2) m

theorem run_concat (e : Nat × Turn) :
    m.run call (schedule ++ [e]) = (m.run call schedule).step call e.1 e.2 := by
  unfold run
  rw [foldl_append]
  rfl

end

end Threads

/-! ## What is left behind -/

/-- How many shared holds of a reference a request has left behind. -/
def Reply.left (a : Reply) (r : Nat) : Nat :=
  match a.outcome with
  | .ok _ => 0
  | .error s => a.request.leaves s (fun _ => 0) r + lost a.thread a.before a.after r

/-- How many shared holds of a reference all requests of a thread have left behind. -/
def leftBehind (t : Nat) (replies : List Reply) (r : Nat) : Nat :=
  ((replies.filter (·.thread = t)).map (·.left r)).foldr (· + ·) 0

theorem Request.leaves_add (q : Request) (s : Signal) (k : Nat → Nat) (r : Nat) :
    q.leaves s k r = q.leaves s (fun _ => 0) r + k r := by
  unfold Request.leaves
  split
  · unfold plus
    split
    · exact Nat.add_comm (k r) 1
    · exact (Nat.zero_add _).symm
  · exact (Nat.zero_add _).symm

theorem leftBehind_cons (t : Nat) (a : Reply) (replies : List Reply) (r : Nat) :
    leftBehind t (a :: replies) r =
      (if a.thread = t then a.left r else 0) + leftBehind t replies r := by
  unfold leftBehind
  by_cases ha : a.thread = t
  · simp [ha]
  · simp [ha]

/-! ## The begin of a try -/

variable {call : Caller} {w w' : World} {g g' : Chronicle} {t u r : Nat} {mine : Stake}
  {own : Txn → Txn → Prop} {m m' : Threads} {X : Txn} {e h k : Nat → Nat} {F : Fact} {d : Doing}

/-- The world after a thread has begun a try. -/
def World.begun (w : World) (t : Nat) (first : Bool) : World :=
  let txns := w.txns.modify t fun x =>
    { x with readPoint := w.clock, start := if first then w.clock else x.start }
  { w with
    clock := w.clock + 1
    tries := w.tries.push { status := .running, start := (txns[t]?.getD {}).start }
    txns := txns.modify t fun x => { x with self := some w.tries.size } }

theorem begin_eq (w : World) (t : Nat) (first : Bool) :
    Stm.begin t first w = .ok () (w.begun t first) :=
  rfl

/-- A transaction in a new try. -/
def Txn.begun (X : Txn) (point i : Nat) (first : Bool) : Txn :=
  { X with readPoint := point, start := if first then point else X.start, self := some i }

theorem txn_begun (w : World) (first : Bool) :
    (w.begun t first).txn u =
      if t = u ∧ t < w.txns.size then (w.txn u).begun w.clock w.tries.size first else w.txn u := by
  simp only [World.begun, World.txn, Array.getElem?_modify]
  by_cases hu : t = u
  · subst hu
    by_cases ht : t < w.txns.size
    · simp [ht, Txn.begun]
    · simp [ht]
  · simp [hu]

theorem status_begun (w : World) (first : Bool) {i : Nat} (hi : i < w.tries.size) :
    (w.begun t first).status i = w.status i := by
  unfold World.status World.begun
  rw [Array.getElem?_push_lt hi, Array.getElem?_eq_getElem hi]

theorem fair_begin (hs : Sane w g) (first : Bool) :
    Fair t (fun _ _ => True) w (w.begun t first) g g := by
  refine ⟨{ Spares.refl t w g with
      threads := ?_, txn := fun u hu => ?_, clock := Nat.le_succ _, tries := ?_
      status := fun i hi _ => .inl (status_begun w first hi) }, { hs.tick with }, .inr trivial,
    fun _ _ => .inl⟩
  · show ((w.txns.modify t _).modify t _).size = _
    rw [Array.size_modify, Array.size_modify]
  · rw [txn_begun, if_neg fun hc => hu hc.1.symm]
  · show _ ≤ (w.tries.push _).size
    rw [Array.size_push]
    exact Nat.le_succ _

theorem Stance.begun (hat : At t mine X e h F w g) (hfree : X.self = none) (first : Bool) :
    At t ⟨w.tries.size :: mine.tries, mine.firm⟩ (X.begun w.clock w.tries.size first) e h F
      (w.begun t first) g := by
  have hsize : (w.begun t first).tries.size = w.tries.size + 1 := Array.size_push ..
  refine ⟨?_, ?_, hat.stands, hat.real, fun _ => Nat.lt_succ_self _, fun i hi => ?_, fun i hi => ?_,
    fun i hi hself => ?_, hat.backed, hat.fact⟩
  · show t < ((w.txns.modify t _).modify t _).size
    rw [Array.size_modify, Array.size_modify]
    exact hat.thread
  · rw [txn_begun, if_pos ⟨rfl, hat.thread⟩, hat.txn]
  · cases hi
    exact mem_cons_self
  · rw [hsize]
    rcases mem_cons.1 hi with rfl | hi
    · exact Nat.lt_succ_self _
    · exact Nat.lt_succ_of_lt (hat.known i hi)
  · rcases mem_cons.1 hi with rfl | hi
    · exact absurd rfl hself
    · rw [status_begun w first (hat.known i hi)]
      exact hat.settled i hi (by rw [hfree]; exact fun hc => by cases hc)

/-! ## Soundness -/

/-- What a thread is doing goes well. -/
def Goes (call : Caller) (t : Nat) (mine : Stake) (k : Nat → Nat) (w : World) (g : Chronicle) :
    Doing → Prop
  | .idle => Between t mine k .none w g ∧ (w.txn t).self = none
  | .ready => Between t mine k .none w g
  | .asking q inTry asked p =>
    Safe t mine (Keeping fun r => q.writes → r ≠ q.ref)
      (Granted call t mine k .none (asked.txn t) q)
      (Refused t mine k .none (asked.txn t) q) p w g ∧ (inTry = false → (w.txn t).self = none)
  | .committing p =>
    Safe t mine (Keeping fun _ => True) (fun _ => Closing t mine k .none)
      (fun _ _ => Closing t mine k .none) p w g
  | .finishing p =>
    Safe t mine.loose (Keeping fun _ => True)
      (fun _ w g => Between t mine k .none w g ∧ (w.txn t).self = none) (fun _ _ _ _ => False) p w g

theorem Between.bears {F : Fact} (h : Between t mine k F w g) (hb : Bears t mine w w' g g') :
    Between t mine k F w' g' := by
  obtain ⟨X, hX, hat⟩ := h
  exact ⟨X, hX, hat.bears hb⟩

theorem Goes.bears (h : Goes call t mine k w g d) (hs : Sane w g)
    (hb : Bears t mine w w' g g') : Goes call t mine k w' g' d := by
  cases d with
  | idle => exact ⟨h.1.bears hb, by rw [hb.txn]; exact h.2⟩
  | ready => exact Between.bears h hb
  | asking q inTry asked p => exact ⟨h.1.bears hs hb, fun hin => by rw [hb.txn]; exact h.2 hin⟩
  | committing p => exact Safe.bears h hs hb
  | finishing p => exact Safe.bears h hs { hb with }

/-- A try reads what was there at its read point, and fails only as it should. There are `n`
references. -/
structure Reply.Sound (call : Caller) (n : Nat) (a : Reply) (g : Chronicle) : Prop where
  refs : a.before.refs.size = n
  ok : ∀ v, a.outcome = .ok v → (a.asked.txn a.thread).self ≠ none →
    (a.asked.txn a.thread).values.lookup a.request.ref = none →
    a.request.Answers call (a.asked.txn a.thread) v g
  error : ∀ s, a.outcome = .error s → a.request.name = "deref" → a.request.args = [] →
    (a.asked.txn a.thread).self ≠ none → ReadFails a.thread a.request.ref s a.before a.after
  touched : ∀ v, a.outcome = .ok v → a.request.name = "touch" →
    a.request.ref ∈ (a.after.txn a.thread).ensures

theorem Reply.Sound.grows {n : Nat} {a : Reply} (h : a.Sound call n g)
    (hg : ∀ r, (g r).Grows (g' r)) : a.Sound call n g' := by
  refine ⟨h.refs, fun v hv hself hnone hreads => ?_, h.error, h.touched⟩
  obtain ⟨u, hu, hfrom⟩ := h.ok v hv hself hnone hreads
  exact ⟨u, hu.grows (hg _), hfrom⟩

theorem keeps_of_fair {P : Nat → Prop} (hfair : Fair t (Keeping P) w w' g g') (hr : P r) :
    Keeps r (w.txn t) (w'.txn t) := by
  rcases hfair.own with hsame | hown
  · rw [hsame]
    exact .refl r _
  · exact hown r hr

/-- A fair step keeps the try or ends it. -/
theorem self_of_fair (hfair : Fair t (Keeping d.Leaves) w w' g g') :
    (w'.txn t).self = none ∨ (w'.txn t).self = (w.txn t).self := by
  obtain ⟨r, hr⟩ := d.exists_leaves
  exact (keeps_of_fair hfair hr).imp_right And.left

namespace Threads

/-- What all threads are doing goes well, and no two threads have begun the same try. -/
structure Sound (call : Caller) (m : Threads) (g : Chronicle) : Prop where
  sane : Sane m.world g
  known : ∀ t, ∀ i ∈ m.begun t, i < m.world.tries.size
  apart : ∀ t u, t ≠ u → ∀ i ∈ m.begun t, i ∉ m.begun u
  selves : ∀ t i, (m.world.txn t).self = some i → i ∈ m.begun t
  goes : ∀ t, t < m.world.txns.size →
    Goes call t ⟨m.begun t, True⟩ (leftBehind t m.replies) m.world g (m.doing t)
  replies : ∀ a ∈ m.replies, a.Sound call m.world.refs.size g

variable (hm : m.Sound call g)

include hm

/-- A step of one thread leaves the others what they do. -/
theorem Sound.move (hspares : Spares t m.world m'.world g g') (hs : Sane m'.world g')
    (hdoing : ∀ u, u ≠ t → m'.doing u = m.doing u) (hbegun : ∀ u, u ≠ t → m'.begun u = m.begun u)
    (hleft : ∀ u, u ≠ t → leftBehind u m'.replies = leftBehind u m.replies)
    (hknown : ∀ i ∈ m'.begun t, i < m'.world.tries.size)
    (hnew : ∀ i ∈ m'.begun t, i ∈ m.begun t ∨ m.world.tries.size ≤ i)
    (hself : ∀ i, (m'.world.txn t).self = some i → i ∈ m'.begun t)
    (hgoes : t < m'.world.txns.size →
      Goes call t ⟨m'.begun t, True⟩ (leftBehind t m'.replies) m'.world g' (m'.doing t))
    (hreplies : ∀ a ∈ m'.replies, a.Sound call m'.world.refs.size g') : m'.Sound call g' := by
  -- a try of this thread is an old one of its own or was made just now
  have hfresh : ∀ u, u ≠ t → ∀ i ∈ m'.begun t, i ∉ m.begun u := by
    intro u hu i hi hc
    rcases hnew i hi with hold | hold
    · exact hm.apart t u (Ne.symm hu) i hold hc
    · exact absurd (hm.known u i hc) (Nat.not_lt.2 hold)
  refine ⟨hs, fun u i hi => ?_, fun u v huv i hi hc => ?_, fun u i hi => ?_, fun u hu => ?_,
    hreplies⟩
  · by_cases hut : u = t
    · exact hknown i (hut ▸ hi)
    · rw [hbegun u hut] at hi
      exact Nat.lt_of_lt_of_le (hm.known u i hi) hspares.tries
  · by_cases hut : u = t
    · have hvt : v ≠ t := fun hc => huv (hut.trans hc.symm)
      rw [hbegun v hvt] at hc
      exact hfresh v hvt i (hut ▸ hi) hc
    · rw [hbegun u hut] at hi
      by_cases hvt : v = t
      · exact hfresh u hut i (hvt ▸ hc) hi
      · rw [hbegun v hvt] at hc
        exact hm.apart u v huv i hi hc
  · by_cases hut : u = t
    · subst hut
      exact hself i hi
    · rw [hspares.txn u hut] at hi
      rw [hbegun u hut]
      exact hm.selves u i hi
  · by_cases hut : u = t
    · subst hut
      exact hgoes hu
    · rw [hdoing u hut, hbegun u hut, hleft u hut]
      refine (hm.goes u (hspares.threads ▸ hu)).bears hm.sane (hspares.bears hut fun i hi hc => ?_)
      exact hm.apart u t hut i hi (hm.selves t i hc)

/-- A thread has taken a step: all is sound again, the others are spared, what was added to the past
is to be seen, and what is ensured in a try that goes on stays so. -/
structure Passed (call : Caller) (t : Nat) (m m' : Threads) (g g' : Chronicle) : Prop where
  sound : m'.Sound call g'
  spares : Spares t m.world m'.world g g'
  shown : ∀ r, ∀ v ∈ (g' r).log, v ∈ (g r).log ∨
    ∃ y : Ref, m'.world.refs[r]? = some y ∧ v ∈ y.history
  doing : ∀ u, u ≠ t → m'.doing u = m.doing u
  begun : ∀ u, ∀ i ∈ m.begun u, i ∈ m'.begun u
  keeps : ∀ r i, (m.doing t).Leaves r → (m'.world.txn t).self = some i → i < m.world.tries.size →
    (m.world.txn t).self = some i ∧ Keeps r (m.world.txn t) (m'.world.txn t)
  replied : m'.replies = m.replies ∨ ∃ a, m'.replies = a :: m.replies ∧ a.thread = t ∧
    a.after = m'.world ∧ ∀ r, (m'.doing t).Leaves r

theorem Passed.refl (t : Nat) : Passed call t m m g g :=
  have hfair : Fair t (fun _ _ => True) m.world m.world g g := .refl hm.sane
  ⟨hm, hfair.spares, hfair.shown, fun _ _ => rfl, fun _ _ hi => hi,
    fun r _ _ hi _ => ⟨hi, .refl r _⟩, .inl rfl⟩

omit hm in
@[simp] theorem set_doing_self (m : Threads) (t : Nat) (w : World) (d : Doing) :
    (m.set t w d).doing t = d := Function.update_self ..

omit hm in
@[simp] theorem reply_doing_self (m : Threads) (t : Nat) (q : Request) (inTry : Bool)
    (asked w : World) (outcome : Except Signal Value) :
    (m.reply t q inTry asked w outcome).doing t = if inTry then .ready else .idle :=
  Function.update_self ..

omit hm in
theorem set_doing_of_ne (m : Threads) {t u : Nat} (w : World) (d : Doing) (h : u ≠ t) :
    (m.set t w d).doing u = m.doing u := Function.update_of_ne h ..

/-- A thread takes a fair step and goes on with something else. -/
theorem Sound.set (hfair : Fair t (Keeping (m.doing t).Leaves) m.world w' g g')
    (hgoes : Goes call t ⟨m.begun t, True⟩ (leftBehind t m.replies) w' g' d) :
    Passed call t m (m.set t w' d) g g' := by
  have hdoing : ∀ u, u ≠ t → (m.set t w' d).doing u = m.doing u :=
    fun u hu => m.set_doing_of_ne w' d hu
  refine ⟨hm.move hfair.spares hfair.sane hdoing (fun _ _ => rfl) (fun _ _ => rfl) (fun i hi => ?_)
    (fun i hi => .inl hi) (fun i hi => ?_) (fun _ => ?_) fun a ha => ?_, hfair.spares, hfair.shown,
    hdoing, fun _ _ hi => hi, fun r i hr hi _ => ?_, .inl rfl⟩
  · exact Nat.lt_of_lt_of_le (hm.known t i hi) hfair.spares.tries
  · rcases self_of_fair hfair with hnone | hsame
    · cases hnone.symm.trans hi
    · exact hm.selves t i (hsame ▸ hi)
  · rw [set_doing_self]
    exact hgoes
  · exact hfair.spares.refs ▸ (hm.replies a ha).grows hfair.spares.grows
  · exact ⟨(keeps_of_fair hfair hr).self hi, keeps_of_fair hfair hr⟩

variable {inTry : Bool} {q : Request}

/-- A request of a thread ends. -/
theorem Sound.reply {asked : World} {outcome : Except Signal Value}
    (hfair : Fair t (Keeping (m.doing t).Leaves) m.world w' g g')
    (hbetween : Between t ⟨m.begun t, True⟩
      (leftBehind t (⟨t, q, asked, m.world, w', outcome⟩ :: m.replies)) .none w' g')
    (hself : inTry = false → (m.world.txn t).self = none)
    (hsound : Reply.Sound call m.world.refs.size ⟨t, q, asked, m.world, w', outcome⟩ g') :
    Passed call t m (m.reply t q inTry asked w' outcome) g g' := by
  have hdoing : ∀ u, u ≠ t → (m.reply t q inTry asked w' outcome).doing u = m.doing u :=
    fun u hu => m.set_doing_of_ne w' _ hu
  refine ⟨hm.move hfair.spares hfair.sane hdoing (fun _ _ => rfl) (fun u hu => ?_) (fun i hi => ?_)
    (fun i hi => .inl hi) (fun i hi => ?_) (fun _ => ?_) fun a ha => ?_, hfair.spares, hfair.shown,
    hdoing, fun _ _ hi => hi, fun r i hr hi _ => ?_, .inr ⟨_, rfl, rfl, rfl, fun r => ?_⟩⟩
  · funext q
    show leftBehind u (_ :: m.replies) q = _
    rw [leftBehind_cons, if_neg (Ne.symm hu), Nat.zero_add]
  · exact Nat.lt_of_lt_of_le (hm.known t i hi) hfair.spares.tries
  · rcases self_of_fair hfair with hnone | hsame
    · cases hnone.symm.trans hi
    · exact hm.selves t i (hsame ▸ hi)
  · rw [reply_doing_self]
    cases inTry with
    | true => exact hbetween
    | false =>
      refine ⟨hbetween, ?_⟩
      rcases self_of_fair hfair with hnone | hsame
      · exact hnone
      · exact hsame.trans (hself rfl)
  · show a.Sound call w'.refs.size g'
    rw [hfair.spares.refs]
    rcases mem_cons.1 ha with rfl | ha
    · exact hsound
    · exact (hm.replies a ha).grows hfair.spares.grows
  · exact ⟨(keeps_of_fair hfair hr).self hi, keeps_of_fair hfair hr⟩
  · rw [reply_doing_self]
    cases inTry <;> trivial

section

variable (ht : t < m.world.txns.size)

include ht

/-- A step of a request. -/
theorem Sound.go_asking {asked : World} {p : Course Value}
    (hd : m.doing t = .asking q inTry asked p) (c : Chance) :
    ∃ g', Passed call t m (m.go t c) g g' := by
  have hgoes := hm.goes t ht
  rw [hd] at hgoes
  obtain ⟨hsafe, hself⟩ := hgoes
  have hmove := hsafe.step hm.sane c
  simp only [go, hd]
  cases hstep : p.step c m.world with
  | stuck => exact ⟨g, .refl hm t⟩
  | on rest w' =>
    rw [hstep] at hmove
    obtain ⟨g', hfair, hrest⟩ := hmove
    have hfair : Fair t (Keeping (m.doing t).Leaves) m.world w' g g' := by
      rw [hd]
      exact hfair
    refine ⟨g', hm.set hfair ⟨hrest, fun hin => ?_⟩⟩
    exact (self_of_fair hfair).elim id fun hsame => hsame.trans (hself hin)
  | ended outcome w' =>
    rw [hstep] at hmove
    cases outcome with
    | ok v =>
      obtain ⟨rfl, hgranted⟩ := hmove
      refine ⟨g, hm.reply (.refl hm.sane) ?_ hself ⟨rfl, ?_, ?_, ?_⟩⟩
      · have hsame : leftBehind t (⟨t, q, asked, m.world, m.world, .ok v⟩ :: m.replies) =
            leftBehind t m.replies := by
          funext q
          rw [leftBehind_cons, if_pos rfl]
          exact Nat.zero_add _
        rw [hsame]
        exact hgranted.between
      · intro u hu hself hnone
        cases hu
        exact hgranted.read hself hnone
      · exact fun s hs => by cases hs
      · exact fun _ _ => hgranted.touched
    | error s =>
      obtain ⟨g', hfair, hrefused⟩ := hmove
      have hfair : Fair t (Keeping (m.doing t).Leaves) m.world w' g g' := by
        rw [hd]
        exact hfair
      refine ⟨g', hm.reply hfair ?_ hself ⟨rfl, ?_, ?_, ?_⟩⟩
      · -- what the request leaves and what its try has lost is counted by its reply
        have hmore : leftBehind t (⟨t, q, asked, m.world, w', .error s⟩ :: m.replies) =
            fun r => q.leaves s (leftBehind t m.replies) r + lost t m.world w' r := by
          funext r
          rw [leftBehind_cons, if_pos rfl, Request.leaves_add]
          exact Nat.add_right_comm ..
        rw [hmore]
        exact hrefused.left
      · exact fun v hv => by cases hv
      · intro s' hs' hname hargs hself
        cases hs'
        exact hrefused.read hname hargs hself
      · exact fun v hv => by cases hv

/-- A step of a commit, or of the end of a try. -/
theorem Sound.go_closing {p : Course Bool} (hd : m.doing t = .committing p) (c : Chance) :
    ∃ g', Passed call t m (m.go t c) g g' := by
  have hsafe := hm.goes t ht
  rw [hd] at hsafe
  have hmove := Safe.step hsafe hm.sane c
  simp only [go, hd]
  cases hstep : p.step c m.world with
  | stuck => exact ⟨g, .refl hm t⟩
  | on rest w' =>
    rw [hstep] at hmove
    obtain ⟨g', hfair, hrest⟩ := hmove
    exact ⟨g', hm.set (hd ▸ hfair) hrest⟩
  | ended outcome w' =>
    rw [hstep] at hmove
    cases outcome with
    | ok b =>
      obtain ⟨rfl, hclosing⟩ := hmove
      exact ⟨g, hm.set (.refl hm.sane)
        (finishSteps_safe hclosing hm.sane)⟩
    | error s =>
      obtain ⟨g', hfair, hclosing⟩ := hmove
      exact ⟨g', hm.set (hd ▸ hfair) (finishSteps_safe hclosing hfair.sane)⟩

theorem Sound.go_finishing {p : Course Unit} (hd : m.doing t = .finishing p) (c : Chance) :
    ∃ g', Passed call t m (m.go t c) g g' := by
  have hsafe := hm.goes t ht
  rw [hd] at hsafe
  have hmove := Safe.step hsafe hm.sane c
  simp only [go, hd]
  cases hstep : p.step c m.world with
  | stuck => exact ⟨g, .refl hm t⟩
  | on rest w' =>
    rw [hstep] at hmove
    obtain ⟨g', hfair, hrest⟩ := hmove
    exact ⟨g', hm.set (hd ▸ hfair) hrest⟩
  | ended outcome w' =>
    rw [hstep] at hmove
    cases outcome with
    | ok u =>
      obtain ⟨rfl, hidle⟩ := hmove
      exact ⟨g, hm.set (.refl hm.sane) hidle⟩
    | error s =>
      obtain ⟨_, _, hfalse⟩ := hmove
      exact hfalse.elim

theorem Sound.go (c : Chance) : ∃ g', Passed call t m (m.go t c) g g' := by
  cases hd : m.doing t with
  | idle | ready =>
    simp only [Threads.go, hd]
    exact ⟨g, .refl hm t⟩
  | asking q inTry asked p => exact hm.go_asking ht hd c
  | committing p => exact hm.go_closing ht hd c
  | finishing p => exact hm.go_finishing ht hd c

/-- A thread begins a try of its own. -/
theorem Sound.start (hd : m.doing t = .idle) (first : Bool) :
    Passed call t m (m.start t first) g g := by
  have hgoes := hm.goes t ht
  rw [hd] at hgoes
  obtain ⟨⟨X, hX, hat⟩, hself⟩ := hgoes
  rw [hat.txn] at hself
  have hfair : Fair t (fun _ _ => True) m.world (m.world.begun t first) g g :=
    fair_begin hm.sane first
  have hbegun := hat.begun hself first
  have hstart : (m.start t first).begun t = m.world.tries.size :: m.begun t := by
    exact Function.update_self ..
  have hdoing : ∀ u, u ≠ t → (m.start t first).doing u = m.doing u := by
    intro u hu
    exact m.set_doing_of_ne (m.world.begun t first) .ready hu
  have hothers : ∀ u, u ≠ t → (m.start t first).begun u = m.begun u := by
    intro u hu
    exact Function.update_of_ne hu ..
  refine ⟨hm.move hfair.spares hfair.sane hdoing hothers (fun _ _ => rfl) (fun i hi => ?_)
    (fun i hi => ?_)
    (fun i hi => ?_) (fun _ => ?_) hm.replies, hfair.spares, hfair.shown, hdoing, fun u i hi => ?_,
    fun r i _ hi hlt => ?_, .inl rfl⟩
  · exact hbegun.known i (hstart ▸ hi)
  · rw [hstart] at hi
    rcases mem_cons.1 hi with rfl | hi
    · exact .inr (Nat.le_refl _)
    · exact .inl hi
  · rw [hstart]
    refine hbegun.self_mine i ?_
    rw [← hbegun.txn]
    exact hi
  · rw [hstart]
    show Goes call t _ _ _ g ((m.set t (m.world.begun t first) .ready).doing t)
    rw [set_doing_self]
    have hX' : Tidy (X.begun m.world.clock m.world.tries.size first) :=
      ⟨hX.locked, hX.covered, hX.nodup, fun hc => by cases hc⟩
    exact ⟨_, hX', hbegun⟩
  · by_cases hu : u = t
    · subst hu
      rw [hstart]
      exact mem_cons_of_mem _ hi
    · rw [hothers u hu]
      exact hi
  · have hself' : ((m.start t first).world.txn t).self = some m.world.tries.size :=
      congrArg Txn.self hbegun.txn
    cases hself'.symm.trans hi
    exact absurd hlt (Nat.lt_irrefl _)

end

theorem Sound.pose (hb : Between t ⟨m.begun t, True⟩ (leftBehind t m.replies) .none m.world g)
    (hself : inTry = false → (m.world.txn t).self = none) :
    Passed call t m (m.pose call t q inTry) g g := by
  unfold Threads.pose
  split
  · exact .refl hm t
  · next hbound =>
    obtain ⟨X, hX, hat⟩ := hb
    refine hm.set (.refl hm.sane) ⟨?_, hself⟩
    rw [hat.txn]
    exact askSteps_safe hat hm.sane hX hbound

/-- Every step of every thread is sound. -/
theorem Sound.step (t : Nat) (turn : Turn) : ∃ g', Passed call t m (m.step call t turn) g g' := by
  unfold Threads.step
  split
  · exact ⟨g, .refl hm t⟩
  next ht =>
  have ht : t < m.world.txns.size := Nat.lt_of_not_le ht
  have hgoes := hm.goes t ht
  split
  case h_1 first hd => exact ⟨g, hm.start ht hd first⟩
  case h_2 q hd =>
    rw [hd] at hgoes
    exact ⟨g, hm.pose hgoes.1 fun _ => hgoes.2⟩
  case h_3 q hd =>
    rw [hd] at hgoes
    exact ⟨g, hm.pose hgoes fun hc => by cases hc⟩
  case h_4 hd =>
    rw [hd] at hgoes
    obtain ⟨X, hX, hat⟩ := hgoes
    exact ⟨g, hm.set (.refl hm.sane) (commitSteps_safe hat hm.sane hX)⟩
  case h_5 hd =>
    rw [hd] at hgoes
    exact ⟨g, hm.set (.refl hm.sane) (finishSteps_safe (Between.closing hgoes) hm.sane)⟩
  case h_6 c => exact hm.go ht c
  -- a turn that does not fit what the thread does is let pass
  case h_7 => exact ⟨g, .refl hm t⟩

/-! ## Schedules -/

/-- A reference has had a version at some time of a schedule. -/
def EverHad (call : Caller) (m : Threads) (schedule : List (Nat × Turn)) (r : Nat) (v : Version) :
    Prop :=
  ∃ before, before.IsPrefix schedule ∧
    ∃ x : Ref, (m.run call before).world.refs[r]? = some x ∧ v ∈ x.history

omit hm in
theorem everHad_concat {schedule : List (Nat × Turn)} {e : Nat × Turn} {v : Version} :
    EverHad call m (schedule ++ [e]) r v ↔ EverHad call m schedule r v ∨
      ∃ x : Ref, (m.run call (schedule ++ [e])).world.refs[r]? = some x ∧ v ∈ x.history := by
  unfold EverHad
  constructor
  · rintro ⟨before, hbefore, hv⟩
    rcases prefix_concat_iff.1 hbefore with rfl | hbefore
    · exact .inr hv
    · exact .inl ⟨before, hbefore, hv⟩
  · rintro (⟨before, hbefore, hv⟩ | hv)
    · exact ⟨before, hbefore.trans (prefix_append ..), hv⟩
    · exact ⟨_, prefix_refl _, hv⟩

/-- Along every schedule all stays sound, and the past of a reference is all that it ever had. -/
theorem Sound.run
    (hlog : ∀ r v, v ∈ (g r).log → ∃ x : Ref, m.world.refs[r]? = some x ∧ v ∈ x.history)
    (schedule : List (Nat × Turn)) :
    ∃ g', (m.run call schedule).Sound call g' ∧
      (m.run call schedule).world.txns.size = m.world.txns.size ∧
      (m.run call schedule).world.refs.size = m.world.refs.size ∧
      ∀ r v, v ∈ (g' r).log ↔ EverHad call m schedule r v := by
  -- the last step is taken off, since a version may be seen after any step
  induction schedule using reverseRecOn with
  | nil =>
    refine ⟨g, hm, rfl, rfl, fun r v => ⟨fun hv => ⟨[], prefix_refl _, hlog r v hv⟩, ?_⟩⟩
    rintro ⟨before, hbefore, x, hx, hv⟩
    rw [prefix_nil.1 hbefore] at hx
    exact (hm.sane.kept r x hx).subset hv
  | append_singleton schedule e ih =>
    obtain ⟨g₁, hsound, hthreads, hrefs, hhad⟩ := ih
    obtain ⟨g₂, hpassed⟩ := hsound.step e.1 e.2
    rw [← run_concat] at hpassed
    refine ⟨g₂, hpassed.sound, hpassed.spares.threads.trans hthreads,
      hpassed.spares.refs.trans hrefs, fun r v => ?_⟩
    rw [everHad_concat, ← hhad r v]
    refine ⟨hpassed.shown r v, fun hv => ?_⟩
    rcases hv with hv | ⟨x, hx, hv⟩
    · obtain ⟨-, new, hnew, -⟩ := hpassed.spares.grows r
      rw [hnew]
      exact mem_append_right _ hv
    · exact (hpassed.sound.sane.kept r x hx).subset hv

end Threads

end HostedLisp.Stm
