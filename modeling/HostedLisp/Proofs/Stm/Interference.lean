import HostedLisp.Proofs.Lock.Operations
import HostedLisp.Proofs.Stm.Steps

/-!
# Threads that act between the steps of others

A course is safe if it goes well whatever other threads do between its steps, and if its own steps
leave to the others what they rely on.

- `Past`: all values that a reference ever had, and up to which point they are final. `Sane`: the
  world fits the past of its references, and its locks are lawful.
- `Spares`: what a step of a thread leaves to the others. `Bears`: what a thread relies on, however
  many steps others take.
- `Safe`: a course goes well among other threads.
- `Safe.bind`, `Safe.each`, `Safe.act`: courses one after the other, loops and single steps.
-/

namespace HostedLisp.Stm

variable {α β : Type} {w w' w'' : World} {t u r : Nat}

/-! ## The past of references -/

/-- What was ever committed to a reference, newest first, and the greatest point at which it was
read: what was committed before that point is final. -/
structure Past where
  log : List Version
  floor : Nat

/-- Values are only added, and none before the point up to which values are final. -/
def Past.Grows (p p' : Past) : Prop :=
  p.floor ≤ p'.floor ∧ ∃ new, p'.log = new ++ p.log ∧ ∀ v ∈ new, p.floor < v.point

theorem Past.Grows.refl (p : Past) : p.Grows p :=
  ⟨Nat.le_refl _, [], rfl, fun _ h => absurd h (by simp)⟩

theorem Past.Grows.trans {p p' p'' : Past} (h : p.Grows p') (h' : p'.Grows p'') : p.Grows p'' := by
  obtain ⟨hfloor, new, hlog, hnew⟩ := h
  obtain ⟨hfloor', new', hlog', hnew'⟩ := h'
  refine ⟨Nat.le_trans hfloor hfloor', new' ++ new, ?_, fun v hv => ?_⟩
  · rw [hlog', hlog, List.append_assoc]
  · rcases List.mem_append.1 hv with hv | hv
    · exact Nat.lt_of_le_of_lt hfloor (hnew' v hv)
    · exact hnew v hv

/-- The pasts of all references. -/
abbrev Chronicle := Nat → Past

/-- Locks are lawful, and each reference still has the newest part of its past, which is in the
order of points that were taken. -/
structure Sane (w : World) (g : Chronicle) : Prop where
  lawful : ∀ (r : Nat) (x : Ref), w.refs[r]? = some x → x.lock.Lawful
  bound : ∀ (r : Nat) (x : Ref), w.refs[r]? = some x → x.history ≠ []
  kept : ∀ (r : Nat) (x : Ref), w.refs[r]? = some x → x.history.IsPrefix (g r).log
  falling : ∀ r, (g r).log.Pairwise fun v v' => v'.point < v.point
  below : ∀ r, ∀ v ∈ (g r).log, v.point < w.clock
  floor_lt : ∀ r, (g r).floor < w.clock

variable {g g' g'' : Chronicle}

/-! ## What threads leave to one another -/

/-- What a step of a thread leaves to the others. Only who owns a lock adds to the past of its
reference, and no step brings the try of another thread back to life. -/
structure Spares (t : Nat) (w w' : World) (g g' : Chronicle) : Prop where
  refs : w'.refs.size = w.refs.size
  threads : w'.txns.size = w.txns.size
  txn : ∀ u, u ≠ t → w'.txn u = w.txn u
  clock : w.clock ≤ w'.clock
  tries : w.tries.size ≤ w'.tries.size
  locks : ∀ (r : Nat) (x : Ref), w.refs[r]? = some x → ∃ y : Ref, w'.refs[r]? = some y ∧
    ∀ u, u ≠ t → (x.lock.standing u).Kept (y.lock.standing u)
  past : ∀ r, g' r = g r ∨ HoldsLock t r w
  grows : ∀ r, (g r).Grows (g' r)
  status : ∀ i, i < w.tries.size → (w.txn t).self ≠ some i →
    w'.status i = w.status i ∨ w'.status i = .killed

/-- What a thread cares for: the tries it has begun, and whether it keeps the holds of what it has
ensured. -/
structure Stake where
  tries : List Nat
  firm : Prop

/-- What a thread relies on while others act. -/
structure Bears (t : Nat) (mine : Stake) (w w' : World) (g g' : Chronicle) : Prop where
  refs : w'.refs.size = w.refs.size
  threads : w'.txns.size = w.txns.size
  txn : w'.txn t = w.txn t
  clock : w.clock ≤ w'.clock
  tries : w.tries.size ≤ w'.tries.size
  locks : ∀ (r : Nat) (x : Ref), w.refs[r]? = some x → ∃ y : Ref, w'.refs[r]? = some y ∧
    (x.lock.standing t).Kept (y.lock.standing t)
  past : ∀ r, HoldsLock t r w → g' r = g r
  grows : ∀ r, (g r).Grows (g' r)
  status : ∀ i ∈ mine.tries, i < w.tries.size → w'.status i = w.status i ∨ w'.status i = .killed

variable {mine : Stake}

theorem Bears.refl (t : Nat) (mine : Stake) (w : World) (g : Chronicle) : Bears t mine w w g g :=
  ⟨rfl, rfl, rfl, Nat.le_refl _, Nat.le_refl _, fun _ x hx => ⟨x, hx, .refl _⟩, fun _ _ => rfl,
    fun _ => .refl _, fun _ _ _ => .inl rfl⟩

/-- A thread that owns a lock goes on to own it. -/
theorem Bears.holdsLock (h : Bears t mine w w' g g') (hown : HoldsLock t r w)
    (hsane : Sane w g) : HoldsLock t r w' := by
  obtain ⟨x, hx, howner⟩ := hown
  obtain ⟨y, hy, hexclusive, -, hticket⟩ := h.locks r x hx
  have hsound := (hsane.lawful r x hx).toSound
  rw [SharedLock.standing_of_owner hsound howner] at hexclusive hticket
  refine ⟨y, hy, SharedLock.owner_of_exclusive (by simpa using hticket) ?_⟩
  rw [hexclusive]
  exact Int.ne_of_gt (hsound.owner_pos t howner)

theorem Bears.trans (h : Bears t mine w w' g g') (h' : Bears t mine w' w'' g' g'')
    (hsane : Sane w g) : Bears t mine w w'' g g'' := by
  refine ⟨h'.refs.trans h.refs, h'.threads.trans h.threads, h'.txn.trans h.txn,
    Nat.le_trans h.clock h'.clock, Nat.le_trans h.tries h'.tries, fun r x hx => ?_, fun r hr => ?_,
    fun r => (h.grows r).trans (h'.grows r), fun i hi hlt => ?_⟩
  · obtain ⟨y, hy, hkept⟩ := h.locks r x hx
    obtain ⟨z, hz, hkept'⟩ := h'.locks r y hy
    exact ⟨z, hz, hkept.trans hkept'⟩
  · exact (h'.past r (h.holdsLock hr hsane)).trans (h.past r hr)
  · rcases h'.status i hi (Nat.lt_of_lt_of_le hlt h.tries) with hs | hs
    · rw [hs]
      exact h.status i hi hlt
    · exact .inr hs

/-- A thread bears the steps of every other thread. -/
theorem Spares.bears (h : Spares t w w' g g') (hut : u ≠ t)
    (hmine : ∀ i ∈ mine.tries, (w.txn t).self ≠ some i) : Bears u mine w w' g g' := by
  refine ⟨h.refs, h.threads, h.txn u hut, h.clock, h.tries, fun r x hx => ?_,
    fun r hr => ?_, h.grows, fun i hi hlt => h.status i hlt (hmine i hi)⟩
  · obtain ⟨y, hy, hkept⟩ := h.locks r x hx
    exact ⟨y, hy, hkept u hut⟩
  · rcases h.past r with hpast | ⟨x, hx, howner⟩
    · exact hpast
    · obtain ⟨y, hy, howner'⟩ := hr
      cases hx.symm.trans hy
      exact absurd (Option.some.inj (howner'.symm.trans howner)) hut

/-- A step of a thread: it leaves the world sane and others what they rely on, and what it adds to
the past is to be seen. What it does to its own transaction is restricted by `own`. -/
structure Fair (t : Nat) (own : Txn → Txn → Prop) (w w' : World) (g g' : Chronicle) : Prop where
  spares : Spares t w w' g g'
  sane : Sane w' g'
  own : w'.txn t = w.txn t ∨ own (w.txn t) (w'.txn t)
  shown : ∀ r, ∀ v ∈ (g' r).log, v ∈ (g r).log ∨ ∃ y : Ref, w'.refs[r]? = some y ∧ v ∈ y.history

variable {own : Txn → Txn → Prop}

theorem Spares.refl (t : Nat) (w : World) (g : Chronicle) : Spares t w w g g :=
  ⟨rfl, rfl, fun _ _ => rfl, Nat.le_refl _, Nat.le_refl _,
    fun _ x hx => ⟨x, hx, fun _ _ => .refl _⟩,
    fun _ => .inl rfl, fun _ => .refl _, fun _ _ _ => .inl rfl⟩

theorem Fair.refl (hsane : Sane w g) : Fair t own w w g g :=
  ⟨.refl t w g, hsane, .inl rfl, fun _ _ => .inl⟩

/-! ## Safe courses -/

theorem Course.bind_done (p : Course α) : p.bind .done = p := by
  induction p with
  | done a => rfl
  | act x next ih => exact congrArg (Course.act x) (funext ih)
  | wait t r next ih => exact congrArg (Course.wait t r) ih
  | waitAWhile t r k next ih => exact congrArg (Course.waitAWhile t r k) (funext ih)

/-- A thread has a shared hold for each time that it has ensured a reference, if it keeps them. -/
def Backed (t : Nat) (mine : Stake) (w : World) : Prop :=
  mine.firm → ∀ (r : Nat) (x : Ref), w.refs[r]? = some x →
    ((w.txn t).ensures.count r : Int) ≤ (x.lock.standing t).shared

/-- Whatever others do between the steps of a course, all its steps are fair, what is ensured is
held, and the course ends with a result for which `Q` holds or with a signal for which `E` holds,
which is told the world before the last step too. -/
def Safe (t : Nat) (mine : Stake) (own : Txn → Txn → Prop) (Q : α → World → Chronicle → Prop)
    (E : Signal → World → World → Chronicle → Prop) : Course α → World → Chronicle → Prop
  | .done a, w, g => ∀ w' g', Bears t mine w w' g g' → Sane w' g' → Backed t mine w' ∧ Q a w' g'
  | .act x next, w, g => ∀ w' g', Bears t mine w w' g g' → Sane w' g' → Backed t mine w' ∧ ∀ c,
    Ends (x c) w'
      (fun b w'' => ∃ g'', Fair t own w' w'' g' g'' ∧ Safe t mine own Q E (next b) w'' g'')
      fun e w'' => ∃ g'', Fair t own w' w'' g' g'' ∧ E e w' w'' g''
  | .wait u r next, w, g => ∀ w' g', Bears t mine w w' g g' → Sane w' g' → Backed t mine w' ∧
    ∀ x : Ref, w'.refs[r]? = some x → u ∉ x.lock.waitingThreads → Safe t mine own Q E next w' g'
  | .waitAWhile u r k next, w, g => ∀ w' g', Bears t mine w w' g g' → Sane w' g' →
    Backed t mine w' ∧ ∀ x : Ref, w'.refs[r]? = some x →
      (u ∉ x.lock.waitingThreads → Safe t mine own Q E (next none) w' g') ∧
      (u ∈ x.lock.waitingThreads → ∀ coin, ∃ g'',
        Fair t own w' (w'.withLock r (x.lock.giveUp coin k).1) g' g'' ∧
        Safe t mine own Q E (next (some (x.lock.giveUp coin k).2))
          (w'.withLock r (x.lock.giveUp coin k).1) g'')

variable {Q : α → World → Chronicle → Prop} {E : Signal → World → World → Chronicle → Prop}
variable {p : Course α}

section

variable (h : Safe t mine own Q E p w g)

include h

theorem Safe.backed (hs : Sane w g) : Backed t mine w := by
  cases p with
  | done | act | wait | waitAWhile => exact (h w g (.refl ..) hs).1

/-- What a step of a safe course leads to. -/
def SafeMove (t : Nat) (mine : Stake) (own : Txn → Txn → Prop) (Q : α → World → Chronicle → Prop)
    (E : Signal → World → World → Chronicle → Prop) (w : World) (g : Chronicle) :
    Course.Move α → Prop
  | .stuck => True
  | .on rest w' => ∃ g', Fair t own w w' g g' ∧ Safe t mine own Q E rest w' g'
  | .ended (.ok a) w' => w' = w ∧ Q a w g
  | .ended (.error e) w' => ∃ g', Fair t own w w' g g' ∧ E e w w' g'

theorem Safe.step (hs : Sane w g) (c : Chance) : SafeMove t mine own Q E w g (p.step c w) := by
  cases p with
  | done a => exact ⟨rfl, (h w g (.refl ..) hs).2⟩
  | act x next =>
    have hends := (h w g (.refl ..) hs).2 c
    unfold Ends at hends
    simp only [Course.step]
    cases hx : x c w with
    | ok b w' =>
      rw [hx] at hends
      exact hends
    | error e w' =>
      rw [hx] at hends
      exact hends
  | wait u r next =>
    simp only [Course.step]
    cases hx : w.refs[r]? with
    | none => trivial
    | some x =>
      by_cases hin : u ∈ x.lock.waitingThreads
      · simp only [hin, if_true]
        trivial
      · simp only [hin, if_false]
        exact ⟨g, .refl hs, (h w g (.refl ..) hs).2 x hx hin⟩
  | waitAWhile u r k next =>
    simp only [Course.step]
    cases hx : w.refs[r]? with
    | none => trivial
    | some x =>
      -- whether the thread was let in or its time is up is a matter of chance: both go well
      obtain ⟨hout, hin⟩ := (h w g (.refl ..) hs).2 x hx
      by_cases hwaits : u ∈ x.lock.waitingThreads
      · simp only [hwaits, not_true_eq_false, if_false]
        cases c.timeUp
        · trivial
        · exact hin hwaits c.ownerFirst
      · simp only [hwaits, not_false_eq_true, if_true]
        exact ⟨g, .refl hs, hout hwaits⟩

/-- A course stays safe while others act. -/
theorem Safe.bears (hsane : Sane w g) (hbears : Bears t mine w w' g g') :
    Safe t mine own Q E p w' g' := by
  cases p with
  | done | act | wait | waitAWhile =>
    exact fun w'' g'' hb hs => h w'' g'' (hbears.trans hb hsane) hs

omit h in
/-- A course is safe if it is safe after whatever others do before its first step. -/
theorem Safe.intro (h : ∀ w' g', Bears t mine w w' g g' → Sane w' g' →
    Safe t mine own Q E p w' g') : Safe t mine own Q E p w g := by
  cases p with
  | done | act | wait | waitAWhile => exact fun w' g' hb hs => h w' g' hb hs w' g' (.refl ..) hs

variable {E' : Signal → World → World → Chronicle → Prop} {R : β → World → Chronicle → Prop}

/-- A course goes on in another one where it is done. -/
theorem Safe.goOn {f : α → Course β}
    (hf : ∀ a w g, Safe t mine own Q E (.done a) w g → Safe t mine own R E' (f a) w g)
    (hE : ∀ e w w' g, E e w w' g → E' e w w' g) : Safe t mine own R E' (p.bind f) w g := by
  induction p generalizing w g with
  | done a => exact hf a w g h
  | act x next ih =>
    intro w' g' hb hs
    obtain ⟨hback, hx⟩ := h w' g' hb hs
    refine ⟨hback, fun c => (hx c).mono (fun b w'' hb' => ?_) fun e w'' he => ?_⟩
    · obtain ⟨g'', hfair, hsafe⟩ := hb'
      exact ⟨g'', hfair, ih b hsafe⟩
    · obtain ⟨g'', hfair, he⟩ := he
      exact ⟨g'', hfair, hE _ _ _ _ he⟩
  | wait u r next ih =>
    intro w' g' hb hs
    obtain ⟨hback, hnext⟩ := h w' g' hb hs
    exact ⟨hback, fun x hx hk => ih (hnext x hx hk)⟩
  | waitAWhile u r k next ih =>
    intro w' g' hb hs
    obtain ⟨hback, hnext⟩ := h w' g' hb hs
    refine ⟨hback, fun x hx => ⟨fun hk => ih none ((hnext x hx).1 hk), fun hk coin => ?_⟩⟩
    obtain ⟨g'', hfair, hsafe⟩ := (hnext x hx).2 hk coin
    exact ⟨g'', hfair, ih _ hsafe⟩

theorem Safe.bind {f : α → Course β}
    (hf : ∀ a w g, Q a w g → Sane w g → Safe t mine own R E (f a) w g) :
    Safe t mine own R E (p.bind f) w g :=
  h.goOn (fun a _ _ hdone => .intro fun w' g' hb hs => hf a w' g' (hdone w' g' hb hs).2 hs)
    fun _ _ _ _ he => he

theorem Safe.mono {Q' : α → World → Chronicle → Prop} (hQ : ∀ a w g, Q a w g → Q' a w g)
    (hE : ∀ e w w' g, E e w w' g → E' e w w' g) : Safe t mine own Q' E' p w g := by
  rw [← p.bind_done]
  exact h.goOn (fun a _ _ hdone w' g' hb hs => (hdone w' g' hb hs).imp_right (hQ a w' g')) hE

end

/-- What stays true while others act, and under which what is ensured is held. -/
structure Lasting (t : Nat) (mine : Stake) (P : World → Chronicle → Prop) : Prop where
  bears : ∀ w g w' g', P w g → Sane w g → Bears t mine w w' g g' → P w' g'
  backed : ∀ w g, P w g → Backed t mine w

variable {P : World → Chronicle → Prop}

theorem Safe.done {a : α} (hlasting : Lasting t mine P) (h : P w g) (hs : Sane w g)
    (hQ : ∀ w g, P w g → Q a w g) : Safe t mine own Q E (.done a) w g :=
  fun w' g' hb _ =>
    have h' := hlasting.bears w g w' g' h hs hb
    ⟨hlasting.backed w' g' h', hQ w' g' h'⟩

/-- A step, seen from any world in which it may be taken. -/
theorem Safe.act {x : Chance → StmM β} {next : β → Course α} (hlasting : Lasting t mine P)
    (h : P w g) (hs : Sane w g)
    (hstep : ∀ w g, P w g → Sane w g → ∀ c, Ends (x c) w
      (fun b w' => ∃ g', Fair t own w w' g g' ∧ Safe t mine own Q E (next b) w' g')
      fun e w' => ∃ g', Fair t own w w' g g' ∧ E e w w' g') :
    Safe t mine own Q E (.act x next) w g :=
  fun w' g' hb hs' =>
    have h' := hlasting.bears w g w' g' h hs hb
    ⟨hlasting.backed w' g' h', hstep w' g' h' hs'⟩

/-- A loop keeps what its body keeps. The invariant tells which items have had their turn. -/
theorem Safe.each {xs : List β} {f : β → Course Unit} {I : List β → World → Chronicle → Prop}
    (hlasting : Lasting t mine (I xs)) (h : I [] w g) (hs : Sane w g)
    (hbody : ∀ done x rest w g, xs = done ++ x :: rest → I done w g → Sane w g →
      Safe t mine own (fun _ => I (done ++ [x])) E (f x) w g) :
    Safe t mine own (fun _ => I xs) E (Course.each xs f) w g := by
  suffices hrest : ∀ rest done w g, xs = done ++ rest → I done w g → Sane w g →
      Safe t mine own (fun _ => I xs) E (Course.each rest f) w g from hrest xs [] w g rfl h hs
  intro rest
  induction rest with
  | nil =>
    intro done w g hxs hdone hs
    rw [List.append_nil] at hxs
    exact Safe.done hlasting (hxs ▸ hdone) hs fun _ _ h => h
  | cons x rest ih =>
    intro done w g hxs hdone hs
    refine (hbody done x rest w g hxs hdone hs).bind fun _ w' g' h' hs' => ?_
    exact ih (done ++ [x]) w' g' (by rw [hxs, List.append_assoc]; rfl) h' hs'

end HostedLisp.Stm
