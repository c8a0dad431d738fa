import HostedLisp.Stm.Transaction
import HostedLisp.Proofs.Lock.Standing
import Mathlib.Logic.Function.Basic

/-!
# Actions on a world and what they leave in view

Every action is atomic, so what transactions make of references does not depend on the locks. A view
leaves them out.

- `Ends`: what holds of the result of an action, or of the signal that it ends with, and of the new
  world.
- `Ends.bind`, `Ends.mono`, `Ends.forIn`: actions one after the other, and loops.
- `Ends.refAt_bind`, `Ends.txnOf_bind` and so on: what comes after looking at the world.
- `World.view`: references, transactions and tries by their numbers, without locks, without the
  faults of readers and without what a transaction has locked or ensured.
- `View.changeRef`, `View.changeTxn`, `View.setStatus`: changes of a view.
- `HoldsLock`, `SharesLock`: who has the lock of a reference.
- `lock_ends`, `unlock_ends` and so on: locks are not in view.
-/

namespace HostedLisp.Stm

open Function

variable {α β : Type} {w : World}

/-- The transaction of a thread. -/
def World.txn (w : World) (t : Nat) : Txn := w.txns[t]?.getD {}

/-- The status of a try. -/
def World.status (w : World) (i : Nat) : Status := (w.tries[i]?.map (·.status)).getD .abandoned

/-- An action ends with a result and a world of which `Q` holds, or with a signal and a world of
which `E` holds. -/
def Ends (x : StmM α) (w : World) (Q : α → World → Prop) (E : Signal → World → Prop) : Prop :=
  match x w with
  | .ok a w' => Q a w'
  | .error e w' => E e w'

variable {Q Q' : α → World → Prop} {E E' : Signal → World → Prop} {x : StmM α}

theorem Ends.pure {a : α} (h : Q a w) : Ends (Pure.pure a) w Q E := h

theorem Ends.bind {f : α → StmM β} {R : β → World → Prop} (h : Ends x w Q E)
    (hf : ∀ a w', Q a w' → Ends (f a) w' R E) : Ends (x >>= f) w R E := by
  unfold Ends at h ⊢
  show match EStateM.bind x f w with | .ok a w' => R a w' | .error e w' => E e w'
  unfold EStateM.bind
  cases hx : x w with
  | ok a w' =>
    rw [hx] at h
    exact hf a w' h
  | error e w' =>
    rw [hx] at h
    exact h

theorem Ends.mono (h : Ends x w Q E) (hQ : ∀ a w', Q a w' → Q' a w')
    (hE : ∀ e w', E e w' → E' e w') : Ends x w Q' E' := by
  unfold Ends at h ⊢
  cases hx : x w with
  | ok a w' =>
    rw [hx] at h
    exact hQ a w' h
  | error e w' =>
    rw [hx] at h
    exact hE e w' h

/-- A failure of the first part is one of the whole. -/
theorem Ends.then {f : α → StmM β} {R : β → World → Prop} (h : Ends x w Q E)
    (hE : ∀ e w', E e w' → E' e w') (hf : ∀ a w', Q a w' → Ends (f a) w' R E') :
    Ends (x >>= f) w R E' := (h.mono (fun _ _ h => h) hE).bind hf

theorem Ends.and (h : Ends x w Q E) (h' : Ends x w Q' E') :
    Ends x w (fun a w' => Q a w' ∧ Q' a w') fun e w' => E e w' ∧ E' e w' := by
  unfold Ends at h h' ⊢
  cases hx : x w <;> rw [hx] at h h' <;> exact ⟨h, h'⟩

/-- A loop keeps what its body keeps. The invariant tells which items have had their turn. -/
theorem Ends.forIn {xs : List β} {body : β → PUnit → StmM (ForInStep PUnit)}
    {I : List β → World → Prop} (start : I [] w)
    (step : ∀ done x rest w, xs = done ++ x :: rest → I done w →
      Ends (body x ⟨⟩) w (fun s w' => s = .yield ⟨⟩ ∧ I (done ++ [x]) w') E) :
    Ends (ForIn.forIn xs PUnit.unit body) w (fun _ w' => I xs w') E := by
  suffices hrest : ∀ rest done w, xs = done ++ rest → I done w →
      Ends (ForIn.forIn rest PUnit.unit body) w (fun _ w' => I xs w') E from
    hrest xs [] w rfl start
  intro rest
  induction rest with
  | nil =>
    intro done w hxs hdone
    refine Ends.pure ?_
    rwa [hxs, List.append_nil]
  | cons x rest ih =>
    intro done w hxs hdone
    rw [List.forIn_cons]
    refine (step done x rest w hxs hdone).bind fun s w' hs => ?_
    rw [hs.1]
    exact ih (done ++ [x]) w' (by rw [hxs, List.append_assoc]; rfl) hs.2

/-! ## Basic actions -/

theorem ends_throw {s : Signal} (h : E s w) : Ends (throw s) w Q E := h

theorem ends_fail {e : Error} (h : E (.failed e) w) : Ends (fail e) w Q E := h

theorem ends_lift {x : Except Error α} (hok : ∀ a, x = .ok a → Q a w)
    (herror : ∀ e, x = .error e → E (.failed e) w) : Ends (lift x) w Q E := by
  cases x with
  | ok a => exact hok a rfl
  | error e => exact herror e rfl

/-- The world with a reference changed. -/
abbrev World.withRef (w : World) (r : Nat) (f : Ref → Ref) : World :=
  { w with refs := w.refs.modify r f }

/-- The world with the transaction of a thread changed. -/
abbrev World.withTxn (w : World) (t : Nat) (f : Txn → Txn) : World :=
  { w with txns := w.txns.modify t f }

/-- The world with another status for a try. -/
abbrev World.withStatus (w : World) (i : Nat) (s : Status) : World :=
  { w with tries := w.tries.modify i fun x => { x with status := s } }

theorem ends_updateRef {r : Nat} {f : Ref → Ref} {Q : Unit → World → Prop}
    (h : Q () (w.withRef r f)) : Ends (updateRef r f) w Q E := h

theorem ends_updateTxn {t : Nat} {f : Txn → Txn} {Q : Unit → World → Prop}
    (h : Q () (w.withTxn t f)) : Ends (updateTxn t f) w Q E := h

theorem ends_setStatus {i : Nat} {s : Status} {Q : Unit → World → Prop}
    (h : Q () (w.withStatus i s)) : Ends (setStatus i s) w Q E := h

/-! ## After looking at the world -/

theorem Ends.pure_bind {a : β} {f : β → StmM α} (h : Ends (f a) w Q E) :
    Ends (Pure.pure a >>= f) w Q E := h

theorem Ends.throw_bind {s : Signal} {f : β → StmM α} (h : E s w) :
    Ends ((throw s : StmM β) >>= f) w Q E := h

theorem Ends.get_bind {f : World → StmM α} (h : Ends (f w) w Q E) : Ends (get >>= f) w Q E := h

theorem Ends.txnOf_bind {t : Nat} {f : Txn → StmM α} (h : Ends (f (w.txn t)) w Q E) :
    Ends (txnOf t >>= f) w Q E := h

theorem Ends.statusOf_bind {i : Nat} {f : Status → StmM α} (h : Ends (f (w.status i)) w Q E) :
    Ends (statusOf i >>= f) w Q E := h

theorem Ends.nextPoint_bind {f : Nat → StmM α}
    (h : Ends (f w.clock) { w with clock := w.clock + 1 } Q E) : Ends (nextPoint >>= f) w Q E := h

theorem Ends.refAt_bind {r : Nat} {f : Ref → StmM α}
    (hsome : ∀ x, w.refs[r]? = some x → Ends (f x) w Q E)
    (hnone : w.refs[r]? = none → E (.failed (.fault .index)) w) : Ends (refAt r >>= f) w Q E := by
  unfold refAt
  rw [bind_assoc]
  refine Ends.get_bind ?_
  split
  · next x hx => exact Ends.pure_bind (hsome x hx)
  · next hx => exact Ends.throw_bind (hnone hx)

/-! ## Views -/

variable {t r : Nat} {l l' : SharedLock Nat}

/-- A reference without its lock and its faults. -/
def Ref.core (x : Ref) : Ref := { x with lock := {}, faults := 0 }

/-- A transaction without what it has locked. -/
def Txn.core (x : Txn) : Txn := { x with ensures := [], locked := [] }

/-- A world without its locks. -/
structure View where
  ref : Nat → Option Ref
  txn : Nat → Txn
  status : Nat → Status
  threads : Nat
  tries : Nat
  clock : Nat

/-- The view of a world. -/
def World.view (w : World) : View where
  ref r := w.refs[r]?.map Ref.core
  txn t := (w.txn t).core
  status := w.status
  threads := w.txns.size
  tries := w.tries.size
  clock := w.clock

theorem forall_view_ref {P : Ref → Prop} (h : ∀ x ∈ w.refs, P x.core) :
    ∀ r x, w.view.ref r = some x → P x := by
  intro r x hx
  obtain ⟨y, hy, rfl⟩ := Option.map_eq_some_iff.mp hx
  exact h y (Array.mem_of_getElem? hy)

theorem lt_of_isLive {i : Nat} (h : (w.status i).isLive = true) : i < w.tries.size := by
  by_contra hge
  rw [World.status, Array.getElem?_eq_none (Nat.le_of_not_lt hge)] at h
  cases h

namespace View

/-- Change a reference. -/
def changeRef (v : View) (r : Nat) (f : Ref → Ref) : View :=
  { v with ref := Function.update v.ref r ((v.ref r).map f) }

/-- Change a transaction. -/
def changeTxn (v : View) (t : Nat) (f : Txn → Txn) : View :=
  { v with txn := Function.update v.txn t (f (v.txn t)) }

/-- Change the status of a try. -/
def setStatus (v : View) (i : Nat) (s : Status) : View :=
  { v with status := Function.update v.status i s }

variable (v : View) (t r i : Nat) (f : Ref → Ref) (g : Txn → Txn) (s : Status)

@[simp] theorem changeRef_ref_self : (v.changeRef r f).ref r = (v.ref r).map f := update_self ..
@[simp] theorem changeRef_txn : (v.changeRef r f).txn = v.txn := rfl
@[simp] theorem changeTxn_ref : (v.changeTxn t g).ref = v.ref := rfl
@[simp] theorem changeTxn_txn_self : (v.changeTxn t g).txn t = g (v.txn t) := update_self ..

variable {v t r i f g s}

theorem changeRef_ref_of_ne {q : Nat} (h : q ≠ r) : (v.changeRef r f).ref q = v.ref q :=
  update_of_ne h ..

theorem changeTxn_changeTxn (g g' : Txn → Txn) :
    (v.changeTxn t g).changeTxn t g' = v.changeTxn t fun x => g' (g x) := by
  unfold changeTxn
  simp only [update_self, update_idem]

theorem changeTxn_congr {g' : Txn → Txn} (h : g (v.txn t) = g' (v.txn t)) :
    v.changeTxn t g = v.changeTxn t g' := by
  unfold changeTxn
  rw [h]

theorem changeTxn_eq_self (h : g (v.txn t) = v.txn t) : v.changeTxn t g = v := by
  unfold changeTxn
  rw [h, update_eq_self]

theorem changeTxn_txn_of_ne {u : Nat} (h : u ≠ t) : (v.changeTxn t g).txn u = v.txn u :=
  update_of_ne h ..

end View

theorem view_changeRef {f g : Ref → Ref} (h : ∀ x, (f x).core = g x.core) :
    (w.withRef r f).view = w.view.changeRef r g := by
  unfold World.view View.changeRef
  congr 1
  funext j
  rw [Array.getElem?_modify, update_apply]
  by_cases hj : r = j
  · subst hj
    rw [if_pos rfl, if_pos rfl]
    show (w.refs[r]?.map f).map Ref.core = (w.refs[r]?.map Ref.core).map g
    rw [Option.map_map, Option.map_map]
    congr 1
    funext x
    exact h x
  · rw [if_neg hj, if_neg (Ne.symm hj)]

/-- What changes in a reference is not in view. -/
theorem view_modify_ref {f : Ref → Ref} (h : ∀ x, (f x).core = x.core) :
    (w.withRef r f).view = w.view := by
  rw [view_changeRef (g := id) h]
  unfold View.changeRef
  rw [Option.map_id, id_eq, update_eq_self]

theorem txn_modify {f : Txn → Txn} (j : Nat) :
    (w.withTxn t f).txn j =
      if t = j ∧ t < w.txns.size then f (w.txn j) else w.txn j := by
  unfold World.txn
  rw [Array.getElem?_modify]
  by_cases hj : t = j
  · subst hj
    by_cases ht : t < w.txns.size
    · simp [ht]
    · simp [ht]
  · simp [hj]

theorem view_changeTxn (ht : t < w.txns.size) {f g : Txn → Txn} (h : ∀ x, (f x).core = g x.core) :
    (w.withTxn t f).view = w.view.changeTxn t g := by
  unfold World.view View.changeTxn
  simp only [Array.size_modify]
  congr 1
  funext j
  rw [txn_modify, update_apply]
  by_cases hj : t = j
  · subst hj
    rw [if_pos ⟨rfl, ht⟩, if_pos rfl, h]
  · rw [if_neg fun hc => hj hc.1, if_neg (Ne.symm hj)]

/-- What changes in a transaction is not in view. -/
theorem view_modify_txn {f : Txn → Txn} (h : ∀ x, (f x).core = x.core) :
    (w.withTxn t f).view = w.view := by
  unfold World.view
  simp only [Array.size_modify]
  congr 1
  funext j
  rw [txn_modify]
  split
  · exact h _
  · rfl

theorem status_modify {s : Status} {i : Nat} (hi : i < w.tries.size) :
    (w.withStatus i s).status =
      Function.update w.status i s := by
  funext j
  unfold World.status
  rw [Array.getElem?_modify, update_apply]
  by_cases hj : i = j
  · subst hj
    simp [hi]
  · rw [if_neg hj, if_neg (Ne.symm hj)]

theorem view_setStatus {s : Status} {i : Nat} (hi : i < w.tries.size) :
    (w.withStatus i s).view =
      w.view.setStatus i s := by
  unfold World.view View.setStatus
  rw [status_modify hi, Array.size_modify]
  rfl

/-! ## Locks -/

/-- A thread owns the lock of a reference. -/
def HoldsLock (t r : Nat) (w : World) : Prop := ∃ x, w.refs[r]? = some x ∧ x.lock.owner = some t

/-- A thread shares the lock of a reference. -/
def SharesLock (t r : Nat) (w : World) : Prop :=
  ∃ x, w.refs[r]? = some x ∧ (x.lock.sharedDepth? t).isSome = true

theorem acquire_held (h : l.acquire true t = .held l') : l'.owner = some t := by
  unfold SharedLock.acquire at h
  split at h
  · next howner =>
    cases h
    exact howner
  · split at h
    all_goals
      split at h
      · cases h
        rfl
      · cases h

theorem acquireShared_held (h : l.acquireShared t = .held l') :
    (l'.sharedDepth? t).isSome = true := by
  have hset : ∀ n, ((l.setShared t n).sharedDepth? t).isSome = true := by
    intro n
    rw [SharedLock.setShared_sharedDepth?, if_pos rfl]
    rfl
  unfold SharedLock.acquireShared at h
  split at h
  · cases h
    exact hset _
  · split at h
    · cases h
      exact hset _
    · split at h
      · cases h
        exact hset _
      · cases h

theorem view_setLock (l : SharedLock Nat) :
    World.view (w.withRef r fun x => { x with lock := l }) = w.view := view_modify_ref fun _ => rfl

/-- Setting the lock of a reference is not in view. -/
theorem setLock_keeps (l : SharedLock Nat) :
    Ends (setLock r l) w (fun _ w' => w'.view = w.view) E := ends_updateRef (view_setLock l)

theorem setLock_ends {x : Ref} {P : SharedLock Nat → Prop} (hx : w.refs[r]? = some x) {l}
    (hl : P l) : Ends (setLock r l) w
      (fun _ w' => w'.view = w.view ∧ ∃ y, w'.refs[r]? = some y ∧ P y.lock) E := by
  refine ends_updateRef ⟨view_setLock l, { x with lock := l }, ?_, hl⟩
  rw [Array.getElem?_modify, if_pos rfl, hx]
  rfl

theorem lock_ends (t r : Nat) :
    Ends (lock t r) w (fun _ w' => w'.view = w.view ∧ HoldsLock t r w')
      fun _ w' => w'.view = w.view := by
  unfold lock
  refine Ends.refAt_bind (fun x hx => ?_) fun _ => rfl
  split
  · next l hl =>
    exact setLock_ends (P := (·.owner = some t)) hx (acquire_held hl)
  · exact (setLock_keeps _).bind fun _ w' h => ends_throw h

theorem lockSoon_ends (t r : Nat) :
    Ends (lockSoon t r) w (fun _ w' => w'.view = w.view ∧ HoldsLock t r w')
      fun _ w' => w'.view = w.view := by
  unfold lockSoon
  refine Ends.refAt_bind (fun x hx => ?_) fun _ => rfl
  split
  · next l hl =>
    exact setLock_ends (P := (·.owner = some t)) hx (acquire_held hl)
  · exact (setLock_keeps _).bind fun _ w' h => ends_throw h

/-- Giving back a lock that is held never fails. -/
theorem unlock_ends (h : HoldsLock t r w) :
    Ends (unlock t r) w (fun _ w' => w'.view = w.view) E := by
  obtain ⟨x, hx, howner⟩ := h
  unfold unlock
  refine Ends.refAt_bind (fun y hy => ?_) fun hn => nomatch hn.symm.trans hx
  obtain rfl := Option.some.inj (hx.symm.trans hy)
  split
  · exact setLock_keeps _
  · next hnone =>
    unfold SharedLock.release? at hnone
    rw [if_pos howner] at hnone
    dsimp only at hnone
    split at hnone <;> cases hnone

theorem unlock_keeps (t r : Nat) :
    Ends (unlock t r) w (fun _ w' => w'.view = w.view) fun _ w' => w'.view = w.view := by
  unfold unlock
  refine Ends.refAt_bind (fun _ _ => ?_) fun _ => rfl
  split
  · exact setLock_keeps _
  · exact ends_fail rfl

theorem lockShared_ends (t r : Nat) :
    Ends (lockShared t r) w (fun _ w' => w'.view = w.view ∧ SharesLock t r w')
      fun e w' => w'.view = w.view ∧ ∀ e', e = .failed e' → w.refs[r]? = none := by
  unfold lockShared
  refine Ends.refAt_bind (fun x hx => ?_) fun hn => ⟨rfl, fun _ _ => hn⟩
  split
  · next l hl =>
    exact setLock_ends (P := fun l => (l.sharedDepth? t).isSome = true) hx (acquireShared_held hl)
  · refine (setLock_keeps _).bind fun _ w' h => ends_throw ⟨h, ?_⟩
    exact fun _ h => nomatch h

/-- Giving back a shared lock fails only where it is not held. -/
theorem unlockShared_ends (t r : Nat) :
    Ends (unlockShared t r) w (fun _ w' => w'.view = w.view)
      fun _ w' => w'.view = w.view ∧ ¬SharesLock t r w := by
  unfold unlockShared
  refine Ends.refAt_bind (fun x hx => ?_) fun hn => ⟨rfl, fun h => ?_⟩
  · split
    · exact setLock_keeps _
    · next hnone =>
      refine ends_fail ⟨rfl, fun h => ?_⟩
      obtain ⟨y, hy, hshared⟩ := h
      obtain rfl := Option.some.inj (hx.symm.trans hy)
      unfold SharedLock.releaseShared? at hnone
      split at hnone
      · next hdepth =>
        rw [hdepth] at hshared
        cases hshared
      · split at hnone <;> cases hnone
  · obtain ⟨y, hy, -⟩ := h
    exact nomatch hn.symm.trans hy

/-- What a thread has ensured is not in view. -/
theorem releaseEnsured_ends (t r : Nat) :
    Ends (releaseEnsured t r) w (fun _ w' => w'.view = w.view) fun _ w' => w'.view = w.view := by
  unfold releaseEnsured
  refine Ends.txnOf_bind ?_
  split
  · refine Ends.bind (Q := fun _ w' => w'.view = w.view)
      (ends_updateTxn (view_modify_txn fun _ => rfl)) fun _ w' h => ?_
    exact (unlockShared_ends t r).mono (fun _ _ h' => h'.trans h) fun _ _ h' => h'.1.trans h
  · exact Ends.pure rfl

end HostedLisp.Stm
