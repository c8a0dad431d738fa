import HostedLisp.Proofs.Lock.Standing

/-!
# What the operations of a lock do to the standing of threads

- `SharedLock.Moves`: an operation of a thread keeps the standing of all others.
- `SharedLock.acquire_spec`, `acquireShared_spec`: asking adds a hold, which the thread has or is in
  line for.
- `SharedLock.release?_spec`, `releaseShared?_spec`: giving back takes a hold away.
- `SharedLock.giveUp_spec`: a thread that gives up keeps its shared holds, though it may have to
  wait for them.
- `SharedLock.Lawful.in_line_of_owner`: who shares a lock that another owns is in line.
-/

namespace HostedLisp.SharedLock

open List

variable {α : Type} {l l' : SharedLock α} {t u : α} {n : Int} {w : Waiting α}

/-! ## The line -/

section

variable (h : Sound l)

include h

/-- A thread without holds may get in line. -/
theorem Sound.enter (hdepth : l'.depth = l.depth) (howner : l'.owner = l.owner)
    (husers : l'.users = l.users) (hline : List.Perm l'.line (w :: l.line))
    (hout : w.thread ∉ l.line.map (·.thread)) (hfree : l.owner ≠ some w.thread)
    (hnone : w.thread ∉ l.users.map (·.1)) (hfresh : w.ticket ∉ l.line.map (·.ticket))
    (hticket : w.ticket < l'.tickets) (htickets : l.tickets ≤ l'.tickets)
    (howners : ∀ v ∈ l'.waitingOwners, 0 ≤ v.shared)
    (hsharing : ∀ v ∈ l'.waitingUsers, 0 < v.shared) : Sound l' := by
  have hmem : ∀ v ∈ l'.line, v = w ∨ v ∈ l.line := fun v hv => mem_cons.1 (hline.mem_iff.1 hv)
  refine ⟨husers ▸ h.users_nodup, husers ▸ h.users_pos,
    fun t ht => hdepth ▸ h.owner_pos t (howner ▸ ht),
    fun t ht => husers ▸ h.owner_alone t (howner ▸ ht), ?_, ?_, ?_, ?_, ?_, howners, hsharing⟩
  · rw [(hline.map _).nodup_iff, map_cons, nodup_cons]
    exact ⟨hout, h.line_nodup⟩
  · intro v hv
    rw [howner]
    rcases hmem v hv with rfl | hv
    · exact hfree
    · exact h.line_owner v hv
  · intro v hv
    rw [husers]
    rcases hmem v hv with rfl | hv
    · exact hnone
    · exact h.line_users v hv
  · rw [(hline.map _).nodup_iff, map_cons, nodup_cons]
    exact ⟨hfresh, h.tickets_nodup⟩
  · intro v hv
    rcases hmem v hv with rfl | hv
    · exact hticket
    · exact Nat.lt_of_lt_of_le (h.tickets_lt v hv) htickets

/-- The next ticket is a new one. -/
theorem Sound.next_ticket : l.tickets ∉ l.line.map (·.ticket) := by
  intro hc
  obtain ⟨w, hw, hticket⟩ := mem_map.1 hc
  exact absurd hticket (Nat.ne_of_lt (h.tickets_lt w hw))

theorem queueOwner_sound (hn : 0 ≤ n) (hout : t ∉ l.line.map (·.thread))
    (howner : l.owner ≠ some t) (husers : t ∉ l.users.map (·.1)) : Sound (l.queueOwner t n) := by
  have hline : List.Perm (l.queueOwner t n).line (⟨t, l.tickets, n⟩ :: l.line) := by
    unfold line queueOwner
    rw [← append_assoc]
    exact perm_append_singleton _ _
  refine h.enter rfl rfl rfl hline hout howner husers h.next_ticket (Nat.lt_succ_self _)
    (Nat.le_succ _) (fun v hv => ?_) h.users_shared
  rcases mem_append.1 hv with hv | hv
  · exact h.owners_shared v hv
  · rw [mem_singleton.1 hv]
    exact hn

/-- One more waits to share the lock. -/
abbrev joinUsers (l : SharedLock α) (w : Waiting α) (n : Nat) : SharedLock α :=
  { l with waitingUsers := l.waitingUsers ++ [w], tickets := n }

theorem joinUsers_sound {n : Nat} (hpos : 0 < w.shared)
    (hout : w.thread ∉ l.line.map (·.thread)) (howner : l.owner ≠ some w.thread)
    (husers : w.thread ∉ l.users.map (·.1)) (hfresh : w.ticket ∉ l.line.map (·.ticket))
    (hticket : w.ticket < n) (hn : l.tickets ≤ n) : Sound (l.joinUsers w n) := by
  have hline : List.Perm (l.joinUsers w n).line (w :: l.line) := by
    unfold line
    rw [append_assoc]
    exact perm_middle
  refine h.enter rfl rfl rfl hline hout howner husers hfresh hticket hn h.owners_shared
    fun v hv => ?_
  rcases mem_append.1 hv with hv | hv
  · exact h.users_shared v hv
  · rw [mem_singleton.1 hv]
    exact hpos

/-- No two calls in line have the same ticket. -/
theorem Sound.eq_of_ticket {v w : Waiting α} (hv : v ∈ l.line) (hw : w ∈ l.line)
    (hticket : v.ticket = w.ticket) : v = w := inj_on_of_nodup_map h.tickets_nodup hv hw hticket

/-- The ticket of a thread that waits to own a lock belongs to nobody who waits to share it. -/
theorem Sound.any_ticket (hw : w ∈ l.waitingOwners) :
    (l.waitingUsers.any fun v => v.ticket = w.ticket) = false := by
  rw [any_eq_false]
  intro v hv hc
  have heq := h.eq_of_ticket (mem_append_left _ hv) (mem_append_right _ hw)
    (of_decide_eq_true hc)
  exact h.apart (mem_map_of_mem hv) (heq ▸ mem_map_of_mem hw)

/-- A call is found by its ticket. -/
theorem Sound.find?_ticket (hw : w ∈ l.waitingOwners) :
    (l.waitingOwners.find? fun v => v.ticket = w.ticket) = some w := by
  have hsome : (l.waitingOwners.find? fun v => v.ticket = w.ticket).isSome := by
    rw [find?_isSome]
    exact ⟨w, hw, decide_eq_true rfl⟩
  obtain ⟨v, hv⟩ := Option.isSome_iff_exists.1 hsome
  have heq := h.eq_of_ticket (mem_append_right _ (mem_of_find?_eq_some hv))
    (mem_append_right _ hw) (by simpa using find?_some hv)
  rw [hv, heq]

end

variable [DecidableEq α]

/-! ## Moves -/

/-- An operation of a thread: nobody waits in vain after it, and all others keep their standing. -/
structure Moves (t : α) (l l' : SharedLock α) : Prop where
  lawful : Lawful l'
  others : ∀ u, u ≠ t → (l.standing u).Kept (l'.standing u)

theorem Moves.refl (h : Lawful l) (t : α) : Moves t l l := ⟨h, fun _ _ => .refl _⟩

/-- The holds that asking gives: the thread has them, or has a ticket for them. -/
def Attempt.Grants (t : α) (l : SharedLock α) (s : Standing) : Attempt α → Prop
  | .held l' => Moves t l l' ∧ l'.standing t = { s with ticket := none }
  | .waits l' k => Moves t l l' ∧ Standing.Kept { s with ticket := some k } (l'.standing t)

/-- After a change that leaves others alone, others are let in. -/
theorem Moves.letIn (h : Sound l') (hothers : ∀ u, u ≠ t → l'.standing u = l.standing u)
    (coin : Bool) : Moves t l (l'.letIn coin) :=
  ⟨letIn_lawful h coin, fun u hu => hothers u hu ▸ letIn_kept h coin u⟩

/-- A thread that is not in line when others are let in is not affected. -/
theorem letIn_standing (h : Sound l) (coin : Bool) (hout : (l.standing t).ticket = none) :
    (l.letIn coin).standing t = l.standing t := (letIn_kept h coin t).eq_of_out hout

/-! ## Changes of a lock -/

theorem standing_congr (howners : l'.waitingOwners = l.waitingOwners)
    (husers : l'.waitingUsers = l.waitingUsers)
    (howner : (if l'.owner = some u then l'.depth else 0) = if l.owner = some u then l.depth else 0)
    (hshared : l'.sharedDepth? u = l.sharedDepth? u) : l'.standing u = l.standing u := by
  unfold standing
  rw [howners, husers, howner, hshared]

theorem setShared_keys (n : Int) : (l.setShared t n).users.map (·.1) =
    if t ∈ l.users.map (·.1) then l.users.map (·.1) else l.users.map (·.1) ++ [t] := by
  by_cases ht : t ∈ l.users.map (·.1)
  · have hsome : (l.users.lookup t).isSome = true :=
      Option.isSome_iff_ne_none.2 fun hc => lookup_none_iff.1 hc ht
    rw [if_pos ht, setShared, if_pos hsome, map_map]
    refine map_congr_left fun x _ => ?_
    show (if x.1 = t then (x.1, n) else (x.1, x.2)).1 = x.1
    split <;> rfl
  · rw [if_neg ht, setShared_new ht, map_append]
    rfl

theorem mem_setShared {x : α × Int} (hx : x ∈ (l.setShared t n).users) :
    x = (t, n) ∨ x ∈ l.users ∧ x.1 ≠ t := by
  by_cases ht : t ∈ l.users.map (·.1)
  · rw [setShared] at hx
    dsimp only at hx
    split at hx
    · obtain ⟨y, hy, rfl⟩ := mem_map.1 hx
      split
      · next h => exact .inl (by rw [h])
      · next h => exact .inr ⟨hy, h⟩
    · next hnone => exact absurd ht (lookup_none_iff.1 (Option.not_isSome_iff_eq_none.1 hnone))
  · rw [setShared_new ht] at hx
    rcases mem_append.1 hx with hx | hx
    · exact .inr ⟨hx, fun hc => ht (hc ▸ mem_map_of_mem hx)⟩
    · exact .inl (mem_singleton.1 hx)

theorem setShared_sound (h : Sound l) (hn : 0 < n) (hout : t ∉ l.line.map (·.thread))
    (howner : ∀ o, l.owner = some o → o = t) : Sound (l.setShared t n) := by
  refine { h with users_nodup := ?_, users_pos := ?_, owner_alone := ?_, line_users := ?_ }
  · rw [setShared_keys]
    split
    · exact h.users_nodup
    · next ht =>
      rw [nodup_append]
      refine ⟨h.users_nodup, nodup_singleton t, ?_⟩
      rintro a ha b hb rfl
      exact ht (mem_singleton.1 hb ▸ ha)
  · intro x hx
    rcases mem_setShared hx with rfl | ⟨hx, -⟩
    · exact hn
    · exact h.users_pos x hx
  · intro o ho x hx
    rcases mem_setShared hx with rfl | ⟨hx, -⟩
    · exact (howner o ho).symm
    · exact h.owner_alone o ho x hx
  · intro w hw
    rw [setShared_keys]
    split
    · exact h.line_users w hw
    · rw [mem_append, not_or, mem_singleton]
      exact ⟨h.line_users w hw, fun hc => hout (hc ▸ mem_map_of_mem hw)⟩

theorem setShared_standing_of_ne (hu : u ≠ t) : (l.setShared t n).standing u = l.standing u :=
  standing_congr rfl rfl rfl ((setShared_sharedDepth? ..).trans (if_neg hu))

theorem mem_dropShared {x : α × Int} : x ∈ (l.dropShared t).users ↔ x ∈ l.users ∧ x.1 ≠ t := by
  unfold dropShared
  simp

theorem dropShared_sound (h : Sound l) : Sound (l.dropShared t) := by
  have hsub : (l.dropShared t).users.Sublist l.users := filter_sublist
  exact { h with
    users_nodup := h.users_nodup.sublist (hsub.map _)
    users_pos := fun x hx => h.users_pos x (hsub.subset hx)
    owner_alone := fun o ho x hx => h.owner_alone o ho x (hsub.subset hx)
    line_users := fun w hw hc => h.line_users w hw ((hsub.map _).subset hc) }

theorem dropShared_sharedDepth? (l : SharedLock α) (t u : α) :
    (l.dropShared t).sharedDepth? u = if u = t then none else l.sharedDepth? u := by
  unfold dropShared sharedDepth?
  generalize l.users = us
  induction us with
  | nil => exact (ite_self _).symm
  | cons x us ih =>
    grind

theorem dropShared_standing_of_ne (hu : u ≠ t) : (l.dropShared t).standing u = l.standing u :=
  standing_congr rfl rfl rfl ((dropShared_sharedDepth? ..).trans (if_neg hu))

theorem queueOwner_standing (h : Sound (l.queueOwner t n)) :
    (l.queueOwner t n).standing t = ⟨1, n, some l.tickets⟩ :=
  h.standing_owner (w := ⟨t, l.tickets, n⟩) (mem_append_right _ mem_cons_self)

theorem find?_thread_append {ws : List (Waiting α)} (hu : u ≠ w.thread) :
    (ws ++ [w]).find? (fun x => x.thread = u) = ws.find? fun x => x.thread = u := by
  simp [Ne.symm hu]

theorem queueOwner_standing_of_ne (hu : u ≠ t) : (l.queueOwner t n).standing u = l.standing u := by
  unfold standing queueOwner
  rw [find?_thread_append hu]
  rfl

theorem joinUsers_standing {n : Nat} (h : Sound (l.joinUsers w n)) :
    (l.joinUsers w n).standing w.thread = ⟨0, w.shared, some w.ticket⟩ :=
  h.standing_user (mem_append_right _ mem_cons_self)

theorem joinUsers_standing_of_ne {n : Nat} (hu : u ≠ w.thread) :
    (l.joinUsers w n).standing u = l.standing u := by
  unfold standing
  rw [find?_thread_append hu]
  rfl

/-! ## Operations -/

theorem standing_of_owner (h : Sound l) (howner : l.owner = some t) :
    l.standing t = ⟨l.depth, (l.sharedDepth? t).getD 0, none⟩ := by
  rw [standing_out, if_pos howner]
  intro hc
  obtain ⟨w, hw, rfl⟩ := mem_map.1 hc
  exact h.line_owner w hw howner

/-- Who is not in line and has an exclusive hold owns the lock. -/
theorem owner_of_exclusive (hout : (l.standing t).ticket = none)
    (hpos : (l.standing t).exclusive ≠ 0) : l.owner = some t := by
  rw [standing_out (ticket_none_iff.1 hout)] at hpos
  by_contra hc
  exact hpos (if_neg hc)

/-- Who owns a lock that nobody else holds, to any depth. -/
theorem own_spec {o : Option α} {d : Int} (h : Sound l) (hout : (l.standing t).ticket = none)
    (ho : o = some t) (hd : 0 < d) (howner : ∀ u, l.owner = some u → u = t)
    (husers : ∀ x ∈ l.users, x.1 = t) :
    Moves t l { l with owner := o, depth := d } ∧
      standing { l with owner := o, depth := d } t = ⟨d, (l.sharedDepth? t).getD 0, none⟩ := by
  subst ho
  have hline := ticket_none_iff.1 hout
  have hsound : Sound { l with owner := some t, depth := d } := by
    refine { h with owner_pos := fun _ _ => hd, owner_alone := ?_, line_owner := ?_ }
    · intro o ho x hx
      rw [husers x hx]
      exact Option.some.inj ho
    · exact fun w hw hc => hline (Option.some.inj hc ▸ mem_map_of_mem hw)
  refine ⟨⟨⟨hsound, by simp, by simp⟩, fun u hu => ?_⟩, standing_of_owner hsound rfl⟩
  have hsame : standing { l with owner := some t, depth := d } u = l.standing u := by
    refine standing_congr rfl rfl ?_ rfl
    simp [mt (howner u) hu, Ne.symm hu]
  rw [hsame]
  exact .refl _

section

variable (h : Lawful l) (hout : (l.standing t).ticket = none)

include h hout

/-- Asking to own a lock adds an exclusive hold, which the thread has or is in line for. -/
theorem acquire_spec (coin : Bool) :
    (l.acquire coin t).Grants t l
      ⟨(l.standing t).exclusive + 1, (l.standing t).shared, none⟩ := by
  have hline := ticket_none_iff.1 hout
  unfold acquire
  by_cases howner : l.owner = some t
  · -- the owner owns it once more
    rw [if_pos howner, standing_of_owner h.toSound howner]
    exact own_spec h.toSound hout howner (Int.lt_add_one_of_le
      (Int.le_of_lt (h.owner_pos t howner)))
      (fun u hu => Option.some.inj (hu.symm.trans howner)) (h.owner_alone t howner)
  rw [if_neg howner]
  have hold : l.standing t = ⟨0, (l.sharedDepth? t).getD 0, none⟩ := by
    rw [standing_out hline, if_neg howner]
  cases hshared : l.sharedDepth? t with
  | some n =>
    have hmem : (t, n) ∈ l.users := mem_of_lookup hshared
    dsimp only
    split
    · next hcond =>
      -- nobody else shares it, so nobody owns it either
      simp only [Bool.and_eq_true, decide_eq_true_eq] at hcond
      rw [hold]
      refine own_spec h.toSound hout rfl Int.one_pos (fun u hu => (h.owner_alone u hu _ hmem).symm)
        fun x hx => ?_
      have hx : x.1 ∈ l.users.map (·.1) := mem_map_of_mem hx
      rw [hcond.1.1] at hx
      exact mem_singleton.1 hx
    · -- the shared holds go with the thread into the line
      have hsound : Sound ((l.dropShared t).queueOwner t n) :=
        queueOwner_sound (dropShared_sound h.toSound) (Int.le_of_lt (h.users_pos _ hmem))
          hline howner (lookup_none_iff.1 ((dropShared_sharedDepth? ..).trans (if_pos rfl)))
      refine ⟨Moves.letIn hsound (fun u hu => ?_) coin, ?_⟩
      · rw [queueOwner_standing_of_ne hu, dropShared_standing_of_ne hu]
      · have hkept := letIn_kept hsound coin t
        rw [queueOwner_standing hsound] at hkept
        rw [hold, hshared]
        exact hkept
  | none =>
    dsimp only
    split
    · next hcond =>
      simp only [Bool.and_eq_true, Bool.not_eq_true', hasOwner, hasUsers,
        Option.isSome_eq_false_iff, Option.isNone_iff_eq_none, Bool.not_eq_false',
        List.isEmpty_iff] at hcond
      rw [hold]
      exact own_spec h.toSound hout rfl Int.one_pos (by simp [hcond.1]) (by simp [hcond.2])
    · next hcond =>
      -- the lock is not free, so a thread without holds has to wait
      have hsound : Sound (l.queueOwner t 0) :=
        queueOwner_sound h.toSound (Int.le_refl 0) hline howner (lookup_none_iff.1 hshared)
      refine ⟨⟨⟨hsound, fun ho hu => ?_, fun _ hc => ?_⟩, fun u hu => ?_⟩, ?_⟩
      · exact absurd (by simp [hasOwner, hasUsers, show l.owner = none from ho,
          show l.users = [] from hu]) hcond
      · exact absurd hc (append_ne_nil_of_right_ne_nil _ (cons_ne_nil _ _))
      · rw [queueOwner_standing_of_ne hu]
        exact .refl _
      · rw [queueOwner_standing hsound, hold, hshared]
        exact .refl _

/-- Who shares a lock that nobody else owns. -/
theorem share_spec (hn : 0 < n) (howner : ∀ o, l.owner = some o → o = t) :
    Moves t l (l.setShared t n) ∧
      (l.setShared t n).standing t = ⟨(l.standing t).exclusive, n, none⟩ := by
  have hline := ticket_none_iff.1 hout
  have hsound := setShared_sound h.toSound hn hline howner
  refine ⟨⟨⟨hsound, fun _ hc => ?_, h.shared_at_once⟩, fun u hu => ?_⟩, ?_⟩
  · have hdepth := setShared_sharedDepth? l t t n
    rw [if_pos rfl, sharedDepth?, hc] at hdepth
    cases hdepth
  · rw [setShared_standing_of_ne hu]
    exact .refl _
  · have hline' : t ∉ (l.setShared t n).line.map (·.thread) := hline
    rw [standing_out hline', setShared_sharedDepth?, if_pos rfl, standing_out hline]
    rfl

/-- Asking to share a lock adds a shared hold, which the thread has or is in line for. -/
theorem acquireShared_spec :
    (l.acquireShared t).Grants t l
      ⟨(l.standing t).exclusive, (l.standing t).shared + 1, none⟩ := by
  have hline := ticket_none_iff.1 hout
  have hshared : (l.standing t).shared = (l.sharedDepth? t).getD 0 := by rw [standing_out hline]
  unfold acquireShared
  cases hdepth : l.sharedDepth? t with
  | some n =>
    rw [hdepth] at hshared
    have hmem : (t, n) ∈ l.users := mem_of_lookup hdepth
    rw [hshared]
    exact share_spec h hout (Int.lt_add_one_of_le (Int.le_of_lt (h.users_pos _ hmem)))
      fun o ho => (h.owner_alone o ho _ hmem).symm
  | none =>
    rw [hdepth] at hshared
    have hone : (l.standing t).shared + 1 = 1 := by rw [hshared]; rfl
    rw [hone]
    dsimp only
    split
    · next howner =>
      exact share_spec h hout Int.one_pos fun o ho => (Option.some.inj (howner.symm.trans ho)).symm
    · next howner =>
      split
      · next hcond =>
        refine share_spec h hout Int.one_pos fun o ho => ?_
        simp [hasOwner, ho] at hcond
      · next hcond =>
        have hsound : Sound (l.queueUser t) :=
          joinUsers_sound h.toSound Int.one_pos hline howner
            (lookup_none_iff.1 hdepth) h.next_ticket (Nat.lt_succ_self _) (Nat.le_succ _)
        refine ⟨⟨⟨hsound, fun ho hu => ?_, fun ho hc => ?_⟩, fun u hu => ?_⟩, ?_⟩
        · have hempty := h.held ho hu
          rw [line, append_eq_nil_iff] at hempty
          exact absurd (by simp [hasOwner, hasWaitingOwners, show l.owner = none from ho, hempty.2])
            hcond
        · exact absurd (by simp [hasOwner, hasWaitingOwners, show l.owner = none from ho,
            show l.waitingOwners = [] from hc]) hcond
        · have hsame : (l.queueUser t).standing u = l.standing u := joinUsers_standing_of_ne hu
          rw [hsame]
          exact .refl _
        · have hself : (l.queueUser t).standing t = ⟨0, 1, some l.tickets⟩ :=
            joinUsers_standing (w := ⟨t, l.tickets, 1⟩) hsound
          rw [hself, standing_out hline, if_neg howner]
          exact .refl _

/-- Giving back takes an exclusive hold away. -/
theorem release?_spec (hpos : 0 < (l.standing t).exclusive) (coin : Bool) :
    ∃ l', l.release? coin t = some l' ∧ Moves t l l' ∧
      l'.standing t = ⟨(l.standing t).exclusive - 1, (l.standing t).shared, none⟩ := by
  have hline := ticket_none_iff.1 hout
  have howner := owner_of_exclusive hout (Int.ne_of_gt hpos)
  have hold := standing_of_owner h.toSound howner
  unfold release?
  rw [if_pos howner]
  dsimp only
  split
  · next hdepth =>
    rw [hold]
    exact ⟨_, rfl, own_spec h.toSound hout howner hdepth
      (fun u hu => Option.some.inj (hu.symm.trans howner)) (h.owner_alone t howner)⟩
  · next hdepth =>
    have hlast : l.depth = 1 := by
      have := h.owner_pos t howner
      omega
    have hsound : Sound { l with depth := l.depth - 1, owner := none } :=
      { h with owner_pos := by simp, owner_alone := by simp, line_owner := by simp }
    have hself : standing { l with depth := l.depth - 1, owner := none } t =
        ⟨l.depth - 1, (l.sharedDepth? t).getD 0, none⟩ := by
      rw [standing_out (show t ∉ (line { l with depth := l.depth - 1, owner := none }).map _ from
        hline)]
      simp [hlast]
      rfl
    refine ⟨_, rfl, Moves.letIn hsound (fun u hu => ?_) coin, ?_⟩
    · refine standing_congr rfl rfl ?_ rfl
      simp [howner, Ne.symm hu]
    · rw [letIn_standing hsound coin (by rw [hself]), hself, hold]

/-- Giving back takes a shared hold away. -/
theorem releaseShared?_spec (hpos : 0 < (l.standing t).shared) (coin : Bool) :
    ∃ l', l.releaseShared? coin t = some l' ∧ Moves t l l' ∧
      l'.standing t = ⟨(l.standing t).exclusive, (l.standing t).shared - 1, none⟩ := by
  have hline := ticket_none_iff.1 hout
  have hshared : (l.standing t).shared = (l.sharedDepth? t).getD 0 := by rw [standing_out hline]
  unfold releaseShared?
  cases hdepth : l.sharedDepth? t with
  | none =>
    rw [hshared, hdepth] at hpos
    cases hpos
  | some n =>
    rw [hdepth] at hshared
    have hmem : (t, n) ∈ l.users := mem_of_lookup hdepth
    have hn : (l.standing t).shared = n := hshared
    rw [hn]
    dsimp only
    split
    · next hmore =>
      exact ⟨_, rfl, share_spec h hout hmore fun o ho => (h.owner_alone o ho _ hmem).symm⟩
    · next hmore =>
      -- the last shared hold is given back, and others may be let in
      have hlast : n - 1 = 0 := by
        have := h.users_pos _ hmem
        omega
      have hsound := dropShared_sound (t := t) h.toSound
      have hself : (l.dropShared t).standing t = ⟨(l.standing t).exclusive, n - 1, none⟩ := by
        rw [standing_out (show t ∉ (l.dropShared t).line.map (·.thread) from hline),
          dropShared_sharedDepth?, if_pos rfl, standing_out hline, hlast]
        rfl
      refine ⟨_, rfl, Moves.letIn hsound (fun u hu => dropShared_standing_of_ne hu) coin, ?_⟩
      rw [letIn_standing hsound coin (by rw [hself]), hself]

end

/-- Where a thread is in line. -/
theorem mem_line {k : Nat} (hticket : (l.standing t).ticket = some k) :
    (l.standing t).exclusive ≠ 0 ∧ ⟨t, k, (l.standing t).shared⟩ ∈ l.waitingOwners ∨
      (l.standing t).exclusive = 0 ∧ ⟨t, k, (l.standing t).shared⟩ ∈ l.waitingUsers := by
  unfold standing at hticket ⊢
  split at hticket
  · next w hw =>
    have hthread : w.thread = t := by simpa using find?_some hw
    cases hticket
    cases hthread
    exact .inl ⟨Int.one_ne_zero, mem_of_find?_eq_some hw⟩
  · split at hticket
    · next w hw =>
      have hthread : w.thread = t := by simpa using find?_some hw
      cases hticket
      cases hthread
      exact .inr ⟨rfl, mem_of_find?_eq_some hw⟩
    · cases hticket

/-- The line without the call that has a ticket. -/
def leave (l : SharedLock α) (ticket : Nat) : SharedLock α :=
  { l with
    waitingUsers := l.waitingUsers.filter (·.ticket ≠ ticket)
    waitingOwners := l.waitingOwners.filter (·.ticket ≠ ticket) }

theorem leave_spec (h : Sound l) (hw : w ∈ l.line) :
    Sound (l.leave w.ticket) ∧ w.thread ∉ (l.leave w.ticket).line.map (·.thread) ∧
      ∀ u, u ≠ w.thread → (l.leave w.ticket).standing u = l.standing u := by
  have hline : (l.leave w.ticket).line = l.line.filter (·.ticket ≠ w.ticket) :=
    (filter_append ..).symm
  have hsub : (l.leave w.ticket).line.Sublist l.line := hline ▸ filter_sublist
  have hsound : Sound (l.leave w.ticket) :=
    ⟨h.users_nodup, h.users_pos, h.owner_pos, h.owner_alone, h.line_nodup.sublist (hsub.map _),
      fun v hv => h.line_owner v (hsub.subset hv), fun v hv => h.line_users v (hsub.subset hv),
      h.tickets_nodup.sublist (hsub.map _), fun v hv => h.tickets_lt v (hsub.subset hv),
      fun v hv => h.owners_shared v (mem_of_mem_filter hv),
      fun v hv => h.users_shared v (mem_of_mem_filter hv)⟩
  refine ⟨hsound, fun hc => ?_, fun u hu => ?_⟩
  · obtain ⟨v, hv, hthread⟩ := mem_map.1 hc
    obtain rfl : v = w := inj_on_of_nodup_map h.line_nodup (hsub.subset hv) hw hthread
    rw [hline] at hv
    simpa using (mem_filter.1 hv).2
  · by_cases hmem : u ∈ l.line.map (·.thread)
    · obtain ⟨v, hv, rfl⟩ := mem_map.1 hmem
      have hticket : v.ticket ≠ w.ticket := fun hc =>
        hu (congrArg (·.thread) (h.eq_of_ticket hv hw hc))
      have hkept {ws : List (Waiting α)} (hv : v ∈ ws) : v ∈ ws.filter (·.ticket ≠ w.ticket) :=
        mem_filter.2 ⟨hv, decide_eq_true hticket⟩
      rcases mem_append.1 hv with hv | hv
      · rw [h.standing_user hv, hsound.standing_user (hkept hv)]
      · rw [h.standing_owner hv, hsound.standing_owner (hkept hv)]
    · rw [standing_out hmem, standing_out fun hc => hmem ((hsub.map _).subset hc)]
      rfl

/-- A thread that gives up is no longer to own the lock. It keeps its shared holds, though it may
have to wait for them. -/
theorem giveUp_spec {k : Nat} (h : Lawful l) (hticket : (l.standing t).ticket = some k)
    (hexclusive : (l.standing t).exclusive ≠ 0) (coin : Bool) :
    Moves t l (l.giveUp coin k).1 ∧
      (l.giveUp coin k).1.standing t = ⟨(l.standing t).exclusive - 1, (l.standing t).shared,
        if (l.giveUp coin k).2 then some k else none⟩ := by
  have hmem := ((mem_line hticket).resolve_right fun hc => hexclusive hc.1).2
  obtain ⟨s, hs⟩ : ∃ s, (l.standing t).shared = s := ⟨_, rfl⟩
  rw [hs] at hmem
  have hline : _ ∈ l.line := mem_append_right _ hmem
  have hself : l.standing t = ⟨1, s, some k⟩ := h.standing_owner hmem
  have hsame : l.waitingUsers.filter (fun w => w.ticket ≠ k) = l.waitingUsers := by
    have hany := any_eq_false.1 (h.any_ticket hmem)
    exact filter_eq_self.2 fun v hv => by simpa using hany v hv
  obtain ⟨hsound, hout, hothers⟩ := leave_spec h.toSound hline
  unfold giveUp
  rw [h.any_ticket hmem, h.find?_ticket hmem, hself]
  simp only [Bool.false_eq_true, if_false]
  rw [leave, hsame] at hsound hout
  simp only [leave, hsame] at hothers
  generalize hl : ({ l with waitingOwners := l.waitingOwners.filter fun w => w.ticket ≠ k } :
    SharedLock α) = l₁ at hsound hout hothers ⊢
  have hgone : l₁.standing t = ⟨0, (l₁.sharedDepth? t).getD 0, none⟩ := by
    have howner : l₁.owner ≠ some t := hl ▸ h.line_owner _ hline
    rw [standing_out hout, if_neg howner]
  have hdepth : l₁.sharedDepth? t = none := hl ▸ lookup_none_iff.2 (h.line_users _ hline)
  split
  · next hpos =>
    split
    · next howner =>
      -- another thread owns the lock: the shared holds stay in line
      have hfresh : k ∉ l₁.line.map (·.ticket) := by
        subst hl
        intro hc
        obtain ⟨v, hv, hk⟩ := mem_map.1 hc
        have hv' : v ∈ l.line := ((List.Sublist.refl _).append List.filter_sublist).subset hv
        rw [h.eq_of_ticket hv' hline hk] at hv
        exact hout (mem_map_of_mem hv)
      have hjoin : Sound (l₁.joinUsers ⟨t, k, s⟩ l₁.tickets) := by
        refine joinUsers_sound hsound hpos hout ?_ (lookup_none_iff.1 hdepth) hfresh ?_
          (Nat.le_refl _)
        · exact hl ▸ h.line_owner _ hline
        · exact hl ▸ h.tickets_lt _ hline
      have hlet : letIn coin (l₁.joinUsers ⟨t, k, s⟩ l₁.tickets) =
          l₁.joinUsers ⟨t, k, s⟩ l₁.tickets :=
        if_pos howner
      subst hl
      refine ⟨Moves.letIn hjoin (fun u hu => ?_) coin, ?_⟩
      · exact (joinUsers_standing_of_ne hu).trans (hothers u hu)
      · rw [hlet]
        exact joinUsers_standing hjoin
    · next howner =>
      -- nobody owns it: the shared holds are given back at once
      have howner : l₁.owner = none := by simpa [hasOwner] using howner
      have hset := setShared_sound hsound hpos hout fun o ho => by
        cases howner.symm.trans ho
      have hstand : (l₁.setShared t s).standing t = ⟨0, s, none⟩ := by
        rw [standing_out (show t ∉ (l₁.setShared t s).line.map (·.thread) from hout),
          setShared_sharedDepth?, if_pos rfl, if_neg (by simp [setShared, howner])]
        rfl
      refine ⟨Moves.letIn hset (fun u hu => ?_) coin, ?_⟩
      · rw [setShared_standing_of_ne hu, hothers u hu]
      · rw [letIn_standing hset coin (by rw [hstand]), hstand]
        rfl
  · next hpos =>
    -- there is nothing to keep
    have hzero : s = 0 := by
      have := h.owners_shared _ hmem
      dsimp only at this
      omega
    refine ⟨Moves.letIn hsound hothers coin, ?_⟩
    rw [letIn_standing hsound coin (by rw [hgone]), hgone, hdepth, hzero]
    rfl

/-- Who shares a lock that another thread owns is in line to get its holds back. -/
theorem Lawful.in_line_of_owner (h : Lawful l) (howner : l.owner = some u) (ht : t ≠ u)
    (hshared : (l.standing t).shared ≠ 0) : (l.standing t).ticket ≠ none := by
  intro hc
  rw [standing_out (ticket_none_iff.1 hc)] at hshared
  refine hshared ?_
  show (l.sharedDepth? t).getD 0 = 0
  rw [sharedDepth?, lookup_none_iff.2]
  · rfl
  · intro hmem
    obtain ⟨x, hx, rfl⟩ := mem_map.1 hmem
    exact ht (h.owner_alone u howner x hx)

theorem ticket_none_iff_waiting : (l.standing t).ticket = none ↔ t ∉ l.waitingThreads := by
  rw [ticket_none_iff, line, map_append]
  rfl

end HostedLisp.SharedLock
