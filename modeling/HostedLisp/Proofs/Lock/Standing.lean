import HostedLisp.Lock.Basic
import Mathlib.Data.List.Nodup
import Mathlib.Data.List.Lookmap
import Mathlib.Logic.Basic

/-!
# Where a thread stands with a lock

Letting threads in, queueing and giving up move holds between the holders and the line, but no hold
gets lost on the way.

- `SharedLock.Standing`, `SharedLock.standing`: the holds that a thread has, or is to be given once
  it gets out of the line.
- `SharedLock.Sound`: holders and waiters do not get mixed up. `SharedLock.Lawful`: moreover nobody
  waits in vain.
- `SharedLock.letIn_lawful`, `SharedLock.letIn_kept`: letting in makes a sound lock lawful and keeps
  every standing.
-/

namespace HostedLisp.SharedLock

open List

variable {α : Type}

/-- The threads in line, those who wait to share the lock first. -/
def line (l : SharedLock α) : List (Waiting α) := l.waitingUsers ++ l.waitingOwners

/-- Holders and waiters do not get mixed up: no thread is in line twice, or in line for what it
has. -/
structure Sound (l : SharedLock α) : Prop where
  users_nodup : (l.users.map (·.1)).Nodup
  users_pos : ∀ u ∈ l.users, 0 < u.2
  owner_pos : ∀ t, l.owner = some t → 0 < l.depth
  owner_alone : ∀ t, l.owner = some t → ∀ u ∈ l.users, u.1 = t
  line_nodup : (l.line.map (·.thread)).Nodup
  line_owner : ∀ w ∈ l.line, l.owner ≠ some w.thread
  line_users : ∀ w ∈ l.line, w.thread ∉ l.users.map (·.1)
  tickets_nodup : (l.line.map (·.ticket)).Nodup
  tickets_lt : ∀ w ∈ l.line, w.ticket < l.tickets
  owners_shared : ∀ w ∈ l.waitingOwners, 0 ≤ w.shared
  users_shared : ∀ w ∈ l.waitingUsers, 0 < w.shared

/-- Nobody waits in vain: for a lock that nobody holds, or to share one that nobody is to own. -/
structure Lawful (l : SharedLock α) : Prop extends Sound l where
  held : l.owner = none → l.users = [] → l.line = []
  shared_at_once : l.owner = none → l.waitingOwners = [] → l.waitingUsers = []

/-- The holds of a thread, counting those that it is to be given, and its ticket if it is in
line. -/
structure Standing where
  exclusive : Int
  shared : Int
  ticket : Option Nat

/-- The same holds, and perhaps no longer in line for them. -/
def Standing.Kept (s s' : Standing) : Prop :=
  s'.exclusive = s.exclusive ∧ s'.shared = s.shared ∧ (s'.ticket = s.ticket ∨ s'.ticket = none)

theorem Standing.Kept.refl (s : Standing) : s.Kept s := ⟨rfl, rfl, .inl rfl⟩

theorem Standing.Kept.trans {s s' s'' : Standing} (h : s.Kept s') (h' : s'.Kept s'') :
    s.Kept s'' := by
  obtain ⟨he, hs, ht⟩ := h
  obtain ⟨he', hs', ht'⟩ := h'
  refine ⟨he'.trans he, hs'.trans hs, ?_⟩
  rcases ht' with ht' | ht'
  · rwa [ht']
  · exact .inr ht'

/-- Who is not in line stands as before. -/
theorem Standing.Kept.eq_of_out {s s' : Standing} (h : s.Kept s') (hout : s.ticket = none) :
    s' = s := by
  obtain ⟨he, hs, ht⟩ := h
  cases s
  cases s'
  simp_all

variable {l l' : SharedLock α} {t u : α} {w : Waiting α}

theorem Sound.owners_nodup (h : Sound l) : (l.waitingOwners.map (·.thread)).Nodup := by
  have hnodup := h.line_nodup
  rw [line, map_append, nodup_append] at hnodup
  exact hnodup.2.1

theorem Sound.waitingUsers_nodup (h : Sound l) : (l.waitingUsers.map (·.thread)).Nodup := by
  have hnodup := h.line_nodup
  rw [line, map_append, nodup_append] at hnodup
  exact hnodup.1

theorem Sound.apart (h : Sound l) (hu : u ∈ l.waitingUsers.map (·.thread)) :
    u ∉ l.waitingOwners.map (·.thread) := by
  have hnodup := h.line_nodup
  rw [line, map_append, nodup_append] at hnodup
  exact fun ho => hnodup.2.2 u hu u ho rfl

variable [DecidableEq α] {ws : List (Waiting α)}

/-- Where a thread stands with a lock. -/
def standing (l : SharedLock α) (t : α) : Standing :=
  match l.waitingOwners.find? (·.thread = t) with
  | some w => ⟨1, w.shared, some w.ticket⟩
  | none =>
    match l.waitingUsers.find? (·.thread = t) with
    | some w => ⟨0, w.shared, some w.ticket⟩
    | none => ⟨if l.owner = some t then l.depth else 0, (l.sharedDepth? t).getD 0, none⟩

/-! ## Lists of holders and waiters -/

theorem find?_thread (hnodup : (ws.map (·.thread)).Nodup) (hw : w ∈ ws) :
    ws.find? (fun x => x.thread = w.thread) = some w := by
  induction ws with
  | nil => cases hw
  | cons x ws ih =>
    rw [map_cons, nodup_cons] at hnodup
    rcases mem_cons.1 hw with rfl | hw
    · simp
    · have hne : x.thread ≠ w.thread := fun h => hnodup.1 (h ▸ mem_map_of_mem hw)
      simp [hne, ih hnodup.2 hw]

theorem find?_thread_none (h : t ∉ ws.map (·.thread)) :
    ws.find? (fun x => x.thread = t) = none := by
  rw [find?_eq_none]
  intro x hx hc
  exact h (mem_map.2 ⟨x, hx, of_decide_eq_true hc⟩)

variable {us : List (α × Int)} {n : Int} {rest : List (Waiting α)}

theorem lookup_none_iff {β : Type} {us : List (α × β)} : us.lookup t = none ↔ t ∉ us.map (·.1) := by
  simp only [lookup_eq_none_iff, bne_iff_ne, mem_map, not_exists, not_and]
  exact forall₂_congr fun _ _ => ne_comm

theorem mem_of_lookup (h : us.lookup t = some n) : (t, n) ∈ us := by
  obtain ⟨us₁, us₂, rfl, -⟩ := lookup_eq_some_iff.1 h
  exact mem_append_right _ mem_cons_self

theorem lookup_some (hnodup : (us.map (·.1)).Nodup) (h : (t, n) ∈ us) : us.lookup t = some n := by
  obtain ⟨us₁, us₂, rfl⟩ := append_of_mem h
  rw [map_append, map_cons, nodup_append] at hnodup
  refine lookup_eq_some_iff.2 ⟨us₁, us₂, rfl, fun u hu => bne_iff_ne.2 fun hc => ?_⟩
  exact hnodup.2.2 u.1 (mem_map_of_mem hu) t mem_cons_self hc.symm

/-! ## The standing of holders and waiters -/

theorem Sound.standing_owner (h : Sound l) (hw : w ∈ l.waitingOwners) :
    l.standing w.thread = ⟨1, w.shared, some w.ticket⟩ := by
  rw [standing, find?_thread h.owners_nodup hw]

theorem Sound.standing_user (h : Sound l) (hw : w ∈ l.waitingUsers) :
    l.standing w.thread = ⟨0, w.shared, some w.ticket⟩ := by
  rw [standing, find?_thread_none (h.apart (mem_map_of_mem hw)),
    find?_thread h.waitingUsers_nodup hw]

theorem standing_out (h : t ∉ l.line.map (·.thread)) :
    l.standing t = ⟨if l.owner = some t then l.depth else 0, (l.sharedDepth? t).getD 0, none⟩ := by
  rw [line, map_append, mem_append, not_or] at h
  rw [standing, find?_thread_none h.2, find?_thread_none h.1]

theorem ticket_none_iff : (l.standing t).ticket = none ↔ t ∉ l.line.map (·.thread) := by
  constructor
  · intro h hmem
    rw [line, map_append, mem_append, mem_map, mem_map] at hmem
    unfold standing at h
    split at h
    · cases h
    · next howner =>
      split at h
      · cases h
      · next huser =>
        rw [find?_eq_none] at howner huser
        rcases hmem with ⟨w, hw, rfl⟩ | ⟨w, hw, rfl⟩
        · exact huser w hw (by simp)
        · exact howner w hw (by simp)
  · intro h
    rw [standing_out h]

/-! ## Letting in -/

theorem setShared_new (h : t ∉ l.users.map (·.1)) :
    l.setShared t n = { l with users := l.users ++ [(t, n)] } := by
  rw [setShared, lookup_none_iff.2 h]
  rfl

theorem lookup_map : (us.map fun x => if x.1 = t then (x.1, n) else (x.1, x.2)).lookup u =
    (us.lookup u).map fun k => if u = t then n else k := by
  induction us with
  | nil => rfl
  | cons x us ih =>
    by_cases hx : u = x.1
    · grind
    · grind

theorem setShared_sharedDepth? (l : SharedLock α) (t u : α) (n : Int) :
    (l.setShared t n).sharedDepth? u = if u = t then some n else l.sharedDepth? u := by
  unfold setShared sharedDepth?
  split
  · next hsome =>
    obtain ⟨k, hk⟩ := Option.isSome_iff_exists.1 hsome
    rw [lookup_map]
    split
    · next hu =>
      rw [hu, hk]
      rfl
    · exact Option.map_id'
  · next hnone =>
    rw [Bool.not_eq_true, Option.isSome_eq_false_iff, Option.isNone_iff_eq_none] at hnone
    rw [lookup_append]
    by_cases hu : u = t
    · simp [hu, hnone]
    · simp [lookup_cons, hu, beq_false_of_ne hu]

theorem foldl_setShared (ws : List (Waiting α)) (hnodup : (ws.map (·.thread)).Nodup)
    (hnew : ∀ w ∈ ws, w.thread ∉ l.users.map (·.1)) :
    ws.foldl (fun l w => l.setShared w.thread w.shared) l =
      { l with users := l.users ++ ws.map fun w => (w.thread, w.shared) } := by
  induction ws generalizing l with
  | nil => simp
  | cons w ws ih =>
    rw [map_cons, nodup_cons] at hnodup
    rw [foldl_cons, setShared_new (hnew w mem_cons_self), ih hnodup.2 ?_]
    · simp
    · intro v hv
      rw [map_append, mem_append, not_or]
      refine ⟨hnew v (mem_cons_of_mem _ hv), ?_⟩
      rw [map_cons, map_nil, mem_singleton]
      exact fun hc => hnodup.1 (mem_map.2 ⟨v, hv, hc⟩)

theorem Sound.letInUsers_eq (h : Sound l) :
    l.letInUsers = { l with
      users := l.users ++ l.waitingUsers.map fun w => (w.thread, w.shared)
      waitingUsers := [] } := by
  refine (foldl_setShared l.waitingUsers h.waitingUsers_nodup fun w hw => ?_).trans rfl
  exact h.line_users w (mem_append_left _ hw)

theorem Sound.letInUsers (h : Sound l) (howner : l.owner = none) : Sound l.letInUsers := by
  rw [h.letInUsers_eq]
  have hthreads : (l.waitingUsers.map fun w => (w.thread, w.shared)).map (·.1) =
      l.waitingUsers.map (·.thread) := by
    rw [map_map]
    rfl
  refine ⟨?_, ?_, ?_, ?_, h.owners_nodup, ?_, ?_, ?_, ?_, h.owners_shared, ?_⟩
  · rw [map_append, hthreads, nodup_append]
    refine ⟨h.users_nodup, h.waitingUsers_nodup, ?_⟩
    rintro u hu v hv rfl
    obtain ⟨w, hw, rfl⟩ := mem_map.1 hv
    exact h.line_users w (mem_append_left _ hw) hu
  · intro u hu
    rcases mem_append.1 hu with hu | hu
    · exact h.users_pos u hu
    · obtain ⟨w, hw, rfl⟩ := mem_map.1 hu
      exact h.users_shared w hw
  iterate 2
    · intro t ht
      cases howner.symm.trans ht
  · intro w _
    show l.owner ≠ _
    rw [howner]
    exact fun hc => by cases hc
  · intro w hw
    rw [map_append, hthreads, mem_append, not_or]
    exact ⟨h.line_users w (mem_append_right _ hw), fun hc => h.apart hc (mem_map_of_mem hw)⟩
  · have htickets := h.tickets_nodup
    rw [line, map_append, nodup_append] at htickets
    exact htickets.2.1
  · exact fun w hw => h.tickets_lt w (mem_append_right _ hw)
  · exact fun w hw => by cases hw

theorem Sound.letInUsers_kept (h : Sound l) (howner : l.owner = none) (t : α) :
    (l.standing t).Kept (l.letInUsers.standing t) := by
  have hsound := h.letInUsers howner
  rw [h.letInUsers_eq] at hsound ⊢
  by_cases ho : t ∈ l.waitingOwners.map (·.thread)
  · -- who waits to own the lock goes on waiting
    obtain ⟨w, hw, rfl⟩ := mem_map.1 ho
    rw [h.standing_owner hw, hsound.standing_owner hw]
    exact .refl _
  · have hout : t ∉ (line { l with
        users := l.users ++ l.waitingUsers.map fun w => (w.thread, w.shared),
        waitingUsers := [] }).map (·.thread) := ho
    rw [standing_out hout]
    by_cases hu : t ∈ l.waitingUsers.map (·.thread)
    · -- who waited to share it has now what it was to be given
      obtain ⟨w, hw, rfl⟩ := mem_map.1 hu
      have hlookup : (l.users ++ l.waitingUsers.map fun w => (w.thread, w.shared)).lookup w.thread =
          some w.shared :=
        lookup_some hsound.users_nodup
          (mem_append_right _ (mem_map.2 ⟨w, hw, rfl⟩))
      rw [h.standing_user hw]
      refine ⟨?_, ?_, .inr rfl⟩
      · simp [howner]
      · simp [sharedDepth?, hlookup]
    · have hold : t ∉ l.line.map (·.thread) := by
        rw [line, map_append, mem_append, not_or]
        exact ⟨hu, ho⟩
      have hnew : (l.waitingUsers.map fun w => (w.thread, w.shared)).lookup t = none := by
        refine lookup_none_iff.2 ?_
        rwa [map_map]
      rw [standing_out hold]
      refine ⟨rfl, ?_, .inl rfl⟩
      simp [sharedDepth?, lookup_append, hnew]

theorem letInOwner_eq (husers : l.users = []) (rest : List (Waiting α)) :
    l.letInOwner w rest = { l with
      owner := some w.thread, depth := 1, waitingOwners := rest
      users := if w.shared > 0 then [(w.thread, w.shared)] else [] } := by
  rw [letInOwner]
  split
  · rw [setShared_new (by simp [husers])]
    simp [husers]
  · simp [husers]

theorem Sound.letInOwner (h : Sound l) (husers : l.users = [])
    (hline : l.waitingOwners = w :: rest) : Sound (l.letInOwner w rest) := by
  rw [letInOwner_eq husers]
  have hsub : ∀ v ∈ l.waitingUsers ++ rest, v ∈ l.line := by
    intro v hv
    rw [line, hline]
    rcases mem_append.1 hv with hv | hv
    · exact mem_append_left _ hv
    · exact mem_append_right _ (mem_cons_of_mem _ hv)
  have hsublist : (l.waitingUsers ++ rest).Sublist l.line := by
    rw [line, hline]
    exact (List.Sublist.refl _).append (sublist_cons_self w rest)
  have hapart : ∀ v ∈ l.waitingUsers ++ rest, w.thread ≠ v.thread := by
    have hnodup := h.line_nodup
    rw [line, hline, map_append, map_cons, nodup_middle, nodup_cons,
      ← map_append] at hnodup
    exact fun v hv hc => hnodup.1 (hc ▸ mem_map_of_mem hv)
  refine ⟨?_, ?_, fun _ _ => by simp, ?_, h.line_nodup.sublist (hsublist.map _), ?_, ?_,
    h.tickets_nodup.sublist (hsublist.map _), fun v hv => h.tickets_lt v (hsub v hv), ?_,
    h.users_shared⟩
  · split <;> simp
  · intro u hu
    split at hu
    · rw [mem_singleton] at hu
      subst hu
      assumption
    · cases hu
  · intro t ht u hu
    split at hu
    · rw [mem_singleton] at hu
      subst hu
      exact Option.some.inj ht
    · cases hu
  · exact fun v hv hc => hapart v hv (Option.some.inj hc)
  · intro v hv hc
    split at hc
    · exact hapart v hv (mem_singleton.1 hc).symm
    · cases hc
  · exact fun v hv => h.owners_shared v (hline ▸ mem_cons_of_mem _ hv)

theorem Sound.letInOwner_kept (h : Sound l) (howner : l.owner = none)
    (husers : l.users = []) (hline : l.waitingOwners = w :: rest) (t : α) :
    (l.standing t).Kept ((l.letInOwner w rest).standing t) := by
  have hsound := h.letInOwner husers hline
  have hw : w ∈ l.waitingOwners := hline ▸ mem_cons_self
  have hline' : (l.letInOwner w rest).line = l.waitingUsers ++ rest := by
    rw [letInOwner_eq husers]
    rfl
  by_cases hu : t ∈ l.waitingUsers.map (·.thread)
  · obtain ⟨v, hv, rfl⟩ := mem_map.1 hu
    have hv' : v ∈ (l.letInOwner w rest).waitingUsers := by
      rwa [letInOwner_eq husers]
    rw [h.standing_user hv, hsound.standing_user hv']
    exact .refl _
  by_cases ho : t ∈ rest.map (·.thread)
  · obtain ⟨v, hv, rfl⟩ := mem_map.1 ho
    have hv' : v ∈ (l.letInOwner w rest).waitingOwners := by
      rwa [letInOwner_eq husers]
    rw [h.standing_owner (hline ▸ mem_cons_of_mem _ hv), hsound.standing_owner hv']
    exact .refl _
  have hout : t ∉ (l.letInOwner w rest).line.map (·.thread) := by
    rw [hline', map_append, mem_append, not_or]
    exact ⟨hu, ho⟩
  rw [standing_out hout, letInOwner_eq husers]
  by_cases ht : w.thread = t
  · -- who is let in gets back the shared holds that went with it into the line
    subst ht
    rw [h.standing_owner hw]
    refine ⟨by simp, ?_, .inr rfl⟩
    have hshared := h.owners_shared w hw
    by_cases hpos : w.shared > 0
    · simp [sharedDepth?, hpos]
    · simp only [sharedDepth?, if_neg hpos]
      show (0 : Int) = w.shared
      omega
  · have hold : t ∉ l.line.map (·.thread) := by
      rw [line, hline, map_append, map_cons, mem_append, mem_cons, not_or, not_or]
      exact ⟨hu, Ne.symm ht, ho⟩
    have hlookup : (if w.shared > 0 then [(w.thread, w.shared)] else []).lookup t = none := by
      refine lookup_none_iff.2 ?_
      split
      · simpa using Ne.symm ht
      · simp
    rw [standing_out hold]
    refine ⟨?_, ?_, .inl rfl⟩
    · simp [howner, ht]
    · simp only [sharedDepth?, hlookup, husers]
      rfl

/-- Letting in lets nobody wait in vain. -/
theorem letIn_lawful (h : Sound l) (coin : Bool) : Lawful (l.letIn coin) := by
  unfold letIn
  split
  · next howner =>
    refine ⟨h, fun hc => ?_, fun hc => ?_⟩ <;>
    · rw [hasOwner, hc] at howner
      cases howner
  · next howner =>
    have howner : l.owner = none := by simpa [hasOwner] using howner
    split
    · next hline =>
      refine ⟨h.letInUsers howner, fun _ _ => ?_, fun _ _ => ?_⟩ <;> rw [h.letInUsers_eq]
      · exact hline
    · next w rest hline =>
      split
      · next husers =>
        -- it is shared, and the next owner has to wait
        refine ⟨h, fun _ hc => ?_, fun _ hc => ?_⟩
        · rw [hasUsers, hc] at husers
          cases husers
        · cases hline.symm.trans hc
      · next husers =>
        have husers : l.users = [] := by simpa [hasUsers] using husers
        -- it is free, and the coin says who comes first
        split
        · refine ⟨h.letInOwner husers hline, fun hc => ?_, fun hc => ?_⟩ <;>
          · rw [letInOwner_eq husers] at hc
            cases hc
        · next hcoin =>
          refine ⟨h.letInUsers howner, fun _ hc => ?_, fun _ _ => by rw [h.letInUsers_eq]⟩
          rw [h.letInUsers_eq] at hc
          simp only [husers, nil_append, map_eq_nil_iff] at hc
          simp [hc] at hcoin

/-- Letting in keeps the standing of every thread. -/
theorem letIn_kept (h : Sound l) (coin : Bool) (t : α) :
    (l.standing t).Kept ((l.letIn coin).standing t) := by
  unfold letIn
  split
  · exact .refl _
  · next howner =>
    have howner : l.owner = none := by simpa [hasOwner] using howner
    split
    · exact h.letInUsers_kept howner t
    · next w rest hline =>
      split
      · exact .refl _
      · next husers =>
        have husers : l.users = [] := by simpa [hasUsers] using husers
        split
        · exact h.letInOwner_kept howner husers hline t
        · exact h.letInUsers_kept howner t

/-! ## A lock that nobody has -/

/-- Nobody has a lock or waits for it. -/
structure Free (l : SharedLock α) : Prop where
  owner : l.owner = none
  users : l.users = []
  waitingOwners : l.waitingOwners = []
  waitingUsers : l.waitingUsers = []

omit [DecidableEq α] in
theorem Free.lawful (h : l.Free) : l.Lawful := by
  have hline : l.line = [] := by
    unfold line
    rw [h.waitingOwners, h.waitingUsers]
    rfl
  constructor
  case toSound =>
    constructor
    case users_nodup | users_pos | owner_alone => simp [h.users]
    case owner_pos => simp [h.owner]
    case line_nodup | line_owner | line_users | tickets_nodup | tickets_lt => simp [hline]
    case owners_shared => simp [h.waitingOwners]
    case users_shared => simp [h.waitingUsers]
  · exact fun _ _ => hline
  · exact fun _ _ => h.waitingUsers

theorem Free.standing (h : l.Free) (t : α) : l.standing t = ⟨0, 0, none⟩ := by
  unfold SharedLock.standing sharedDepth?
  rw [h.waitingOwners, h.waitingUsers, h.owner, h.users]
  rfl

end HostedLisp.SharedLock
