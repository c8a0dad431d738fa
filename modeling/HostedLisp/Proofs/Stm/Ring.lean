import HostedLisp.Proofs.Coll.VectorRefines
import HostedLisp.Stm.World
import Mathlib.Data.List.Cycle

/-!
# The ring of a history

The values of a reference lie in cells that are linked both ways in a ring. A commit puts its value
into a new cell, or else into the oldest one, which is the newest one then.

- `Ring`: the cells in memory.
- `Ring.step`: what happens to a reference, together with its ring.
- `Ring.Linked`: following `prev` visits each cell once.
- `Ring.Linked.counts`: counting the cells comes to an end, with their number.
- `history_ring`: whatever happens to a reference, its ring has the values of its history.
-/

namespace HostedLisp.Stm

open Function List

/-- Where the versions of a reference lie. -/
structure Ring where
  version : Nat → Version
  /-- The cell with the value before; for the oldest cell, the newest one. -/
  prev : Nat → Nat
  next : Nat → Nat
  newest : Nat
  /-- The first cell that is not in use. -/
  free : Nat

/-- What can happen to the history of a reference. -/
inductive Event where
  /-- A commit, some time after the one before. -/
  | commit (value : Value) (wait : Nat)
  | fault
  | setMinHistory (n : Int)
  | trimHistory

/-- The number of values that a history may reach. -/
def Event.raise (bound : Int) : Event → Int
  | setMinHistory n => max bound n
  | _ => bound

namespace Ring

/-- One cell, linked to itself. -/
def single (v : Version) : Ring where
  version _ := v
  prev := id
  next := id
  newest := 0
  free := 1

/-- Put a value into a new cell between the newest and the oldest one. -/
def grow (g : Ring) (v : Version) : Ring :=
  let oldest := g.next g.newest
  { version := update g.version g.free v
    prev := update (update g.prev g.free g.newest) oldest g.free
    next := update (update g.next g.free oldest) g.newest g.free
    newest := g.free
    free := g.free + 1 }

/-- Put a value into the oldest cell. -/
def recycle (g : Ring) (v : Version) : Ring :=
  let oldest := g.next g.newest
  { g with version := update g.version oldest v, newest := oldest }

/-- Link the newest cell to itself. -/
def trim (g : Ring) : Ring :=
  { g with prev := update g.prev g.newest g.newest, next := update g.next g.newest g.newest }

/-- Counting on from a cell comes to an end, and with which total: it stops at the newest cell. -/
inductive CountsFrom (g : Ring) : (cell count total : Nat) → Prop where
  | newest (n : Nat) : CountsFrom g g.newest n n
  | further {cell n total : Nat} (hcell : cell ≠ g.newest)
      (hnext : CountsFrom g (g.next cell) (n + 1) total) : CountsFrom g cell n total

/-- Counting the cells comes to an end, and with which total. -/
def Counts (g : Ring) (total : Nat) : Prop := g.CountsFrom (g.next g.newest) 1 total

/-- What an event does to a reference and its ring. -/
def step : Ref × Ring → Event → Except Error (Ref × Ring)
  | (x, g), .commit value wait => do
    let v : Version := ⟨value, (g.version g.newest).point + wait + 1⟩
    return (← x.commit v, if ← x.grows then g.grow v else g.recycle v)
  | (x, g), .fault => return ({ x with faults := x.faults + 1 }, g)
  | (x, g), .setMinHistory n => return ({ x with minHistory := .int n }, g)
  | (x, g), .trimHistory => return (x.trim, g.trim)

/-! ## Cells in a ring -/

/-- The cells of a ring from the newest one on. -/
structure Linked (g : Ring) (cells : List Nat) : Prop where
  newest : cells.head? = some g.newest
  links : Cycle.Chain (fun c d => g.prev c = d ∧ g.next d = c) cells
  nodup : cells.Nodup
  used : ∀ c ∈ cells, c < g.free

variable {g : Ring} {x : Ref}

theorem countsFrom_last {rest : List Nat} (hnew : g.newest ∉ rest)
    (hlinks : (g.newest :: rest).IsChain fun c d => g.prev c = d ∧ g.next d = c) (n : Nat) :
    g.CountsFrom ((g.newest :: rest).getLast (cons_ne_nil _ _)) n (n + rest.length) := by
  -- `next` goes through the cells from the last one to the first
  induction rest using reverseRecOn generalizing n with
  | nil => exact .newest n
  | append_singleton rest c ih =>
    rw [← cons_append] at hlinks
    obtain ⟨hinit, -, hlast⟩ := isChain_append.mp hlinks
    have hnext := (hlast _ (getLast?_eq_some_getLast (cons_ne_nil _ _)) c rfl).2
    simp only [mem_append, mem_singleton, not_or] at hnew
    simp only [← cons_append, getLast_append_singleton, length_append,
      length_singleton, ← Nat.add_assoc]
    refine .further (Ne.symm hnew.2) ?_
    rw [hnext, Nat.add_right_comm]
    exact ih hnew.1 hinit (n + 1)

namespace Linked

variable {cells : List Nat}

theorem chain (h : g.Linked cells) :
    (cells ++ [g.newest]).IsChain fun c d => g.prev c = d ∧ g.next d = c := by
  obtain ⟨rest, rfl⟩ := head?_eq_some_iff.mp h.newest
  exact (Cycle.chain_coe_cons _ _ _).mp h.links

/-- The oldest cell comes last. -/
theorem oldest (h : g.Linked cells) :
    g.prev (g.next g.newest) = g.newest ∧ ∃ init, cells = init ++ [g.next g.newest] := by
  obtain ⟨rest, hrest⟩ := head?_eq_some_iff.mp h.newest
  have hne : cells ≠ [] := by simp [hrest]
  obtain ⟨-, -, hlast⟩ := isChain_append.mp h.chain
  obtain ⟨hprev, hnext⟩ := hlast _ (getLast?_eq_some_getLast hne) g.newest rfl
  rw [hnext]
  exact ⟨hprev, cells.dropLast, (dropLast_concat_getLast hne).symm⟩

/-- Counting ends, with the number of the cells. -/
theorem counts (h : g.Linked cells) : g.Counts cells.length := by
  obtain ⟨-, init, hinit⟩ := h.oldest
  obtain ⟨rest, hrest⟩ := head?_eq_some_iff.mp h.newest
  have hnodup := h.nodup
  have hchain := (isChain_append.mp h.chain).1
  have hlast : cells.getLast? = some (g.next g.newest) := by simp [hinit]
  rw [hrest] at hnodup hchain hlast
  have hcount := countsFrom_last (nodup_cons.mp hnodup).1 hchain 1
  rw [getLast?_eq_some_getLast (cons_ne_nil _ _), Option.some.injEq] at hlast
  rw [hlast, Nat.add_comm] at hcount
  rw [hrest]
  exact hcount

theorem grow (h : g.Linked cells) (v : Version) : (g.grow v).Linked (g.free :: cells) := by
  obtain ⟨hprev, init, hinit⟩ := h.oldest
  have hfree : ∀ c ∈ cells, c ≠ g.free := fun c hc => Nat.ne_of_lt (h.used c hc)
  obtain ⟨rest, hrest⟩ := head?_eq_some_iff.mp h.newest
  have hnewest := hfree g.newest (by simp [hrest])
  have holdest := hfree (g.next g.newest) (by simp [hinit])
  refine ⟨rfl, ?_, nodup_cons.mpr ⟨fun hc => hfree _ hc rfl, h.nodup⟩, fun c hc => ?_⟩
  · have hcells : cells.IsChain fun c d => (g.grow v).prev c = d ∧ (g.grow v).next d = c := by
      refine (isChain_append.mp h.chain).1.imp_of_mem_tail_imp fun c d hc hd hcd => ?_
      have hd' : d ≠ g.newest := by
        rintro rfl
        rw [hrest] at hd
        exact (nodup_cons.mp (hrest ▸ h.nodup)).1 hd
      have hc' : c ≠ g.next g.newest := by
        rintro rfl
        exact hd' (hcd.1.symm.trans hprev)
      simp [Ring.grow, hc', hd', hfree c hc, hfree d (mem_of_mem_tail hd), hcd]
    refine (Cycle.chain_coe_cons _ _ _).mpr (.cons (.append hcells (.singleton _) ?_) ?_)
    · simp [Ring.grow, hinit, hnewest.symm]
    · simp [Ring.grow, hrest, holdest.symm]
  · rcases mem_cons.mp hc with rfl | hc
    · exact Nat.lt_succ_self _
    · exact Nat.lt_succ_of_lt (h.used c hc)

theorem recycle (v : Version) {init : List Nat} (h : g.Linked (init ++ [g.next g.newest])) :
    (g.recycle v).Linked (g.next g.newest :: init) := by
  have hperm := perm_append_singleton (g.next g.newest) init
  refine ⟨rfl, ?_, hperm.nodup h.nodup, fun c hc => h.used c (hperm.mem_iff.mpr hc)⟩
  rw [Cycle.coe_cons_eq_coe_append]
  exact h.links

theorem trim (h : g.Linked cells) : g.trim.Linked (cells.take 1) := by
  obtain ⟨rest, rfl⟩ := head?_eq_some_iff.mp h.newest
  refine ⟨rfl, (Cycle.chain_singleton _ _).mpr ?_, nodup_singleton _, fun c hc => ?_⟩
  · simp [Ring.trim]
  · exact h.used c (mem_of_mem_take hc)

end Linked

/-! ## Histories in rings -/

/-- The cells of a ring have the values of a history, newest first, and not more than a number. -/
structure Stores (g : Ring) (x : Ref) (cells : List Nat) (bound : Int) : Prop where
  linked : g.Linked cells
  versions : cells.map g.version = x.history
  falling : x.history.Pairwise (·.point > ·.point)
  least : ∃ n, x.minHistory = .int n ∧ n ≤ bound
  fits : (cells.length : Int) ≤ bound
  room : (Ref.maxHistory : Int) ≤ bound

namespace Stores

variable {cells : List Nat} {bound : Int} {v : Version}

theorem grows_eq (h : g.Stores x cells bound) {n : Int} (hn : x.minHistory = .int n) :
    x.grows = .ok (decide ((cells.length : Int) < n ∨
      0 < x.faults ∧ cells.length < Ref.maxHistory)) := by
  have hlength : x.history.length = cells.length := by rw [← h.versions, length_map]
  unfold Ref.grows
  rw [hlength, hn]
  by_cases hroom : x.faults > 0 ∧ cells.length < Ref.maxHistory
  · rw [if_pos hroom, decide_eq_true (.inr hroom)]
    rfl
  · rw [if_neg hroom, decide_eq_decide.mpr (or_iff_left hroom)]
    exact Value.less_int _ _

theorem map_update {c : Nat} (hc : c ∉ cells) (v : Version) :
    cells.map (update g.version c v) = cells.map g.version := by
  refine map_congr_left fun d hd => update_of_ne ?_ _ _
  rintro rfl
  exact hc hd

theorem grow (h : g.Stores x cells bound) (hv : ∀ u ∈ x.history, v.point > u.point)
    (hroom : (cells.length : Int) < bound) :
    (g.grow v).Stores { x with history := v :: x.history, faults := 0 } (g.free :: cells)
      bound := by
  have hfree : g.free ∉ cells := fun hc => Nat.lt_irrefl _ (h.linked.used _ hc)
  refine { h with
    linked := h.linked.grow v
    versions := ?_
    falling := pairwise_cons.mpr ⟨hv, h.falling⟩
    fits := hroom }
  simp only [Ring.grow, map_cons, update_self, map_update hfree, h.versions]

theorem recycle {init : List Nat} (h : g.Stores x (init ++ [g.next g.newest]) bound)
    (hv : ∀ u ∈ x.history, v.point > u.point) :
    (g.recycle v).Stores { x with history := v :: x.history.dropLast } (g.next g.newest :: init)
      bound := by
  have hnew : g.next g.newest ∉ init := (nodup_cons.mp (h.linked.recycle v).nodup).1
  refine { h with
    linked := h.linked.recycle v
    versions := ?_
    falling := pairwise_cons.mpr ⟨fun u hu => hv u (mem_of_mem_dropLast hu),
      h.falling.sublist (dropLast_sublist _)⟩
    fits := ?_ }
  · simp [Ring.recycle, map_update hnew, ← h.versions]
  · simpa using h.fits

/-- A commit takes a new cell if more values are wanted, and else the oldest one. -/
theorem commit (h : g.Stores x cells bound) {n : Int} (hn : x.minHistory = .int n) (value : Value)
    (wait : Nat) :
    ∃ y g' cells', step (x, g) (.commit value wait) = .ok (y, g') ∧ g'.Stores y cells' bound ∧
      cells'.length = if (cells.length : Int) < n ∨ 0 < x.faults ∧ cells.length < Ref.maxHistory
        then cells.length + 1 else cells.length := by
  obtain ⟨rest, hrest⟩ := head?_eq_some_iff.mp h.linked.newest
  obtain ⟨-, init, hinit⟩ := h.linked.oldest
  have hx : x.history = g.version g.newest :: rest.map g.version := by rw [← h.versions, hrest]; rfl
  have hlater : ∀ u ∈ x.history, (g.version g.newest).point + wait + 1 > u.point := by
    have hfalling := h.falling
    rw [hx, pairwise_cons] at hfalling
    rw [hx, forall_mem_cons]
    refine ⟨by omega, fun u hu => ?_⟩
    have hless := hfalling.1 u hu
    omega
  have hempty : x.history.isEmpty = false := by simp [hx]
  simp only [step, Ref.commit, hempty, h.grows_eq hn, ok_bind, decide_eq_true_eq,
    Bool.false_eq_true, if_false]
  split_ifs with hgrows
  · refine ⟨_, _, _, rfl, h.grow hlater ?_, rfl⟩
    obtain ⟨m, hm, hleast⟩ := h.least
    obtain rfl := Value.int.inj (hn.symm.trans hm)
    have hroom := h.room
    omega
  · rw [hinit] at h
    refine ⟨_, _, _, rfl, h.recycle hlater, ?_⟩
    rw [hinit, length_append, length_cons, length_singleton]

theorem step (h : g.Stores x cells bound) (e : Event) :
    ∃ y g' cells', Ring.step (x, g) e = .ok (y, g') ∧ g'.Stores y cells' (e.raise bound) := by
  obtain ⟨n, hn, -⟩ := h.least
  cases e with
  | commit value wait =>
    obtain ⟨y, g', cells', hstep, hstores, -⟩ := h.commit hn value wait
    exact ⟨y, g', cells', hstep, hstores⟩
  | fault => exact ⟨_, g, cells, rfl, { h with }⟩
  | setMinHistory n =>
    exact ⟨_, g, cells, rfl, { h with
      least := ⟨n, rfl, le_max_right _ _⟩
      fits := le_max_of_le_left h.fits
      room := le_max_of_le_left h.room }⟩
  | trimHistory =>
    refine ⟨_, _, _, rfl, { h with
      linked := h.linked.trim
      versions := ?_
      falling := h.falling.sublist (take_sublist _ _)
      fits := ?_ }⟩
    · rw [map_take]
      exact congrArg (take 1) h.versions
    · rw [length_take]
      exact le_trans (Int.ofNat_le.mpr (Nat.min_le_right _ _)) h.fits

/-- Whatever happens, the ring goes on as the history does. -/
theorem steps (h : g.Stores x cells bound) (events : List Event) :
    ∃ y g' cells', events.foldlM Ring.step (x, g) = .ok (y, g') ∧
      g'.Stores y cells' (events.foldl Event.raise bound) := by
  induction events generalizing x g cells bound with
  | nil => exact ⟨x, g, cells, rfl, h⟩
  | cons e events ih =>
    obtain ⟨y, g', cells', hstep, hstores⟩ := h.step e
    rw [foldlM_cons, hstep]
    exact ih hstores

end Stores

end Ring

end HostedLisp.Stm
