import HostedLisp.Proofs.Coll.HashTrieInsert
import HostedLisp.Proofs.Walk
import Mathlib.Data.List.Induction

/-!
# Hash maps are finite maps

A map that was built from the empty one by binding keys, the nil key among them, answers as the list
of these bindings does. The value of nil is kept apart from the nodes, so nil is a key of its own
even where the equality of keys finds it equal to another one.

- `Keying.strict`: the equality of keys with nil told from all others.
- `HashMap.insertAll`: binding keys in turn.
- `HashMap.bindings`: all bindings of a map.
- `lastValue`, `distinctKeys`: what the list of bindings says.
- `HashMap.Sound`: a map with sound nodes and keys of a class.
- `HashMap.Holds`: the invariant, with its step (`Holds.insert`) and run (`Holds.insertAll`).
- `Value.walks_tableSeq`: the sequence of a hash map is that of its bindings.
- `Value.hashMap_refines_finite_map`: all answers of a map.
- `HashMap.insert_error_iff`: a key is refused just when one of its hash stands alone that far down.
-/

namespace HostedLisp.Coll

open List TrieNode

variable {K V : Type} {keying : Keying K V} {S : K → Prop} {key : K} {val : V}

/-! ## Lists of bindings -/

/-- The value that was bound to a key last. -/
def lastValue (keying : Keying K V) (key : K) (calls : List (K × V)) : Option V :=
  (calls.reverse.find? fun c => keying.eq c.1 key).map Prod.snd

/-- The keys that were bound, each where it came first. -/
def distinctKeys (keying : Keying K V) (calls : List (K × V)) : List K :=
  calls.foldl (fun seen c => if seen.any (keying.eq c.1) then seen else seen ++ [c.1]) []

variable (calls : List (K × V)) {es es' xs ys : List (K × V)} {added : Bool}

theorem lastValue_concat (c : K × V) (key : K) :
    lastValue keying key (calls ++ [c]) =
      if keying.eq c.1 key then some c.2 else lastValue keying key calls := by
  unfold lastValue
  rw [reverse_append, reverse_singleton, singleton_append, find?_cons]
  cases keying.eq c.1 key <;> rfl

theorem isSome_lastValue (key : K) :
    (lastValue keying key calls).isSome = calls.any fun c => keying.eq c.1 key := by
  unfold lastValue
  rw [Option.isSome_map, Bool.eq_iff_iff, find?_isSome, any_eq_true]
  simp only [mem_reverse]

theorem distinctKeys_concat (c : K × V) :
    distinctKeys keying (calls ++ [c]) =
      if (distinctKeys keying calls).any (keying.eq c.1) then distinctKeys keying calls
      else distinctKeys keying calls ++ [c.1] := by
  unfold distinctKeys
  rw [foldl_append]
  rfl

/-- A key is equal to one of the distinct ones just when it was bound. -/
theorem any_distinctKeys (hl : keying.Lawful) (calls : List (K × V)) (key : K) :
    (distinctKeys keying calls).any (keying.eq key) = calls.any fun c => keying.eq c.1 key := by
  induction calls using List.reverseRecOn with
  | nil => rfl
  | append_singleton calls c ih =>
    rw [distinctKeys_concat, any_append, any_cons, any_nil, Bool.or_false, ← ih]
    split
    · next hseen =>
      -- a key equal to the one that is skipped is equal to the one that stands for it
      cases hc : keying.eq c.1 key with
      | false => rw [Bool.or_false]
      | true =>
        rw [Bool.or_true]
        rw [any_eq_true] at hseen ⊢
        obtain ⟨d, hd, hcd⟩ := hseen
        exact ⟨d, hd, by rwa [← hl.eq_congr hc]⟩
    · rw [any_append, any_cons, any_nil, Bool.or_false, hl.eq_comm key c.1]

/-! ## Binding a key in a list of bindings -/

theorem Distinct.perm (hl : keying.Lawful) (h : xs.Perm ys) :
    Distinct keying xs ↔ Distinct keying ys := h.pairwise_iff fun {a b} hab => by rwa [hl.eq_comm]

/-- The order of bindings of different keys does not matter. -/
theorem lookup_perm (hl : keying.Lawful) (hd : Distinct keying xs)
    (h : xs.Perm ys) : lookup keying key xs = lookup keying key ys := by
  have hon : keying.LawfulOn ⊤ := hl.on
  have hall (es : List (K × V)) : ∀ e ∈ es, (⊤ : K → Prop) e.1 := fun _ _ => trivial
  refine Option.ext fun v => ?_
  rw [lookup_eq_some_iff hon trivial (hall _) hd,
    lookup_eq_some_iff hon trivial (hall _) ((Distinct.perm hl h).mp hd)]
  simp only [h.mem_iff]

theorem isSome_lookup_iff {es : List (K × V)} :
    (lookup keying key es).isSome = true ↔ ∃ e ∈ es, keying.eq key e.1 = true := by
  unfold lookup
  rw [Option.isSome_map, find?_isSome]

/-- Looking keys up after one was bound. -/
theorem Binds.lookup_eq (hl : keying.Lawful) (hd : Distinct keying es) (hd' : Distinct keying es')
    (h : Binds keying key val es es' added) (k : K) :
    ∃ w, keying.Same w val ∧
      lookup keying k es' = if keying.eq key k then some w else lookup keying k es := by
  cases h with
  | added perm =>
    refine ⟨val, .inl rfl, ?_⟩
    rw [lookup_perm hl hd' perm, lookup_cons, hl.eq_comm]
  | @replaced rest k₁ _ w found before same after =>
    have hfound : keying.eq key k₁ = true := found.elim id (hl.eq_symm k₁ key)
    refine ⟨w, same, ?_⟩
    rw [lookup_perm hl hd' after, lookup_perm hl hd before, lookup_cons, lookup_cons,
      hl.eq_congr hfound, hl.eq_comm]
    split <;> rfl

theorem Binds.length_eq (h : Binds keying key val es es' added) :
    es'.length = if added then es.length + 1 else es.length := by
  cases h with
  | added perm => exact perm.length_eq
  | replaced _ before _ after => exact after.length_eq.trans before.length_eq.symm

/-- The flag tells whether the key was there. -/
theorem Binds.added_iff (hl : keying.Lawful) (hd : Distinct keying es) (hd' : Distinct keying es')
    (h : Binds keying key val es es' added) : added = true ↔ lookup keying key es = none := by
  cases h with
  | added perm => simp [lookup_of_fresh (pairwise_cons.mp ((Distinct.perm hl perm).mp hd')).1]
  | @replaced _ k _ _ found before =>
    simp [lookup_perm hl hd before, lookup_cons, found.elim id (hl.eq_symm k key)]

/-! ## Nil as a key of its own -/

namespace Keying

/-- Whether two keys count as one. Nil is told from all others, whatever the equality says. -/
def sameKey (keying : Keying K V) (a b : K) : Bool :=
  if keying.isNil a || keying.isNil b then keying.isNil a && keying.isNil b else keying.eq a b

/-- The keying that tells nil from all other keys. -/
def strict (keying : Keying K V) : Keying K V := { keying with eq := keying.sameKey }

theorem strict_eq_of_nil {a : K} (ha : keying.isNil a = true) (b : K) :
    keying.strict.eq a b = keying.isNil b := by
  simp [strict, sameKey, ha]

theorem strict_eq_of_not_nil {a b : K} (ha : keying.isNil a = false)
    (hb : keying.isNil b = false) : keying.strict.eq a b = keying.eq a b := by
  simp [strict, sameKey, ha, hb]

/-- Keys that count as one are both nil or equal. -/
theorem strict_eq_iff {a b : K} : keying.strict.eq a b = true ↔
    keying.isNil a = true ∧ keying.isNil b = true ∨
      (keying.isNil a = false ∧ keying.isNil b = false) ∧ keying.eq a b = true := by
  cases ha : keying.isNil a <;> cases hb : keying.isNil b <;> simp [strict, sameKey, ha, hb]

theorem LawfulOn.strict (hl : keying.LawfulOn S) {nilKey : K}
    (hnil : ∀ k, keying.isNil k = true ↔ k = nilKey) : keying.strict.LawfulOn S where
  eq_refl a hS := by
    rw [strict_eq_iff]
    cases keying.isNil a <;> simp [hl.eq_refl a hS]
  eq_symm a b hS hS' h := by
    rw [strict_eq_iff] at h ⊢
    rcases h with ⟨ha, hb⟩ | ⟨⟨ha, hb⟩, h⟩
    · exact .inl ⟨hb, ha⟩
    · exact .inr ⟨⟨hb, ha⟩, hl.eq_symm a b hS hS' h⟩
  eq_trans a b c hS hS' hS'' h h' := by
    rw [strict_eq_iff] at h h' ⊢
    rcases h with ⟨ha, hb⟩ | ⟨⟨ha, hb⟩, h⟩
    · rcases h' with ⟨-, hc⟩ | ⟨⟨hb', -⟩, -⟩
      · exact .inl ⟨ha, hc⟩
      · cases hb.symm.trans hb'
    · rcases h' with ⟨hb', -⟩ | ⟨⟨-, hc⟩, h'⟩
      · cases hb.symm.trans hb'
      · exact .inr ⟨⟨ha, hc⟩, hl.eq_trans a b c hS hS' hS'' h h'⟩
  hash_eq a b hS hS' h := by
    rcases strict_eq_iff.mp h with ⟨ha, hb⟩ | ⟨-, h⟩
    · rw [(hnil a).mp ha, (hnil b).mp hb]
    · exact hl.hash_eq a b hS hS' h
  hash_range := hl.hash_range

theorem Lawful.strict (hl : keying.Lawful) {nilKey : K}
    (hnil : ∀ k, keying.isNil k = true ↔ k = nilKey) : keying.strict.Lawful :=
  (hl.on.strict hnil).lawful

end Keying

section Strict

variable {es es' : List (K × V)} (hes : ∀ e ∈ es, keying.isNil e.1 = false)

include hes

/-- Among keys other than nil nothing changes. -/
theorem fresh_strict (hkey : keying.isNil key = false) :
    Fresh keying.strict key es ↔ Fresh keying key es :=
  forall₂_congr fun e he => by rw [Keying.strict_eq_of_not_nil hkey (hes e he)]

theorem distinct_strict : Distinct keying.strict es ↔ Distinct keying es :=
  List.Pairwise.iff_of_mem fun {a b} ha hb => by
    rw [Keying.strict_eq_of_not_nil (hes a ha) (hes b hb)]

theorem lookup_strict (hkey : keying.isNil key = false) :
    lookup keying.strict key es = lookup keying key es := by
  unfold lookup
  rw [find?_congr fun e he => Keying.strict_eq_of_not_nil hkey (hes e he)]

theorem Binds.strict (hkey : keying.isNil key = false) {added : Bool}
    (h : Binds keying key val es es' added) : Binds keying.strict key val es es' added := by
  cases h with
  | added perm => exact .added perm
  | @replaced _ k v _ found before same after =>
    have hk : keying.isNil k = false := hes (k, v) (before.mem_iff.mpr mem_cons_self)
    refine .replaced ?_ before same after
    rwa [Keying.strict_eq_of_not_nil hkey hk, Keying.strict_eq_of_not_nil hk hkey]

end Strict

namespace HashMap

/-! ## Insertions and bindings -/

/-- Bind keys in turn. -/
def insertAll (keying : Keying K V) (m : HashMap K V) (calls : List (K × V)) :
    Except TrieFailure (HashMap K V) := calls.foldlM (fun m c => m.insert keying c.1 c.2) m

/-- All bindings in the order in which a map is walked: that of the nil key comes first. -/
def bindings (nilKey : K) (m : HashMap K V) : List (K × V) :=
  m.nilValue.toList.map (nilKey, ·) ++ m.nodeEntries

/-! ## Sound maps -/

/-- A map whose keys are of a class, whose nodes are sound and do not bind the nil key, and whose
count is right if keys are lawful. -/
structure Sound (keying : Keying K V) (S : K → Prop) (nilKey : K) (m : HashMap K V) : Prop where
  root : ∀ n, m.root = some n → TrieNode.Sound keying S 0 n
  nodes : ∀ e ∈ m.nodeEntries, keying.isNil e.1 = false
  keys : ∀ e ∈ m.bindings nilKey, S e.1
  count : keying.LawfulOn S → m.count = (m.bindings nilKey).length

variable {nilKey : K} {m m' : HashMap K V}

theorem sound_empty (keying : Keying K V) (S : K → Prop) (nilKey : K) :
    Sound keying S nilKey .empty :=
  ⟨fun _ h => (nomatch h), fun _ h => (nomatch h), fun _ h => (nomatch h), fun _ => rfl⟩

theorem Sound.keys_nodes (h : Sound keying S nilKey m) : ∀ e ∈ m.nodeEntries, S e.1 :=
  fun e he => h.keys e (mem_append_right _ he)

/-- Nothing in the nodes counts as nil. -/
theorem Sound.fresh_nil (h : Sound keying S nilKey m) (hkey : keying.isNil key = true) :
    Fresh keying.strict key m.nodeEntries := fun e he => by
  rw [Keying.strict_eq_of_nil hkey]
  exact h.nodes e he

/-! ## One insertion -/

theorem insert_empty (hash : Int) (key : K) (val : V) (fuel shift : Nat) :
    TrieNode.insert keying hash key val (fuel + 1) shift .empty =
      .ok ⟨.single shift hash key val, true⟩ := by
  have hbits : bitCount 0 = 0 := by decide
  simp [TrieNode.empty, TrieNode.insert, single, hbits, pure, Except.pure]

section

variable (h : Sound keying S nilKey m)

include h

/-- Inserting into the nodes binds the key there, also where there are no nodes yet. -/
theorem Sound.insert_root (hS : S key) (val : V) :
    Inserts keying S key val 0 m.nodeEntries
      (∃ root, m.root = some root ∧ Blocked keying key 0 root)
      ((m.root.getD .empty).insert keying (keying.hash key) key val maxLevels 0) := by
  have hkeys := h.keys_nodes
  unfold nodeEntries at hkeys ⊢
  cases hroot : m.root with
  | none =>
    refine .inr ⟨_, insert_empty (keying.hash key) key val 31 0, ?_,
      single_sound (fun _ => Nat.zero_le _) key val, ?_⟩
    · rintro ⟨root, hr, -⟩
      cases hr
    · exact .added (.refl _)
  | some n =>
    rw [hroot] at hkeys
    have hnode := insert_spec key val maxLevels 0 n (h.root n hroot)
      ⟨hS, hkeys, fun e _ => agree_zero ..⟩ (by decide)
    simpa [InsertsInto] using hnode

/-- Changing the value of nil keeps a map sound when the count follows. -/
theorem Sound.set_nil (hS : S nilKey) {count : Int} {v : V}
    (hcount : keying.LawfulOn S → count = m.nodeEntries.length + 1) :
    Sound keying S nilKey { m with count := count, nilValue := some v } :=
  ⟨h.root, h.nodes, forall_mem_cons.mpr ⟨hS, h.keys_nodes⟩, fun hl => by
    rw [hcount hl]
    exact (Int.natCast_succ _).symm⟩

/-- Inserting nil binds it. -/
theorem Sound.insert_nil (hnil : keying.isNil nilKey = true)
    (hS : S nilKey) (hins : m.insert keying nilKey val = .ok m') :
    Sound keying S nilKey m' ∧
      ∃ added, Binds keying.strict nilKey val (m.bindings nilKey) (m'.bindings nilKey) added := by
  have hcount := h.count
  unfold HashMap.insert at hins
  rw [if_pos hnil] at hins
  unfold bindings at hcount ⊢
  cases hval : m.nilValue with
  | none =>
    rw [hval] at hins hcount
    cases hins
    refine ⟨h.set_nil hS fun hl => congrArg (· + 1) (hcount hl), true, ?_⟩
    exact .added (.refl _)
  | some old =>
    rw [hval] at hins hcount
    have hself : keying.strict.eq nilKey nilKey = true :=
      (Keying.strict_eq_of_nil hnil _).trans hnil
    cases hins
    split
    · next hsame =>
      rw [hval]
      exact ⟨h, false, .replaced (.inl hself) (.refl _) (.inr (.inr hsame)) (.refl _)⟩
    · exact ⟨h.set_nil hS hcount, false, .replaced (.inl hself) (.refl _) (.inl rfl) (.refl _)⟩

/-- Inserting another key binds it. -/
theorem Sound.insert_node (hkey : keying.isNil key = false)
    (hS : S key) (hins : m.insert keying key val = .ok m') :
    Sound keying S nilKey m' ∧
      ∃ added, Binds keying.strict key val (m.bindings nilKey) (m'.bindings nilKey) added := by
  unfold HashMap.insert at hins
  rw [if_neg (by simp [hkey])] at hins
  rcases h.insert_root hS val with ⟨hr, -⟩ | ⟨r, hr, -, hroot, hbinds⟩
  · rw [hr] at hins
    cases hins
  · rw [hr] at hins
    cases hins
    have hall : Binds keying.strict key val (m.bindings nilKey)
        (m.nilValue.toList.map (nilKey, ·) ++ r.node.entries) r.added := by
      have hframe := (hbinds.strict h.nodes hkey).frame (m.nilValue.toList.map (nilKey, ·)) []
      rwa [append_nil, append_nil] at hframe
    have hnodes := hbinds.forall_keys (P := fun k => keying.isNil k = false) hkey h.nodes
    refine ⟨⟨fun n hn => ?_, hnodes, hall.forall_keys (P := S) hS h.keys, fun hl => ?_⟩, r.added,
      hall⟩
    · cases hn
      exact hroot
    · show (if r.added then m.count + 1 else m.count) = ((_ ++ r.node.entries).length : Int)
      rw [hall.length_eq, h.count hl]
      split <;> rfl

end

section

variable (hl : keying.LawfulOn S) (hnil : ∀ k, keying.isNil k = true ↔ k = nilKey)
  (h : Sound keying S nilKey m)

include hnil h

/-- Inserting into a sound map binds the key and gives a sound map. -/
theorem Sound.insert (hS : S key) (hins : m.insert keying key val = .ok m') :
    Sound keying S nilKey m' ∧
      ∃ added, Binds keying.strict key val (m.bindings nilKey) (m'.bindings nilKey) added := by
  cases hkey : keying.isNil key with
  | false => exact h.insert_node hkey hS hins
  | true =>
    obtain rfl := (hnil key).mp hkey
    exact h.insert_nil hkey hS hins

/-! ## Looking a key up -/

/-- The bindings of a sound map have for nil what is kept apart, and else what the nodes have. -/
theorem Sound.lookup_bindings (key : K) :
    lookup keying.strict key (m.bindings nilKey) =
      if keying.isNil key then m.nilValue else lookup keying key m.nodeEntries := by
  have hself : keying.isNil nilKey = true := (hnil nilKey).mpr rfl
  unfold bindings
  cases hkey : keying.isNil key with
  | true =>
    cases m.nilValue with
    | none => exact lookup_of_fresh (h.fresh_nil hkey)
    | some v => exact (lookup_cons ..).trans (if_pos ((Keying.strict_eq_of_nil hkey _).trans hself))
  | false =>
    have hne : keying.strict.eq key nilKey = false := by
      simp [Keying.strict, Keying.sameKey, hkey, hself]
    cases m.nilValue with
    | none => exact lookup_strict h.nodes hkey
    | some v =>
      refine (lookup_cons ..).trans ?_
      rw [hne]
      exact lookup_strict h.nodes hkey

include hl

omit hnil in
theorem Sound.distinct_nodes : Distinct keying.strict m.nodeEntries := by
  rw [distinct_strict h.nodes]
  have hkeys := h.keys_nodes
  unfold nodeEntries at hkeys ⊢
  cases hroot : m.root with
  | none => exact List.Pairwise.nil
  | some n =>
    rw [hroot] at hkeys
    exact (h.root n hroot).distinct hl hkeys

theorem Sound.distinct : Distinct keying.strict (m.bindings nilKey) := by
  unfold bindings
  cases m.nilValue with
  | none => exact h.distinct_nodes hl
  | some v => exact pairwise_cons.mpr ⟨h.fresh_nil ((hnil _).mpr rfl), h.distinct_nodes hl⟩

/-- Looking a key up in a sound map never fails and finds what the bindings say, also with another
keying that treats keys of the class alike. -/
theorem Sound.find?_eq {keying' : Keying K V} (hagree : keying'.AgreesOn keying S) (hS : S key) :
    m.find? keying' key = .ok (lookup keying.strict key (m.bindings nilKey)) := by
  have hkeys := h.keys_nodes
  rw [h.lookup_bindings hnil]
  unfold find? findInNodes? nodeEntries at *
  rw [hagree.isNil, hagree.hash key hS]
  split
  · rfl
  · cases hroot : m.root with
    | none => rfl
    | some n =>
      rw [hroot] at hkeys
      exact (h.root n hroot).find?_eq hl hS hagree hkeys _ (by decide)

end

/-! ## Many insertions -/

/-- A sound map that has what the given insertions have bound. -/
structure Holds (keying : Keying K V) (nilKey : K) (m : HashMap K V) (calls : List (K × V)) : Prop
    extends Sound keying ⊤ nilKey m where
  values : ∀ key, Option.Rel keying.Same (lookup keying.strict key (m.bindings nilKey))
    (lastValue keying.strict key calls)
  size : (m.bindings nilKey).length = (distinctKeys keying.strict calls).length

theorem holds_empty (keying : Keying K V) (nilKey : K) : Holds keying nilKey .empty [] :=
  { sound_empty keying ⊤ nilKey with
    values := fun _ => .none
    size := rfl }

variable {calls : List (K × V)}

/-- A key is bound just when it was the key of an insertion. -/
theorem Holds.isSome_lookup (h : Holds keying nilKey m calls) (key : K) :
    (lookup keying.strict key (m.bindings nilKey)).isSome =
      calls.any fun c => keying.strict.eq c.1 key := by
  rw [← isSome_lastValue]
  have hrel := h.values key
  generalize lookup keying.strict key (m.bindings nilKey) = found at hrel ⊢
  generalize lastValue keying.strict key calls = last at hrel ⊢
  cases hrel <;> rfl

variable (hl : keying.Lawful) (hnil : ∀ k, keying.isNil k = true ↔ k = nilKey)

include hl hnil

theorem Sound.find?_lookup (h : Sound keying ⊤ nilKey m) (key : K) :
    m.find? keying key = .ok (lookup keying.strict key (m.bindings nilKey)) :=
  h.find?_eq hl.on hnil ⟨rfl, fun _ _ => rfl, fun _ _ _ _ => rfl⟩ trivial

/-- One insertion more. -/
theorem Holds.insert (h : Holds keying nilKey m calls) (hins : m.insert keying key val = .ok m') :
    Holds keying nilKey m' (calls ++ [(key, val)]) := by
  have hs : keying.strict.Lawful := hl.strict hnil
  have hd := h.distinct hl.on hnil
  obtain ⟨hsound, added, hbinds⟩ := h.toSound.insert hnil trivial hins
  refine { hsound with values := fun k => ?_, size := ?_ }
  · obtain ⟨w, hsame, hlookup⟩ := hbinds.lookup_eq hs hd (hsound.distinct hl.on hnil) k
    rw [hlookup, lastValue_concat]
    split
    · exact .some hsame
    · exact h.values k
  · have hadded := hbinds.added_iff hs hd (hsound.distinct hl.on hnil)
    rw [hbinds.length_eq, distinctKeys_concat, any_distinctKeys hs, ← h.isSome_lookup, h.size]
    cases hfind : lookup keying.strict key (m.bindings nilKey) with
    | none =>
      rw [if_pos (hadded.mpr hfind), Option.isSome_none, if_neg Bool.false_ne_true,
        length_append, length_singleton]
    | some w =>
      rw [if_neg fun hnew => nomatch hfind.symm.trans (hadded.mp hnew)]
      rfl

/-- Any number of insertions more. -/
theorem Holds.insertAll {past calls : List (K × V)} (h : Holds keying nilKey m past)
    (hins : m.insertAll keying calls = .ok m') : Holds keying nilKey m' (past ++ calls) := by
  induction calls generalizing m past with
  | nil =>
    cases hins
    rwa [append_nil]
  | cons c calls ih =>
    unfold HashMap.insertAll at hins
    rw [foldlM_cons] at hins
    obtain ⟨m₁, hone, hins⟩ := bind_eq_ok hins
    rw [append_cons]
    exact ih (h.insert hl hnil hone) hins

variable (h : Holds keying nilKey m calls)

include h

/-- Looking up tells whether a key was inserted. -/
theorem Holds.isSome_find? (key : K) :
    (m.find? keying key).map Option.isSome = .ok (calls.any fun c => keying.sameKey c.1 key) := by
  rw [h.find?_lookup hl hnil]
  exact congrArg Except.ok (h.isSome_lookup key)

/-- Looking up gives the value that was inserted last, or the default. -/
theorem Holds.getD_find? (key : K) (default : V) :
    ∃ w, (m.find? keying key).map (·.getD default) = .ok w ∧
      (lastValue keying.strict key calls).elim (w = default) (keying.Same w) := by
  refine ⟨(lookup keying.strict key (m.bindings nilKey)).getD default, ?_, ?_⟩
  · rw [h.find?_lookup hl hnil]
    rfl
  · have hrel := h.values key
    generalize lookup keying.strict key (m.bindings nilKey) = found at hrel ⊢
    generalize lastValue keying.strict key calls = last at hrel ⊢
    cases hrel with
    | none => rfl
    | some hsame => exact hsame

/-- The keys of the bindings are those that were inserted. -/
theorem Holds.exists_binding_iff (key : K) :
    (∃ e ∈ m.bindings nilKey, keying.sameKey key e.1 = true) ↔
      ∃ c ∈ calls, keying.sameKey key c.1 = true := by
  have hcomm (a : K) : keying.sameKey a key = keying.sameKey key a := (hl.strict hnil).eq_comm a key
  have hiff : (lookup keying.strict key (m.bindings nilKey)).isSome = true ↔
      ∃ e ∈ m.bindings nilKey, keying.strict.eq key e.1 = true := isSome_lookup_iff
  rw [h.isSome_lookup, any_eq_true] at hiff
  refine hiff.symm.trans ?_
  simp only [← hcomm]
  rfl

/-- A binding has the value that its key was given last. -/
theorem Holds.lastValue_eq {e : K × V} (he : e ∈ m.bindings nilKey) :
    ∃ v, lastValue keying.strict e.1 calls = some v ∧ keying.Same e.2 v := by
  have hs : keying.strict.Lawful := hl.strict hnil
  have hd := h.distinct hl.on hnil
  have hfind : lookup keying.strict e.1 (m.bindings nilKey) = some e.2 :=
    (lookup_eq_some_iff hs.on trivial h.keys hd).mpr ⟨e, he, rfl, hs.eq_refl e.1⟩
  have hrel := h.values e.1
  rw [hfind] at hrel
  generalize lastValue keying.strict e.1 calls = last at hrel ⊢
  cases hrel with
  | some hsame => exact ⟨_, rfl, hsame⟩

end HashMap

end HostedLisp.Coll

/-! ## Hash maps of values -/

namespace HostedLisp.Value

open Coll

theorem walks_trieSeq (dense : Bool) (e : Value × Value) (es : List (Value × Value))
    (info : Value) :
    Walks (.trieSeq dense (e :: es) info) ((e :: es).map fun e => .entry e.1 e.2) := by
  induction es generalizing e info with
  | nil => exact .step (fun h => nomatch h) rfl rfl .done
  | cons e' es ih => exact .step (fun h => nomatch h) rfl rfl (ih e' .nil)

/-- Walking a hash map meets its bindings. -/
theorem walks_tableSeq (m : HashMap Value Value) :
    Walks (tableSeq m) ((m.bindings .nil).map fun e => .entry e.1 e.2) := by
  unfold tableSeq HashMap.bindings
  cases m.nodeEntries with
  | nil =>
    cases m.nilValue with
    | none => exact .done
    | some v => exact .step (fun h => nomatch h) rfl rfl .done
  | cons e es =>
    cases m.nilValue with
    | none => exact walks_trieSeq _ e es .nil
    | some v => exact .step (fun h => nomatch h) rfl rfl (walks_trieSeq _ e es .nil)

theorem isNil_iff (v : Value) : v.isNil = true ↔ v = .nil := by
  cases v <;> simp [isNil]

/-- **A hash map is a finite map.** Take any hash of 64 bits, any equality of keys that goes with
it, and any insertions into the empty map that all succeed. Then a key is there just when it was
inserted, it has the value that it was given last (or one that was found equal to that), the count
is that of the distinct keys, and walking the map meets each of them once and with its value. Nil is
a key of its own. -/
theorem hashMap_refines_finite_map {keying : Keying Value Value} (hl : keying.Lawful)
    (hnil : keying.isNil = isNil) {calls : List (Value × Value)} {m : HashMap Value Value}
    (hins : HashMap.empty.insertAll keying calls = .ok m) :
    (∀ key, (m.find? keying key).map Option.isSome =
      .ok (calls.any fun c => keying.sameKey c.1 key)) ∧
    (∀ key default, ∃ w, (m.find? keying key).map (·.getD default) = .ok w ∧
      (lastValue keying.strict key calls).elim (w = default) (keying.Same w)) ∧
    m.count = (distinctKeys keying.strict calls).length ∧
    ∃ es : List (Value × Value), Walks (tableSeq m) (es.map fun e => .entry e.1 e.2) ∧
      Distinct keying.strict es ∧
      (∀ key, (∃ e ∈ es, keying.sameKey key e.1 = true) ↔
        ∃ c ∈ calls, keying.sameKey key c.1 = true) ∧
      ∀ e ∈ es, ∃ v, lastValue keying.strict e.1 calls = some v ∧ keying.Same e.2 v := by
  have hiff (k : Value) : keying.isNil k = true ↔ k = .nil := by rw [hnil, isNil_iff]
  have h : HashMap.Holds keying .nil m ([] ++ calls) :=
    (HashMap.holds_empty keying .nil).insertAll hl hiff hins
  rw [List.nil_append] at h
  exact ⟨h.isSome_find? hl hiff, h.getD_find? hl hiff, (h.count hl.on).trans (by rw [h.size]),
    m.bindings .nil, walks_tableSeq m, h.distinct hl.on hiff, h.exists_binding_iff hl hiff,
    fun e he => h.lastValue_eq hl hiff he⟩

/-- The number of a value, if only for the sake of an equality that finds nil equal to zero. -/
def rank : Value → Int
  | .int n => n
  | _ => 0

/-- Values are told apart by their numbers. The hash looks at two bits only and puts them into the
highest places, so that a trie needs all of its levels. -/
def topBits : Keying Value Value where
  isNil := isNil
  hash v := (rank v % 4 - 2) * 2 ^ 61
  eq a b := rank a == rank b
  valEq a b := rank a == rank b

theorem topBits_lawful : topBits.Lawful where
  eq_refl a := beq_self_eq_true (rank a)
  eq_symm a b h := beq_of_eq (eq_of_beq h).symm
  eq_trans a b c h h' := beq_of_eq ((eq_of_beq h).trans (eq_of_beq h'))
  hash_eq a b h := by
    show (rank a % 4 - 2) * 2 ^ 61 = (rank b % 4 - 2) * 2 ^ 61
    rw [eq_of_beq h]
  hash_range a := by
    show -2 ^ 63 ≤ (rank a % 4 - 2) * 2 ^ 61 ∧ (rank a % 4 - 2) * 2 ^ 61 < 2 ^ 63
    omega

/-- Nil and zero, two keys of one hash, two that part at the last level, and values that are
replaced. -/
def topCalls : List (Value × Value) :=
  [(.int 1, .int 10), (.nil, .int 7), (.int 5, .int 20), (.int 2, .int 30), (.int 1, .int 11),
    (.int 0, .int 5), (.int 5, .int 21), (.nil, .int 8)]

theorem hashMap_refines_finite_map_topBits :
    ∃ m, HashMap.empty.insertAll topBits topCalls = .ok m ∧ m.count = 5 ∧
      (m.find? topBits (.int 5)).map Option.isSome = .ok true ∧
      (m.find? topBits (.int 9)).map Option.isSome = .ok false ∧
      (∃ w, (m.find? topBits (.int 5)).map (·.getD .nil) = .ok w ∧ topBits.Same w (.int 21)) ∧
      ∃ es : List (Value × Value), Walks (tableSeq m) (es.map fun e => .entry e.1 e.2) ∧
        Distinct topBits.strict es := by
  have hok : (HashMap.empty.insertAll topBits topCalls).isOk = true := by decide +kernel
  cases hins : HashMap.empty.insertAll topBits topCalls with
  | error e =>
    rw [hins] at hok
    cases hok
  | ok m =>
    obtain ⟨hcontains, hget, hcount, es, hwalks, hdistinct, -⟩ :=
      hashMap_refines_finite_map topBits_lawful rfl hins
    exact ⟨m, rfl, hcount, hcontains (.int 5), hcontains (.int 9), hget (.int 5) .nil,
      es, hwalks, hdistinct⟩

end HostedLisp.Value

/-! ## When a key cannot be bound

A key that meets another one alone in its slot moves together with it one level further down. A node
for the two is refused beyond the last bit of a hash, and this is looked at before the hashes are
compared. So two keys of one hash cannot be told from two keys that are still undecided, and a
binding that other keys have pushed down to the last levels keeps out every further key of its hash.
-/

namespace HostedLisp.Coll

variable {K V : Type} {keying : Keying K V}

/-- Binding a key in a sound map fails just when another one stands in the way. -/
theorem HashMap.Sound.insert_error_iff_blocked (hl : keying.Lawful) {nilKey : K} {m : HashMap K V}
    (h : m.Sound keying ⊤ nilKey) (key : K) (val : V) (failure : TrieFailure) :
    m.insert keying key val = .error failure ↔ failure = .shiftExhausted ∧
      keying.isNil key = false ∧ ∃ root, m.root = some root ∧
        TrieNode.Blocked keying key 0 root := by
  unfold HashMap.insert
  cases hkey : keying.isNil key with
  | true =>
    cases m.nilValue with
    | none => exact ⟨fun he => (by cases he), fun he => (by cases he.2.1)⟩
    | some old => exact ⟨fun he => (by cases he), fun he => (by cases he.2.1)⟩
  | false =>
    rcases h.insert_root trivial val with ⟨hr, hblocked⟩ | ⟨r, hr, hfree, -⟩
    · rw [hr]
      constructor
      · intro he
        cases he
        exact ⟨rfl, rfl, hblocked hl.on⟩
      · rintro ⟨rfl, -⟩
        rfl
    · rw [hr]
      exact ⟨fun he => (by cases he), fun he => absurd he.2.2 hfree⟩

/-- **When a key cannot be bound.** Take a map that was built by insertions, and any key and value.
Binding the key fails in one case only, whatever the hashes are: another key of its hash stands
alone in a slot, at a level where the next one starts beyond bit 64. The failure is then that of
hash bits that ran out. -/
theorem HashMap.insert_error_iff (hl : keying.Lawful) {nilKey : K}
    (hnil : ∀ k, keying.isNil k = true ↔ k = nilKey) {calls : List (K × V)} {m : HashMap K V}
    (hins : HashMap.empty.insertAll keying calls = .ok m) (key : K) (val : V)
    (failure : TrieFailure) :
    m.insert keying key val = .error failure ↔ failure = .shiftExhausted ∧
      keying.isNil key = false ∧ ∃ root, m.root = some root ∧ ∃ deep k,
        TrieNode.LoneAt deep k 0 root ∧ 64 < 5 * (deep + 1) ∧ keying.hash k = keying.hash key ∧
          keying.eq key k = false :=
  ((HashMap.holds_empty keying nilKey).insertAll hl hnil hins).toSound.insert_error_iff_blocked hl
    key val failure

/-- Two keys that part at the last bits. -/
def partedCalls : List (Value × Value) := [(.int 2, .int 0), (.int 1, .int 0)]

/-- A third key has the hash of the first one. -/
theorem HashMap.insert_error_iff_topBits :
    ∃ m, HashMap.empty.insertAll Value.topBits partedCalls = .ok m ∧
      m.insert Value.topBits (.int 6) (.int 0) = .error .shiftExhausted ∧
      ∃ root, m.root = some root ∧ ∃ deep k, TrieNode.LoneAt deep k 0 root ∧ 64 < 5 * (deep + 1) ∧
        Value.topBits.hash k = Value.topBits.hash (.int 6) := by
  have hok : (HashMap.empty.insertAll Value.topBits partedCalls).isOk = true := by decide +kernel
  have hfails : (HashMap.empty.insertAll Value.topBits partedCalls >>= fun m =>
      m.insert Value.topBits (.int 6) (.int 0)).isOk = false := by decide +kernel
  cases hins : HashMap.empty.insertAll Value.topBits partedCalls with
  | error e =>
    rw [hins] at hok
    cases hok
  | ok m =>
    rw [hins] at hfails
    change (m.insert Value.topBits (.int 6) (.int 0)).isOk = false at hfails
    cases hthird : m.insert Value.topBits (.int 6) (.int 0) with
    | ok m' =>
      rw [hthird] at hfails
      cases hfails
    | error failure =>
      obtain ⟨rfl, -, root, hroot, deep, k, hlone, hdeep, hhash, -⟩ :=
        (HashMap.insert_error_iff Value.topBits_lawful Value.isNil_iff hins (.int 6) (.int 0)
          failure).mp hthird
      exact ⟨m, rfl, hthird, root, hroot, deep, k, hlone, hdeep, hhash⟩

end HostedLisp.Coll
