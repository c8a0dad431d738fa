import HostedLisp.Collection.Maps
import HostedLisp.Proofs.Coll.HashMapRefines
import Mathlib.Algebra.BigOperators.Group.List.Basic
import Mathlib.Algebra.Ring.Int.Defs

/-!
# Maps and sets are extensional

Tables are compared by counting them and by looking up the keys of one in the other. Among keys of
which equality is lawful this finds out whether they have the same bindings, whatever their order.

The order in which a map or a set was built leaves its trace in the trie, and shows nowhere else:
not in its count, not in what it is equal to, and not in the hash of a set.

- `Value.KeyLaws`: keys of which equality is lawful.
- `Value.Kept`: a table that insertions of such keys made.
- `Value.entryAt_hashMap`: values and entries of keys.
- `Value.kept_tableInsertAll`, `Value.Holding.insertAll`: maps and sets built in turn.
- `Value.Covers`: every binding of a table has an equal one in another.
- `Value.eqv_hashMap_iff`, `Value.eqv_hashSet_iff`: equality of maps and of sets.
- `Value.exists_matching`: lists that can be matched item by item.
- `Value.Settled`: keys that nest no deeper than some depth.
- `Value.hashMap_hashSet_extensional`: equality of maps and sets, and the hash of a set.
- `Value.not_eq_hashMap_nan`: maps with a value that is not equal to itself.
-/

namespace HostedLisp.Value

open Coll List

/-- All bindings of a table. -/
abbrev bindings (m : Table) : List (Value × Value) := m.bindings .nil

theorem tableEntries_eq (m : Table) : tableEntries m = bindings m := by
  unfold tableEntries bindings HashMap.bindings
  cases m.nilValue <;> rfl

theorem getD_toOption_iff {x : Except Error Bool} :
    x.toOption.getD false = true ↔ x = .ok true := by
  cases x <;> simp [Except.toOption]

/-- The entry of a key agrees with looking the key up, unless nil is the key or its value. For any
other key all three answers come from one search, which fails for all of them or for none: the value
and whether there is one tell bindings to nil from missing ones, the entry does not. The entry of
nil does not depend on what nil is bound to. -/
theorem entryAt_hashMap (m : Table) (info key : Value) :
    (key ≠ .nil → ∃ r : Except Error (Option Value),
      valAt (.hashMap m info) key .nil = r.map (·.getD .nil) ∧
      containsKey (.hashMap m info) key = r.map Option.isSome ∧
      entryAt (.hashMap m info) key .nil = r.map fun found =>
        if (found.getD .nil).isNil then .nil else .entry key (found.getD .nil)) ∧
    ∀ bound, entryAt (.hashMap { m with nilValue := bound } info) .nil .nil =
      entryAt (.hashMap m info) .nil .nil := by
  refine ⟨fun hkey => ⟨tableGet? m key, ?_, ?_, ?_⟩, fun _ => rfl⟩
  · rw [valAt]
    cases tableGet? m key <;> rfl
  · rw [containsKey]
    cases tableGet? m key <;> rfl
  · have hnil : key.isNil = false := Bool.eq_false_iff.mpr fun h => hkey ((isNil_iff key).mp h)
    have hfind : m.find? (keyingWith eq) key = m.findInNodes? keying key :=
      if_neg (Bool.eq_false_iff.mp hnil)
    simp only [entryAt, tableGet?, tableFind?, hnil, hfind]
    cases hroot : m.root with
    | none =>
      rw [HashMap.findInNodes?, hroot]
      rfl
    | some n =>
      cases key.hash with
      | error e => rfl
      | ok h =>
        cases m.findInNodes? keying key with
        | error e => rfl
        | ok found =>
          cases found with
          | none => rfl
          | some v => cases v <;> rfl

/-! ## Matching -/

/-- Where every item of a list has a partner, and no two have the same, the partners are some of the
items of the other list. -/
theorem exists_matching {α β : Type} {R : α → β → Prop} {xs : List α} {ys : List β}
    (hcover : ∀ x ∈ xs, ∃ y ∈ ys, R x y) (hinj : xs.Pairwise fun a b => ∀ y ∈ ys, R a y → ¬R b y) :
    ∃ ys', List.Forall₂ R xs ys' ∧ ys'.Subperm ys := by
  induction xs generalizing ys with
  | nil => exact ⟨[], .nil, nil_subperm⟩
  | cons x xs ih =>
    obtain ⟨⟨y, hy, hxy⟩, hcover⟩ := forall_mem_cons.mp hcover
    obtain ⟨hx, hinj⟩ := pairwise_cons.mp hinj
    obtain ⟨pre, post, rfl⟩ := append_of_mem hy
    have hsub : ∀ z ∈ pre ++ post, z ∈ pre ++ y :: post := fun z hz =>
      ((sublist_cons_self y post).append_left pre).subset hz
    have hrest : ∀ x' ∈ xs, ∃ z ∈ pre ++ post, R x' z := by
      intro x' hx'
      obtain ⟨z, hz, hxz⟩ := hcover x' hx'
      rcases mem_cons.mp (perm_middle.mem_iff.mp hz) with rfl | hz
      · exact absurd hxz (hx x' hx' z hy hxy)
      · exact ⟨z, hz, hxz⟩
    obtain ⟨ys', hys', hsubperm⟩ := ih hrest (hinj.imp fun h z hz => h z (hsub z hz))
    exact ⟨y :: ys', .cons hxy hys',
      ((subperm_cons y).mpr hsubperm).trans perm_middle.symm.subperm⟩

theorem map_eq_of_forall₂ {α β γ : Type} {R : α → β → Prop} {f : α → γ} {g : β → γ} {xs : List α}
    {ys : List β} (h : List.Forall₂ R xs ys) (hfg : ∀ x ∈ xs, ∀ y ∈ ys, R x y → f x = g y) :
    xs.map f = ys.map g := by
  induction h with
  | nil => rfl
  | @cons x y xs ys hxy _ ih =>
    rw [map_cons, map_cons, hfg x mem_cons_self y mem_cons_self hxy,
      ih fun x' hx' y' hy' => hfg x' (mem_cons_of_mem _ hx') y' (mem_cons_of_mem _ hy')]

/-! ## The items of a set -/

theorem walks_keysOf {s : Value} {es : List (Value × Value)}
    (h : Walks s (es.map fun e => .entry e.1 e.2)) : Walks (keysOf s) (es.map (·.1)) := by
  induction es generalizing s with
  | nil =>
    cases h
    exact .done
  | cons e es ih =>
    cases h with
    | @step _ s' _ _ proper first_eq next_eq rest =>
      have hkeys : keysOf s = .keySeq s .nil := by
        cases s
        case nil => exact absurd rfl proper
        all_goals rfl
      rw [hkeys]
      refine .step (by simp) ?_ ?_ (ih rest)
      · rw [first, first_eq]
        rfl
      · rw [next, next_eq]
        rfl

theorem items_hashSet (m : Table) (info : Value) :
    items (.hashSet m info) = .ok ((bindings m).map (·.1)) := by
  have hwalk := (walks_keysOf (walks_tableSeq m)).walk_eq
  show (walk (keysOf (tableSeq m)) >>= fun xs => Except.ok xs.toList) = _
  rw [hwalk]
  rfl

theorem mapM_eq_ok {f : Value → Except Error Int} {g : Value → Int} {xs : List Value}
    (h : ∀ x ∈ xs, f x = .ok (g x)) : xs.mapM f = .ok (xs.map g) := by
  induction xs with
  | nil => rfl
  | cons x xs ih =>
    obtain ⟨hx, hxs⟩ := forall_mem_cons.mp h
    rw [mapM_cons, hx, ih hxs]
    rfl

section

variable [Identity]

/-- Keys that have a hash, and of which equality is an equivalence that goes with the hash. -/
structure KeyLaws (S : Value → Prop) : Prop extends keying.LawfulOn S where
  hashed : ∀ a, S a → ∃ h, hash a = .ok h

/-- A table that insertions made and whose keys are of a class. -/
abbrev Kept (S : Value → Prop) (m : Table) : Prop := HashMap.Sound keying S .nil m

theorem keying_eq_iff {a b : Value} : keying.eq a b = true ↔ eq a b = .ok true := getD_toOption_iff

/-- Comparing and hashing keys needs no more than `d` levels of nesting. -/
structure Settled (S : Value → Prop) (d : Nat) : Prop where
  eqv_eq : ∀ a b, S a → S b → eqv d a b = eq a b
  hashAt_eq : ∀ a, S a → hashAt d a = hash a

/-- A collection that may nest one level deeper than its keys puts no condition on them. -/
theorem settled_depthLimit (S : Value → Prop) : Settled S depthLimit where
  eqv_eq _ _ _ _ := rfl
  hashAt_eq _ _ := rfl

theorem Settled.iff {S : Value → Prop} {d : Nat} (h : Settled S d) (a b : Value) (ha : S a)
    (hb : S b) : eqv d a b = .ok true ↔ eq a b = .ok true := by rw [h.eqv_eq a b ha hb]

section

variable {S : Value → Prop} {m n m' : Table} {key val : Value} (laws : KeyLaws S)
  {cmp : Value → Value → Except Error Bool} {bs : List (Value × Value)}

/-! ## Building tables -/

/-- Binding a key starts with its hash. -/
theorem tableInsert_eq (m : Table) (key val : Value) : tableInsert m key val =
    key.hash >>= fun _ => (m.insert keying key val).mapError trieError := by
  unfold tableInsert
  cases hkey : key.isNil with
  | true =>
    obtain rfl := (isNil_iff key).mp hkey
    cases m.insert keying .nil val <;> rfl
  | false =>
    cases key.hash with
    | error e => rfl
    | ok h => cases m.insert keying key val <;> rfl

theorem insert_of_tableInsert (h : tableInsert m key val = .ok m') :
    m.insert keying key val = .ok m' := by
  rw [tableInsert_eq] at h
  obtain ⟨_, -, h⟩ := bind_eq_ok h
  cases hm : m.insert keying key val with
  | error e =>
    rw [hm] at h
    cases h
  | ok m₁ =>
    rw [hm] at h
    cases h
    rfl

include laws

/-- Looking up a key of the class, with any equality that treats the class as usual. -/
theorem tableFind?_eq
    (hcmp : ∀ a b, S a → S b → (cmp a b = .ok true ↔ eq a b = .ok true)) (hm : Kept S m)
    (hkey : S key) : ∃ r, tableFind? cmp m key = .ok r ∧
      ∀ v, r = some v ↔ ∃ e ∈ bindings m, e.2 = v ∧ keying.sameKey key e.1 = true := by
  obtain ⟨h, hh⟩ := laws.hashed key hkey
  have hagree : (keyingWith cmp).AgreesOn keying S :=
    { isNil := rfl
      hash := fun _ _ => rfl
      eq := fun a b ha hb => Bool.eq_iff_iff.mpr
        (getD_toOption_iff.trans ((hcmp a b ha hb).trans keying_eq_iff.symm)) }
  refine ⟨lookup keying.strict key (bindings m), ?_, fun v => lookup_eq_some_iff
    (laws.strict isNil_iff) hkey hm.keys (hm.distinct laws.toLawfulOn isNil_iff)⟩
  unfold tableFind?
  rw [hh, hm.find?_eq laws.toLawfulOn isNil_iff hagree hkey]
  cases key.isNil || m.root.isNone <;> rfl

omit laws in
theorem kept_tableInsertAll (hm : Kept S m)
    (hbs : ∀ b ∈ bs, S b.1) (h : tableInsertAll m bs = .ok m') : Kept S m' := by
  induction bs generalizing m with
  | nil =>
    cases h
    exact hm
  | cons b bs ih =>
    obtain ⟨m₁, hone, h⟩ := bind_eq_ok h
    obtain ⟨hb, hbs⟩ := forall_mem_cons.mp hbs
    exact ih (hm.insert isNil_iff hb (insert_of_tableInsert hone)).1 hbs h

/-- A key that a table does not have is added to its bindings. -/
theorem perm_tableInsert (hm : Kept S m) (hkey : S key)
    (hfresh : Fresh keying.strict key (bindings m))
    (h : tableInsert m key val = .ok m') : (bindings m').Perm ((key, val) :: bindings m) := by
  obtain ⟨-, added, hbinds⟩ := hm.insert isNil_iff hkey (insert_of_tableInsert h)
  cases hbinds with
  | added perm => exact perm
  | replaced found before =>
    have hmem := before.mem_iff.mpr mem_cons_self
    have hfound := found.elim id ((laws.strict isNil_iff).eq_symm _ _ (hm.keys _ hmem) hkey)
    rw [hfresh _ hmem] at hfound
    cases hfound

/-- Bindings of keys that are all different are kept as they are. -/
theorem perm_tableInsertAll (hm : Kept S m) (hbs : ∀ b ∈ bs, S b.1) (hd : Distinct keying.strict bs)
    (hfresh : ∀ b ∈ bs, Fresh keying.strict b.1 (bindings m)) (h : tableInsertAll m bs = .ok m') :
    (bindings m').Perm (bs ++ bindings m) := by
  induction bs generalizing m with
  | nil =>
    cases h
    exact .refl _
  | cons b bs ih =>
    obtain ⟨m₁, hone, h⟩ := bind_eq_ok h
    obtain ⟨hb, hbs⟩ := forall_mem_cons.mp hbs
    obtain ⟨hne, hd⟩ := pairwise_cons.mp hd
    obtain ⟨hnew, hfresh⟩ := forall_mem_cons.mp hfresh
    have hperm := perm_tableInsert laws hm hb hnew hone
    have hm₁ := (hm.insert isNil_iff hb (insert_of_tableInsert hone)).1
    have hfresh₁ (c : Value × Value) (hc : c ∈ bs) : Fresh keying.strict c.1 (bindings m₁) := by
      refine fun e he => (mem_cons.mp (hperm.mem_iff.mp he)).elim ?_ (hfresh c hc e)
      rintro rfl
      exact ((laws.strict isNil_iff).eq_comm (hbs c hc) hb).trans (hne c hc)
    have hmove : (bs ++ bindings m₁).Perm (b :: bs ++ bindings m) :=
      (hperm.append_left bs).trans perm_middle
    exact (ih hm₁ hbs hd hfresh₁ h).trans hmove

/-- The table of a set: elements bound to themselves, equal ones only once. -/
structure Holding (S : Value → Prop) (m : Table) (xs : List Value) : Prop extends Kept S m where
  mem : ∀ e ∈ bindings m, e.2 = e.1 ∧ e.1 ∈ xs
  covered : ∀ x ∈ xs, ∃ e ∈ bindings m, keying.sameKey x e.1 = true

theorem sameKey_self (hkey : S key) : keying.sameKey key key = true :=
  (laws.strict isNil_iff).eq_refl key hkey

/-- One element more. -/
theorem Holding.insert {xs : List Value} {x : Value} (hm : Holding S m xs) (hx : S x)
    (h : setInsert m x = .ok m') : Holding S m' (xs ++ [x]) := by
  have hmem (e : Value × Value) (he : e ∈ bindings m) : e.2 = e.1 ∧ e.1 ∈ xs ++ [x] :=
    ⟨(hm.mem e he).1, mem_append_left _ (hm.mem e he).2⟩
  obtain ⟨r, hr, hspec⟩ := tableFind?_eq laws (fun _ _ _ _ => Iff.rfl) hm.toSound hx
  unfold setInsert tableGet? at h
  rw [hr] at h
  cases r with
  | some v =>
    cases h
    obtain ⟨e, he, -, hsame⟩ := (hspec v).mp rfl
    refine { hm.toSound with mem := hmem, covered := fun y hy => ?_ }
    rcases mem_append.mp hy with hy | hy
    · exact hm.covered y hy
    · rw [mem_singleton.mp hy]
      exact ⟨e, he, hsame⟩
  | none =>
    have hfresh : Fresh keying.strict x (bindings m) := fun e he => by
      refine Bool.eq_false_iff.mpr fun hsame => ?_
      cases (hspec e.2).mpr ⟨e, he, rfl, hsame⟩
    have hperm := perm_tableInsert laws hm.toSound hx hfresh h
    refine { (hm.toSound.insert isNil_iff hx (insert_of_tableInsert h)).1 with
      mem := fun e he => ?_, covered := fun y hy => ?_ }
    · rcases mem_cons.mp (hperm.mem_iff.mp he) with rfl | he
      · exact ⟨rfl, mem_append_right _ mem_cons_self⟩
      · exact hmem e he
    · rcases mem_append.mp hy with hy | hy
      · obtain ⟨e, he, hsame⟩ := hm.covered y hy
        exact ⟨e, hperm.mem_iff.mpr (mem_cons_of_mem _ he), hsame⟩
      · rw [mem_singleton.mp hy]
        exact ⟨(x, x), hperm.mem_iff.mpr mem_cons_self, sameKey_self laws hx⟩

/-- Any number of elements more. -/
theorem Holding.insertAll {xs ys : List Value} (hm : Holding S m xs)
    (hys : ∀ y ∈ ys, S y) (h : ys.foldlM setInsert m = .ok m') : Holding S m' (xs ++ ys) := by
  induction ys generalizing m xs with
  | nil =>
    cases h
    rwa [append_nil]
  | cons y ys ih =>
    obtain ⟨m₁, hone, h⟩ := bind_eq_ok h
    obtain ⟨hy, hys⟩ := forall_mem_cons.mp hys
    rw [append_cons]
    exact ih (hm.insert laws hy hone) hys h

/-! ## Comparing tables -/

/-- Bindings that are equal in key and value; the value on the right is asked first. -/
def EqualBinding (cmp : Value → Value → Except Error Bool) (e e' : Value × Value) : Prop :=
  keying.sameKey e.1 e'.1 = true ∧ cmp e'.2 e.2 = .ok true

/-- Every binding of one table has an equal one in the other. -/
def Covers (cmp : Value → Value → Except Error Bool) (m n : Table) : Prop :=
  ∀ e ∈ bindings m, ∃ e' ∈ bindings n, EqualBinding cmp e e'

theorem eqBindings_iff
    (hcmp : ∀ a b, S a → S b → (cmp a b = .ok true ↔ eq a b = .ok true)) (hn : Kept S n)
    (info : Value) {es : List (Value × Value)} (hes : ∀ e ∈ es, S e.1) :
    eqBindings cmp (.hashMap n info) es = .ok true ↔
      ∀ e ∈ es, ∃ e' ∈ bindings n, EqualBinding cmp e e' := by
  induction es with
  | nil => simp [eqBindings, pure, Except.pure]
  | cons e es ih =>
    obtain ⟨he, hes⟩ := forall_mem_cons.mp hes
    obtain ⟨r, hr, hspec⟩ := tableFind?_eq laws hcmp hn he
    rw [forall_mem_cons, ← ih hes]
    have hcounter : counterpart cmp (.hashMap n info) e.1 = .ok r := hr
    rw [eqBindings, hcounter]
    cases r with
    | none =>
      refine iff_of_false (by simp) fun h => ?_
      obtain ⟨⟨e', he', hsame, -⟩, -⟩ := h
      cases (hspec e'.2).mpr ⟨e', he', rfl, hsame⟩
    | some w =>
      obtain ⟨e', he', rfl, hsame⟩ := (hspec w).mp rfl
      have hvalue : (∃ e' ∈ bindings n, EqualBinding cmp e e') ↔ cmp e'.2 e.2 = .ok true := by
        refine ⟨?_, fun heq => ⟨e', he', hsame, heq⟩⟩
        rintro ⟨e'', he'', hsame', heq⟩
        rwa [Option.some.inj ((hspec e''.2).mpr ⟨e'', he'', rfl, hsame'⟩)]
      rw [hvalue]
      exact both_eq_ok_iff

theorem len_table (hm : Kept S m) : checkedLen m.count = .ok (bindings m).length := by
  rw [checkedLen, hm.count laws.toLawfulOn, if_neg (Int.not_lt.mpr (Int.natCast_nonneg _))]
  rfl

variable {d : Nat} (hd : ∀ a b, S a → S b → (eqv d a b = .ok true ↔ eq a b = .ok true))
  (hm : Kept S m) (hn : Kept S n) (info info' : Value)

include hd hm hn

theorem eqv_hashMap_iff : eqv (d + 1) (.hashMap m info) (.hashMap n info') = .ok true ↔
    Identity.is (.hashMap m info) (.hashMap n info') = true ∨
      (bindings m).length = (bindings n).length ∧ Covers (eqv d) m n := by
  have hlen : len (.hashMap m info) = .ok (bindings m).length := len_table laws hm
  have hlen' : len (.hashMap n info') = .ok (bindings n).length := len_table laws hn
  have hsame (r : Except Error Bool) : falseOnMismatch r = .ok true ↔ r = .ok true := by
    unfold falseOnMismatch
    split <;> simp [pure, Except.pure]
  rw [eqv]
  simp only [eqFromLeft, isSet, isVectorLike, Bool.or_self, Bool.false_eq_true, if_false]
  split
  · next his => exact iff_of_true rfl (.inl his)
  · next his =>
    simp only [hlen, hlen', hsame, ok_bind, Int.natCast_inj, tableEntries_eq, his, false_or,
      Bool.false_eq_true]
    split
    · next heq => simp only [heq, true_and, eqBindings_iff laws hd hn _ hm.keys, Covers]
    · next hne => simp [hne, pure, Except.pure]

theorem eqv_hashSet_iff : eqv (d + 1) (.hashSet m info) (.hashSet n info') = .ok true ↔
    Identity.is (.hashSet m info) (.hashSet n info') = true ∨
      (bindings m).length = (bindings n).length ∧ Covers (eqv d) m n := by
  have hlen : len (.hashSet m info) = .ok (bindings m).length := len_table laws hm
  have hlen' : len (.hashSet n info') = .ok (bindings n).length := len_table laws hn
  rw [eqv]
  simp only [eqFromLeft]
  split
  · next his => exact iff_of_true rfl (.inl his)
  · next his =>
    simp only [hlen, hlen', ok_bind, Int.natCast_inj, tableEntries_eq, his, false_or,
      Bool.false_eq_true]
    split
    · next heq => simp only [heq, true_and, eqBindings_iff laws hd hn _ hm.keys, Covers]
    · next hne => simp [hne, pure, Except.pure]

end

variable {S : Value → Prop} {m n : Table} {a b : Value} {d : Nat}

section

variable (laws : KeyLaws S)

include laws

theorem sameKey_comm (ha : S a) (hb : S b) : keying.sameKey a b = keying.sameKey b a :=
  (laws.strict isNil_iff).eq_comm ha hb

theorem sameKey_trans {a b c : Value} (ha : S a) (hb : S b) (hc : S c)
    (hab : keying.sameKey a b = true) (hbc : keying.sameKey b c = true) :
    keying.sameKey a c = true := (laws.strict isNil_iff).eq_trans a b c ha hb hc hab hbc

theorem eq_of_sameKey (ha : S a) (h : keying.sameKey a b = true) : keying.eq a b = true := by
  rcases Keying.strict_eq_iff.mp h with ⟨hnil, hnil'⟩ | ⟨-, h⟩
  · rw [(isNil_iff b).mp hnil', ← (isNil_iff a).mp hnil]
    exact laws.eq_refl a ha
  · exact h

variable {cmp : Value → Value → Except Error Bool}

/-- Equal bindings of two tables can be matched. -/
theorem matching_of_covers (hm : Kept S m) (hn : Kept S n) (h : Covers cmp m n) :
    ∃ es, List.Forall₂ (EqualBinding cmp) (bindings m) es ∧ es.Subperm (bindings n) := by
  refine exists_matching h
    ((hm.distinct laws.toLawfulOn isNil_iff).imp_of_mem fun {a b} ha hb hab e he hae hbe => ?_)
  have hS := hm.keys a ha
  have hS' := hn.keys e he
  have hS'' := hm.keys b hb
  have hsame := sameKey_trans laws hS hS' hS'' hae.1 (sameKey_comm laws hS'' hS' ▸ hbe.1)
  cases hab.symm.trans hsame

/-- Tables of one size cover each other as soon as one covers the other. -/
theorem exists_perm_of_covers (hm : Kept S m)
    (hn : Kept S n) (hlen : (bindings m).length = (bindings n).length) (h : Covers cmp m n) :
    ∃ es, List.Forall₂ (EqualBinding cmp) (bindings m) es ∧ es.Perm (bindings n) := by
  obtain ⟨es, hes, hsub⟩ := matching_of_covers laws hm hn h
  exact ⟨es, hes, hsub.perm_of_length_le (hlen ▸ hes.length_eq.le)⟩

/-- Bindings of different keys, inserted in turn. -/
theorem perm_bindings {bs : List (Value × Value)} (hbs : ∀ b ∈ bs, S b.1)
    (hd : bs.Pairwise fun b b' => keying.sameKey b.1 b'.1 = false)
    (h : tableInsertAll .empty bs = .ok m) : Kept S m ∧ (bindings m).Perm bs := by
  have hempty : Kept S .empty := HashMap.sound_empty ..
  refine ⟨kept_tableInsertAll hempty hbs h, ?_⟩
  have hperm := perm_tableInsertAll laws hempty hbs hd (fun _ _ _ he => by cases he) h
  exact hperm.trans (.of_eq (append_nil bs))

omit laws in
/-- A table that holds elements holds no others. -/
theorem subset_of_holding {xs ys : List Value} (hxs : Holding S m xs) (hys : Holding S m ys) :
    ∀ x ∈ xs, ∃ y ∈ ys, keying.sameKey x y = true := by
  intro x hx
  obtain ⟨e, he, hsame⟩ := hxs.covered x hx
  exact ⟨e.1, (hys.mem e he).2, hsame⟩

theorem holding_of_foldlM {xs : List Value} (hxs : ∀ x ∈ xs, S x)
    (h : xs.foldlM setInsert .empty = .ok m) : Holding S m xs :=
  Holding.insertAll laws { HashMap.sound_empty keying S .nil with
    mem := fun _ he => absurd he not_mem_nil
    covered := fun _ hx => absurd hx not_mem_nil } hxs h

end

theorem hash_eq_keying {a : Value} (laws : KeyLaws S) (ha : S a) :
    hash a = .ok (keying.hash a) := by
  obtain ⟨i, hi⟩ := laws.hashed a ha
  show _ = Except.ok ((hash a).toOption.getD 0)
  rw [hi]
  rfl

/-- The hash of a set is made of the sum of the hashes of its elements. -/
theorem hashAt_hashSet (laws : KeyLaws S) (settled : Settled S d) (hm : Kept S m) (info : Value) :
    hashAt (d + 1) (.hashSet m info) =
      .ok (Number.hashResult ((bindings m).map fun e => keying.hash e.1).sum) := by
  have hmap : ((bindings m).map (·.1)).mapM (hashAt d) =
      .ok (((bindings m).map (·.1)).map keying.hash) := by
    refine mapM_eq_ok fun a ha => ?_
    obtain ⟨e, he, rfl⟩ := mem_map.mp ha
    exact (settled.hashAt_eq _ (hm.keys e he)).trans (hash_eq_keying laws (hm.keys e he))
  show (items (.hashSet m info) >>= fun xs => xs.mapM (hashAt d) >>= fun hs =>
    Except.ok (Number.hashResult (hs.foldl (· + ·) 0))) = _
  rw [items_hashSet]
  show (((bindings m).map (·.1)).mapM (hashAt d) >>= fun hs =>
    Except.ok (Number.hashResult (hs.foldl (· + ·) 0))) = _
  rw [hmap, map_map]
  show Except.ok _ = _
  rw [sum_eq_foldl]
  rfl

/-! ## Extensionality -/

section

variable (laws : KeyLaws S) (settled : Settled S d) (info info' : Value)

include laws settled

theorem eqv_hashMap_iff_matching {bs bs' : List (Value × Value)} (hm : Kept S m) (hn : Kept S n)
    (hbs : (bindings m).Perm bs) (hbs' : (bindings n).Perm bs') :
    eqv (d + 1) (.hashMap m info) (.hashMap n info') = .ok true ↔
      Identity.is (.hashMap m info) (.hashMap n info') = true ∨
        ∃ es, es.Perm bs' ∧ List.Forall₂ (EqualBinding (eqv d)) bs es := by
  rw [eqv_hashMap_iff laws settled.iff hm hn]
  refine or_congr_right ⟨?_, ?_⟩
  · rintro ⟨hlen, hcovers⟩
    obtain ⟨es, hes, hperm⟩ := exists_perm_of_covers laws hm hn hlen hcovers
    obtain ⟨es', hes', hperm'⟩ := perm_comp_forall₂ hbs.symm hes
    exact ⟨es', hperm'.trans (hperm.trans hbs'), hes'⟩
  · rintro ⟨es, hperm, hes⟩
    refine ⟨?_, fun e he => ?_⟩
    · rw [hbs.length_eq, hes.length_eq, hperm.length_eq, hbs'.length_eq]
    · obtain ⟨i, hi, rfl⟩ := getElem_of_mem (hbs.mem_iff.mp he)
      have hi' := hes.length_eq ▸ hi
      exact ⟨es[i], hbs'.mem_iff.mpr (hperm.mem_iff.mp (getElem_mem hi')),
        hes.get hi hi'⟩

/-- Keys that count as one are equal one level further down as well. -/
theorem eqv_of_sameKey (ha : S a) (hb : S b) (h : keying.sameKey a b = true) :
    eqv d b a = .ok true := by
  rw [settled.iff b a hb ha, ← keying_eq_iff]
  exact eq_of_sameKey laws hb ((sameKey_comm laws ha hb).symm.trans h)

variable {xs ys : List Value}

/-- A set covers another one in which all its elements are. -/
theorem covers_of_subset (hys : ∀ y ∈ ys, S y) (hm : Holding S m xs) (hn : Holding S n ys)
    (h : ∀ x ∈ xs, ∃ y ∈ ys, keying.sameKey x y = true) : Covers (eqv d) m n := by
  intro e he
  obtain ⟨hself, hmem⟩ := hm.mem e he
  obtain ⟨y, hy, hsame⟩ := h e.1 hmem
  obtain ⟨e', he', hsame'⟩ := hn.covered y hy
  have hkey := sameKey_trans laws (hm.keys e he) (hys y hy) (hn.keys e' he') hsame hsame'
  refine ⟨e', he', hkey, ?_⟩
  rw [hself, (hn.mem e' he').1]
  exact eqv_of_sameKey laws settled (hm.keys e he) (hn.keys e' he') hkey

omit settled in
/-- The elements of a set are in every set that covers it. -/
theorem subset_of_covers (hxs : ∀ x ∈ xs, S x)
    (hm : Holding S m xs) (hn : Holding S n ys) (h : Covers (eqv d) m n) :
    ∀ x ∈ xs, ∃ y ∈ ys, keying.sameKey x y = true := by
  intro x hx
  obtain ⟨e, he, hsame⟩ := hm.covered x hx
  obtain ⟨e', he', hsame', -⟩ := h e he
  exact ⟨e'.1, (hn.mem e' he').2,
    sameKey_trans laws (hxs x hx) (hm.keys e he) (hn.keys e' he') hsame hsame'⟩

omit settled in
theorem length_le_of_covers (hm : Kept S m) (hn : Kept S n) (h : Covers (eqv d) m n) :
    (bindings m).length ≤ (bindings n).length := by
  obtain ⟨es, hes, hsub⟩ := matching_of_covers laws hm hn h
  exact hes.length_eq ▸ hsub.length_le

/-- Sets are equal if they have the same elements; one that is compared with itself has. -/
theorem eqv_hashSet_iff_mem (hxs : ∀ x ∈ xs, S x) (hys : ∀ y ∈ ys, S y)
    (hm : Holding S m xs) (hn : Holding S n ys) :
    eqv (d + 1) (.hashSet m info) (.hashSet n info') = .ok true ↔
      (∀ x ∈ xs, ∃ y ∈ ys, keying.sameKey x y = true) ∧
      ∀ y ∈ ys, ∃ x ∈ xs, keying.sameKey y x = true := by
  rw [eqv_hashSet_iff laws settled.iff hm.toSound hn.toSound]
  constructor
  · rintro (his | ⟨hlen, hcovers⟩)
    · obtain ⟨rfl, -⟩ := hashSet.inj (Identity.eq_of_is his)
      exact ⟨subset_of_holding hm hn, subset_of_holding hn hm⟩
    refine ⟨subset_of_covers laws hxs hm hn hcovers, fun y hy => ?_⟩
    obtain ⟨es, hes, hperm⟩ := exists_perm_of_covers laws hm.toSound hn.toSound hlen hcovers
    obtain ⟨e', he', hsame⟩ := hn.covered y hy
    obtain ⟨i, hi, rfl⟩ := getElem_of_mem (hperm.mem_iff.mpr he')
    have hi' := hes.length_eq.symm ▸ hi
    have he := getElem_mem hi'
    have hS := hn.keys _ he'
    have hback : keying.sameKey es[i].1 (bindings m)[i].1 = true := by
      rw [sameKey_comm laws hS (hm.keys _ he)]
      exact (hes.get hi' hi).1
    exact ⟨_, (hm.mem _ he).2, sameKey_trans laws (hys y hy) hS (hm.keys _ he) hsame hback⟩
  · rintro ⟨hsub, hsub'⟩
    have hcovers := covers_of_subset laws settled hys hm hn hsub
    have hcovers' := covers_of_subset laws settled hxs hn hm hsub'
    exact .inr ⟨le_antisymm (length_le_of_covers laws hm.toSound hn.toSound hcovers)
      (length_le_of_covers laws hn.toSound hm.toSound hcovers'), hcovers⟩

theorem hashAt_eq_of_eqv_hashSet (hm : Kept S m) (hn : Kept S n)
    (h : eqv (d + 1) (.hashSet m info) (.hashSet n info') = .ok true) :
    hashAt (d + 1) (.hashSet m info) = hashAt (d + 1) (.hashSet n info') := by
  rcases (eqv_hashSet_iff laws settled.iff hm hn info info').mp h with his | ⟨hlen, hcovers⟩
  · rw [Identity.eq_of_is his]
  obtain ⟨es, hes, hperm⟩ := exists_perm_of_covers laws hm hn hlen hcovers
  have hhash : (bindings m).map (fun e => keying.hash e.1) = es.map fun e => keying.hash e.1 := by
    refine map_eq_of_forall₂ hes fun e he e' he' hsame => ?_
    have hS := hm.keys e he
    have hS' := hn.keys e' (hperm.mem_iff.mp he')
    exact laws.hash_eq _ _ hS hS' (eq_of_sameKey laws hS hsame.1)
  rw [hashAt_hashSet laws settled hm, hashAt_hashSet laws settled hn, hhash,
    (hperm.map fun e => keying.hash e.1).sum_eq]

end

/-- Maps and sets are what their bindings and elements make them. Maps of different keys have as
many bindings as were made; they are equal exactly if they are one and the same map, or if their
bindings can be matched, each to one with an equal key and an equal value; and so are those that
were made of the same bindings in any order, if every value is equal to itself. Sets are equal
exactly if each element of one has an equal in the other, and then they have the same hash. -/
theorem hashMap_hashSet_extensional (laws : KeyLaws S) (settled : Settled S d)
    (info info' : Value) :
    (∀ (bs bs' : List (Value × Value)) (m n : Table), (∀ b ∈ bs, S b.1) → (∀ b ∈ bs', S b.1) →
      bs.Pairwise (fun b b' => keying.sameKey b.1 b'.1 = false) →
      bs'.Pairwise (fun b b' => keying.sameKey b.1 b'.1 = false) →
      tableInsertAll .empty bs = .ok m → tableInsertAll .empty bs' = .ok n →
        len (.hashMap m info) = .ok bs.length ∧
        (eqv (d + 1) (.hashMap m info) (.hashMap n info') = .ok true ↔
          Identity.is (.hashMap m info) (.hashMap n info') = true ∨
            ∃ es, es.Perm bs' ∧ List.Forall₂ (EqualBinding (eqv d)) bs es) ∧
        (bs'.Perm bs → (∀ b ∈ bs, eqv d b.2 b.2 = .ok true) →
          eqv (d + 1) (.hashMap m info) (.hashMap n info') = .ok true)) ∧
    ∀ (xs ys : List Value) (m n : Table), (∀ x ∈ xs, S x) → (∀ y ∈ ys, S y) →
      xs.foldlM setInsert .empty = .ok m → ys.foldlM setInsert .empty = .ok n →
        (eqv (d + 1) (.hashSet m info) (.hashSet n info') = .ok true ↔
          (∀ x ∈ xs, ∃ y ∈ ys, keying.sameKey x y = true) ∧
          ∀ y ∈ ys, ∃ x ∈ xs, keying.sameKey y x = true) ∧
        (eqv (d + 1) (.hashSet m info) (.hashSet n info') = .ok true →
          ∃ h, hashAt (d + 1) (.hashSet m info) = .ok h ∧
            hashAt (d + 1) (.hashSet n info') = .ok h) := by
  constructor
  · intro bs bs' m n hbs hbs' hd hd' hm hn
    obtain ⟨hkept, hperm⟩ := perm_bindings laws hbs hd hm
    obtain ⟨hkept', hperm'⟩ := perm_bindings laws hbs' hd' hn
    have hiff := eqv_hashMap_iff_matching laws settled info info' hkept hkept' hperm hperm'
    refine ⟨hperm.length_eq ▸ len_table laws hkept, hiff, fun hbs'' hself => ?_⟩
    refine hiff.mpr (.inr ⟨bs, hbs''.symm, forall₂_same.mpr fun b hb => ?_⟩)
    exact ⟨sameKey_self laws (hbs b hb), hself b hb⟩
  · intro xs ys m n hxs hys hm hn
    have hm := holding_of_foldlM laws hxs hm
    have hn := holding_of_foldlM laws hys hn
    refine ⟨eqv_hashSet_iff_mem laws settled info info' hxs hys hm hn, fun heq => ?_⟩
    have hhash := hashAt_hashSet laws settled hm.toSound info
    refine ⟨_, hhash, ?_⟩
    rw [← hashAt_eq_of_eqv_hashSet laws settled info info' hm.toSound hn.toSound heq, hhash]

end

/-- Five keys of which two are equal, and two more share the first five bits of their hash. -/
def someKeys : List Value := [.nil, .int 1, .bool true, .int 9, .int 33]

theorem keyLaws_someKeys : KeyLaws (· ∈ someKeys) where
  eq_refl := by decide +kernel
  eq_symm a b ha hb := (by decide +kernel : ∀ a ∈ someKeys, ∀ b ∈ someKeys,
    keying.eq a b = true → keying.eq b a = true) a ha b hb
  eq_trans a b c ha hb hc := (by decide +kernel : ∀ a ∈ someKeys, ∀ b ∈ someKeys,
    ∀ c ∈ someKeys, keying.eq a b = true → keying.eq b c = true → keying.eq a c = true)
    a ha b hb c hc
  hash_eq a b ha hb := (by decide +kernel : ∀ a ∈ someKeys, ∀ b ∈ someKeys,
    keying.eq a b = true → keying.hash a = keying.hash b) a ha b hb
  hash_range := by decide +kernel
  hashed a ha := by
    simp only [someKeys, mem_cons, not_mem_nil, or_false] at ha
    rcases ha with rfl | rfl | rfl | rfl | rfl <;> exact ⟨_, rfl⟩

theorem settled_someKeys (d : Nat) : Settled (· ∈ someKeys) (d + 1) where
  eqv_eq a b ha hb := by
    simp only [someKeys, mem_cons, not_mem_nil, or_false] at ha hb
    have hdepth (d d' : Nat) : eqv (d + 1) a b = eqv (d' + 1) a b := by
      rcases ha with rfl | rfl | rfl | rfl | rfl <;>
        rcases hb with rfl | rfl | rfl | rfl | rfl <;> rfl
    exact hdepth d 999
  hashAt_eq a ha := by
    simp only [someKeys, mem_cons, not_mem_nil, or_false] at ha
    rcases ha with rfl | rfl | rfl | rfl | rfl <;> rfl

/-- Two tables of three bindings made in two orders, and two sets, of 1 and 33 and of 33, true and
33. The tables are not the same, the maps are equal, and so are the sets and their hashes. -/
theorem eq_in_two_orders :
    (∃ m n : Table,
      tableInsertAll .empty [(.int 9, .nil), (.int 1, .int 5), (.nil, .int 6)] = .ok m ∧
      tableInsertAll .empty [(.int 1, .int 5), (.nil, .int 6), (.int 9, .nil)] = .ok n ∧
      Identity.is (.hashMap m .nil) (.hashMap n .nil) = false ∧ len (.hashMap m .nil) = .ok 3 ∧
      eq (.hashMap m .nil) (.hashMap n .nil) = .ok true) ∧
    ∃ m n : Table, [.int 1, .int 33].foldlM setInsert .empty = .ok m ∧
      [.int 33, .bool true, .int 33].foldlM setInsert .empty = .ok n ∧
      eq (.hashSet m .nil) (.hashSet n .nil) = .ok true ∧
      ∃ h, hash (.hashSet m .nil) = .ok h ∧ hash (.hashSet n .nil) = .ok h := by
  obtain ⟨hmaps, hsets⟩ :=
    hashMap_hashSet_extensional keyLaws_someKeys (settled_someKeys 998) .nil .nil
  constructor
  · obtain ⟨hlen, -, hperm⟩ := hmaps [(.int 9, .nil), (.int 1, .int 5), (.nil, .int 6)]
      [(.int 1, .int 5), (.nil, .int 6), (.int 9, .nil)] _ _ (by simp [someKeys])
        (by simp [someKeys])
      (by decide +kernel) (by decide +kernel) rfl rfl
    refine ⟨_, _, rfl, rfl, by rfl, hlen, hperm ?_ ?_⟩
    · exact perm_append_singleton (int 9, nil) [_, _]
    · intro b hb
      simp only [mem_cons, not_mem_nil, or_false] at hb
      rcases hb with rfl | rfl | rfl <;> rfl
  · obtain ⟨hiff, hhash⟩ := hsets [.int 1, .int 33] [.int 33, .bool true, .int 33] _ _
      (by simp [someKeys]) (by simp [someKeys]) rfl rfl
    have heq := hiff.mpr ⟨by decide +kernel, by decide +kernel⟩
    exact ⟨_, _, rfl, rfl, heq, hhash heq⟩

/-- Maps with a value that is no number, and so not equal to itself: made of the same bindings in
two orders they are not equal, lawful as the keys are. -/
theorem not_eq_hashMap_nan : KeyLaws (· ∈ someKeys) ∧ Settled (· ∈ someKeys) 999 ∧
    Value.int 9 ∈ someKeys ∧ Value.int 1 ∈ someKeys ∧ ∃ m n : Table,
      tableInsertAll .empty [(.int 9, .nan 0), (.int 1, .int 5)] = .ok m ∧
      tableInsertAll .empty [(.int 1, .int 5), (.int 9, .nan 0)] = .ok n ∧
      eq (.hashMap m .nil) (.hashMap n .nil) = .ok false :=
  ⟨keyLaws_someKeys, settled_someKeys 998, by simp [someKeys], by simp [someKeys], _, _, rfl, rfl,
    by rfl⟩

end HostedLisp.Value
