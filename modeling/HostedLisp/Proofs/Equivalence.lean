import HostedLisp.Proofs.Equality
import HostedLisp.Proofs.Extensional
import Mathlib.Algebra.BigOperators.Group.Multiset.Basic

/-!
# Equality as a relation

Equality goes by a different test for each kind of value, and which test runs depends on the order
of the operands. Where no two equal values are of different shapes, all these tests look at one and
the same thing, the meaning of a value, and so do the hashes.

- `Value.meaning`: what equality sees of a value, down to a bound on its nesting.
- `Value.Nested`: values made of lists, vectors, tuples, sets and maps of values of a class.
- `Value.Unmixed`: equal values of the class are of one shape.
- `Value.Faithful`: equality and hashes go by meanings, with its step (`Faithful.succ`).
- `Value.eq_equivalence`: equality is an equivalence.
- `Value.hash_eq_of_eq_keys`: equal keys have equal hashes.
-/

namespace HostedLisp.Value

open Coll List Number

/-! ## What equality can see -/

/-- The kinds of values among which equality goes by parts. -/
inductive Shape where
  | atom
  | sequence
  | tuple
  | set
  | map
  deriving DecidableEq

/-- What equality sees of a value, in terms of what it sees of its parts. -/
inductive Layer (α : Type) where
  | atom (x : Atom)
  | sequence (xs : List α)
  | tuple (xs : List α)
  | set (es : Multiset (α × α))
  | map (es : Multiset (α × α))

/-- What equality sees of a value at a bound on its nesting. -/
def Meaning : Nat → Type
  | 0 => Unit
  | n + 1 => Layer (Meaning n)

/-- The kind of a value. A list that steps by messages does not take part. -/
def shape : Value → Shape
  | .tuple _ => .tuple
  | .hashSet .. => .set
  | .hashMap .. => .map
  | .list .stepping .. => .atom
  | v => if v.isSequential then .sequence else .atom

/-- The key of an entry. -/
def entryKey : Value → Value
  | .entry k _ => k
  | v => v

/-- The value of an entry. -/
def entryVal : Value → Value
  | .entry _ v => v
  | v => v

/-- The items of a sequence and of what it runs over, as they are held. -/
def parts : Value → List Value
  | .list _ x rest n _ => x :: if n = 1 then [] else parts rest
  | .cons x rest _ => x :: parts rest
  | .vector s _ => s.toList
  | .subvector base start stop _ => ((parts base).drop start.toNat).take (stop - start).toNat
  | .entry k v => [k, v]
  | .indexSeq source i => (parts source).drop i.toNat
  | .keySeq s _ => (parts s).map entryKey
  | .valSeq s _ => (parts s).map entryVal
  | .trieSeq _ es _ => es.map fun e => .entry e.1 e.2
  | .str s => s.toList.map char
  | .tuple xs => xs
  | _ => []

/-- The bindings of a map, and of a set, whose elements are bound to themselves. -/
def tableOf : Value → List (Value × Value)
  | .hashMap m _ | .hashSet m _ => bindings m
  | _ => []

/-- What equality sees of a value. -/
def meaning : (n : Nat) → Value → Meaning n
  | 0, _ => ()
  | n + 1, v =>
    match v.shape with
    | .atom => .atom v.atom
    | .sequence => .sequence (v.parts.map (meaning n))
    | .tuple => .tuple (v.parts.map (meaning n))
    | .set => .set (v.tableOf.map fun e => (meaning n e.1, meaning n e.2))
    | .map => .map (v.tableOf.map fun e => (meaning n e.1, meaning n e.2))

/-- What equality sees of a binding. -/
def meanings (n : Nat) (e : Value × Value) : Meaning n × Meaning n := (meaning n e.1, meaning n e.2)

variable {P : Value → Prop} {n d : Nat} {v w : Value} {m m' : Table} {xs : List Value}
  {bs : List (Value × Value)}

theorem isSequential_of_shape (h : v.shape = .sequence) : v.isSequential = true := by
  unfold shape at h
  split at h
  any_goals contradiction
  split at h
  · assumption
  · contradiction

theorem items_vectorLike (hv : v.isVectorLike = true)
    (hwalks : ∃ s, seq v = .ok s ∧ Walks s v.parts) : items v = .ok v.parts := by
  obtain ⟨s, hs, hwalks⟩ := hwalks
  have hitems : v.items = .ok v.parts ∨
      v.items = seq v >>= fun s => walk s >>= fun xs => pure xs.toList := by
    cases v
    case vector => exact .inl rfl
    case subvector | entry => exact .inr rfl
    all_goals cases hv
  rcases hitems with hitems | hitems
  · exact hitems
  · rw [hitems, hs]
    show (walk s >>= fun xs => pure xs.toList) = _
    rw [hwalks.walk_eq]
    rfl

def Layer.shape {α : Type} : Layer α → Shape
  | .atom _ => .atom
  | .sequence _ => .sequence
  | .tuple _ => .tuple
  | .set _ => .set
  | .map _ => .map

theorem shape_meaning (n : Nat) (v : Value) : Layer.shape (meaning (n + 1) v) = v.shape := by
  unfold meaning
  split <;> simp_all [Layer.shape]

theorem shape_of_isAtom (h : v.isAtom = true) : v.shape = .atom := by
  cases v <;> cases h <;> rfl

theorem meaning_atom (n : Nat) (h : v.isAtom = true) : meaning (n + 1) v = Layer.atom v.atom := by
  rw [meaning, shape_of_isAtom h]

theorem meaning_sequence (n : Nat) (h : v.shape = .sequence) :
    meaning (n + 1) v = Layer.sequence (v.parts.map (meaning n)) := by
  rw [meaning, h]

/-- The hash of a value without parts. -/
def Atom.hash : Atom → Int
  | .nil => hashNil
  | .number n => hashInt n
  | .text s => hashString s
  | .symbol s => hashSymbol s
  | .keyword s => hashResult (hashSymbol s + 0x9e3779b9)

/-- The hash of a layer, given the hashes of its parts. Maps have none. -/
def Layer.hash {α : Type} (f : α → Int) : Layer α → Int
  | .atom x => x.hash
  | .sequence xs => hashItems (xs.map f)
  | .tuple xs => hashTuple (xs.map f)
  | .set es => hashResult (es.map fun e => f e.1).sum
  | .map _ => 0

/-- The hash of a value, from its meaning. -/
def hashOf : (n : Nat) → Meaning n → Int
  | 0, _ => 0
  | n + 1, x => Layer.hash (hashOf n) x

theorem map_of_mapM {f : Value → Except Error Int} {g : Value → Int}
    {hs : List Int} (h : xs.mapM f = .ok hs) (hfg : ∀ x ∈ xs, ∀ i, f x = .ok i → i = g x) :
    hs = xs.map g := by
  induction xs generalizing hs with
  | nil =>
    cases h
    rfl
  | cons x xs ih =>
    rw [mapM_cons] at h
    obtain ⟨i, hi, h⟩ := bind_eq_ok h
    obtain ⟨is, his, h⟩ := bind_eq_ok h
    cases h
    obtain ⟨hx, hxs⟩ := forall_mem_cons.mp hfg
    rw [map_cons, ← hx i hi, ← ih his hxs]

theorem hashInt_range (i : Int) : -2 ^ 63 ≤ hashInt i ∧ hashInt i < 2 ^ 63 := by
  have hrest : i.natAbs % hashModulus < hashModulus := Nat.mod_lt _ (by decide)
  have hmodulus : hashModulus = 2 ^ 61 - 1 := rfl
  simp only [hashInt, settle, Int.ofNat_eq_natCast]
  split <;> split <;> omega

theorem hashResult_range (i : Int) : -2 ^ 63 ≤ hashResult i ∧ hashResult i < 2 ^ 63 := by
  have hbound : hashBound = 2 ^ 63 := rfl
  unfold hashResult settle
  split
  · split <;> omega
  · exact hashInt_range i

theorem hashString_range (s : String) : -2 ^ 63 ≤ hashString s ∧ hashString s < 2 ^ 63 := by
  have hfold (codes : List Nat) (h : Nat) (hh : h < hashModulus) :
      codes.foldl (fun h c => (h * 1000003 + c + 1) % hashModulus) h <
        hashModulus := by
    induction codes generalizing h with
    | nil => exact hh
    | cons c codes ih => exact ih _ (Nat.mod_lt _ (by decide))
  have hs := hfold (s.toList.map Char.toNat) 5381 (by decide)
  have hmodulus : hashModulus = 2 ^ 61 - 1 := rfl
  simp only [hashString, hashCodes, Int.ofNat_eq_natCast]
  omega

theorem hashTuple_range (hs : List Int) : -2 ^ 63 ≤ hashTuple hs ∧ hashTuple hs < 2 ^ 63 := by
  unfold hashTuple
  extract_lets step acc acc' i
  have hacc := acc'.toNat_lt
  have hpow : Nat.pow 2 63 = 2 ^ 63 ∧ Nat.pow 2 64 = 2 ^ 64 := ⟨rfl, rfl⟩
  split
  · decide
  · split <;> omega

theorem hashOf_range (n : Nat) (x : Meaning n) : -2 ^ 63 ≤ hashOf n x ∧ hashOf n x < 2 ^ 63 := by
  have hsmall (i : Int) (hi : 0 ≤ i) (hi' : i < 10000000) : -2 ^ 63 ≤ i ∧ i < 2 ^ 63 := by omega
  cases n with
  | zero => exact hsmall 0 (by decide) (by decide)
  | succ n =>
    cases x with
    | atom x =>
      cases x with
      | nil => exact hsmall hashNil (by decide) (by decide)
      | number i => exact hashInt_range i
      | text s => exact hashString_range s
      | symbol s => exact hashResult_range _
      | keyword s => exact hashResult_range _
    | sequence xs => exact hashResult_range _
    | tuple xs => exact hashTuple_range _
    | set es => exact hashResult_range _
    | map es => exact hsmall 0 (by decide) (by decide)

section

variable [Identity]

/-! ## Values nested in a class -/

/-- A value of a shape with parts of a class. Stepping through a sequence meets what it holds, and
tables were made by insertions. -/
inductive Layered (S : Value → Prop) : Shape → Value → Prop where
  | atom {v : Value} (plain : v.isAtom = true) : Layered S .atom v
  | sequence {v : Value} (shape : v.shape = .sequence)
      (walks : ∃ s, seq v = .ok s ∧ Walks s v.parts) (parts : ∀ x ∈ v.parts, S x) :
      Layered S .sequence v
  | tuple {xs : List Value} (parts : ∀ x ∈ xs, S x) : Layered S .tuple (.tuple xs)
  | set {xs : List Value} {m : Table} (info : Value) (elements : ∀ x ∈ xs, S x)
      (made : xs.foldlM setInsert .empty = .ok m) : Layered S .set (.hashSet m info)
  | map {bs : List (Value × Value)} {m : Table} (info : Value) (keys : ∀ b ∈ bs, S b.1)
      (made : tableInsertAll .empty bs = .ok m) (vals : ∀ e ∈ bindings m, S e.2) :
      Layered S .map (.hashMap m info)

/-- A value all of whose parts are of a class, with a bound on how deeply they nest. -/
def Nested (P : Value → Prop) : Nat → Value → Prop
  | 0, _ => False
  | n + 1, v => P v ∧ Layered (Nested P n) v.shape v

/-- Equal values of the class are of one shape. -/
def Unmixed (P : Value → Prop) : Prop :=
  ∀ d a b, P a → P b → eqv d a b = .ok true → a.shape = b.shape

/-! ## Meanings say all -/

/-- At a bound on the nesting, equality and hashes go by the meaning of values. -/
structure Faithful (P : Value → Prop) (n : Nat) : Prop where
  eqv_iff : ∀ {d a b}, n ≤ d → Nested P n a → Nested P n b →
    (eqv d a b = .ok true ↔ meaning n a = meaning n b)
  hash_eq : ∀ {d a h}, n ≤ d → Nested P n a → hashAt d a = .ok h → h = hashOf n (meaning n a)

/-- A value of the class that may be a key. -/
def Key (P : Value → Prop) (n : Nat) (v : Value) : Prop := Nested P n v ∧ ∃ h, hash v = .ok h

/-- A table with keys and values of the class. -/
structure Tabled (P : Value → Prop) (n : Nat) (m : Table) : Prop extends Kept (Key P n) m where
  vals : ∀ e ∈ bindings m, Nested P n e.2

theorem eq_nil_of_meaning (hb : Nested P (n + 1) v) (h : meaning (n + 1) v = meaning (n + 1) .nil) :
    v = .nil := by
  have hshape : v.shape = .atom := by
    rw [← shape_meaning n v, h]
    rfl
  obtain ⟨-, hb⟩ := hb
  rw [hshape] at hb
  cases hb with
  | atom plain =>
    rw [meaning_atom n plain] at h
    have hatom : v.atom = .nil := Layer.atom.inj h
    cases v <;> cases plain
    · rfl
    all_goals cases hatom

theorem hashed_of_tableInsert {key val : Value}
    (h : tableInsert m key val = .ok m') : ∃ i, hash key = .ok i := by
  rw [tableInsert_eq] at h
  obtain ⟨i, hi, -⟩ := bind_eq_ok h
  exact ⟨i, hi⟩

theorem hashed_of_tableInsertAll
    (h : tableInsertAll m bs = .ok m') : ∀ b ∈ bs, ∃ i, hash b.1 = .ok i := by
  induction bs generalizing m with
  | nil => simp
  | cons b bs ih =>
    obtain ⟨m₁, hone, h⟩ := bind_eq_ok h
    exact forall_mem_cons.mpr ⟨hashed_of_tableInsert hone, ih h⟩

theorem hashed_of_setInsert {x : Value} (h : setInsert m x = .ok m') : ∃ i, hash x = .ok i := by
  obtain ⟨r, hr, h⟩ := bind_eq_ok h
  cases r with
  | none => exact hashed_of_tableInsert h
  | some v =>
    by_cases hnil : x = .nil
    · exact hnil ▸ ⟨_, rfl⟩
    have hnil : x.isNil = false := Bool.eq_false_iff.mpr fun h => hnil ((isNil_iff x).mp h)
    have hkey : keying.isNil x = false := hnil
    unfold tableGet? tableFind? at hr
    cases hroot : m.root with
    | none =>
      have hfind : m.find? (keyingWith eq) x = .ok none := by
        rw [HashMap.find?, HashMap.findInNodes?, hroot]
        exact if_neg (Bool.eq_false_iff.mp hkey)
      rw [hnil, hroot, hfind] at hr
      cases hr
    | some root =>
      rw [hnil, hroot] at hr
      obtain ⟨i, hi, -⟩ := bind_eq_ok hr
      exact ⟨i, hi⟩

theorem hashed_of_foldlM (h : xs.foldlM setInsert m = .ok m') : ∀ x ∈ xs, ∃ i, hash x = .ok i := by
  induction xs generalizing m with
  | nil => simp
  | cons x xs ih =>
    obtain ⟨m₁, hone, h⟩ := bind_eq_ok h
    exact forall_mem_cons.mpr ⟨hashed_of_setInsert hone, ih h⟩

section

variable (F : Faithful P n) (hn : n ≤ depthLimit)

include F hn

theorem Faithful.keying_hash {a : Value} (ha : Key P n a) :
    keying.hash a = hashOf n (meaning n a) := by
  obtain ⟨ha, h, hh⟩ := ha
  rw [← F.hash_eq hn ha hh]
  show (hash a).toOption.getD 0 = h
  rw [hh]
  rfl

theorem Faithful.keyLaws : KeyLaws (Key P n) where
  eq_refl a ha := keying_eq_iff.mpr ((F.eqv_iff hn ha.1 ha.1).mpr rfl)
  eq_symm a b ha hb h := by
    rw [keying_eq_iff, eq, F.eqv_iff hn ha.1 hb.1] at h
    rw [keying_eq_iff, eq, F.eqv_iff hn hb.1 ha.1, h]
  eq_trans a b c ha hb hc hab hbc := by
    rw [keying_eq_iff, eq, F.eqv_iff hn ha.1 hb.1] at hab
    rw [keying_eq_iff, eq, F.eqv_iff hn hb.1 hc.1] at hbc
    rw [keying_eq_iff, eq, F.eqv_iff hn ha.1 hc.1, hab, hbc]
  hash_eq a b ha hb h := by
    rw [keying_eq_iff, eq, F.eqv_iff hn ha.1 hb.1] at h
    rw [F.keying_hash hn ha, F.keying_hash hn hb, h]
  hash_range a ha := by
    rw [F.keying_hash hn ha]
    exact hashOf_range n _
  hashed a ha := ha.2

/-- Keys count as one exactly if they mean the same. -/
theorem Faithful.sameKey_iff {a b : Value} (ha : Key P n a) (hb : Key P n b) :
    keying.sameKey a b = true ↔ meaning n a = meaning n b := by
  constructor
  · intro h
    exact (F.eqv_iff hn ha.1 hb.1).mp (keying_eq_iff.mp (eq_of_sameKey (F.keyLaws hn) ha h))
  · intro h
    have heq := keying_eq_iff.mpr ((F.eqv_iff hn ha.1 hb.1).mpr h)
    refine Keying.strict_eq_iff.mpr ?_
    obtain _ | n := n
    · exact absurd ha.1 id
    by_cases hnil : a = .nil
    · subst hnil
      rw [eq_nil_of_meaning hb.1 h.symm]
      exact .inl ⟨rfl, rfl⟩
    · have hnil' : b ≠ .nil := fun hb' => hnil (eq_nil_of_meaning ha.1 (hb' ▸ h))
      exact .inr ⟨⟨Bool.eq_false_iff.mpr fun h => hnil ((isNil_iff a).mp h),
        Bool.eq_false_iff.mpr fun h => hnil' ((isNil_iff b).mp h)⟩, heq⟩

omit hn in
theorem Faithful.forall₂_iff (hd : n ≤ d) {xs ys : List Value} (hxs : ∀ x ∈ xs, Nested P n x)
    (hys : ∀ y ∈ ys, Nested P n y) :
    List.Forall₂ (fun x y => eqv d y x = .ok true) xs ys ↔
      xs.map (meaning n) = ys.map (meaning n) := by
  induction xs generalizing ys with
  | nil => cases ys <;> simp
  | cons x xs ih =>
    cases ys with
    | nil => simp
    | cons y ys =>
      obtain ⟨hx, hxs⟩ := forall_mem_cons.mp hxs
      obtain ⟨hy, hys⟩ := forall_mem_cons.mp hys
      rw [map_cons, map_cons, List.cons.injEq, ← ih hxs hys,
        @eq_comm _ (meaning n x), ← F.eqv_iff hd hy hx, forall₂_cons]

omit hn in
theorem Faithful.eqArrays_iff (hd : n ≤ d) {xs ys : List Value} (hxs : ∀ x ∈ xs, Nested P n x)
    (hys : ∀ y ∈ ys, Nested P n y) :
    eqArrays (eqv d) xs ys = .ok true ↔ xs.map (meaning n) = ys.map (meaning n) := by
  induction xs generalizing ys with
  | nil => cases ys <;> simp [eqArrays, pure, Except.pure]
  | cons x xs ih =>
    cases ys with
    | nil => simp [eqArrays, pure, Except.pure]
    | cons y ys =>
      obtain ⟨hx, hxs⟩ := forall_mem_cons.mp hxs
      obtain ⟨hy, hys⟩ := forall_mem_cons.mp hys
      rw [map_cons, map_cons, List.cons.injEq, ← ih hxs hys, eqArrays]
      split
      · next his => simp [Identity.eq_of_is his]
      · rw [← F.eqv_iff hd hx hy]
        exact both_eq_ok_iff

omit hn in
theorem Faithful.eqv_sequence_iff (hd : n ≤ d) (hv : Layered (Nested P n) .sequence v)
    (hw : Layered (Nested P n) .sequence w) :
    eqv (d + 1) v w = .ok true ↔ v.parts.map (meaning n) = w.parts.map (meaning n) := by
  obtain ⟨⟩ | ⟨hv, hwalks, hparts⟩ := hv
  obtain ⟨⟩ | ⟨hw, hwalks', hparts'⟩ := hw
  have hv' : Elements v v.parts := ⟨isSequential_of_shape hv, hwalks⟩
  rw [hv'.eqv_iff ⟨isSequential_of_shape hw, hwalks'⟩, F.forall₂_iff hd hparts hparts']
  exact ⟨fun h => h.elim (fun his => by rw [Identity.eq_of_is his]) id, .inr⟩

theorem Faithful.tabled_set {m : Table} (hxs : ∀ x ∈ xs, Nested P n x)
    (made : xs.foldlM setInsert .empty = .ok m) : Tabled P n m := by
  have hm := holding_of_foldlM (F.keyLaws hn)
    (fun x hx => ⟨hxs x hx, hashed_of_foldlM made x hx⟩) made
  refine ⟨hm.toSound, fun e he => ?_⟩
  rw [(hm.mem e he).1]
  exact (hm.keys e he).1

omit F hn in
theorem tabled_map {m : Table}
    (hbs : ∀ b ∈ bs, Nested P n b.1) (made : tableInsertAll .empty bs = .ok m)
    (vals : ∀ e ∈ bindings m, Nested P n e.2) : Tabled P n m :=
  ⟨kept_tableInsertAll (HashMap.sound_empty ..)
    (fun b hb => ⟨hbs b hb, hashed_of_tableInsertAll made b hb⟩) made, vals⟩

/-- Tables cover each other exactly if their bindings mean the same. -/
theorem Faithful.covers_iff (hd : n ≤ d) (hm : Tabled P n m) (hm' : Tabled P n m') :
    (bindings m).length = (bindings m').length ∧ Covers (eqv d) m m' ↔
      ((bindings m).map (meanings n)).Perm ((bindings m').map (meanings n)) := by
  have hkey {e e' : Value × Value} (he : e ∈ bindings m) (he' : e' ∈ bindings m') :=
    F.sameKey_iff hn (hm.keys e he) (hm'.keys e' he')
  have hval {e e' : Value × Value} (he : e ∈ bindings m) (he' : e' ∈ bindings m') :=
    F.eqv_iff hd (hm'.vals e' he') (hm.vals e he)
  constructor
  · rintro ⟨hlen, hcovers⟩
    obtain ⟨es, hes, hperm⟩ :=
      exists_perm_of_covers (F.keyLaws hn) hm.toSound hm'.toSound hlen hcovers
    rw [map_eq_of_forall₂ (g := meanings n) hes fun e he e' he' h => Prod.ext
      ((hkey he (hperm.mem_iff.mp he')).mp h.1) ((hval he (hperm.mem_iff.mp he')).mp h.2).symm]
    exact hperm.map _
  · intro hperm
    refine ⟨by simpa using hperm.length_eq, fun e he => ?_⟩
    obtain ⟨e', he', heq⟩ := mem_map.mp (hperm.mem_iff.mp (mem_map_of_mem he))
    obtain ⟨hkeys, hvals⟩ := Prod.mk.inj heq
    exact ⟨e', he', (hkey he he').mpr hkeys.symm, (hval he he').mpr hvals⟩

omit hn in
theorem Faithful.hash_sequence (hd : n ≤ d) {h : Int} (hv : Layered (Nested P n) .sequence v)
    (hh : hashAt (d + 1) v = .ok h) :
    h = hashItems (v.parts.map fun x => hashOf n (meaning n x)) := by
  obtain ⟨⟩ | ⟨hv, hwalks, hparts⟩ := hv
  have hone (x : Value) (hx : x ∈ v.parts) (i : Int) (hi : hashAt d x = .ok i) :
      i = hashOf n (meaning n x) := F.hash_eq hd (hparts x hx) hi
  have hmany (hitems : items v = .ok v.parts)
      (hh : (items v >>= fun xs => xs.mapM (hashAt d) >>= fun hs => pure (hashItems hs)) = .ok h) :
      h = hashItems (v.parts.map fun x => hashOf n (meaning n x)) := by
    rw [hitems] at hh
    obtain ⟨xs, hxs, hh⟩ := bind_eq_ok hh
    obtain rfl := Except.ok.inj hxs
    obtain ⟨hs, hhs, hh⟩ := bind_eq_ok hh
    cases hh
    rw [map_of_mapM hhs hone]
  cases v
  case vector | subvector => exact hmany (items_vectorLike rfl hwalks) hh
  case entry k w =>
    obtain ⟨i, hi, hh⟩ := bind_eq_ok hh
    obtain ⟨j, hj, hh⟩ := bind_eq_ok hh
    cases hh
    rw [hone k (by simp [parts]) i hi, hone w (by simp [parts]) j hj]
    rfl
  case emptyList =>
    cases hh
    rfl
  case list style _ _ _ _ =>
    cases style
    case stepping => cases hv
    all_goals cases hh
  all_goals first | cases hh; done | cases hv

variable {s : Shape}

theorem Faithful.eqv_iff_meaning (hd : n ≤ d) (hv : Layered (Nested P n) s v)
    (hw : Layered (Nested P n) s w) :
    eqv (d + 1) v w = .ok true ↔ meaning (n + 1) v = meaning (n + 1) w := by
  have laws := F.keyLaws hn
  have hkeys (a b : Value) (ha : Key P n a) (hb : Key P n b) :
      eqv d a b = .ok true ↔ eq a b = .ok true :=
    (F.eqv_iff hd ha.1 hb.1).trans (F.eqv_iff hn ha.1 hb.1).symm
  cases hv with
  | atom plain =>
    obtain ⟨plain'⟩ := hw
    rw [eqv_atom_iff plain plain', meaning_atom n plain, meaning_atom n plain']
    exact ⟨congrArg _, Layer.atom.inj⟩
  | sequence hshape hwalks hparts =>
    have hw' := hw
    obtain ⟨⟩ | ⟨hshape', -, -⟩ := hw'
    rw [F.eqv_sequence_iff hd (.sequence hshape hwalks hparts) hw, meaning_sequence n hshape,
      meaning_sequence n hshape']
    exact ⟨congrArg _, Layer.sequence.inj⟩
  | tuple hparts =>
    obtain ⟨⟩ | ⟨⟩ | ⟨hparts'⟩ := hw
    exact (F.eqArrays_iff hd hparts hparts').trans ⟨congrArg Layer.tuple, Layer.tuple.inj⟩
  | set info elements made =>
    obtain ⟨⟩ | ⟨⟩ | ⟨⟩ | ⟨info', elements', made'⟩ := hw
    have hm := F.tabled_set hn elements made
    have hm' := F.tabled_set hn elements' made'
    rw [eqv_hashSet_iff laws hkeys hm.toSound hm'.toSound, F.covers_iff hn hd hm hm',
      ← Multiset.coe_eq_coe]
    exact ⟨fun h => h.elim (fun his => by rw [Identity.eq_of_is his]) (congrArg Layer.set),
      fun h => .inr (Layer.set.inj h)⟩
  | map info keys made vals =>
    obtain ⟨⟩ | ⟨⟩ | ⟨⟩ | ⟨⟩ | ⟨info', keys', made', vals'⟩ := hw
    have hm := tabled_map keys made vals
    have hm' := tabled_map keys' made' vals'
    rw [eqv_hashMap_iff laws hkeys hm.toSound hm'.toSound, F.covers_iff hn hd hm hm',
      ← Multiset.coe_eq_coe]
    exact ⟨fun h => h.elim (fun his => by rw [Identity.eq_of_is his]) (congrArg Layer.map),
      fun h => .inr (Layer.map.inj h)⟩

theorem Faithful.hash_eq_hashOf (hd : n ≤ d) (hv : Layered (Nested P n) s v) {h : Int}
    (hh : hashAt (d + 1) v = .ok h) : h = hashOf (n + 1) (meaning (n + 1) v) := by
  cases hv with
  | atom plain =>
    cases v <;> cases plain
    case bool.refl b => cases b <;> cases hh <;> rfl
    all_goals
      cases hh
      rfl
  | sequence hshape hwalks hparts =>
    rw [meaning_sequence n hshape, F.hash_sequence hd (.sequence hshape hwalks hparts) hh]
    exact congrArg hashItems (map_map ..).symm
  | @tuple xs hparts =>
    obtain ⟨hs, hhs, hh⟩ := bind_eq_ok hh
    cases hh
    rw [map_of_mapM hhs fun x hx i hi => F.hash_eq hd (hparts x hx) hi]
    exact congrArg hashTuple (map_map ..).symm
  | @set xs m info elements made =>
    have hm := F.tabled_set hn elements made
    obtain ⟨ks, hks, hh⟩ := bind_eq_ok hh
    obtain rfl := Except.ok.inj ((items_hashSet m info).symm.trans hks)
    obtain ⟨hs, hhs, hh⟩ := bind_eq_ok hh
    cases hh
    have hmap := map_of_mapM (g := fun x => hashOf n (meaning n x)) hhs fun x hx i hi => by
      obtain ⟨e, he, rfl⟩ := mem_map.mp hx
      exact F.hash_eq hd (hm.keys e he).1 hi
    rw [hmap, ← sum_eq_foldl, map_map]
    show _ = hashResult (Multiset.map _ (Multiset.ofList _)).sum
    rw [Multiset.map_coe, Multiset.sum_coe, map_map]
    rfl
  | map => cases hh

/-- One layer more. -/
theorem Faithful.succ (hP : Unmixed P) : Faithful P (n + 1) where
  eqv_iff {d a b} hd ha hb := by
    obtain ⟨hPa, ha⟩ := ha
    obtain ⟨hPb, hb⟩ := hb
    obtain ⟨d, rfl⟩ := Nat.exists_eq_succ_of_ne_zero (Nat.ne_zero_of_lt hd)
    by_cases hs : a.shape = b.shape
    · exact F.eqv_iff_meaning hn (Nat.le_of_succ_le_succ hd) (hs ▸ ha) hb
    · refine iff_of_false (fun h => hs (hP _ a b hPa hPb h)) fun h => hs ?_
      rw [← shape_meaning n a, h, shape_meaning n b]
  hash_eq {d a h} hd ha hh := by
    obtain ⟨d, rfl⟩ := Nat.exists_eq_succ_of_ne_zero (Nat.ne_zero_of_lt hd)
    exact F.hash_eq_hashOf hn (Nat.le_of_succ_le_succ hd) ha.2 hh

end

/-- Equality and hashes go by meanings, however deep values nest. -/
theorem faithful (hP : Unmixed P) (hn : n ≤ depthLimit) : Faithful P n := by
  induction n with
  | zero =>
    refine { eqv_iff := ?_, hash_eq := ?_ }
    · exact fun _ ha => ha.elim
    · exact fun _ ha => ha.elim
  | succ n ih => exact (ih (Nat.le_of_succ_le hn)).succ (Nat.le_of_succ_le hn) hP

/-! ## Equality as a relation -/

/-- Among values whose equal parts are of one shape, equality is an equivalence. -/
theorem eq_equivalence (hP : Unmixed P) (hn : n ≤ depthLimit) :
    (∀ a, Nested P n a → eq a a = .ok true) ∧
    (∀ a b, Nested P n a → Nested P n b → eq a b = .ok true → eq b a = .ok true) ∧
    ∀ a b c, Nested P n a → Nested P n b → Nested P n c → eq a b = .ok true → eq b c = .ok true →
      eq a c = .ok true := by
  have F := faithful hP hn
  refine ⟨fun a ha => (F.eqv_iff hn ha ha).mpr rfl, fun a b ha hb hab => ?_,
    fun a b c ha hb hc hab hbc => ?_⟩
  · exact (F.eqv_iff hn hb ha).mpr ((F.eqv_iff hn ha hb).mp hab).symm
  · exact (F.eqv_iff hn ha hc).mpr
      (((F.eqv_iff hn ha hb).mp hab).trans ((F.eqv_iff hn hb hc).mp hbc))

/-- Among values whose equal parts are of one shape, equal keys have equal hashes, and what is bound
to a key is found under every equal one. -/
theorem hash_eq_of_eq_keys (hP : Unmixed P) (hn : n ≤ depthLimit) {a b : Value}
    (ha : Nested P n a) (hb : Nested P n b) {i j : Int} (hi : hash a = .ok i) (hj : hash b = .ok j)
    (h : eq a b = .ok true) :
    i = j ∧ ∀ (bs : List (Value × Value)) (m m' : Table) (v : Value),
      (∀ e ∈ bs, Nested P n e.1) → tableInsertAll .empty bs = .ok m →
      tableInsert m a v = .ok m' → ∃ w, tableGet? m' b = .ok (some w) ∧ keying.Same w v := by
  have F := faithful hP hn
  have laws := F.keyLaws hn
  have hka : Key P n a := ⟨ha, i, hi⟩
  have hkb : Key P n b := ⟨hb, j, hj⟩
  have hmeaning := (F.eqv_iff hn ha hb).mp h
  refine ⟨?_, fun bs m m' v hbs hm hm' => ?_⟩
  · rw [F.hash_eq hn ha hi, F.hash_eq hn hb hj, hmeaning]
  · have hkept := kept_tableInsertAll (S := Key P n) (HashMap.sound_empty ..)
      (fun e he => ⟨hbs e he, hashed_of_tableInsertAll hm e he⟩) hm
    obtain ⟨hkept', added, hbinds⟩ :=
      hkept.insert isNil_iff hka (insert_of_tableInsert hm')
    obtain ⟨r, hr, hspec⟩ := tableFind?_eq laws (fun _ _ _ _ => Iff.rfl) hkept' hkb
    have hsame : keying.sameKey b a = true := (F.sameKey_iff hn hkb hka).mpr hmeaning.symm
    cases hbinds with
    | added perm =>
      exact ⟨v, hr.trans (congrArg _ ((hspec v).mpr
        ⟨_, perm.mem_iff.mpr mem_cons_self, rfl, hsame⟩)), .inl rfl⟩
    | @replaced _ k _ w found _ same after =>
      have hmem := after.mem_iff.mpr mem_cons_self
      have hk := hkept'.keys _ hmem
      have hfound := sameKey_trans laws hkb hka hk hsame
        (found.elim id ((laws.strict isNil_iff).eq_symm _ _ hk hka))
      exact ⟨w, hr.trans (congrArg _ ((hspec w).mpr ⟨_, hmem, rfl, hfound⟩)), same⟩

end

/-- Two numbers, and what they make in a row. -/
def pairs : List Value :=
  [.int 1, .int 2, vectorOf [.int 1, .int 2], .entry (.int 1) (.int 2), listOf [.int 1, .int 2]]

theorem unmixed_pairs : Unmixed (· ∈ pairs) := by
  intro d a b ha hb h
  simp only [pairs, mem_cons, not_mem_nil, or_false] at ha hb
  cases d with
  | zero => cases h
  | succ d =>
    rcases ha with rfl | rfl | rfl | rfl | rfl <;> rcases hb with rfl | rfl | rfl | rfl | rfl <;>
      first | rfl | cases h

theorem nested_pairs : ∀ v ∈ pairs.drop 2, Nested (· ∈ pairs) 2 v := by
  have hparts : ∀ x ∈ [Value.int 1, .int 2], Nested (· ∈ pairs) 1 x := by
    simp only [forall_mem_cons]
    exact ⟨⟨by simp [pairs], .atom rfl⟩, ⟨by simp [pairs], .atom rfl⟩, by simp⟩
  have hwalks (s t : Value) (hs : s ≠ .nil) (ht : t ≠ .nil) (hfirst : first s = .ok (.int 1))
      (hnext : next s = .ok t) (hfirst' : first t = .ok (.int 2)) (hnext' : next t = .ok .nil) :
      Walks s [.int 1, .int 2] := .step hs hfirst hnext (.step ht hfirst' hnext' .done)
  show ∀ v ∈ [_, _, _], _
  simp only [forall_mem_cons]
  refine ⟨⟨by simp [pairs], .sequence rfl ⟨_, rfl, hwalks _ _ ?_ ?_ rfl rfl rfl rfl⟩ hparts⟩,
    ⟨by simp [pairs], .sequence rfl ⟨_, rfl, hwalks _ _ ?_ ?_ rfl rfl rfl rfl⟩ hparts⟩,
    ⟨by simp [pairs], .sequence rfl ⟨_, rfl, hwalks _ _ ?_ ?_ rfl rfl rfl rfl⟩ hparts⟩, by simp⟩
  all_goals
    intro h
    cases h

/-- An entry, a vector and a list of the same items are equal, in any order. A list of the entries
of a map is equal to the map, but not the other way round. -/
theorem eq_entry_vector_list :
    eq (.entry (.int 1) (.int 2)) (vectorOf [.int 1, .int 2]) = .ok true ∧
    eq (vectorOf [.int 1, .int 2]) (listOf [.int 1, .int 2]) = .ok true ∧
    eq (.entry (.int 1) (.int 2)) (listOf [.int 1, .int 2]) = .ok true ∧
    eq (listOf [.int 1, .int 2]) (vectorOf [.int 1, .int 2]) = .ok true ∧
    ∃ m : Table, tableInsertAll .empty [(.int 1, .int 2)] = .ok m ∧
      eq (listOf [.entry (.int 1) (.int 2)]) (.hashMap m .nil) = .ok true ∧
      eq (.hashMap m .nil) (listOf [.entry (.int 1) (.int 2)]) = .ok false := by
  obtain ⟨-, symm, trans⟩ := eq_equivalence (n := 2) unmixed_pairs (by decide)
  have hvector := nested_pairs (vectorOf [.int 1, .int 2]) (by simp [pairs])
  have hentry := nested_pairs (.entry (.int 1) (.int 2)) (by simp [pairs])
  have hlist := nested_pairs (listOf [.int 1, .int 2]) (by simp [pairs])
  refine ⟨?_, ?_, trans _ _ _ hentry hvector hlist ?_ ?_, symm _ _ hvector hlist ?_, _, rfl, ?_,
    ?_⟩ <;> rfl

/-- What is bound to a vector is found under the entry of its items, which has the same hash. A
tuple of the items is equal to the vector, and has another hash. -/
theorem lookup_entry_of_vector :
    (∃ (i : Int) (m : Table) (w : Value), hash (vectorOf [.int 1, .int 2]) = .ok i ∧
      hash (.entry (.int 1) (.int 2)) = .ok i ∧
      tableInsert .empty (vectorOf [.int 1, .int 2]) (.int 7) = .ok m ∧
      tableGet? m (.entry (.int 1) (.int 2)) = .ok (some w) ∧ keying.Same w (.int 7)) ∧
    eq (vectorOf [.int 1, .int 2]) (.tuple [.int 1, .int 2]) = .ok true ∧
    ∃ i j, hash (vectorOf [.int 1, .int 2]) = .ok i ∧ hash (.tuple [.int 1, .int 2]) = .ok j ∧
      i ≠ j := by
  obtain ⟨hhash, hfind⟩ := hash_eq_of_eq_keys (n := 2) unmixed_pairs (by decide)
    (nested_pairs (vectorOf [.int 1, .int 2]) (by simp [pairs]))
    (nested_pairs (.entry (.int 1) (.int 2)) (by simp [pairs])) rfl rfl (by rfl)
  obtain ⟨w, hw, hsame⟩ := hfind [] .empty _ (.int 7) (by simp) rfl rfl
  exact ⟨⟨_, _, w, rfl, congrArg Except.ok hhash.symm, rfl, hw, hsame⟩, by rfl, _, _, rfl, rfl,
    by decide +kernel⟩

end HostedLisp.Value
