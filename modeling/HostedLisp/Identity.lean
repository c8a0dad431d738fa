import HostedLisp.Value

/-!
# Identity

Values are held by content, and two objects may have one content. Where it shows which of them a
value is, when a collection is compared with itself, identity is a parameter: all that is known of
it is that an object has one content, and that there is one object only of some contents, such as
nil.

- `Identity`: which values are one and the same object.
- `Value.same`: whether nothing can tell two values apart, at a nesting depth up to a bound.
  Programs run with this identity. Floats that are no numbers tell their owners apart by their
  marks.
- `Value.eq_of_same`: such values are equal.
- `Value.apart`: the identity where no collection is met twice.
-/

namespace HostedLisp

open Coll Machine

/-- Whether there is one object only of that content. -/
def Value.isUnique : Value → Bool
  | .nil | .bool _ | .keyword _ | .primitive _ | .builtin _ | .comparator _ | .type .. | .module _
  | .opcode _ | .lineMarker | .method | .thing .. | .ref _ => true
  | _ => false

/-- Which values are one and the same object. -/
class Identity where
  is : Value → Value → Bool
  eq_of_is : ∀ {a b}, is a b = true → a = b
  is_self : ∀ {a}, a.isUnique = true → is a a = true

namespace Identity

variable [Identity] {a b : Value}

theorem is_eq_false (h : a ≠ b) : is a b = false :=
  Bool.eq_false_iff.mpr fun his => h (eq_of_is his)

theorem is_iff (h : a.isUnique = true) : is a b = true ↔ a = b :=
  ⟨eq_of_is, fun hab => hab ▸ is_self h⟩

end Identity

namespace Value

/-- How deeply evaluation may nest. -/
def depthLimit : Nat := 1000

section

variable {α : Type} (f : α → α → Bool)

def sameOption : Option α → Option α → Bool
  | none, none => true
  | some x, some y => f x y
  | _, _ => false

def samePair (x y : α × α) : Bool := f x.1 y.1 && f x.2 y.2

def sameItems : (depth : Nat) → VectorNode α → VectorNode α → Bool
  | _, .leaf xs, .leaf ys => xs.isEqv ys f
  | d + 1, .branch xs, .branch ys => xs.isEqv ys (sameItems d)
  | _, _, _ => false

def sameVector (v w : Vector α) : Bool :=
  v.count == w.count && v.depth == w.depth && sameItems f v.depth v.root w.root
    && v.tail.isEqv w.tail f

def sameTrieSlot (child : TrieNode α α → TrieNode α α → Bool) : TrieSlot α α → TrieSlot α α → Bool
  | .vacant, .vacant => true
  | .entry k v, .entry l w => f k l && f v w
  | .child n, .child m => child n m
  | _, _ => false

def sameTrie : (depth : Nat) → TrieNode α α → TrieNode α α → Bool
  | d + 1, .bitmap b xs, .bitmap c ys => b == c && xs.isEqv ys (sameTrieSlot f (sameTrie d))
  | d + 1, .array n xs, .array m ys => n == m && xs.isEqv ys (sameOption (sameTrie d))
  | d + 1, .collision h n xs, .collision i m ys =>
    h == i && n == m && xs.isEqv ys (sameTrieSlot f (sameTrie d))
  | _, _, _ => false

def sameTable (m n : HashMap α α) : Bool :=
  m.count == n.count && sameOption (sameTrie f depthLimit) m.root n.root
    && sameOption f m.nilValue n.nilValue

def sameTree : Tree α α → Tree α α → Bool
  | .empty, .empty => true
  | .node c b k v l r, .node c' b' k' v' l' r' =>
    c == c' && b == b' && f k k' && sameOption f v v' && sameTree l l' && sameTree r r'
  | _, _ => false

def sameInstr (i j : Instr α) : Bool := i.op == j.op && i.pairing == j.pairing && f i.arg j.arg

def sameCode (u v : CodeUnit α) : Bool :=
  u.instrs.isEqv v.instrs (sameInstr f) && u.freevars.isEqv v.freevars f && u.args.isEqv v.args f
    && u.varargs == v.varargs && u.varkwargs == v.varkwargs && u.newlocals == v.newlocals
    && u.name == v.name && u.file == v.file && u.firstLine == v.firstLine
    && u.docstring == v.docstring

end

/-- Whether nothing can tell two values apart, at a nesting depth up to the bound. -/
def sameAt : (depth : Nat) → Value → Value → Bool
  | 0, _, _ => false
  | d + 1, a, b =>
    match a, b with
    | .nil, .nil => true
    | .bool x, .bool y => x == y
    | .int x, .int y => x == y
    | .float x, .float y => decide (x = y)
    | .nan m, .nan n => m == n
    | .ratio x, .ratio y => x == y
    | .str x, .str y => x == y
    | .wide x, .wide y => x == y
    | .bytes x, .bytes y => x == y
    | .numeral x, .numeral y => x == y
    | .regex x, .regex y => x == y
    | .symbol x m, .symbol y n => x == y && sameAt d m n
    | .keyword x, .keyword y => x == y
    | .emptyList m, .emptyList n => sameAt d m n
    | .list s x xs n i, .list s' y ys n' i' =>
      s == s' && n == n' && sameAt d x y && sameAt d xs ys && sameAt d i i'
    | .cons x xs i, .cons y ys i' => sameAt d x y && sameAt d xs ys && sameAt d i i'
    | .vector x i, .vector y i' => sameVector (sameAt d) x y && sameAt d i i'
    | .subvector x s e i, .subvector y s' e' i' =>
      s == s' && e == e' && sameAt d x y && sameAt d i i'
    | .entry k v, .entry l w => sameAt d k l && sameAt d v w
    | .hashMap x i, .hashMap y i' => sameTable (sameAt d) x y && sameAt d i i'
    | .hashSet x i, .hashSet y i' => sameTable (sameAt d) x y && sameAt d i i'
    | .arrayMap x f i, .arrayMap y f' i' => f == f' && x.isEqv y (sameAt d) && sameAt d i i'
    | .treeMap o t n i, .treeMap o' t' n' i' =>
      o == o' && sameTree (sameAt d) t t' && sameAt d n n' && sameAt d i i'
    | .treeNode t, .treeNode t' => sameTree (sameAt d) t t'
    | .indexSeq x i, .indexSeq y j => i == j && sameAt d x y
    | .keySeq x i, .keySeq y j => sameAt d x y && sameAt d i j
    | .valSeq x i, .valSeq y j => sameAt d x y && sameAt d i j
    | .trieSeq p x i, .trieSeq q y j => p == q && x.isEqv y (samePair (sameAt d)) && sameAt d i j
    | .treeSeq x p n i, .treeSeq y q m j =>
      p == q && n == m && x.isEqv y (sameTree (sameAt d)) && sameAt d i j
    | .arraySeq x i m, .arraySeq y j n => i == j && x.isEqv y (sameAt d) && sameAt d m n
    | .tuple x, .tuple y => x.isEqv y (sameAt d)
    | .array x, .array y => x.isEqv y (sameAt d)
    | .dict x, .dict y => x.isEqv y (samePair (sameAt d))
    | .primitive x, .primitive y => x == y
    | .builtin x, .builtin y => x == y
    | .comparator x, .comparator y => x == y
    | .type h n, .type h' n' => h == h' && n == n'
    | .module x, .module y => x == y
    | .opcode x, .opcode y => x == y
    | .lineMarker, .lineMarker => true
    | .label x, .label y => x == y
    | .code x, .code y => sameCode (sameAt d) x y
    | .method, .method => true
    | .thing h x, .thing h' y => h == h' && x == y
    | .ref x, .ref y => x == y
    | _, _ => false

/-- Whether nothing can tell two values apart. -/
def same (a b : Value) : Bool := sameAt depthLimit a b

/-! ## What is the same is equal -/

/-- A test that only equal things pass. -/
def Telling {α : Type} (f : α → α → Bool) : Prop := ∀ a b, f a b = true → a = b

namespace Telling

variable {α : Type} {f : α → α → Bool}

theorem isEqv (h : Telling f) : Telling fun xs ys : List α => xs.isEqv ys f := by
  intro xs ys hxy
  induction xs generalizing ys with
  | nil => cases ys <;> simp_all
  | cons x xs ih =>
    cases ys with
    | nil => simp at hxy
    | cons y ys =>
      obtain ⟨hx, hxs⟩ := Bool.and_eq_true_iff.mp hxy
      rw [h x y hx, ih ys hxs]

theorem option (h : Telling f) : Telling (sameOption f) := by
  intro x y hxy
  cases x with
  | none => cases y <;> simp_all [sameOption]
  | some x =>
    cases y with
    | none => cases hxy
    | some y => rw [h x y hxy]

theorem pair (h : Telling f) : Telling (samePair f) := by
  intro x y hxy
  obtain ⟨hfst, hsnd⟩ := Bool.and_eq_true_iff.mp hxy
  exact Prod.ext (h _ _ hfst) (h _ _ hsnd)

theorem items (h : Telling f) (d : Nat) : Telling (sameItems f d) := by
  induction d with
  | zero =>
    intro v w hvw
    cases v <;> cases w <;> simp only [sameItems, Bool.false_eq_true] at hvw
    rw [h.isEqv _ _ hvw]
  | succ d ih =>
    intro v w hvw
    cases v <;> cases w <;> simp only [sameItems, Bool.false_eq_true] at hvw
    · rw [h.isEqv _ _ hvw]
    · rw [ih.isEqv _ _ hvw]

theorem vector (h : Telling f) : Telling (sameVector f) := by
  rintro ⟨n, d, root, tail⟩ ⟨n', d', root', tail'⟩ hvw
  simp only [sameVector, Bool.and_eq_true, beq_iff_eq] at hvw
  obtain ⟨⟨⟨rfl, rfl⟩, hroot⟩, htail⟩ := hvw
  rw [h.items d _ _ hroot, h.isEqv _ _ htail]

theorem trieSlot (h : Telling f) {child : TrieNode α α → TrieNode α α → Bool}
    (hchild : Telling child) : Telling (sameTrieSlot f child) := by
  intro x y hxy
  cases x <;> cases y <;> simp only [sameTrieSlot, Bool.false_eq_true, Bool.and_eq_true] at hxy
  · rfl
  · rw [h _ _ hxy.1, h _ _ hxy.2]
  · rw [hchild _ _ hxy]

theorem trie (h : Telling f) (d : Nat) : Telling (sameTrie f d) := by
  induction d with
  | zero =>
    intro m n hmn
    simp [sameTrie] at hmn
  | succ d ih =>
    intro m n hmn
    cases m <;> cases n <;>
      simp only [sameTrie, Bool.false_eq_true, Bool.and_eq_true, beq_iff_eq] at hmn
    · rw [hmn.1, (h.trieSlot ih).isEqv _ _ hmn.2]
    · rw [hmn.1, ih.option.isEqv _ _ hmn.2]
    · rw [hmn.1.1, hmn.1.2, (h.trieSlot ih).isEqv _ _ hmn.2]

theorem table (h : Telling f) : Telling (sameTable f) := by
  rintro ⟨n, root, bound⟩ ⟨n', root', bound'⟩ hmn
  simp only [sameTable, Bool.and_eq_true, beq_iff_eq] at hmn
  rw [hmn.1.1, (h.trie depthLimit).option _ _ hmn.1.2, h.option _ _ hmn.2]

theorem tree (h : Telling f) : Telling (sameTree f) := by
  intro t u htu
  induction t generalizing u with
  | empty => cases u <;> simp_all [sameTree]
  | node c b k v l r ihl ihr =>
    cases u with
    | empty => simp [sameTree] at htu
    | node =>
      simp only [sameTree, Bool.and_eq_true, beq_iff_eq] at htu
      obtain ⟨⟨⟨⟨⟨rfl, rfl⟩, hk⟩, hv⟩, hl⟩, hr⟩ := htu
      rw [h _ _ hk, h.option _ _ hv, ihl _ hl, ihr _ hr]

theorem instr (h : Telling f) : Telling (sameInstr f) := by
  rintro ⟨op, arg, pairing⟩ ⟨op', arg', pairing'⟩ hij
  simp only [sameInstr, Bool.and_eq_true, beq_iff_eq] at hij
  rw [hij.1.1, hij.1.2, h _ _ hij.2]

theorem code (h : Telling f) : Telling (sameCode f) := by
  rintro ⟨⟩ ⟨⟩ huv
  simp only [sameCode, Bool.and_eq_true, beq_iff_eq] at huv
  obtain ⟨⟨⟨⟨⟨⟨⟨⟨⟨hinstrs, hfree⟩, hargs⟩, rfl⟩, rfl⟩, rfl⟩, rfl⟩, rfl⟩, rfl⟩, rfl⟩ := huv
  rw [h.instr.isEqv _ _ hinstrs, h.isEqv _ _ hfree, h.isEqv _ _ hargs]

end Telling

theorem telling_sameAt (d : Nat) : Telling (sameAt d) := by
  induction d with
  | zero =>
    intro a b h
    cases h
  | succ d ih =>
    intro a b h
    unfold sameAt at h
    split at h
    all_goals
      grind [Telling, ih.isEqv, ih.pair.isEqv, ih.tree.isEqv, ih.vector, ih.table, ih.tree, ih.code]

theorem same_self {a : Value} (h : a.isUnique = true) : a.same a = true := by
  cases a <;> cases h <;> simp [same, depthLimit, sameAt]

theorem eq_of_same {a b : Value} (h : a.same b = true) : a = b := telling_sameAt depthLimit a b h

/-- What nothing can tell apart is taken for one object. -/
instance : Identity where
  is := same
  eq_of_is := eq_of_same
  is_self := same_self

/-- The identity of a program that makes every collection anew. -/
abbrev apart : Identity where
  is a b := a.isUnique && a.same b
  eq_of_is h := eq_of_same (Bool.and_eq_true_iff.mp h).2
  is_self h := Bool.and_eq_true_iff.mpr ⟨h, same_self h⟩

end Value

end HostedLisp
