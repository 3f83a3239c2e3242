import Mathlib.Algebra.Order.Ring.Int
import Mathlib.Data.Int.Notation
import Mathlib.Order.Bounds.Basic
import Sperm.Lib.TreeEnumeration

/-!
# Is it a search tree? (`valid-binary-search-tree.cc`)

A subtree is compared with its root by the least and the greatest of its values, which the
recursion passes up.

* `isValidBST` with `isValid` and `block`: the model.
* `Extremes`: the least and the greatest value of a list.
* `block_spec`, **`isValid_eq_some_iff`**: what a call passes up, if the subtree is a search tree.
* **`isValidBST_iff`**: the values ascend from left to right.
-/

namespace Sperm.Leetcode.ValidBST

open BinaryTree

/-- The block for a child, where `r` is what the call for it gives and `bad` says for which `t1` and
`t2` the result is `false`. -/
def block (child : BinaryTree ℤ) (r : Option (ℤ × ℤ)) (bad : ℤ → ℤ → Bool) (xmin xmax : ℤ) :
    Option (ℤ × ℤ) :=
  if child = .nil then some (xmin, xmax)
  else do
    let (t1, t2) ← r
    if bad t1 t2 then none else some (min xmin t1, max xmax t2)

/-- `isValid(root, xmin, xmax)`: `xmin` and `xmax`, where `none` stands for the result `false`,
after which they are not read. It is not called for `NULL`. -/
def isValid : BinaryTree ℤ → Option (ℤ × ℤ)
  | .nil => none
  | .node val left right => do
    let (xmin, xmax) ← block left (isValid left) (fun _ t2 => t2 ≥ val) val val
    block right (isValid right) (fun t1 _ => t1 ≤ val) xmin xmax

/-- `isValidBST(root)`. -/
def isValidBST (root : BinaryTree ℤ) : Bool := if root = .nil then true else (isValid root).isSome

/-! ## The least and the greatest value -/

/-- `a` is the least and `b` the greatest value in `l`. -/
structure Extremes (l : List ℤ) (a b : ℤ) : Prop where
  least : IsLeast {x | x ∈ l} a
  greatest : IsGreatest {x | x ∈ l} b

variable {l l' : List ℤ} {a b c d x val : ℤ} {left right child t : BinaryTree ℤ}

theorem Extremes.unique (h : Extremes l a b) (h' : Extremes l c d) : a = c ∧ b = d :=
  ⟨h.least.unique h'.least, h.greatest.unique h'.greatest⟩

theorem extremes_singleton (x : ℤ) : Extremes [x] x x := by
  have hset : {y | y ∈ [x]} = {x} := by
    ext y
    exact List.mem_singleton
  constructor
  · rw [hset]
    exact isLeast_singleton
  · rw [hset]
    exact isGreatest_singleton

theorem Extremes.append (h : Extremes l a b) (h' : Extremes l' c d) :
    Extremes (l ++ l') (min a c) (max b d) := by
  have hset : {y | y ∈ l ++ l'} = {y | y ∈ l} ∪ {y | y ∈ l'} := by
    ext y
    exact List.mem_append
  constructor
  · rw [hset]
    exact h.least.union h'.least
  · rw [hset]
    exact h.greatest.union h'.greatest

theorem Extremes.congr (h : Extremes l a b) (hmem : ∀ y, y ∈ l ↔ y ∈ l') : Extremes l' a b := by
  have hset : {y | y ∈ l} = {y | y ∈ l'} := Set.ext hmem
  exact ⟨hset ▸ h.least, hset ▸ h.greatest⟩

theorem exists_extremes (h : l ≠ []) : ∃ a b, Extremes l a b := by
  induction l with
  | nil => exact absurd rfl h
  | cons x l ih =>
    by_cases hl : l = []
    · rw [hl]
      exact ⟨x, x, extremes_singleton x⟩
    · obtain ⟨a, b, hab⟩ := ih hl
      exact ⟨_, _, (extremes_singleton x).append hab⟩

theorem Extremes.forall_lt (h : Extremes l a b) : (∀ y ∈ l, y < x) ↔ b < x :=
  ⟨fun hlt => hlt b h.greatest.1, fun hb _ hy => (h.greatest.2 hy).trans_lt hb⟩

theorem Extremes.forall_gt (h : Extremes l a b) : (∀ y ∈ l, x < y) ↔ x < a :=
  ⟨fun hlt => hlt a h.least.1, fun ha _ hy => ha.trans_le (h.least.2 hy)⟩

theorem inorder_ne_nil (h : t ≠ nil) : t.inorder ≠ [] := by
  cases t with
  | nil => exact absurd rfl h
  | node x l r => simp

/-! ## What the recursion passes up -/

variable {bad : ℤ → ℤ → Bool} {xmin xmax : ℤ}

theorem block_eq_some_iff {r : Option (ℤ × ℤ)} :
    block child r bad xmin xmax = some (a, b) ↔
      (child = nil ∧ xmin = a ∧ xmax = b) ∨ (child ≠ nil ∧ ∃ t1 t2, r = some (t1, t2) ∧
        bad t1 t2 = false ∧ min xmin t1 = a ∧ max xmax t2 = b) := by
  unfold block
  by_cases hnil : child = nil
  · simp [hnil]
  · cases r with
    | none => simp [hnil]
    | some p =>
      obtain ⟨t1, t2⟩ := p
      cases hbad : bad t1 t2 with
      | true => simp [hnil, hbad]
      | false => simp [hnil, hbad]

/-- A call finds out whether `t` is a search tree, and then its extremes. -/
def Finds (t : BinaryTree ℤ) : Prop :=
  ∀ a b, isValid t = some (a, b) ↔ t.IsSearchTree ∧ Extremes t.inorder a b

/-- **The block for a child**, behind the values `l`. `Q` says that the values of the child are on
the right side of the root. -/
theorem block_spec (hfinds : child ≠ nil → Finds child) (hl : Extremes l xmin xmax) {Q : Prop}
    (hnil : child = nil → Q)
    (hQ : ∀ t1 t2, Extremes child.inorder t1 t2 → (bad t1 t2 = false ↔ Q)) :
    block child (isValid child) bad xmin xmax = some (a, b) ↔
      (child.IsSearchTree ∧ Q) ∧ Extremes (l ++ child.inorder) a b := by
  rw [block_eq_some_iff]
  constructor
  · rintro (⟨rfl, rfl, rfl⟩ | ⟨hchild, t1, t2, hcall, hbad, rfl, rfl⟩)
    · refine ⟨⟨trivial, hnil rfl⟩, ?_⟩
      rwa [inorder_nil, List.append_nil]
    · obtain ⟨htree, hext⟩ := (hfinds hchild t1 t2).mp hcall
      exact ⟨⟨htree, (hQ t1 t2 hext).mp hbad⟩, hl.append hext⟩
  · rintro ⟨⟨htree, hside⟩, hab⟩
    by_cases hchild : child = nil
    · subst hchild
      rw [inorder_nil, List.append_nil] at hab
      obtain ⟨rfl, rfl⟩ := hl.unique hab
      exact .inl ⟨rfl, rfl, rfl⟩
    · obtain ⟨t1, t2, hext⟩ := exists_extremes (inorder_ne_nil hchild)
      obtain ⟨rfl, rfl⟩ := (hl.append hext).unique hab
      exact .inr ⟨hchild, t1, t2, (hfinds hchild t1 t2).mpr ⟨htree, hext⟩,
        (hQ t1 t2 hext).mpr hside, rfl, rfl⟩

theorem left_spec (h : left ≠ nil → Finds left) :
    block left (isValid left) (fun _ t2 => t2 ≥ val) val val = some (a, b) ↔
      (left.IsSearchTree ∧ ∀ y ∈ left.inorder, y < val) ∧ Extremes ([val] ++ left.inorder) a b := by
  refine block_spec h (extremes_singleton val) ?_ fun t1 t2 hext => ?_
  · rintro rfl y hy
    cases hy
  · rw [hext.forall_lt, decide_eq_false_iff_not, ge_iff_le, not_le]

theorem right_spec (h : right ≠ nil → Finds right) (hl : Extremes l xmin xmax) :
    block right (isValid right) (fun t1 _ => t1 ≤ val) xmin xmax = some (a, b) ↔
      (right.IsSearchTree ∧ ∀ y ∈ right.inorder, val < y) ∧ Extremes (l ++ right.inorder) a b := by
  refine block_spec h hl ?_ fun t1 t2 hext => ?_
  · rintro rfl y hy
    cases hy
  · rw [hext.forall_gt, decide_eq_false_iff_not, not_le]

/-- **A call** passes up the extremes of a search tree, and nothing of any other tree. -/
theorem isValid_eq_some_iff (h : t ≠ nil) : Finds t := by
  induction t with
  | nil => exact absurd rfl h
  | node val left right ihl ihr =>
    intro a b
    have hmem : ∀ y, y ∈ ([val] ++ left.inorder) ++ right.inorder ↔
        y ∈ (node val left right).inorder := by
      intro y
      simp only [inorder_node, List.mem_append, List.mem_cons, List.not_mem_nil, or_false]
      rw [or_assoc, or_left_comm]
    rw [isValid, Option.bind_eq_bind, Option.bind_eq_some_iff]
    constructor
    · rintro ⟨⟨xmin, xmax⟩, hleft, hright⟩
      obtain ⟨⟨htree, hlt⟩, hext⟩ := (left_spec ihl).mp hleft
      obtain ⟨⟨htree', hgt⟩, hab⟩ := (right_spec ihr hext).mp hright
      exact ⟨⟨hlt, hgt, htree, htree'⟩, hab.congr hmem⟩
    · rintro ⟨⟨hlt, hgt, htree, htree'⟩, hab⟩
      obtain ⟨xmin, xmax, hext⟩ := exists_extremes (List.cons_ne_nil val left.inorder)
      exact ⟨(xmin, xmax), (left_spec ihl).mpr ⟨⟨htree, hlt⟩, hext⟩,
        (right_spec ihr hext).mpr ⟨⟨htree', hgt⟩, hab.congr fun y => (hmem y).symm⟩⟩

/-- **The answer**: whether the values ascend from left to right. -/
theorem isValidBST_iff (root : BinaryTree ℤ) :
    isValidBST root = true ↔ root.inorder.Pairwise (· < ·) := by
  unfold isValidBST
  split_ifs with hnil
  · rw [hnil]
    exact iff_of_true rfl .nil
  · rw [← isSearchTree_iff, Option.isSome_iff_exists]
    constructor
    · rintro ⟨⟨a, b⟩, hcall⟩
      exact ((isValid_eq_some_iff hnil a b).mp hcall).1
    · intro htree
      obtain ⟨a, b, hext⟩ := exists_extremes (inorder_ne_nil hnil)
      exact ⟨(a, b), (isValid_eq_some_iff hnil a b).mpr ⟨htree, hext⟩⟩

end Sperm.Leetcode.ValidBST
