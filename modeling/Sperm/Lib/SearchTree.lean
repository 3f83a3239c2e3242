import Mathlib.Data.Finset.Sort
import Mathlib.Data.Int.Notation
import Mathlib.Data.List.Perm.Basic
import Sperm.Lib.Traversal

/-!
# Binary search trees that follow a comparison

The trees are those of Mathlib. Insertion and removal go down by the sign of `cmp` and match on `0`
only; `cmp` need not be an order.

* `Rebalance`: a change of shape that keeps the values in order.
* `insertBy`, `last`, `removeBy`.
* **`perm_inorder_insertBy`**, **`pairwise_inorder_insertBy`**: what insertion does to the values
  when `cmp` never gives `0`; **`removeBy_of_ne_zero`**: removal then finds nothing.
* `IsOrder`: `cmp` is the comparison of a linear order. `insertSorted`: insertion into a sorted
  list. **`inorder_insertBy`**, **`inorder_removeBy_last`**: what the operations then do to the
  values; **`foldl_insertSorted`**, `take_insertSorted`: the sorted list of what was inserted, and
  its first values.
-/

namespace BinaryTree

variable {α : Type}

/-- A change of the shape of a tree, such as rotations make. -/
structure Rebalance (α : Type) where
  fix : BinaryTree α → BinaryTree α
  inorder_fix : ∀ t, (fix t).inorder = t.inorder

/-- No change. -/
def Rebalance.none : Rebalance α := ⟨id, fun _ => rfl⟩

/-- Insert `e`, going to the left on a negative and to the right on a positive comparison. A value
that compares as `0` is there already. -/
def insertBy (cmp : α → α → ℤ) (e : α) : BinaryTree α → BinaryTree α
  | .nil => .node e .nil .nil
  | .node x l r =>
    if cmp e x < 0 then .node x (l.insertBy cmp e) r
    else if 0 < cmp e x then .node x l (r.insertBy cmp e)
    else .node x l r

/-- The rightmost value. -/
def last : BinaryTree α → Option α
  | .nil => none
  | .node x _ .nil => some x
  | .node _ _ r => r.last

/-- The leftmost value and the tree without it. -/
def splitFirst : BinaryTree α → Option (α × BinaryTree α)
  | .nil => none
  | .node x l r =>
    match l.splitFirst with
    | none => some (x, r)
    | some (y, l') => some (y, .node x l' r)

/-- What takes the place of a removed value: its only child, or else its successor. -/
def join : BinaryTree α → BinaryTree α → BinaryTree α
  | .nil, r => r
  | l, r =>
    match r.splitFirst with
    | none => l
    | some (y, r') => .node y l r'

/-- Remove the value that compares as `0`, if the way down meets one. -/
def removeBy (cmp : α → α → ℤ) (e : α) : BinaryTree α → BinaryTree α
  | .nil => .nil
  | .node x l r =>
    if cmp e x < 0 then .node x (l.removeBy cmp e) r
    else if 0 < cmp e x then .node x l (r.removeBy cmp e)
    else join l r

section

variable {cmp : α → α → ℤ} {e : α}

theorem perm_inorder_insertBy (h : ∀ x, cmp e x ≠ 0) (t : BinaryTree α) :
    (t.insertBy cmp e).inorder.Perm (e :: t.inorder) := by
  induction t with
  | nil => exact .refl _
  | node x l r ihl ihr =>
    rw [insertBy]
    split_ifs with hlt hgt
    · exact ihl.append_right _
    · refine ((ihr.cons x).append_left _).trans ?_
      -- the new value moves to the front, over `x` and the left subtree
      exact ((List.Perm.swap e x _).append_left _).trans List.perm_middle
    · exact absurd (by omega) (h x)

theorem mem_inorder_insertBy {y : α} {t : BinaryTree α} (h : ∀ x, cmp e x ≠ 0)
    (hy : y ∈ (t.insertBy cmp e).inorder) : y = e ∨ y ∈ t.inorder :=
  List.mem_cons.mp ((perm_inorder_insertBy h t).mem_iff.mp hy)

theorem pairwise_inorder_insertBy {R : α → α → Prop} (htrans : ∀ {a b c}, R a b → R b c → R a c)
    (h : ∀ x, cmp e x ≠ 0) (hneg : ∀ x, cmp e x < 0 → R e x) (hpos : ∀ x, 0 < cmp e x → R x e)
    {t : BinaryTree α} (ht : t.inorder.Pairwise R) : (t.insertBy cmp e).inorder.Pairwise R := by
  induction t with
  | nil => exact List.pairwise_singleton R e
  | node x l r ihl ihr =>
    rw [inorder_node, List.pairwise_append, List.pairwise_cons] at ht
    obtain ⟨hl, ⟨hxr, hr⟩, hlr⟩ := ht
    rw [insertBy]
    split_ifs with hlt hgt
    · rw [inorder_node, List.pairwise_append, List.pairwise_cons]
      refine ⟨ihl hl, ⟨hxr, hr⟩, fun a ha b hb => ?_⟩
      rcases mem_inorder_insertBy h ha with rfl | ha
      · rcases List.mem_cons.mp hb with rfl | hb
        · exact hneg b hlt
        · exact htrans (hneg x hlt) (hxr b hb)
      · exact hlr a ha b hb
    · rw [inorder_node, List.pairwise_append, List.pairwise_cons]
      refine ⟨hl, ⟨fun b hb => ?_, ihr hr⟩, fun a ha b hb => ?_⟩
      · rcases mem_inorder_insertBy h hb with rfl | hb
        · exact hpos x hgt
        · exact hxr b hb
      · rcases List.mem_cons.mp hb with rfl | hb
        · exact hlr a ha b List.mem_cons_self
        rcases mem_inorder_insertBy h hb with rfl | hb
        · exact htrans (hlr a ha x List.mem_cons_self) (hpos x hgt)
        · exact hlr a ha b (List.mem_cons_of_mem _ hb)
    · exact absurd (by omega) (h x)

/-- A value that never compares as `0` is not found, wherever it is. -/
theorem removeBy_of_ne_zero (h : ∀ x, cmp e x ≠ 0) (t : BinaryTree α) : t.removeBy cmp e = t := by
  induction t with
  | nil => rfl
  | node x l r ihl ihr =>
    rw [removeBy, ihl, ihr]
    split_ifs with hlt hgt
    · rfl
    · rfl
    · exact absurd (by omega) (h x)

theorem mem_of_last_eq_some {t : BinaryTree α} (h : t.last = some e) : e ∈ t.inorder := by
  fun_induction last t with
  | case1 => cases h
  | case2 x l =>
    cases h
    exact List.mem_append_right _ List.mem_cons_self
  | case3 x l r hr ih => exact List.mem_append_right _ (List.mem_cons_of_mem x (ih h))

theorem eq_nil_of_last_eq_none {t : BinaryTree α} (h : t.last = none) : t = .nil := by
  fun_induction last t with
  | case1 => rfl
  | case2 x l => cases h
  | case3 x l r hr ih => exact (hr (ih h)).elim

theorem inorder_join_nil (l : BinaryTree α) : (join l .nil).inorder = l.inorder := by
  cases l <;> rfl

end

/-! ## The comparison of an order -/

/-- The sign of `cmp` is the comparison of two values. -/
structure IsOrder [LinearOrder α] (cmp : α → α → ℤ) : Prop where
  neg_iff : ∀ a b, cmp a b < 0 ↔ a < b
  pos_iff : ∀ a b, 0 < cmp a b ↔ b < a

section

variable [LinearOrder α]

/-- Insert a value into a sorted list, unless it is there. -/
def insertSorted (e : α) : List α → List α
  | [] => [e]
  | x :: l => if e < x then e :: x :: l else if x < e then x :: insertSorted e l else x :: l

theorem mem_insertSorted {e y : α} {l : List α} : y ∈ insertSorted e l ↔ y = e ∨ y ∈ l := by
  induction l with
  | nil => simp [insertSorted]
  | cons x l ih =>
    rw [insertSorted]
    split_ifs with hlt hgt
    · exact List.mem_cons
    · rw [List.mem_cons, ih, List.mem_cons]
      exact or_left_comm
    · rw [le_antisymm (not_lt.mp hgt) (not_lt.mp hlt)]
      simp

theorem pairwise_insertSorted {e : α} {l : List α} (h : l.Pairwise (· < ·)) :
    (insertSorted e l).Pairwise (· < ·) := by
  induction l with
  | nil => exact List.pairwise_singleton _ e
  | cons x l ih =>
    obtain ⟨hx, hl⟩ := List.pairwise_cons.mp h
    rw [insertSorted]
    split_ifs with hlt hgt
    · refine List.pairwise_cons.mpr ⟨fun y hy => ?_, h⟩
      rcases List.mem_cons.mp hy with rfl | hy
      · exact hlt
      · exact hlt.trans (hx y hy)
    · refine List.pairwise_cons.mpr ⟨fun y hy => ?_, ih hl⟩
      rcases mem_insertSorted.mp hy with rfl | hy
      · exact hgt
      · exact hx y hy
    · exact h

theorem length_insertSorted_le (e : α) (l : List α) :
    (insertSorted e l).length ≤ l.length + 1 := by
  induction l with
  | nil => exact Nat.le_refl _
  | cons x l ih =>
    rw [insertSorted]
    split_ifs
    · exact Nat.le_refl _
    · exact Nat.succ_le_succ ih
    · exact Nat.le_succ _

theorem take_insertSorted (e : α) (n : ℕ) (l : List α) :
    (insertSorted e (l.take n)).take n = (insertSorted e l).take n := by
  induction l generalizing n with
  | nil => rw [List.take_nil]
  | cons x l ih =>
    cases n with
    | zero => rfl
    | succ n =>
      rw [List.take_succ_cons, insertSorted, insertSorted]
      split_ifs
      · -- `e` goes to the front, and one value less is wanted of the rest
        rw [← List.take_succ_cons, List.take_succ_cons, List.take_take,
          Nat.min_eq_left (Nat.le_succ n), List.take_succ_cons]
      · rw [List.take_succ_cons, List.take_succ_cons, ih]
      · rw [List.take_succ_cons, List.take_succ_cons, List.take_take, Nat.min_self]

theorem insertSorted_append_of_lt {e x : α} {l r : List α} (hx : e < x) :
    insertSorted e (l ++ x :: r) = insertSorted e l ++ x :: r := by
  induction l with
  | nil => exact if_pos hx
  | cons y l ih =>
    rw [List.cons_append, insertSorted, insertSorted, ih]
    split_ifs <;> rfl

theorem insertSorted_append_of_forall_lt {e : α} {l r : List α} (hl : ∀ y ∈ l, y < e) :
    insertSorted e (l ++ r) = l ++ insertSorted e r := by
  induction l with
  | nil => rfl
  | cons y l ih =>
    obtain ⟨hy, hl⟩ := List.forall_mem_cons.mp hl
    rw [List.cons_append, insertSorted, if_neg hy.asymm, if_pos hy, ih hl, List.cons_append]

/-- In a tree in order, insertion by the comparison is insertion into the sorted list. -/
theorem inorder_insertBy {cmp : α → α → ℤ} (hcmp : IsOrder cmp) (e : α) {t : BinaryTree α}
    (ht : t.inorder.Pairwise (· < ·)) : (t.insertBy cmp e).inorder = insertSorted e t.inorder := by
  induction t with
  | nil => rfl
  | node x l r ihl ihr =>
    rw [inorder_node, List.pairwise_append, List.pairwise_cons] at ht
    obtain ⟨hl, ⟨hxr, hr⟩, hlr⟩ := ht
    have hlx : ∀ y ∈ l.inorder, y < x := fun y hy => hlr y hy x List.mem_cons_self
    rw [insertBy]
    split_ifs with hlt hgt
    · rw [hcmp.neg_iff] at hlt
      rw [inorder_node, inorder_node, ihl hl, insertSorted_append_of_lt hlt]
    · rw [hcmp.pos_iff] at hgt
      rw [inorder_node, inorder_node, ihr hr,
        insertSorted_append_of_forall_lt fun y hy => (hlx y hy).trans hgt, insertSorted,
        if_neg hgt.asymm, if_pos hgt]
    · rw [hcmp.neg_iff] at hlt
      rw [hcmp.pos_iff] at hgt
      obtain rfl := le_antisymm (not_lt.mp hgt) (not_lt.mp hlt)
      rw [inorder_node, insertSorted_append_of_forall_lt hlx, insertSorted,
        if_neg (lt_irrefl _), if_neg (lt_irrefl _)]

theorem inorder_removeBy_last {cmp : α → α → ℤ} (hcmp : IsOrder cmp) {e : α} {t : BinaryTree α}
    (ht : t.inorder.Pairwise (· < ·)) (he : t.last = some e) :
    (t.removeBy cmp e).inorder = t.inorder.dropLast := by
  fun_induction last t with
  | case1 => cases he
  | case2 x l =>
    cases he
    rw [removeBy, if_neg fun h => lt_irrefl e ((hcmp.neg_iff e e).mp h),
      if_neg fun h => lt_irrefl e ((hcmp.pos_iff e e).mp h), inorder_join_nil, inorder_node,
      inorder_nil, List.dropLast_concat]
  | case3 x l r hr ih =>
    rw [inorder_node, List.pairwise_append, List.pairwise_cons] at ht
    obtain ⟨-, ⟨hxr, hsorted⟩, -⟩ := ht
    -- the last value is on the right, so the way down goes there
    have hmem := mem_of_last_eq_some he
    have hgt := (hcmp.pos_iff e x).mpr (hxr e hmem)
    rw [removeBy, if_neg hgt.asymm, if_pos hgt, inorder_node, ih hsorted he, inorder_node,
      List.dropLast_append_cons, List.dropLast_cons_of_ne_nil (List.ne_nil_of_mem hmem)]

theorem insertSorted_sort (e : α) (s : Finset α) :
    insertSorted e (s.sort (· ≤ ·)) = (insert e s).sort (· ≤ ·) := by
  have hlt := pairwise_insertSorted (e := e) s.sortedLT_sort.pairwise
  have hset : (insertSorted e (s.sort (· ≤ ·))).toFinset = insert e s := by
    ext y
    rw [List.mem_toFinset, mem_insertSorted, Finset.mem_sort, Finset.mem_insert]
  rw [← hset]
  exact ((List.toFinset_sort _ (hlt.imp ne_of_lt)).mpr (hlt.imp le_of_lt)).symm

/-- **Insertion one by one gives the sorted list** of the values. -/
theorem foldl_insertSorted (es : List α) :
    es.foldl (fun l e => insertSorted e l) [] = es.toFinset.sort (· ≤ ·) := by
  induction es using List.reverseRecOn with
  | nil => exact (Finset.sort_empty _).symm
  | append_singleton es e ih =>
    rw [List.foldl_append, List.foldl_cons, List.foldl_nil, ih, insertSorted_sort,
      List.toFinset_append, Finset.union_comm]
    rfl

end

end BinaryTree
