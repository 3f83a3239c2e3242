import Mathlib.Algebra.Order.Ring.Nat
import Mathlib.Tactic.Common
import Sperm.Lib.Traversal

/-!
# The levels of a binary tree

* `atDepth`: the values at a depth, from left to right; `levels`, those of all depths.
* `Node`: a tree that is not empty; `children` of a row of nodes, the next row; `values_perm`.
* **`levels_row`**: the levels of a row are its values, then the levels of the next row.
-/

namespace BinaryTree

variable {α : Type}

/-- The values at depth `d`, from left to right. -/
def atDepth : BinaryTree α → ℕ → List α
  | .nil, _ => []
  | .node x _ _, 0 => [x]
  | .node _ l r, d + 1 => l.atDepth d ++ r.atDepth d

/-- The values of every depth. -/
def levels (t : BinaryTree α) : List (List α) := (List.range t.height).map t.atDepth

/-- A tree that is not empty. -/
structure Node (α : Type) where
  val : α
  left : BinaryTree α
  right : BinaryTree α

namespace Node

def tree (p : Node α) : BinaryTree α := .node p.val p.left p.right

/-- The root of a tree, if it has one. -/
def ofTree : BinaryTree α → List (Node α)
  | .nil => []
  | .node x l r => [⟨x, l, r⟩]

/-- The next row. -/
def children (row : List (Node α)) : List (Node α) :=
  row.flatMap fun p => ofTree p.left ++ ofTree p.right

/-- The number of values below a row. -/
def size (row : List (Node α)) : ℕ := (row.map fun p => p.tree.numNodes).sum

/-- The number of rows from a row on. -/
def height (row : List (Node α)) : ℕ := row.foldr (fun p h => max p.tree.height h) 0

/-- The values of every depth below a row. -/
def levels (row : List (Node α)) : List (List α) :=
  (List.range (height row)).map fun d => row.flatMap fun p => p.tree.atDepth d

theorem children_cons (p : Node α) (row : List (Node α)) :
    children (p :: row) = ofTree p.left ++ ofTree p.right ++ children row := by
  simp [children]

theorem height_cons (p : Node α) (row : List (Node α)) :
    height (p :: row) = max (max p.left.height p.right.height + 1) (height row) := rfl

theorem size_append (xs ys : List (Node α)) : size (xs ++ ys) = size xs + size ys := by
  simp [size]

theorem size_reverse (row : List (Node α)) : size row.reverse = size row := by
  simp [size, List.sum_reverse]

theorem size_ofTree (t : BinaryTree α) : size (ofTree t) = t.numNodes := by
  cases t <;> simp [ofTree, size, tree]

theorem size_children (row : List (Node α)) : size (children row) + row.length = size row := by
  induction row with
  | nil => rfl
  | cons p row ih =>
    have hsize : size (p :: row) = p.tree.numNodes + size row := by simp [size]
    rw [children_cons, hsize, size_append, size_append, size_ofTree, size_ofTree,
      List.length_cons, tree, numNodes]
    omega

/-- The values below a row. -/
def values (row : List (Node α)) : List α := row.flatMap fun p => p.tree.preorder

theorem values_ofTree (t : BinaryTree α) : values (ofTree t) = t.preorder := by
  cases t <;> simp [ofTree, values, tree, preorder]

theorem values_append (xs ys : List (Node α)) : values (xs ++ ys) = values xs ++ values ys :=
  List.flatMap_append

theorem values_perm (row : List (Node α)) :
    (values row).Perm (row.map val ++ values (children row)) := by
  induction row with
  | nil => exact .refl _
  | cons p row ih =>
    have hvalues : values (p :: row) = p.tree.preorder ++ values row := List.flatMap_cons
    rw [children_cons, values_append, values_append, values_ofTree, values_ofTree, hvalues, tree,
      preorder, List.map_cons, List.cons_append, List.cons_append]
    refine List.Perm.cons _ ?_
    refine (ih.append_left _).trans ?_
    rw [← List.append_assoc, ← List.append_assoc]
    exact (List.perm_append_comm).append_right _

theorem height_append (xs ys : List (Node α)) :
    height (xs ++ ys) = max (height xs) (height ys) := by
  induction xs with
  | nil => simp [height]
  | cons p xs ih =>
    rw [List.cons_append, height_cons, height_cons, ih, max_assoc]

theorem height_ofTree (t : BinaryTree α) : height (ofTree t) = t.height := by
  cases t <;> simp [ofTree, height, tree]

theorem height_children (row : List (Node α)) : height (children row) = height row - 1 := by
  induction row with
  | nil => rfl
  | cons p row ih =>
    rw [children_cons, height_cons, height_append, height_append, height_ofTree, height_ofTree, ih]
    omega

theorem flatMap_ofTree (t : BinaryTree α) (d : ℕ) :
    ((ofTree t).flatMap fun p => p.tree.atDepth d) = t.atDepth d := by
  cases t <;> simp [ofTree, tree, atDepth]

theorem flatMap_children (row : List (Node α)) (d : ℕ) :
    ((children row).flatMap fun p => p.tree.atDepth d) =
      row.flatMap fun p => p.tree.atDepth (d + 1) := by
  rw [children, List.flatMap_assoc]
  congr 1
  funext p
  rw [List.flatMap_append, flatMap_ofTree, flatMap_ofTree]
  rfl

theorem flatMap_atDepth_zero (row : List (Node α)) :
    (row.flatMap fun p => p.tree.atDepth 0) = row.map val := by
  rw [List.map_eq_flatMap]
  rfl

theorem levels_nil : levels ([] : List (Node α)) = [] := rfl

theorem levels_row {row : List (Node α)} (h : row ≠ []) :
    levels row = row.map val :: levels (children row) := by
  have hpos : 0 < height row := by
    cases row with
    | nil => exact absurd rfl h
    | cons p row =>
      rw [height_cons]
      omega
  rw [levels, levels, height_children, show height row = height row - 1 + 1 by omega,
    List.range_succ_eq_map, List.map_cons, List.map_map, flatMap_atDepth_zero,
    Nat.add_sub_cancel]
  congr 1
  apply List.map_congr_left
  intro d _
  exact (flatMap_children row d).symm

theorem levels_ofTree (t : BinaryTree α) : levels (ofTree t) = t.levels := by
  rw [levels, height_ofTree, BinaryTree.levels]
  apply List.map_congr_left
  intro d _
  exact flatMap_ofTree t d

end Node

end BinaryTree
