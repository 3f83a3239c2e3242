import Mathlib.Data.List.Basic
import Mathlib.Data.Tree.Basic
import Mathlib.Tactic.Common

/-!
# Traversals of binary trees

* `inorder`, `preorder`, `postorder`, and their lengths.
-/

namespace BinaryTree

variable {α : Type}

/-- The values from left to right. -/
def inorder : BinaryTree α → List α
  | .nil => []
  | .node x l r => l.inorder ++ x :: r.inorder

/-- A value before those of its subtrees. -/
def preorder : BinaryTree α → List α
  | .nil => []
  | .node x l r => x :: (l.preorder ++ r.preorder)

/-- A value behind those of its subtrees. -/
def postorder : BinaryTree α → List α
  | .nil => []
  | .node x l r => l.postorder ++ (r.postorder ++ [x])

@[simp] theorem inorder_nil : (nil : BinaryTree α).inorder = [] := rfl

@[simp] theorem inorder_node (x : α) (l r : BinaryTree α) :
    (node x l r).inorder = l.inorder ++ x :: r.inorder := rfl

theorem length_inorder (t : BinaryTree α) : t.inorder.length = t.numNodes := by
  induction t with
  | nil => rfl
  | node x l r ihl ihr =>
    simp only [inorder_node, List.length_append, List.length_cons, ihl, ihr, numNodes]
    omega

theorem length_preorder (t : BinaryTree α) : t.preorder.length = t.numNodes := by
  induction t with
  | nil => rfl
  | node x l r ihl ihr =>
    simp only [preorder, List.length_cons, List.length_append, ihl, ihr, numNodes]

theorem length_postorder (t : BinaryTree α) : t.postorder.length = t.numNodes := by
  induction t with
  | nil => rfl
  | node x l r ihl ihr =>
    simp only [postorder, List.length_append, List.length_singleton, ihl, ihr, numNodes]
    omega

theorem eq_nil_of_numNodes {t : BinaryTree α} (h : t.numNodes = 0) : t = nil := by
  cases t with
  | nil => rfl
  | node x l r => exact absurd h (Nat.succ_ne_zero _)

theorem node_eq_leaf {x : α} {l r : BinaryTree α} (h : l.numNodes + r.numNodes = 0) :
    node x l r = node x nil nil := by
  rw [eq_nil_of_numNodes (Nat.eq_zero_of_add_eq_zero_right h),
    eq_nil_of_numNodes (Nat.eq_zero_of_add_eq_zero_left h)]

end BinaryTree
