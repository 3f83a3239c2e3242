import Mathlib.Logic.Function.Basic
import Sperm.Lib.Traversal

/-!
# Binary trees in memory

A memory has two fields for the children of a cell, which are maps from cells to the cell they point
to.

* `IsTree left right p t`: what is found from `p` on is the tree `t` of cells.
* `isTree_congr`: **the frame rule**, that only the cells of a tree matter.
-/

namespace BinaryTree

variable {α : Type} {left right left' right' : α → Option α} {p : Option α} {t : BinaryTree α}

/-- The cells that are found from `p` on make up the tree `t`. -/
def IsTree (left right : α → Option α) : Option α → BinaryTree α → Prop
  | p, .nil => p = none
  | p, .node x l r => p = some x ∧ IsTree left right (left x) l ∧ IsTree left right (right x) r

/-- **The frame rule**: only the cells of a tree matter. -/
theorem isTree_congr (hl : ∀ x ∈ t.preorder, left' x = left x)
    (hr : ∀ x ∈ t.preorder, right' x = right x) :
    IsTree left' right' p t ↔ IsTree left right p t := by
  induction t generalizing p with
  | nil => rfl
  | node x l r ihl ihr =>
    have hx : x ∈ (node x l r).preorder := List.mem_cons_self
    have hsubl : ∀ y ∈ l.preorder, y ∈ (node x l r).preorder := fun y hy =>
      List.mem_cons_of_mem _ (List.mem_append_left _ hy)
    have hsubr : ∀ y ∈ r.preorder, y ∈ (node x l r).preorder := fun y hy =>
      List.mem_cons_of_mem _ (List.mem_append_right _ hy)
    rw [IsTree, IsTree, hl x hx, hr x hx,
      ihl (fun y hy => hl y (hsubl y hy)) fun y hy => hr y (hsubl y hy),
      ihr (fun y hy => hl y (hsubr y hy)) fun y hy => hr y (hsubr y hy)]

theorem IsTree.head?_preorder (h : IsTree left right p t) : p = t.preorder.head? := by
  cases t with
  | nil => exact h
  | node x l r => exact h.1

theorem eq_nil_of_isTree (h : IsTree left right none t) : t = nil := by
  cases t with
  | nil => rfl
  | node x l r => exact absurd h.1.symm (Option.some_ne_none x)

end BinaryTree
