import Mathlib.Data.Nat.Size
import Mathlib.Data.Tree.Basic
import Mathlib.Order.MinMax
import Mathlib.Tactic.Common

/-!
# Balance in binary trees

The trees are those of Mathlib.

* `Balanced`: the heights of the two subtrees of every node differ by at most one.
* `Halved`: their numbers of nodes do.
* **`Halved.height_eq`**: the height is then that of the number of nodes in binary;
  **`Halved.balanced`**.
-/

namespace BinaryTree

variable {α : Type} {t : BinaryTree α}

/-- The heights of the subtrees of every node differ by at most one. -/
def Balanced : BinaryTree α → Prop
  | .nil => True
  | .node _ l r =>
    (l.height ≤ r.height + 1 ∧ r.height ≤ l.height + 1) ∧ l.Balanced ∧ r.Balanced

/-- The numbers of nodes in the subtrees of every node differ by at most one. -/
def Halved : BinaryTree α → Prop
  | .nil => True
  | .node _ l r =>
    (l.numNodes ≤ r.numNodes + 1 ∧ r.numNodes ≤ l.numNodes + 1) ∧ l.Halved ∧ r.Halved

theorem size_succ_eq (n : ℕ) : (n + 1).size = ((n + 1) / 2).size + 1 := by
  have hbit : Nat.bit (n + 1).bodd ((n + 1) / 2) = n + 1 := by
    rw [← Nat.div2_val]
    exact Nat.bit_bodd_div2 (n + 1)
  conv_lhs => rw [← hbit]
  exact Nat.size_bit (by rw [hbit]; exact Nat.succ_ne_zero n)

theorem size_succ_le (n : ℕ) : (n + 1).size ≤ n.size + 1 := by
  rw [size_succ_eq]
  cases n with
  | zero => exact le_rfl
  | succ n => exact Nat.succ_le_succ (Nat.size_le_size (by omega))

/-- **The height** of a halved tree is the least one for its number of nodes. -/
theorem Halved.height_eq (h : t.Halved) : t.height = t.numNodes.size := by
  induction t with
  | nil => rfl
  | node x l r ihl ihr =>
    obtain ⟨⟨hlr, hrl⟩, hl, hr⟩ := h
    have hmax : max l.numNodes r.numNodes = (l.numNodes + r.numNodes + 1) / 2 := by omega
    have hmono : ∀ m n : ℕ, max m.size n.size = (max m n).size := fun m n =>
      (Monotone.map_max fun _ _ h => Nat.size_le_size h).symm
    rw [height, numNodes, ihl hl, ihr hr, size_succ_eq, hmono, hmax]

/-- **A halved tree is balanced.** -/
theorem Halved.balanced (h : t.Halved) : t.Balanced := by
  induction t with
  | nil => trivial
  | node x l r ihl ihr =>
    obtain ⟨⟨hlr, hrl⟩, hl, hr⟩ := h
    refine ⟨?_, ihl hl, ihr hr⟩
    rw [hl.height_eq, hr.height_eq]
    have hle := Nat.size_le_size hlr
    have hle' := Nat.size_le_size hrl
    have hsucc := size_succ_le l.numNodes
    have hsucc' := size_succ_le r.numNodes
    omega

end BinaryTree
