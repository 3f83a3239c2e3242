import Mathlib.Algebra.Order.Ring.Int
import Mathlib.Data.Int.Notation
import Mathlib.Order.Bounds.Basic
import Sperm.Lib.TreePath

/-!
# The heaviest path in a tree (`binary-tree-max-path-sum.cc`)

`side` gives the best sum from the root of a subtree down, and in `*path` the best sum of the paths
that it does not count as such.

* `maxPathSum` with `side`: the model.
* `rootSums_greatest`, `bend_mem`, `le_bend`: the best sums from the root on and around it.
* **`side_spec`**: the two results of `side`.
* **`maxPathSum_spec`**: the best sum of all simple paths.

Sums are integers.
-/

namespace Sperm.Leetcode.MaxPathSum

open BinaryTree

/-- `side(root, path)`: the result and `*path`. It is not called for `NULL`. -/
def side : BinaryTree ℤ → ℤ × ℤ
  | .nil => (0, 0)
  | .node val left right =>
    if left = .nil ∧ right = .nil then (val, val)
    else if left = .nil then
      let (r, rp) := side right
      (max 0 r + val, max r rp)
    else if right = .nil then
      let (l, lp) := side left
      (max 0 l + val, max l lp)
    else
      let (l, lp) := side left
      let (r, rp) := side right
      let p := max (max l r) (max lp rp)
      let p := max p (max 0 l + max 0 r + val)
      (max (max 0 l) (max 0 r) + val, p)

/-- `maxPathSum(root)`. -/
def maxPathSum (root : BinaryTree ℤ) : ℤ :=
  if root = .nil then 0
  else
    let (s, p) := side root
    max s p

variable {t l r : BinaryTree ℤ} {x v a b s p : ℤ}

/-- `a` is the best that the paths from the root of `t` add, or `0`. -/
def Gain (t : BinaryTree ℤ) (a : ℤ) : Prop := IsGreatest (insert 0 t.rootSums) a

theorem gain_nil : Gain nil 0 := by
  rw [Gain, rootSums_nil, insert_empty_eq]
  exact isGreatest_singleton

theorem gain_max (h : IsGreatest t.rootSums s) : Gain t (max 0 s) := h.insert 0

/-! ## Around the root -/

section Node

variable (hl : Gain l a) (hr : Gain r b)

include hl hr

theorem rootSums_greatest (x : ℤ) : IsGreatest (node x l r).rootSums (max a b + x) := by
  obtain ⟨hal, hle⟩ := hl
  obtain ⟨hbr, hle'⟩ := hr
  have ha : 0 ≤ a := hle (Set.mem_insert 0 _)
  have hb : 0 ≤ b := hle' (Set.mem_insert 0 _)
  constructor
  · rw [mem_rootSums_node]
    rcases max_choice a b with hmax | hmax
    · rw [hmax]
      rcases hal with rfl | hal
      · exact .inl (by omega)
      · exact .inr (.inl ⟨a, hal, by omega⟩)
    · rw [hmax]
      rcases hbr with rfl | hbr
      · exact .inl (by omega)
      · exact .inr (.inr ⟨b, hbr, by omega⟩)
  · intro v hv
    rcases mem_rootSums_node.mp hv with rfl | ⟨w, hw, rfl⟩ | ⟨w, hw, rfl⟩
    · omega
    · have hwa := hle (Set.mem_insert_of_mem 0 hw)
      omega
    · have hwb := hle' (Set.mem_insert_of_mem 0 hw)
      omega

theorem bend_mem (x : ℤ) : a + b + x ∈ (node x l r).pathSums := by
  rw [mem_pathSums_node]
  rcases hl.1 with rfl | hal
  · refine .inr (.inr (.inl (mem_rootSums_node.mpr ?_)))
    rcases hr.1 with rfl | hbr
    · exact .inl (by omega)
    · exact .inr (.inr ⟨b, hbr, by omega⟩)
  · rcases hr.1 with rfl | hbr
    · exact .inr (.inr (.inl (mem_rootSums_node.mpr (.inr (.inl ⟨a, hal, by omega⟩)))))
    · exact .inr (.inr (.inr ⟨a, hal, b, hbr, by omega⟩))

theorem le_bend (hv : v ∈ (node x l r).pathSums) :
    v ∈ l.pathSums ∨ v ∈ r.pathSums ∨ v ≤ a + b + x := by
  have ha : 0 ≤ a := hl.2 (Set.mem_insert 0 _)
  have hb : 0 ≤ b := hr.2 (Set.mem_insert 0 _)
  rcases mem_pathSums_node.mp hv with hv | hv | hv | ⟨w, hw, w', hw', rfl⟩
  · exact .inl hv
  · exact .inr (.inl hv)
  · have hle := (rootSums_greatest hl hr x).2 hv
    exact .inr (.inr (by omega))
  · have hwa := hl.2 (Set.mem_insert_of_mem 0 hw)
    have hwb := hr.2 (Set.mem_insert_of_mem 0 hw')
    exact .inr (.inr (by omega))

end Node

/-! ## The results -/

/-- What `side` finds: the best sum from the root down, and a sum such that the larger of the two is
the best of all. -/
structure Side (t : BinaryTree ℤ) (s p : ℤ) : Prop where
  root : IsGreatest t.rootSums s
  mem : p ∈ t.pathSums
  le : ∀ v ∈ t.pathSums, v ≤ max s p

theorem Side.greatest (h : Side t s p) : IsGreatest t.pathSums (max s p) := by
  refine ⟨?_, h.le⟩
  rcases max_choice s p with hmax | hmax
  · rw [hmax]
    exact rootSums_subset t h.root.1
  · rw [hmax]
    exact h.mem

theorem side_leaf (x : ℤ) : Side (node x nil nil) x x := by
  have hroot := rootSums_greatest gain_nil gain_nil x
  rw [max_self, zero_add] at hroot
  refine ⟨hroot, rootSums_subset _ hroot.1, fun v hv => ?_⟩
  rcases le_bend gain_nil gain_nil hv with hv | hv | hv
  · exact absurd hv (by rw [pathSums_nil]; exact id)
  · exact absurd hv (by rw [pathSums_nil]; exact id)
  · omega

theorem side_right (h : Side r s p) (x : ℤ) : Side (node x nil r) (max 0 s + x) (max s p) := by
  have hgain := gain_max h.root
  have hroot := rootSums_greatest gain_nil hgain x
  rw [max_eq_right (le_max_left 0 s)] at hroot
  refine ⟨hroot, mem_pathSums_node.mpr (.inr (.inl h.greatest.1)), fun v hv => ?_⟩
  rcases le_bend gain_nil hgain hv with hv | hv | hv
  · exact absurd hv (by rw [pathSums_nil]; exact id)
  · exact le_max_of_le_right (h.le v hv)
  · omega

theorem side_left (h : Side l s p) (x : ℤ) : Side (node x l nil) (max 0 s + x) (max s p) := by
  have hgain := gain_max h.root
  have hroot := rootSums_greatest hgain gain_nil x
  rw [max_eq_left (le_max_left 0 s)] at hroot
  refine ⟨hroot, mem_pathSums_node.mpr (.inl h.greatest.1), fun v hv => ?_⟩
  rcases le_bend hgain gain_nil hv with hv | hv | hv
  · exact le_max_of_le_right (h.le v hv)
  · exact absurd hv (by rw [pathSums_nil]; exact id)
  · omega

theorem side_both {s' p' : ℤ} (h : Side l s p) (h' : Side r s' p') (x : ℤ) :
    Side (node x l r) (max (max 0 s) (max 0 s') + x)
      (max (max (max s s') (max p p')) (max 0 s + max 0 s' + x)) := by
  have hgain := gain_max h.root
  have hgain' := gain_max h'.root
  rw [max_max_max_comm s s' p p']
  refine ⟨rootSums_greatest hgain hgain' x, ?_, fun v hv => ?_⟩
  · rcases max_choice (max (max s p) (max s' p')) (max 0 s + max 0 s' + x) with heq | heq
    · rw [heq]
      rcases max_choice (max s p) (max s' p') with heq' | heq'
      · rw [heq']
        exact mem_pathSums_node.mpr (.inl h.greatest.1)
      · rw [heq']
        exact mem_pathSums_node.mpr (.inr (.inl h'.greatest.1))
    · rw [heq]
      exact bend_mem hgain hgain' x
  · rcases le_bend hgain hgain' hv with hv | hv | hv
    · exact le_max_of_le_right (le_max_of_le_left (le_max_of_le_left (h.le v hv)))
    · exact le_max_of_le_right (le_max_of_le_left (le_max_of_le_right (h'.le v hv)))
    · exact le_max_of_le_right (le_max_of_le_right hv)

/-- **`side`** finds the two sums. -/
theorem side_spec (h : t ≠ nil) : Side t (side t).1 (side t).2 := by
  induction t with
  | nil => exact absurd rfl h
  | node x l r ihl ihr =>
    unfold side
    by_cases hl : l = nil
    · by_cases hr : r = nil
      · rw [if_pos ⟨hl, hr⟩, hl, hr]
        exact side_leaf x
      · rw [if_neg fun h => hr h.2, if_pos hl, hl]
        exact side_right (ihr hr) x
    · rw [if_neg fun h => hl h.1, if_neg hl]
      by_cases hr : r = nil
      · rw [if_pos hr, hr]
        exact side_left (ihl hl) x
      · rw [if_neg hr]
        exact side_both (ihl hl) (ihr hr) x

/-- **The result** is the greatest sum of the values along a simple path. -/
theorem maxPathSum_spec (root : BinaryTree ℤ) (h : root ≠ nil) :
    IsGreatest {v | ∃ ps, root.IsPath ps ∧ root.pathSum ps = v} (maxPathSum root) := by
  rw [maxPathSum, if_neg h]
  exact (side_spec h).greatest

/-- A path that bends at a root between two better children. -/
theorem maxPathSum_three :
    IsGreatest {v | ∃ ps, (node (-1) (node 2 nil nil) (node 3 nil nil)).IsPath ps ∧
      (node (-1) (node 2 nil nil) (node 3 nil nil)).pathSum ps = v} 4 :=
  maxPathSum_spec (node (-1) (node 2 nil nil) (node 3 nil nil)) (by decide)

end Sperm.Leetcode.MaxPathSum
