import Mathlib.Combinatorics.Enumerative.Catalan.Basic
import Mathlib.Data.List.Sort
import Sperm.Lib.Traversal

/-!
# The trees over a list

* `graft x ls rs`: the trees with root `x` and subtrees from two lists.
* `treesOf us`: the trees with the values `us` from left to right; **`mem_treesOf`**,
  **`nodup_treesOf`**, and **`length_treesOf`**: how many there are.
* `IsSearchTree`; **`isSearchTree_iff`**: the values of a search tree ascend.
-/

namespace BinaryTree

variable {α : Type}

/-- Every tree with root `x`, the left subtree from `ls` and the right one from `rs`. -/
def graft (x : α) (ls rs : List (BinaryTree α)) : List (BinaryTree α) :=
  ls.flatMap fun l => rs.map fun r => .node x l r

theorem mem_graft {x : α} {ls rs : List (BinaryTree α)} {t : BinaryTree α} :
    t ∈ graft x ls rs ↔ ∃ l ∈ ls, ∃ r ∈ rs, .node x l r = t := by
  simp only [graft, List.mem_flatMap, List.mem_map]

theorem length_graft (x : α) (ls rs : List (BinaryTree α)) :
    (graft x ls rs).length = ls.length * rs.length := by
  simp [graft, List.length_flatMap]

theorem nodup_graft (x : α) {ls rs : List (BinaryTree α)} (hl : ls.Nodup) (hr : rs.Nodup) :
    (graft x ls rs).Nodup := by
  refine List.nodup_flatMap.mpr ⟨fun l _ => hr.map fun r r' h => (node.inj h).2.2, ?_⟩
  refine hl.imp fun {l l'} hne t ht ht' => hne ?_
  obtain ⟨r, -, rfl⟩ := List.mem_map.mp ht
  obtain ⟨r', -, h⟩ := List.mem_map.mp ht'
  exact (node.inj h).2.1.symm

/-- The trees with the values `us` from left to right, by the place of the root. -/
def treesOf (us : List α) : List (BinaryTree α) :=
  if us = [] then [.nil]
  else
    (List.finRange us.length).flatMap fun i =>
      graft (us.get i) (treesOf (us.take i)) (treesOf (us.drop (i + 1)))
termination_by us.length
decreasing_by
  all_goals
    have := i.isLt
    simp only [List.length_take, List.length_drop]
    omega

theorem treesOf_nil : treesOf ([] : List α) = [.nil] := by
  rw [treesOf, if_pos rfl]

theorem treesOf_of_ne_nil {us : List α} (h : us ≠ []) :
    treesOf us = (List.finRange us.length).flatMap fun i =>
      graft (us.get i) (treesOf (us.take i)) (treesOf (us.drop (i + 1))) := by
  rw [treesOf, if_neg h]

theorem treesOf_singleton (x : α) : treesOf [x] = [.node x .nil .nil] := by
  rw [treesOf_of_ne_nil (List.cons_ne_nil x [])]
  simp [graft, treesOf_nil, List.finRange]

theorem mem_treesOf (t : BinaryTree α) : ∀ us, t ∈ treesOf us ↔ t.inorder = us := by
  induction t with
  | nil =>
    intro us
    by_cases h : us = []
    · rw [h, treesOf_nil]
      simp
    · rw [treesOf_of_ne_nil h]
      simp [mem_graft, Ne.symm h]
  | node x l r ihl ihr =>
    intro us
    by_cases h : us = []
    · rw [h, treesOf_nil]
      simp
    · rw [treesOf_of_ne_nil h, List.mem_flatMap]
      constructor
      · rintro ⟨i, -, hi⟩
        obtain ⟨l', hl, r', hr, ht⟩ := mem_graft.mp hi
        obtain ⟨rfl, rfl, rfl⟩ := node.inj ht
        rw [inorder_node, (ihl _).mp hl, (ihr _).mp hr]
        simp
      · rintro rfl
        have hlt : l.inorder.length < (node x l r).inorder.length := by simp
        refine ⟨⟨l.inorder.length, hlt⟩, List.mem_finRange _, mem_graft.mpr ⟨l, ?_, r, ?_, ?_⟩⟩
        · rw [ihl]
          simp
        · rw [ihr]
          simp
        · simp

theorem nodup_treesOf (us : List α) : (treesOf us).Nodup := by
  induction h : us.length using Nat.strong_induction_on generalizing us with
  | _ n ih =>
    by_cases hnil : us = []
    · rw [hnil, treesOf_nil]
      exact List.nodup_singleton _
    · rw [treesOf_of_ne_nil hnil]
      refine List.nodup_flatMap.mpr ⟨fun i _ => ?_, ?_⟩
      · have hi := i.isLt
        apply nodup_graft
        · exact ih _ (by simp; omega) _ rfl
        · exact ih _ (by simp; omega) _ rfl
      · -- The place of the root is the number of values on its left.
        refine (List.nodup_finRange _).imp fun {i j} hne t hi hj => hne ?_
        obtain ⟨l, hl, r, -, rfl⟩ := mem_graft.mp hi
        obtain ⟨l', hl', r', -, ht⟩ := mem_graft.mp hj
        obtain ⟨-, rfl, -⟩ := node.inj ht
        rw [mem_treesOf] at hl hl'
        have hlen := congrArg List.length (hl.symm.trans hl')
        simp only [List.length_take] at hlen
        omega

theorem length_treesOf (us : List α) : (treesOf us).length = catalan us.length := by
  induction h : us.length using Nat.strong_induction_on generalizing us with
  | _ n ih =>
    subst h
    cases us with
    | nil => simp [treesOf_nil]
    | cons u us =>
      have hcat : catalan (u :: us).length =
          ((List.finRange (us.length + 1)).map fun i : Fin (us.length + 1) =>
            catalan i * catalan (us.length - i)).sum := by
        rw [List.length_cons, catalan_succ, Fin.sum_univ_def]
      rw [treesOf_of_ne_nil (List.cons_ne_nil u us), List.length_flatMap, hcat]
      refine congrArg List.sum (List.map_congr_left fun i _ => ?_)
      have hi : (i : ℕ) < us.length + 1 := i.isLt
      have hlen : (u :: us).length = us.length + 1 := rfl
      have hl : (List.take i (u :: us)).length = i := by
        rw [List.length_take]
        omega
      have hr : (List.drop (i + 1) (u :: us)).length = us.length - i := by
        rw [List.length_drop]
        omega
      rw [length_graft, ih _ (by omega) _ hl, ih _ (by omega) _ hr]

/-! ## Search trees -/

/-- Smaller values on the left, greater ones on the right. -/
def IsSearchTree [LT α] : BinaryTree α → Prop
  | .nil => True
  | .node x l r =>
    (∀ y ∈ l.inorder, y < x) ∧ (∀ y ∈ r.inorder, x < y) ∧ l.IsSearchTree ∧ r.IsSearchTree

theorem isSearchTree_iff [Preorder α] (t : BinaryTree α) :
    t.IsSearchTree ↔ t.inorder.Pairwise (· < ·) := by
  induction t with
  | nil => simp [IsSearchTree]
  | node x l r ihl ihr =>
    rw [IsSearchTree, ihl, ihr, inorder_node, List.pairwise_append, List.pairwise_cons]
    constructor
    · rintro ⟨hl, hr, hpl, hpr⟩
      refine ⟨hpl, ⟨hr, hpr⟩, fun y hy z hz => ?_⟩
      rcases List.mem_cons.mp hz with rfl | hz
      · exact hl y hy
      · exact lt_trans (hl y hy) (hr z hz)
    · rintro ⟨hpl, ⟨hr, hpr⟩, hlr⟩
      exact ⟨fun y hy => hlr y hy x List.mem_cons_self, hr, hpl, hpr⟩

end BinaryTree
