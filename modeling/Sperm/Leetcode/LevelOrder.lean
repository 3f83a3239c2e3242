import Mathlib.Data.Int.Notation
import Mathlib.Data.List.GetD
import Sperm.Lib.Levels

/-!
# Level traversals (`binary-tree-level-order-traversal.cc`,
`binary-tree-level-order-traversal-2.cc`, `binary-tree-zigzag-level-order-traversal.cc`)

A `TreeNode*` is a binary tree, `NULL` the empty one. Of the two queues or stacks `S[0]` and `S[1]`,
`cur` is `S[sw]` and `other` is `S[1 - sw]`: a round empties the one into the other.

* `levelOrder`: two queues. `levelOrderBottom`: a recursion into one list for every depth.
  `zigzagLevelOrder`: two stacks, with the sides in turn.
* `levelRound_eq`, `zigzagRound_eq`: what a round does; `visit_spec`: what the recursion adds.
* **`levelOrder_spec`**: the three agree on every tree.
-/

namespace Sperm.Leetcode

open BinaryTree (Node)
open BinaryTree.Node (ofTree children size)

/-! ## Two queues -/

/-- The inner loop of `levelOrder`: the other queue and the values. -/
def levelRound : List (Node ℤ) → List (Node ℤ) → List ℤ → List (Node ℤ) × List ℤ
  | [], other, vs => (other, vs)
  | p :: cur, other, vs =>
    levelRound cur (other ++ ofTree p.left ++ ofTree p.right) (vs ++ [p.val])

theorem levelRound_eq (cur other : List (Node ℤ)) (vs : List ℤ) :
    levelRound cur other vs = (other ++ children cur, vs ++ cur.map Node.val) := by
  induction cur generalizing other vs with
  | nil => simp [levelRound, children]
  | cons p cur ih =>
    rw [levelRound, ih]
    simp [children]

/-- The outer loop of `levelOrder`. When a round is over, `S[sw]` is empty. -/
def levelLoop : List (Node ℤ) → List (List ℤ) → List (List ℤ)
  | [], res => res
  | p :: cur, res =>
    let round := levelRound (p :: cur) [] []
    levelLoop round.1 (res ++ [round.2])
termination_by cur => size cur
decreasing_by
  have hsize := Node.size_children (p :: cur)
  rw [levelRound_eq, List.nil_append]
  change size (children (p :: cur)) < size (p :: cur)
  rw [List.length_cons] at hsize
  omega

/-- `levelOrder(root)`. -/
def levelOrder (root : BinaryTree ℤ) : List (List ℤ) := levelLoop (ofTree root) []

/-! ## A recursion -/

/-- `R(root, depth, vvi)`. -/
def visit : BinaryTree ℤ → ℕ → List (List ℤ) → List (List ℤ)
  | .nil, _, vvi => vvi
  | .node x l r, depth, vvi =>
    let vvi := if depth = vvi.length then vvi ++ [[]] else vvi
    let vvi := visit l (depth + 1) vvi
    let vvi := visit r (depth + 1) vvi
    vvi.modify depth (· ++ [x])

/-- `levelOrderBottom(root)`: the last loop takes the lists from the end. -/
def levelOrderBottom (root : BinaryTree ℤ) : List (List ℤ) := (visit root 0 []).reverse

/-! ## Two stacks -/

/-- The inner loop of `zigzagLevelOrder`; a stack is a list from its top. -/
def zigzagRound (sw : Bool) : List (Node ℤ) → List (Node ℤ) → List ℤ → List (Node ℤ) × List ℤ
  | [], other, vs => (other, vs)
  | p :: cur, other, vs =>
    let other :=
      if sw then ofTree p.left ++ (ofTree p.right ++ other)
      else ofTree p.right ++ (ofTree p.left ++ other)
    zigzagRound sw cur other (vs ++ [p.val])

theorem reverse_ofTree (t : BinaryTree ℤ) : (ofTree t).reverse = ofTree t := by
  cases t <;> rfl

theorem zigzagRound_false (cur other : List (Node ℤ)) (vs : List ℤ) :
    zigzagRound false cur other vs =
      ((children cur).reverse ++ other, vs ++ cur.map Node.val) := by
  induction cur generalizing other vs with
  | nil => simp [zigzagRound, children]
  | cons p cur ih =>
    rw [zigzagRound, ih]
    simp [children, reverse_ofTree]

theorem zigzagRound_true (cur other : List (Node ℤ)) (vs : List ℤ) :
    zigzagRound true cur other vs =
      (children cur.reverse ++ other, vs ++ cur.map Node.val) := by
  induction cur generalizing other vs with
  | nil => simp [zigzagRound, children]
  | cons p cur ih =>
    rw [zigzagRound, ih]
    simp [children]

theorem size_zigzagRound (sw : Bool) (cur : List (Node ℤ)) :
    size (zigzagRound sw cur [] []).1 + cur.length = size cur := by
  cases sw with
  | false =>
    rw [zigzagRound_false, List.append_nil]
    change size (children cur).reverse + _ = _
    rw [Node.size_reverse, Node.size_children]
  | true =>
    rw [zigzagRound_true, List.append_nil]
    change size (children cur.reverse) + _ = _
    rw [← List.length_reverse, Node.size_children, Node.size_reverse]

/-- The outer loop of `zigzagLevelOrder`. -/
def zigzagLoop : Bool → List (Node ℤ) → List (List ℤ) → List (List ℤ)
  | _, [], res => res
  | sw, p :: cur, res =>
    let round := zigzagRound sw (p :: cur) [] []
    zigzagLoop (!sw) round.1 (res ++ [round.2])
termination_by _ cur => size cur
decreasing_by
  have hsize := size_zigzagRound sw (p :: cur)
  rw [List.length_cons] at hsize
  omega

/-- `zigzagLevelOrder(root)`. -/
def zigzagLevelOrder (root : BinaryTree ℤ) : List (List ℤ) := zigzagLoop false (ofTree root) []

/-! ## What the traversals give -/

theorem levelLoop_eq (cur : List (Node ℤ)) (res : List (List ℤ)) :
    levelLoop cur res = res ++ Node.levels cur := by
  fun_induction levelLoop cur res with
  | case1 res => rw [Node.levels_nil, List.append_nil]
  | case2 p cur res round ih =>
    rw [ih, Node.levels_row (List.cons_ne_nil p cur), List.append_assoc, List.singleton_append]
    simp [round, levelRound_eq]

/-- A row from the left, or from the right. -/
def facing {α : Type} (sw : Bool) (row : List α) : List α := if sw then row.reverse else row

/-- The rows from the sides in turn. -/
def alternate (sw : Bool) : List (List ℤ) → List (List ℤ)
  | [] => []
  | vs :: rows => facing sw vs :: alternate (!sw) rows

/-- A round that faces one side leaves the next row facing the other. -/
theorem zigzagRound_facing (sw : Bool) (row : List (Node ℤ)) :
    zigzagRound sw (facing sw row) [] [] =
      (facing (!sw) (children row), facing sw (row.map Node.val)) := by
  cases sw with
  | false =>
    change zigzagRound false row [] [] = ((children row).reverse, row.map Node.val)
    rw [zigzagRound_false, List.append_nil, List.nil_append]
  | true =>
    change zigzagRound true row.reverse [] [] = (children row, (row.map Node.val).reverse)
    rw [zigzagRound_true, List.append_nil, List.nil_append, List.reverse_reverse, List.map_reverse]

theorem zigzagLoop_of_ne {sw : Bool} {cur : List (Node ℤ)} (h : cur ≠ []) (res : List (List ℤ)) :
    zigzagLoop sw cur res =
      zigzagLoop (!sw) (zigzagRound sw cur [] []).1 (res ++ [(zigzagRound sw cur [] []).2]) := by
  cases cur with
  | nil => exact absurd rfl h
  | cons p cur => rw [zigzagLoop]

theorem facing_ne_nil {α : Type} (sw : Bool) {row : List α} (h : row ≠ []) :
    facing sw row ≠ [] := by
  cases sw
  · exact h
  · exact mt List.reverse_eq_nil_iff.mp h

theorem zigzagLoop_facing (sw : Bool) (row : List (Node ℤ)) (res : List (List ℤ)) :
    zigzagLoop sw (facing sw row) res = res ++ alternate sw (Node.levels row) := by
  induction hn : size row using Nat.strong_induction_on generalizing sw row res with
  | _ n ih =>
    by_cases h : row = []
    · subst h
      cases sw <;> simp [facing, zigzagLoop, Node.levels_nil, alternate]
    · have hpos := List.length_pos_iff.mpr h
      have hsize := Node.size_children row
      rw [zigzagLoop_of_ne (facing_ne_nil sw h), zigzagRound_facing,
        ih (size (children row)) (by omega) (!sw) (children row) _ rfl, Node.levels_row h,
        alternate, List.append_assoc, List.singleton_append]

theorem alternate_eq_mapIdx (sw : Bool) (rows : List (List ℤ)) :
    alternate sw rows = rows.mapIdx fun d vs => facing (sw ^^ d % 2 == 1) vs := by
  induction rows generalizing sw with
  | nil => rfl
  | cons vs rows ih =>
    rw [alternate, ih, List.mapIdx_cons]
    congr 1
    · simp
    · congr 1
      funext d vs
      have hmod : ((d + 1) % 2 == 1) = !(d % 2 == 1) := by
        rcases Nat.mod_two_eq_zero_or_one d with h | h
        · simp [h, show (d + 1) % 2 = 1 by omega]
        · simp [h, show (d + 1) % 2 = 0 by omega]
      rw [hmod]
      simp

theorem visit_push {depth : ℕ} {vvi : List (List ℤ)} (h : depth ≤ vvi.length) :
    (if depth = vvi.length then vvi ++ [[]] else vvi).length = max vvi.length (depth + 1) ∧
      ∀ d, (if depth = vvi.length then vvi ++ [[]] else vvi).getD d [] = vvi.getD d [] := by
  split_ifs with he
  · refine ⟨by rw [List.length_append, List.length_singleton]; omega, fun d => ?_⟩
    rcases Nat.lt_or_ge d vvi.length with hd | hd
    · simp [List.getElem?_append_left hd]
    · rw [List.getD_eq_default _ _ hd]
      rcases hd.eq_or_lt with rfl | hd
      · simp
      · exact List.getD_eq_default _ _ (by rw [List.length_append, List.length_singleton]; omega)
  · exact ⟨by omega, fun d => rfl⟩

theorem getD_modify_append {depth : ℕ} {vvi : List (List ℤ)} (h : depth < vvi.length) (x : ℤ)
    (d : ℕ) : (vvi.modify depth (· ++ [x])).getD d [] =
      vvi.getD d [] ++ if d = depth then [x] else [] := by
  rw [List.getD_eq_getElem?_getD, List.getElem?_modify, List.getD_eq_getElem?_getD]
  by_cases hd : depth = d
  · subst hd
    simp [h]
  · simp [hd, Ne.symm hd]

/-- What `visit` leaves: `vvi` with the values of `t` behind, from `depth` on. -/
theorem visit_spec (t : BinaryTree ℤ) {depth : ℕ} {vvi : List (List ℤ)} (h : depth ≤ vvi.length) :
    (visit t depth vvi).length = max vvi.length (depth + t.height) ∧
      ∀ d, (visit t depth vvi).getD d [] =
        vvi.getD d [] ++ if depth ≤ d then t.atDepth (d - depth) else [] := by
  induction t generalizing depth vvi with
  | nil =>
    refine ⟨by simp only [visit, BinaryTree.height]; omega, fun d => ?_⟩
    simp [visit, BinaryTree.atDepth]
  | node x l r ihl ihr =>
    obtain ⟨hlen₀, hget₀⟩ := visit_push h
    rw [visit]
    generalize (if depth = vvi.length then vvi ++ [[]] else vvi) = vvi₀ at hlen₀ hget₀ ⊢
    obtain ⟨hlen₁, hget₁⟩ := @ihl (depth + 1) vvi₀ (by omega)
    obtain ⟨hlen₂, hget₂⟩ := @ihr (depth + 1) (visit l (depth + 1) vvi₀) (by omega)
    refine ⟨?_, fun d => ?_⟩
    · rw [List.length_modify, hlen₂, hlen₁, hlen₀, BinaryTree.height]
      omega
    · rw [getD_modify_append (by omega), hget₂, hget₁, hget₀]
      -- above `depth` nothing is added, at `depth` the root, below it the subtrees
      rcases lt_trichotomy d depth with hd | rfl | hd
      · simp [show ¬ depth + 1 ≤ d by omega, show ¬ depth ≤ d by omega, show d ≠ depth by omega]
      · simp [BinaryTree.atDepth, show ¬ d + 1 ≤ d by omega]
      · obtain ⟨k, rfl⟩ : ∃ k, d = depth + 1 + k := ⟨d - (depth + 1), by omega⟩
        have hk : depth + 1 + k - depth = k + 1 := by omega
        simp [hk, BinaryTree.atDepth, show depth ≤ depth + 1 + k by omega,
          show depth + 1 + k ≠ depth by omega]

theorem visit_eq (t : BinaryTree ℤ) : visit t 0 [] = t.levels := by
  obtain ⟨hlen, hget⟩ := @visit_spec t 0 [] le_rfl
  have hh : (visit t 0 []).length = t.height := by
    rw [hlen, List.length_nil]
    omega
  apply List.ext_getElem
  · rw [hh, BinaryTree.levels, List.length_map, List.length_range]
  · intro d h₁ h₂
    have hd := hget d
    rw [List.getD_eq_getElem _ _ h₁] at hd
    simpa [BinaryTree.levels] using hd

/-- **The three traversals agree.** -/
theorem levelOrder_spec (t : BinaryTree ℤ) :
    levelOrder t = (List.range t.height).map t.atDepth ∧
      levelOrderBottom t = (levelOrder t).reverse ∧
        zigzagLevelOrder t =
          (levelOrder t).mapIdx fun d vs => if d % 2 = 1 then vs.reverse else vs := by
  have horder : levelOrder t = t.levels := by
    rw [levelOrder, levelLoop_eq, Node.levels_ofTree, List.nil_append]
  refine ⟨horder, ?_, ?_⟩
  · rw [levelOrderBottom, visit_eq, horder]
  · rw [zigzagLevelOrder, horder]
    have hloop := zigzagLoop_facing false (ofTree t) []
    rw [List.nil_append, Node.levels_ofTree, alternate_eq_mapIdx] at hloop
    refine hloop.trans ?_
    congr 1
    funext d vs
    simp [facing]

end Sperm.Leetcode
