import Mathlib.Algebra.Order.Ring.Int
import Mathlib.Data.List.Nodup
import Sperm.Lib.Traversal

/-!
# Trees from traversals (`construct-binary-tree-from-preorder-and-inorder-traversal.cc`,
`construct-binary-tree-from-inorder-and-postorder-traversal.cc`)

Each recursion carries an interval of either vector and looks for the root in the one of the inorder
traversal. An access outside a vector, and a recursion deeper than the fuel, stop the program.

* `access`, `find`: an element of a vector, and the loop that looks for the root.
* `Preorder.build`, `Postorder.build`: the functions `R`.
* **`buildTree_spec`**: both recover every tree without repeated values.
-/

namespace Sperm.Leetcode.BuildTree

/-- Why there is no tree. -/
inductive Stop where
  | outside
  | tooDeep
  deriving DecidableEq

/-- `v[i]`. -/
def access (v : List ℤ) (i : ℤ) : Except Stop ℤ :=
  if 0 ≤ i then
    match v[i.toNat]? with
    | some x => .ok x
    | none => .error .outside
  else .error .outside

/-- `for(; i <= ie; i++) if(inorder[i] == x) break;`. -/
def find (inorder : List ℤ) (x ie i : ℤ) : Except Stop ℤ :=
  if i ≤ ie then
    match access inorder i with
    | .error e => .error e
    | .ok y => if y = x then .ok i else find inorder x ie (i + 1)
  else .ok i
termination_by (ie + 1 - i).toNat

namespace Preorder

/-- `R(preorder, ps, pe, inorder, is, ie)`. -/
def build (preorder inorder : List ℤ) : ℕ → ℤ → ℤ → ℤ → ℤ → Except Stop (BinaryTree ℤ)
  | 0, _, _, _, _ => .error .tooDeep
  | fuel + 1, ps, pe, is, ie =>
    if ps > pe then .ok .nil
    else if ps = pe then do
      let x ← access preorder ps
      .ok (.node x .nil .nil)
    else do
      let x ← access preorder ps
      let i ← find inorder x ie is
      let left ← build preorder inorder fuel (ps + 1) ((i - is) + ps) is (i - 1)
      let right ← build preorder inorder fuel ((i - is) + ps + 1) pe (i + 1) ie
      .ok (.node x left right)

/-- `buildTree(preorder, inorder)`. -/
def buildTree (fuel : ℕ) (preorder inorder : List ℤ) : Except Stop (BinaryTree ℤ) :=
  build preorder inorder fuel 0 (preorder.length - 1) 0 (inorder.length - 1)

end Preorder

namespace Postorder

/-- `R(inorder, is, ie, postorder, ps, pe)`. -/
def build (inorder postorder : List ℤ) : ℕ → ℤ → ℤ → ℤ → ℤ → Except Stop (BinaryTree ℤ)
  | 0, _, _, _, _ => .error .tooDeep
  | fuel + 1, is, ie, ps, pe =>
    if ps > pe then .ok .nil
    else if ps = pe then do
      let x ← access postorder ps
      .ok (.node x .nil .nil)
    else do
      let x ← access postorder pe
      let i ← find inorder x ie is
      let left ← build inorder postorder fuel is (i - 1) ps ((i - is) + ps - 1)
      let right ← build inorder postorder fuel (i + 1) ie ((i - is) + ps) (pe - 1)
      .ok (.node x left right)

/-- `buildTree(inorder, postorder)`. -/
def buildTree (fuel : ℕ) (inorder postorder : List ℤ) : Except Stop (BinaryTree ℤ) :=
  build inorder postorder fuel 0 (inorder.length - 1) 0 (postorder.length - 1)

end Postorder

/-! ## Parts of a vector -/

/-- `v` holds `us` from the index `i` on. -/
def Holds (v : List ℤ) (i : ℤ) (us : List ℤ) : Prop :=
  ∃ as bs, v = as ++ (us ++ bs) ∧ i = as.length

theorem Holds.self (v : List ℤ) : Holds v 0 v := ⟨[], [], by simp, rfl⟩

variable {v us ws : List ℤ} {i x : ℤ}

theorem Holds.left (h : Holds v i (us ++ ws)) : Holds v i us := by
  obtain ⟨as, bs, rfl, rfl⟩ := h
  exact ⟨as, ws ++ bs, by simp, rfl⟩

theorem Holds.right (h : Holds v i (us ++ ws)) : Holds v (i + us.length) ws := by
  obtain ⟨as, bs, rfl, rfl⟩ := h
  exact ⟨as ++ us, bs, by simp, by simp⟩

theorem Holds.tail (h : Holds v i (x :: us)) : Holds v (i + 1) us := by
  have hs : Holds v i ([x] ++ us) := h
  exact hs.right

theorem Holds.access (h : Holds v i (x :: us)) : access v i = .ok x := by
  obtain ⟨as, bs, rfl, rfl⟩ := h
  simp [BuildTree.access]

theorem Holds.find (h : Holds v i (us ++ x :: ws)) (hx : x ∉ us) {ie : ℤ}
    (hie : i + us.length ≤ ie) : find v x ie i = .ok (i + us.length) := by
  induction us generalizing i with
  | nil =>
    rw [List.length_nil, Nat.cast_zero, add_zero] at hie ⊢
    have hroot : BuildTree.access v i = .ok x := Holds.access h
    rw [BuildTree.find, if_pos hie, hroot]
    exact if_pos rfl
  | cons y us ih =>
    rw [List.mem_cons, not_or] at hx
    rw [List.length_cons, Nat.cast_add, Nat.cast_one] at hie ⊢
    have hy : BuildTree.access v i = .ok y := Holds.access h
    have hnext := ih (Holds.tail h) hx.2 (by omega)
    rw [BuildTree.find, if_pos (by omega), hy]
    show (if y = x then _ else _) = _
    rw [if_neg (Ne.symm hx.1), hnext]
    congr 1
    omega

/-! ## The trees -/

/-- The root is not among the values on its left, and the subtrees repeat no value either. -/
theorem nodup_node {l r : BinaryTree ℤ} (h : (BinaryTree.node x l r).inorder.Nodup) :
    x ∉ l.inorder ∧ l.inorder.Nodup ∧ r.inorder.Nodup := by
  rw [BinaryTree.inorder_node] at h
  obtain ⟨hl, hr, hdisj⟩ := List.nodup_append.mp h
  exact ⟨fun hx => hdisj x hx x List.mem_cons_self rfl, hl, (List.nodup_cons.mp hr).2⟩

theorem Preorder.build_spec {preorder inorder : List ℤ} (t : BinaryTree ℤ) (hd : t.inorder.Nodup)
    {fuel : ℕ} (hf : t.numNodes < fuel) {ps pe is ie : ℤ} (hp : Holds preorder ps t.preorder)
    (hi : Holds inorder is t.inorder) (hpe : pe = ps + t.numNodes - 1)
    (hie : ie = is + t.numNodes - 1) : build preorder inorder fuel ps pe is ie = .ok t := by
  induction t generalizing fuel ps pe is ie with
  | nil =>
    obtain ⟨n, rfl⟩ : ∃ n, fuel = n + 1 := ⟨fuel - 1, by omega⟩
    rw [BinaryTree.numNodes] at hpe
    rw [build, if_pos (by omega)]
  | node x l r ihl ihr =>
    obtain ⟨n, rfl⟩ : ∃ n, fuel = n + 1 := ⟨fuel - 1, by omega⟩
    rw [BinaryTree.numNodes] at hf hpe hie
    obtain ⟨hx, hdl, hdr⟩ := nodup_node hd
    rw [BinaryTree.preorder] at hp
    rw [BinaryTree.inorder_node] at hi
    rw [build, if_neg (by omega), hp.access]
    split_ifs with hone
    · rw [BinaryTree.node_eq_leaf (show l.numNodes + r.numNodes = 0 by omega)]
      rfl
    · have hlen : (l.inorder.length : ℤ) = l.numNodes := by rw [BinaryTree.length_inorder]
      have hlen' : (l.preorder.length : ℤ) = l.numNodes := by rw [BinaryTree.length_preorder]
      have hfind := hi.find hx (show is + l.inorder.length ≤ ie by omega)
      have hpr : Holds preorder (is + l.inorder.length - is + ps + 1) r.preorder := by
        convert hp.tail.right using 1
        omega
      have hleft := ihl hdl (show l.numNodes < n by omega) hp.tail.left hi.left
        (show is + l.inorder.length - is + ps = _ by omega)
        (show is + l.inorder.length - 1 = _ by omega)
      have hright := ihr hdr (show r.numNodes < n by omega) hpr hi.right.tail
        (show pe = _ by omega) (show ie = _ by omega)
      simp only [hfind, hleft, hright, bind, Except.bind]

theorem Postorder.build_spec {inorder postorder : List ℤ} (t : BinaryTree ℤ)
    (hd : t.inorder.Nodup) {fuel : ℕ} (hf : t.numNodes < fuel) {is ie ps pe : ℤ}
    (hi : Holds inorder is t.inorder) (hp : Holds postorder ps t.postorder)
    (hie : ie = is + t.numNodes - 1) (hpe : pe = ps + t.numNodes - 1) :
    build inorder postorder fuel is ie ps pe = .ok t := by
  induction t generalizing fuel is ie ps pe with
  | nil =>
    obtain ⟨n, rfl⟩ : ∃ n, fuel = n + 1 := ⟨fuel - 1, by omega⟩
    rw [BinaryTree.numNodes] at hpe
    rw [build, if_pos (by omega)]
  | node x l r ihl ihr =>
    obtain ⟨n, rfl⟩ : ∃ n, fuel = n + 1 := ⟨fuel - 1, by omega⟩
    rw [BinaryTree.numNodes] at hf hpe hie
    obtain ⟨hx, hdl, hdr⟩ := nodup_node hd
    rw [BinaryTree.postorder] at hp
    rw [BinaryTree.inorder_node] at hi
    have hlen : (l.inorder.length : ℤ) = l.numNodes := by rw [BinaryTree.length_inorder]
    have hlen' : (l.postorder.length : ℤ) = l.numNodes := by rw [BinaryTree.length_postorder]
    have hlen'' : (r.postorder.length : ℤ) = r.numNodes := by rw [BinaryTree.length_postorder]
    have hroot : access postorder pe = .ok x := by
      rw [show pe = ps + l.postorder.length + r.postorder.length by omega]
      exact hp.right.right.access
    rw [build, if_neg (by omega), hroot]
    split_ifs with hone
    · rw [hone, hroot, BinaryTree.node_eq_leaf (show l.numNodes + r.numNodes = 0 by omega)]
      rfl
    · have hfind := hi.find hx (show is + l.inorder.length ≤ ie by omega)
      have hpr : Holds postorder (is + l.inorder.length - is + ps) r.postorder := by
        convert hp.right.left using 1
        omega
      have hleft := ihl hdl (show l.numNodes < n by omega) hi.left hp.left
        (show is + l.inorder.length - 1 = _ by omega)
        (show is + l.inorder.length - is + ps - 1 = _ by omega)
      have hright := ihr hdr (show r.numNodes < n by omega) hi.right.tail hpr
        (show ie = _ by omega) (show pe - 1 = _ by omega)
      simp only [hfind, hleft, hright, bind, Except.bind]

/-- Both functions recover every tree whose values are distinct, and read inside the vectors
only. -/
theorem buildTree_spec (t : BinaryTree ℤ) (hd : t.inorder.Nodup) (fuel : ℕ)
    (hf : t.numNodes < fuel) :
    Preorder.buildTree fuel t.preorder t.inorder = .ok t ∧
      Postorder.buildTree fuel t.inorder t.postorder = .ok t := by
  constructor
  · apply Preorder.build_spec t hd hf (Holds.self _) (Holds.self _)
    · rw [BinaryTree.length_preorder, zero_add]
    · rw [BinaryTree.length_inorder, zero_add]
  · apply Postorder.build_spec t hd hf (Holds.self _) (Holds.self _)
    · rw [BinaryTree.length_inorder, zero_add]
    · rw [BinaryTree.length_postorder, zero_add]

/-- At `3` over `9` and, on the right, `20` over `15` alone. -/
theorem buildTree_one_sided :
    Preorder.buildTree 5 [3, 9, 20, 15] [9, 3, 15, 20] =
        .ok (.node 3 (.node 9 .nil .nil) (.node 20 (.node 15 .nil .nil) .nil)) ∧
      Postorder.buildTree 5 [9, 3, 15, 20] [9, 15, 20, 3] =
        .ok (.node 3 (.node 9 .nil .nil) (.node 20 (.node 15 .nil .nil) .nil)) :=
  buildTree_spec (.node 3 (.node 9 .nil .nil) (.node 20 (.node 15 .nil .nil) .nil))
    (by decide) 5 (by decide)

end Sperm.Leetcode.BuildTree
