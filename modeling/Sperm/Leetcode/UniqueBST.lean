import Mathlib.Data.Int.Range
import Sperm.Lib.Loop
import Sperm.Lib.TreeEnumeration

/-!
# Search trees on `1..n` (`unique-binary-search-trees.cc`, `unique-binary-search-trees-2.cc`)

The first program counts the trees in a table by size, the second lists them by intervals of keys.
Counts are not cut to `int`.

* `numTrees`, with `column` for its inner loop; `numTrees_eq_catalan`.
* `R` and `generateTrees`, with `rootLoop` for the loop over the root; `R_eq_treesOf`.
* **`generateTrees_spec`**: every search tree is listed once, and `numTrees` of them.
-/

namespace Sperm.Leetcode.UniqueBST

/-! ## The count -/

/-- `for(int j = 1; j <= i; j++) dp[i] += dp[j - 1] * dp[i - j];`. -/
def column (dp : ℕ → ℤ) (i : ℕ) : ℕ → ℤ :=
  (List.range' 1 i).foldl
    (fun dp j => Function.update dp i (dp i + dp (j - 1) * dp (i - j))) dp

/-- `numTrees(n)`, where the table has room for `dp[1]`. -/
def numTrees (n : ℕ) : ℤ :=
  let dp := Function.update (Function.update (fun _ => 0) 0 1) 1 1
  (List.range' 2 (n - 1)).foldl column dp n

/-! ## The list -/

mutual

/-- `R(s, e)`. -/
def R (s e : ℤ) : List (BinaryTree ℤ) :=
  if s > e then [.nil]
  else if s = e then [.node s .nil .nil]
  else rootLoop s e s le_rfl []
termination_by ((e + 1 - s).toNat, (e + 1 - s).toNat + 1)

/-- Its loop from `i` on. -/
def rootLoop (s e i : ℤ) (hi : s ≤ i) (res : List (BinaryTree ℤ)) : List (BinaryTree ℤ) :=
  if i ≤ e then
    let ls := R s (i - 1)
    let rs := R (i + 1) e
    rootLoop s e (i + 1) (by omega) (res ++ BinaryTree.graft i ls rs)
  else res
termination_by ((e + 1 - s).toNat, (e + 1 - i).toNat)

end

/-- `generateTrees(n)`. -/
def generateTrees (n : ℤ) : List (BinaryTree ℤ) := R 1 n

/-! ## How many trees -/

/-- The table is right up to `k`, and empty behind. -/
structure Filled (k : ℕ) (dp : ℕ → ℤ) : Prop where
  eq_catalan : ∀ j ≤ k, dp j = catalan j
  eq_zero : ∀ j, k < j → dp j = 0

theorem foldl_column (dp : ℕ → ℤ) (i m : ℕ) (hm : m ≤ i) :
    (List.range' 1 m).foldl
        (fun dp j => Function.update dp i (dp i + dp (j - 1) * dp (i - j))) dp =
      Function.update dp i (dp i + ∑ j ∈ Finset.range m, dp j * dp (i - 1 - j)) := by
  induction m with
  | zero => simp
  | succ m ih =>
    have hl : 1 + m - 1 = m := by omega
    have hr : i - (1 + m) = i - 1 - m := by omega
    rw [List.range'_1_concat, List.foldl_append, ih (by omega), List.foldl_cons, List.foldl_nil,
      hl, hr, Function.update_idem, Function.update_self,
      Function.update_of_ne (show m ≠ i by omega),
      Function.update_of_ne (show i - 1 - m ≠ i by omega), Finset.sum_range_succ, add_assoc]

theorem Filled.column {k : ℕ} {dp : ℕ → ℤ} (h : Filled k dp) :
    Filled (k + 1) (column dp (k + 1)) := by
  have hsum : ∑ j ∈ Finset.range (k + 1), dp j * dp (k - j) = catalan (k + 1) := by
    rw [catalan_succ, Nat.cast_sum, Finset.sum_range]
    refine Finset.sum_congr rfl fun j _ => ?_
    rw [h.eq_catalan j (by omega), h.eq_catalan (k - j) (by omega), Nat.cast_mul]
  rw [UniqueBST.column, foldl_column dp _ _ le_rfl, h.eq_zero _ (Nat.lt_succ_self k), zero_add,
    Nat.add_sub_cancel, hsum]
  constructor
  · intro j hj
    rcases Nat.lt_or_eq_of_le hj with hlt | rfl
    · rw [Function.update_of_ne (by omega), h.eq_catalan j (by omega)]
    · rw [Function.update_self]
  · intro j hj
    rw [Function.update_of_ne (by omega), h.eq_zero j (by omega)]

theorem filled_foldl {dp : ℕ → ℤ} (h : Filled 1 dp) (m : ℕ) :
    Filled (m + 1) ((List.range' 2 m).foldl column dp) := by
  refine Loop.foldl_range' (P := fun k dp => Filled (k + 1) dp) h ?_
  intro i _ dp hdp
  exact hdp.column

theorem numTrees_eq_catalan {n : ℕ} (hn : 1 ≤ n) : numTrees n = catalan n := by
  have hinit : Filled 1 (Function.update (Function.update (fun _ => 0) 0 1) 1 1) := by
    constructor
    · intro j hj
      obtain rfl | rfl : j = 0 ∨ j = 1 := by omega
      · simp
      · simp
    · intro j hj
      rw [Function.update_of_ne (by omega), Function.update_of_ne (by omega)]
  exact (filled_foldl hinit (n - 1)).eq_catalan n (by omega)

/-! ## Which trees -/

/-- The loop over the root adds the trees for the keys from `i` on. -/
theorem rootLoop_eq (s e : ℤ) (m k : ℕ) {i : ℤ} (hi : s ≤ i) (hk : i = s + k) (hm : e + 1 = i + m)
    (res : List (BinaryTree ℤ)) :
    rootLoop s e i hi res = res ++ (List.range' k m).flatMap fun k : ℕ =>
      BinaryTree.graft (s + k) (R s (s + k - 1)) (R (s + k + 1) e) := by
  induction m generalizing k i res with
  | zero =>
    rw [rootLoop, if_neg (by omega)]
    simp
  | succ m ih =>
    rw [rootLoop, if_pos (by omega), ih (k + 1) _ (by omega) (by omega), List.range'_succ,
      List.flatMap_cons, List.append_assoc, hk]

theorem R_of_lt {s e : ℤ} (h : s < e) :
    R s e = (List.range (e + 1 - s).toNat).flatMap fun k : ℕ =>
      BinaryTree.graft (s + k) (R s (s + k - 1)) (R (s + k + 1) e) := by
  rw [R, if_neg (by omega), if_neg (by omega), rootLoop_eq s e (e + 1 - s).toNat 0 le_rfl (by simp)
    (by omega), List.nil_append, List.range_eq_range']

theorem length_range (s e : ℤ) : (Int.range s e).length = (e - s).toNat := by
  rw [Int.range, List.length_map, List.length_range]

theorem getElem_range (s e : ℤ) (k : ℕ) (hk : k < (Int.range s e).length) :
    (Int.range s e)[k] = s + k := by
  simp [Int.range]

theorem take_range (s e : ℤ) {k : ℕ} (hk : k < (e - s).toNat) :
    (Int.range s e).take k = Int.range s (s + k) := by
  apply List.ext_getElem
  · simp only [List.length_take, length_range]
    omega
  · simp [Int.range]

theorem drop_range (s e : ℤ) (k : ℕ) : (Int.range s e).drop k = Int.range (s + k) e := by
  apply List.ext_getElem
  · simp only [List.length_drop, length_range]
    omega
  · simp [Int.range, add_assoc]

theorem R_eq_treesOf (s e : ℤ) : R s e = BinaryTree.treesOf (Int.range s (e + 1)) := by
  induction h : (e + 1 - s).toNat using Nat.strong_induction_on generalizing s e with
  | _ n ih =>
    subst h
    have hlen := length_range s (e + 1)
    rcases lt_trichotomy s e with hlt | rfl | hgt
    · have hne : Int.range s (e + 1) ≠ [] := List.ne_nil_of_length_pos (by omega)
      rw [R_of_lt hlt, BinaryTree.treesOf_of_ne_nil hne, ← hlen,
        ← List.map_coe_finRange_eq_range, List.flatMap_map]
      refine List.flatMap_congr fun k _ => ?_
      have hk : (k : ℕ) < (e + 1 - s).toNat := hlen ▸ k.isLt
      rw [ih _ (by omega) s (s + k - 1) rfl, ih _ (by omega) (s + k + 1) e rfl, take_range s _ hk,
        drop_range, List.get_eq_getElem, getElem_range, sub_add_cancel, Nat.cast_succ, add_assoc]
    · have hone : Int.range s (s + 1) = [s] := by simp [Int.range]
      rw [R, if_neg (by omega), if_pos rfl, hone, BinaryTree.treesOf_singleton]
    · have hnil : Int.range s (e + 1) = [] := List.eq_nil_of_length_eq_zero (by omega)
      rw [R, if_pos hgt, hnil, BinaryTree.treesOf_nil]

theorem mem_generateTrees (n : ℕ) (t : BinaryTree ℤ) :
    t ∈ generateTrees n ↔ t.IsSearchTree ∧ ∀ k, k ∈ t.inorder ↔ 1 ≤ k ∧ k ≤ n := by
  rw [generateTrees, R_eq_treesOf, BinaryTree.mem_treesOf, BinaryTree.isSearchTree_iff]
  have hmem : ∀ k, k ∈ Int.range 1 (n + 1) ↔ 1 ≤ k ∧ k ≤ n := by
    intro k
    rw [Int.mem_range_iff]
    omega
  have hsort : (Int.range 1 (n + 1)).Pairwise (· < ·) := by
    rw [Int.range, List.pairwise_map]
    exact List.pairwise_lt_range.imp fun h => by omega
  constructor
  · intro h
    rw [h]
    exact ⟨hsort, hmem⟩
  · rintro ⟨hp, hk⟩
    exact hp.sortedLT.eq_of_mem_iff hsort.sortedLT fun k => (hk k).trans (hmem k).symm

/-- `generateTrees` lists every search tree on the keys `1..n` once and nothing else, and `numTrees`
is the length of the list. -/
theorem generateTrees_spec (n : ℕ) (hn : 1 ≤ n) :
    (generateTrees n).Nodup ∧
      (∀ t, t ∈ generateTrees n ↔ t.IsSearchTree ∧ ∀ k, k ∈ t.inorder ↔ 1 ≤ k ∧ k ≤ (n : ℤ)) ∧
      ((generateTrees n).length : ℤ) = numTrees n := by
  refine ⟨?_, mem_generateTrees n, ?_⟩
  · rw [generateTrees, R_eq_treesOf]
    exact BinaryTree.nodup_treesOf _
  · rw [generateTrees, R_eq_treesOf, BinaryTree.length_treesOf, length_range,
      numTrees_eq_catalan hn]
    congr 2
    omega

/-- At three keys: there are five trees. -/
theorem generateTrees_three :
    (generateTrees 3).Nodup ∧
      (∀ t, t ∈ generateTrees 3 ↔ t.IsSearchTree ∧ ∀ k, k ∈ t.inorder ↔ 1 ≤ k ∧ k ≤ 3) ∧
      ((generateTrees 3).length : ℤ) = numTrees 3 ∧ numTrees 3 = 5 :=
  have h := generateTrees_spec 3 (by decide)
  ⟨h.1, h.2.1, h.2.2, by decide⟩

end Sperm.Leetcode.UniqueBST
