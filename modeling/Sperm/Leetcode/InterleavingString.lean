import Sperm.Lib.Loop
import Sperm.Lib.Subsequence

/-!
# Interleaved strings (`interleaving-string.cc`)

`dp[i][j]` says whether the first `i` and the first `j` characters make up the first `i + j`. The
borders are filled by comparing prefixes, and the rest row by row.

* `isInterleave` with `set`, `left`, `top`, `cell`: the model.
* `Shuffled`: what a cell stands for; `shuffled_succ`, by the last characters.
* `Filled`, `Filled.set`, `Filled.skip`: the part of the table that has been filled.
* **`isInterleave_iff`**: the answer.

Positions are not cut to `int`.
-/

namespace Sperm.Leetcode.InterleavingString

open Subsequence

/-- The cells of `bool dp[n + 1][m + 1]`. -/
abbrev Table := ℕ → ℕ → Bool

/-- `dp[i][j] = v`. -/
def set (dp : Table) (i j : ℕ) (v : Bool) : Table :=
  Function.update dp i (Function.update (dp i) j v)

/-- The body of the loop over the left border. -/
def left (s1 s3 : List UInt8) (dp : Table) (i : ℕ) : Table :=
  set dp i 0 (s1.take i == s3.take i)

/-- The body of the loop over the upper border. -/
def top (s2 s3 : List UInt8) (dp : Table) (i : ℕ) : Table :=
  set dp 0 i (s2.take i == s3.take i)

/-- The body of the inner loop. -/
def cell (s1 s2 s3 : List UInt8) (i : ℕ) (dp : Table) (j : ℕ) : Table :=
  if (s1.getD (i - 1) 0 = s3.getD (i + j - 1) 0 ∧ dp (i - 1) j) ∨
      (s2.getD (j - 1) 0 = s3.getD (i + j - 1) 0 ∧ dp i (j - 1)) then
    set dp i j true
  else dp

/-- `isInterleave(s1, s2, s3)`. -/
def isInterleave (s1 s2 s3 : List UInt8) : Bool :=
  let n := s1.length
  let m := s2.length
  if n + m ≠ s3.length then false
  else
    let dp := set (fun _ _ => false) 0 0 true
    let dp := (List.range' 1 n).foldl (left s1 s3) dp
    let dp := (List.range' 1 m).foldl (top s2 s3) dp
    let dp := (List.range' 1 n).foldl
      (fun dp i => (List.range' 1 m).foldl (cell s1 s2 s3 i) dp) dp
    dp n m

/-! ## What a cell stands for -/

/-- The first `i` characters of `s1` and the first `j` of `s2` make up those of `s3`. -/
def Shuffled (s1 s2 s3 : List UInt8) (i j : ℕ) : Prop :=
  IsShuffle (s1.take i) (s2.take j) (s3.take (i + j))

variable {s1 s2 s3 : List UInt8} {dp : Table} {S : ℕ → ℕ → Prop} {i j k : ℕ} {v : Bool}

theorem shuffled_left (s1 s2 s3 : List UInt8) (i : ℕ) :
    (s1.take i == s3.take i) = true ↔ Shuffled s1 s2 s3 i 0 := by
  rw [Shuffled, List.take_zero, isShuffle_nil_right, beq_iff_eq, add_zero]

theorem shuffled_top (s1 s2 s3 : List UInt8) (j : ℕ) :
    (s2.take j == s3.take j) = true ↔ Shuffled s1 s2 s3 0 j := by
  rw [Shuffled, List.take_zero, isShuffle_nil_left, beq_iff_eq, zero_add]

/-- **The recurrence**: the last character of `s3` is the last one of `s1` or of `s2`. -/
theorem shuffled_succ (hlen : s1.length + s2.length = s3.length) (hi : i < s1.length)
    (hj : j < s2.length) : Shuffled s1 s2 s3 (i + 1) (j + 1) ↔
      (s1.getD i 0 = s3.getD (i + j + 1) 0 ∧ Shuffled s1 s2 s3 i (j + 1)) ∨
        (s2.getD j 0 = s3.getD (i + j + 1) 0 ∧ Shuffled s1 s2 s3 (i + 1) j) := by
  have hsum : i + 1 + (j + 1) = i + j + 1 + 1 := by omega
  have hsum' : i + 1 + j = i + j + 1 := by omega
  have hlast : i + j + 1 < s3.length := by omega
  unfold Shuffled
  rw [hsum, hsum', ← add_assoc, take_succ_getD 0 hi, take_succ_getD 0 hj, take_succ_getD 0 hlast,
    isShuffle_concat_concat]

/-! ## The table -/

/-- The cells in `S` have been filled. -/
def Filled (s1 s2 s3 : List UInt8) (S : ℕ → ℕ → Prop) (dp : Table) : Prop :=
  ∀ a b, dp a b = true ↔ S a b ∧ Shuffled s1 s2 s3 a b

theorem Filled.set (h : Filled s1 s2 s3 S dp) (hv : v = true ↔ Shuffled s1 s2 s3 i j) :
    Filled s1 s2 s3 (fun a b => S a b ∨ (a = i ∧ b = j)) (set dp i j v) := by
  intro a b
  unfold InterleavingString.set
  by_cases ha : a = i
  · subst ha
    rw [Function.update_self]
    by_cases hb : b = j
    · subst hb
      rw [Function.update_self, hv]
      simp
    · rw [Function.update_of_ne hb, h a b]
      simp [hb]
  · rw [Function.update_of_ne ha, h a b]
    simp [ha]

theorem Filled.skip (h : Filled s1 s2 s3 S dp) (hv : ¬ Shuffled s1 s2 s3 i j) :
    Filled s1 s2 s3 (fun a b => S a b ∨ (a = i ∧ b = j)) dp := by
  intro a b
  rw [h a b]
  constructor
  · rintro ⟨hs, hab⟩
    exact ⟨.inl hs, hab⟩
  · rintro ⟨hs | ⟨rfl, rfl⟩, hab⟩
    · exact ⟨hs, hab⟩
    · exact absurd hab hv

theorem Filled.congr {S' : ℕ → ℕ → Prop} (h : Filled s1 s2 s3 S dp)
    (hS : ∀ a b, S' a b ↔ S a b) : Filled s1 s2 s3 S' dp := by
  intro a b
  rw [h a b, hS a b]

theorem filled_cell (h : Filled s1 s2 s3 S dp) (hlen : s1.length + s2.length = s3.length)
    (hi : i < s1.length) (hj : j < s2.length) (hup : S i (j + 1)) (hleft : S (i + 1) j) :
    Filled s1 s2 s3 (fun a b => S a b ∨ (a = i + 1 ∧ b = j + 1))
      (cell s1 s2 s3 (i + 1) dp (j + 1)) := by
  have hsum : i + 1 + (j + 1) - 1 = i + j + 1 := by omega
  have hcell : (s1.getD i 0 = s3.getD (i + j + 1) 0 ∧ dp i (j + 1) = true) ∨
      (s2.getD j 0 = s3.getD (i + j + 1) 0 ∧ dp (i + 1) j = true) ↔
        Shuffled s1 s2 s3 (i + 1) (j + 1) := by
    rw [shuffled_succ hlen hi hj, h i (j + 1), h (i + 1) j, and_iff_right hup, and_iff_right hleft]
  rw [cell, Nat.add_sub_cancel, Nat.add_sub_cancel, hsum]
  split_ifs with hc
  · exact h.set (iff_of_true rfl (hcell.mp hc))
  · exact h.skip (mt hcell.mpr hc)

/-- The cells that are filled when `i` rows and the first `j` cells of the next one are done. -/
def Done (n m i j a b : ℕ) : Prop :=
  (b = 0 ∧ a ≤ n) ∨ (a = 0 ∧ b ≤ m) ∨ (0 < b ∧ 0 < a ∧ ((a ≤ i ∧ b ≤ m) ∨ (a = i + 1 ∧ b ≤ j)))

theorem filled_borders (s1 s2 s3 : List UInt8) :
    Filled s1 s2 s3 (Done s1.length s2.length 0 0)
      ((List.range' 1 s2.length).foldl (top s2 s3)
        ((List.range' 1 s1.length).foldl (left s1 s3) (set (fun _ _ => false) 0 0 true))) := by
  have hnone : Filled s1 s2 s3 (fun _ _ => False) fun _ _ => false := by
    intro a b
    simp
  have hcorner : Filled s1 s2 s3 (fun a b => b = 0 ∧ a ≤ 0) (set (fun _ _ => false) 0 0 true) := by
    refine (hnone.set (iff_of_true rfl ((shuffled_left s1 s2 s3 0).mp rfl))).congr fun a b => ?_
    rw [false_or]
    omega
  have hleft := Loop.foldl_range' (f := left s1 s3) (n := s1.length)
    (P := fun k dp => Filled s1 s2 s3 (fun a b => b = 0 ∧ a ≤ k) dp) hcorner
    fun i _ dp h => (h.set (shuffled_left s1 s2 s3 (i + 1))).congr fun a b => by omega
  refine (Loop.foldl_range' (f := top s2 s3) (n := s2.length)
    (P := fun k dp => Filled s1 s2 s3 (Done s1.length k 0 0) dp) ?_ ?_).congr fun a b => Iff.rfl
  · exact hleft.congr fun a b => by unfold Done; omega
  · exact fun j _ dp h => (h.set (shuffled_top s1 s2 s3 (j + 1))).congr fun a b => by
      unfold Done; omega

/-- **Row by row**, every cell is filled. -/
theorem filled_rows (hlen : s1.length + s2.length = s3.length)
    (h : Filled s1 s2 s3 (Done s1.length s2.length 0 0) dp) :
    Filled s1 s2 s3 (Done s1.length s2.length s1.length 0)
      ((List.range' 1 s1.length).foldl
        (fun dp i => (List.range' 1 s2.length).foldl (cell s1 s2 s3 i) dp) dp) := by
  refine Loop.foldl_range' (P := fun i dp => Filled s1 s2 s3 (Done s1.length s2.length i 0) dp) h ?_
  intro i hi dp hrow
  have hcells := Loop.foldl_range' (f := cell s1 s2 s3 (i + 1)) (n := s2.length)
    (P := fun j dp => Filled s1 s2 s3 (Done s1.length s2.length i j) dp) hrow
    fun j hj dp h => by
      have hup : Done s1.length s2.length i j i (j + 1) := by unfold Done; omega
      have hleft : Done s1.length s2.length i j (i + 1) j := by unfold Done; omega
      exact (filled_cell h hlen hi hj hup hleft).congr fun a b => by unfold Done; omega
  exact hcells.congr fun a b => by unfold Done; omega

example : isInterleave [97, 98] [99] [97, 99, 98] = true := by decide

end Sperm.Leetcode.InterleavingString
