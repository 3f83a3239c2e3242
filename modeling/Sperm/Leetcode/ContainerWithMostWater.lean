import Mathlib.Algebra.Order.Ring.Int
import Mathlib.Data.List.GetD
import Mathlib.Order.Bounds.Basic
import Mathlib.Tactic.Common
import Sperm.Lib.Loop

/-!
# The container with most water (`container-with-most-water.cc`)

A left edge is skipped if one before it is at least as high, and the right edges are tried from the
far end until one is high enough.

* `maxArea` with `tryRight` and `tryLeft`: the model.
* `area`, `areas`: what two edges hold.
* `tryRight_spec`, **`scan_spec`**: nothing that is left out holds more.
* **`maxArea_spec`**: the largest area.

Areas are integers, and positions are not cut to `int`.
-/

namespace Sperm.Leetcode.ContainerWithMostWater

/-- What the edges at `i` and `j` hold. -/
def area (height : List ℤ) (i j : ℕ) : ℤ :=
  ((j : ℤ) - i) * min (height.getD i 0) (height.getD j 0)

/-- The inner loop, from `j` down. -/
def tryRight (height : List ℤ) (i : ℕ) : ℕ → ℤ → ℤ
  | 0, res => res
  | j + 1, res =>
    if i < j + 1 then
      let res := max res (area height i (j + 1))
      if height.getD i 0 ≤ height.getD (j + 1) 0 then res else tryRight height i j res
    else res

/-- The body of the outer loop, with `lm` and `res`. -/
def tryLeft (height : List ℤ) (st : ℤ × ℤ) (i : ℕ) : ℤ × ℤ :=
  if height.getD i 0 ≤ st.1 then st
  else (height.getD i 0, tryRight height i (height.length - 1) st.2)

/-- `maxArea(height)`. -/
def maxArea (height : List ℤ) : ℤ :=
  if height.length = 0 then 0
  else ((List.range height.length).foldl (tryLeft height) (0, 0)).2

/-- What any two edges hold. -/
def areas (height : List ℤ) : Set ℤ :=
  {a | ∃ i j, i < j ∧ j < height.length ∧ area height i j = a}

variable {height : List ℤ} {i i' j j' k : ℕ} {lm res : ℤ}

/-! ## What is left out -/

theorem area_le_of_right (hij : i < j) (hj : j ≤ j') (hi : 0 ≤ height.getD i 0)
    (hhigh : height.getD i 0 ≤ height.getD j' 0) : area height i j ≤ area height i j' := by
  have hmin : min (height.getD i 0) (height.getD j 0) ≤ height.getD i 0 := min_le_left _ _
  unfold area
  rw [min_eq_left hhigh]
  calc ((j : ℤ) - i) * min (height.getD i 0) (height.getD j 0)
      ≤ ((j : ℤ) - i) * height.getD i 0 := mul_le_mul_of_nonneg_left hmin (by omega)
    _ ≤ ((j' : ℤ) - i) * height.getD i 0 := mul_le_mul_of_nonneg_right (by omega) hi

theorem area_le_of_left (hii : i' < i) (hij : i < j) (hlow : height.getD i 0 ≤ height.getD i' 0)
    (harea : 0 ≤ area height i j) : area height i j ≤ area height i' j := by
  have hmin : min (height.getD i 0) (height.getD j 0) ≤
      min (height.getD i' 0) (height.getD j 0) := min_le_min_right _ hlow
  have hmin0 : 0 ≤ min (height.getD i 0) (height.getD j 0) :=
    nonneg_of_mul_nonneg_right harea (by omega)
  unfold area
  calc ((j : ℤ) - i) * min (height.getD i 0) (height.getD j 0)
      ≤ ((j : ℤ) - i') * min (height.getD i 0) (height.getD j 0) :=
        mul_le_mul_of_nonneg_right (by omega) hmin0
    _ ≤ ((j : ℤ) - i') * min (height.getD i' 0) (height.getD j 0) :=
        mul_le_mul_of_nonneg_left hmin (by omega)

theorem area_nonpos (hij : i < j) (hi : height.getD i 0 ≤ 0) : area height i j ≤ 0 :=
  mul_nonpos_of_nonneg_of_nonpos (by omega) ((min_le_left _ _).trans hi)

/-! ## The loops -/

/-- What the edge at `i` holds with the ones behind it, up to `j`. -/
def row (height : List ℤ) (i j : ℕ) : Set ℤ :=
  {a | ∃ j', i < j' ∧ j' ≤ j ∧ area height i j' = a}

/-- **The inner loop** finds the most that the edge at `i` holds. -/
theorem tryRight_spec (hi : 0 ≤ height.getD i 0) (j : ℕ) (res : ℤ) :
    IsGreatest (insert res (row height i j)) (tryRight height i j res) := by
  induction j generalizing res with
  | zero =>
    refine ⟨.inl rfl, ?_⟩
    rintro a (rfl | ⟨j', hij, hj, -⟩)
    · exact le_rfl
    · omega
  | succ j ih =>
    unfold tryRight
    split_ifs with hij hhigh
    · -- every edge that is left out is nearer than this one
      constructor
      · rcases max_choice res (area height i (j + 1)) with hmax | hmax
        · exact .inl hmax
        · exact .inr ⟨j + 1, hij, le_rfl, hmax.symm⟩
      · rintro a (rfl | ⟨j', hij', hj, rfl⟩)
        · exact le_max_left _ _
        · exact (area_le_of_right hij' hj hi hhigh).trans (le_max_right _ _)
    · obtain ⟨hmem, hle⟩ := ih (max res (area height i (j + 1)))
      have hmax := hle (Set.mem_insert _ _)
      constructor
      · rcases hmem with hmem | ⟨j', hij', hj, hmem⟩
        · rcases max_choice res (area height i (j + 1)) with hres | hres
          · exact .inl (hmem.trans hres)
          · exact .inr ⟨j + 1, hij, le_rfl, (hmem.trans hres).symm⟩
        · exact .inr ⟨j', hij', by omega, hmem⟩
      · rintro a (rfl | ⟨j', hij', hj, rfl⟩)
        · exact (le_max_left _ _).trans hmax
        · rcases hj.eq_or_lt with rfl | hlt
          · exact (le_max_right _ _).trans hmax
          · exact hle (.inr ⟨j', hij', by omega, rfl⟩)
    · refine ⟨.inl rfl, ?_⟩
      rintro a (rfl | ⟨j', hij', hj, -⟩)
      · exact le_rfl
      · omega

/-- What two edges hold if the left one is before `k`. -/
def areasTo (height : List ℤ) (k : ℕ) : Set ℤ :=
  {a | ∃ i j, i < k ∧ i < j ∧ j < height.length ∧ area height i j = a}

/-- The first `k` left edges have been tried. -/
structure Scanned (height : List ℤ) (k : ℕ) (lm res : ℤ) : Prop where
  nonneg : 0 ≤ lm
  highest : lm = 0 ∨ ∃ i < k, height.getD i 0 = lm
  best : IsGreatest (insert 0 (areasTo height k)) res

theorem scanned_zero (height : List ℤ) : Scanned height 0 0 0 := by
  refine ⟨le_rfl, .inl rfl, .inl rfl, ?_⟩
  rintro a (rfl | ⟨i, j, hi, -⟩)
  · exact le_rfl
  · omega

/-- A left edge that is skipped holds no more than what was found. -/
theorem Scanned.skip (h : Scanned height k lm res) (hlow : height.getD k 0 ≤ lm) :
    Scanned height (k + 1) lm res := by
  obtain ⟨hnonneg, hhighest, hmem, hle⟩ := h
  have hzero := hle (Set.mem_insert 0 _)
  refine ⟨hnonneg, hhighest.imp_right fun ⟨i, hi, hlm⟩ => ⟨i, by omega, hlm⟩, ?_, ?_⟩
  · exact hmem.imp_right fun ⟨i, j, hi, hpair⟩ => ⟨i, j, by omega, hpair⟩
  · rintro a (rfl | ⟨i, j, hi, hij, hj, rfl⟩)
    · exact hzero
    · rcases Nat.lt_succ_iff_lt_or_eq.mp hi with hlt | rfl
      · exact hle (.inr ⟨i, j, hlt, hij, hj, rfl⟩)
      · by_cases hneg : area height i j ≤ 0
        · exact hneg.trans hzero
        · rcases hhighest with rfl | ⟨i', hi', rfl⟩
          · exact absurd (area_nonpos hij hlow) hneg
          · exact (area_le_of_left hi' hij hlow (le_of_not_ge hneg)).trans
              (hle (.inr ⟨i', j, hi', by omega, hj, rfl⟩))

theorem Scanned.keep (h : Scanned height k lm res) (hhigh : lm < height.getD k 0) :
    Scanned height (k + 1) (height.getD k 0) (tryRight height k (height.length - 1) res) := by
  obtain ⟨hnonneg, -, hmem, hle⟩ := h
  have hpos : 0 ≤ height.getD k 0 := by omega
  obtain ⟨hmem', hle'⟩ := tryRight_spec hpos (height.length - 1) res
  have hres := hle' (Set.mem_insert _ _)
  refine ⟨hpos, .inr ⟨k, k.lt_succ_self, rfl⟩, ?_, ?_⟩
  · rcases hmem' with hmem' | ⟨j, hkj, hj, harea⟩
    · rw [hmem']
      exact hmem.imp_right fun ⟨i, j, hi, hpair⟩ => ⟨i, j, by omega, hpair⟩
    · exact .inr ⟨k, j, k.lt_succ_self, hkj, by omega, harea⟩
  · rintro a (rfl | ⟨i, j, hi, hij, hj, rfl⟩)
    · exact (hle (Set.mem_insert _ _)).trans hres
    · rcases Nat.lt_succ_iff_lt_or_eq.mp hi with hlt | rfl
      · exact (hle (.inr ⟨i, j, hlt, hij, hj, rfl⟩)).trans hres
      · exact hle' (.inr ⟨j, hij, by omega, rfl⟩)

/-- **The outer loop**: what is left out holds no more than what is found. -/
theorem scan_spec (height : List ℤ) (k : ℕ) :
    Scanned height k ((List.range k).foldl (tryLeft height) (0, 0)).1
      ((List.range k).foldl (tryLeft height) (0, 0)).2 := by
  refine Loop.foldl_range (P := fun k (st : ℤ × ℤ) => Scanned height k st.1 st.2)
    (scanned_zero height) ?_
  intro k _ st h
  unfold tryLeft
  split_ifs with hlow
  · exact h.skip hlow
  · exact h.keep (lt_of_not_ge hlow)

theorem areasTo_length (height : List ℤ) : areasTo height height.length = areas height := by
  ext a
  constructor
  · rintro ⟨i, j, -, hpair⟩
    exact ⟨i, j, hpair⟩
  · rintro ⟨i, j, hij, hj, ha⟩
    exact ⟨i, j, by omega, hij, hj, ha⟩

/-- Heights of any sign: the largest area, but not less than `0`. -/
theorem maxArea_isGreatest (height : List ℤ) :
    IsGreatest (insert 0 (areas height)) (maxArea height) := by
  have hscan := (scan_spec height height.length).best
  rw [areasTo_length] at hscan
  unfold maxArea
  split_ifs with hn
  · refine ⟨.inl rfl, ?_⟩
    rintro a (rfl | ⟨i, j, -, hj, -⟩)
    · exact le_rfl
    · omega
  · exact hscan

/-- **The largest area** of any two edges, and `0` where there are none. -/
theorem maxArea_spec (height : List ℤ) (hpos : ∀ h ∈ height, 0 ≤ h) :
    (height.length < 2 → maxArea height = 0) ∧
      (2 ≤ height.length → IsGreatest (areas height) (maxArea height)) := by
  obtain ⟨hmem, hle⟩ := maxArea_isGreatest height
  constructor
  · intro hn
    rcases hmem with hzero | ⟨i, j, hij, hj, -⟩
    · exact hzero
    · omega
  · intro hn
    refine ⟨?_, fun a ha => hle (.inr ha)⟩
    rcases hmem with hzero | hmem
    · -- the first two edges hold no less than nothing, and no more than what was found
      have hedge : ∀ i < height.length, 0 ≤ height.getD i 0 := by
        intro i hi
        rw [List.getD_eq_getElem _ _ hi]
        exact hpos _ (List.getElem_mem hi)
      have hge : 0 ≤ area height 0 1 :=
        mul_nonneg (by decide) (le_min (hedge 0 (by omega)) (hedge 1 (by omega)))
      have hmem01 : area height 0 1 ∈ areas height := ⟨0, 1, by decide, by omega, rfl⟩
      have hle01 := hle (.inr hmem01)
      rw [hzero] at hle01 ⊢
      rwa [le_antisymm hle01 hge] at hmem01
    · exact hmem

theorem maxArea_three : (∀ h ∈ [1, 2, 1], (0 : ℤ) ≤ h) ∧ 2 ≤ [1, 2, 1].length ∧
    IsGreatest (areas [1, 2, 1]) (maxArea [1, 2, 1]) := by
  have hpos : ∀ h ∈ [1, 2, 1], (0 : ℤ) ≤ h := by decide
  exact ⟨hpos, by decide, (maxArea_spec _ hpos).2 (by decide)⟩

example : maxArea [1, 2, 1] = 2 := by decide

end Sperm.Leetcode.ContainerWithMostWater
