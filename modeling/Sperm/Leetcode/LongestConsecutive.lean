import Mathlib.Data.List.GetD
import Sperm.Lib.ConsecutiveRuns
import Sperm.Lib.Loop

/-!
# The longest run of consecutive integers (`longest-consecutive-sequence.cc`)

The list is sorted, and a run goes on where the difference of neighbours is `1`. Differences wrap
around: they are only compared with `1`, and a difference of values in order that has no room in
`int` wraps to a negative number. So a pass without a result, for an overflow, would leave out lists
on which the comparison is right.

* `longestConsecutive` with `step`: the model.
* `sub_eq_one_iff`: a difference of values in order is `1` only if it does not wrap.
* `values`, `Inv`: what is known of the values up to some place; **`step_spec`**, `loop_spec`.
* **`longestConsecutive_spec`**: the length of the longest run.

Lengths and positions are not cut to `int`.
-/

namespace Sperm.Leetcode.LongestConsecutive

open ConsecutiveRuns

/-- The pass of the loop at `i`, with `length` and `code`. -/
def step (num : List Int32) (st : ℕ × ℕ) (i : ℕ) : ℕ × ℕ :=
  if num.getD i 0 = num.getD (i - 1) 0 then st
  else if num.getD i 0 - num.getD (i - 1) 0 = 1 then (st.1 + 1, st.2)
  else (1, if st.1 > st.2 then st.1 else st.2)

/-- `longestConsecutive(num)`. -/
def longestConsecutive (num : List Int32) : ℕ :=
  if num.length = 0 ∨ num.length = 1 then num.length
  else
    let num := num.mergeSort
    let st := (List.range' 1 (num.length - 1)).foldl (step num) (1, 1)
    if st.1 > st.2 then st.1 else st.2

variable {l num : List Int32} {a b : Int32} {st : ℕ × ℕ} {i : ℕ} {z : ℤ}

/-! ## Differences -/

/-- **A difference** of values in order wraps to no value that is wrong for the loop. -/
theorem sub_eq_one_iff (h : a ≤ b) : b - a = 1 ↔ b.toInt = a.toInt + 1 := by
  have hlt := b.toInt_lt
  have hle := a.le_toInt
  have hone : (1 : Int32).toInt = 1 := rfl
  rw [Int32.le_iff_toInt_le] at h
  rw [← Int32.toInt_inj, Int32.toInt_sub, hone, Int.bmod_def]
  omega

/-! ## The loop -/

/-- The value at a place. -/
def value (l : List Int32) (p : ℕ) : ℤ := (l.getD p 0).toInt

/-- The values up to place `i`. -/
def values (l : List Int32) (i : ℕ) : Set ℤ := {z | ∃ p ≤ i, value l p = z}

theorem values_succ (l : List Int32) (i : ℕ) :
    values l (i + 1) = insert (value l (i + 1)) (values l i) := by
  ext z
  constructor
  · rintro ⟨p, hp, rfl⟩
    rcases Nat.le_succ_iff.mp hp with hle | rfl
    · exact .inr ⟨p, hle, rfl⟩
    · exact .inl rfl
  · rintro (rfl | ⟨p, hp, rfl⟩)
    · exact ⟨i + 1, le_rfl, rfl⟩
    · exact ⟨p, Nat.le_succ_of_le hp, rfl⟩

/-- The values stand in order. -/
def Ascending (l : List Int32) : Prop := ∀ p q, p ≤ q → q < l.length → l.getD p 0 ≤ l.getD q 0

theorem Ascending.le (h : Ascending l) (hi : i < l.length) (hz : z ∈ values l i) :
    z ≤ value l i := by
  obtain ⟨p, hp, rfl⟩ := hz
  exact Int32.le_iff_toInt_le.mp (h p i hp hi)

/-- The run at place `i` has `length` values, and `code` or `length` is the greatest so far. -/
structure Inv (l : List Int32) (i : ℕ) (st : ℕ × ℕ) : Prop where
  run : RunTo (values l i) (value l i) st.1
  best : IsGreatest (runs (values l i)) (max st.2 st.1)

theorem inv_zero (l : List Int32) : Inv l 0 (1, 1) := by
  have hvalues : values l 0 = insert (value l 0) ∅ := by
    ext z
    constructor
    · rintro ⟨p, hp, rfl⟩
      rw [Nat.le_zero.mp hp]
      exact .inl rfl
    · rintro (rfl | hz)
      · exact ⟨0, le_rfl, rfl⟩
      · exact hz.elim
  have hrun : RunTo ∅ (value l 0 - 1) 0 := runTo_zero fun z hz => hz.elim
  constructor
  · rw [hvalues]
    exact hrun.insert
  · have hbest := isGreatest_runs_insert (fun z hz => hz.elim) hrun isGreatest_runs_empty
    rw [hvalues]
    exact hbest

theorem ite_gt_eq_max (m n : ℕ) : (if m > n then m else n) = max n m := by
  split_ifs with h
  · exact (max_eq_right h.le).symm
  · exact (max_eq_left (not_lt.mp h)).symm

/-- **One pass** of the loop. -/
theorem step_spec (hl : Ascending l) (hi : i + 1 < l.length) (h : Inv l i st) :
    Inv l (i + 1) (step l st (i + 1)) := by
  have hle := hl i (i + 1) (Nat.le_succ i) hi
  have htop : ∀ z ∈ values l i, z ≤ value l i := fun z hz => hl.le (by omega) hz
  rw [step, Nat.add_sub_cancel, ite_gt_eq_max]
  by_cases hdup : l.getD (i + 1) 0 = l.getD i 0
  · -- the value is there already
    have hval : value l (i + 1) = value l i := congrArg Int32.toInt hdup
    have hsame : values l (i + 1) = values l i := by
      rw [values_succ, hval]
      exact Set.insert_eq_of_mem ⟨i, le_rfl, rfl⟩
    rw [if_pos hdup]
    constructor
    · rw [hsame, hval]
      exact h.run
    · rw [hsame]
      exact h.best
  · have hne : value l (i + 1) ≠ value l i := mt Int32.toInt_inj.mp hdup
    have hlt : value l i < value l (i + 1) :=
      lt_of_le_of_ne (Int32.le_iff_toInt_le.mp hle) hne.symm
    have hnew : ∀ z ∈ values l i, z < value l (i + 1) := fun z hz => (htop z hz).trans_lt hlt
    rw [if_neg hdup]
    by_cases hnext : l.getD (i + 1) 0 - l.getD i 0 = 1
    · have hpred : value l (i + 1) - 1 = value l i := by
        rw [value, (sub_eq_one_iff hle).mp hnext, add_sub_cancel_right, value]
      have hrun : RunTo (values l i) (value l (i + 1) - 1) st.1 := hpred ▸ h.run
      rw [if_pos hnext]
      constructor
      · rw [values_succ]
        exact hrun.insert
      · have hbest := isGreatest_runs_insert hnew hrun h.best
        rw [max_assoc, max_eq_right (Nat.le_succ st.1)] at hbest
        rw [values_succ]
        exact hbest
    · -- nothing stands right before the value
      have hgap : value l i < value l (i + 1) - 1 := by
        have hstep := mt (sub_eq_one_iff hle).mpr hnext
        change ¬ value l (i + 1) = value l i + 1 at hstep
        omega
      have hrun : RunTo (values l i) (value l (i + 1) - 1) 0 :=
        runTo_zero fun z hz => (htop z hz).trans_lt hgap
      rw [if_neg hnext]
      constructor
      · rw [values_succ]
        exact hrun.insert
      · rw [values_succ]
        exact isGreatest_runs_insert hnew hrun h.best

theorem loop_spec (hl : Ascending l) (hne : l ≠ []) :
    Inv l (l.length - 1) ((List.range' 1 (l.length - 1)).foldl (step l) (1, 1)) := by
  have hpos := List.length_pos_iff.mpr hne
  refine Loop.foldl_range' (P := Inv l) (inv_zero l) ?_
  intro i hi st h
  exact step_spec hl (by omega) h

/-! ## The result -/

theorem ascending_mergeSort (num : List Int32) : Ascending num.mergeSort := by
  have hsorted : (num.mergeSort (· ≤ ·)).Pairwise fun a b => decide (a ≤ b) = true := by
    refine List.pairwise_mergeSort (fun a b c hab hbc => ?_) (fun a b => ?_) num
    · simp only [decide_eq_true_eq] at hab hbc ⊢
      exact Int32.le_trans hab hbc
    · simp only [Bool.or_eq_true, decide_eq_true_eq]
      exact Int32.le_total a b
  intro p q hpq hq
  rw [List.getD_eq_getElem _ _ (hpq.trans_lt hq), List.getD_eq_getElem _ _ hq]
  rcases hpq.eq_or_lt with rfl | hlt
  · exact Int32.le_refl _
  · exact of_decide_eq_true (List.pairwise_iff_getElem.mp hsorted p q (hpq.trans_lt hq) hq hlt)

theorem values_length (hne : l ≠ []) : values l (l.length - 1) = {z | ∃ x ∈ l, x.toInt = z} := by
  have hpos := List.length_pos_iff.mpr hne
  ext z
  constructor
  · rintro ⟨p, hp, rfl⟩
    rw [value, List.getD_eq_getElem l 0 (by omega)]
    exact ⟨_, List.getElem_mem _, rfl⟩
  · rintro ⟨x, hx, rfl⟩
    obtain ⟨p, hp, rfl⟩ := List.getElem_of_mem hx
    refine ⟨p, by omega, ?_⟩
    rw [value, List.getD_eq_getElem l 0 hp]

/-- **The longest run** of consecutive integers in the list. -/
theorem longestConsecutive_spec (num : List Int32) :
    IsGreatest {k : ℕ | ∃ a : ℤ, ∀ j : ℕ, j < k → ∃ x ∈ num, x.toInt = a + j}
      (longestConsecutive num) ∧ longestConsecutive [] = 0 := by
  refine ⟨?_, rfl⟩
  by_cases hnil : num = []
  · have hset : {z : ℤ | ∃ x ∈ num, x.toInt = z} = ∅ := by simp [hnil]
    change IsGreatest (runs {z | ∃ x ∈ num, x.toInt = z}) _
    rw [hset, hnil]
    exact isGreatest_runs_empty
  · have hlen : num.mergeSort.length = num.length := List.length_mergeSort num
    have hne : num.mergeSort ≠ [] := by
      rwa [← List.length_pos_iff, hlen, List.length_pos_iff]
    have hset : {z : ℤ | ∃ x ∈ num, x.toInt = z} =
        values num.mergeSort (num.mergeSort.length - 1) := by
      rw [values_length hne]
      simp only [List.mem_mergeSort]
    have hbest := (loop_spec (ascending_mergeSort num) hne).best
    change IsGreatest (runs {z | ∃ x ∈ num, x.toInt = z}) _
    rw [hset]
    unfold longestConsecutive
    split_ifs with hshort
    · -- one value, and no pass of the loop
      have hone : num.length = 1 := hshort.resolve_left (by simpa using hnil)
      rw [hlen, hone] at hbest ⊢
      exact hbest
    · dsimp only
      rw [ite_gt_eq_max]
      rw [hlen] at hbest ⊢
      exact hbest

end Sperm.Leetcode.LongestConsecutive
