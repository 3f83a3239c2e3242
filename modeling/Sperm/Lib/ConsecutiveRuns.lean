import Mathlib.Algebra.Order.Ring.Int
import Mathlib.Data.Int.Notation
import Mathlib.Order.Bounds.Basic
import Mathlib.Tactic.Common

/-!
# Consecutive integers

* `runs S`: how many consecutive integers are in `S`, as the set of these numbers.
* `RunTo S x m`: the integers up to `x` go on for exactly `m` places.
* `RunTo.insert`, **`isGreatest_runs_insert`**: a new integer that is greater than all others.
-/

namespace ConsecutiveRuns

variable {S : Set ℤ} {x y : ℤ} {m M k : ℕ}

/-- The numbers `k` such that `k` consecutive integers are in `S`. -/
def runs (S : Set ℤ) : Set ℕ := {k | ∃ a : ℤ, ∀ j : ℕ, j < k → a + j ∈ S}

/-- From `x` down, exactly `m` consecutive integers are in `S`. -/
def RunTo (S : Set ℤ) (x : ℤ) (m : ℕ) : Prop := (∀ j : ℕ, j < m → x - j ∈ S) ∧ x - m ∉ S

theorem runTo_zero (h : ∀ z ∈ S, z < x) : RunTo S x 0 := by
  refine ⟨fun j hj => absurd hj j.not_lt_zero, fun hx => ?_⟩
  have hlt := h _ hx
  omega

theorem isGreatest_runs_empty : IsGreatest (runs ∅) 0 := by
  refine ⟨⟨0, fun j hj => absurd hj j.not_lt_zero⟩, ?_⟩
  rintro k ⟨a, ha⟩
  by_contra hk
  exact ha 0 (Nat.pos_of_ne_zero fun h => hk h.le)

theorem RunTo.insert (h : RunTo S (y - 1) m) : RunTo (insert y S) y (m + 1) := by
  constructor
  · intro j hj
    cases j with
    | zero => exact .inl (sub_zero y)
    | succ j =>
      refine .inr ?_
      have hmem := h.1 j (by omega)
      rwa [sub_sub, add_comm] at hmem
  · rintro (heq | hmem)
    · omega
    · refine h.2 ?_
      rwa [sub_sub, add_comm]

theorem RunTo.mem_runs (h : RunTo S x m) : m ∈ runs S := by
  refine ⟨x + 1 - m, fun j hj => ?_⟩
  have hmem := h.1 (m - 1 - j) (by omega)
  have heq : x - (m - 1 - j : ℕ) = x + 1 - m + j := by omega
  rwa [heq] at hmem

/-- **A new greatest integer** makes the run longer that it goes on with. -/
theorem isGreatest_runs_insert (hlt : ∀ z ∈ S, z < y) (hrun : RunTo S (y - 1) m)
    (h : IsGreatest (runs S) M) : IsGreatest (runs (insert y S)) (max M (m + 1)) := by
  constructor
  · rcases max_choice M (m + 1) with hmax | hmax
    · rw [hmax]
      obtain ⟨a, ha⟩ := h.1
      exact ⟨a, fun j hj => .inr (ha j hj)⟩
    · rw [hmax]
      exact hrun.insert.mem_runs
  · rintro k ⟨a, ha⟩
    cases k with
    | zero => exact Nat.zero_le _
    | succ k =>
      by_cases hlast : a + k = y
      · -- it ends at `y`, and so it is no longer than what ends there
        by_contra hlong
        have hmem := ha (k - (m + 1)) (by omega)
        have heq : a + (k - (m + 1) : ℕ) = y - (m + 1 : ℕ) := by omega
        rw [heq] at hmem
        exact hrun.insert.2 hmem
      · -- all of it is in `S`
        have hold : ∀ j : ℕ, j < k + 1 → a + j ∈ S := by
          intro j hj
          have htop : a + k < y := (ha k k.lt_succ_self).elim (fun heq => absurd heq hlast) (hlt _)
          exact (ha j hj).resolve_left (by omega)
        exact (h.2 ⟨a, hold⟩).trans (le_max_left _ _)

end ConsecutiveRuns
