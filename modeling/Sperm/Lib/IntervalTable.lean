import Mathlib.Algebra.Order.Ring.Int
import Mathlib.Logic.Function.Basic
import Mathlib.Tactic.Common

/-!
# Tables of yes-or-no answers

A square table in one row of numbers: `-1` where there is no answer yet, then `1` or `0`.

* `cell`: the place of a pair; `cell_inj`.
* `Sound P n t`: the answers in the table are those of `P`; `Sound.eq_one_iff`, **`sound_update`**.
-/

namespace Sperm.IntervalTable

/-- A table, by places. -/
abbrev Table : Type := ℕ → ℤ

/-- The place of `(i, j)` in a table with `n` columns. -/
def cell (n i j : ℕ) : ℕ := i * n + j

theorem cell_inj {n i j i' j' : ℕ} (hj : j < n) (hj' : j' < n) (h : cell n i j = cell n i' j') :
    i = i' ∧ j = j' := by
  unfold cell at h
  have hmod := congrArg (· % n) h
  simp only [Nat.mul_add_mod', Nat.mod_eq_of_lt hj, Nat.mod_eq_of_lt hj'] at hmod
  subst hmod
  exact ⟨Nat.eq_of_mul_eq_mul_right (by omega) (Nat.add_right_cancel h), rfl⟩

/-- A table with no answers. -/
def empty : Table := fun _ => -1

/-- Every answer in the table is right. -/
def Sound (P : ℕ → ℕ → Prop) (n : ℕ) (t : Table) : Prop :=
  ∀ i j, j < n → t (cell n i j) ≠ -1 →
    (t (cell n i j) = 1 ∧ P i j) ∨ (t (cell n i j) = 0 ∧ ¬ P i j)

variable {P : ℕ → ℕ → Prop} {n : ℕ}

theorem sound_empty : Sound P n empty := fun _ _ _ h => absurd rfl h

theorem Sound.eq_one_iff {t : Table} (h : Sound P n t) {i j : ℕ} (hj : j < n)
    (hne : t (cell n i j) ≠ -1) : t (cell n i j) = 1 ↔ P i j := by
  rcases h i j hj hne with ⟨h₁, hp⟩ | ⟨h₀, hp⟩
  · exact iff_of_true h₁ hp
  · exact iff_of_false (by omega) hp

theorem Sound.ne_zero_iff {t : Table} (h : Sound P n t) {i j : ℕ} (hj : j < n)
    (hne : t (cell n i j) ≠ -1) : t (cell n i j) ≠ 0 ↔ P i j := by
  rcases h i j hj hne with ⟨h₁, hp⟩ | ⟨h₀, hp⟩
  · exact iff_of_true (by omega) hp
  · exact iff_of_false (not_not_intro h₀) hp

theorem sound_update {t : Table} {i j : ℕ} {b : Bool} (h : Sound P n t) (hj : j < n)
    (hb : b = true ↔ P i j) :
    Sound P n (Function.update t (cell n i j) (if b then 1 else 0)) := by
  intro i' j' hj' hne
  by_cases hc : cell n i' j' = cell n i j
  · obtain ⟨rfl, rfl⟩ := cell_inj hj' hj hc
    rw [Function.update_self, ← hb]
    cases b <;> simp
  · rw [Function.update_of_ne hc] at hne ⊢
    exact h i' j' hj' hne

end Sperm.IntervalTable
