import Mathlib.Algebra.Order.BigOperators.Group.List
import Mathlib.Algebra.Order.Ring.Int
import Mathlib.Data.Int.Notation
import Mathlib.Tactic.Positivity

/-!
# Signed integers of a fixed width

A value that does not fit is an error, as overflow is undefined.

* `signed w x`: the value `x` of `w` bits; `signed_eq`, `signed_eq_some_iff`.
* `sumFrom`: the values of a list are added one after the other.
* **`sumFrom_eq_some_iff`**: values that are not negative are added if their sum fits.
-/

namespace Checked

variable {w : ℕ} {x y acc s : ℤ} {l : List ℤ}

def signed (w : ℕ) (x : ℤ) : Option ℤ := if -2 ^ (w - 1) ≤ x ∧ x < 2 ^ (w - 1) then some x else none

theorem signed_eq (h : -2 ^ (w - 1) ≤ x) (h' : x < 2 ^ (w - 1)) : signed w x = some x :=
  if_pos ⟨h, h'⟩

theorem signed_eq_some_iff :
    signed w x = some y ↔ (-2 ^ (w - 1) ≤ x ∧ x < 2 ^ (w - 1)) ∧ x = y := by
  unfold signed
  split_ifs with h
  · simp [h]
  · simp [h]

/-- The values of `l` are added to `acc`. -/
def sumFrom (w : ℕ) : ℤ → List ℤ → Option ℤ
  | acc, [] => some acc
  | acc, x :: l => (signed w (acc + x)).bind fun acc => sumFrom w acc l

/-- **A sum** of values that are not negative. -/
theorem sumFrom_eq_some_iff (hacc : 0 ≤ acc) (hfit : acc < 2 ^ (w - 1)) (hl : ∀ x ∈ l, 0 ≤ x) :
    sumFrom w acc l = some s ↔ acc + l.sum < 2 ^ (w - 1) ∧ acc + l.sum = s := by
  induction l generalizing acc with
  | nil => simp [sumFrom, hfit]
  | cons x l ih =>
    obtain ⟨hx, hl⟩ := List.forall_mem_cons.mp hl
    have hpos : (0 : ℤ) < 2 ^ (w - 1) := by positivity
    rw [sumFrom, List.sum_cons, ← add_assoc]
    by_cases hsum : acc + x < 2 ^ (w - 1)
    · rw [signed_eq (by omega) hsum, Option.bind_some]
      exact ih (by omega) hsum hl
    · have hrest : 0 ≤ l.sum := List.sum_nonneg hl
      have hnone : signed w (acc + x) = none := if_neg fun h => hsum h.2
      rw [hnone]
      refine iff_of_false nofun ?_
      rintro ⟨hlt, -⟩
      omega

end Checked
