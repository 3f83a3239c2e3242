import Mathlib.Algebra.BigOperators.Group.Finset.Piecewise
import Mathlib.Algebra.Order.BigOperators.Group.Finset
import Mathlib.Data.Fintype.Basic

/-!
# Counting threads by program counter

A pool of threads is a map `pc : Tid → Pc` from a finite type of threads to program counters, and a
thread moves by `Function.update`. `tally w pc` adds the weight `w` of every thread's program
counter; `tally_update` is how it changes when one thread moves, `add_le_tally` bounds it from
below.
-/

namespace ThreadPool

variable {Tid Pc : Type} [Fintype Tid] {w : Pc → ℕ} {pc : Tid → Pc}

/-- The total weight of the program counters. -/
def tally (w : Pc → ℕ) (pc : Tid → Pc) : ℕ := ∑ t, w (pc t)

theorem tally_const (p : Pc) (h : w p = 0) : tally w (fun _ : Tid => p) = 0 :=
  Finset.sum_eq_zero fun _ _ => h

/-- **Moving one thread** replaces its old weight by the new one. -/
theorem tally_update [DecidableEq Tid] (w : Pc → ℕ) (pc : Tid → Pc) (t : Tid) (p : Pc) :
    tally w (Function.update pc t p) + w (pc t) = tally w pc + w p := by
  have h₁ := Finset.add_sum_erase Finset.univ (fun u => w (pc u)) (Finset.mem_univ t)
  have h₂ := Finset.add_sum_erase Finset.univ (fun u => w (Function.update pc t p u))
    (Finset.mem_univ t)
  have h₃ : ∑ u ∈ Finset.univ.erase t, w (Function.update pc t p u) =
      ∑ u ∈ Finset.univ.erase t, w (pc u) :=
    Finset.sum_congr rfl fun u hu => by
      rw [Function.update_of_ne (Finset.ne_of_mem_erase hu)]
  simp only [Function.update_self] at h₂
  unfold tally
  omega

theorem tally_update_update [DecidableEq Tid] (w : Pc → ℕ) (pc : Tid → Pc) {t u : Tid}
    (htu : t ≠ u) (p q : Pc) :
    tally w (Function.update (Function.update pc t p) u q) + w (pc t) + w (pc u) =
      tally w pc + w p + w q := by
  have h₁ := tally_update w (Function.update pc t p) u q
  have h₂ := tally_update w pc t p
  rw [Function.update_of_ne htu.symm] at h₁
  omega

theorem add_le_tally [DecidableEq Tid] (w : Pc → ℕ) (pc : Tid → Pc) {t u : Tid} (htu : t ≠ u) :
    w (pc t) + w (pc u) ≤ tally w pc := by
  unfold tally
  rw [← Finset.add_sum_erase _ _ (Finset.mem_univ t)]
  exact Nat.add_le_add_left (Finset.single_le_sum (f := fun v => w (pc v))
    (fun _ _ => Nat.zero_le _) (Finset.mem_erase.mpr ⟨htu.symm, Finset.mem_univ u⟩)) _

theorem tally_le_card (h : ∀ p, w p ≤ 1) : tally w pc ≤ Fintype.card Tid := by
  unfold tally
  exact (Finset.sum_le_card_nsmul _ _ 1 fun t _ => h (pc t)).trans (by simp)

theorem tally_pos_iff : 0 < tally w pc ↔ ∃ t, 0 < w (pc t) := by
  unfold tally
  rw [Finset.sum_pos_iff]
  simp

theorem tally_eq_zero_iff : tally w pc = 0 ↔ ∀ t, w (pc t) = 0 := by
  unfold tally
  rw [Finset.sum_eq_zero_iff]
  simp

end ThreadPool
