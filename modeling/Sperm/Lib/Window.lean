import Mathlib.Data.List.Basic
import Mathlib.Tactic.Common

/-!
# Windows of a list

* `window s a b`: the elements from `a` on, up to the one before `b`.
* `window_concat`, `window_cons`: one element more; `window_suffix`, a later start.
* **`infix_iff_window`**: the infixes of a list are its windows.
-/

namespace Window

variable {α : Type} {s w : List α} {a a' b : ℕ}

/-- The elements of `s` from `a` on, up to the one before `b`. -/
def window (s : List α) (a b : ℕ) : List α := (s.drop a).take (b - a)

theorem length_window (hb : b ≤ s.length) : (window s a b).length = b - a := by
  rw [window, List.length_take, List.length_drop]
  omega

theorem window_of_le (h : b ≤ a) : window s a b = [] := by
  rw [window, Nat.sub_eq_zero_of_le h, List.take_zero]

theorem window_concat (h : a ≤ b) (hb : b < s.length) :
    window s a (b + 1) = window s a b ++ [s[b]] := by
  have hlt : b - a < (s.drop a).length := by
    rw [List.length_drop]
    omega
  have hplace : a + (b - a) = b := Nat.add_sub_of_le h
  rw [window, window, Nat.sub_add_comm h, List.take_succ_eq_append_getElem hlt, List.getElem_drop]
  simp only [hplace]

theorem window_cons (h : a < b) (ha : a < s.length) :
    window s a b = s[a] :: window s (a + 1) b := by
  have hlen : b - a = b - (a + 1) + 1 := by omega
  rw [window, window, List.drop_eq_getElem_cons ha, hlen, List.take_succ_cons]

theorem window_suffix (h : a ≤ a') : window s a' b <:+ window s a b := by
  have hdrop : window s a' b = (window s a b).drop (a' - a) := by
    rw [window, window, List.drop_take, List.drop_drop, Nat.add_sub_of_le h, Nat.sub_sub,
      Nat.add_sub_of_le h]
  rw [hdrop]
  exact List.drop_suffix _ _

theorem window_infix (s : List α) (a b : ℕ) : window s a b <:+: s :=
  (List.take_prefix _ _).isInfix.trans (List.drop_suffix _ _).isInfix

/-- **The infixes** of a list are its windows. -/
theorem infix_iff_window : w <:+: s ↔ ∃ a b, a ≤ b ∧ b ≤ s.length ∧ window s a b = w := by
  constructor
  · rintro ⟨u, v, rfl⟩
    refine ⟨u.length, u.length + w.length, Nat.le_add_right _ _, ?_, ?_⟩
    · simp only [List.length_append]
      omega
    · rw [window, Nat.add_sub_cancel_left, List.append_assoc, List.drop_left, List.take_left]
  · rintro ⟨a, b, -, -, rfl⟩
    exact window_infix s a b

end Window
