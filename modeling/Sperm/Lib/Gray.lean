import Mathlib.Data.List.NodupEquivFin
import Mathlib.Data.List.Range
import Mathlib.Data.Nat.Bitwise
import Mathlib.Tactic.Common

/-!
# The reflected code

* `gray i`: the number `i` in the code, where neighbours differ in one bit.
* `gray_div_two`, `gray_mod_two`: its recursion; **`gray_injective`**, `gray_lt`.
* **`gray_xor_pred`**: the bit that changes is that of the last one in the binary number.
* `gray_last`: the last code of some length.
* `OneBit a b`: exactly one bit differs; `oneBit_of_xor`.
-/

namespace Gray

variable {a b c i m n q : ℕ}

def gray (i : ℕ) : ℕ := i ^^^ (i / 2)

theorem gray_div_two (i : ℕ) : gray i / 2 = gray (i / 2) := Nat.xor_div_two

theorem gray_mod_two (i : ℕ) : gray i % 2 = (i + i / 2) % 2 := Nat.xor_mod_two_eq

theorem gray_lt (h : i < 2 ^ n) : gray i < 2 ^ n :=
  Nat.xor_lt_two_pow h ((Nat.div_le_self i 2).trans_lt h)

/-- **No two numbers have the same code.** -/
theorem gray_injective : Function.Injective gray := by
  intro a b h
  induction a using Nat.strong_induction_on generalizing b with
  | _ a ih =>
    have hdiv : gray (a / 2) = gray (b / 2) := by rw [← gray_div_two, h, gray_div_two]
    have hmod : (a + a / 2) % 2 = (b + b / 2) % 2 := by rw [← gray_mod_two, h, gray_mod_two]
    by_cases ha : a = 0
    · subst ha
      have hb : b = b / 2 := Nat.xor_eq_zero_iff.mp h.symm
      omega
    · have hhalf : a / 2 = b / 2 := ih (a / 2) (by omega) hdiv
      omega

/-- What differs between two codes, by the last bits. -/
theorem gray_xor_gray (a b : ℕ) : gray a ^^^ gray b =
    2 * (gray (a / 2) ^^^ gray (b / 2)) + (a + a / 2 + (b + b / 2)) % 2 := by
  have hdiv : (gray a ^^^ gray b) / 2 = gray (a / 2) ^^^ gray (b / 2) := by
    rw [Nat.xor_div_two, gray_div_two, gray_div_two]
  have hmod : (gray a ^^^ gray b) % 2 = (gray a + gray b) % 2 := Nat.xor_mod_two_eq
  have ha := gray_mod_two a
  have hb := gray_mod_two b
  omega

/-- **One step**: the bit that changes is that of the last one in the binary number. -/
theorem gray_xor_pred (hm : m = 2 ^ c * (2 * q + 1)) : gray m ^^^ gray (m - 1) = 2 ^ c := by
  rw [gray_xor_gray]
  induction c generalizing m with
  | zero =>
    rw [pow_zero, one_mul] at hm
    have hhalf : m / 2 = (m - 1) / 2 := by omega
    rw [hhalf, Nat.xor_self, pow_zero]
    omega
  | succ c ih =>
    obtain ⟨m', hm'⟩ : ∃ m', m' = 2 ^ c * (2 * q + 1) := ⟨_, rfl⟩
    have hpos : 0 < m' := hm' ▸ Nat.mul_pos (Nat.two_pow_pos c) (Nat.succ_pos _)
    rw [pow_succ, mul_right_comm, ← hm'] at hm
    have hhalf : m / 2 = m' := by omega
    have hpred : (m - 1) / 2 = m' - 1 := by omega
    rw [hhalf, hpred, gray_xor_gray, ih hm', pow_succ]
    omega

theorem gray_last (n : ℕ) : gray (2 ^ (n + 1) - 1) = 2 ^ n := by
  induction n with
  | zero => rfl
  | succ n ih =>
    have hpow : 2 ^ (n + 1 + 1) = 2 * 2 ^ (n + 1) := pow_succ' 2 (n + 1)
    have hpos := Nat.two_pow_pos (n + 1)
    have hhalf : (2 ^ (n + 1 + 1) - 1) / 2 = 2 ^ (n + 1) - 1 := by omega
    have hdiv := gray_div_two (2 ^ (n + 1 + 1) - 1)
    have hmod := gray_mod_two (2 ^ (n + 1 + 1) - 1)
    have hpow' : 2 ^ (n + 1) = 2 * 2 ^ n := pow_succ' 2 n
    rw [hhalf, ih] at hdiv
    rw [hhalf] at hmod
    omega

theorem map_gray_perm (n : ℕ) : ((List.range (2 ^ n)).map gray).Perm (List.range (2 ^ n)) := by
  have hnodup : ((List.range (2 ^ n)).map gray).Nodup := List.nodup_range.map gray_injective
  refine (List.subperm_of_subset hnodup ?_).perm_of_length_le (by simp)
  intro x hx
  obtain ⟨i, hi, rfl⟩ := List.mem_map.mp hx
  exact List.mem_range.mpr (gray_lt (List.mem_range.mp hi))

/-! ## One bit -/

/-- Exactly one bit is different. -/
def OneBit (a b : ℕ) : Prop := ∃! k, a.testBit k ≠ b.testBit k

theorem oneBit_of_xor (h : a ^^^ b = 2 ^ c) : OneBit a b := by
  have hbit : ∀ k, a.testBit k ≠ b.testBit k ↔ c = k := by
    intro k
    rw [← Bool.xor_iff_ne, ← Nat.testBit_xor, h, Nat.testBit_two_pow, decide_eq_true_iff]
  exact ⟨c, (hbit c).mpr rfl, fun k hk => ((hbit k).mp hk).symm⟩

end Gray
