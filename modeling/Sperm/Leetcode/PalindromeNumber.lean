import Sperm.Lib.Checked
import Sperm.Lib.Radix
import Sperm.Leetcode.Atoi

/-!
# Palindrome numbers (`palindrome-number.cc`)

The digits are taken from the number and put behind `v`, until there are none left or the next one
does not fit.

* `isPalindrome` with `loop`: the model, where `none` stands for a signed overflow.
* **`loop_spec`**: the loop compares `saved` with the number that the digits give, the last one
  first. What does not fit is larger than any `int`.
* **`isPalindrome_eq`**: the answer.
-/

namespace Sperm.Leetcode.PalindromeNumber

open Radix
open Atoi (INT_MAX)

/-- The loop, with `x` and `v`, and what follows it. -/
def loop (saved x v : ℤ) : Option Bool :=
  if x = 0 then some (v = saved)
  else do
    let b := x.tmod 10
    let room ← Checked.signed 32 (INT_MAX - b)
    if v > room.tdiv 10 then some false
    else
      let v ← Checked.signed 32 (v * 10)
      let v ← Checked.signed 32 (v + b)
      loop saved (x.tdiv 10) v
termination_by x.natAbs
decreasing_by
  rw [Int.natAbs_tdiv]
  exact Nat.div_lt_self (by omega) (by decide)

/-- `isPalindrome(x)`. -/
def isPalindrome (x : Int32) : Option Bool :=
  if x.toInt < 0 then some false else loop x.toInt x.toInt 0

theorem loop_step {n : ℕ} (hn : n ≠ 0) (saved : ℤ) (v : ℕ) :
    loop saved n v = if v * 10 + n % 10 < 2 ^ 31 then
      loop saved (n / 10 : ℕ) (v * 10 + n % 10 : ℕ) else some false := by
  have hb : (n : ℤ).tmod 10 = ((n % 10 : ℕ) : ℤ) := (Int.ofNat_tmod n 10).symm
  have hrest : (n : ℤ).tdiv 10 = ((n / 10 : ℕ) : ℤ) := (Int.ofNat_tdiv n 10).symm
  have hroom : Checked.signed 32 (INT_MAX - (n % 10 : ℕ)) = some (INT_MAX - (n % 10 : ℕ)) := by
    unfold INT_MAX
    exact Checked.signed_eq (by omega) (by omega)
  have hguard : (v : ℤ) > (INT_MAX - (n % 10 : ℕ)).tdiv 10 ↔ ¬ v * 10 + n % 10 < 2 ^ 31 := by
    unfold INT_MAX
    rw [Int.tdiv_eq_ediv_of_nonneg (by omega)]
    omega
  rw [loop, if_neg (Int.natCast_ne_zero.mpr hn), hb, hrest]
  dsimp only
  rw [hroom, Option.bind_eq_bind, Option.bind_some]
  by_cases hfit : v * 10 + n % 10 < 2 ^ 31
  · rw [if_neg (mt hguard.mp (not_not.mpr hfit)), if_pos hfit,
      Checked.signed_eq (by omega) (by omega), Option.bind_some,
      Checked.signed_eq (by omega) (by omega), Option.bind_some]
    rfl
  · rw [if_pos (hguard.mpr hfit), if_neg hfit]

/-- **The loop** reads the digits that are left behind those of `v`. -/
theorem loop_spec {saved : ℤ} (hsaved : saved ≤ INT_MAX) (n v : ℕ) :
    loop saved n v = some (decide ((read 10 v (Nat.digits 10 n) : ℤ) = saved)) := by
  induction n using Nat.strong_induction_on generalizing v with
  | _ n ih =>
    by_cases hn : n = 0
    · subst hn
      rw [loop, if_pos Int.natCast_zero, Nat.digits_zero, read_nil]
    · rw [loop_step hn, read_digits (by decide) hn]
      split_ifs with hfit
      · exact ih (n / 10) (by omega) _
      · -- the digits that are left make the number no smaller
        have hle := le_read (b := 10) (by decide) (v * 10 + n % 10) (Nat.digits 10 (n / 10))
        unfold INT_MAX at hsaved
        exact congrArg some (decide_eq_false (by omega)).symm

/-- **The answer**, for every `int` and with no overflow: whether the number is not negative and its
decimal digits are a palindrome. -/
theorem isPalindrome_eq (x : Int32) :
    isPalindrome x = some (decide (0 ≤ x.toInt ∧ (Nat.digits 10 x.toInt.natAbs).Palindrome)) := by
  unfold isPalindrome
  split_ifs with hneg
  · exact congrArg some (decide_eq_false fun h => not_lt.mpr h.1 hneg).symm
  · have hlt := x.toInt_lt
    obtain ⟨n, hn⟩ := Int.eq_ofNat_of_zero_le (not_lt.mp hneg)
    have hspec : loop n n 0 = _ := loop_spec (by unfold INT_MAX; omega) n 0
    rw [hn, hspec, Int.natAbs_natCast, Option.some_inj, decide_eq_decide, Nat.cast_inj,
      read_digits_eq_self_iff (by decide), and_iff_right (Int.natCast_nonneg n)]

end Sperm.Leetcode.PalindromeNumber
