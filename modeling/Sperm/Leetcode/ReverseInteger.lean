import Sperm.Lib.Checked
import Sperm.Lib.Radix
import Sperm.Leetcode.Atoi

/-!
# Reversing an integer (`reverse-integer.cc`)

The digits of the absolute value are put into a string, the last one first, and the string is read
as a number.

* `reverse` with `digitsLoop`, `valueLoop`, `negate`: the model, where `none` stands for a signed
  overflow.
* `digitsLoop_eq`: what the string has. **`valueLoop_map`**: its value, if it fits.
* `Short`: a number of at most nine digits, or one whose digits, the last one first, come before
  those of `2147483648`. `short_iff`: those are the numbers for which everything fits.
* `reverse_of_short`, `reverse_of_not_short`, **`reverse_iff`**: the result.
-/

namespace Sperm.Leetcode.ReverseInteger

open Radix
open ValidNumber (isdigit)
open Atoi (digit)

/-- `(x % 10) + '0'`. -/
def lastDigit (x : ℤ) : UInt8 := UInt8.ofInt (x.tmod 10 + 48)

/-- The first loop, with `x` and `s`. -/
def digitsLoop (x : ℤ) (s : List UInt8) : List UInt8 :=
  if x = 0 then s else digitsLoop (x.tdiv 10) (s ++ [lastDigit x])
termination_by x.natAbs
decreasing_by
  rw [Int.natAbs_tdiv]
  exact Nat.div_lt_self (by omega) (by decide)

/-- `v * 10 + (ch - '0')`. -/
def step (v : ℤ) (ch : UInt8) : Option ℤ := do
  let v ← Checked.signed 32 (v * 10)
  Checked.signed 32 (v + digit ch)

/-- The second loop, with `v`. -/
def valueLoop (s : List UInt8) (v : ℤ) : Option ℤ := s.foldlM step v

/-- `-x`, if `flip` says so. -/
def negate (flip : Bool) (x : ℤ) : Option ℤ := if flip then Checked.signed 32 (-x) else some x

/-- `reverse(x)`: the string `s` and the result. -/
def reverse (x : Int32) : Option (List UInt8 × ℤ) := do
  let flip : Bool := x.toInt < 0
  let x ← negate flip x.toInt
  let s := digitsLoop x []
  let v ← valueLoop s 0
  let v ← negate flip v
  some (s, v)

/-! ## The string -/

/-- The character of a digit. -/
def character (d : ℕ) : UInt8 := UInt8.ofNat (d + 48)

variable {d n v : ℕ} {l : List ℕ} {x : Int32}

theorem toNat_character (hd : d < 10) : (character d).toNat = d + 48 := by
  rw [character, UInt8.toNat_ofNat']
  omega

theorem isdigit_character (hd : d < 10) : isdigit (character d) = true := by
  have hchar := toNat_character hd
  have h0 : (0x30 : UInt8).toNat = 48 := rfl
  have h9 : (0x39 : UInt8).toNat = 57 := rfl
  simp only [isdigit, Bool.and_eq_true, decide_eq_true_eq, UInt8.le_iff_toNat_le]
  omega

theorem digit_character (hd : d < 10) : digit (character d) = d := by
  have hchar := toNat_character hd
  unfold digit
  omega

theorem lastDigit_eq (n : ℕ) : lastDigit n = character (n % 10) := by
  have hb : (n : ℤ).tmod 10 = ((n % 10 : ℕ) : ℤ) := (Int.ofNat_tmod n 10).symm
  rw [lastDigit, hb, UInt8.ofInt, character]
  congr 1
  omega

/-- **The string** has the digits, the last one first. -/
theorem digitsLoop_eq (n : ℕ) (s : List UInt8) :
    digitsLoop n s = s ++ (Nat.digits 10 n).map character := by
  induction n using Nat.strong_induction_on generalizing s with
  | _ n ih =>
    rw [digitsLoop]
    by_cases hn : n = 0
    · subst hn
      rw [if_pos Int.natCast_zero, Nat.digits_zero, List.map_nil, List.append_nil]
    · have hrest : (n : ℤ).tdiv 10 = ((n / 10 : ℕ) : ℤ) := (Int.ofNat_tdiv n 10).symm
      rw [if_neg (Int.natCast_ne_zero.mpr hn), hrest, lastDigit_eq, ih (n / 10) (by omega),
        Nat.digits_eq_cons_digits_div (by decide) hn, List.map_cons, List.append_assoc,
        List.singleton_append]

/-! ## The value -/

theorem step_eq (v : ℕ) (hd : d < 10) :
    step v (character d) = if v * 10 + d < 2 ^ 31 then some ((v * 10 + d : ℕ) : ℤ) else none := by
  unfold step
  rw [digit_character hd]
  by_cases hmul : v * 10 < 2 ^ 31
  · rw [Checked.signed_eq (by omega) (by omega), Option.bind_eq_bind, Option.bind_some]
    split_ifs with hfit
    · exact Checked.signed_eq (by omega) (by omega)
    · exact if_neg (by omega)
  · have hnone : Checked.signed 32 ((v : ℤ) * 10) = none := if_neg (by omega)
    rw [hnone, if_neg (by omega)]
    rfl

/-- **The value** of the string behind the digits of `v`, unless it is too large. -/
theorem valueLoop_map (v : ℕ) (hv : v < 2 ^ 31) (hl : ∀ d ∈ l, d < 10) :
    valueLoop (l.map character) v =
      if read 10 v l < 2 ^ 31 then some (read 10 v l : ℤ) else none := by
  induction l generalizing v with
  | nil => exact (if_pos hv).symm
  | cons d l ih =>
    obtain ⟨hd, hl⟩ := List.forall_mem_cons.mp hl
    rw [valueLoop, List.map_cons, List.foldlM_cons, step_eq v hd, read_cons]
    split_ifs with hfit hread hread
    · rw [Option.bind_eq_bind, Option.bind_some]
      exact (ih _ hfit hl).trans (if_pos hread)
    · rw [Option.bind_eq_bind, Option.bind_some]
      exact (ih _ hfit hl).trans (if_neg hread)
    · exact absurd ((le_read (by decide) _ l).trans_lt hread) hfit
    · rfl

/-! ## The result -/

/-- The digits of `n`, the last one first, are those of an `int`: there are at most nine of them, or
they come before those of `2147483648`. -/
def Short (n : ℕ) : Prop :=
  n < 10 ^ 9 ∨ List.Lex (· < ·) (Nat.digits 10 n) [2, 1, 4, 7, 4, 8, 3, 6, 4, 8]

theorem read_lt_of_lt (h : n < 10 ^ 9) : read 10 0 (Nat.digits 10 n) < 2 ^ 31 := by
  have hlen : (Nat.digits 10 n).length ≤ 9 := (Nat.digits_length_le_iff (by decide) n).mpr h
  calc read 10 0 (Nat.digits 10 n) < (0 + 1) * 10 ^ (Nat.digits 10 n).length :=
        read_lt 0 fun d hd => Nat.digits_lt_base (by decide) hd
    _ ≤ 10 ^ 9 := by
        rw [zero_add, one_mul]
        exact Nat.pow_le_pow_right (by decide) hlen
    _ < 2 ^ 31 := by decide

theorem not_short_intMin : ¬ Short (2 ^ 31) := by
  have hdigits : Nat.digits 10 (2 ^ 31) = [8, 4, 6, 3, 8, 4, 7, 4, 1, 2] := by norm_num
  rw [Short, hdigits]
  decide

/-- **Short numbers** are those for which nothing is too large. -/
theorem short_iff (hn : n ≤ 2 ^ 31) :
    Short n ↔ n < 2 ^ 31 ∧ read 10 0 (Nat.digits 10 n) < 2 ^ 31 := by
  by_cases h : n < 10 ^ 9
  · exact iff_of_true (.inl h) ⟨by omega, read_lt_of_lt h⟩
  · have hle : (Nat.digits 10 n).length ≤ 10 :=
      (Nat.digits_length_le_iff (by decide) n).mpr (by omega)
    have hgt : 9 < (Nat.digits 10 n).length :=
      (Nat.lt_digits_length_iff (by decide) n).mpr (not_lt.mp h)
    have hlen : (Nat.digits 10 n).length = [2, 1, 4, 7, 4, 8, 3, 6, 4, 8].length :=
      le_antisymm hle hgt
    have horder : read 10 0 (Nat.digits 10 n) < 2 ^ 31 ↔ _ :=
      read_lt_iff 0 hlen (fun d hd => Nat.digits_lt_base (by decide) hd) (by decide)
    rw [horder]
    constructor
    · intro hshort
      refine ⟨lt_of_le_of_ne hn ?_, hshort.resolve_left h⟩
      rintro rfl
      exact not_short_intMin hshort
    · exact fun hlex => .inr hlex.2

theorem negate_natAbs (x : Int32) : negate (x.toInt < 0) x.toInt =
    if x.toInt.natAbs < 2 ^ 31 then some (x.toInt.natAbs : ℤ) else none := by
  have hlt := x.toInt_lt
  have hle := x.le_toInt
  unfold negate
  by_cases hneg : x.toInt < 0
  · rw [decide_eq_true hneg, if_pos rfl]
    split_ifs with hfit
    · rw [Checked.signed_eq (by omega) (by omega)]
      exact congrArg some (by omega)
    · exact if_neg (by omega)
  · rw [decide_eq_false hneg, if_neg Bool.false_ne_true, if_pos (by omega)]
    exact congrArg some (by omega)

/-- The value of the reversed digits, with the sign of `x`. -/
def value (x : Int32) : ℤ :=
  if x.toInt < 0 then -(read 10 0 (Nat.digits 10 x.toInt.natAbs) : ℤ)
  else read 10 0 (Nat.digits 10 x.toInt.natAbs)

theorem negate_read (x : Int32) (h : read 10 0 (Nat.digits 10 x.toInt.natAbs) < 2 ^ 31) :
    negate (x.toInt < 0) (read 10 0 (Nat.digits 10 x.toInt.natAbs)) = some (value x) := by
  unfold negate value
  by_cases hneg : x.toInt < 0
  · rw [decide_eq_true hneg, if_pos rfl, if_pos hneg]
    exact Checked.signed_eq (by omega) (by omega)
  · rw [decide_eq_false hneg, if_neg Bool.false_ne_true, if_neg hneg]

theorem reverse_of_short (h : Short x.toInt.natAbs) :
    reverse x = some ((Nat.digits 10 x.toInt.natAbs).map character, value x) := by
  have hlt := x.toInt_lt
  have hle := x.le_toInt
  obtain ⟨habs, hread⟩ := (short_iff (by omega)).mp h
  have hvalue := valueLoop_map 0 (by decide) (l := Nat.digits 10 x.toInt.natAbs) fun d hd =>
    Nat.digits_lt_base (by decide) hd
  rw [if_pos hread] at hvalue
  unfold reverse
  dsimp only
  rw [negate_natAbs, if_pos habs, Option.bind_eq_bind, Option.bind_some, digitsLoop_eq,
    List.nil_append]
  exact (congrArg (Option.bind · _) hvalue).trans
    (congrArg (Option.bind · _) (negate_read x hread))

theorem reverse_of_not_short (h : ¬ Short x.toInt.natAbs) : reverse x = none := by
  have hlt := x.toInt_lt
  have hle := x.le_toInt
  rw [short_iff (by omega), not_and] at h
  unfold reverse
  dsimp only
  rw [negate_natAbs]
  split_ifs with habs
  · have hvalue := valueLoop_map 0 (by decide) (l := Nat.digits 10 x.toInt.natAbs) fun d hd =>
      Nat.digits_lt_base (by decide) hd
    rw [if_neg (h habs)] at hvalue
    rw [Option.bind_eq_bind, Option.bind_some, digitsLoop_eq, List.nil_append]
    exact congrArg (Option.bind · _) hvalue
  · rfl

theorem sign_value (x : Int32) : (value x).sign = x.toInt.sign := by
  unfold value
  by_cases hzero : x.toInt = 0
  · rw [hzero]
    rfl
  · have hpos : 0 < read 10 0 (Nat.digits 10 x.toInt.natAbs) :=
      read_digits_pos (by decide) (Int.natAbs_ne_zero.mpr hzero)
    split_ifs with hneg
    · rw [Int.sign_eq_neg_one_of_neg hneg, Int.sign_eq_neg_one_of_neg (by omega)]
    · rw [Int.sign_eq_one_of_pos (by omega), Int.sign_eq_one_of_pos (by omega)]

theorem natAbs_value (x : Int32) :
    (value x).natAbs = Nat.ofDigits 10 (Nat.digits 10 x.toInt.natAbs).reverse := by
  unfold value
  rw [← read_eq_ofDigits]
  split_ifs
  · rw [Int.natAbs_neg, Int.natAbs_natCast]
  · rw [Int.natAbs_natCast]

/-- **The number in reverse** comes out exactly for short numbers. -/
theorem reverse_iff (x : Int32) :
    (∃ s v, reverse x = some (s, v) ∧ (∀ c ∈ s, isdigit c = true) ∧ v.sign = x.toInt.sign ∧
      v.natAbs = Nat.ofDigits 10 (Nat.digits 10 x.toInt.natAbs).reverse) ↔
        Short x.toInt.natAbs := by
  constructor
  · rintro ⟨s, v, hcall, -⟩
    by_contra h
    rw [reverse_of_not_short h] at hcall
    cases hcall
  · intro h
    refine ⟨_, _, reverse_of_short h, fun c hc => ?_, sign_value x, natAbs_value x⟩
    obtain ⟨d, hd, rfl⟩ := List.mem_map.mp hc
    exact isdigit_character (Nat.digits_lt_base (by decide) hd)

/-- The reversed digits of `1000000003` are `3000000001`. -/
theorem not_reverse_large : ¬ ∃ s v, reverse 1000000003 = some (s, v) ∧
    (∀ c ∈ s, isdigit c = true) ∧ v.sign = (1000000003 : Int32).toInt.sign ∧
      v.natAbs = Nat.ofDigits 10 (Nat.digits 10 (1000000003 : Int32).toInt.natAbs).reverse := by
  have hdigits : Nat.digits 10 1000000003 = [3, 0, 0, 0, 0, 0, 0, 0, 0, 1] := by norm_num
  have hlong : ¬ Short (1000000003 : Int32).toInt.natAbs := by
    have habs : (1000000003 : Int32).toInt.natAbs = 1000000003 := by decide
    rw [habs, Short, hdigits]
    decide
  rintro ⟨s, v, hcall, -⟩
  rw [reverse_of_not_short hlong] at hcall
  cases hcall

end Sperm.Leetcode.ReverseInteger
