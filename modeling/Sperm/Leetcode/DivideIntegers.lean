import Mathlib.Algebra.Order.Ring.Int
import Mathlib.Data.Int.Notation
import Mathlib.Tactic.Linarith
import Mathlib.Tactic.Ring
import Sperm.Lib.Checked
import Sperm.Lib.Loop

/-!
# Division by shifting and subtracting (`divide-two-integers.cc`)

The divisor is shifted as far to the left as a `long long` has room for it, and the quotient is
found bit by bit. `divide` on `int` divides the magnitudes, which are `long long`, too.

* `ll`: a value that has to be a `long long`; `none` stands for one that is not.
* `divide` with `divideLL`, `msb`: the model.
* `msb_spec`: the highest bit; `shiftLoop_eq`: the inner loop stays in range.
* **`divideLoop_eq`**: what is left of the dividend is divided by what is left of the loop.
* **`divide_spec`**: the quotients are rounded toward zero, and one of them is no `int`.
-/

namespace Sperm.Leetcode.DivideIntegers

/-- A value of the type `long long`. -/
def ll (x : ℤ) : Option ℤ := Checked.signed 64 x

/-- The pass of the loop in `msb` at `i`, with `divisior` and `n`. -/
def msbStep (s : ℤ × ℕ) (i : ℕ) : ℤ × ℕ := (s.1 / 2, if s.1 % 2 = 1 then i else s.2)

/-- `msb(divisior)`. -/
def msb (divisior : ℤ) : ℕ := ((List.range 63).foldl msbStep (divisior, 0)).2

/-- The inner loop: `i` shifts of `saved` and of `base`. -/
def shiftLoop : ℕ → ℤ → ℤ → Option (ℤ × ℤ)
  | 0, saved, base => some (saved, base)
  | i + 1, saved, base => do
    let saved ← ll (saved * 2)
    let base ← ll (base * 2)
    shiftLoop i saved base

/-- The loop of `divide(dividend, divisor, clear)`, from `i - 1` down to `0`. -/
def divideLoop (divisor : ℤ) : ℕ → ℤ → ℤ → Option (ℤ × ℤ)
  | 0, dividend, res => some (dividend, res)
  | i + 1, dividend, res => do
    let (saved, base) ← shiftLoop i divisor 1
    if dividend ≥ saved then
      let dividend ← ll (dividend - saved)
      let res ← ll (res + base)
      divideLoop divisor i dividend res
    else divideLoop divisor i dividend res

/-- `divide(dividend, divisor, clear)`: the result and `*clear`. -/
def divideLL (dividend divisor : ℤ) : Option (ℤ × Bool) := do
  let x := msb divisor
  let (dividend, res) ← divideLoop divisor (63 - x) dividend 0
  some (res, dividend = 0)

/-- `if(a < 0) { minus = !minus; a = -a; }`, and the same for `b`. -/
def magnitude (a : ℤ) (minus : Bool) : Option (ℤ × Bool) :=
  if a < 0 then (ll (-a)).map (·, !minus) else some (a, minus)

/-- `divide(dividend, divisor)`. -/
def divide (dividend divisor : Int32) : Option Int32 := do
  let (a, minus) ← magnitude dividend.toInt false
  let (b, minus) ← magnitude divisor.toInt minus
  let (c, _) ← divideLL a b
  let c ← (if minus then ll (-c) else some c)
  some (Int32.ofInt c)

theorem ll_eq {x : ℤ} (h : -2 ^ 63 ≤ x) (h' : x < 2 ^ 63) : ll x = some x :=
  Checked.signed_eq h h'

/-! ## The highest bit -/

/-- After `k` passes `n` is the highest of the first `k` bits. -/
theorem foldl_msbStep (b k : ℕ) :
    ∃ n, (List.range k).foldl msbStep ((b : ℤ), 0) = (((b / 2 ^ k : ℕ) : ℤ), n) ∧
      ((b % 2 ^ k = 0 ∧ n = 0) ∨ (2 ^ n ≤ b % 2 ^ k ∧ b % 2 ^ k < 2 ^ (n + 1))) := by
  refine Loop.foldl_range (P := fun k (st : ℤ × ℕ) => ∃ n, st = (((b / 2 ^ k : ℕ) : ℤ), n) ∧
    ((b % 2 ^ k = 0 ∧ n = 0) ∨ (2 ^ n ≤ b % 2 ^ k ∧ b % 2 ^ k < 2 ^ (n + 1)))) ?_ ?_
  · exact ⟨0, by simp, .inl ⟨Nat.mod_one b, rfl⟩⟩
  · rintro k - _ ⟨n, rfl, hn⟩
    have hdiv : ((b / 2 ^ k : ℕ) : ℤ) / 2 = ((b / 2 ^ (k + 1) : ℕ) : ℤ) := by
      rw [pow_succ, ← Nat.div_div_eq_div_mul]
      rfl
    have hmod : b % 2 ^ (k + 1) = b % 2 ^ k + 2 ^ k * (b / 2 ^ k % 2) := by
      rw [pow_succ, Nat.mod_mul]
    have hlt : b % 2 ^ k < 2 ^ k := Nat.mod_lt b (Nat.two_pow_pos k)
    simp only [msbStep, hdiv]
    by_cases hbit : b / 2 ^ k % 2 = 1
    · rw [if_pos (by omega)]
      refine ⟨k, rfl, .inr ?_⟩
      rw [hmod, hbit, pow_succ]
      omega
    · have hzero : b / 2 ^ k % 2 = 0 := by omega
      rw [if_neg (by omega)]
      refine ⟨n, rfl, ?_⟩
      rwa [hmod, hzero, Nat.mul_zero, Nat.add_zero]

theorem msb_spec {b : ℕ} (hpos : 0 < b) (hlt : b < 2 ^ 63) :
    msb b ≤ 62 ∧ 2 ^ msb b ≤ b ∧ b < 2 ^ (msb b + 1) := by
  obtain ⟨n, hfold, hn⟩ := foldl_msbStep b 63
  have hmsb : msb b = n := by rw [msb, hfold]
  rw [Nat.mod_eq_of_lt hlt] at hn
  obtain ⟨hle, hub⟩ := hn.resolve_left (by omega)
  have hsmall : n < 63 := (Nat.pow_lt_pow_iff_right (by decide)).mp (hle.trans_lt hlt)
  rw [hmsb]
  exact ⟨by omega, hle, hub⟩

/-! ## The loops -/

theorem shiftLoop_eq {i : ℕ} {saved base : ℤ} (hsaved : 0 ≤ saved) (hbase : 0 ≤ base)
    (hs : saved * 2 ^ i < 2 ^ 63) (hb : base * 2 ^ i < 2 ^ 63) :
    shiftLoop i saved base = some (saved * 2 ^ i, base * 2 ^ i) := by
  induction i generalizing saved base with
  | zero => simp [shiftLoop]
  | succ i ih =>
    have hone : (1 : ℤ) ≤ 2 ^ i := one_le_pow₀ (by norm_num)
    have hs' : saved * 2 * 2 ^ i < 2 ^ 63 := by rw [pow_succ] at hs; linarith
    have hb' : base * 2 * 2 ^ i < 2 ^ 63 := by rw [pow_succ] at hb; linarith
    have hs1 : saved * 2 < 2 ^ 63 := by nlinarith
    have hb1 : base * 2 < 2 ^ 63 := by nlinarith
    rw [shiftLoop, ll_eq (by linarith) hs1, ll_eq (by linarith) hb1]
    refine (ih (by linarith) (by linarith) hs' hb').trans ?_
    rw [pow_succ]
    ring_nf

/-- **The loop** divides what is left, if the quotient has no more bits than it has passes. -/
theorem divideLoop_eq {b : ℤ} {i : ℕ} {r q : ℤ} (hb : 0 < b) (hr : 0 ≤ r) (hq : 0 ≤ q)
    (hlt : r < b * 2 ^ i) (hi : b * 2 ^ i < 2 ^ 64) (hsum : q + r < 2 ^ 63) :
    divideLoop b i r q = some (r % b, q + r / b) := by
  induction i generalizing r q with
  | zero =>
    have hrb : r < b := by simpa using hlt
    rw [divideLoop, Int.emod_eq_of_lt hr hrb, Int.ediv_eq_zero_of_lt hr hrb, add_zero]
  | succ i ih =>
    have hdouble : b * 2 ^ (i + 1) = 2 * (b * 2 ^ i) := by ring
    have hone : (1 : ℤ) ≤ 2 ^ i := one_le_pow₀ (by norm_num)
    have hbase : (2 : ℤ) ^ i ≤ b * 2 ^ i := by nlinarith
    have hsaved : b * 2 ^ i < 2 ^ 63 := by linarith
    rw [divideLoop, shiftLoop_eq hb.le (by norm_num) hsaved (by linarith), one_mul]
    simp only [Option.bind_eq_bind, Option.bind_some]
    split_ifs with hle
    · rw [ll_eq (by linarith) (by linarith), ll_eq (by linarith) (by linarith)]
      refine (ih (by linarith) (by linarith) (by linarith) (by linarith) (by linarith)).trans ?_
      have hrest : r - b * 2 ^ i = r + -(2 ^ i) * b := by ring
      rw [hrest, Int.add_mul_emod_self_right, Int.add_mul_ediv_right _ _ hb.ne']
      congr 2
      ring
    · exact ih hr hq (not_le.mp hle) (by linarith) hsum

theorem divideLL_eq {a b : ℤ} (ha : 0 ≤ a) (ha' : a < 2 ^ 63) (hb : 0 < b) (hb' : b < 2 ^ 63) :
    divideLL a b = some (a / b, decide (b ∣ a)) := by
  lift b to ℕ using hb.le
  obtain ⟨hsmall, hle, hub⟩ := msb_spec (by exact_mod_cast hb) (by exact_mod_cast hb')
  have hle' : (2 : ℤ) ^ msb b ≤ b := by exact_mod_cast hle
  have hub' : (b : ℤ) < 2 ^ (msb b + 1) := by exact_mod_cast hub
  have hpos : (0 : ℤ) < 2 ^ (63 - msb b) := by positivity
  -- the shifts fill the `long long` and no more
  have hlow : (2 : ℤ) ^ 63 ≤ b * 2 ^ (63 - msb b) := by
    calc (2 : ℤ) ^ 63 = 2 ^ msb b * 2 ^ (63 - msb b) := by rw [← pow_add]; congr 1; omega
      _ ≤ b * 2 ^ (63 - msb b) := mul_le_mul_of_nonneg_right hle' hpos.le
  have hhigh : (b : ℤ) * 2 ^ (63 - msb b) < 2 ^ 64 := by
    calc (b : ℤ) * 2 ^ (63 - msb b) < 2 ^ (msb b + 1) * 2 ^ (63 - msb b) :=
          mul_lt_mul_of_pos_right hub' hpos
      _ = 2 ^ 64 := by rw [← pow_add]; congr 1; omega
  have hloop := divideLoop_eq hb ha le_rfl (ha'.trans_le hlow) hhigh (by linarith)
  rw [divideLL, hloop]
  simp only [Option.bind_eq_bind, Option.bind_some, zero_add, Int.dvd_iff_emod_eq_zero]

/-! ## The quotients of `int` -/

theorem tdiv_eq (x y : ℤ) : x.tdiv y =
    if (decide (x < 0)).xor (decide (y < 0)) then -(|x| / |y|) else |x| / |y| := by
  by_cases hx : x < 0
  · by_cases hy : y < 0
    · rw [abs_of_neg hx, abs_of_neg hy, ← Int.tdiv_eq_ediv_of_nonneg (by omega)]
      simp [hx, hy]
    · rw [abs_of_neg hx, abs_of_nonneg (by omega), ← Int.tdiv_eq_ediv_of_nonneg (by omega)]
      simp [hx, hy]
  · by_cases hy : y < 0
    · rw [abs_of_nonneg (by omega), abs_of_neg hy, ← Int.tdiv_eq_ediv_of_nonneg (by omega)]
      simp [hx, hy]
    · rw [abs_of_nonneg (by omega), abs_of_nonneg (by omega),
        ← Int.tdiv_eq_ediv_of_nonneg (by omega)]
      simp [hx, hy]

theorem magnitude_eq {x : ℤ} (h : -2 ^ 31 ≤ x) (minus : Bool) :
    magnitude x minus = some (|x|, minus.xor (decide (x < 0))) := by
  unfold magnitude
  by_cases hx : x < 0
  · rw [if_pos hx, ll_eq (by omega) (by omega), abs_of_neg hx]
    simp [hx]
  · rw [if_neg hx, abs_of_nonneg (by omega)]
    simp [hx]

theorem divide_eq {x y : Int32} (hy : y ≠ 0) :
    divide x y = some (Int32.ofInt (x.toInt.tdiv y.toInt)) := by
  have hx1 := x.le_toInt
  have hx2 := x.toInt_lt
  have hy1 := y.le_toInt
  have hy2 := y.toInt_lt
  have hy0 : y.toInt ≠ 0 := fun h => hy (Int32.toInt_inj.mp h)
  have ha : |x.toInt| ≤ 2 ^ 31 := abs_le.mpr ⟨by omega, by omega⟩
  have hb : |y.toInt| ≤ 2 ^ 31 := abs_le.mpr ⟨by omega, by omega⟩
  have hquot : |x.toInt| / |y.toInt| ≤ |x.toInt| := Int.ediv_le_self _ (abs_nonneg _)
  have hnonneg : 0 ≤ |x.toInt| / |y.toInt| := Int.ediv_nonneg (abs_nonneg _) (abs_nonneg _)
  have hll := divideLL_eq (abs_nonneg x.toInt) (by omega) (abs_pos.mpr hy0) (by omega)
  rw [divide, tdiv_eq]
  simp only [magnitude_eq hx1, magnitude_eq hy1, hll, Option.bind_eq_bind, Option.bind_some,
    Bool.false_xor]
  split_ifs
  · rw [ll_eq (by omega) (by omega), Option.bind_some]
  · rfl

/-- Only one quotient is no `int`. -/
theorem toInt_quotient {x y : Int32} (h : ¬ (x = Int32.minValue ∧ y = -1)) :
    (Int32.ofInt (x.toInt.tdiv y.toInt)).toInt = x.toInt.tdiv y.toInt := by
  have hx1 := x.le_toInt
  have hx2 := x.toInt_lt
  have hbound : -2 ^ 31 ≤ x.toInt.tdiv y.toInt ∧ x.toInt.tdiv y.toInt < 2 ^ 31 := by
    have habs : |x.toInt| ≤ 2 ^ 31 := abs_le.mpr ⟨by omega, by omega⟩
    by_cases hone : y.toInt = -1
    · have hx : x.toInt ≠ -2 ^ 31 := fun hx =>
        h ⟨Int32.toInt_inj.mp hx, Int32.toInt_inj.mp hone⟩
      rw [hone, Int.tdiv_neg, Int.tdiv_one]
      omega
    · by_cases hsmall : y.toInt = 0 ∨ y.toInt = 1
      · rcases hsmall with hy | hy
        · rw [hy, Int.tdiv_zero]
          omega
        · rw [hy, Int.tdiv_one]
          omega
      · have htwo : 2 ≤ |y.toInt| := by
          rw [le_abs]
          omega
        have hle : |x.toInt| / |y.toInt| ≤ 2 ^ 30 :=
          Int.ediv_le_of_le_mul (by omega) (by linarith)
        have hnonneg : 0 ≤ |x.toInt| / |y.toInt| := Int.ediv_nonneg (abs_nonneg _) (abs_nonneg _)
        rw [tdiv_eq]
        split_ifs
        · omega
        · omega
  rw [Int32.toInt_ofInt, Int32.size, Int.bmod]
  omega

/-- **Division** rounds toward zero and wraps for `INT_MIN / -1` only; on magnitudes that are
`long long` it stays in range and tells whether it leaves no rest. -/
theorem divide_spec :
    (∀ x y : Int32, y ≠ 0 → divide x y = some (Int32.ofInt (x.toInt.tdiv y.toInt)) ∧
        (¬ (x = Int32.minValue ∧ y = -1) →
          (Int32.ofInt (x.toInt.tdiv y.toInt)).toInt = x.toInt.tdiv y.toInt)) ∧
      ∀ a b : ℤ, 0 ≤ a → a < 2 ^ 63 → 0 < b → b < 2 ^ 63 →
        divideLL a b = some (a / b, decide (b ∣ a)) :=
  ⟨fun _ _ hy => ⟨divide_eq hy, toInt_quotient⟩, fun _ _ => divideLL_eq⟩

/-- `-7 / 2`, and `21 / 7` without a rest. -/
theorem divide_small :
    (divide (-7) 2 = some (Int32.ofInt (Int.tdiv (-7) 2)) ∧
        (Int32.ofInt (Int.tdiv (-7) 2)).toInt = Int.tdiv (-7) 2) ∧
      divideLL 21 7 = some (3, true) := by
  obtain ⟨hint, hll⟩ := divide_spec
  obtain ⟨hdiv, hexact⟩ := hint (-7) 2 (by decide)
  exact ⟨⟨hdiv, hexact (by decide)⟩, hll 21 7 (by decide) (by decide) (by decide) (by decide)⟩

end Sperm.Leetcode.DivideIntegers
