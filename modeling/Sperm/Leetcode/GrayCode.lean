import Mathlib.Algebra.Group.Nat.Even
import Sperm.Lib.Gray
import Sperm.Lib.Loop

/-!
# Gray codes (`gray-code.cc`)

A number follows from the one before it: the bit is flipped that has the place of the last one in
the index.

* `grayCode` with `shl`, `zeros`, `body`: the model, where `none` stands for a shift that `int` has
  no room for. What is printed is left out.
* `zeros_spec`: the place of the last one.
* `body_spec`, **`loop_spec`**: the entry at `i` is the reflected code of `i`.
* **`grayCode_spec`**: all numbers of `n` bits, neighbours differing in one bit.
-/

namespace Sperm.Leetcode.GrayCode

open Gray

/-- `1 << c`. -/
def shl (c : ℕ) : Option ℕ := if 2 ^ c < 2 ^ 31 then some (1 <<< c) else none

theorem shiftRight_pos {idx : ℕ} (h : 0 < idx) (heven : idx &&& 1 = 0) : 0 < idx >>> 1 := by
  rw [Nat.and_one_is_mod] at heven
  rw [Nat.shiftRight_one]
  omega

/-- The inner loop, with `c` and `idx`. -/
def zeros (c idx : ℕ) (h : 0 < idx) : ℕ :=
  if heven : idx &&& 1 = 0 then zeros (c + 1) (idx >>> 1) (shiftRight_pos h heven) else c
termination_by idx
decreasing_by
  rw [Nat.shiftRight_one]
  omega

/-- The pass of the outer loop for `i + 1`, with `v` and `rs`. -/
def body (st : ℕ × List ℕ) (i : ℕ) : Option (ℕ × List ℕ) := do
  let c := zeros 0 (i + 1) i.succ_pos
  let v := st.1 ^^^ (← shl c)
  some (v, st.2 ++ [v])

/-- `grayCode(n)`. -/
def grayCode (n : ℕ) : Option (List ℕ) := do
  let stop ← shl n
  let st ← (List.range (stop - 1)).foldlM body (0, [0])
  some st.2

variable {c i idx n : ℕ}

theorem shl_eq (h : 2 ^ c < 2 ^ 31) : shl c = some (2 ^ c) := by
  rw [shl, if_pos h, Nat.one_shiftLeft]

/-- **The inner loop** finds the place of the last one. -/
theorem zeros_spec (c : ℕ) (h : 0 < idx) :
    ∃ k q, idx = 2 ^ k * (2 * q + 1) ∧ zeros c idx h = c + k := by
  fun_induction zeros c idx h with
  | case1 c idx h heven ih =>
    obtain ⟨k, q, hidx, hzeros⟩ := ih
    rw [Nat.and_one_is_mod] at heven
    rw [Nat.shiftRight_one] at hidx
    refine ⟨k + 1, q, ?_, by omega⟩
    rw [pow_succ, mul_right_comm, ← hidx]
    omega
  | case2 c idx h hodd =>
    rw [Nat.and_one_is_mod] at hodd
    refine ⟨0, idx / 2, ?_, rfl⟩
    rw [pow_zero, one_mul]
    omega

/-- **One pass** appends the next code. -/
theorem body_spec (hi : i + 1 < 2 ^ 31) (rs : List ℕ) :
    body (gray i, rs) i = some (gray (i + 1), rs ++ [gray (i + 1)]) := by
  obtain ⟨k, q, hidx, hzeros⟩ := zeros_spec 0 i.succ_pos
  have hk : 2 ^ k < 2 ^ 31 := by
    refine lt_of_le_of_lt ?_ hi
    rw [← Nat.succ_eq_add_one, hidx]
    exact Nat.le_mul_of_pos_right _ (Nat.succ_pos _)
  have hflip : gray i ^^^ 2 ^ k = gray (i + 1) := by
    rw [← gray_xor_pred hidx, Nat.succ_sub_one, Nat.xor_comm, Nat.xor_assoc, Nat.xor_self,
      Nat.xor_zero]
  rw [zero_add] at hzeros
  simp only [body, hzeros, shl_eq hk, Option.bind_eq_bind, Option.bind_some, hflip]

/-- **The outer loop** has found the codes up to `m`. -/
theorem loop_spec {m : ℕ} (hm : m < 2 ^ 31) :
    (List.range m).foldlM body (0, [0]) = some (gray m, (List.range (m + 1)).map gray) := by
  obtain ⟨st, hloop, hst⟩ := Loop.foldlM_range (f := body) (s := (0, [0])) (n := m)
    (P := fun i st => st = (gray i, (List.range (i + 1)).map gray)) rfl (by
      rintro i hi st rfl
      refine ⟨_, body_spec (by omega) _, ?_⟩
      rw [List.range_succ (n := i + 1), List.map_append, List.map_singleton])
  rw [hloop, hst]

theorem grayCode_eq (h : 2 ^ n < 2 ^ 31) :
    grayCode n = some ((List.range (2 ^ n)).map gray) := by
  have hpos := Nat.two_pow_pos n
  simp only [grayCode, shl_eq h, Option.bind_eq_bind, Option.bind_some,
    loop_spec ((Nat.sub_le _ 1).trans_lt h), Nat.sub_add_cancel hpos]

theorem isChain_gray (m : ℕ) : ((List.range (m + 1)).map gray).IsChain OneBit := by
  rw [List.isChain_map, List.isChain_range_succ]
  intro i hi
  obtain ⟨k, q, hidx, -⟩ := zeros_spec 0 i.succ_pos
  have hxor := gray_xor_pred hidx
  rw [Nat.succ_sub_one, Nat.xor_comm] at hxor
  exact oneBit_of_xor hxor

/-- **The codes** start with `0`, and they are the numbers of `n` bits, neighbours differing in one
bit, in a circle. -/
theorem grayCode_spec (n : ℕ) (h : 2 ^ n < 2 ^ 31) :
    ∃ rs, grayCode n = some rs ∧ rs.head? = some 0 ∧ rs.Perm (List.range (2 ^ n)) ∧
      rs.IsChain OneBit ∧ (1 ≤ n → ∃ last, rs.getLast? = some last ∧ OneBit last 0) := by
  refine ⟨_, grayCode_eq h, ?_, map_gray_perm n, ?_, ?_⟩
  · obtain ⟨m, hm⟩ := Nat.exists_eq_add_of_lt (Nat.two_pow_pos n)
    rw [hm, zero_add, List.range_succ_eq_map]
    rfl
  · obtain ⟨m, hm⟩ := Nat.exists_eq_add_of_lt (Nat.two_pow_pos n)
    rw [hm, zero_add]
    exact isChain_gray m
  · intro hn
    obtain ⟨m, rfl⟩ := Nat.exists_eq_add_of_le' hn
    have hpos := Nat.two_pow_pos (m + 1)
    refine ⟨gray (2 ^ (m + 1) - 1), ?_, ?_⟩
    · rw [List.getLast?_map, List.getLast?_range, if_neg hpos.ne']
      rfl
    · rw [gray_last]
      exact oneBit_of_xor (Nat.xor_zero _)

/-- Two bits. -/
theorem grayCode_two : 2 ^ 2 < 2 ^ 31 ∧
    ∃ rs, grayCode 2 = some rs ∧ rs.head? = some 0 ∧ rs.Perm (List.range (2 ^ 2)) ∧
      rs.IsChain OneBit ∧ (1 ≤ 2 → ∃ last, rs.getLast? = some last ∧ OneBit last 0) :=
  ⟨by decide, grayCode_spec 2 (by decide)⟩

end Sperm.Leetcode.GrayCode
