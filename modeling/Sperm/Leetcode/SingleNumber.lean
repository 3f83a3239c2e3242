import Mathlib.Data.List.Dedup
import Mathlib.Data.List.Perm.Basic
import Mathlib.Data.Nat.Notation
import Mathlib.Logic.Function.Basic
import Sperm.Lib.Loop

/-!
# The value that is not there three times (`single-number-2.cc`)

Every bit has a counter modulo `3`. What three equal values add goes away, so that the counters end
up with the bits of the other value.

* `singleNumber` with `R`, `S`: the model, in the arithmetic of `int`, where shifts to the right
  keep the sign and `code << 1` wraps around.
* **`R_spec`**: what one value adds to the counters; `foldl_R`, what a list adds.
* `exists_triples`: all values but one, three times each.
* **`S_spec`**: the number is put together bit by bit.
* **`singleNumber_spec`**: the value that occurs once.
-/

namespace Sperm.Leetcode.SingleNumber

/-- What is in `mask`. -/
abbrev Mask := ℕ → Int32

/-- The body of the loop in `R`. -/
def step (st : Int32 × Mask) (i : ℕ) : Int32 × Mask :=
  (st.1 >>> 1,
    if st.1 &&& 1 ≠ 0 then Function.update st.2 i ((st.2 i + 1) % 3) else st.2)

/-- `R(a, mask)`. -/
def R (a : Int32) (mask : Mask) : Mask := ((List.range 32).foldl step (a, mask)).2

/-- `S(mask)`, with the loop from `31` down. -/
def S (mask : Mask) : Int32 :=
  (List.range 32).reverse.foldl (fun code i => (code <<< 1) + mask i) 0

/-- `singleNumber(A, n)`, where `n` is the length of `A`. -/
def singleNumber (A : List Int32) : Int32 := S (A.foldl (fun mask a => R a mask) fun _ => 0)

variable {a x : Int32} {mask : Mask} {A l : List Int32} {i j n : ℕ}

/-! ## The counters -/

/-- Bit `i` of `a`. -/
def bit (a : Int32) (i : ℕ) : Bool := a.toBitVec.getLsbD i

theorem and_one_ne_zero_iff : a &&& 1 ≠ 0 ↔ bit a 0 = true := by
  rw [ne_eq, ← Int32.toBitVec_inj, Int32.toBitVec_and]
  change ¬ a.toBitVec &&& 1#32 = 0#32 ↔ _
  rw [BitVec.and_one_eq_setWidth_ofBool_getLsbD]
  unfold bit
  cases a.toBitVec.getLsbD 0 with
  | true => decide
  | false => decide

theorem bit_shiftRight (h : i + 1 < 32) : bit (a >>> 1) i = bit a (i + 1) := by
  have hshift : (a >>> 1).toBitVec = a.toBitVec.sshiftRight 1 := by
    rw [Int32.toBitVec_shiftRight]
    rfl
  rw [bit, hshift, BitVec.getLsbD_sshiftRight, if_pos (by omega), Nat.add_comm 1 i]
  simp [bit, Nat.lt_of_succ_lt h]

/-- One value more, where it has the bit of the counter. -/
def counted (a : Int32) (mask : Mask) (j : ℕ) : Int32 :=
  if bit a j then (mask j + 1) % 3 else mask j

/-- **One value** is counted for each of its bits. -/
theorem R_spec (a : Int32) (mask : Mask) (hj : j < 32) : R a mask j = counted a mask j := by
  have hloop := Loop.foldl_range (f := step) (s := (a, mask)) (n := 32)
    (P := fun i (st : Int32 × Mask) => (∀ k, k + i < 32 → bit st.1 k = bit a (k + i)) ∧
      ∀ k, st.2 k = if k < i then counted a mask k else mask k) ?_ ?_
  · exact (hloop.2 j).trans (if_pos hj)
  · exact ⟨fun k _ => rfl, fun k => (if_neg k.not_lt_zero).symm⟩
  · rintro i hi ⟨b, m⟩ ⟨hbits, hmask⟩
    have hlow : bit b 0 = bit a i := by simpa using hbits 0 (by omega)
    have hcell : m i = mask i := (hmask i).trans (if_neg i.lt_irrefl)
    constructor
    · intro k hk
      rw [step, bit_shiftRight (by omega), hbits (k + 1) (by omega), Nat.add_right_comm,
        Nat.add_assoc]
    · intro k
      rw [step]
      dsimp only
      by_cases hk : k = i
      · subst hk
        rw [if_pos k.lt_succ_self, counted, ← hlow]
        by_cases hbit : b &&& 1 ≠ 0
        · rw [if_pos hbit, if_pos (and_one_ne_zero_iff.mp hbit), Function.update_self, hcell]
        · rw [if_neg hbit, if_neg (mt and_one_ne_zero_iff.mpr hbit), hcell]
      · have hframe : (if b &&& 1 ≠ 0 then Function.update m i ((m i + 1) % 3) else m) k = m k := by
          split_ifs
          · exact Function.update_of_ne hk _ _
          · rfl
        have hlt : k < i + 1 ↔ k < i := by omega
        rw [hframe]
        simp only [hlt]
        exact hmask k

theorem add_one_mod_three (c : ℕ) :
    (Int32.ofNat (c % 3) + 1) % 3 = Int32.ofNat ((c + 1) % 3) := by
  have hmod : c % 3 = 0 ∧ (c + 1) % 3 = 1 ∨ c % 3 = 1 ∧ (c + 1) % 3 = 2 ∨
      c % 3 = 2 ∧ (c + 1) % 3 = 0 := by omega
  rcases hmod with ⟨h, h'⟩ | ⟨h, h'⟩ | ⟨h, h'⟩
  all_goals
    rw [h, h']
    decide

/-- **A list** is counted for each bit of its values. -/
theorem foldl_R (A : List Int32) {c : ℕ} (hj : j < 32) (hmask : mask j = Int32.ofNat (c % 3)) :
    A.foldl (fun mask a => R a mask) mask j = Int32.ofNat ((c + A.countP (bit · j)) % 3) := by
  induction A generalizing mask c with
  | nil => exact hmask
  | cons a A ih =>
    rw [List.foldl_cons]
    have hcount := R_spec a mask hj
    rw [counted, hmask] at hcount
    by_cases hbit : bit a j = true
    · rw [if_pos hbit, add_one_mod_three] at hcount
      rw [ih hcount, List.countP_cons, if_pos hbit, Nat.add_right_comm, Nat.add_assoc]
    · rw [if_neg hbit] at hcount
      rw [ih hcount, List.countP_cons, if_neg hbit, Nat.add_zero]

/-! ## Three times -/

/-- All values but one come in threes. -/
theorem exists_triples (hx : A.count x = 1) (h3 : ∀ y ∈ A, y ≠ x → A.count y = 3) :
    ∃ m, A.Perm (x :: (m ++ (m ++ m))) := by
  refine ⟨(A.filter (· ≠ x)).dedup, List.perm_iff_count.mpr fun y => ?_⟩
  rw [List.count_cons, List.count_append, List.count_append, List.count_dedup]
  by_cases hy : y = x
  · simp [hy, hx]
  · by_cases hmem : y ∈ A
    · simp [hy, Ne.symm hy, List.mem_filter, hmem, h3 y hmem hy]
    · simp [hy, Ne.symm hy, List.mem_filter, hmem, List.count_eq_zero_of_not_mem hmem]

/-- The counters at the end have the bits of the other value. -/
theorem counters_eq (hx : A.count x = 1) (h3 : ∀ y ∈ A, y ≠ x → A.count y = 3) (hj : j < 32) :
    A.foldl (fun mask a => R a mask) (fun _ => 0) j = if bit x j then 1 else 0 := by
  obtain ⟨m, hperm⟩ := exists_triples hx h3
  have hcount : A.countP (bit · j) =
      3 * m.countP (bit · j) + if bit x j then 1 else 0 := by
    rw [hperm.countP_eq, List.countP_cons, List.countP_append, List.countP_append]
    omega
  rw [foldl_R A (c := 0) hj rfl, hcount]
  split_ifs with hbit
  · have hmod : (0 + (3 * m.countP (bit · j) + 1)) % 3 = 1 := by omega
    rw [hmod]
    rfl
  · have hmod : (0 + (3 * m.countP (bit · j) + 0)) % 3 = 0 := by omega
    rw [hmod]
    rfl

/-! ## The number -/

theorem push_bit (x : Int32) {code b : Int32} {k : ℕ}
    (hcode : code.toBitVec = x.toBitVec >>> (k + 1)) (hb : b = if bit x k then 1 else 0) :
    ((code <<< 1) + b).toBitVec = x.toBitVec >>> k := by
  have hshift : (code <<< 1).toBitVec = code.toBitVec <<< 1 := by
    rw [Int32.toBitVec_shiftLeft]
    rfl
  have hlow : b.toBitVec.toNat = x.toBitVec.toNat / 2 ^ k % 2 := by
    rw [hb, bit, ← BitVec.testBit_toNat, Nat.testBit_eq_decide_div_mod_eq]
    by_cases h : x.toBitVec.toNat / 2 ^ k % 2 = 1
    · rw [if_pos (decide_eq_true h), h]
      rfl
    · rw [if_neg (by rw [decide_eq_true_iff]; exact h), Nat.mod_two_ne_one.mp h]
      rfl
  have hlt := x.toBitVec.isLt
  have hdiv := Nat.div_le_self x.toBitVec.toNat (2 ^ k)
  apply BitVec.eq_of_toNat_eq
  rw [Int32.toBitVec_add, hshift, hcode, BitVec.toNat_add, BitVec.toNat_shiftLeft,
    BitVec.toNat_ushiftRight, BitVec.toNat_ushiftRight, hlow, Nat.shiftRight_eq_div_pow,
    Nat.shiftRight_eq_div_pow, Nat.shiftLeft_eq, Nat.pow_succ, ← Nat.div_div_eq_div_mul]
  omega

/-- **The number** is put together bit by bit. -/
theorem S_spec (x : Int32) (h : ∀ j < 32, mask j = if bit x j then 1 else 0) : S mask = x := by
  have hloop : ∀ n ≤ 32, ∀ code : Int32, code.toBitVec = x.toBitVec >>> n →
      (List.range n).reverse.foldl (fun (code : Int32) i => (code <<< 1) + mask i) code = x := by
    intro n
    induction n with
    | zero =>
      intro _ code hcode
      exact Int32.toBitVec_inj.mp hcode
    | succ n ih =>
      intro hn code hcode
      rw [List.range_succ, List.reverse_append, List.reverse_singleton, List.singleton_append,
        List.foldl_cons]
      exact ih (by omega) _ (push_bit x hcode (h n hn))
  refine hloop 32 (Nat.le_refl 32) 0 (BitVec.eq_of_toNat_eq ?_)
  rw [BitVec.toNat_ushiftRight, Nat.shiftRight_eq_div_pow, Nat.div_eq_of_lt x.toBitVec.isLt]
  rfl

/-- **The value** that occurs once, where all others occur three times. -/
theorem singleNumber_spec (A : List Int32) (x : Int32) (hx : A.count x = 1)
    (h3 : ∀ y ∈ A, y ≠ x → A.count y = 3) : singleNumber A = x :=
  S_spec x fun _ hj => counters_eq hx h3 hj

/-- A negative value. -/
theorem singleNumber_four : ([7, -2, 7, 7] : List Int32).count (-2) = 1 ∧
    (∀ y ∈ ([7, -2, 7, 7] : List Int32), y ≠ -2 → ([7, -2, 7, 7] : List Int32).count y = 3) ∧
      singleNumber [7, -2, 7, 7] = -2 :=
  ⟨by decide, by simp, singleNumber_spec _ (-2) (by decide) (by simp)⟩

end Sperm.Leetcode.SingleNumber
