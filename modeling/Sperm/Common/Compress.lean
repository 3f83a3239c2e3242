import Mathlib
import Sperm.Common.ByteArray
import Sperm.Lib.LittleEndian

/-!
# Variable-length integers (`common/compress.h`)

The low bits of the first byte give the length: `k - 1` ones and a zero for `k ≤ 8` bytes with
`7 * k` payload bits, and `0xff` for nine bytes.

* `compressUint64`, `decompressUint64` with their nine branches, and the length functions
  `compressUint64Size`, `decompressUint64Size`.
* `varint`: the encoding as a function of the length; `compressUint64_eq`, `decompressUint64_short`.
* **`decompress_varint`**: the decoder recovers every encoded value and its length.
* **`zigzag_decode_encode`**.
* The `ByteArray` forms `compressUint64To`, `decompressUint64From` and their round trip.
* `WithinInput`: the decoder looks at no byte behind its input; **`withinInput_iff`** says when.
-/

namespace Sperm

open LittleEndian

/-! ## Zigzag -/

/-- `zigzag_encode`: `(v << 1) ^ (v >> 63)`. -/
def zigzagEncode (v : Int64) : UInt64 := ((v <<< 1) ^^^ (v >>> 63)).toUInt64

/-- `zigzag_decode`: `-(v & 1) ^ (v >> 1)`. -/
def zigzagDecode (v : UInt64) : Int64 := -(v &&& 1).toInt64 ^^^ (v >>> 1).toInt64

theorem sshiftRight_last (b : BitVec 64) :
    b.sshiftRight 63 = if b.msb then BitVec.allOnes 64 else 0#64 := by
  refine BitVec.eq_of_getLsbD_eq fun i hi => ?_
  have hl : (if 63 + i < 64 then b.getLsbD (63 + i) else b.msb) = b.msb := by
    split_ifs with h
    · obtain rfl : i = 0 := by omega
      rw [BitVec.msb_eq_getLsbD_last]
    · rfl
  rw [BitVec.getLsbD_sshiftRight, hl, decide_eq_false (by omega), Bool.not_false, Bool.true_and]
  cases b.msb with
  | false => rw [if_neg Bool.false_ne_true, BitVec.getLsbD_zero]
  | true => rw [if_pos rfl, BitVec.getLsbD_allOnes, decide_eq_true hi]

theorem zigzag_bits (b : BitVec 64) :
    -((b <<< 1 ^^^ b.sshiftRight 63) &&& 1#64) ^^^ (b <<< 1 ^^^ b.sshiftRight 63) >>> 1 = b := by
  have hn := b.isLt
  rw [sshiftRight_last]
  cases hm : b.msb with
  | false =>
    have hlt := BitVec.msb_eq_false_iff_two_mul_lt.mp hm
    have he : (b <<< 1) &&& 1#64 = 0#64 := by
      apply BitVec.eq_of_toNat_eq
      simp [Nat.and_one_is_mod, Nat.shiftLeft_eq]
    simp only [Bool.false_eq_true, if_false, BitVec.xor_zero, he]
    apply BitVec.eq_of_toNat_eq
    simp [Nat.shiftLeft_eq, Nat.shiftRight_eq_div_pow]
    omega
  | true =>
    have hge := BitVec.msb_eq_true_iff_two_mul_ge.mp hm
    have hx : (b <<< 1 ^^^ BitVec.allOnes 64).toNat = 2 ^ 65 - 1 - 2 * b.toNat := by
      rw [BitVec.xor_allOnes, BitVec.toNat_not, BitVec.toNat_shiftLeft, Nat.shiftLeft_eq]
      omega
    have he : (b <<< 1 ^^^ BitVec.allOnes 64) &&& 1#64 = 1#64 := by
      apply BitVec.eq_of_toNat_eq
      rw [BitVec.toNat_and, hx]
      simp [Nat.and_one_is_mod]
      omega
    rw [if_pos rfl, he, show -1#64 = BitVec.allOnes 64 by decide, BitVec.allOnes_xor]
    apply BitVec.eq_of_toNat_eq
    rw [BitVec.toNat_not, BitVec.toNat_ushiftRight, hx, Nat.shiftRight_eq_div_pow]
    omega

/-- **`zigzag_decode` inverts `zigzag_encode`.** -/
theorem zigzag_decode_encode (v : Int64) : zigzagDecode (zigzagEncode v) = v := by
  apply Int64.toBitVec_inj.mp
  have h := zigzag_bits v.toBitVec
  simpa [zigzagDecode, zigzagEncode] using h

/-! ## The encoder -/

/-- `compress_uint64_size`. -/
def compressUint64Size (v : UInt64) : ℕ :=
  if v.toNat < 2 ^ 7 then 1
  else if v.toNat < 2 ^ 14 then 2
  else if v.toNat < 2 ^ 21 then 3
  else if v.toNat < 2 ^ 28 then 4
  else if v.toNat < 2 ^ 35 then 5
  else if v.toNat < 2 ^ 42 then 6
  else if v.toNat < 2 ^ 49 then 7
  else if v.toNat < 2 ^ 56 then 8
  else 9

/-- `decompress_uint64_size`. -/
def decompressUint64Size (x : UInt8) : ℕ :=
  if x &&& 0x1 = 0 then 1
  else if x &&& 0x2 = 0 then 2
  else if x &&& 0x4 = 0 then 3
  else if x &&& 0x8 = 0 then 4
  else if x &&& 0x10 = 0 then 5
  else if x &&& 0x20 = 0 then 6
  else if x &&& 0x40 = 0 then 7
  else if x &&& 0x80 = 0 then 8
  else 9

/-- `_fast_memcpy<n>(p, &v)`: the bytes it stores. -/
def memcpyFrom (n : ℕ) (v : UInt64) : List UInt8 := bytes n v.toNat

/-- `_fast_memcpy<n>(reinterpret_cast<char*>(&tmp) + off, p)`. -/
def memcpyTo (tmp : UInt64) (off n : ℕ) (p : ℕ → UInt8) : UInt64 :=
  UInt64.ofNat (store 8 tmp.toNat off (slice p 0 n))

/-- `compress_uint64(p, s, v)`: the return value and the bytes stored at `p`. -/
def compressUint64 (s : ℕ) (v : UInt64) : ℕ × List UInt8 :=
  if v.toNat < 2 ^ 7 then
    if s < 1 then (0, []) else (1, memcpyFrom 1 (v <<< 1))
  else if v.toNat < 2 ^ 14 then
    if s < 2 then (0, []) else (2, memcpyFrom 2 (v <<< 2 ||| 0x1))
  else if v.toNat < 2 ^ 21 then
    if s < 3 then (0, []) else (3, memcpyFrom 3 (v <<< 3 ||| 0x3))
  else if v.toNat < 2 ^ 28 then
    if s < 4 then (0, []) else (4, memcpyFrom 4 (v <<< 4 ||| 0x7))
  else if v.toNat < 2 ^ 35 then
    if s < 5 then (0, []) else (5, memcpyFrom 5 (v <<< 5 ||| 0xf))
  else if v.toNat < 2 ^ 42 then
    if s < 6 then (0, []) else (6, memcpyFrom 6 (v <<< 6 ||| 0x1f))
  else if v.toNat < 2 ^ 49 then
    if s < 7 then (0, []) else (7, memcpyFrom 7 (v <<< 7 ||| 0x3f))
  else if v.toNat < 2 ^ 56 then
    if s < 8 then (0, []) else (8, memcpyFrom 8 (v <<< 8 ||| 0x7f))
  else if s < 9 then (0, [])
  else (9, 0xff :: memcpyFrom 8 v)

/-- `decompress_uint64(p, s, v)`: the return value and `*v` after the call. -/
def decompressUint64 (p : ℕ → UInt8) (s : ℕ) (v : UInt64) : Except Fault (ℕ × UInt64) :=
  if s < 1 then .ok (0, v) else
  let tmp := memcpyTo 0 0 1 p
  let p₁ := fun i => p (1 + i)
  if tmp &&& 0x1 = 0 then .ok (1, tmp >>> 1)
  else if tmp &&& 0x2 = 0 then
    if s < 2 then .ok (0, v) else .ok (2, memcpyTo tmp 1 1 p₁ >>> 2)
  else if tmp &&& 0x4 = 0 then
    if s < 3 then .ok (0, v) else .ok (3, memcpyTo tmp 1 2 p₁ >>> 3)
  else if tmp &&& 0x8 = 0 then
    if s < 4 then .ok (0, v) else .ok (4, memcpyTo tmp 1 3 p₁ >>> 4)
  else if tmp &&& 0x10 = 0 then
    if s < 5 then .ok (0, v) else .ok (5, memcpyTo tmp 1 4 p₁ >>> 5)
  else if tmp &&& 0x20 = 0 then
    if s < 6 then .ok (0, v) else .ok (6, memcpyTo tmp 1 5 p₁ >>> 6)
  else if tmp &&& 0x40 = 0 then
    if s < 7 then .ok (0, v) else .ok (7, memcpyTo tmp 1 6 p₁ >>> 7)
  else if tmp &&& 0x80 = 0 then
    if s < 8 then .ok (0, v) else .ok (8, memcpyTo tmp 1 7 p₁ >>> 8)
  else if p 0 = 0xff then .ok (9, memcpyTo v 0 8 p₁)
  else .error .assert

/-! ## The encoding as a function of the length -/

/-- The encoding of `v`. -/
def varint (v : UInt64) : List UInt8 :=
  if compressUint64Size v ≤ 8 then
    bytes (compressUint64Size v)
      (v.toNat * 2 ^ compressUint64Size v + (2 ^ (compressUint64Size v - 1) - 1))
  else 0xff :: bytes 8 v.toNat

theorem toNat_shl_or {v m : UInt64} {k : ℕ} (hk : k < 64) (hv : v.toNat < 2 ^ (64 - k))
    (hm : m.toNat < 2 ^ k) :
    (v <<< UInt64.ofNat k ||| m).toNat = v.toNat * 2 ^ k + m.toNat := by
  have hlt : v.toNat * 2 ^ k < 2 ^ 64 := by
    calc v.toNat * 2 ^ k < 2 ^ (64 - k) * 2 ^ k := by
          exact Nat.mul_lt_mul_of_pos_right hv (Nat.two_pow_pos k)
      _ = 2 ^ 64 := by rw [← pow_add]; congr 1; omega
  have hk' : (UInt64.ofNat k).toNat % 64 = k := by
    rw [UInt64.toNat_ofNat']; omega
  rw [UInt64.toNat_or, UInt64.toNat_shiftLeft, hk', Nat.shiftLeft_eq, Nat.mod_eq_of_lt hlt,
    ← Nat.shiftLeft_eq, ← Nat.shiftLeft_add_eq_or_of_lt hm]

theorem compressUint64_cases (s : ℕ) (v : UInt64) :
    (∃ k, 1 ≤ k ∧ k ≤ 8 ∧ compressUint64Size v = k ∧ v.toNat < 2 ^ (7 * k) ∧
      compressUint64 s v = if s < k then (0, []) else
        (k, memcpyFrom k (v <<< UInt64.ofNat k ||| UInt64.ofNat (2 ^ (k - 1) - 1)))) ∨
    (compressUint64Size v = 9 ∧
      compressUint64 s v = if s < 9 then (0, []) else (9, 0xff :: memcpyFrom 8 v)) := by
  by_cases h₁ : v.toNat < 2 ^ 7
  · refine .inl ⟨1, le_rfl, by omega, if_pos h₁, h₁, ?_⟩
    rw [compressUint64, if_pos h₁]
    simp
  by_cases h₂ : v.toNat < 2 ^ 14
  · refine .inl ⟨2, by omega, by omega, ?_, h₂, ?_⟩
    · simp only [compressUint64Size, h₁, h₂, if_true, if_false]
    · simp only [compressUint64, h₁, h₂, if_true, if_false]
      rfl
  by_cases h₃ : v.toNat < 2 ^ 21
  · refine .inl ⟨3, by omega, by omega, ?_, h₃, ?_⟩
    · simp only [compressUint64Size, h₁, h₂, h₃, if_true, if_false]
    · simp only [compressUint64, h₁, h₂, h₃, if_true, if_false]
      rfl
  by_cases h₄ : v.toNat < 2 ^ 28
  · refine .inl ⟨4, by omega, by omega, ?_, h₄, ?_⟩
    · simp only [compressUint64Size, h₁, h₂, h₃, h₄, if_true, if_false]
    · simp only [compressUint64, h₁, h₂, h₃, h₄, if_true, if_false]
      rfl
  by_cases h₅ : v.toNat < 2 ^ 35
  · refine .inl ⟨5, by omega, by omega, ?_, h₅, ?_⟩
    · simp only [compressUint64Size, h₁, h₂, h₃, h₄, h₅, if_true, if_false]
    · simp only [compressUint64, h₁, h₂, h₃, h₄, h₅, if_true, if_false]
      rfl
  by_cases h₆ : v.toNat < 2 ^ 42
  · refine .inl ⟨6, by omega, by omega, ?_, h₆, ?_⟩
    · simp only [compressUint64Size, h₁, h₂, h₃, h₄, h₅, h₆, if_true, if_false]
    · simp only [compressUint64, h₁, h₂, h₃, h₄, h₅, h₆, if_true, if_false]
      rfl
  by_cases h₇ : v.toNat < 2 ^ 49
  · refine .inl ⟨7, by omega, by omega, ?_, h₇, ?_⟩
    · simp only [compressUint64Size, h₁, h₂, h₃, h₄, h₅, h₆, h₇, if_true, if_false]
    · simp only [compressUint64, h₁, h₂, h₃, h₄, h₅, h₆, h₇, if_true, if_false]
      rfl
  by_cases h₈ : v.toNat < 2 ^ 56
  · refine .inl ⟨8, by omega, by omega, ?_, h₈, ?_⟩
    · simp only [compressUint64Size, h₁, h₂, h₃, h₄, h₅, h₆, h₇, h₈, if_true, if_false]
    · simp only [compressUint64, h₁, h₂, h₃, h₄, h₅, h₆, h₇, h₈, if_true, if_false]
      rfl
  refine .inr ⟨?_, ?_⟩
  · simp only [compressUint64Size, h₁, h₂, h₃, h₄, h₅, h₆, h₇, h₈, if_false]
  · simp only [compressUint64, h₁, h₂, h₃, h₄, h₅, h₆, h₇, h₈, if_false]

theorem compressUint64_eq (s : ℕ) (v : UInt64) : compressUint64 s v =
    if s < compressUint64Size v then (0, []) else (compressUint64Size v, varint v) := by
  rcases compressUint64_cases s v with ⟨k, h₁, h₈, hk, hv, hc⟩ | ⟨hk, hc⟩
  · have hm : 2 ^ (k - 1) - 1 < 2 ^ k := by
      have := Nat.pow_le_pow_right (show 0 < 2 by norm_num) (show k - 1 ≤ k by omega)
      have := Nat.two_pow_pos (k - 1)
      omega
    have hk64 : 2 ^ k ≤ 2 ^ 8 := Nat.pow_le_pow_right (by norm_num) h₈
    have hmask : (UInt64.ofNat (2 ^ (k - 1) - 1)).toNat = 2 ^ (k - 1) - 1 := by
      rw [UInt64.toNat_ofNat']; exact Nat.mod_eq_of_lt (by omega)
    have hv' : v.toNat < 2 ^ (64 - k) :=
      hv.trans_le (Nat.pow_le_pow_right (by norm_num) (by omega))
    rw [hc, hk, varint, hk, if_pos h₈, memcpyFrom,
      toNat_shl_or (by omega) hv' (by rw [hmask]; exact hm), hmask]
  · rw [hc, hk, varint, hk, if_neg (show ¬ 9 ≤ 8 by omega)]
    rfl

theorem one_le_compressUint64Size (v : UInt64) :
    1 ≤ compressUint64Size v ∧ compressUint64Size v ≤ 9 := by
  rcases compressUint64_cases 0 v with ⟨k, h₁, h₈, hk, -⟩ | ⟨hk, -⟩ <;> omega

theorem length_varint (v : UInt64) : (varint v).length = compressUint64Size v := by
  have := one_le_compressUint64Size v
  unfold varint
  split_ifs
  · exact length_bytes _ _
  · rw [List.length_cons, length_bytes]; omega

/-! ## The decoder -/

theorem decompressUint64Size_le (x : UInt8) :
    1 ≤ decompressUint64Size x ∧ decompressUint64Size x ≤ 9 := by
  unfold decompressUint64Size
  split_ifs <;> omega

theorem forall_uint8 {P : UInt8 → Prop} (h : ∀ i : Fin 256, P (UInt8.ofNat i)) (x : UInt8) :
    P x := by
  have := h ⟨x.toNat, x.toNat_lt⟩
  rwa [UInt8.ofNat_toNat] at this

theorem eq_of_decompressUint64Size_eq_nine {x : UInt8} : decompressUint64Size x = 9 → x = 0xff := by
  exact forall_uint8 (P := fun x => decompressUint64Size x = 9 → x = 0xff) (by decide +kernel) x

theorem decompressUint64Size_of_mod {k : ℕ} (h₁ : 1 ≤ k) (h₈ : k ≤ 8) {x : UInt8}
    (h : x.toNat % 2 ^ k = 2 ^ (k - 1) - 1) : decompressUint64Size x = k := by
  have key : ∀ k : Fin 9, 1 ≤ k.val → ∀ i : Fin 256,
      (UInt8.ofNat i).toNat % 2 ^ k.val = 2 ^ (k.val - 1) - 1 →
        decompressUint64Size (UInt8.ofNat i) = k := by decide +kernel
  exact forall_uint8 (P := fun x => x.toNat % 2 ^ k = 2 ^ (k - 1) - 1 → decompressUint64Size x = k)
    (key ⟨k, by omega⟩ h₁) x h

theorem memcpyTo_first (p : ℕ → UInt8) : memcpyTo 0 0 1 p = (p 0).toUInt64 := by
  apply UInt64.toNat_inj.mp
  have h : store 8 (0 : UInt64).toNat 0 (slice p 0 1) = (p 0).toNat := by
    have := @store_above 8 [] (slice p 0 1) (by simp)
    rw [value_nil, List.length_nil] at this
    rw [show (0 : UInt64).toNat = 0 from rfl, this, slice_succ]
    simp [slice]
  rw [memcpyTo, h, UInt64.toNat_ofNat', UInt8.toNat_toUInt64]
  have := (p 0).toNat_lt
  omega

theorem memcpyTo_second (p : ℕ → UInt8) {k : ℕ} (h₁ : 1 ≤ k) (h₈ : k ≤ 8) :
    (memcpyTo (memcpyTo 0 0 1 p) 1 (k - 1) (fun i => p (1 + i)) >>> UInt64.ofNat k).toNat =
      value (slice p 0 k) / 2 ^ k := by
  have hs : slice p 0 k = [p 0] ++ slice (fun i => p (1 + i)) 0 (k - 1) := by
    obtain ⟨j, rfl⟩ : ∃ j, k = j + 1 := ⟨k - 1, by omega⟩
    rw [slice_succ, slice_shift]
    rfl
  have h : store 8 (p 0).toNat 1 (slice (fun i => p (1 + i)) 0 (k - 1)) = value (slice p 0 k) := by
    rw [hs, ← store_above (w := 8) (by simp; omega)]
    simp
  have hlt : value (slice p 0 k) < 2 ^ 64 := by
    have := value_lt (slice p 0 k)
    rw [length_slice] at this
    calc value (slice p 0 k) < 256 ^ k := this
      _ ≤ 256 ^ 8 := Nat.pow_le_pow_right (by norm_num) h₈
      _ = 2 ^ 64 := by norm_num
  have hk : (UInt64.ofNat k).toNat % 64 = k := by
    rw [UInt64.toNat_ofNat']; omega
  rw [memcpyTo_first, UInt64.toNat_shiftRight, hk, memcpyTo, UInt8.toNat_toUInt64, h,
    UInt64.toNat_ofNat', Nat.mod_eq_of_lt hlt, Nat.shiftRight_eq_div_pow]

theorem toUInt64_and_eq_zero (x m : UInt8) : (x.toUInt64 &&& m.toUInt64 = 0) = (x &&& m = 0) := by
  rw [← UInt8.toUInt64_and, ← UInt64.toNat_inj, UInt8.toNat_toUInt64, ← UInt8.toNat_inj]
  rfl

theorem memcpyTo_zero (tmp : UInt64) (off : ℕ) (p : ℕ → UInt8) : memcpyTo tmp off 0 p = tmp := by
  rw [memcpyTo, store, patch, show slice p 0 0 = [] from rfl, List.append_nil, List.length_nil,
    add_zero, List.take_append_drop, value_bytes_of_lt (by have := tmp.toNat_lt; omega),
    UInt64.ofNat_toNat]

theorem decompressUint64_cases (p : ℕ → UInt8) {s : ℕ} (hs : 1 ≤ s) (v : UInt64) :
    (∃ k, 1 ≤ k ∧ k ≤ 8 ∧ decompressUint64Size (p 0) = k ∧
      decompressUint64 p s v = if s < k then .ok (0, v) else .ok (k,
        memcpyTo (memcpyTo 0 0 1 p) 1 (k - 1) (fun i => p (1 + i)) >>> UInt64.ofNat k)) ∨
    (decompressUint64Size (p 0) = 9 ∧ p 0 = 0xff ∧
      decompressUint64 p s v = .ok (9, memcpyTo v 0 8 fun i => p (1 + i))) := by
  have ht := memcpyTo_first p
  have t₁ : (memcpyTo 0 0 1 p &&& 0x1 = 0) = (p 0 &&& 0x1 = 0) :=
    ht ▸ toUInt64_and_eq_zero (p 0) 0x1
  have t₂ : (memcpyTo 0 0 1 p &&& 0x2 = 0) = (p 0 &&& 0x2 = 0) :=
    ht ▸ toUInt64_and_eq_zero (p 0) 0x2
  have t₃ : (memcpyTo 0 0 1 p &&& 0x4 = 0) = (p 0 &&& 0x4 = 0) :=
    ht ▸ toUInt64_and_eq_zero (p 0) 0x4
  have t₄ : (memcpyTo 0 0 1 p &&& 0x8 = 0) = (p 0 &&& 0x8 = 0) :=
    ht ▸ toUInt64_and_eq_zero (p 0) 0x8
  have t₅ : (memcpyTo 0 0 1 p &&& 0x10 = 0) = (p 0 &&& 0x10 = 0) :=
    ht ▸ toUInt64_and_eq_zero (p 0) 0x10
  have t₆ : (memcpyTo 0 0 1 p &&& 0x20 = 0) = (p 0 &&& 0x20 = 0) :=
    ht ▸ toUInt64_and_eq_zero (p 0) 0x20
  have t₇ : (memcpyTo 0 0 1 p &&& 0x40 = 0) = (p 0 &&& 0x40 = 0) :=
    ht ▸ toUInt64_and_eq_zero (p 0) 0x40
  have t₈ : (memcpyTo 0 0 1 p &&& 0x80 = 0) = (p 0 &&& 0x80 = 0) :=
    ht ▸ toUInt64_and_eq_zero (p 0) 0x80
  have hs' : ¬ s < 1 := by omega
  by_cases h₁ : p 0 &&& 0x1 = 0
  · refine .inl ⟨1, le_rfl, by omega, if_pos h₁, ?_⟩
    simp only [decompressUint64, hs', t₁, h₁, if_true, if_false, memcpyTo_zero, Nat.sub_self]
    rfl
  by_cases h₂ : p 0 &&& 0x2 = 0
  · refine .inl ⟨2, by omega, by omega, ?_, ?_⟩
    · simp only [decompressUint64Size, h₁, h₂, if_true, if_false]
    · simp only [decompressUint64, hs', t₁, t₂, h₁, h₂, if_true, if_false]
      rfl
  by_cases h₃ : p 0 &&& 0x4 = 0
  · refine .inl ⟨3, by omega, by omega, ?_, ?_⟩
    · simp only [decompressUint64Size, h₁, h₂, h₃, if_true, if_false]
    · simp only [decompressUint64, hs', t₁, t₂, t₃, h₁, h₂, h₃, if_true, if_false]
      rfl
  by_cases h₄ : p 0 &&& 0x8 = 0
  · refine .inl ⟨4, by omega, by omega, ?_, ?_⟩
    · simp only [decompressUint64Size, h₁, h₂, h₃, h₄, if_true, if_false]
    · simp only [decompressUint64, hs', t₁, t₂, t₃, t₄, h₁, h₂, h₃, h₄, if_true, if_false]
      rfl
  by_cases h₅ : p 0 &&& 0x10 = 0
  · refine .inl ⟨5, by omega, by omega, ?_, ?_⟩
    · simp only [decompressUint64Size, h₁, h₂, h₃, h₄, h₅, if_true, if_false]
    · simp only [decompressUint64, hs', t₁, t₂, t₃, t₄, t₅, h₁, h₂, h₃, h₄, h₅, if_true, if_false]
      rfl
  by_cases h₆ : p 0 &&& 0x20 = 0
  · refine .inl ⟨6, by omega, by omega, ?_, ?_⟩
    · simp only [decompressUint64Size, h₁, h₂, h₃, h₄, h₅, h₆, if_true, if_false]
    · simp only [decompressUint64, hs', t₁, t₂, t₃, t₄, t₅, t₆, h₁, h₂, h₃, h₄, h₅, h₆,
        if_true, if_false]
      rfl
  by_cases h₇ : p 0 &&& 0x40 = 0
  · refine .inl ⟨7, by omega, by omega, ?_, ?_⟩
    · simp only [decompressUint64Size, h₁, h₂, h₃, h₄, h₅, h₆, h₇, if_true, if_false]
    · simp only [decompressUint64, hs', t₁, t₂, t₃, t₄, t₅, t₆, t₇, h₁, h₂, h₃, h₄, h₅, h₆,
        h₇, if_true, if_false]
      rfl
  by_cases h₈ : p 0 &&& 0x80 = 0
  · refine .inl ⟨8, by omega, by omega, ?_, ?_⟩
    · simp only [decompressUint64Size, h₁, h₂, h₃, h₄, h₅, h₆, h₇, h₈, if_true, if_false]
    · simp only [decompressUint64, hs', t₁, t₂, t₃, t₄, t₅, t₆, t₇, t₈, h₁, h₂, h₃, h₄, h₅, h₆,
        h₇, h₈, if_true, if_false]
      rfl
  have h₉ : decompressUint64Size (p 0) = 9 := by
    simp only [decompressUint64Size, h₁, h₂, h₃, h₄, h₅, h₆, h₇, h₈, if_false]
  have hff := eq_of_decompressUint64Size_eq_nine h₉
  refine .inr ⟨h₉, hff, ?_⟩
  simp only [decompressUint64, hs', t₁, t₂, t₃, t₄, t₅, t₆, t₇, t₈, h₁, h₂, h₃, h₄, h₅, h₆, h₇, h₈,
    if_false, if_pos hff]

theorem decompressUint64_short {p : ℕ → UInt8} {s k : ℕ} (hk : decompressUint64Size (p 0) = k)
    (h₈ : k ≤ 8) (hs : k ≤ s) (v : UInt64) :
    decompressUint64 p s v = .ok (k, UInt64.ofNat (value (slice p 0 k) / 2 ^ k)) := by
  have h₁ := (decompressUint64Size_le (p 0)).1
  rcases decompressUint64_cases p (show 1 ≤ s by omega) v with ⟨k', -, -, hk', hc⟩ | ⟨hk', -⟩
  · obtain rfl : k' = k := by omega
    rw [hc, if_neg (by omega), ← memcpyTo_second p (by omega) h₈, UInt64.ofNat_toNat]
  · omega

theorem decompressUint64_long {p : ℕ → UInt8} {s : ℕ} (hk : p 0 = 0xff) (hs : 1 ≤ s) (v : UInt64) :
    decompressUint64 p s v = .ok (9, UInt64.ofNat (value (slice p 1 8))) := by
  have h₉ : decompressUint64Size (p 0) = 9 := by rw [hk]; rfl
  rcases decompressUint64_cases p hs v with ⟨k, -, h₈, hk', -⟩ | ⟨-, -, hc⟩
  · omega
  · rw [hc, memcpyTo, slice_shift]
    have hl : (slice p (1 + 0) 8).length = 8 := length_slice _ _ _
    rw [store, patch, hl, List.take_zero, List.nil_append, List.drop_of_length_le (by simp),
      List.append_nil]

/-- A first byte that promises more bytes than there are, up to eight, gives `0`. -/
theorem decompressUint64_truncated {p : ℕ → UInt8} {s : ℕ} (h₈ : decompressUint64Size (p 0) ≤ 8)
    (hs : s < decompressUint64Size (p 0)) (v : UInt64) : decompressUint64 p s v = .ok (0, v) := by
  rcases Nat.eq_zero_or_pos s with rfl | hpos
  · rfl
  · rcases decompressUint64_cases p hpos v with ⟨k, -, -, hk, hc⟩ | ⟨hk, -⟩
    · rw [hc, if_pos (by omega)]
    · omega

/-- **The decoder recovers every encoded value and its length.** -/
theorem decompress_varint {p : ℕ → UInt8} {s : ℕ} {v : UInt64}
    (hp : slice p 0 (varint v).length = varint v) (hs : (varint v).length ≤ s) (v₀ : UInt64) :
    decompressUint64 p s v₀ = .ok ((varint v).length, v) := by
  rw [length_varint] at hp hs ⊢
  rcases compressUint64_cases 0 v with ⟨k, h₁, h₈, hk, hv, -⟩ | ⟨hk, -⟩
  · set N := v.toNat * 2 ^ k + (2 ^ (k - 1) - 1) with hN
    have hvar : varint v = bytes k N := by rw [varint, hk, if_pos h₈]
    have hpow : 2 ^ k = 2 * 2 ^ (k - 1) := by rw [← pow_succ']; congr 1; omega
    have hpos := Nat.two_pow_pos (k - 1)
    have hlt : N < 256 ^ k := by
      have h : v.toNat * 2 ^ k + 2 ^ k ≤ 2 ^ (7 * k) * 2 ^ k := by
        rw [← Nat.succ_mul]; exact Nat.mul_le_mul_right _ hv
      rw [← pow_add, show 7 * k + k = 8 * k by omega, pow_mul] at h
      rw [show (256 : ℕ) = 2 ^ 8 by norm_num]
      omega
    -- the first byte carries the length
    have h0 : p 0 = UInt8.ofNat N := by
      obtain ⟨j, rfl⟩ : ∃ j, k = j + 1 := ⟨k - 1, by omega⟩
      rw [hk, hvar, slice_succ, bytes, List.cons.injEq] at hp
      exact hp.1
    have hsize : decompressUint64Size (p 0) = k := by
      refine decompressUint64Size_of_mod h₁ h₈ ?_
      have hd : 2 ^ k ∣ 2 ^ 8 := Nat.pow_dvd_pow 2 h₈
      rw [h0, UInt8.toNat_ofNat', Nat.mod_mod_of_dvd _ hd, hN, mul_comm, Nat.mul_add_mod,
        Nat.mod_eq_of_lt (by omega)]
    rw [hk] at hs hp ⊢
    rw [decompressUint64_short hsize h₈ hs, hp, hvar, value_bytes_of_lt hlt]
    have hq : N / 2 ^ k = v.toNat := by
      rw [hN, mul_comm, Nat.mul_add_div (by omega), Nat.div_eq_of_lt (by omega), add_zero]
    rw [hq, UInt64.ofNat_toNat]
  · have hvar : varint v = 0xff :: bytes 8 v.toNat := by
      rw [varint, hk, if_neg (show ¬ 9 ≤ 8 by omega)]
    rw [hk, hvar, slice_succ, List.cons.injEq] at hp
    rw [hk, decompressUint64_long hp.1 (by omega), hp.2,
      value_bytes_of_lt (by have := v.toNat_lt; omega), UInt64.ofNat_toNat]

/-! ## On byte arrays -/

/-- `compress_uint64(bytes, v)`. -/
def compressUint64To (env : Env) (w : WriteableByteArray) (v : UInt64) :
    Except Fault (Bool × WriteableByteArray) := w.write env (compressUint64 9 v).2

/-- `compress_int64(bytes, v)`. -/
def compressInt64To (env : Env) (w : WriteableByteArray) (v : Int64) :
    Except Fault (Bool × WriteableByteArray) := compressUint64To env w (zigzagEncode v)

/-- `decompress_uint64(bytes, v)`: what it returns, `*v` and the array after it. -/
def decompressUint64From (r : ReadableByteArray) (v : UInt64) :
    Except Fault (Bool × UInt64 × ReadableByteArray) :=
  match decompressUint64 r.remain.1 r.remain.2 v with
  | .error f => .error f
  | .ok (n, v') =>
    if n = 0 then .ok (false, v', r)
    else
      -- `assert(bytes->read(NULL, n))`
      match r.read n with
      | none => .error .assert
      | some (_, r') => .ok (true, v', r')

/-- `decompress_int64(bytes, v)`. -/
def decompressInt64From (r : ReadableByteArray) (v : Int64) :
    Except Fault (Bool × Int64 × ReadableByteArray) :=
  match decompressUint64From r 0 with
  | .error f => .error f
  | .ok (false, _, r') => .ok (false, v, r')
  | .ok (true, x, r') => .ok (true, zigzagDecode x, r')

theorem varint_ne_nil (v : UInt64) : varint v ≠ [] := by
  rw [← List.length_pos_iff, length_varint]
  exact (one_le_compressUint64Size v).1

theorem compressUint64To_spec {env : Env} (hm : ∀ n, (env.malloc n).isSome)
    {w : WriteableByteArray} (hw : w.Usable) {v : UInt64}
    (hfit : w.cur + (varint v).length < 2 ^ 63) :
    ∃ w', compressUint64To env w v = .ok (true, w') ∧ w'.contents = w.contents ++ varint v ∧
      w'.block ≠ .null := by
  have hle := one_le_compressUint64Size v
  rw [compressUint64To, compressUint64_eq, if_neg (by omega)]
  exact WriteableByteArray.write_spec hm hw (.inr (varint_ne_nil v)) hfit

theorem decompressUint64From_spec {r : ReadableByteArray} {v : UInt64} {ys : List UInt8}
    (h : r.rest = varint v ++ ys) (v₀ : UInt64) :
    ∃ r', decompressUint64From r v₀ = .ok (true, v, r') ∧ r'.rest = ys ∧ r'.size = r.size := by
  have hlen := congrArg List.length h
  rw [r.length_rest, List.length_append] at hlen
  have hd : decompressUint64 r.remain.1 r.remain.2 v₀ = .ok ((varint v).length, v) := by
    refine decompress_varint ?_ (by change _ ≤ r.size - r.cur; omega) v₀
    change slice (fun i => r.bytes (r.cur + i)) 0 _ = _
    rw [slice_shift]
    exact (slice_eq_of_append h).1
  obtain ⟨r', hr, hrest, hsize⟩ := ReadableByteArray.read_spec h
  have hpos := List.length_pos_iff.mpr (varint_ne_nil v)
  refine ⟨r', ?_, hrest, hsize⟩
  simp only [decompressUint64From, hd, hr, if_neg (show ¬ (varint v).length = 0 by omega)]

theorem decompressInt64From_spec {r : ReadableByteArray} {v : Int64} {ys : List UInt8}
    (h : r.rest = varint (zigzagEncode v) ++ ys) (v₀ : Int64) :
    ∃ r', decompressInt64From r v₀ = .ok (true, v, r') ∧ r'.rest = ys ∧ r'.size = r.size := by
  obtain ⟨r', h₁, h₂, h₃⟩ := decompressUint64From_spec h 0
  exact ⟨r', by rw [decompressInt64From, h₁]; simp only [zigzag_decode_encode], h₂, h₃⟩

/-! ## Staying inside the input -/

/-- The decoder takes at most the `s` bytes it was given, and looks at no other. -/
def WithinInput (p : ℕ → UInt8) (s : ℕ) : Prop :=
  ∀ v, (∃ n v', decompressUint64 p s v = .ok (n, v') ∧ (n = 0 ∨ 1 ≤ n ∧ n ≤ s)) ∧
    ∀ q, (∀ i < s, q i = p i) → decompressUint64 q s v = decompressUint64 p s v

/-- The first byte announces nine bytes, and there are some but fewer. -/
def LongTruncated (p : ℕ → UInt8) (s : ℕ) : Prop := 1 ≤ s ∧ s < 9 ∧ p 0 = 0xff

theorem withinInput_of_not_longTruncated {p : ℕ → UInt8} {s : ℕ} (h : ¬ LongTruncated p s) :
    WithinInput p s := by
  intro v
  rcases Nat.eq_zero_or_pos s with rfl | hs
  · exact ⟨⟨0, v, rfl, .inl rfl⟩, fun q _ => rfl⟩
  have hb := decompressUint64Size_le (p 0)
  by_cases h₈ : decompressUint64Size (p 0) ≤ 8
  · by_cases hk : decompressUint64Size (p 0) ≤ s
    · refine ⟨⟨_, _, decompressUint64_short rfl h₈ hk v, .inr ⟨hb.1, hk⟩⟩, fun q hq => ?_⟩
      have h0 : decompressUint64Size (q 0) = decompressUint64Size (p 0) := by rw [hq 0 hs]
      have hsl : slice q 0 (decompressUint64Size (p 0)) = slice p 0 (decompressUint64Size (p 0)) :=
        slice_congr fun i hi => hq _ (by omega)
      rw [decompressUint64_short h0 h₈ hk, decompressUint64_short rfl h₈ hk, hsl]
    · refine ⟨⟨0, v, decompressUint64_truncated h₈ (by omega) v, .inl rfl⟩, fun q hq => ?_⟩
      have h0 : decompressUint64Size (q 0) = decompressUint64Size (p 0) := by rw [hq 0 hs]
      rw [decompressUint64_truncated h₈ (by omega),
        decompressUint64_truncated (by omega) (by omega)]
  · have hff := eq_of_decompressUint64Size_eq_nine (show decompressUint64Size (p 0) = 9 by omega)
    have h₉ : 9 ≤ s := by
      by_contra hlt
      exact h ⟨hs, by omega, hff⟩
    refine ⟨⟨9, _, decompressUint64_long hff hs v, .inr ⟨by omega, h₉⟩⟩, fun q hq => ?_⟩
    have hsl : slice q 1 8 = slice p 1 8 := slice_congr fun i hi => hq _ (by omega)
    rw [decompressUint64_long ((hq 0 hs).trans hff) hs, decompressUint64_long hff hs, hsl]

theorem not_withinInput_of_longTruncated {p : ℕ → UInt8} {s : ℕ} (h : LongTruncated p s) :
    ¬ WithinInput p s := by
  intro hw
  obtain ⟨hs, h₉, hff⟩ := h
  obtain ⟨⟨n, v', hn, hle⟩, -⟩ := hw 0
  rw [decompressUint64_long hff hs, Except.ok.injEq, Prod.mk.injEq] at hn
  omega

/-- The assert of the `ByteArray` form trips exactly on a truncated nine-byte form. -/
theorem decompressUint64From_assert_iff (r : ReadableByteArray) (v : UInt64) :
    decompressUint64From r v = .error .assert ↔ LongTruncated r.remain.1 r.remain.2 := by
  have hsz := r.size_lt
  have hcur := r.cur_le
  have hrem : r.remain.2 = r.size - r.cur := rfl
  constructor
  · intro ha
    by_contra hl
    obtain ⟨⟨n, v', hd, hn⟩, -⟩ := withinInput_of_not_longTruncated hl v
    rw [decompressUint64From, hd] at ha
    simp only at ha
    split_ifs at ha with h0
    · obtain ⟨r', hr, -⟩ := ReadableByteArray.read_of_le (r := r) (n := n) (by omega)
      rw [hr] at ha
      cases ha
  · rintro ⟨h₁, h₉, hff⟩
    have hr : r.read 9 = none := dif_pos (by omega)
    rw [decompressUint64From, decompressUint64_long hff h₁]
    simp only [hr, if_neg (show ¬ 9 = 0 by omega)]

/-- **The decoder stays inside its input exactly when it is not given the start of a nine-byte
form**, and then the assert of the `ByteArray` form holds. -/
theorem withinInput_iff (p : ℕ → UInt8) (s : ℕ) (r : ReadableByteArray) (v : UInt64) :
    (WithinInput p s ↔ ¬ LongTruncated p s) ∧
      (decompressUint64From r v ≠ .error .assert ↔ ¬ LongTruncated r.remain.1 r.remain.2) :=
  ⟨⟨fun h hl => not_withinInput_of_longTruncated hl h, withinInput_of_not_longTruncated⟩,
    not_congr (decompressUint64From_assert_iff r v)⟩

/-- One byte `0xff` on the wire: the decoder reads eight bytes behind it and reports nine. -/
theorem lone_ff_overruns : ¬ WithinInput (fun _ => 0xff) 1 ∧
    decompressUint64From (.new (fun _ => 0xff) 1 (by norm_num)) 0 = .error .assert :=
  ⟨not_withinInput_of_longTruncated ⟨le_rfl, by norm_num, rfl⟩,
    (decompressUint64From_assert_iff _ _).mpr ⟨le_rfl, by decide, rfl⟩⟩

end Sperm
