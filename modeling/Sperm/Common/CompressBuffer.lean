import Sperm.Common.Compress

/-!
# Variable-length integers in a buffer (`common/compress.h`)

* `put`, `compressUint64At`, `compressInt64At`: what the encoders leave in the buffer.
* `zigzagEncode_toNat`: zigzag as arithmetic. `bijective_zigzagEncode`, and
  `compressUint64Size_zigzag_le`: a smaller magnitude never has a longer code.
* `Exact`: an encoder and a decoder that agree at the buffer level;
  **`compress_exact`**: both pairs of the source do.
-/

namespace Sperm

open LittleEndian

/-! ## Zigzag as arithmetic -/

theorem zigzag_bits_toNat (b : BitVec 64) :
    (b <<< 1 ^^^ b.sshiftRight 63).toNat =
      if b.toInt < 0 then 2 * b.toInt.natAbs - 1 else 2 * b.toInt.natAbs := by
  have hn := b.isLt
  rw [sshiftRight_last]
  cases hm : b.msb with
  | false =>
    have hlt := BitVec.msb_eq_false_iff_two_mul_lt.mp hm
    have hint : b.toInt = b.toNat := BitVec.toInt_eq_toNat_of_msb hm
    rw [if_neg Bool.false_ne_true, BitVec.xor_zero, BitVec.toNat_shiftLeft, Nat.shiftLeft_eq,
      hint, if_neg (by omega)]
    omega
  | true =>
    have hge := BitVec.msb_eq_true_iff_two_mul_ge.mp hm
    have hint : b.toInt = (b.toNat : ℤ) - 2 ^ 64 := by
      rw [BitVec.toInt_eq_toNat_cond, if_neg (by omega)]
      norm_num
    rw [if_pos rfl, BitVec.xor_allOnes, BitVec.toNat_not, BitVec.toNat_shiftLeft, Nat.shiftLeft_eq,
      hint, if_pos (by omega)]
    omega

theorem zigzagEncode_toNat (v : Int64) : (zigzagEncode v).toNat =
    if v.toInt < 0 then 2 * v.toInt.natAbs - 1 else 2 * v.toInt.natAbs := by
  have hb : (zigzagEncode v).toBitVec = v.toBitVec <<< 1 ^^^ v.toBitVec.sshiftRight 63 := by
    simp [zigzagEncode]
  rw [← UInt64.toNat_toBitVec, hb, zigzag_bits_toNat]
  rfl

/-- **Zigzag is a bijection**: it is injective, and there are as many signed as unsigned numbers. -/
theorem bijective_zigzagEncode : Function.Bijective zigzagEncode := by
  have hinj : Function.Injective zigzagEncode := Function.LeftInverse.injective zigzag_decode_encode
  have hfin : Finite Int64 := Finite.of_injective (fun v : Int64 => v.toBitVec.toFin)
    fun a b h => Int64.toBitVec_inj.mp (BitVec.toFin_inj.mp h)
  let e : Int64 ≃ UInt64 := ⟨Int64.toUInt64, UInt64.toInt64, fun v => by simp, fun v => by simp⟩
  exact ⟨hinj, (Finite.injective_iff_surjective_of_equiv e).mp hinj⟩

/-- The tests of `compress_uint64_size` from the one for length `k` on, `n` of them. -/
def sizeFrom (v : ℕ) : ℕ → ℕ → ℕ
  | k, 0 => k
  | k, n + 1 => if v < 2 ^ (7 * k) then k else sizeFrom v (k + 1) n

theorem compressUint64Size_eq_sizeFrom (v : UInt64) :
    compressUint64Size v = sizeFrom v.toNat 1 8 := rfl

theorem le_sizeFrom (v k n : ℕ) : k ≤ sizeFrom v k n := by
  induction n generalizing k with
  | zero => exact le_rfl
  | succ n ih =>
    rw [sizeFrom]
    split_ifs
    · exact le_rfl
    · exact (Nat.le_succ k).trans (ih (k + 1))

theorem sizeFrom_mono {v w : ℕ} (h : v ≤ w) (k n : ℕ) : sizeFrom v k n ≤ sizeFrom w k n := by
  induction n generalizing k with
  | zero => exact le_rfl
  | succ n ih =>
    by_cases hv : v < 2 ^ (7 * k)
    · rw [sizeFrom, if_pos hv]
      exact le_sizeFrom w k (n + 1)
    · rw [sizeFrom, sizeFrom, if_neg hv, if_neg fun hw => hv (h.trans_lt hw)]
      exact ih (k + 1)

theorem compressUint64Size_zigzag_le {a b : Int64} (h : a.toInt.natAbs < b.toInt.natAbs) :
    compressUint64Size (zigzagEncode a) ≤ compressUint64Size (zigzagEncode b) := by
  rw [compressUint64Size_eq_sizeFrom, compressUint64Size_eq_sizeFrom]
  apply sizeFrom_mono
  rw [zigzagEncode_toNat, zigzagEncode_toNat]
  split_ifs <;> omega

/-! ## Buffers -/

/-- The buffer after `bs` has been stored at its start. -/
def put (p : ℕ → UInt8) (bs : List UInt8) : ℕ → UInt8 := fun i => bs.getD i (p i)

theorem put_of_le {p : ℕ → UInt8} {bs : List UInt8} {i : ℕ} (h : bs.length ≤ i) :
    put p bs i = p i := List.getD_eq_default _ _ h

theorem slice_put (p : ℕ → UInt8) (bs : List UInt8) : slice (put p bs) 0 bs.length = bs := by
  refine List.ext_getElem (length_slice _ _ _) fun i h₁ h₂ => ?_
  simp [slice, put, h₂]

/-- `compress_uint64(p, s, v)`: the return value and the buffer after the call. -/
def compressUint64At (p : ℕ → UInt8) (s : ℕ) (v : UInt64) : ℕ × (ℕ → UInt8) :=
  ((compressUint64 s v).1, put p (compressUint64 s v).2)

/-- `compress_int64(p, s, v)`. -/
def compressInt64At (p : ℕ → UInt8) (s : ℕ) (v : Int64) : ℕ × (ℕ → UInt8) :=
  compressUint64At p s (zigzagEncode v)

/-- `decompress_int64(p, s, v)`: the return value and `*v` after the call. The local variable `x` is
not initialised. -/
def decompressInt64 (p : ℕ → UInt8) (s : ℕ) (x : UInt64) : Except Fault (ℕ × Int64) :=
  match decompressUint64 p s x with
  | .error f => .error f
  | .ok (code, x') => .ok (code, zigzagDecode x')

/-- An encoder with codes of length `size`, and a decoder for them: the encoder stores its code and
changes nothing else, or changes nothing at all when there is no room. The first byte gives the
length of the code, and the decoder finds it whatever follows. -/
structure Exact {α : Type} (size : α → ℕ) (encode : (ℕ → UInt8) → ℕ → α → ℕ × (ℕ → UInt8))
    (decode : (ℕ → UInt8) → ℕ → UInt64 → Except Fault (ℕ × α)) : Prop where
  encodes : ∀ p s v, size v ≤ s → (encode p s v).1 = size v
  keeps : ∀ p s v, size v ≤ s → ∀ i, size v ≤ i → (encode p s v).2 i = p i
  refuses : ∀ p s v, s < size v → encode p s v = (0, p)
  delimits : ∀ p s v, size v ≤ s → decompressUint64Size ((encode p s v).2 0) = size v
  decodes : ∀ p s v, size v ≤ s → ∀ q s' x, size v ≤ s' →
    (∀ i < size v, q i = (encode p s v).2 i) → decode q s' x = .ok (size v, v)

theorem compressUint64At_of_le (p : ℕ → UInt8) {s : ℕ} {v : UInt64}
    (h : compressUint64Size v ≤ s) :
    compressUint64At p s v = (compressUint64Size v, put p (varint v)) := by
  rw [compressUint64At, compressUint64_eq, if_neg (not_lt.mpr h)]

theorem decompressUint64Size_eq_of_decode {p : ℕ → UInt8} {s n : ℕ} {v₀ v : UInt64} (hn : 1 ≤ n)
    (h : decompressUint64 p s v₀ = .ok (n, v)) : decompressUint64Size (p 0) = n := by
  rcases Nat.eq_zero_or_pos s with rfl | hs
  · obtain ⟨rfl, -⟩ := Prod.mk.inj (Except.ok.inj h)
    omega
  · rcases decompressUint64_cases p hs v₀ with ⟨k, -, -, hk, hc⟩ | ⟨hk, -, hc⟩
    · rw [hc] at h
      split_ifs at h
      · obtain ⟨rfl, -⟩ := Prod.mk.inj (Except.ok.inj h)
        omega
      · rw [hk]
        exact (Prod.mk.inj (Except.ok.inj h)).1
    · rw [hc] at h
      rw [hk]
      exact (Prod.mk.inj (Except.ok.inj h)).1

theorem decompressUint64_of_put {p q : ℕ → UInt8} {s : ℕ} {v : UInt64}
    (hs : compressUint64Size v ≤ s) (hq : ∀ i < compressUint64Size v, q i = put p (varint v) i)
    (x : UInt64) : decompressUint64 q s x = .ok (compressUint64Size v, v) := by
  rw [← length_varint] at hs hq ⊢
  refine decompress_varint ?_ hs x
  rw [slice_congr (q := put p (varint v)) (j := 0) (by simpa using hq), slice_put]

theorem exact_uint64 : Exact compressUint64Size compressUint64At decompressUint64 where
  encodes p s v h := by rw [compressUint64At_of_le p h]
  keeps p s v h i hi := by
    rw [compressUint64At_of_le p h]
    exact put_of_le (by rwa [length_varint])
  refuses p s v h := by
    rw [compressUint64At, compressUint64_eq, if_pos h]
    rfl
  delimits p s v h := by
    rw [compressUint64At_of_le p h]
    exact decompressUint64Size_eq_of_decode (one_le_compressUint64Size v).1
      (decompressUint64_of_put h (fun _ _ => rfl) 0)
  decodes p s v h q s' x hs' hq := by
    rw [compressUint64At_of_le p h] at hq
    exact decompressUint64_of_put hs' hq x

theorem exact_int64 :
    Exact (fun v => compressUint64Size (zigzagEncode v)) compressInt64At decompressInt64 where
  encodes p s v h := exact_uint64.encodes p s (zigzagEncode v) h
  keeps p s v h := exact_uint64.keeps p s (zigzagEncode v) h
  refuses p s v h := exact_uint64.refuses p s (zigzagEncode v) h
  delimits p s v h := exact_uint64.delimits p s (zigzagEncode v) h
  decodes p s v h q s' x hs' hq := by
    rw [decompressInt64, exact_uint64.decodes p s (zigzagEncode v) h q s' x hs' hq]
    simp only [zigzag_decode_encode]

/-- **The codes are exact and delimit themselves**, for unsigned numbers and, through zigzag, for
signed ones. Zigzag is a bijection that gives no longer code to a smaller magnitude. -/
theorem compress_exact :
    Exact compressUint64Size compressUint64At decompressUint64 ∧
      Exact (fun v => compressUint64Size (zigzagEncode v)) compressInt64At decompressInt64 ∧
      Function.Bijective zigzagEncode ∧ Function.LeftInverse zigzagDecode zigzagEncode ∧
      ∀ a b : Int64, a.toInt.natAbs < b.toInt.natAbs →
        compressUint64Size (zigzagEncode a) ≤ compressUint64Size (zigzagEncode b) :=
  ⟨exact_uint64, exact_int64, bijective_zigzagEncode, zigzag_decode_encode,
    fun _ _ => compressUint64Size_zigzag_le⟩

end Sperm
