import Mathlib.Data.Nat.Digits.Lemmas

/-!
# Little-endian objects in memory

An integer object of `w` bytes is stored least significant byte first.

* `value`: the number stored in a list of bytes; `bytes w n`: the `w` bytes of `n`.
* `value_bytes`, `bytes_value`: the two are inverse; `value_append`, `value_lt`.
* `patch dst off src`: `memcpy` of `src` into the object `dst` at offset `off`; `store` does it to
  an integer object, `bytes_store` and `take_patch` say what is there afterwards.
-/

namespace LittleEndian

/-- The number stored in the bytes, least significant first. -/
def value (bs : List UInt8) : ℕ := Nat.ofDigits 256 (bs.map UInt8.toNat)

/-- The low `w` bytes of `n`, least significant first. -/
def bytes : ℕ → ℕ → List UInt8
  | 0, _ => []
  | w + 1, n => UInt8.ofNat n :: bytes w (n / 256)

@[simp] theorem value_nil : value [] = 0 := rfl

@[simp] theorem value_cons (b : UInt8) (bs : List UInt8) :
    value (b :: bs) = b.toNat + 256 * value bs := by
  rw [value, value, List.map_cons, Nat.ofDigits_cons]

theorem value_append (xs ys : List UInt8) :
    value (xs ++ ys) = value xs + 256 ^ xs.length * value ys := by
  rw [value, List.map_append, Nat.ofDigits_append, List.length_map, value, value]

theorem value_lt (bs : List UInt8) : value bs < 256 ^ bs.length := by
  have h : ∀ d ∈ bs.map UInt8.toNat, d < 256 := by
    intro d hd
    obtain ⟨b, -, rfl⟩ := List.mem_map.mp hd
    exact b.toNat_lt
  have := Nat.ofDigits_lt_base_pow_length (by norm_num : 1 < 256) h
  rwa [List.length_map] at this

theorem value_replicate_zero (n : ℕ) : value (List.replicate n 0) = 0 := by
  induction n with
  | zero => rfl
  | succ n ih => rw [List.replicate_succ, value_cons, ih]; rfl

@[simp] theorem length_bytes (w n : ℕ) : (bytes w n).length = w := by
  induction w generalizing n with
  | zero => rfl
  | succ w ih => rw [bytes, List.length_cons, ih]

theorem value_bytes (w n : ℕ) : value (bytes w n) = n % 256 ^ w := by
  induction w generalizing n with
  | zero => rw [bytes, value_nil, pow_zero, Nat.mod_one]
  | succ w ih =>
    rw [bytes, value_cons, ih, UInt8.toNat_ofNat', show 2 ^ 8 = 256 from rfl,
      pow_succ', Nat.mod_mul]

theorem value_bytes_of_lt {w n : ℕ} (h : n < 256 ^ w) : value (bytes w n) = n := by
  rw [value_bytes, Nat.mod_eq_of_lt h]

theorem bytes_value (bs : List UInt8) : bytes bs.length (value bs) = bs := by
  induction bs with
  | nil => rfl
  | cons b bs ih =>
    have hb := b.toNat_lt
    have hq : (b.toNat + 256 * value bs) / 256 = value bs := by omega
    have hr : UInt8.ofNat (b.toNat + 256 * value bs) = b := by
      apply UInt8.toNat_inj.mp
      rw [UInt8.toNat_ofNat']
      omega
    rw [List.length_cons, bytes, value_cons, hq, hr, ih]

theorem bytes_add_of_lt {w n : ℕ} (k : ℕ) (h : n < 256 ^ w) :
    bytes (w + k) n = bytes w n ++ List.replicate k 0 := by
  have hv : value (bytes w n ++ List.replicate k 0) = n := by
    rw [value_append, value_replicate_zero, value_bytes_of_lt h, mul_zero, add_zero]
  have hl : (bytes w n ++ List.replicate k (0 : UInt8)).length = w + k := by simp
  rw [← hl]
  nth_rewrite 2 [← hv]
  rw [bytes_value]

/-! ## Writing into an object -/

/-- `memcpy` of `src` into the object `dst` at offset `off`. -/
def patch (dst : List UInt8) (off : ℕ) (src : List UInt8) : List UInt8 :=
  dst.take off ++ src ++ dst.drop (off + src.length)

/-- `memcpy` of `src` at offset `off` into a `w`-byte integer object that holds `n`. -/
def store (w n off : ℕ) (src : List UInt8) : ℕ := value (patch (bytes w n) off src)

theorem length_patch {dst src : List UInt8} {off : ℕ} (h : off + src.length ≤ dst.length) :
    (patch dst off src).length = dst.length := by
  simp only [patch, List.length_append, List.length_take, List.length_drop]
  omega

theorem take_patch {dst src : List UInt8} {off : ℕ} (h : off ≤ dst.length) :
    (patch dst off src).take (off + src.length) = dst.take off ++ src := by
  have hl : (dst.take off ++ src).length = off + src.length := by
    rw [List.length_append, List.length_take, Nat.min_eq_left h]
  rw [patch, ← hl, List.take_left]

theorem bytes_store {w n off : ℕ} {src : List UInt8} (h : off + src.length ≤ w) :
    bytes w (store w n off src) = patch (bytes w n) off src := by
  have hl : (patch (bytes w n) off src).length = w := by
    rw [length_patch (by rw [length_bytes]; exact h), length_bytes]
  rw [store]
  nth_rewrite 1 [← hl]
  exact bytes_value _

theorem store_lt {w n off : ℕ} {src : List UInt8} (h : off + src.length ≤ w) :
    store w n off src < 256 ^ w := by
  have := value_lt (patch (bytes w n) off src)
  rwa [length_patch (by rw [length_bytes]; exact h), length_bytes] at this

/-- Completing an object whose other bytes are zero. -/
theorem store_above {w : ℕ} {xs src : List UInt8} (h : xs.length + src.length ≤ w) :
    store w (value xs) xs.length src = value (xs ++ src) := by
  obtain ⟨k, rfl⟩ : ∃ k, w = xs.length + k := ⟨w - xs.length, by omega⟩
  rw [store, patch, bytes_add_of_lt k (value_lt xs), bytes_value, List.take_left,
    List.drop_length_add_append, List.drop_replicate, value_append, value_replicate_zero, mul_zero,
    add_zero]

end LittleEndian
