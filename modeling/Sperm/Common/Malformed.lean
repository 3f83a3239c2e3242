import Sperm.Common.CompressBuffer
import Sperm.Common.Serializer

/-!
# Numbers on the wire that are too large (`common/serializer.h`, `common/proto_serializer.h`)

`deserialize(std::string*)` and `DeserizlizeFromByteArray` go on with whatever size the bytes
announce: the one resizes its string to it before the bytes are looked at, the other hands it to the
protobuf parser. The 32-bit forms of `deserialize` read 64 bits and keep half of them.

* `announced`: the length of the prefix and the size in it.
* `decompressUint64From_cases`: the prefix is cut off in its nine-byte form, cut off otherwise, or
  read.
* `Fits`: the announced bytes are there.
* **`stringAtomic_iff`**, **`parsesInside_iff`**: each function keeps to the bytes exactly then.
* `encoded`: the number in the bytes of a code. **`deserialize32_iff`**: a 32-bit variable gets this
  number exactly when it is below `2 ^ 32`.
-/

namespace Sperm

/-- The length of the prefix that `s` bytes of memory start with, and the size it announces. -/
def announced (p : ℕ → UInt8) (s : ℕ) : Option (ℕ × ℕ) :=
  match decompressUint64 p s 0 with
  | .ok (0, _) => none
  | .ok (k + 1, v) => some (k + 1, v.toNat)
  | .error _ => none

/-- The prefix is not the start of a nine-byte form, and what it announces is there. -/
def Fits (p : ℕ → UInt8) (s : ℕ) : Prop :=
  ¬ LongTruncated p s ∧ ∀ k n, announced p s = some (k, n) → k + n ≤ s

/-- When the prefix is read, the size in it is at most the number of bytes behind it. With this size
`u->resize(size)` and `CodedInputStream input(data, size)` are called. -/
def SizeInside (r : ReadableByteArray) : Prop :=
  ∀ v r', decompressUint64From r 0 = .ok (true, v, r') → v.toNat ≤ r'.size - r'.cur

theorem decompressUint64From_cases (r : ReadableByteArray) :
    (LongTruncated r.remain.1 r.remain.2 ∧ decompressUint64From r 0 = .error .assert) ∨
      (¬ LongTruncated r.remain.1 r.remain.2 ∧ announced r.remain.1 r.remain.2 = none ∧
        ∃ v, decompressUint64From r 0 = .ok (false, v, r)) ∨
      ∃ k v r', ¬ LongTruncated r.remain.1 r.remain.2 ∧
        announced r.remain.1 r.remain.2 = some (k, v.toNat) ∧ 1 ≤ k ∧
          decompressUint64From r 0 = .ok (true, v, r') ∧ r'.cur = r.cur + k ∧ r'.size = r.size ∧
            r'.bytes = r.bytes := by
  by_cases hl : LongTruncated r.remain.1 r.remain.2
  · exact .inl ⟨hl, (decompressUint64From_assert_iff r 0).mpr hl⟩
  obtain ⟨⟨n, v, hd, hn⟩, -⟩ := withinInput_of_not_longTruncated hl 0
  cases n with
  | zero =>
    refine .inr (.inl ⟨hl, ?_, v, ?_⟩)
    · simp only [announced, hd]
    · simp only [decompressUint64From, hd, if_true]
  | succ k =>
    obtain ⟨r', hr, hcur, hsize, hbytes⟩ := ReadableByteArray.read_of_le (r := r) (n := k + 1)
      (by change k + 1 ≤ r.remain.2; omega)
    refine .inr (.inr ⟨k + 1, v, r', hl, ?_, by omega, ?_, hcur, hsize, hbytes⟩)
    · simp only [announced, hd]
    · simp only [decompressUint64From, hd, hr, if_neg (Nat.succ_ne_zero k)]

/-- A prefix that is read announces no more than is left exactly when what it announces is there. -/
theorem fits_iff (r : ReadableByteArray) :
    Fits r.remain.1 r.remain.2 ↔ ¬ LongTruncated r.remain.1 r.remain.2 ∧ SizeInside r := by
  have hcur := r.cur_le
  have hrem : r.remain.2 = r.size - r.cur := rfl
  rw [Fits]
  refine and_congr_right fun hl => ?_
  rcases decompressUint64From_cases r with
    ⟨h, -⟩ | ⟨-, ha, v, hd⟩ | ⟨k, v, r', -, ha, -, hd, hc, hs, -⟩
  · exact absurd h hl
  · simp only [SizeInside, ha, hd]
    exact iff_of_true nofun nofun
  · have hcur' := r'.cur_le
    constructor
    · intro hfit v₁ r₁ h₁
      have := hfit k _ ha
      rw [hd] at h₁
      cases h₁
      omega
    · intro hin k₁ n₁ h₁
      have := hin v r' hd
      rw [ha] at h₁
      cases h₁
      omega

/-! ## Strings -/

variable {env : Env} {u : List UInt8} {r : ReadableByteArray}

/-- `deserialize(std::string*, bytes)` either returns true, with the announced bytes in `*u` and the
cursor behind them, or it returns false and has changed nothing. -/
def TakesAllOrNothing (env : Env) (u : List UInt8) (r : ReadableByteArray) : Prop :=
  (∃ k n r', announced r.remain.1 r.remain.2 = some (k, n) ∧
    deserializeString env u r = .ok (true, slice r.bytes (r.cur + k) n, r') ∧
      r'.cur = r.cur + k + n ∧ r'.size = r.size ∧ r'.bytes = r.bytes) ∨
    deserializeString env u r = .ok (false, u, r)

/-- A string is deserialized atomically, and never resized beyond what is left. -/
def StringAtomic (env : Env) (u : List UInt8) (r : ReadableByteArray) : Prop :=
  TakesAllOrNothing env u r ∧ SizeInside r

/-- There is memory for a string of the announced size. -/
def StringFits (env : Env) (r : ReadableByteArray) : Prop :=
  ∀ k n, announced r.remain.1 r.remain.2 = some (k, n) → env.stringFits n = true

theorem takesAllOrNothing_of_fits (hfit : Fits r.remain.1 r.remain.2) (hs : StringFits env r) :
    TakesAllOrNothing env u r := by
  have hrem : r.remain.2 = r.size - r.cur := rfl
  rcases decompressUint64From_cases r with
    ⟨h, -⟩ | ⟨-, -, v, hd⟩ | ⟨k, v, r₁, -, ha, -, hd, hc, hsz, hb⟩
  · exact absurd h hfit.1
  · right
    rw [deserializeString, hd]
  · have hle := hfit.2 k _ ha
    obtain ⟨r₂, hr, hc₂, hs₂, hb₂⟩ :=
      ReadableByteArray.read_of_le (r := r₁) (n := v.toNat) (by omega)
    refine .inl ⟨k, v.toNat, r₂, ha, ?_, by omega, hs₂.trans hsz, hb₂.trans hb⟩
    simp only [deserializeString, hd, hs k _ ha, if_true, hr, hb, hc]

theorem not_longTruncated_of_takesAllOrNothing (h : TakesAllOrNothing env u r) :
    ¬ LongTruncated r.remain.1 r.remain.2 := by
  intro hl
  have hd := (decompressUint64From_assert_iff r 0).mpr hl
  rcases h with ⟨k, n, r', -, h, -⟩ | h <;> simp only [deserializeString, hd] at h <;> cases h

/-- A `resize` that gets no memory throws. -/
theorem stringFits_of_takesAllOrNothing (h : TakesAllOrNothing env u r) : StringFits env r := by
  intro k n hk
  rcases decompressUint64From_cases r with ⟨hl, -⟩ | ⟨-, ha, -⟩ | ⟨k', v, r₁, -, ha, -, hd, -⟩
  · exact absurd hl (not_longTruncated_of_takesAllOrNothing h)
  · rw [ha] at hk
    cases hk
  · rw [ha] at hk
    cases hk
    by_contra hs
    rcases h with ⟨k', n', r', -, h, -⟩ | h <;>
      simp only [deserializeString, hd, if_neg hs] at h <;> cases h

/-- **A string is deserialized atomically exactly when the announced bytes are there and there is
memory for them.** -/
theorem stringAtomic_iff (env : Env) (u : List UInt8) (r : ReadableByteArray) :
    StringAtomic env u r ↔ Fits r.remain.1 r.remain.2 ∧ StringFits env r := by
  constructor
  · rintro ⟨ht, hin⟩
    exact ⟨(fits_iff r).mpr ⟨not_longTruncated_of_takesAllOrNothing ht, hin⟩,
      stringFits_of_takesAllOrNothing ht⟩
  · rintro ⟨hfit, hs⟩
    exact ⟨takesAllOrNothing_of_fits hfit hs, ((fits_iff r).mp hfit).2⟩

/-- A size of ten and nothing behind it. -/
def cutString : ReadableByteArray := .new (fun _ => 20) 1 (by norm_num)

/-- The size of ten makes a string of ten bytes out of the one byte in it, and the cursor stays
behind the prefix although the call returns false. -/
theorem cutString_not_atomic :
    (∃ r', deserializeString roomy [104] cutString =
      .ok (false, 104 :: List.replicate 9 0, r') ∧ r'.cur = 1) ∧
        ¬ StringAtomic roomy [104] cutString := by
  have hd : ∃ r', deserializeString roomy [104] cutString =
      .ok (false, 104 :: List.replicate 9 0, r') ∧ r'.cur = 1 := ⟨_, rfl, rfl⟩
  refine ⟨hd, fun h => ?_⟩
  obtain ⟨r', hd, -⟩ := hd
  rcases h.1 with ⟨k, n, r₁, -, h, -⟩ | h <;> rw [hd] at h <;> cases h

/-! ## Messages -/

variable {ι : Type} {T : ι → Type} {i : ι}

/-- `DeserizlizeFromByteArray` hands the parser no more than what is left, and it either returns
true with the cursor behind the announced bytes, or it returns false. -/
def ParsesInside (pb : Protobuf T) (m : T i) (r : ReadableByteArray) : Prop :=
  SizeInside r ∧
    ((∃ k n m' r', announced r.remain.1 r.remain.2 = some (k, n) ∧
      deserializeFromByteArray pb m r = .ok (true, m', r') ∧ r'.cur = r.cur + k + n) ∨
        ∃ m' r', deserializeFromByteArray pb m r = .ok (false, m', r'))

theorem parsesInside_of_fits (pb : Protobuf T) (m : T i) (hfit : Fits r.remain.1 r.remain.2) :
    ParsesInside pb m r := by
  have hrem : r.remain.2 = r.size - r.cur := rfl
  refine ⟨((fits_iff r).mp hfit).2, ?_⟩
  rcases decompressUint64From_cases r with
    ⟨h, -⟩ | ⟨-, -, v, hd⟩ | ⟨k, v, r₁, -, ha, -, hd, hc, hsz, -⟩
  · exact absurd h hfit.1
  · exact .inr ⟨m, r, by rw [deserializeFromByteArray, hd]⟩
  · have hle := hfit.2 k _ ha
    obtain ⟨r₂, hr, hc₂, -⟩ := ReadableByteArray.read_of_le (r := r₁) (n := v.toNat) (by omega)
    rcases hp : pb.parseFromCodedStream i r₁.remain.1 ((v.toNat : ℤ).bmod (2 ^ 32)) with
      ⟨_ | _, m'⟩
    · exact .inr ⟨m', r₁, by simp only [deserializeFromByteArray, hd, hp]⟩
    · refine .inl ⟨k, v.toNat, m', r₂, ha, ?_, by omega⟩
      simp only [deserializeFromByteArray, hd, hp, hr]

/-- **A message is parsed inside its frame exactly when the announced bytes are there**, whatever
the parser does. -/
theorem parsesInside_iff (pb : Protobuf T) (m : T i) (r : ReadableByteArray) :
    ParsesInside pb m r ↔ Fits r.remain.1 r.remain.2 := by
  refine ⟨fun h => (fits_iff r).mpr ⟨fun hl => ?_, h.1⟩, parsesInside_of_fits pb m⟩
  have hd := (decompressUint64From_assert_iff r 0).mpr hl
  rcases h.2 with ⟨k, n, m', r', -, h, -⟩ | ⟨m', r', h⟩ <;>
    simp only [deserializeFromByteArray, hd] at h <;> cases h

theorem two_lt_max : 2 < 2 ^ 63 := by norm_num

theorem five_lt_max : 5 < 2 ^ 63 := by norm_num

/-- A size of two, the tag of the flag, and the flag in the byte behind the buffer. -/
def cutFlag : ReadableByteArray := .new (fun i => [4, 0x08, 1].getD i 0) 2 two_lt_max

/-- The parser takes the flag from outside the buffer, and the call returns true with the cursor
still behind the prefix. -/
theorem cutFlag_not_inside :
    (∃ r', deserializeFromByteArray flagPb (i := ()) false cutFlag = .ok (true, true, r') ∧
      r'.cur = 1) ∧ ¬ ParsesInside flagPb (i := ()) false cutFlag := by
  refine ⟨⟨_, rfl, rfl⟩, fun h => ?_⟩
  exact absurd (h.1 2 _ rfl) (by decide)

/-! ## 32-bit numbers -/

open LittleEndian

/-- The 64-bit number in the bytes of a code. -/
def encoded (bs : List UInt8) : ℕ :=
  if bs.length ≤ 8 then value bs / 2 ^ bs.length else value bs.tail

/-- The bytes between the cursors of `r` and `r'`. -/
def consumed (r r' : ReadableByteArray) : List UInt8 := slice r.bytes r.cur (r'.cur - r.cur)

/-- `deserialize(uint32_t*, bytes)` gives the number in the bytes it takes, or it returns false and
leaves the variable. -/
def ExactUint32 (u : UInt32) (r : ReadableByteArray) : Prop :=
  (∃ x r', deserializeUint32 u r = .ok (true, x, r') ∧ x.toNat = encoded (consumed r r')) ∨
    ∃ r', deserializeUint32 u r = .ok (false, u, r')

/-- `deserialize(int32_t*, bytes)` gives the number in the bytes it takes, decoded by zigzag, or it
returns false and leaves the variable. -/
def ExactInt32 (u : Int32) (r : ReadableByteArray) : Prop :=
  (∃ x r', deserializeInt32 u r = .ok (true, x, r') ∧
    x.toInt = (zigzagDecode (UInt64.ofNat (encoded (consumed r r')))).toInt) ∨
    ∃ r', deserializeInt32 u r = .ok (false, u, r')

/-- The code is not the start of a nine-byte form, and the number in it is below `2 ^ 32`. -/
def Fits32 (p : ℕ → UInt8) (s : ℕ) : Prop :=
  ¬ LongTruncated p s ∧ ∀ k n, announced p s = some (k, n) → n < 2 ^ 32

theorem decode_of_announced {p : ℕ → UInt8} {s k : ℕ} {v : UInt64}
    (h : announced p s = some (k, v.toNat)) : 1 ≤ k ∧ decompressUint64 p s 0 = .ok (k, v) := by
  unfold announced at h
  split at h
  · cases h
  · next j w hd =>
    rw [Option.some.injEq, Prod.mk.injEq] at h
    obtain ⟨rfl, hv⟩ := h
    exact ⟨Nat.succ_pos j, by rw [hd, UInt64.toNat_inj.mp hv]⟩
  · cases h

theorem encoded_of_decode {p : ℕ → UInt8} {s n : ℕ} {v₀ v : UInt64} (hn : 1 ≤ n)
    (h : decompressUint64 p s v₀ = .ok (n, v)) : encoded (slice p 0 n) = v.toNat := by
  have hsize := decompressUint64Size_eq_of_decode hn h
  have hlt : ∀ bs : List UInt8, bs.length ≤ 8 → value bs < 2 ^ 64 := fun bs hb =>
    (value_lt bs).trans_le ((Nat.pow_le_pow_right (by norm_num) hb).trans (by norm_num))
  by_cases h₈ : n ≤ 8
  · have hs : n ≤ s := by
      by_contra hs
      rw [decompressUint64_truncated (by omega) (by omega)] at h
      have := (Prod.mk.inj (Except.ok.inj h)).1
      omega
    rw [decompressUint64_short hsize h₈ hs] at h
    obtain ⟨-, rfl⟩ := Prod.mk.inj (Except.ok.inj h)
    have hv := hlt (slice p 0 n) (by rwa [length_slice])
    rw [encoded, length_slice, if_pos h₈, UInt64.toNat_ofNat', Nat.mod_eq_of_lt]
    exact (Nat.div_le_self _ _).trans_lt hv
  · obtain rfl : n = 9 := by have := decompressUint64Size_le (p 0); omega
    have hs : 1 ≤ s := by
      by_contra hs
      obtain rfl : s = 0 := by omega
      exact absurd (Prod.mk.inj (Except.ok.inj h)).1 (by decide)
    rw [decompressUint64_long (eq_of_decompressUint64Size_eq_nine hsize) hs] at h
    obtain ⟨-, rfl⟩ := Prod.mk.inj (Except.ok.inj h)
    have hv := hlt (slice p 1 8) (by rw [length_slice])
    rw [encoded, length_slice, if_neg (by omega), slice_succ, List.tail_cons,
      UInt64.toNat_ofNat', Nat.mod_eq_of_lt hv]

theorem encoded_consumed {r r' : ReadableByteArray} {k : ℕ} {v : UInt64}
    (ha : announced r.remain.1 r.remain.2 = some (k, v.toNat)) (hc : r'.cur = r.cur + k) :
    encoded (consumed r r') = v.toNat := by
  obtain ⟨hk, hd⟩ := decode_of_announced ha
  rw [← encoded_of_decode hk hd, consumed, hc, Nat.add_sub_cancel_left]
  change encoded _ = encoded (slice (fun i => r.bytes (r.cur + i)) 0 k)
  rw [slice_shift, add_zero]

/-- A number that zigzag gives is a 32-bit number exactly when its code is. -/
theorem zigzagDecode_toInt32_iff (v : UInt64) :
    (zigzagDecode v).toInt32.toInt = (zigzagDecode v).toInt ↔ v.toNat < 2 ^ 32 := by
  obtain ⟨x, rfl⟩ := bijective_zigzagEncode.2 v
  have h₁ := x.le_toInt
  have h₂ := x.toInt_lt
  rw [zigzag_decode_encode, Int64.toInt_toInt32, zigzagEncode_toNat, Int.bmod_def]
  split_ifs <;> omega

/-- A form of `deserialize` that reads 64 bits and narrows them: if its result is right exactly for
numbers below `2 ^ 32`, so is what it does with the bytes. -/
theorem narrow_iff {α : Type}
    {f : α → ReadableByteArray → Except Fault (Bool × α × ReadableByteArray)} (narrow : UInt64 → α)
    (Right : ℕ → α → Prop) {u : α} {r : ReadableByteArray}
    (hf : f u r = match decompressUint64From r 0 with
      | .error e => .error e
      | .ok (false, _, r') => .ok (false, u, r')
      | .ok (true, v, r') => .ok (true, narrow v, r'))
    (hR : ∀ v : UInt64, Right v.toNat (narrow v) ↔ v.toNat < 2 ^ 32) :
    ((∃ x r', f u r = .ok (true, x, r') ∧ Right (encoded (consumed r r')) x) ∨
      ∃ r', f u r = .ok (false, u, r')) ↔ Fits32 r.remain.1 r.remain.2 := by
  rcases decompressUint64From_cases r with
    ⟨hl, hd⟩ | ⟨hl, ha, v, hd⟩ | ⟨k, v, r', hl, ha, -, hd, hc, -⟩
  · rw [hd] at hf
    refine iff_of_false (fun h => ?_) fun h => h.1 hl
    rcases h with ⟨x, r', h, -⟩ | ⟨r', h⟩ <;> rw [hf] at h <;> cases h
  · rw [hd] at hf
    refine iff_of_true (.inr ⟨r, hf⟩) ⟨hl, fun k n h => ?_⟩
    rw [ha] at h
    cases h
  · rw [hd] at hf
    have he := encoded_consumed ha hc
    constructor
    · rintro (⟨x, r₁, h, hx⟩ | ⟨r₁, h⟩)
      · rw [hf] at h
        obtain ⟨-, h⟩ := Prod.mk.inj (Except.ok.inj h)
        obtain ⟨rfl, rfl⟩ := Prod.mk.inj h
        rw [he] at hx
        refine ⟨hl, fun k' n h' => ?_⟩
        rw [ha] at h'
        cases h'
        exact (hR v).mp hx
      · rw [hf] at h
        cases h
    · intro h
      exact .inl ⟨narrow v, r', hf, by rw [he]; exact (hR v).mpr (h.2 k _ ha)⟩

theorem exactUint32_iff (u : UInt32) (r : ReadableByteArray) :
    ExactUint32 u r ↔ Fits32 r.remain.1 r.remain.2 := by
  refine narrow_iff UInt64.toUInt32 (fun n x => x.toNat = n) rfl fun v => ?_
  rw [UInt64.toNat_toUInt32]
  omega

theorem exactInt32_iff (u : Int32) (r : ReadableByteArray) :
    ExactInt32 u r ↔ Fits32 r.remain.1 r.remain.2 := by
  refine narrow_iff (fun v => (zigzagDecode v).toInt32)
    (fun n x => x.toInt = (zigzagDecode (UInt64.ofNat n)).toInt) ?_ fun v => ?_
  · rw [deserializeInt32, decompressInt64From]
    rcases decompressUint64From r 0 with e | ⟨ok, v, r'⟩
    · rfl
    · cases ok <;> rfl
  · rw [UInt64.ofNat_toNat]
    exact zigzagDecode_toInt32_iff v

/-- **A 32-bit variable gets the number on the wire exactly when that number is below `2 ^ 32`**,
and its code is not cut off in the nine-byte form. -/
theorem deserialize32_iff (u : UInt32) (i : Int32) (r : ReadableByteArray) :
    (ExactUint32 u r ↔ Fits32 r.remain.1 r.remain.2) ∧
      (ExactInt32 i r ↔ Fits32 r.remain.1 r.remain.2) :=
  ⟨exactUint32_iff u r, exactInt32_iff i r⟩

/-- The number `2 ^ 32` on the wire. -/
def wideNumber : ReadableByteArray :=
  .new (fun i => [0x0f, 0, 0, 0, 0x20].getD i 0) 5 five_lt_max

/-- Both forms of `deserialize` return true: the one gives `0` for `2 ^ 32`, the other `-2 ^ 31` for
the number `2 ^ 31` that zigzag makes of it. -/
theorem wideNumber_truncated :
    (∃ r', deserializeUint32 7 wideNumber = .ok (true, 0, r')) ∧ ¬ ExactUint32 7 wideNumber ∧
      (∃ r', deserializeInt32 7 wideNumber = .ok (true, -2147483648, r')) ∧
        ¬ ExactInt32 7 wideNumber := by
  have hwide : ¬ Fits32 wideNumber.remain.1 wideNumber.remain.2 := fun h =>
    absurd (h.2 5 (2 ^ 32) (by decide +kernel)) (by decide)
  exact ⟨⟨_, rfl⟩, fun h => hwide ((exactUint32_iff _ _).mp h),
    ⟨_, rfl⟩, fun h => hwide ((exactInt32_iff _ _).mp h)⟩

end Sperm
