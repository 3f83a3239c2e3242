import Sperm.Common.ByteArrayRun

/-!
# The growth of a byte array (`common/byte_array.cc`)

`allocate` doubles `next_size` in 64-bit arithmetic until it is as large as `cur_ + size`, which is
64-bit arithmetic too.

* `IsCapacity`: `0` and the powers of two below `2 ^ 64`. **`growLoop_eq_none`**: from one of them
  the loop never ends on a request beyond `2 ^ 63`; `exists_growLoop_pow`: it ends on the others.
* `allocate_cases`, **`isCapacity_of_run`**: what `allocate` does to `size_`, in one call and in a
  run. `exists_allocate_iff`: 65 tests tell whether the loop ends.
* `Allocates`: what a call should do. **`allocates_iff`**: it does so exactly when `cur_ + size` is
  not beyond `2 ^ 63`.
-/

namespace Sperm

open StepRun

/-! ## The loop -/

/-- What `size_` can be: nothing, or a power of two. -/
def IsCapacity (x : ℕ) : Prop := x = 0 ∨ ∃ k < 64, x = 2 ^ k

variable {need fuel next r k : ℕ}

theorem IsCapacity.le (h : IsCapacity next) : next ≤ 2 ^ 63 := by
  rcases h with rfl | ⟨k, hk, rfl⟩
  · exact Nat.zero_le _
  · exact Nat.pow_le_pow_right Nat.two_pos (by omega)

theorem pow_double (hk : k < 63) : 2 ^ k * 2 % 2 ^ 64 = 2 ^ (k + 1) := by
  rw [← pow_succ]
  exact Nat.mod_eq_of_lt (Nat.pow_lt_pow_right Nat.one_lt_two (by omega))

/-- Twice the largest capacity is `0`. -/
theorem IsCapacity.double (h : IsCapacity next) : IsCapacity (next * 2 % 2 ^ 64) := by
  rcases h with rfl | ⟨k, hk, rfl⟩
  · exact .inl rfl
  · rcases Nat.lt_succ_iff_lt_or_eq.mp hk with hlt | rfl
    · exact .inr ⟨k + 1, by omega, pow_double hlt⟩
    · exact .inl (by decide)

theorem IsCapacity.of_growLoop (h : IsCapacity next) (hr : growLoop need fuel next = some r) :
    IsCapacity r := by
  induction fuel generalizing next with
  | zero => cases hr
  | succ fuel ih =>
    rw [growLoop] at hr
    split_ifs at hr
    · exact ih h.double hr
    · cases hr
      exact h

/-- **A request beyond** `2 ^ 63` is never met, for as long as the loop goes on. -/
theorem growLoop_eq_none (hneed : 2 ^ 63 < need) (h : IsCapacity next) (fuel : ℕ) :
    growLoop need fuel next = none := by
  cases hr : growLoop need fuel next with
  | none => rfl
  | some r =>
    have hle := (h.of_growLoop hr).le
    have hge := le_of_growLoop hr
    omega

theorem exists_growLoop_pow (hneed : need ≤ 2 ^ 63) (hk : k < 64) (hfuel : 64 ≤ k + fuel) :
    ∃ r, growLoop need fuel (2 ^ k) = some r := by
  induction fuel generalizing k with
  | zero => omega
  | succ fuel ih =>
    rw [growLoop]
    split_ifs with hgt
    · have hlt : k < 63 := (Nat.pow_lt_pow_iff_right Nat.one_lt_two).mp (by omega)
      rw [pow_double hlt]
      exact ih (by omega) (by omega)
    · exact ⟨_, rfl⟩

theorem growLoop_zero (hneed : 0 < need) (fuel : ℕ) : growLoop need fuel 0 = none := by
  induction fuel with
  | zero => rfl
  | succ fuel ih =>
    rw [growLoop, if_pos hneed]
    exact ih

/-- A loop that ends has ended after 65 tests. -/
theorem exists_growLoop_65 (h : IsCapacity next) (hr : growLoop need fuel next = some r) :
    ∃ r', growLoop need 65 next = some r' := by
  have hneed : need ≤ 2 ^ 63 := (le_of_growLoop hr).trans (h.of_growLoop hr).le
  rcases h with rfl | ⟨k, hk, rfl⟩
  · by_cases hpos : 0 < need
    · rw [growLoop_zero hpos] at hr
      cases hr
    · exact ⟨0, if_neg hpos⟩
  · exact exists_growLoop_pow hneed hk (by omega)

namespace WriteableByteArray

variable {env : Env} {w w' : WriteableByteArray} {a : Option ℕ} {n : ℕ}

theorem isCapacity_new (userFree : Bool) (small : ℕ → UInt8) :
    IsCapacity (new userFree small).size := by
  cases userFree with
  | false => exact .inr ⟨7, by omega, rfl⟩
  | true => exact .inl rfl

theorem exists_oldSize (hw : IsCapacity w.size) : ∃ k < 64, w.oldSize = 2 ^ k := by
  rcases hw with hzero | ⟨k, hk, hpow⟩
  · exact ⟨7, by omega, if_pos hzero⟩
  · refine ⟨k, hk, ?_⟩
    rw [oldSize, if_neg (by rw [hpow]; exact (Nat.two_pow_pos k).ne'), hpow]

theorem isCapacity_oldSize (hw : IsCapacity w.size) : IsCapacity w.oldSize :=
  .inr (exists_oldSize hw)

/-! ## One call -/

/-- **One call** that returns has room for the request, gets no memory, or grows. -/
theorem allocate_cases (h : w.allocate env n = .ok (a, w')) :
    (w'.cur = (w.cur + n) % 2 ^ 64 ∧ w'.size = w.size ∧ a = w.addr) ∨
      (w'.size = w.oldSize ∧ a = none) ∨
      (w'.cur = (w.cur + n) % 2 ^ 64 ∧ growLoop ((w.cur + n) % 2 ^ 64) 65
        (w.oldSize * 2 % 2 ^ 64) = some w'.size ∧ a = some w.cur) := by
  rw [allocate] at h
  split_ifs at h with hgt
  · split at h
    · cases h
    · next next hnext =>
      split at h
      · cases h
        exact .inr (.inl ⟨rfl, rfl⟩)
      · cases h
        exact .inr (.inr ⟨rfl, hnext, rfl⟩)
  · cases h
    exact .inl ⟨rfl, rfl, rfl⟩

/-- **A call returns** exactly when its loop, if there is one, ends. -/
theorem exists_allocate_iff (hw : IsCapacity w.size) (env : Env) (n : ℕ) :
    (∃ a w', w.allocate env n = .ok (a, w')) ↔ ((w.cur + n) % 2 ^ 64 > w.size → ∃ fuel next,
      growLoop ((w.cur + n) % 2 ^ 64) fuel (w.oldSize * 2 % 2 ^ 64) = some next) := by
  rw [allocate]
  split_ifs with hgt
  · constructor
    · rintro ⟨a, w', h⟩ -
      split at h
      · cases h
      · next next hnext => exact ⟨65, next, hnext⟩
    · intro hends
      obtain ⟨fuel, next, hnext⟩ := hends hgt
      obtain ⟨r, hr⟩ := exists_growLoop_65 (isCapacity_oldSize hw).double hnext
      split
      · next hnone =>
        rw [hr] at hnone
        cases hnone
      · split <;> exact ⟨_, _, rfl⟩
  · exact ⟨fun _ h => absurd h hgt, fun _ => ⟨_, _, rfl⟩⟩

theorem isCapacity_allocate (hw : IsCapacity w.size) (h : w.allocate env n = .ok (a, w')) :
    IsCapacity w'.size := by
  rcases allocate_cases h with ⟨-, hsize, -⟩ | ⟨hsize, -⟩ | ⟨-, hgrow, -⟩
  · rw [hsize]
    exact hw
  · rw [hsize]
    exact isCapacity_oldSize hw
  · exact (isCapacity_oldSize hw).double.of_growLoop hgrow

/-! ## Runs -/

def callStep (w : WriteableByteArray) (c : WriteCall) : Option WriteableByteArray :=
  (w.call c).toOption.map Prod.snd

theorem isCapacity_step {c : WriteCall} (hw : IsCapacity w.size) (h : w.callStep c = some w') :
    IsCapacity w'.size := by
  rw [callStep, call_eq_write, write] at h
  cases hall : w.allocate c.env c.chunk.length with
  | error f =>
    rw [hall] at h
    cases h
  | ok res =>
    obtain ⟨a, w₁⟩ := res
    have hsize := isCapacity_allocate hw hall
    rw [hall] at h
    cases a with
    | none =>
      cases h
      exact hsize
    | some a =>
      cases h
      exact hsize

/-- **Every run** leaves a capacity in `size_`. -/
theorem isCapacity_of_run {userFree : Bool} {small : ℕ → UInt8} {calls : List WriteCall}
    (h : run callStep (new userFree small) calls = some w) : IsCapacity w.size :=
  invariant_of_run (I := fun w => IsCapacity w.size) (fun _ _ _ => isCapacity_step) h
    (isCapacity_new userFree small)

/-! ## Enough memory -/

/-- What `allocate(size)` should do: its loop ends, an address other than `NULL` has as much behind
it as was asked for, and what 64 bits cannot count is refused. -/
structure Allocates (env : Env) (w : WriteableByteArray) (size : UInt64) : Prop where
  ends : (w.cur + size.toNat) % 2 ^ 64 > w.size → ∃ fuel next,
    growLoop ((w.cur + size.toNat) % 2 ^ 64) fuel (w.oldSize * 2 % 2 ^ 64) = some next
  enough : ∀ a w', w.allocate env size.toNat = .ok (some a, w') → w.cur + size.toNat ≤ w'.size
  refuses : 2 ^ 64 ≤ w.cur + size.toNat → ∃ w', w.allocate env size.toNat = .ok (none, w')

theorem cur_of_allocate {a : ℕ} (h : w.allocate env n = .ok (some a, w')) :
    w'.cur = (w.cur + n) % 2 ^ 64 := by
  rcases allocate_cases h with ⟨hcur, -⟩ | ⟨-, hnone⟩ | ⟨hcur, -⟩
  · exact hcur
  · cases hnone
  · exact hcur

theorem exists_growLoop_of_le (hw : IsCapacity w.size) (hle : need ≤ 2 ^ 63)
    (hgt : w.size < need) : ∃ r, growLoop need 65 (w.oldSize * 2 % 2 ^ 64) = some r := by
  obtain ⟨k, hk, hpow⟩ := exists_oldSize hw
  have hlt : k < 63 := by
    refine (Nat.pow_lt_pow_iff_right Nat.one_lt_two).mp ?_
    rw [← hpow, oldSize]
    split_ifs
    · decide
    · omega
  rw [hpow, pow_double hlt]
  exact exists_growLoop_pow hle (by omega) (by omega)

/-- A sum that wraps around is not refused. -/
theorem exists_allocate_of_wrap (env : Env) {size : UInt64}
    (hwrap : 2 ^ 64 ≤ w.cur + size.toNat) (hlt : w.cur < 2 ^ 64) :
    ∃ a w', w.allocate env size.toNat = .ok (some a, w') := by
  have hsize := size.toNat_lt
  have hroom : ¬ (w.cur + size.toNat) % 2 ^ 64 > w.size := by
    have hcur := w.cur_le
    omega
  rw [allocate, dif_neg hroom, addr, if_neg (by omega)]
  exact ⟨_, _, rfl⟩

theorem allocates_iff_of_isCapacity (hw : IsCapacity w.size) (env : Env) (size : UInt64) :
    Allocates env w size ↔ w.cur + size.toNat ≤ 2 ^ 63 := by
  have hcur := w.cur_le
  have hsize := hw.le
  constructor
  · intro h
    by_contra hbig
    by_cases hwrap : 2 ^ 64 ≤ w.cur + size.toNat
    · obtain ⟨w₁, hnone⟩ := h.refuses hwrap
      obtain ⟨a, w₂, hsome⟩ := exists_allocate_of_wrap env hwrap (by omega)
      rw [hnone] at hsome
      cases hsome
    · have hmod : (w.cur + size.toNat) % 2 ^ 64 = w.cur + size.toNat :=
        Nat.mod_eq_of_lt (not_le.mp hwrap)
      obtain ⟨fuel, next, hnext⟩ := h.ends (by omega)
      rw [growLoop_eq_none (by omega) (isCapacity_oldSize hw).double] at hnext
      cases hnext
  · intro hle
    have hmod : (w.cur + size.toNat) % 2 ^ 64 = w.cur + size.toNat :=
      Nat.mod_eq_of_lt (by omega)
    constructor
    · intro hgt
      exact ⟨65, exists_growLoop_of_le hw (by omega) hgt⟩
    · intro a w' hall
      rw [← hmod, ← cur_of_allocate hall]
      exact w'.cur_le
    · intro hwrap
      omega

/-- **Growth.** After every run, a call ends, gives enough memory and refuses what is too much
exactly when `cur_ + size` is not beyond `2 ^ 63`. -/
theorem allocates_iff {userFree : Bool} {small : ℕ → UInt8} {calls : List WriteCall}
    (h : run callStep (new userFree small) calls = some w) (env : Env) (size : UInt64) :
    Allocates env w size ↔ w.cur + size.toNat ≤ 2 ^ 63 :=
  allocates_iff_of_isCapacity (isCapacity_of_run h) env size

/-- After one byte: there is enough for 300 more, and not for `2 ^ 64 - 1`. -/
theorem allocates_after_one :
    ∃ w, run callStep (new true fun _ => 0) [⟨true, [1], some fun _ => 0⟩] = some w ∧
      Allocates (WriteCall.env ⟨true, [], none⟩) w 300 ∧
      ¬ Allocates (WriteCall.env ⟨true, [], none⟩) w (-1) := by
  have hone : ∃ w, run callStep (new true fun _ => 0) [⟨true, [1], some fun _ => 0⟩] = some w ∧
      w.cur = 1 := ⟨_, rfl, rfl⟩
  obtain ⟨w, hrun, hcur⟩ := hone
  refine ⟨w, hrun, (allocates_iff hrun _ _).mpr ?_, fun h => ?_⟩
  · rw [hcur]
    decide
  · have hle := (allocates_iff hrun _ _).mp h
    rw [hcur] at hle
    revert hle
    decide

/-- `2 ^ 64 - 1` bytes are too much for a new array. -/
theorem not_allocates_new :
    ¬ Allocates (WriteCall.env ⟨true, [], none⟩) (new false fun _ => 0) (-1) := by
  intro h
  have hle := (allocates_iff_of_isCapacity (isCapacity_new _ _) _ _).mp h
  revert hle
  decide

end WriteableByteArray

end Sperm
