import Mathlib.Algebra.Order.Ring.Int
import Mathlib.Tactic.Common

/-!
# Deadlines (`common/utils.h`, `common/queue.h`, `common/cond.cc`)

A `struct timespec` is a pair of integers. An operation on `int` or `long` whose result is not in
the range of its type is undefined: it gives an `Overflow`.

* `addtimeTimespec`, with `deadline` (the blocking queues) and `relativeTimeout` (`FutexCondition`).
* `addtimeTimespec_short`: below a second nothing is added. `addtimeTimespec_long`: from a second on
  the time is added exactly.
* **`waitsExactly_iff`**: a timed wait waits for the requested time exactly when this is `0` or at
  least a second.
-/

namespace Sperm

/-- The type whose range was left. -/
inductive Overflow where
  | int
  | long
  deriving DecidableEq

/-- An `int` result. -/
def int32 (x : ℤ) : Except Overflow ℤ := if -2 ^ 31 ≤ x ∧ x < 2 ^ 31 then .ok x else .error .int

/-- A `long` or `time_t` result. -/
def long64 (x : ℤ) : Except Overflow ℤ := if -2 ^ 63 ≤ x ∧ x < 2 ^ 63 then .ok x else .error .long

theorem int32_of_mem {x : ℤ} (h₁ : -2 ^ 31 ≤ x) (h₂ : x < 2 ^ 31) : int32 x = .ok x :=
  if_pos ⟨h₁, h₂⟩

theorem long64_of_mem {x : ℤ} (h₁ : -2 ^ 63 ≤ x) (h₂ : x < 2 ^ 63) : long64 x = .ok x :=
  if_pos ⟨h₁, h₂⟩

theorem long64_of_le {x : ℤ} (h : 2 ^ 63 ≤ x) : long64 x = .error .long :=
  if_neg fun h' => not_lt.mpr h h'.2

structure Timespec where
  sec : ℤ
  nsec : ℤ
  deriving DecidableEq

namespace Timespec

/-- The time in nanoseconds. -/
def nanos (t : Timespec) : ℤ := t.sec * 10 ^ 9 + t.nsec

/-- `tv_nsec` is below a second, and `tv_sec` is a `time_t`. -/
structure Normalised (t : Timespec) : Prop where
  nsec_nonneg : 0 ≤ t.nsec
  nsec_lt : t.nsec < 10 ^ 9
  le_sec : -2 ^ 63 ≤ t.sec
  sec_lt : t.sec < 2 ^ 63

end Timespec

/-- `addtime_timespec(tp, ms)`. -/
def addtimeTimespec (tp : Timespec) (ms : ℤ) : Except Overflow Timespec := do
  let tp ← if ms ≥ 1000 then do
      let sec ← long64 (tp.sec + ms.tdiv 1000)
      let ms := ms.tmod 1000
      let us ← int32 (ms * 1000)
      let ns ← int32 (us * 1000)
      let nsec ← long64 (tp.nsec + ns)
      pure ⟨sec, nsec⟩
    else pure tp
  let m : ℤ := 1000 * 1000 * 1000
  let sec ← long64 (tp.sec + tp.nsec.tdiv m)
  pure ⟨sec, tp.nsec.tmod m⟩

/-- What `push` and `pop` of the blocking queues pass to `timedWait`; `now` is what
`gettime_timespec` has given. Without a `wait_ms` they wait for ever. -/
def deadline (now : Timespec) (waitMs : ℤ) : Except Overflow (Option Timespec) :=
  if waitMs ≠ -1 then some <$> addtimeTimespec now waitMs else .ok none

/-- The timeout that `FutexCondition::wait` passes to the kernel. -/
def relativeTimeout (waitMs : ℤ) : Except Overflow (Option Timespec) :=
  if waitMs ≠ -1 then some <$> addtimeTimespec ⟨0, 0⟩ waitMs else .ok none

theorem addtimeTimespec_short {t : Timespec} (ht : t.Normalised) {ms : ℤ} (h : ms < 1000) :
    addtimeTimespec t ms = .ok t := by
  obtain ⟨h₁, h₂, h₃, h₄⟩ := ht
  have hd : t.nsec.tdiv (1000 * 1000 * 1000) = 0 := Int.tdiv_eq_zero_of_lt h₁ (by omega)
  have hm : t.nsec.tmod (1000 * 1000 * 1000) = t.nsec := Int.tmod_eq_of_lt h₁ (by omega)
  have hl := long64_of_mem h₃ h₄
  simp only [addtimeTimespec, if_neg (not_le.mpr h), pure_bind, hd, hm, add_zero, hl]
  rfl

/-- The seconds and nanoseconds of `t` and `ms` milliseconds. -/
def Timespec.plus (t : Timespec) (ms : ℤ) : Timespec :=
  ⟨(t.nanos + ms * 10 ^ 6) / 10 ^ 9, (t.nanos + ms * 10 ^ 6) % 10 ^ 9⟩

theorem Timespec.plus_eq (t : Timespec) (ms : ℤ) :
    t.plus ms = ⟨t.sec + ms / 1000 + (t.nsec + ms % 1000 * 1000 * 1000) / 10 ^ 9,
      (t.nsec + ms % 1000 * 1000 * 1000) % 10 ^ 9⟩ := by
  unfold plus nanos
  congr 1 <;> omega

/-- From a second on, the time is added exactly, unless the seconds leave their range. -/
theorem addtimeTimespec_long {t : Timespec} (ht : t.Normalised) {ms : ℤ} (h : 1000 ≤ ms)
    (hms : ms < 2 ^ 31) :
    addtimeTimespec t ms =
      if (t.plus ms).sec < 2 ^ 63 then .ok (t.plus ms) else .error .long := by
  obtain ⟨h₁, h₂, h₃, h₄⟩ := ht
  have hq : ms.tdiv 1000 = ms / 1000 := Int.tdiv_eq_ediv_of_nonneg (by omega)
  have hr : ms.tmod 1000 = ms % 1000 := Int.tmod_eq_emod_of_nonneg (by omega)
  have hus := int32_of_mem (x := ms % 1000 * 1000) (by omega) (by omega)
  have hns := int32_of_mem (x := ms % 1000 * 1000 * 1000) (by omega) (by omega)
  have hnsec := long64_of_mem (x := t.nsec + ms % 1000 * 1000 * 1000) (by omega) (by omega)
  have hd : (t.nsec + ms % 1000 * 1000 * 1000).tdiv (1000 * 1000 * 1000) =
      (t.nsec + ms % 1000 * 1000 * 1000) / 10 ^ 9 := Int.tdiv_eq_ediv_of_nonneg (by omega)
  have hm : (t.nsec + ms % 1000 * 1000 * 1000).tmod (1000 * 1000 * 1000) =
      (t.nsec + ms % 1000 * 1000 * 1000) % 10 ^ 9 := Int.tmod_eq_emod_of_nonneg (by omega)
  rw [t.plus_eq ms]
  simp only [addtimeTimespec, ge_iff_le, h, if_true, hq, hr, bind, Except.bind, pure, Except.pure]
  by_cases hs : t.sec + ms / 1000 < 2 ^ 63
  · have hsec := long64_of_mem (show -2 ^ 63 ≤ t.sec + ms / 1000 by omega) hs
    simp only [hsec, hus, hns, hnsec, hd, hm]
    split_ifs with hf
    · rw [long64_of_mem (by omega) hf]
    · rw [long64_of_le (not_lt.mp hf)]
  · rw [long64_of_le (not_lt.mp hs), if_neg (by omega)]

theorem Timespec.normalised_plus {t : Timespec} (ht : t.Normalised) {ms : ℤ} (h₀ : 0 ≤ ms)
    (h : (t.plus ms).sec < 2 ^ 63) : (t.plus ms).Normalised := by
  obtain ⟨h₁, h₂, h₃, h₄⟩ := ht
  rw [plus_eq] at h ⊢
  constructor
  · exact Int.emod_nonneg _ (by decide)
  · exact Int.emod_lt_of_pos _ (by decide)
  · simp only
    omega
  · exact h

theorem Timespec.nanos_plus (t : Timespec) (ms : ℤ) :
    (t.plus ms).nanos = t.nanos + ms * 10 ^ 6 := Int.ediv_mul_add_emod _ _

/-- A result that is `ms` milliseconds after `start`, in normal form and without overflow. -/
def IsExactly (start : Timespec) (ms : ℤ) (result : Except Overflow (Option Timespec)) : Prop :=
  ∃ d, result = .ok (some d) ∧ d.nanos = start.nanos + ms * 10 ^ 6 ∧ d.Normalised

/-- Both kinds of timed wait end when they should. -/
def WaitsExactly (now : Timespec) (waitMs : ℤ) : Prop :=
  IsExactly now waitMs (deadline now waitMs) ∧ IsExactly ⟨0, 0⟩ waitMs (relativeTimeout waitMs)

theorem addtimeTimespec_isExactly_iff {t : Timespec} (ht : t.Normalised) {ms : ℤ} (h₀ : 0 ≤ ms)
    (hms : ms < 2 ^ 31) :
    IsExactly t ms (some <$> addtimeTimespec t ms) ↔
      (ms = 0 ∨ 1000 ≤ ms) ∧ (t.plus ms).sec < 2 ^ 63 := by
  by_cases h : 1000 ≤ ms
  · rw [addtimeTimespec_long ht h hms]
    split_ifs with hs
    · refine iff_of_true ⟨t.plus ms, rfl, t.nanos_plus ms, ?_⟩ ⟨.inr h, hs⟩
      exact Timespec.normalised_plus ht h₀ hs
    · exact iff_of_false (fun ⟨d, hd, _⟩ => by cases hd) fun h' => hs h'.2
  · rw [addtimeTimespec_short ht (not_le.mp h)]
    constructor
    · rintro ⟨d, hd, hn, -⟩
      cases hd
      have hz : ms = 0 := by omega
      refine ⟨.inl hz, ?_⟩
      have := ht.nsec_nonneg
      have := ht.nsec_lt
      have := ht.sec_lt
      rw [Timespec.plus_eq, hz]
      simp only
      omega
    · rintro ⟨hz, -⟩
      obtain rfl : ms = 0 := by omega
      exact ⟨t, rfl, by omega, ht⟩

/-- **A timed wait waits for the requested time exactly when this is `0` or at least a second**, and
the seconds of the deadline are in their range. -/
theorem waitsExactly_iff {now : Timespec} (hnow : now.Normalised) {waitMs : ℤ} (h₀ : 0 ≤ waitMs)
    (hms : waitMs < 2 ^ 31) :
    WaitsExactly now waitMs ↔ (waitMs = 0 ∨ 1000 ≤ waitMs) ∧ (now.plus waitMs).sec < 2 ^ 63 := by
  have hzero : Timespec.Normalised ⟨0, 0⟩ := ⟨le_rfl, by decide, by decide, by decide⟩
  have hne : waitMs ≠ -1 := by omega
  have hsec : (Timespec.plus ⟨0, 0⟩ waitMs).sec < 2 ^ 63 := by
    rw [Timespec.plus_eq]
    simp only
    omega
  rw [WaitsExactly, deadline, relativeTimeout, if_pos hne, if_pos hne,
    addtimeTimespec_isExactly_iff hnow h₀ hms, addtimeTimespec_isExactly_iff hzero h₀ hms]
  exact ⟨fun h => h.1, fun h => ⟨h, h.1, hsec⟩⟩

/-- A second and a half, from a time whose nanoseconds carry over. -/
theorem waitsExactly_carry :
    Timespec.Normalised ⟨7, 999999999⟩ ∧ WaitsExactly ⟨7, 999999999⟩ 1500 :=
  have hnow : Timespec.Normalised ⟨7, 999999999⟩ := ⟨by decide, by decide, by decide, by decide⟩
  ⟨hnow, (waitsExactly_iff hnow (by decide) (by decide)).mpr (by decide)⟩

/-- A wait of half a second does not wait at all. -/
theorem halfSecond_not_exact :
    deadline ⟨7, 0⟩ 500 = .ok (some ⟨7, 0⟩) ∧ relativeTimeout 500 = .ok (some ⟨0, 0⟩) ∧
      ¬ WaitsExactly ⟨7, 0⟩ 500 := by
  have hd : deadline ⟨7, 0⟩ 500 = .ok (some ⟨7, 0⟩) := rfl
  refine ⟨hd, rfl, fun h => ?_⟩
  obtain ⟨d, h₁, h₂, -⟩ := h.1
  rw [hd] at h₁
  cases h₁
  exact absurd h₂ (by decide)

end Sperm
