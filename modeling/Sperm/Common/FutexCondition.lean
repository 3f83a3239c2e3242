import Mathlib.Tactic.Common
import Sperm.Lib.Run
import Sperm.Lib.Pool

/-!
# `FutexCondition` (`common/cond.h`, `common/cond.cc`)

A counting condition: `counter_` is the number of free resources, or minus the number of waiters,
and a waiter that finds none sleeps in `FUTEX_WAIT`. Any number of threads run `wait` and `notify`;
every `atomic_exchange_and_add`, every `FUTEX_WAKE` and every return from `FUTEX_WAIT` is one step.
`lockword_` is never written, so `FUTEX_WAIT` on `kLockWordValue` always blocks.

* `State`, `Act`, `step`: the threads' program counters and the steps of `wait`, `anotify_` and
  `notify`, with the kernel's choice of the thread to wake in the action.
* `Sound`: the two steps of the time-out path that break the accounting are not taken.
* `step_cases`: what a step can do.
* `owed`: wake-ups that are on their way; **`step_credit`**: a sound step keeps
  `trues + owed + counter⁺ ≤ resource + incs`.
* **`trues_le_of_sound`**: on a sound run the waits that returned true are at most the resources.
* `timeout_wakes_without_resource`: the time-out path hands out resources that do not exist.
-/

namespace Sperm.FutexCondition

open StepRun ThreadPool

/-- `int32_t` arithmetic of `atomic_exchange_and_add`. -/
def add32 (n d : ℤ) : ℤ := (n + d).bmod (2 ^ 32)

/-- Where a thread stands in `wait` or `notify`. -/
inductive Pc where
  | idle
  /-- `wait` has decremented `counter_` and is about to call `FUTEX_WAIT`. -/
  | registered (timed : Bool)
  | blocked (timed : Bool)
  /-- `FUTEX_WAIT` returned `0`. -/
  | woken
  /-- `FUTEX_WAIT` failed with `ETIMEDOUT`; `anotify_(1, -1)` is next. -/
  | timedOut
  /-- `anotify_` is about to call `FUTEX_WAKE`. -/
  | anotifyWake
  /-- `notify` is in its loop around `FUTEX_WAKE`. -/
  | notifyWake
  deriving DecidableEq

/-- Is the thread blocked in `FUTEX_WAIT`? -/
def Pc.isBlocked : Pc → Bool
  | .blocked _ => true
  | _ => false

structure State (Tid : Type) where
  counter : ℤ
  pc : Tid → Pc
  /-- The `wait` calls that have returned true. -/
  trues : ℕ
  /-- The `notify` calls that have performed their increment. -/
  incs : ℕ

/-- `FutexCondition(resource)`, with every thread outside. -/
def State.new (Tid : Type) (resource : ℤ) : State Tid := ⟨resource, fun _ => .idle, 0, 0⟩

inductive Act (Tid : Type) where
  /-- `wait`: `atomic_exchange_and_add(&counter_, -1)`; `timed` is `wait_ms != -1`. -/
  | waitAdd (t : Tid) (timed : Bool)
  | futexWait (t : Tid)
  /-- `FUTEX_WAIT` fails with `EINTR`: `goto again`. -/
  | interrupt (t : Tid)
  /-- `FUTEX_WAIT` fails with another error: `return false`. -/
  | fail (t : Tid)
  /-- `FUTEX_WAIT` fails with `ETIMEDOUT`. -/
  | timeout (t : Tid)
  | waitReturn (t : Tid)
  /-- The time-out path's `anotify_(1, -1)`: the increment. -/
  | anotifyAdd (t : Tid)
  /-- The time-out path's `FUTEX_WAKE`, waking `u`. -/
  | anotifyWake (t : Tid) (u : Option Tid)
  | notifyAdd (t : Tid)
  /-- One `FUTEX_WAKE` of the loop in `notify`, waking `u`. -/
  | notifyWake (t : Tid) (u : Option Tid)

variable {Tid : Type} [DecidableEq Tid]

/-- Thread `t` moves to `p`. -/
def State.goto (s : State Tid) (t : Tid) (p : Pc) : State Tid :=
  { s with pc := Function.update s.pc t p }

@[simp] theorem goto_counter (s : State Tid) (t : Tid) (p : Pc) :
    (s.goto t p).counter = s.counter := rfl

@[simp] theorem goto_trues (s : State Tid) (t : Tid) (p : Pc) : (s.goto t p).trues = s.trues := rfl

@[simp] theorem goto_incs (s : State Tid) (t : Tid) (p : Pc) : (s.goto t p).incs = s.incs := rfl

variable [Fintype Tid]

/-- `FUTEX_WAKE` of one thread: the kernel wakes some blocked thread if there is one. -/
def futexWake (s : State Tid) : Option Tid → Option (State Tid)
  | some u => if (s.pc u).isBlocked then some (s.goto u .woken) else none
  | none => if ∀ u, (s.pc u).isBlocked = false then some s else none

/-- The `counter_threshold` that the time-out path of `wait` passes to `anotify_`. -/
def timeoutThreshold : ℤ := -1

def step (s : State Tid) : Act Tid → Option (State Tid)
  | .waitAdd t timed =>
    if s.pc t = .idle then
      if s.counter ≥ 1 then
        some { s with counter := add32 s.counter (-1), trues := s.trues + 1 }
      else some ({ s with counter := add32 s.counter (-1) }.goto t (.registered timed))
    else none
  | .futexWait t =>
    match s.pc t with
    | .registered timed => some (s.goto t (.blocked timed))
    | _ => none
  | .interrupt t =>
    match s.pc t with
    | .blocked timed => some (s.goto t (.registered timed))
    | _ => none
  | .fail t =>
    match s.pc t with
    | .registered _ => some (s.goto t .idle)
    | _ => none
  | .timeout t => if s.pc t = .blocked true then some (s.goto t .timedOut) else none
  | .waitReturn t =>
    if s.pc t = .woken then some ({ s with trues := s.trues + 1 }.goto t .idle) else none
  | .anotifyAdd t =>
    if s.pc t = .timedOut then
      some ({ s with counter := add32 s.counter 1 }.goto t
        (if s.counter ≥ timeoutThreshold then .idle else .anotifyWake))
    else none
  | .anotifyWake t u =>
    if s.pc t = .anotifyWake then futexWake (s.goto t .idle) u else none
  | .notifyAdd t =>
    if s.pc t = .idle then
      some ({ s with counter := add32 s.counter 1, incs := s.incs + 1 }.goto t
        (if s.counter ≥ 0 then .idle else .notifyWake))
    else none
  | .notifyWake t u =>
    if s.pc t = .notifyWake then
      -- the loop ends when `FUTEX_WAKE` reports one woken thread
      match u with
      | some _ => futexWake (s.goto t .idle) u
      | none => futexWake s u
    else none

/-- The steps after which the accounting still holds: a time-out gives its registration back only
while no `notify` has already paid for it (`counter_ < 0`), the time-out path's `FUTEX_WAKE` finds
nobody asleep, and `counter_` does not wrap below `INT32_MIN`. -/
def Sound (s : State Tid) : Act Tid → Prop
  | .waitAdd _ _ => s.counter ≠ -2 ^ 31
  | .anotifyAdd _ => s.counter < 0
  | .anotifyWake _ _ => ∀ u, (s.pc u).isBlocked = false
  | _ => True

instance (s : State Tid) (a : Act Tid) : Decidable (Sound s a) := by
  cases a <;> unfold Sound <;> infer_instance

/-! ## What a step does -/

/-- The outcomes of `FUTEX_WAKE`: one blocked thread wakes up, or nobody is blocked. -/
inductive Wake (s : State Tid) : Option Tid → State Tid → Prop where
  | one {u : Tid} {timed : Bool} (hu : s.pc u = .blocked timed) :
      Wake s (some u) (s.goto u .woken)
  | nobody (h : ∀ u, (s.pc u).isBlocked = false) : Wake s none s

theorem futexWake_cases {s s' : State Tid} {u : Option Tid} (h : futexWake s u = some s') :
    Wake s u s' := by
  cases u with
  | none =>
    simp only [futexWake, Option.ite_none_right_eq_some, Option.some.injEq] at h
    obtain ⟨hno, rfl⟩ := h
    exact .nobody hno
  | some v =>
    simp only [futexWake, Option.ite_none_right_eq_some, Option.some.injEq] at h
    obtain ⟨hb, rfl⟩ := h
    cases hv : s.pc v with
    | blocked b => exact .one hv
    | _ => rw [hv] at hb; cases hb

/-- The steps with their guards. -/
inductive Step (s : State Tid) : Act Tid → State Tid → Prop where
  | take {t : Tid} {timed : Bool} (hp : s.pc t = .idle) (hc : s.counter ≥ 1) :
      Step s (.waitAdd t timed)
        { s with counter := add32 s.counter (-1), trues := s.trues + 1 }
  | register {t : Tid} {timed : Bool} (hp : s.pc t = .idle) (hc : ¬ s.counter ≥ 1) :
      Step s (.waitAdd t timed)
        ({ s with counter := add32 s.counter (-1) }.goto t (.registered timed))
  | futexWait {t : Tid} {timed : Bool} (hp : s.pc t = .registered timed) :
      Step s (.futexWait t) (s.goto t (.blocked timed))
  | interrupt {t : Tid} {timed : Bool} (hp : s.pc t = .blocked timed) :
      Step s (.interrupt t) (s.goto t (.registered timed))
  | fail {t : Tid} {timed : Bool} (hp : s.pc t = .registered timed) :
      Step s (.fail t) (s.goto t .idle)
  | timeout {t : Tid} (hp : s.pc t = .blocked true) : Step s (.timeout t) (s.goto t .timedOut)
  | waitReturn {t : Tid} (hp : s.pc t = .woken) :
      Step s (.waitReturn t) ({ s with trues := s.trues + 1 }.goto t .idle)
  | anotifyAdd {t : Tid} (hp : s.pc t = .timedOut) :
      Step s (.anotifyAdd t) ({ s with counter := add32 s.counter 1 }.goto t
        (if s.counter ≥ timeoutThreshold then .idle else .anotifyWake))
  | anotifyWake {t : Tid} {u : Option Tid} {s' : State Tid} (hp : s.pc t = .anotifyWake)
      (hw : Wake (s.goto t .idle) u s') : Step s (.anotifyWake t u) s'
  | notifyAdd {t : Tid} (hp : s.pc t = .idle) :
      Step s (.notifyAdd t)
        ({ s with counter := add32 s.counter 1, incs := s.incs + 1 }.goto t
          (if s.counter ≥ 0 then .idle else .notifyWake))
  | notifyWake {t u : Tid} {timed : Bool} (hp : s.pc t = .notifyWake)
      (hu : (s.goto t .idle).pc u = .blocked timed) :
      Step s (.notifyWake t (some u)) ((s.goto t .idle).goto u .woken)
  | notifyAgain {t : Tid} (hp : s.pc t = .notifyWake) : Step s (.notifyWake t none) s

theorem step_cases {s s' : State Tid} {a : Act Tid} (h : step s a = some s') : Step s a s' := by
  cases a with
  | waitAdd t timed =>
    rw [step] at h
    split_ifs at h with hp hc
    · cases h; exact .take hp hc
    · cases h; exact .register hp hc
  | futexWait t =>
    rw [step] at h
    split at h
    · next hp => cases h; exact .futexWait hp
    · cases h
  | interrupt t =>
    rw [step] at h
    split at h
    · next hp => cases h; exact .interrupt hp
    · cases h
  | fail t =>
    rw [step] at h
    split at h
    · next hp => cases h; exact .fail hp
    · cases h
  | timeout t =>
    rw [step] at h
    split_ifs at h with hp
    cases h
    exact .timeout hp
  | waitReturn t =>
    rw [step] at h
    split_ifs at h with hp
    cases h
    exact .waitReturn hp
  | anotifyAdd t =>
    rw [step, Option.ite_none_right_eq_some] at h
    obtain ⟨hp, h⟩ := h
    cases h
    exact .anotifyAdd hp
  | anotifyWake t u =>
    rw [step] at h
    split_ifs at h with hp
    exact .anotifyWake hp (futexWake_cases h)
  | notifyAdd t =>
    rw [step, Option.ite_none_right_eq_some] at h
    obtain ⟨hp, h⟩ := h
    cases h
    exact .notifyAdd hp
  | notifyWake t u =>
    cases u with
    | none =>
      rw [step] at h
      split_ifs at h with hp
      cases futexWake_cases h
      exact .notifyAgain hp
    | some u =>
      rw [step] at h
      split_ifs at h with hp
      cases futexWake_cases h with
      | one hu => exact .notifyWake hp hu

/-! ## The accounting -/

/-- A wake-up on its way: a woken thread that has not returned, or a `notify` that has not yet
woken anybody. -/
def wakeups : Pc → ℕ
  | .woken => 1
  | .notifyWake => 1
  | _ => 0

/-- The wake-ups on their way. -/
def owed (s : State Tid) : ℕ := tally wakeups s.pc

/-- Every wait that returned true or will be made to is covered by a resource. -/
def Credit (resource : ℤ) (s : State Tid) : Prop :=
  -2 ^ 31 ≤ s.counter ∧ s.counter < 2 ^ 31 ∧
    s.trues + owed s + max s.counter 0 ≤ resource + s.incs

theorem add32_one {n : ℤ} (h₁ : -2 ^ 31 ≤ n) (h₂ : n < 2 ^ 31) :
    -2 ^ 31 ≤ add32 n 1 ∧ add32 n 1 < 2 ^ 31 ∧ add32 n 1 ≤ n + 1 ∧ (n < 0 → add32 n 1 = n + 1) := by
  unfold add32
  rw [Int.bmod_def]
  omega

theorem add32_neg_one {n : ℤ} (h₁ : -2 ^ 31 ≤ n) (h₂ : n < 2 ^ 31) (h : n ≠ -2 ^ 31) :
    add32 n (-1) = n - 1 := by
  unfold add32
  rw [Int.bmod_def]
  omega

theorem owed_goto (s : State Tid) (t : Tid) (p : Pc) :
    owed (s.goto t p) + wakeups (s.pc t) = owed s + wakeups p :=
  tally_update wakeups s.pc t p

section

omit [DecidableEq Tid]

theorem credit_take {resource : ℤ} {s : State Tid} (h : Credit resource s) (hc : s.counter ≥ 1) :
    Credit resource { s with counter := add32 s.counter (-1), trues := s.trues + 1 } := by
  obtain ⟨h₁, h₂, h₃⟩ := h
  rw [add32_neg_one h₁ h₂ (by omega)]
  refine ⟨?_, ?_, ?_⟩
  · change _ ≤ s.counter - 1
    omega
  · change s.counter - 1 < _
    omega
  · change ((s.trues + 1 : ℕ) : ℤ) + owed s + max (s.counter - 1) 0 ≤ resource + s.incs
    omega

theorem credit_register {resource : ℤ} {s : State Tid} (h : Credit resource s)
    (hc : ¬ s.counter ≥ 1) (hmin : s.counter ≠ -2 ^ 31) :
    Credit resource { s with counter := add32 s.counter (-1) } := by
  obtain ⟨h₁, h₂, h₃⟩ := h
  rw [add32_neg_one h₁ h₂ hmin]
  refine ⟨?_, ?_, ?_⟩
  · change _ ≤ s.counter - 1
    omega
  · change s.counter - 1 < _
    omega
  · change (s.trues : ℤ) + owed s + max (s.counter - 1) 0 ≤ resource + s.incs
    omega

theorem credit_unregister {resource : ℤ} {s : State Tid} (h : Credit resource s)
    (hneg : s.counter < 0) : Credit resource { s with counter := add32 s.counter 1 } := by
  obtain ⟨h₁, h₂, h₃⟩ := h
  obtain ⟨ha₁, ha₂, -, ha₃⟩ := add32_one h₁ h₂
  refine ⟨ha₁, ha₂, ?_⟩
  change (s.trues : ℤ) + owed s + max (add32 s.counter 1) 0 ≤ resource + s.incs
  rw [ha₃ hneg]
  omega

end

/-- Moving a thread between program counters that carry the same wake-ups changes nothing. -/
theorem credit_goto {resource : ℤ} {s : State Tid} {t : Tid} {p : Pc}
    (hp : wakeups p = wakeups (s.pc t)) (h : Credit resource s) : Credit resource (s.goto t p) := by
  have ho := owed_goto s t p
  obtain ⟨h₁, h₂, h₃⟩ := h
  refine ⟨h₁, h₂, ?_⟩
  simp only [goto_trues, goto_counter, goto_incs]
  omega

theorem credit_waitReturn {resource : ℤ} {s : State Tid} {t : Tid} (h : Credit resource s)
    (hp : s.pc t = .woken) : Credit resource ({ s with trues := s.trues + 1 }.goto t .idle) := by
  obtain ⟨h₁, h₂, h₃⟩ := h
  have ho := owed_goto s t .idle
  rw [hp] at ho
  change owed (s.goto t .idle) + 1 = owed s + 0 at ho
  refine ⟨h₁, h₂, ?_⟩
  change ((s.trues + 1 : ℕ) : ℤ) + owed (s.goto t .idle) + max s.counter 0 ≤ resource + s.incs
  omega

/-- `notify` adds a resource to `counter_`, or owes a wake-up to a waiter. -/
theorem credit_notifyAdd {resource : ℤ} {s : State Tid} {t : Tid} (h : Credit resource s)
    (hp : s.pc t = .idle) :
    Credit resource ({ s with counter := add32 s.counter 1, incs := s.incs + 1 }.goto t
      (if s.counter ≥ 0 then .idle else .notifyWake)) := by
  obtain ⟨h₁, h₂, h₃⟩ := h
  obtain ⟨ha₁, ha₂, ha₃, ha₄⟩ := add32_one h₁ h₂
  have ho := owed_goto s t (if s.counter ≥ 0 then .idle else .notifyWake)
  rw [hp] at ho
  refine ⟨ha₁, ha₂, ?_⟩
  change (s.trues : ℤ) + owed (s.goto t _) + max (add32 s.counter 1) 0 ≤
    resource + ((s.incs + 1 : ℕ) : ℤ)
  split_ifs at ho ⊢ with hc
  · simp only [wakeups] at ho
    omega
  · simp only [wakeups] at ho
    rw [ha₄ (by omega)]
    omega

theorem credit_notifyWake {resource : ℤ} {s : State Tid} {t u : Tid} {timed : Bool}
    (h : Credit resource s) (hp : s.pc t = .notifyWake)
    (hu : (s.goto t .idle).pc u = .blocked timed) :
    Credit resource ((s.goto t .idle).goto u .woken) := by
  obtain ⟨h₁, h₂, h₃⟩ := h
  have ho₁ := owed_goto s t .idle
  have ho₂ := owed_goto (s.goto t .idle) u .woken
  rw [hp] at ho₁
  rw [hu] at ho₂
  simp only [wakeups] at ho₁ ho₂
  refine ⟨h₁, h₂, ?_⟩
  simp only [goto_trues, goto_counter, goto_incs]
  omega

/-- **One sound step keeps the credit.** -/
theorem step_credit {resource : ℤ} {s s' : State Tid} {a : Act Tid} (hs : Sound s a)
    (hI : Credit resource s) (h : step s a = some s') : Credit resource s' := by
  cases step_cases h with
  | take _ hc => exact credit_take hI hc
  | @register t timed hp hc => exact credit_goto (by simp [hp, wakeups]) (credit_register hI hc hs)
  | futexWait hp => exact credit_goto (by simp [hp, wakeups]) hI
  | interrupt hp => exact credit_goto (by simp [hp, wakeups]) hI
  | fail hp => exact credit_goto (by simp [hp, wakeups]) hI
  | timeout hp => exact credit_goto (by simp [hp, wakeups]) hI
  | waitReturn hp => exact credit_waitReturn hI hp
  | anotifyAdd hp =>
    refine credit_goto ?_ (credit_unregister hI hs)
    simp only [hp, wakeups]
    split_ifs <;> rfl
  | @anotifyWake t _ _ hp hw =>
    cases hw with
    | @one v timed hv =>
      -- the guard: nobody is blocked
      exfalso
      by_cases e : v = t
      · subst e
        simp [State.goto] at hv
      · have hv' := hs v
        rw [show (s.goto t .idle).pc v = s.pc v from Function.update_of_ne e _ _] at hv
        rw [hv] at hv'
        cases hv'
    | nobody => exact credit_goto (by simp [hp, wakeups]) hI
  | notifyAdd hp => exact credit_notifyAdd hI hp
  | notifyWake hp hu => exact credit_notifyWake hI hp hu
  | notifyAgain => exact hI

/-- **Resources are conserved on sound runs.** -/
theorem trues_le_of_sound {resource : ℤ} (hr : 0 ≤ resource) (hr' : resource < 2 ^ 31)
    {l : List (Act Tid)} {s : State Tid} (hrun : run step (State.new Tid resource) l = some s)
    (hs : Guarded step Sound (State.new Tid resource) l) :
    (s.trues : ℤ) ≤ resource + s.incs := by
  have h₀ : Credit resource (State.new Tid resource) := by
    have : owed (State.new Tid resource) = 0 := tally_const Pc.idle rfl
    refine ⟨by change _ ≤ resource; omega, hr', ?_⟩
    change ((0 : ℕ) : ℤ) + _ + max resource 0 ≤ resource + ((0 : ℕ) : ℤ)
    omega
  obtain ⟨-, -, h⟩ := invariant_of_guarded (fun s a s' => step_credit) hrun hs h₀
  omega

/-- A resource taken at once, a time-out of the only waiter, and a wait ended by a `notify`. -/
def soundRun : List (Act (Fin 2)) :=
  [.waitAdd 0 false, .waitAdd 0 true, .futexWait 0, .timeout 0, .anotifyAdd 0,
    .waitAdd 0 false, .futexWait 0, .interrupt 0, .notifyAdd 1, .notifyWake 1 none, .futexWait 0,
    .notifyWake 1 (some 0), .waitReturn 0]

theorem trues_le_soundRun : ∃ s, run step (State.new (Fin 2) 1) soundRun = some s ∧
    s.trues = 2 ∧ (s.trues : ℤ) ≤ 1 + s.incs := by
  have h : (run step (State.new (Fin 2) 1) soundRun).any (fun s => s.trues = 2) := by decide
  obtain ⟨s, hrun, hs⟩ := (Option.any_eq_true _ _).mp h
  exact ⟨s, hrun, of_decide_eq_true hs,
    trues_le_of_sound (by decide) (by decide) hrun (by decide)⟩

/-! ## The time-out path -/

/-- Two waiters, no resource: the first times out, and its `FUTEX_WAKE` releases the second. -/
def timeoutRun : List (Act (Fin 2)) :=
  [.waitAdd 0 true, .waitAdd 1 false, .futexWait 0, .futexWait 1, .timeout 0, .anotifyAdd 0,
    .anotifyWake 0 (some 1), .waitReturn 1]

/-- One resource for two waiters: thread `0` times out after `notify` has paid for it, so the
resource is both in `counter_` (taken by `1`) and on its way as a wake-up (received by `2`). -/
def raceRun : List (Act (Fin 4)) :=
  [.waitAdd 0 true, .futexWait 0, .notifyAdd 3, .timeout 0, .anotifyAdd 0, .waitAdd 1 false,
    .waitAdd 2 false, .futexWait 2, .notifyWake 3 (some 2), .waitReturn 2]

/-- **The time-out path hands out resources that do not exist**: one `true` from nothing, and two
from one `notify`. -/
theorem timeout_wakes_without_resource :
    (¬ ∀ s, run step (State.new (Fin 2) 0) timeoutRun = some s → (s.trues : ℤ) ≤ 0 + s.incs) ∧
      ¬ ∀ s, run step (State.new (Fin 4) 0) raceRun = some s → (s.trues : ℤ) ≤ 0 + s.incs := by
  have h₁ : (run step (State.new (Fin 2) 0) timeoutRun).any
    fun s => ¬ (s.trues : ℤ) ≤ 0 + s.incs := by decide
  have h₂ : (run step (State.new (Fin 4) 0) raceRun).any
    fun s => ¬ (s.trues : ℤ) ≤ 0 + s.incs := by decide
  obtain ⟨s₁, hr₁, hs₁⟩ := (Option.any_eq_true _ _).mp h₁
  obtain ⟨s₂, hr₂, hs₂⟩ := (Option.any_eq_true _ _).mp h₂
  exact ⟨fun h => of_decide_eq_true hs₁ (h s₁ hr₁), fun h => of_decide_eq_true hs₂ (h s₂ hr₂)⟩

end Sperm.FutexCondition
