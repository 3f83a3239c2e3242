import Mathlib.Tactic.Common
import Sperm.Lib.Monitor

/-!
# `BoundedBlockingQueue` (`common/queue.h`)

A deque of at most `size_` elements behind one mutex: `push` and `push_front` wait on `notFull_`,
`pop` waits on `notEmpty_`, and each notifies the other condition.

* `Call`, `Cond`, `attempt`: the critical sections; `queue`: the monitor they make.
* `deque`: the sequential object.
* **`bounded_fifo_not_stranded`**: bounded, first in first out, and no waiter is stranded.
-/

namespace Sperm.BoundedBlockingQueue

open Monitor StepRun

variable {α Tid : Type}

inductive Call (α : Type) where
  | push (x : α)
  | pushFront (x : α)
  | pop
  deriving DecidableEq

inductive Cond where
  | notEmpty
  | notFull
  deriving DecidableEq

/-- A critical section that finds the queue ready: the queue after it, the value of `pop`, and the
condition it notifies. -/
def attempt (size : ℕ) : Call α → List α → Option (List α × Option α × Option Cond)
  | .push x, q => if q.length = size then none else some (q ++ [x], none, some .notEmpty)
  | .pushFront x, q => if q.length = size then none else some (x :: q, none, some .notEmpty)
  | .pop, [] => none
  | .pop, x :: q => some (q, some x, some .notFull)

/-- `BoundedBlockingQueue(max_size)`. -/
def queue (α : Type) (size : ℕ) : Spec (List α) (Call α) (Option α) Cond where
  waitsOn
    | .pop => some .notEmpty
    | _ => some .notFull
  attempt := attempt size

/-- The calls on a sequential deque. -/
def deque : Call α → List α → Option (List α × Option α)
  | .push x, q => some (q ++ [x], none)
  | .pushFront x, q => some (x :: q, none)
  | .pop, [] => none
  | .pop, x :: q => some (q, some x)

/-! ## The critical sections -/

theorem attempt_cases {size : ℕ} {op : Call α} {q q' : List α} {r : Option α} {n : Option Cond}
    (h : attempt size op q = some (q', r, n)) :
    deque op q = some (q', r) ∧
      (op ≠ .pop ∧ q.length ≠ size ∧ q'.length = q.length + 1 ∧ n = some .notEmpty ∨
        op = .pop ∧ q.length = q'.length + 1 ∧ n = some .notFull) := by
  cases op with
  | push x =>
    rw [attempt] at h
    split_ifs at h with hf
    cases h
    exact ⟨rfl, .inl ⟨nofun, hf, List.length_append, rfl⟩⟩
  | pushFront x =>
    rw [attempt] at h
    split_ifs at h with hf
    cases h
    exact ⟨rfl, .inl ⟨nofun, hf, rfl, rfl⟩⟩
  | pop =>
    cases q with
    | nil => cases h
    | cons x q => cases h; exact ⟨rfl, .inr ⟨rfl, rfl, rfl⟩⟩

theorem attempt_none {size : ℕ} {op : Call α} {q : List α} (h : attempt size op q = none) :
    op = .pop ∧ q.length = 0 ∨ op ≠ .pop ∧ q.length = size := by
  cases op with
  | push x =>
    rw [attempt] at h
    split_ifs at h with hf
    exact .inr ⟨nofun, hf⟩
  | pushFront x =>
    rw [attempt] at h
    split_ifs at h with hf
    exact .inr ⟨nofun, hf⟩
  | pop =>
    cases q with
    | nil => exact .inl ⟨rfl, rfl⟩
    | cons x q => cases h

/-! ## Runs -/

variable [DecidableEq Tid] [Fintype Tid]

/-- A queue and the threads that use it. -/
abbrev State (Tid α : Type) : Type := Monitor.State Tid (List α) (Call α) (Option α)

theorem length_le_step {size : ℕ} {s s' : State Tid α} {a : Act Tid (Call α)}
    (h : s.data.length ≤ size) (hs : step (queue α size) s a = some s') :
    s'.data.length ≤ size := by
  refine data_step (I := fun q => q.length ≤ size) (fun op q q' r n hq ha => ?_) h hs
  obtain ⟨-, ⟨-, hne, hlen, -⟩ | ⟨-, hlen, -⟩⟩ := attempt_cases ha <;> omega

theorem credit_notEmpty {size : ℕ} {s s' : State Tid α} {a : Act Tid (Call α)}
    (h : Credit (queue α size) .notEmpty (fun _ => true) List.length s)
    (hs : step (queue α size) s a = some s') :
    Credit (queue α size) .notEmpty (fun _ => true) List.length s' := by
  refine credit_step (fun op q hop ha => ?_) (fun op q q' r n ha => ?_) ?_ h hs
  · rcases attempt_none ha with ⟨-, h0⟩ | ⟨hne, -⟩
    · exact h0
    · cases op <;> first | exact absurd rfl hne | cases hop
  · obtain ⟨-, ⟨-, -, hlen, rfl⟩ | ⟨-, hlen, rfl⟩⟩ := attempt_cases ha
    · rw [hlen]; rfl
    · omega
  · cases a with
    | resume t w =>
      intro op timed _ hop q' r n ha
      refine .inl ?_
      obtain ⟨-, ⟨hne, -⟩ | ⟨-, hlen, rfl⟩⟩ := attempt_cases ha
      · cases op <;> first | exact absurd rfl hne | cases hop
      · omega
    | _ => trivial

theorem credit_notFull {size : ℕ} {s s' : State Tid α} {a : Act Tid (Call α)}
    (hle : s.data.length ≤ size)
    (h : Credit (queue α size) .notFull (fun _ => true) (fun q => size - q.length) s)
    (hs : step (queue α size) s a = some s') :
    Credit (queue α size) .notFull (fun _ => true) (fun q => size - q.length) s' := by
  refine credit_step (fun op q hop ha => ?_) (fun op q q' r n ha => ?_) ?_ h hs
  · rcases attempt_none ha with ⟨rfl, -⟩ | ⟨-, hf⟩
    · cases hop
    · omega
  · obtain ⟨-, ⟨-, -, hlen, rfl⟩ | ⟨-, hlen, rfl⟩⟩ := attempt_cases ha
    · simp only [hlen]; omega
    · simp only [hlen, if_true]; omega
  · cases a with
    | resume t w =>
      intro op timed _ hop q' r n ha
      refine .inl ?_
      obtain ⟨-, ⟨-, hne, hlen, rfl⟩ | ⟨rfl, -⟩⟩ := attempt_cases ha
      · simp only [hlen]; omega
      · cases hop
    | _ => trivial

/-- **`BoundedBlockingQueue` is a bounded FIFO with no stranded waiter.** For any number of threads
in any interleaving: the queue has at most `size` elements; the successful calls, in the order of
their critical sections, are calls on a sequential deque with the same results; only a step in which
a call succeeds changes the queue; and nobody sleeps on `notEmpty_` before an element, or on
`notFull_` before a free place, unless somebody awakened from that condition has yet to look. -/
theorem bounded_fifo_not_stranded {size : ℕ} {as : List (Act Tid (Call α))} {s : State Tid α}
    (hrun : run (step (queue α size)) (.new Tid _ _ []) as = some s) :
    s.data.length ≤ size ∧ Replays deque [] s.log s.data ∧
      (∀ a s', step (queue α size) s a = some s' → s'.data ≠ s.data →
        ∃ t op r, s'.log = s.log ++ [(t, op, some r)]) ∧
      ¬ Stranded (queue α size) .notEmpty (fun _ => true) List.length s ∧
      ¬ Stranded (queue α size) .notFull (fun _ => true) (fun q => size - q.length) s := by
  have hempty : Credit (queue α size) .notEmpty (fun _ => true) List.length s :=
    invariant_of_run (fun _ _ _ h hs => credit_notEmpty h hs) hrun nofun
  have hfull : s.data.length ≤ size ∧
      Credit (queue α size) .notFull (fun _ => true) (fun q => size - q.length) s :=
    invariant_of_run (I := fun s : State Tid α => s.data.length ≤ size ∧
        Credit (queue α size) .notFull (fun _ => true) (fun q => size - q.length) s)
      (fun _ _ _ h hs => ⟨length_le_step h.1 hs, credit_notFull h.1 h.2 hs⟩) hrun
      ⟨Nat.zero_le _, nofun⟩
  refine ⟨hfull.1, replays_of_run (fun op q q' r n ha => (attempt_cases ha).1) hrun,
    fun a s' hs hne => ?_, not_stranded hempty, not_stranded hfull.2⟩
  rcases step_effect hs with ⟨t, op, r, n, -, hl⟩ | ⟨hd, -⟩
  · exact ⟨t, op, r, hl⟩
  · exact absurd hd hne

/-- One place: `false` waits for an element; `true` brings two, and waits for the place. -/
def handOver : List (Act Bool (Call ℕ)) :=
  [.call false .pop false none, .call true (.push 5) false (some false),
    .call true (.push 6) false none, .resume false (some true), .resume true none]

theorem not_stranded_handOver : ∃ s, run (step (queue ℕ 1)) (.new Bool _ _ []) handOver = some s ∧
    s.data = [6] ∧ s.log = [(true, .push 5, some none), (false, .pop, some (some 5)),
      (true, .push 6, some none)] ∧ s.data.length ≤ 1 ∧ Replays deque [] s.log s.data := by
  have h : ((run (step (queue ℕ 1)) (.new Bool _ _ []) handOver).any fun s =>
      decide (s.data = [6] ∧ s.log = [(true, .push 5, some none), (false, .pop, some (some 5)),
        (true, .push 6, some none)])) = true := by decide
  obtain ⟨s, hs, hp⟩ := (Option.any_eq_true _ _).mp h
  obtain ⟨hd, hl⟩ := of_decide_eq_true hp
  have hall := bounded_fifo_not_stranded hs
  exact ⟨s, hs, hd, hl, hall.1, hall.2.1⟩

end Sperm.BoundedBlockingQueue
