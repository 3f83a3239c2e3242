import Mathlib.Tactic.Common
import Mathlib.Tactic.FinCases
import Sperm.Lib.Monitor
import Sperm.Lib.PriorityQueue

/-!
# `BlockingPriorityQueue` (`common/queue.h`)

A priority queue behind one mutex. `pop` and `top` both wait on `notEmpty_`, `push` notifies one of
the waiting threads, and `top` leaves the element where it is. The `std::priority_queue` is any
`PriorityQueue`, so that which of several greatest elements is on top is left open.

* `Call`, `attempt`: the critical sections; `queue`: the monitor they make.
* `TopLeavesNobody`: a `top` that was notified and finds an element leaves no sleeping `pop` behind.
* **`pop_not_stranded`**: in a run of such steps no `pop` is stranded.
* `top_swallows_notify`: otherwise one can be.
-/

namespace Sperm.BlockingPriorityQueue

open Monitor StepRun

variable {α Tid : Type}

inductive Call (α : Type) where
  | push (x : α)
  | pop
  | top
  deriving DecidableEq

inductive Cond where
  | notEmpty
  deriving DecidableEq

variable {less : α → α → Prop} (P : PriorityQueue α less)

/-- A critical section that finds the queue ready: the queue after it, the value it returns, and the
condition it notifies. -/
def attempt : Call α → P.Q → Option (P.Q × Option α × Option Cond)
  | .push x, q => some (P.push x q, none, some .notEmpty)
  | .pop, q => if P.isEmpty q then none else some (P.pop q, P.top q, none)
  | .top, q => if P.isEmpty q then none else some (q, P.top q, none)

def queue : Spec P.Q (Call α) (Option α) Cond where
  waitsOn
    | .push _ => none
    | _ => some .notEmpty
  attempt := attempt P

/-- Is it a `pop`? -/
def Call.isPop : Call α → Bool
  | .pop => true
  | _ => false

abbrev State (Tid : Type) : Type := Monitor.State Tid P.Q (Call α) (Option α)

/-- The number of elements. -/
def size (q : P.Q) : ℕ := (P.items q).card

/-- A `top` that was notified and finds an element leaves no sleeping `pop` behind. -/
def TopLeavesNobody (s : State P Tid) : Act Tid (Call α) → Prop
  | .resume t _ => (∃ timed, s.pc t = .awake .top timed true) → P.isEmpty s.data = false →
      ∀ u, (s.pc u).sleepsOn (queue P) .notEmpty Call.isPop = false
  | _ => True

/-! ## The critical sections -/

variable {P}

theorem attempt_cases {op : Call α} {q q' : P.Q} {r : Option α} {n : Option Cond}
    (h : attempt P op q = some (q', r, n)) :
    (∃ x, op = .push x ∧ q' = P.push x q ∧ r = none ∧ n = some .notEmpty) ∨
      (op = .pop ∧ P.isEmpty q = false ∧ q' = P.pop q ∧ r = P.top q ∧ n = none) ∨
        (op = .top ∧ P.isEmpty q = false ∧ q' = q ∧ r = P.top q ∧ n = none) := by
  cases op with
  | push x =>
    cases h
    exact .inl ⟨x, rfl, rfl, rfl, rfl⟩
  | pop =>
    rw [attempt] at h
    split_ifs at h with hempty
    cases h
    exact .inr (.inl ⟨rfl, Bool.eq_false_iff.mpr hempty, rfl, rfl, rfl⟩)
  | top =>
    rw [attempt] at h
    split_ifs at h with hempty
    cases h
    exact .inr (.inr ⟨rfl, Bool.eq_false_iff.mpr hempty, rfl, rfl, rfl⟩)

theorem attempt_none {op : Call α} {q : P.Q} (h : attempt P op q = none) : size P q = 0 := by
  have hempty : P.isEmpty q = true := by
    cases op with
    | push x => cases h
    | pop =>
      rw [attempt] at h
      split_ifs at h with hempty
      exact hempty
    | top =>
      rw [attempt] at h
      split_ifs at h with hempty
      exact hempty
  rw [size, (P.isEmpty_iff q).mp hempty, Multiset.card_zero]

theorem size_push (x : α) (q : P.Q) : size P (P.push x q) = size P q + 1 := by
  rw [size, P.items_push, Multiset.card_cons, size]

theorem size_pop {q : P.Q} (h : P.isEmpty q = false) : size P q = size P (P.pop q) + 1 := by
  obtain ⟨x, -, hx⟩ := PriorityQueue.exists_top h
  rw [size, hx, Multiset.card_cons, size]

variable [DecidableEq Tid] [Fintype Tid]

/-- While a `pop` sleeps, the elements are covered by notified threads. -/
theorem credit_notEmpty {s s' : State P Tid} {a : Act Tid (Call α)} (hG : TopLeavesNobody P s a)
    (h : Credit (queue P) .notEmpty Call.isPop (size P) s) (hs : step (queue P) s a = some s') :
    Credit (queue P) .notEmpty Call.isPop (size P) s' := by
  refine credit_step (fun op q _ ha => attempt_none ha) (fun op q q' r n ha => ?_) ?_ h hs
  · obtain ⟨x, -, rfl, -, rfl⟩ | ⟨-, hne, rfl, -, rfl⟩ | ⟨-, -, rfl, -, rfl⟩ := attempt_cases ha
    · rw [size_push, if_pos rfl]
    · have hlen := size_pop hne
      omega
    · omega
  · cases a with
    | resume t w =>
      intro op timed hp hop q' r n ha
      obtain ⟨x, rfl, -, -, -⟩ | ⟨-, hne, rfl, -, rfl⟩ | ⟨rfl, hne, -, -, -⟩ := attempt_cases ha
      · cases hop
      · exact .inl ((size_pop hne).symm.le.trans (Nat.le_add_right _ _))
      · -- a `top` hands its notification in and takes nothing
        exact .inr (hG ⟨timed, hp⟩ hne)
    | _ => trivial

/-- **No `pop` is stranded** in any run, of any number of threads and in any interleaving, in which
every `top` that was notified and finds an element leaves no sleeping `pop` behind. -/
theorem pop_not_stranded {as : List (Act Tid (Call α))} {s : State P Tid}
    (hrun : run (step (queue P)) (.new Tid _ _ P.new) as = some s)
    (hG : Guarded (step (queue P)) (TopLeavesNobody P) (.new Tid _ _ P.new) as) :
    ¬ Stranded (queue P) .notEmpty Call.isPop (size P) s :=
  not_stranded (invariant_of_guarded (fun _ _ _ hG h hs => credit_notEmpty hG h hs) hrun hG nofun)

instance [DecidableEq α] (s : State P Tid) (a : Act Tid (Call α)) :
    Decidable (TopLeavesNobody P s a) := by
  cases a <;> unfold TopLeavesNobody <;> infer_instance

/-- `std::less` on the naturals. -/
def natQueue : PriorityQueue ℕ fun x y => -(y : ℤ) < -(x : ℤ) :=
  .byKey fun n : ℕ => -(n : ℤ)

/-- A `pop` sleeps, a `push` wakes it, a `top` looks in between. -/
def orderlyRun : List (Act (Fin 3) (Call ℕ)) :=
  [.call 0 .pop false none, .call 2 (.push 5) false (some 0), .call 1 .top false none,
    .resume 0 none]

theorem pop_not_stranded_orderlyRun : ∃ s,
    run (step (queue natQueue)) (.new (Fin 3) _ _ natQueue.new) orderlyRun = some s ∧
      s.log = [(2, .push 5, some none), (1, .top, some (some 5)), (0, .pop, some (some 5))] ∧
        ¬ Stranded (queue natQueue) .notEmpty Call.isPop (size natQueue) s := by
  have h : ((run (step (queue natQueue)) (.new (Fin 3) _ _ natQueue.new) orderlyRun).any fun s =>
      decide (s.log = [(2, .push 5, some none), (1, .top, some (some 5)),
        (0, .pop, some (some 5))])) = true := by decide
  obtain ⟨s, hs, hp⟩ := (Option.any_eq_true _ _).mp h
  exact ⟨s, hs, of_decide_eq_true hp, pop_not_stranded hs (by decide)⟩

/-- A `top` and a `pop` sleep, and the `push` wakes the `top`. -/
def swallowRun : List (Act (Fin 3) (Call ℕ)) :=
  [.call 1 .top false none, .call 0 .pop false none, .call 2 (.push 5) false (some 1),
    .resume 1 none]

/-- The `top` returns with the element still there, and the `pop` sleeps on. -/
theorem top_swallows_notify : ∃ s,
    run (step (queue natQueue)) (.new (Fin 3) _ _ natQueue.new) swallowRun = some s ∧
      natQueue.items s.data = {5} ∧ s.pc 0 = .asleep .pop false ∧
        Stranded (queue natQueue) .notEmpty Call.isPop (size natQueue) s := by
  have h : ((run (step (queue natQueue)) (.new (Fin 3) _ _ natQueue.new) swallowRun).any fun s =>
      decide (natQueue.items s.data = {5} ∧ s.pc 0 = .asleep .pop false ∧ s.pc 1 = .idle ∧
        s.pc 2 = .idle)) = true := by decide
  obtain ⟨s, hs, hp⟩ := (Option.any_eq_true _ _).mp h
  obtain ⟨hd, h0, h1, h2⟩ := of_decide_eq_true hp
  refine ⟨s, hs, hd, h0, by rw [size, hd]; decide, ⟨0, by rw [h0]; rfl⟩,
    fun t op timed notified ht => ?_⟩
  fin_cases t
  · cases h0.symm.trans ht
  · cases h1.symm.trans ht
  · cases h2.symm.trans ht

end Sperm.BlockingPriorityQueue
