import Mathlib.Data.Multiset.AddSub
import Sperm.Common.BlockingPriorityQueue

/-!
# The order in which `BlockingPriorityQueue` gives out its elements

* `PriorityReplays`: calls, one after the other, on a bag that gives out any of its greatest
  elements.
* `priorityReplays_of_replays`: the critical sections are such calls, whichever greatest element the
  `std::priority_queue` has on top.
* **`pops_greatest`**: the calls of all threads are such calls, and as long as nobody pushes, what
  comes out does not rise.
-/

namespace Sperm.BlockingPriorityQueue

open Monitor StepRun

variable {α Tid : Type}

/-- No element of the bag is greater. -/
def Greatest (less : α → α → Prop) (x : α) (m : Multiset α) : Prop :=
  x ∈ m ∧ ∀ y ∈ m, ¬ less x y

/-- The calls of the log that returned, one after the other, take the bag `m` to `m'`. -/
def PriorityReplays (less : α → α → Prop) :
    Multiset α → List (Tid × Call α × Option (Option α)) → Multiset α → Prop
  | m, [], m' => m = m'
  | m, (_, _, none) :: log, m' => PriorityReplays less m log m'
  | m, (_, .push x, some r) :: log, m' => r = none ∧ PriorityReplays less (x ::ₘ m) log m'
  | m, (_, .pop, some r) :: log, m' => ∃ x m₁, r = some x ∧ m = x ::ₘ m₁ ∧ Greatest less x m ∧
      PriorityReplays less m₁ log m'
  | m, (_, .top, some r) :: log, m' => ∃ x, r = some x ∧ Greatest less x m ∧
      PriorityReplays less m log m'

/-! ## The top of a `std::priority_queue` -/

variable {less : α → α → Prop} {P : PriorityQueue α less}

theorem greatest_top {q : P.Q} {x : α} (htop : P.top q = some x) {m : Multiset α}
    (hm : P.items q = x ::ₘ m) : Greatest less x (P.items q) :=
  ⟨hm ▸ Multiset.mem_cons_self x m, P.top_max q x htop⟩

/-- The critical sections, one after the other, are calls on a bag. -/
theorem priorityReplays_of_replays {log : List (Tid × Call α × Option (Option α))} {q q' : P.Q}
    (h : Replays (fun op q => (attempt P op q).map fun r => (r.1, r.2.1)) q log q') :
    PriorityReplays less (P.items q) log (P.items q') := by
  induction log generalizing q with
  | nil => exact congrArg _ h
  | cons e log ih =>
    obtain ⟨t, op, _ | r⟩ := e
    · exact ih h
    obtain ⟨q₁, hop, h⟩ := h
    obtain ⟨⟨q₂, r', n⟩, hattempt, heq⟩ := Option.map_eq_some_iff.mp hop
    cases heq
    have hrest := ih h
    obtain ⟨x, rfl, rfl, rfl, -⟩ | ⟨rfl, hne, rfl, rfl, -⟩ | ⟨rfl, hne, rfl, rfl, -⟩ :=
      attempt_cases hattempt
    · rw [P.items_push] at hrest
      exact ⟨rfl, hrest⟩
    · obtain ⟨x, htop, hpop⟩ := PriorityQueue.exists_top hne
      exact ⟨x, _, htop, hpop, greatest_top htop hpop, hrest⟩
    · obtain ⟨x, htop, hpop⟩ := PriorityQueue.exists_top hne
      exact ⟨x, htop, greatest_top htop hpop, hrest⟩

/-! ## Calls on a bag -/

theorem priorityReplays_append {log log' : List (Tid × Call α × Option (Option α))}
    {m m' : Multiset α} (h : PriorityReplays less m (log ++ log') m') :
    ∃ m₁, PriorityReplays less m log m₁ ∧ PriorityReplays less m₁ log' m' := by
  induction log generalizing m with
  | nil => exact ⟨m, rfl, h⟩
  | cons e log ih =>
    obtain ⟨t, op, _ | r⟩ := e
    · exact ih h
    cases op with
    | push x =>
      obtain ⟨m₁, h₁, h₂⟩ := ih h.2
      exact ⟨m₁, ⟨h.1, h₁⟩, h₂⟩
    | pop =>
      obtain ⟨x, m₂, hr, hm, hx, h⟩ := h
      obtain ⟨m₁, h₁, h₂⟩ := ih h
      exact ⟨m₁, ⟨x, m₂, hr, hm, hx, h₁⟩, h₂⟩
    | top =>
      obtain ⟨x, hr, hx, h⟩ := h
      obtain ⟨m₁, h₁, h₂⟩ := ih h
      exact ⟨m₁, ⟨x, hr, hx, h₁⟩, h₂⟩

/-- Is it a `push` that returned? -/
def isPush : Tid × Call α × Option (Option α) → Bool
  | (_, .push _, some _) => true
  | _ => false

theorem mem_of_not_push {log : List (Tid × Call α × Option (Option α))} {m m' : Multiset α}
    (h : PriorityReplays less m log m') (hlog : ∀ e ∈ log, isPush e = false) {y : α}
    (hy : y ∈ m') : y ∈ m := by
  induction log generalizing m with
  | nil => exact (show m = m' from h) ▸ hy
  | cons e log ih =>
    obtain ⟨he, htail⟩ := List.forall_mem_cons.mp hlog
    obtain ⟨t, op, _ | r⟩ := e
    · exact ih h htail
    cases op with
    | push x => cases he
    | pop =>
      obtain ⟨x, m₂, -, rfl, -, h⟩ := h
      exact Multiset.mem_cons_of_mem (ih h htail)
    | top =>
      obtain ⟨x, -, -, h⟩ := h
      exact ih h htail

theorem mem_of_returns {t : Tid} {op : Call α} {y : α}
    {log : List (Tid × Call α × Option (Option α))} {m m' : Multiset α}
    (h : PriorityReplays less m ((t, op, some (some y)) :: log) m') : y ∈ m := by
  cases op with
  | push x => cases h.1
  | pop =>
    obtain ⟨x, _, hr, -, hx, -⟩ := h
    cases hr
    exact hx.1
  | top =>
    obtain ⟨x, hr, hx, -⟩ := h
    cases hr
    exact hx.1

variable [DecidableEq Tid] [Fintype Tid]

/-- **The greatest element first.** For any number of threads in any interleaving, the calls that
returned are, in the order of their critical sections, calls on a bag that gives out one of its
greatest elements, and leave what is in the queue; so what comes out behind a `pop`, with no `push`
in between, is not greater. -/
theorem pops_greatest (P : PriorityQueue α less) {as : List (Act Tid (Call α))} {s : State P Tid}
    (hrun : run (step (queue P)) (.new Tid _ _ P.new) as = some s) :
    PriorityReplays less 0 s.log (P.items s.data) ∧
      ∀ l₁ t x l₂ u op y l₃,
        s.log = l₁ ++ (t, .pop, some (some x)) :: (l₂ ++ (u, op, some (some y)) :: l₃) →
          (∀ e ∈ l₂, isPush e = false) → ¬ less x y := by
  have hreplays : PriorityReplays less 0 s.log (P.items s.data) := by
    rw [← P.items_new]
    exact priorityReplays_of_replays (replays_of_run (fun op q q' r n ha =>
      Option.map_eq_some_iff.mpr ⟨_, ha, rfl⟩) hrun)
  refine ⟨hreplays, fun l₁ t x l₂ u op y l₃ hlog hl₂ => ?_⟩
  rw [hlog] at hreplays
  obtain ⟨m, -, h⟩ := priorityReplays_append hreplays
  obtain ⟨x', m₁, hr, rfl, hx, h⟩ := h
  cases hr
  obtain ⟨m₂, h₂, h⟩ := priorityReplays_append h
  exact hx.2 y (Multiset.mem_cons_of_mem (mem_of_not_push h₂ hl₂ (mem_of_returns h)))

/-- Two elements go in, and `false` takes them out while a third one comes between. -/
def pushBetween : List (Act Bool (Call ℕ)) :=
  [.call true (.push 5) false none, .call true (.push 7) false none, .call false .pop false none,
    .call true .top false none, .call true (.push 9) false none, .call false .pop false none]

theorem pops_greatest_pushBetween : ∃ s,
    run (step (queue natQueue)) (.new Bool _ _ natQueue.new) pushBetween = some s ∧
      s.log.map (fun e => e.2.2) =
        [some none, some none, some (some 7), some (some 5), some none, some (some 9)] ∧
      PriorityReplays (fun x y : ℕ => -(y : ℤ) < -(x : ℤ)) 0 s.log (natQueue.items s.data) := by
  have h : ((run (step (queue natQueue)) (.new Bool _ _ natQueue.new) pushBetween).any fun s =>
      decide (s.log.map (fun e => e.2.2) =
        [some none, some none, some (some 7), some (some 5), some none, some (some 9)])) =
          true := by
    decide
  obtain ⟨s, hs, hp⟩ := (Option.any_eq_true _ _).mp h
  exact ⟨s, hs, of_decide_eq_true hp, (pops_greatest natQueue hs).1⟩

end Sperm.BlockingPriorityQueue
