import Sperm.Common.DLinkedListQueue
import Sperm.Common.SLinkedListQueue
import Sperm.Lib.QueueMonitor

/-!
# `BlockingQueue`, `BlockingSLinkedListQueue`, `BlockingDLinkedListQueue` (`common/queue.h`)

The three queues without a bound, each with its operations under one mutex: `push` and `push_front`
notify `notEmpty_`, `pop` waits on it, and the other operations do neither.

* `blockingQueue`: the queue over a `std::deque`.
* `blockingSLinkedListQueue`, `blockingDLinkedListQueue`: the queues that link their items.
* **`blockingQueue_linearizable`**, **`blockingSLinkedListQueue_linearizable`**,
  **`blockingDLinkedListQueue_linearizable`**: whatever the threads do that keep to the rules, the
  queue holds a sequence, the calls are calls on this sequence, and no `pop` is stranded.
-/

namespace Sperm

open Monitor StepRun

variable {α Tid : Type}

/-! ## The three queues -/

theorem length_tail_add_one {l : List α} (hl : l ≠ []) : l.tail.length + 1 = l.length := by
  cases l with
  | nil => exact absurd rfl hl
  | cons x l => rfl

namespace BlockingQueue

/-- The operations of `BlockingQueue`. -/
inductive Op (α : Type) where
  | push (x : α)
  | pushFront (x : α)
  | pop
  deriving DecidableEq

/-- An operation on the `std::deque`; `pop` of an empty one does not happen. -/
def Op.apply (q : List α) : Op α → Option (Option α × List α)
  | push x => some (none, q ++ [x])
  | pushFront x => some (none, x :: q)
  | pop =>
    match q with
    | [] => none
    | x :: q => some (some x, q)

end BlockingQueue

/-- `BlockingQueue`. -/
def blockingQueue (α : Type) : QueueImpl α (BlockingQueue.Op α) where
  Q := List α
  isEmpty q := q.isEmpty
  apply := BlockingQueue.Op.apply
  isPop
    | .pop => true
    | _ => false
  notifies
    | .pop => false
    | _ => true
  spec l
    | .push x => (none, l ++ [x])
    | .pushFront x => (none, x :: l)
    | .pop => (l.head?, l.tail)
  Legal _ _ := True
  Represents q l := q = l
  isEmpty_iff := by
    rintro q l rfl
    exact List.isEmpty_iff
  apply_spec := by
    rintro q l op rfl - hpop
    cases op with
    | push x => exact ⟨_, rfl, rfl⟩
    | pushFront x => exact ⟨_, rfl, rfl⟩
    | pop =>
      cases q with
      | nil => exact absurd rfl (hpop rfl)
      | cons x q => exact ⟨_, rfl, rfl⟩
  length_pop := by
    intro l op hpop hl
    cases op with
    | pop => exact length_tail_add_one hl
    | push x => cases hpop
    | pushFront x => cases hpop
  length_le := by
    intro l op hpop
    cases op with
    | pop => cases hpop
    | push x => simp
    | pushFront x => simp

/-- What an operation gives out. -/
def SLinkedList.Op.result (l : List α) : SLinkedList.Op α → Option α
  | .pop => l.head?
  | .clear => l.head?
  | _ => none

/-- `BlockingSLinkedListQueue`, with the links of all items. -/
def blockingSLinkedListQueue (α : Type) [DecidableEq α] : QueueImpl α (SLinkedList.Op α) where
  Q := SLinkedList α × (α → Option α)
  isEmpty q := q.1.empty
  apply q op := op.apply .blockingSLinkedListQueue q.1 q.2
  isPop
    | .pop => true
    | _ => false
  notifies
    | .push _ => true
    | .pushFront _ => true
    | _ => false
  spec l op := (op.result l, op.spec l)
  Legal l op := op.Legal .blockingSLinkedListQueue l
  Represents q l := q.1.Represents q.2 l
  isEmpty_iff h := h.empty_iff
  apply_spec := by
    intro q l op h hleg _
    obtain ⟨r, q', next', happly, hgives, h'⟩ := h.apply hleg (SLinkedList.Op.keeps_blocking l op)
    have hr : r = op.result l := by
      cases op with
      | pop => exact hgives.1
      | clear => exact Chain.Seg.head?_eq hgives
      | _ => exact hgives
    exact ⟨(q', next'), hr ▸ happly, h'⟩
  length_pop := by
    intro l op hpop hl
    cases op with
    | pop => exact length_tail_add_one hl
    | _ => cases hpop
  length_le := by
    intro l op hpop
    cases op with
    | pop => cases hpop
    | push x => simp [SLinkedList.Op.spec]
    | pushFront x => simp [SLinkedList.Op.spec]
    | clear => exact Nat.zero_le _
    | relink x v => exact Nat.le_add_right _ _

/-- `BlockingDLinkedListQueue`. A `replace` at an end of the queue is not legal. -/
def blockingDLinkedListQueue (α : Type) [DecidableEq α] : QueueImpl α (DLinkedList.Op α) where
  Q := DLinkedList α
  isEmpty q := q.empty
  apply q op := op.apply .blockingDLinkedListQueue q
  isPop
    | .pop => true
    | _ => false
  notifies
    | .push _ => true
    | .pushFront _ => true
    | _ => false
  spec l op := op.spec l
  Legal l op := op.Legal .blockingDLinkedListQueue l ∧ op.Keeps .blockingDLinkedListQueue l
  Represents q l := q.Represents l
  isEmpty_iff h := h.empty_iff
  apply_spec h hleg _ := DLinkedList.Op.apply_of_keeps h hleg.1 hleg.2
  length_pop := by
    intro l op hpop hl
    cases op with
    | pop => exact length_tail_add_one hl
    | _ => cases hpop
  length_le := by
    intro l op hpop
    cases op with
    | pop => cases hpop
    | push x => simp [DLinkedList.Op.spec]
    | pushFront x => simp [DLinkedList.Op.spec]
    | clear => exact Nat.zero_le _
    | replace o n => simp [DLinkedList.Op.spec]
    | remove x => exact List.length_erase_le

/-! ## Any number of threads -/

variable [DecidableEq Tid] [Fintype Tid]

/-- **`BlockingQueue` is a deque for all threads together.** -/
theorem blockingQueue_linearizable {as : List (Act Tid (BlockingQueue.Op α))}
    {s : State Tid (Option (List α)) (BlockingQueue.Op α) (Option α)}
    (hrun : run (step (blockingQueue α).monitor) (.new Tid _ _ (some [])) as = some s) :
    s.data = some ((blockingQueue α).contents s.log) ∧
      Replays (blockingQueue α).seq [] s.log ((blockingQueue α).contents s.log) ∧
      ¬ Stranded (blockingQueue α).monitor .notEmpty (fun _ => true)
        (blockingQueue α).hasItem s := by
  have hall := QueueImpl.linearizable_not_stranded (I := blockingQueue α) rfl hrun
    (guarded_of_forall (fun s a => by unfold QueueImpl.LegalCall; split <;> trivial) _ _)
  obtain ⟨⟨q, hq, hrep⟩, hall⟩ := hall
  exact ⟨hrep ▸ hq, hall⟩

/-- `false` waits and is awakened by the first item, but gets the one that comes before it. -/
def pushInFront : List (Act Bool (BlockingQueue.Op ℕ)) :=
  [.call false .pop false none, .call true (.push 1) false (some false),
    .call true (.pushFront 2) false none, .resume false none]

theorem linearizable_pushInFront : ∃ s, run (step (blockingQueue ℕ).monitor)
      (.new Bool _ _ (some [])) pushInFront = some s ∧
    s.log.map (fun e => e.2.2) = [some none, some none, some (some 2)] ∧
    s.data = some ((blockingQueue ℕ).contents s.log) := by
  have h : ((run (step (blockingQueue ℕ).monitor) (.new Bool _ _ (some [])) pushInFront).any
      fun s => decide (s.log.map (fun e => e.2.2) = [some none, some none, some (some 2)])) =
        true := by
    decide
  obtain ⟨s, hs, hp⟩ := (Option.any_eq_true _ _).mp h
  exact ⟨s, hs, of_decide_eq_true hp, (blockingQueue_linearizable hs).1⟩

/-- **`BlockingSLinkedListQueue` is a deque for all threads together**, whatever the links of the
items hold when they are pushed. -/
theorem blockingSLinkedListQueue_linearizable [DecidableEq α] {next : α → Option α}
    {as : List (Act Tid (SLinkedList.Op α))}
    {s : State Tid (Option (SLinkedList α × (α → Option α))) (SLinkedList.Op α) (Option α)}
    (hrun : run (step (blockingSLinkedListQueue α).monitor)
      (.new Tid _ _ (some (SLinkedList.new, next))) as = some s)
    (hG : Guarded (step (blockingSLinkedListQueue α).monitor)
      (blockingSLinkedListQueue α).LegalCall (.new Tid _ _ (some (SLinkedList.new, next))) as) :
    (∃ q next', s.data = some (q, next') ∧
        SLinkedList.Holds next' q ((blockingSLinkedListQueue α).contents s.log)) ∧
      Replays (blockingSLinkedListQueue α).seq [] s.log
        ((blockingSLinkedListQueue α).contents s.log) ∧
      ¬ Stranded (blockingSLinkedListQueue α).monitor .notEmpty (fun _ => true)
        (blockingSLinkedListQueue α).hasItem s := by
  obtain ⟨⟨q, hq, hrep⟩, hall⟩ := QueueImpl.linearizable_not_stranded
    (I := blockingSLinkedListQueue α) (q := (SLinkedList.new, next))
    (SLinkedList.represents_new next) hrun hG
  exact ⟨⟨q.1, q.2, hq, hrep.holds⟩, hall⟩

/-- `false` waits; `true` brings two items, takes both out with `clear`, and pushes one of them
again with its old link. -/
def clearAndPush : List (Act Bool (SLinkedList.Op ℕ)) :=
  [.call false .pop false none, .call true (.push 1) false (some false),
    .call true (.push 2) false none, .call true .clear false none, .resume false none,
    .call true (.push 1) false (some false), .resume false none]

instance [DecidableEq α] (l : List α) (op : SLinkedList.Op α) :
    Decidable ((blockingSLinkedListQueue α).Legal l op) :=
  inferInstanceAs (Decidable (op.Legal _ l))

theorem linearizable_clearAndPush : ∃ s, run (step (blockingSLinkedListQueue ℕ).monitor)
      (.new Bool _ _ (some (SLinkedList.new, fun _ => none))) clearAndPush = some s ∧
    s.log.map (fun e => e.2.2) = [some none, some none, some (some 1), some none, some (some 1)] ∧
    ∃ q next, s.data = some (q, next) ∧
      SLinkedList.Holds next q ((blockingSLinkedListQueue ℕ).contents s.log) := by
  have h : ((run (step (blockingSLinkedListQueue ℕ).monitor)
      (.new Bool _ _ (some (SLinkedList.new, fun _ => none))) clearAndPush).any fun s =>
        decide (s.log.map (fun e => e.2.2) =
          [some none, some none, some (some 1), some none, some (some 1)])) = true := by
    decide
  obtain ⟨s, hs, hp⟩ := (Option.any_eq_true _ _).mp h
  exact ⟨s, hs, of_decide_eq_true hp,
    (blockingSLinkedListQueue_linearizable hs (by decide)).1⟩

/-- **`BlockingDLinkedListQueue` is a sequence for all threads together.** -/
theorem blockingDLinkedListQueue_linearizable [DecidableEq α] {next prev : α → Option α}
    {as : List (Act Tid (DLinkedList.Op α))}
    {s : State Tid (Option (DLinkedList α)) (DLinkedList.Op α) (Option α)}
    (hrun : run (step (blockingDLinkedListQueue α).monitor)
      (.new Tid _ _ (some (DLinkedList.new next prev))) as = some s)
    (hG : Guarded (step (blockingDLinkedListQueue α).monitor)
      (blockingDLinkedListQueue α).LegalCall (.new Tid _ _ (some (DLinkedList.new next prev))) as) :
    (∃ q, s.data = some q ∧ q.Holds ((blockingDLinkedListQueue α).contents s.log)) ∧
      Replays (blockingDLinkedListQueue α).seq [] s.log
        ((blockingDLinkedListQueue α).contents s.log) ∧
      ¬ Stranded (blockingDLinkedListQueue α).monitor .notEmpty (fun _ => true)
        (blockingDLinkedListQueue α).hasItem s := by
  obtain ⟨⟨q, hq, hrep⟩, hall⟩ := QueueImpl.linearizable_not_stranded
    (I := blockingDLinkedListQueue α) (DLinkedList.represents_new next prev) hrun hG
  exact ⟨⟨q, hq, hrep.holds⟩, hall⟩

/-- One item is replaced inside the queue, one is removed, and `false` gets the new one. -/
def replaceAndRemove : List (Act Bool (DLinkedList.Op ℕ)) :=
  [.call true (.push 1) false none, .call true (.push 2) false none,
    .call true (.push 3) false none, .call true (.replace 2 4) false none,
    .call true (.remove 1) false none, .call false .pop false none]

instance [DecidableEq α] (l : List α) (op : DLinkedList.Op α) :
    Decidable ((blockingDLinkedListQueue α).Legal l op) :=
  inferInstanceAs (Decidable (_ ∧ _))

theorem linearizable_replaceAndRemove : ∃ s, run (step (blockingDLinkedListQueue ℕ).monitor)
      (.new Bool _ _ (some (DLinkedList.new (fun _ => none) fun _ => none))) replaceAndRemove =
        some s ∧
    s.log.map (fun e => e.2.2) =
      [some none, some none, some none, some none, some none, some (some 4)] ∧
    ∃ q, s.data = some q ∧ q.Holds ((blockingDLinkedListQueue ℕ).contents s.log) := by
  have h : ((run (step (blockingDLinkedListQueue ℕ).monitor)
      (.new Bool _ _ (some (DLinkedList.new (fun _ => none) fun _ => none))) replaceAndRemove).any
        fun s => decide (s.log.map (fun e => e.2.2) =
          [some none, some none, some none, some none, some none, some (some 4)])) = true := by
    decide
  obtain ⟨s, hs, hp⟩ := (Option.any_eq_true _ _).mp h
  exact ⟨s, hs, of_decide_eq_true hp,
    (blockingDLinkedListQueue_linearizable hs (by decide)).1⟩

end Sperm
