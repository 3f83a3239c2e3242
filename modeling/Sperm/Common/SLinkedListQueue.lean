import Sperm.Lib.Chain

/-!
# Singly linked queues (`BlockingSLinkedListQueue`, `SLinkedListQueue` in `common/queue.h`)

The items are linked through their own `next` field, which one item has for all the queues it goes
through in turn. So an operation gets the field of all items, and gives it back.

* `SLinkedList` with `push`, `pushFront`, `pop` and `clear`, each as it is under the lock.
* `Represents`: the queue holds a sequence.
* **`Represents.push`**, **`Represents.pushFront`**, **`Represents.pop`**: what an operation does to
  the sequence, and which items it leaves alone.
* `Op`: the operations of the two classes, and what a holder of an item does to its link.
  **`refines_iff_keeps`**: the queue is a deque all along exactly when no empty `SLinkedListQueue`
  was popped.
-/

namespace Sperm

open Chain

variable {α : Type}

/-- `head_` and `tail_`. -/
structure SLinkedList (α : Type) where
  head : Option α
  tail : Option α
  deriving DecidableEq

namespace SLinkedList

def new : SLinkedList α := ⟨none, none⟩

/-- Following `next` from `head_` visits the sequence, and `tail_` is its end. -/
structure Represents (next : α → Option α) (q : SLinkedList α) (l : List α) : Prop where
  links : Seg next q.head l none
  tail_eq : q.tail = l.getLast?

theorem represents_new (next : α → Option α) : Represents next new [] := ⟨rfl, rfl⟩

/-! ## Operations -/

variable [DecidableEq α]

/-- `empty_()`. -/
def empty (q : SLinkedList α) : Bool := q.head = q.tail ∧ q.head = none

/-- `push(item)`. -/
def push (q : SLinkedList α) (next : α → Option α) (item : α) :
    Option (SLinkedList α × (α → Option α)) :=
  let next₁ := Function.update next item none
  if q.empty then some (⟨some item, some item⟩, next₁)
  else
    match q.tail with
    | none => none
    | some y => some (⟨q.head, some item⟩, Function.update next₁ y (some item))

/-- `push_front(item)`. -/
def pushFront (q : SLinkedList α) (next : α → Option α) (item : α) :
    SLinkedList α × (α → Option α) :=
  if q.empty then (⟨some item, some item⟩, Function.update next item none)
  else (⟨some item, q.tail⟩, Function.update next item q.head)

/-- `pop` of a queue with items: the item, the queue and the links after it. -/
def pop (q : SLinkedList α) (next : α → Option α) :
    Option (α × SLinkedList α × (α → Option α)) :=
  match q.head with
  | none => none
  | some x => some (x, ⟨next x, if next x = none then none else q.tail⟩,
      Function.update next x none)

/-- `clear(v)`: the old `head_` and the queue after it. -/
def clear (q : SLinkedList α) : Option α × SLinkedList α := (q.head, new)

/-! ## What each operation does to the sequence -/

variable {next : α → Option α} {q : SLinkedList α} {l : List α} {x : α}

theorem Represents.empty_iff (h : Represents next q l) : q.empty = true ↔ l = [] := by
  rw [empty, decide_eq_true_iff, h.links.head?_eq, h.tail_eq]
  cases l with
  | nil => simp
  | cons x l => simp

theorem Represents.push (h : Represents next q l) (hx : x ∉ l) :
    ∃ q' next', q.push next x = some (q', next') ∧ Represents next' q' (l ++ [x]) ∧
      ∀ y, y ≠ x → y ∉ l → next' y = next y := by
  have hempty := h.empty_iff
  rcases List.eq_nil_or_concat' l with rfl | ⟨l, z, rfl⟩
  · exact ⟨_, _, if_pos (hempty.mpr rfl), ⟨⟨rfl, Function.update_self _ _ _⟩, rfl⟩,
      fun y hy _ => Function.update_of_ne hy _ _⟩
  · have hnot : ¬ (q.empty = true) := fun he => by simpa using hempty.mp he
    have htail : q.tail = some z := by rw [h.tail_eq, List.getLast?_concat]
    obtain ⟨hxl, hxz⟩ : x ∉ l ∧ x ≠ z := by simpa [not_or] using hx
    have hzl : z ∉ l := fun hz => by
      simpa using List.disjoint_of_nodup_append h.links.nodup hz
    obtain ⟨hseg, -⟩ := seg_snoc.mp h.links
    refine ⟨⟨q.head, some x⟩, Function.update (Function.update next x none) z (some x), ?_,
      ⟨?_, ?_⟩, fun y hy hyl => ?_⟩
    · exact (if_neg hnot).trans (by rw [htail])
    · rw [seg_snoc, seg_snoc, Function.update_self, Function.update_of_ne hxz,
        Function.update_self, seg_update hzl, seg_update hxl]
      exact ⟨⟨hseg, rfl⟩, rfl⟩
    · rw [List.getLast?_concat]
    · rw [List.mem_append, not_or, List.mem_singleton] at hyl
      rw [Function.update_of_ne hyl.2, Function.update_of_ne hy]

theorem Represents.pushFront (h : Represents next q l) (hx : x ∉ l) :
    Represents (q.pushFront next x).2 (q.pushFront next x).1 (x :: l) ∧
      ∀ y, y ≠ x → (q.pushFront next x).2 y = next y := by
  have hempty := h.empty_iff
  unfold SLinkedList.pushFront
  split_ifs with he
  · obtain rfl := hempty.mp he
    exact ⟨⟨⟨rfl, Function.update_self _ _ _⟩, rfl⟩, fun y hy => Function.update_of_ne hy _ _⟩
  · refine ⟨⟨⟨rfl, ?_⟩, ?_⟩, fun y hy => Function.update_of_ne hy _ _⟩
    · dsimp only
      rw [Function.update_self, seg_update hx]
      exact h.links
    · cases l with
      | nil => exact absurd (hempty.mpr rfl) he
      | cons y l =>
        rw [List.getLast?_cons_cons]
        exact h.tail_eq

theorem Represents.pop (h : Represents next q (x :: l)) :
    ∃ q' next', q.pop next = some (x, q', next') ∧ Represents next' q' l ∧ next' x = none ∧
      ∀ y, y ≠ x → next' y = next y := by
  have hx : x ∉ l := (List.nodup_cons.mp h.links.nodup).1
  obtain ⟨hhead, hseg⟩ := h.links
  refine ⟨_, _, by rw [SLinkedList.pop, hhead], ⟨?_, ?_⟩, Function.update_self _ _ _,
    fun y hy => Function.update_of_ne hy _ _⟩
  · rw [seg_update hx]
    exact hseg
  · cases l with
    | nil => rw [if_pos (seg_nil.mp hseg)]; rfl
    | cons y l =>
      rw [if_neg (by rw [hseg.1]; nofun), h.tail_eq, List.getLast?_cons_cons]

theorem Represents.pop_nil (h : Represents next q []) : q.pop next = none := by
  rw [SLinkedList.pop, seg_nil.mp h.links]

/-! ## Sequences of operations -/

/-- The two classes. -/
inductive QueueClass where
  | blockingSLinkedListQueue
  | sLinkedListQueue
  deriving DecidableEq

/-- The operations of the two classes. Between them, whoever holds an item that is in no queue may
write its link. -/
inductive Op (α : Type) where
  | push (item : α)
  | pushFront (item : α)
  | pop
  | clear
  | relink (item : α) (v : Option α)

namespace Op

/-- An operation, with the pointer that `pop` or `clear` gives. `pop` on an empty
`BlockingSLinkedListQueue` waits, and comes back with nothing when its time is over. -/
def apply (k : QueueClass) (q : SLinkedList α) (next : α → Option α) :
    Op α → Option (Option α × SLinkedList α × (α → Option α))
  | push item => (q.push next item).map fun r => (none, r)
  | pushFront item => some (none, q.pushFront next item)
  | pop =>
    if k = .blockingSLinkedListQueue ∧ q.empty = true then some (none, q, next)
    else (q.pop next).map fun r => (some r.1, r.2)
  | clear => some (q.clear.1, q.clear.2, next)
  | relink item v => some (none, q, Function.update next item v)

/-- The operation on a deque. -/
def spec (l : List α) : Op α → List α
  | push item => l ++ [item]
  | pushFront item => item :: l
  | pop => l.tail
  | clear => []
  | relink _ _ => l

/-- What a caller keeps to: items that are pushed or written to are not in the queue, and only the
blocking class has `clear`. -/
def Legal (k : QueueClass) (l : List α) : Op α → Prop
  | push item => item ∉ l
  | pushFront item => item ∉ l
  | pop => True
  | clear => k = .blockingSLinkedListQueue
  | relink item _ => item ∉ l

/-- An `SLinkedListQueue` is not popped empty. -/
def Keeps (k : QueueClass) (l : List α) : Op α → Prop
  | pop => k = .sLinkedListQueue → l ≠ []
  | _ => True

omit [DecidableEq α] in
theorem keeps_blocking (l : List α) (op : Op α) : op.Keeps .blockingSLinkedListQueue l := by
  cases op with
  | pop => exact fun h => nomatch h
  | _ => trivial

/-- A condition on every operation of a sequence, at the deque it meets. -/
def Along (P : List α → Op α → Prop) : List α → List (Op α) → Prop
  | _, [] => True
  | l, op :: ops => P l op ∧ Along P (op.spec l) ops

instance (k : QueueClass) (l : List α) (op : Op α) : Decidable (op.Legal k l) := by
  cases op <;> unfold Legal <;> infer_instance

instance (k : QueueClass) (l : List α) (op : Op α) : Decidable (op.Keeps k l) := by
  cases op <;> unfold Keeps <;> infer_instance

instance decidableAlong (P : List α → Op α → Prop) [∀ l op, Decidable (P l op)] :
    ∀ l ops, Decidable (Along P l ops)
  | _, [] => isTrue trivial
  | l, op :: ops =>
    haveI := decidableAlong P (op.spec l) ops
    inferInstanceAs (Decidable (P l op ∧ Along P (op.spec l) ops))

/-- What an operation gives out: `pop` the first item, with its link cleared, and `clear` a chain of
all the items that ends with `NULL`. -/
def Gives (l : List α) (r : Option α) (next' : α → Option α) : Op α → Prop
  | pop => r = l.head? ∧ ∀ x, r = some x → next' x = none
  | clear => Seg next' r l none
  | _ => r = none

end Op

/-- Following `next` from `head_` visits the sequence and ends at `tail_`, and either of the two is
`NULL` only for the empty sequence. -/
def Holds (next : α → Option α) (q : SLinkedList α) (l : List α) : Prop :=
  Represents next q l ∧ (q.head = none ↔ l = []) ∧ (q.tail = none ↔ l = [])

/-- Before and after every operation the queue holds the deque, and every operation comes back with
what it should give out. -/
def Refines (k : QueueClass) :
    SLinkedList α → (α → Option α) → List α → List (Op α) → Prop
  | q, next, l, [] => Holds next q l
  | q, next, l, op :: ops => Holds next q l ∧
      ∃ r q' next', op.apply k q next = some (r, q', next') ∧ op.Gives l r next' ∧
        Refines k q' next' (op.spec l) ops

omit [DecidableEq α] in
theorem Represents.holds (h : Represents next q l) : Holds next q l := by
  refine ⟨h, ?_, ?_⟩
  · rw [h.links.head?_eq, List.head?_eq_none_iff]
  · rw [h.tail_eq, List.getLast?_eq_none_iff]

/-- **One operation.** -/
theorem Represents.apply {k : QueueClass} {op : Op α} (h : Represents next q l)
    (hleg : op.Legal k l) (hk : op.Keeps k l) :
    ∃ r q' next', op.apply k q next = some (r, q', next') ∧ op.Gives l r next' ∧
      Represents next' q' (op.spec l) := by
  cases op with
  | push item =>
    obtain ⟨q', next', hq, hr, -⟩ := h.push hleg
    exact ⟨none, q', next', by rw [Op.apply, hq]; rfl, rfl, hr⟩
  | pushFront item => exact ⟨_, _, _, rfl, rfl, (h.pushFront hleg).1⟩
  | pop =>
    cases l with
    | nil =>
      have hb : k = .blockingSLinkedListQueue := by
        cases k with
        | blockingSLinkedListQueue => rfl
        | sLinkedListQueue => exact absurd rfl (hk rfl)
      exact ⟨none, q, next, if_pos ⟨hb, h.empty_iff.mpr rfl⟩, ⟨rfl, nofun⟩, h⟩
    | cons x l =>
      obtain ⟨q', next', hq, hr, hx, -⟩ := h.pop
      have hne : ¬ (k = .blockingSLinkedListQueue ∧ q.empty = true) := fun hc => by
        cases h.empty_iff.mp hc.2
      refine ⟨some x, q', next', by rw [Op.apply, if_neg hne, hq]; rfl, ⟨rfl, ?_⟩, hr⟩
      intro y hy
      cases hy
      exact hx
  | clear => exact ⟨_, _, _, rfl, h.links, represents_new next⟩
  | relink item v => exact ⟨_, _, _, rfl, rfl, (seg_update hleg).mpr h.links, h.tail_eq⟩

/-- An empty `SLinkedListQueue` does not come back from `pop`. -/
theorem Represents.apply_of_not_keeps {k : QueueClass} {op : Op α} (h : Represents next q l)
    (hk : ¬ op.Keeps k l) : op.apply k q next = none := by
  cases op with
  | pop =>
    simp only [Op.Keeps, Classical.not_imp, not_not] at hk
    obtain ⟨rfl, rfl⟩ := hk
    rw [Op.apply, if_neg (fun hc => nomatch hc.1), h.pop_nil]
    rfl
  | _ => exact absurd trivial hk

theorem Represents.refines_iff {k : QueueClass} {ops : List (Op α)} (h : Represents next q l)
    (hleg : Op.Along (Op.Legal k) l ops) :
    Refines k q next l ops ↔ Op.Along (Op.Keeps k) l ops := by
  induction ops generalizing q next l with
  | nil => exact ⟨fun _ => trivial, fun _ => h.holds⟩
  | cons op ops ih =>
    by_cases hk : op.Keeps k l
    · obtain ⟨r, q', next', hq, hg, hr⟩ := h.apply hleg.1 hk
      have hih := ih hr hleg.2
      constructor
      · rintro ⟨-, r₁, q₁, next₁, hq₁, -, hf⟩
        rw [hq, Option.some.injEq, Prod.mk.injEq, Prod.mk.injEq] at hq₁
        obtain ⟨-, rfl, rfl⟩ := hq₁
        exact ⟨hk, hih.mp hf⟩
      · intro hall
        exact ⟨h.holds, r, q', next', hq, hg, hih.mpr hall.2⟩
    · constructor
      · rintro ⟨-, r, q', next', hq, -⟩
        rw [h.apply_of_not_keeps hk] at hq
        cases hq
      · intro hall
        exact absurd hall.1 hk

/-- **The queue is a deque** through any legal sequence of operations, whatever the links of the
items hold when they are pushed, exactly when no empty `SLinkedListQueue` is popped. -/
theorem refines_iff_keeps (k : QueueClass) (next : α → Option α) (ops : List (Op α))
    (hleg : Op.Along (Op.Legal k) [] ops) :
    Refines k new next [] ops ↔ Op.Along (Op.Keeps k) [] ops :=
  (represents_new next).refines_iff hleg

/-- Two items are handed out by `clear`, and pushed again with their old links. -/
theorem refines_pushed_again :
    Refines .blockingSLinkedListQueue new (fun n : ℕ => some (n + 1)) []
      [.push 1, .pushFront 2, .clear, .pushFront 1, .relink 2 (some 2), .push 2, .pop, .pop,
        .pop] :=
  (refines_iff_keeps _ _ _ (by decide)).mpr (by decide)

/-- The second `pop` follows `head_`, which is `NULL`. -/
theorem pop_empty_breaks_queue :
    Op.Along (Op.Legal .sLinkedListQueue) [] [.push 1, .pop, .pop] ∧
      ¬ Refines .sLinkedListQueue new (fun _ : ℕ => none) [] [.push 1, .pop, .pop] := by
  refine ⟨by decide, ?_⟩
  rw [(represents_new _).refines_iff (by decide)]
  decide

end SLinkedList

end Sperm
