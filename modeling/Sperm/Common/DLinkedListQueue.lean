import Sperm.Lib.Chain

/-!
# Doubly linked queues (`common/queue.h`)

`BlockingDLinkedListQueue` and `DLinkedListQueue` link their items through the items' own `prev` and
`next` fields. An item is an element of `α`, a pointer to one is an `Option α`, and dereferencing
`NULL` gives no result. `DLinkedListQueue` has no `clear`, and its `pop` does not look whether there
is an item; otherwise the two are the same text.

* `DLinkedList` with `push`, `pushFront`, `pop`, `clear`, `replace`, `remove`; `Op`, `apply`.
* `Op.spec`: the same operations on a sequence; `Represents`: the queue holds the sequence.
* `mirror`: the queue seen from its tail.
* **`faithful_iff_keeps`**: a queue represents its sequence all along exactly when no `replace` was
  at an end and no `DLinkedListQueue` was popped empty.
-/

namespace Sperm

open Chain

variable {α : Type}

/-- `head_`, `tail_` and the link fields of all items. -/
structure DLinkedList (α : Type) where
  head : Option α
  tail : Option α
  next : α → Option α
  prev : α → Option α

namespace DLinkedList

/-- Following `next` from `head_`, and `prev` from `tail_`, visits the sequence in order and in
reverse. -/
structure Represents (q : DLinkedList α) (l : List α) : Prop where
  forward : Seg q.next q.head l none
  backward : Seg q.prev q.tail l.reverse none

theorem Represents.head_eq {q : DLinkedList α} {l : List α} (h : q.Represents l) :
    q.head = l.head? :=
  h.forward.head?_eq

theorem Represents.tail_eq {q : DLinkedList α} {l : List α} (h : q.Represents l) :
    q.tail = l.getLast? := by
  rw [h.backward.head?_eq, List.head?_reverse]

/-- The queue holds the sequence: `next` from `head_` visits it and ends at `tail_`, `prev` from
`tail_` visits it in reverse and ends at `head_`, and the two are `NULL` together. -/
def Holds (q : DLinkedList α) (l : List α) : Prop :=
  q.Represents l ∧ q.head = l.head? ∧ q.tail = l.getLast? ∧ (q.head = none ↔ q.tail = none)

theorem Represents.holds {q : DLinkedList α} {l : List α} (h : q.Represents l) : q.Holds l := by
  refine ⟨h, h.head_eq, h.tail_eq, ?_⟩
  rw [h.head_eq, h.tail_eq, List.head?_eq_none_iff, List.getLast?_eq_none_iff]

theorem reverse_window (a b : List α) (u x w : α) :
    (a ++ u :: x :: w :: b).reverse = b.reverse ++ w :: x :: u :: a.reverse := by
  simp

theorem exists_window {l : List α} {o : α} (ho : o ∈ l) (hf : l.head? ≠ some o)
    (hl : l.getLast? ≠ some o) : ∃ a u w b, l = a ++ u :: o :: w :: b ∧ o ∉ a ++ [u] := by
  obtain ⟨a, b, rfl, hoa⟩ := List.eq_append_cons_of_mem ho
  rcases List.eq_nil_or_concat' a with rfl | ⟨a, u, rfl⟩
  · exact absurd rfl hf
  · cases b with
    | nil => exact absurd (by simp) hl
    | cons w b => exact ⟨a, u, w, b, by simp, hoa⟩

/-- The queue seen from its tail. -/
def mirror (q : DLinkedList α) : DLinkedList α := ⟨q.tail, q.head, q.prev, q.next⟩

theorem Represents.mirror {q : DLinkedList α} {l : List α} (h : q.Represents l) :
    q.mirror.Represents l.reverse :=
  ⟨h.backward, by rw [List.reverse_reverse]; exact h.forward⟩

/-- The empty queue; the items' fields may hold anything. -/
def new (next prev : α → Option α) : DLinkedList α := ⟨none, none, next, prev⟩

theorem represents_new (next prev : α → Option α) : (new next prev).Represents [] := ⟨rfl, rfl⟩

variable [DecidableEq α]

/-! ## Operations -/

/-- `empty_()`. -/
def empty (q : DLinkedList α) : Bool := q.head = q.tail ∧ q.head = none

/-- `push(item)`. -/
def push (q : DLinkedList α) (item : α) : Option (DLinkedList α) :=
  let q₁ := { q with next := Function.update q.next item none }
  if q₁.empty then
    some { q₁ with
      head := some item
      tail := some item
      prev := Function.update q₁.prev item none }
  else
    match q₁.tail with
    | none => none
    | some y =>
      some { q₁ with
        next := Function.update q₁.next y (some item)
        prev := Function.update q₁.prev item (some y)
        tail := some item }

/-- `push_front(item)`. -/
def pushFront (q : DLinkedList α) (item : α) : Option (DLinkedList α) :=
  let q₁ := { q with prev := Function.update q.prev item none }
  if q₁.empty then
    some { q₁ with
      head := some item
      tail := some item
      next := Function.update q₁.next item none }
  else
    match q₁.head with
    | none => none
    | some y =>
      some { q₁ with
        next := Function.update q₁.next item (some y)
        prev := Function.update q₁.prev y (some item)
        head := some item }

/-- `pop` of a queue with items: the item and the queue after it. -/
def pop (q : DLinkedList α) : Option (α × DLinkedList α) :=
  match q.head with
  | none => none
  | some x =>
    let q₁ : DLinkedList α :=
      match q.next x with
      | none => { q with head := none, tail := none }
      | some y => { q with head := some y, prev := Function.update q.prev y none }
    some (x, { q₁ with
      prev := Function.update q₁.prev x none
      next := Function.update q₁.next x none })

/-- `clear(v)`: the old `head_` and the queue after it. -/
def clear (q : DLinkedList α) : Option α × DLinkedList α :=
  (q.head, { q with head := none, tail := none })

/-- `replace(o, n)`. -/
def replace (q : DLinkedList α) (o n : α) : DLinkedList α :=
  let next₁ :=
    match q.prev o with
    | none => q.next
    | some u => Function.update q.next u (some n)
  let prev₁ := Function.update q.prev n (q.prev o)
  let prev₂ :=
    match next₁ o with
    | none => prev₁
    | some w => Function.update prev₁ w (some n)
  { q with next := Function.update next₁ n (next₁ o), prev := prev₂ }

/-- `remove(x)`. -/
def remove (q : DLinkedList α) (x : α) : Option (DLinkedList α) :=
  if q.head = some x ∧ q.tail = some x then some { q with head := none, tail := none }
  else if q.head = some x then
    match q.next x with
    | none => none
    | some w => some { q with head := some w, prev := Function.update q.prev w none }
  else if q.tail = some x then
    match q.prev x with
    | none => none
    | some u => some { q with tail := some u, next := Function.update q.next u none }
  else
    match q.prev x with
    | none => none
    | some u =>
      let next₁ := Function.update q.next u (q.next x)
      match next₁ x with
      | none => none
      | some w => some { q with next := next₁, prev := Function.update q.prev w (q.prev x) }

/-! ## What each operation does to the sequence -/

theorem Represents.empty_iff {q : DLinkedList α} {l : List α} (h : q.Represents l) :
    q.empty = true ↔ l = [] := by
  rw [empty, decide_eq_true_iff, h.head_eq, h.tail_eq]
  cases l with
  | nil => simp
  | cons x l => simp

theorem Represents.push {q : DLinkedList α} {l : List α} (h : q.Represents l) {x : α}
    (hx : x ∉ l) : ∃ q', q.push x = some q' ∧ q'.Represents (l ++ [x]) := by
  have hempty := h.empty_iff
  have htail := h.tail_eq
  rcases List.eq_nil_or_concat' l with rfl | ⟨l₀, y, rfl⟩
  · refine ⟨_, if_pos (hempty.mpr rfl), ⟨rfl, ?_⟩, ⟨rfl, ?_⟩⟩ <;>
      exact Function.update_self _ _ _
  · obtain ⟨hx₀, hxy⟩ : x ∉ l₀ ∧ x ≠ y := by simpa [not_or] using hx
    have hy₀ : y ∉ l₀ := fun hy => by
      simpa using List.disjoint_of_nodup_append h.forward.nodup hy
    have hnot : ¬ (q.empty = true) := fun he => by simpa using hempty.mp he
    rw [List.getLast?_append, List.getLast?_singleton] at htail
    obtain ⟨hf, hy⟩ := seg_snoc.mp h.forward
    refine ⟨⟨q.head, some x, Function.update (Function.update q.next x none) y (some x),
      Function.update q.prev x (some y)⟩, ?_, ?_, ?_⟩
    · exact (if_neg hnot).trans (by simp only [htail, Option.some_or])
    · simp only [seg_snoc, seg_update hy₀, seg_update hx₀, Function.update_self,
        Function.update_of_ne hxy, hf, and_self]
    · have hb := h.backward
      simp only [List.reverse_append, List.reverse_singleton, List.singleton_append, seg_cons,
        Function.update_self, true_and] at hb ⊢
      rw [Function.update_of_ne (Ne.symm hxy), seg_update (by simpa using hx₀)]
      exact hb.2

theorem mirror_empty (q : DLinkedList α) : q.mirror.empty = q.empty := by
  unfold empty mirror
  grind

/-- `push_front` is `push` seen from the tail. -/
theorem pushFront_eq (q : DLinkedList α) (x : α) :
    q.pushFront x = (q.mirror.push x).map mirror := by
  have hm : ({ q with prev := Function.update q.prev x none } : DLinkedList α).empty =
      q.empty := rfl
  have hm' : ({ q.mirror with
      next := Function.update q.mirror.next x none } : DLinkedList α).empty = q.empty :=
    q.mirror_empty
  simp only [pushFront, push, hm, hm']
  split_ifs
  · rfl
  · change _ = Option.map _ (match q.head with | none => none | some y => _)
    cases q.head <;> rfl

theorem Represents.pushFront {q : DLinkedList α} {l : List α} (h : q.Represents l) {x : α}
    (hx : x ∉ l) : ∃ q', q.pushFront x = some q' ∧ q'.Represents (x :: l) := by
  obtain ⟨q', hq', hr⟩ := h.mirror.push (x := x) (by simpa using hx)
  refine ⟨q'.mirror, by rw [pushFront_eq, hq']; rfl, ?_⟩
  have := hr.mirror
  rwa [List.reverse_append, List.reverse_reverse] at this

theorem Represents.pop {q : DLinkedList α} {l : List α} {x : α} (h : q.Represents (x :: l)) :
    ∃ q', q.pop = some (x, q') ∧ q'.Represents l := by
  have hnd := h.forward.nodup
  obtain ⟨hhead, hf⟩ := h.forward
  cases l with
  | nil =>
    refine ⟨_, by simp only [DLinkedList.pop, hhead]; rfl, ?_, ?_⟩
    · rw [seg_nil.mp hf]; rfl
    · rw [seg_nil.mp hf]; rfl
  | cons y l =>
    obtain ⟨hy, hf⟩ := hf
    have hx : x ∉ y :: l := (List.nodup_cons.mp hnd).1
    have hyl : y ∉ l := (List.nodup_cons.mp (List.nodup_cons.mp hnd).2).1
    have hb := h.backward
    simp only [List.reverse_cons, seg_snoc] at hb
    refine ⟨⟨some y, q.tail, Function.update q.next x none,
      Function.update (Function.update q.prev y none) x none⟩, ?_, ?_, ?_⟩
    · simp only [DLinkedList.pop, hhead, hy]
    · rw [seg_update hx]
      exact ⟨rfl, hf⟩
    · rw [seg_update (List.mem_reverse.not.mpr hx), List.reverse_cons, seg_snoc,
        seg_update (List.mem_reverse.not.mpr hyl), Function.update_self]
      exact ⟨hb.1.1, rfl⟩

theorem Represents.replace {q : DLinkedList α} {a b : List α} {u o w n : α}
    (h : q.Represents (a ++ u :: o :: w :: b)) (hn : n ∉ a ++ u :: o :: w :: b) :
    (q.replace o n).Represents (a ++ u :: n :: w :: b) := by
  have hnd := h.forward.nodup
  obtain ⟨hfa, hfu, hfo, hfb⟩ := seg_through.mp h.forward
  have hb := h.backward
  rw [reverse_window] at hb
  obtain ⟨hbb, hbw, hbo, hba⟩ := seg_through.mp hb
  have huo : o ≠ u := by grind
  have heq : q.replace o n = { q with
      next := Function.update (Function.update q.next u (some n)) n (some w)
      prev := Function.update (Function.update q.prev n (some u)) w (some n) } := by
    simp only [DLinkedList.replace, hbo, Function.update_of_ne huo, hfo]
  rw [heq]
  constructor
  · simp only [seg_through, seg_cons]
    rw [seg_update (by grind), seg_update (by grind), seg_update (by grind), seg_update (by grind)]
    grind
  · rw [reverse_window]
    simp only [seg_through, seg_cons]
    rw [seg_update (by grind), seg_update (by grind), seg_update (by grind), seg_update (by grind)]
    grind

theorem Represents.removeFirst {q : DLinkedList α} {b : List α} {x w : α}
    (h : q.Represents (x :: w :: b)) : ∃ q', q.remove x = some q' ∧ q'.Represents (w :: b) := by
  have hnd := h.forward.nodup
  have hlast : q.tail ≠ some x := by
    intro hc
    rw [h.tail_eq, List.getLast?_cons_cons] at hc
    exact (List.nodup_cons.mp hnd).1 (List.mem_of_getLast? hc)
  obtain ⟨hhead, hw, hf⟩ := h.forward
  have hb := h.backward
  simp only [List.reverse_cons, seg_snoc] at hb
  refine ⟨{ q with head := some w, prev := Function.update q.prev w none }, ?_, ⟨rfl, hf⟩, ?_⟩
  · rw [remove, if_neg (fun hc => hlast hc.2), if_pos hhead, hw]
  · simp only [List.reverse_cons, seg_snoc, Function.update_self, and_true]
    rw [seg_update (by grind)]
    exact hb.1.1

theorem Represents.removeMiddle {q : DLinkedList α} {a b : List α} {u x w : α}
    (h : q.Represents (a ++ u :: x :: w :: b)) :
    ∃ q', q.remove x = some q' ∧ q'.Represents (a ++ u :: w :: b) := by
  have hnd := h.forward.nodup
  have hfirst : q.head ≠ some x := by
    rw [h.head_eq]
    cases a <;> grind
  have hlast : q.tail ≠ some x := by
    intro hc
    rw [h.tail_eq, List.append_cons, List.append_cons, List.getLast?_append_cons] at hc
    exact absurd (List.mem_of_getLast? hc) (by grind)
  obtain ⟨hfa, hfu, hfx, hfb⟩ := seg_through.mp h.forward
  have hb := h.backward
  rw [reverse_window] at hb
  obtain ⟨hbb, hbw, hbx, hba⟩ := seg_through.mp hb
  have hxu : x ≠ u := by grind
  refine ⟨{ q with
    next := Function.update q.next u (some w)
    prev := Function.update q.prev w (some u) }, ?_, ?_, ?_⟩
  · rw [remove, if_neg (fun hc => hfirst hc.1), if_neg hfirst, if_neg hlast, hbx]
    simp only [hfx, Function.update_of_ne hxu]
  · simp only [seg_through, seg_cons]
    rw [seg_update (by grind), seg_update (by grind)]
    grind
  · simp only [List.reverse_append, List.reverse_cons, List.append_assoc, List.cons_append,
      List.nil_append, seg_through, seg_cons]
    rw [seg_update (by grind), seg_update (by grind)]
    grind

theorem Represents.removeLast {q : DLinkedList α} {a : List α} {u x : α}
    (h : q.Represents (a ++ [u, x])) : ∃ q', q.remove x = some q' ∧ q'.Represents (a ++ [u]) := by
  have hnd := h.forward.nodup
  have hfirst : q.head ≠ some x := by
    rw [h.head_eq]
    cases a <;> grind
  obtain ⟨hfa, hfu, hfx⟩ := seg_through.mp h.forward
  have hb := h.backward
  rw [List.reverse_append] at hb
  obtain ⟨htail, hu, hb⟩ := hb
  refine ⟨{ q with tail := some u, next := Function.update q.next u none }, ?_, ?_, ?_⟩
  · rw [remove, if_neg (fun hc => hfirst hc.1), if_neg hfirst, if_pos htail, hu]
  · simp only [seg_snoc, Function.update_self, and_true]
    rw [seg_update (by grind)]
    exact hfa
  · rw [List.reverse_append]
    exact ⟨rfl, hb⟩

theorem Represents.remove {q : DLinkedList α} {l : List α} {x : α} (h : q.Represents l)
    (hx : x ∈ l) : ∃ q', q.remove x = some q' ∧ q'.Represents (l.erase x) := by
  obtain ⟨a, b, rfl, hxa⟩ := List.eq_append_cons_of_mem hx
  rw [List.erase_append_right _ hxa, List.erase_cons_head]
  rcases List.eq_nil_or_concat' a with rfl | ⟨a, u, rfl⟩
  · cases b with
    | nil =>
      refine ⟨_, if_pos ⟨h.head_eq, h.tail_eq⟩, rfl, rfl⟩
    | cons w b => exact h.removeFirst
  · rw [List.append_assoc] at h ⊢
    cases b with
    | nil => exact h.removeLast
    | cons w b => exact h.removeMiddle

/-! ## Sequences of operations -/

/-- The two classes. -/
inductive QueueClass where
  | blockingDLinkedListQueue
  | dLinkedListQueue
  deriving DecidableEq

/-- The operations of the two classes. -/
inductive Op (α : Type) where
  | push (item : α)
  | pushFront (item : α)
  | pop
  | clear
  | replace (o n : α)
  | remove (x : α)

namespace Op

/-- An operation on the queue, with the item that `pop` or `clear` gives. `pop` on an empty
`BlockingDLinkedListQueue` waits, and comes back with nothing when its time is over. -/
def apply (k : QueueClass) (q : DLinkedList α) : Op α → Option (Option α × DLinkedList α)
  | push item => (q.push item).map fun q' => (none, q')
  | pushFront item => (q.pushFront item).map fun q' => (none, q')
  | pop =>
    if k = .blockingDLinkedListQueue ∧ q.empty = true then some (none, q)
    else q.pop.map fun r => (some r.1, r.2)
  | clear => some q.clear
  | replace o n => some (none, q.replace o n)
  | remove x => (q.remove x).map fun q' => (none, q')

/-- The operation on a sequence. -/
def spec (l : List α) : Op α → Option α × List α
  | push item => (none, l ++ [item])
  | pushFront item => (none, item :: l)
  | pop => (l.head?, l.tail)
  | clear => (l.head?, [])
  | replace o n => (none, l.map fun y => if y = o then n else y)
  | remove x => (none, l.erase x)

/-- What a caller keeps to: new items are not in the queue, and the others are. -/
def Legal (k : QueueClass) (l : List α) : Op α → Prop
  | push item => item ∉ l
  | pushFront item => item ∉ l
  | pop => True
  | clear => k = .blockingDLinkedListQueue
  | replace o n => o ∈ l ∧ n ∉ l
  | remove x => x ∈ l

/-- `replace` is not at an end, and a `DLinkedListQueue` is not popped empty. -/
def Keeps (k : QueueClass) (l : List α) : Op α → Prop
  | pop => k = .dLinkedListQueue → l ≠ []
  | replace o _ => l.head? ≠ some o ∧ l.getLast? ≠ some o
  | _ => True

/-- A condition on every operation of a sequence, at the sequence of items it meets. -/
def Along (P : List α → Op α → Prop) : List α → List (Op α) → Prop
  | _, [] => True
  | l, op :: ops => P l op ∧ Along P (op.spec l).2 ops

theorem map_replace {a b : List α} {o : α} (n : α) (ha : o ∉ a) (hb : o ∉ b) :
    (a ++ o :: b).map (fun y => if y = o then n else y) = a ++ n :: b := by
  have hid : ∀ c : List α, o ∉ c → c.map (fun y => if y = o then n else y) = c := by
    intro c hc
    refine (List.map_congr_left fun y hy => ?_).trans (List.map_id' c)
    exact if_neg (ne_of_mem_of_not_mem hy hc)
  rw [List.map_append, List.map_cons, hid a ha, hid b hb, if_pos rfl]

theorem apply_of_keeps {k : QueueClass} {q : DLinkedList α} {l : List α} {op : Op α}
    (h : q.Represents l) (hleg : op.Legal k l) (hk : op.Keeps k l) :
    ∃ q', op.apply k q = some ((op.spec l).1, q') ∧ q'.Represents (op.spec l).2 := by
  cases op with
  | push item =>
    obtain ⟨q', hq, hr⟩ := h.push hleg
    exact ⟨q', by rw [apply, hq]; rfl, hr⟩
  | pushFront item =>
    obtain ⟨q', hq, hr⟩ := h.pushFront hleg
    exact ⟨q', by rw [apply, hq]; rfl, hr⟩
  | pop =>
    cases l with
    | nil =>
      have hb : k = .blockingDLinkedListQueue := by
        cases k with
        | blockingDLinkedListQueue => rfl
        | dLinkedListQueue => exact absurd rfl (hk rfl)
      exact ⟨q, if_pos ⟨hb, h.empty_iff.mpr rfl⟩, h⟩
    | cons x l =>
      obtain ⟨q', hq, hr⟩ := h.pop
      have hne : ¬ (k = .blockingDLinkedListQueue ∧ q.empty = true) := fun hc => by
        cases h.empty_iff.mp hc.2
      exact ⟨q', by rw [apply, if_neg hne, hq]; rfl, hr⟩
  | clear =>
    exact ⟨{ q with head := none, tail := none }, by rw [apply, DLinkedList.clear, h.head_eq]; rfl,
      ⟨rfl, rfl⟩⟩
  | replace o n =>
    obtain ⟨a, u, w, b, rfl, hoa⟩ := exists_window hleg.1 hk.1 hk.2
    have hnd := h.forward.nodup
    have hmap : (a ++ u :: o :: w :: b).map (fun y => if y = o then n else y) =
        a ++ u :: n :: w :: b := by
      rw [List.append_cons, map_replace n hoa (by grind), ← List.append_cons]
    exact ⟨q.replace o n, rfl, by rw [spec, hmap]; exact h.replace hleg.2⟩
  | remove x =>
    obtain ⟨q', hq, hr⟩ := h.remove hleg
    exact ⟨q', by rw [apply, hq]; rfl, hr⟩

/-- The operations that break the representation. -/
theorem not_represents_of_not_keeps {k : QueueClass} {q q' : DLinkedList α} {l : List α} {op : Op α}
    {r : Option α} (h : q.Represents l) (hleg : op.Legal k l) (hk : ¬ op.Keeps k l)
    (hq : op.apply k q = some (r, q')) : ¬ q'.Represents (op.spec l).2 := by
  intro h'
  cases op with
  | pop =>
    simp only [Keeps, Classical.not_imp, not_not] at hk
    obtain ⟨rfl, rfl⟩ := hk
    rw [apply, if_neg (fun hc => nomatch hc.1), DLinkedList.pop, h.head_eq] at hq
    cases hq
  | replace o n =>
    obtain ⟨ho, hn⟩ := hleg
    rw [apply, Option.some.injEq, Prod.mk.injEq] at hq
    obtain ⟨-, rfl⟩ := hq
    -- `head_` and `tail_` are what they were
    have hhead : (l.map fun y => if y = o then n else y).head? = l.head? :=
      h'.head_eq.symm.trans h.head_eq
    have htail : (l.map fun y => if y = o then n else y).getLast? = l.getLast? :=
      h'.tail_eq.symm.trans h.tail_eq
    have hno : n ≠ o := fun heq => hn (heq ▸ ho)
    rw [List.head?_map] at hhead
    rw [List.getLast?_map] at htail
    refine hk ⟨fun hf => ?_, fun hf => ?_⟩
    · rw [hf] at hhead
      simp [hno] at hhead
    · rw [hf] at htail
      simp [hno] at htail
  | _ => exact hk trivial

end Op

/-- Before and after every operation the queue holds what the operations so far make of the
sequence, and `pop` and `clear` give its first item. -/
def Faithful (k : QueueClass) : DLinkedList α → List α → List (Op α) → Prop
  | q, l, [] => q.Holds l
  | q, l, op :: ops => q.Holds l ∧
      ∃ q', op.apply k q = some ((op.spec l).1, q') ∧ Faithful k q' (op.spec l).2 ops

theorem Faithful.holds {k : QueueClass} {q : DLinkedList α} {l : List α} {ops : List (Op α)}
    (h : Faithful k q l ops) : q.Holds l := by
  cases ops with
  | nil => exact h
  | cons op ops => exact h.1

theorem faithful_iff_of_represents {k : QueueClass} {q : DLinkedList α} {l : List α}
    {ops : List (Op α)} (h : q.Represents l) (hleg : Op.Along (Op.Legal k) l ops) :
    Faithful k q l ops ↔ Op.Along (Op.Keeps k) l ops := by
  induction ops generalizing q l with
  | nil => exact ⟨fun _ => trivial, fun _ => h.holds⟩
  | cons op ops ih =>
    by_cases hk : op.Keeps k l
    · obtain ⟨q', hq, hr⟩ := Op.apply_of_keeps h hleg.1 hk
      have hih := ih hr hleg.2
      constructor
      · rintro ⟨-, q'', hq'', hf⟩
        rw [hq, Option.some.injEq, Prod.mk.injEq] at hq''
        exact ⟨hk, hih.mp (hq''.2 ▸ hf)⟩
      · intro hall
        exact ⟨h.holds, q', hq, hih.mpr hall.2⟩
    · constructor
      · rintro ⟨-, q', hq, hf⟩
        exact absurd hf.holds.1 (Op.not_represents_of_not_keeps h hleg.1 hk hq)
      · intro hall
        exact absurd hall.1 hk

/-- **The queue represents its sequence** through any legal sequence of operations exactly when no
`replace` is at an end of the queue and no empty `DLinkedListQueue` is popped. -/
theorem faithful_iff_keeps {k : QueueClass} {next prev : α → Option α} {ops : List (Op α)}
    (hleg : Op.Along (Op.Legal k) [] ops) :
    Faithful k (new next prev) [] ops ↔ Op.Along (Op.Keeps k) [] ops :=
  faithful_iff_of_represents (represents_new next prev) hleg

instance (k : QueueClass) (l : List α) (op : Op α) : Decidable (op.Legal k l) := by
  cases op <;> unfold Op.Legal <;> infer_instance

instance (k : QueueClass) (l : List α) (op : Op α) : Decidable (op.Keeps k l) := by
  cases op <;> unfold Op.Keeps <;> infer_instance

instance Op.decidableAlong (P : List α → Op α → Prop) [∀ l op, Decidable (P l op)] :
    ∀ l ops, Decidable (Op.Along P l ops)
  | _, [] => isTrue trivial
  | l, op :: ops =>
    haveI := Op.decidableAlong P (op.spec l).2 ops
    inferInstanceAs (Decidable (P l op ∧ Op.Along P (op.spec l).2 ops))

theorem faithful_replace_inside :
    Faithful .dLinkedListQueue (new (fun _ : ℕ => none) fun _ => none) []
      [.push 1, .push 2, .push 3, .replace 2 4, .pop, .pop, .pop] :=
  (faithful_iff_keeps (by decide)).mpr (by decide)

/-- `replace` of the only item: `head_` and `tail_` still point to the old one, and `pop` gives it
out. -/
theorem replace_at_end_breaks_queue :
    Op.Along (Op.Legal .blockingDLinkedListQueue) [] [.push 1, .replace 1 2, .pop] ∧
      ¬ Faithful .blockingDLinkedListQueue (new (fun _ : ℕ => none) fun _ => none) []
          [.push 1, .replace 1 2, .pop] ∧
        ∃ q, (new (fun _ : ℕ => none) fun _ => none).push 1 = some q ∧
          (q.replace 1 2).head = some 1 ∧ (q.replace 1 2).tail = some 1 ∧
            (q.replace 1 2).pop.map Prod.fst = some 1 := by
  refine ⟨by decide, ?_, _, rfl, rfl, rfl, rfl⟩
  rintro ⟨-, q₁, h₁, -, q₂, h₂, hf⟩
  cases h₁
  cases h₂
  cases hf.holds.2.1

end DLinkedList

end Sperm
