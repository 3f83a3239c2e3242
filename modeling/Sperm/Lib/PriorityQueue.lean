import Mathlib.Data.List.Sort
import Mathlib.Data.Multiset.MapFold

/-!
# Priority queues

* `PriorityQueue α less`: queues of which the first item is not less than any other one; which one
  of several such items comes first is left open.
* `byKey`: a queue with the items in order of a key.
-/

/-- A queue whose first item is a greatest one. -/
structure PriorityQueue (α : Type) (less : α → α → Prop) where
  Q : Type
  new : Q
  isEmpty : Q → Bool
  push : α → Q → Q
  top : Q → Option α
  pop : Q → Q
  items : Q → Multiset α
  items_new : items new = 0
  isEmpty_iff : ∀ q, isEmpty q = true ↔ items q = 0
  items_push : ∀ x q, items (push x q) = x ::ₘ items q
  /-- What `pop` takes is what `top` shows. -/
  items_pop : ∀ q, items q ≠ 0 → ∃ x, top q = some x ∧ items q = x ::ₘ items (pop q)
  top_max : ∀ q x, top q = some x → ∀ y ∈ items q, ¬ less x y

namespace PriorityQueue

variable {α : Type}

theorem exists_top {less : α → α → Prop} {P : PriorityQueue α less} {q : P.Q}
    (h : P.isEmpty q = false) :
    ∃ x, P.top q = some x ∧ P.items q = x ::ₘ P.items (P.pop q) := by
  refine P.items_pop q ?_
  rw [Ne, ← P.isEmpty_iff, h]
  exact Bool.false_ne_true

/-- The order of the items in a queue. -/
def KeyLE (key : α → ℤ) (x y : α) : Prop := key x ≤ key y

instance (key : α → ℤ) : DecidableRel (KeyLE key) := fun x y => inferInstanceAs
  (Decidable (key x ≤ key y))

instance (key : α → ℤ) : Std.Total (KeyLE key) := ⟨fun x y => le_total (key x) (key y)⟩

instance (key : α → ℤ) : IsTrans α (KeyLE key) := ⟨fun _ _ _ hxy hyz => le_trans hxy hyz⟩

/-- The items in order of their keys, where a smaller key makes a greater item. -/
def byKey (key : α → ℤ) : PriorityQueue α fun x y => key y < key x where
  Q := { l : List α // l.Pairwise (KeyLE key) }
  new := ⟨[], .nil⟩
  isEmpty q := q.1.isEmpty
  push x q := ⟨q.1.orderedInsert (KeyLE key) x, q.2.orderedInsert x q.1⟩
  top q := q.1.head?
  pop q := ⟨q.1.tail, q.2.tail⟩
  items q := q.1
  items_new := rfl
  isEmpty_iff q := by simp
  items_push x q := Multiset.coe_eq_coe.mpr (List.perm_orderedInsert _ x q.1)
  items_pop q h := by
    obtain ⟨l, hl⟩ := q
    cases l with
    | nil => exact absurd rfl h
    | cons x l => exact ⟨x, rfl, rfl⟩
  top_max q x hx y hy := by
    obtain ⟨l, hl⟩ := q
    cases l with
    | nil => cases hx
    | cons z l =>
      cases hx
      rcases List.mem_cons.mp hy with rfl | hy
      · exact lt_irrefl _
      · exact not_lt.mpr ((List.pairwise_cons.mp hl).1 y hy)

end PriorityQueue
