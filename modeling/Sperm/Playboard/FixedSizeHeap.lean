import Sperm.Playboard.IndexValueAggregator

/-!
# The heap of fixed size (`FixedSizeHeap.java`)

With the comparison of an order, such as that of `Integer` in `main`, the heap is what its name
says.

* `adds`: a heap after a sequence of calls of `add`, each with its own rebalancing.
* `iterator_add_of_isOrder`: one call.
* **`iterator_adds`**: the heap holds the least values that were added, each once and in order.
-/

namespace Sperm.Playboard.FixedSizeHeap

open BinaryTree (IsOrder Rebalance insertSorted)

/-- `compareTo` of `Integer`. -/
def compareToInteger (a b : ℤ) : ℤ := if a < b then -1 else if a = b then 0 else 1

theorem isOrder_compareToInteger : IsOrder compareToInteger where
  neg_iff a b := by unfold compareToInteger; split_ifs <;> omega
  pos_iff a b := by unfold compareToInteger; split_ifs <;> omega

variable {E : Type}

/-- A heap after calls of `add`. -/
def adds (compareTo : E → E → ℤ) (h : FixedSizeHeap E) (es : List (E × Rebalance E)) :
    FixedSizeHeap E :=
  es.foldl (fun h e => h.add e.2 compareTo e.1) h

@[simp] theorem size_add (ρ : Rebalance E) (compareTo : E → E → ℤ) (h : FixedSizeHeap E) (e : E) :
    (h.add ρ compareTo e).size = h.size := by
  unfold add
  simp only
  split_ifs
  · split <;> rfl
  · rfl

variable [LinearOrder E] {compareTo : E → E → ℤ}

/-- The invariant: the values are in order, and not too many. -/
structure Valid (h : FixedSizeHeap E) : Prop where
  sorted : h.iterator.Pairwise (· < ·)
  length_le : h.iterator.length ≤ h.size

theorem iterator_add_of_isOrder (hcmp : IsOrder compareTo) {h : FixedSizeHeap E} (hv : h.Valid)
    (ρ : Rebalance E) (e : E) :
    (h.add ρ compareTo e).iterator = (insertSorted e h.iterator).take h.size := by
  have hset : (ρ.fix (h.set.insertBy compareTo e)).inorder = insertSorted e h.iterator := by
    rw [ρ.inorder_fix]
    exact BinaryTree.inorder_insertBy hcmp e hv.sorted
  have hsorted := BinaryTree.pairwise_insertSorted (e := e) hv.sorted
  have hlen := BinaryTree.length_insertSorted_le e h.iterator
  have hle := hv.length_le
  unfold add
  simp only
  generalize ρ.fix (h.set.insertBy compareTo e) = set at hset
  rw [← hset] at hsorted hlen ⊢
  rw [BinaryTree.length_inorder] at hlen
  split_ifs with hsize
  · split
    next hlast =>
      rw [BinaryTree.eq_nil_of_last_eq_none hlast] at hsize
      exact absurd hsize (Nat.not_lt_zero _)
    next x hlast =>
      unfold iterator
      rw [ρ.inorder_fix, BinaryTree.inorder_removeBy_last hcmp hsorted hlast,
        List.dropLast_eq_take, BinaryTree.length_inorder]
      congr 1
      omega
  · rw [List.take_of_length_le]
    · rfl
    · rw [BinaryTree.length_inorder]
      omega

theorem Valid.add (hcmp : IsOrder compareTo) {h : FixedSizeHeap E} (hv : h.Valid)
    (ρ : Rebalance E) (e : E) : (h.add ρ compareTo e).Valid := by
  constructor
  · rw [iterator_add_of_isOrder hcmp hv]
    exact (BinaryTree.pairwise_insertSorted hv.sorted).take
  · rw [iterator_add_of_isOrder hcmp hv, size_add]
    exact List.length_take_le _ _

theorem valid_new (size : ℕ) : (new size : FixedSizeHeap E).Valid :=
  ⟨.nil, Nat.zero_le _⟩

/-- What is dropped would not have been kept later either. -/
theorem iterator_foldl_add (hcmp : IsOrder compareTo) {h : FixedSizeHeap E} (hv : h.Valid)
    {l : List E} (hl : h.iterator = l.take h.size) (es : List (E × Rebalance E)) :
    (adds compareTo h es).iterator =
      ((es.map Prod.fst).foldl (fun l e => insertSorted e l) l).take h.size := by
  induction es generalizing h l with
  | nil => exact hl
  | cons e es ih =>
    have hstep : (h.add e.2 compareTo e.1).iterator =
        (insertSorted e.1 l).take (h.add e.2 compareTo e.1).size := by
      rw [iterator_add_of_isOrder hcmp hv, size_add, hl, BinaryTree.take_insertSorted]
    have := ih (hv.add hcmp e.2 e.1) hstep
    rwa [size_add] at this

/-- **A new heap comes to hold the least values** that were added, each once and in order. -/
theorem iterator_adds (hcmp : IsOrder compareTo) (size : ℕ) (es : List (E × Rebalance E)) :
    (adds compareTo (new size) es).iterator =
      ((es.map Prod.fst).toFinset.sort (· ≤ ·)).take size := by
  rw [iterator_foldl_add hcmp (valid_new size) List.take_nil.symm, BinaryTree.foldl_insertSorted]
  rfl

/-- The numbers of `main`. -/
theorem iterator_adds_main :
    (adds compareToInteger (new 3) [(10, .none), (20, .none), (5, .none), (30, .none)]).iterator =
      [5, 10, 20] :=
  (iterator_adds isOrder_compareToInteger 3 _).trans
    (by rw [← BinaryTree.foldl_insertSorted]; decide)

end Sperm.Playboard.FixedSizeHeap
