import Mathlib.Algebra.Order.Ring.Int
import Mathlib.Data.List.Induction
import Sperm.Lib.SearchTree

/-!
# Top lists (`FixedSizeHeap.java`, `IndexValueAggregator.java`)

An aggregator keeps a `FixedSizeHeap` for every key: a `TreeSet` that drops its last element when it
has grown beyond its size. Elements are compared by `IndexValue.compareTo`, which never gives `0`.

* `FixedSizeHeap` with `add` and `iterator`; the tree may be rebalanced in any way.
* `IndexValue`, `Sink`, `sink` and `run`.
* `IsTop`: some of the largest values, in order; `KeepsTop`: what an aggregator is for.
* `iterator_run`: a heap holds everything that was sunk under its key, in order.
* **`keepsTop_iff`**: the heaps are top lists exactly as long as they need not drop anything.
-/

namespace Sperm.Playboard

/-- `FixedSizeHeap<E>`: a `TreeSet` and a size. -/
structure FixedSizeHeap (E : Type) where
  set : BinaryTree E
  size : ℕ

namespace FixedSizeHeap

variable {E : Type}

/-- `FixedSizeHeap(size)`. -/
def new (size : ℕ) : FixedSizeHeap E := ⟨.nil, size⟩

/-- `add(e)`. The set may rebalance its tree after it has changed it. -/
def add (ρ : BinaryTree.Rebalance E) (compareTo : E → E → ℤ) (h : FixedSizeHeap E) (e : E) :
    FixedSizeHeap E :=
  let set := ρ.fix (h.set.insertBy compareTo e)
  if set.numNodes > h.size then
    match set.last with
    | none => { h with set := set }
    | some x => { h with set := ρ.fix (set.removeBy compareTo x) }
  else { h with set := set }

/-- What `iterator()` gives. -/
def iterator (h : FixedSizeHeap E) : List E := h.set.inorder

/-- With a comparison that never gives `0`, nothing is ever dropped. -/
theorem iterator_add {compareTo : E → E → ℤ} (hne : ∀ e x, compareTo e x ≠ 0)
    (ρ : BinaryTree.Rebalance E) (h : FixedSizeHeap E) (e : E) :
    (h.add ρ compareTo e).iterator = (h.set.insertBy compareTo e).inorder := by
  unfold add iterator
  simp only
  split_ifs
  · split
    · exact ρ.inorder_fix _
    · rw [BinaryTree.removeBy_of_ne_zero (hne _), ρ.inorder_fix]
      exact ρ.inorder_fix _
  · exact ρ.inorder_fix _

end FixedSizeHeap

/-- `IndexValue`, with its `Long`s unboxed. -/
structure IndexValue where
  index : String
  value : ℤ
  args : List ℤ
  deriving DecidableEq

/-- `compareTo(iv)`. The second test compares references; both of its outcomes give `-1`. -/
def IndexValue.compareTo (self iv : IndexValue) : ℤ := if self.value < iv.value then 1 else -1

def kTopNumber : ℕ := 200

/-- The arguments of a call `sink(type, index, key, value, args...)`. -/
structure Sink where
  type : String
  index : String
  key : String
  value : ℤ
  args : List ℤ

/-- The key of the heap that a call goes to. -/
def Sink.heapKey (day : String) (c : Sink) : String :=
  c.type ++ "s_" ++ day ++ "_day_" ++ c.index ++ "_values"

def Sink.indexValue (c : Sink) : IndexValue := ⟨c.key, c.value, c.args⟩

/-- `db`. -/
abbrev Db : Type := String → Option (FixedSizeHeap IndexValue)

/-- `sink(type, index, key, value, args...)`. -/
def sink (day : String) (db : Db) (ρ : BinaryTree.Rebalance IndexValue) (c : Sink) : Db :=
  let k := c.heapKey day
  let pq := (db k).getD (.new kTopNumber)
  Function.update db k (some (pq.add ρ IndexValue.compareTo c.indexValue))

/-- One call, with the rebalancing that the set does in it. -/
abbrev Step : Type := Sink × BinaryTree.Rebalance IndexValue

/-- The heaps after a sequence of calls on a new aggregator. -/
def run (day : String) (cs : List Step) : Db :=
  cs.foldl (fun db c => sink day db c.2 c.1) fun _ => none

/-- What the calls sank under `k`. -/
def sunk (day : String) (cs : List Step) (k : String) : List IndexValue :=
  (cs.filter fun c => c.1.heapKey day = k).map fun c => c.1.indexValue

/-- `kept` are `n` of `all`, or all if there are fewer, with the largest values, in order. -/
structure IsTop (n : ℕ) (all kept : List IndexValue) : Prop where
  length_eq : kept.length = min n all.length
  largest : ∃ dropped, (kept ++ dropped).Perm all ∧
    ∀ a ∈ kept, ∀ b ∈ dropped, b.value ≤ a.value
  sorted : kept.Pairwise fun a b => b.value ≤ a.value

/-- After every call, every heap is the top list of what was sunk under its key. -/
def KeepsTop (day : String) (cs : List Step) : Prop :=
  ∀ cs', cs' <+: cs → ∀ k h, run day cs' k = some h →
    h.iterator.length ≤ kTopNumber ∧ IsTop kTopNumber (sunk day cs' k) h.iterator

/-! ## What the heaps hold -/

theorem compareTo_ne_zero (a b : IndexValue) : a.compareTo b ≠ 0 := by
  unfold IndexValue.compareTo
  split_ifs <;> decide

theorem pairwise_insertBy {t : BinaryTree IndexValue} {e : IndexValue}
    (h : t.inorder.Pairwise fun a b => b.value ≤ a.value) :
    (t.insertBy IndexValue.compareTo e).inorder.Pairwise fun a b => b.value ≤ a.value := by
  refine BinaryTree.pairwise_inorder_insertBy (fun hab hbc => hbc.trans hab)
    (compareTo_ne_zero e) (fun x hx => ?_) (fun x hx => ?_) h
  · by_contra hlt
    rw [IndexValue.compareTo, if_pos (by omega)] at hx
    omega
  · by_contra hlt
    rw [IndexValue.compareTo, if_neg (by omega)] at hx
    omega

/-- What is in the heap of a key, with or without a heap. -/
def contents (o : Option (FixedSizeHeap IndexValue)) : List IndexValue :=
  (o.getD (.new kTopNumber)).iterator

theorem contents_some (h : FixedSizeHeap IndexValue) : contents (some h) = h.iterator := rfl

/-- A heap that holds all of `all`, in order; without a heap nothing was sunk. -/
structure HoldsAll (all : List IndexValue) (o : Option (FixedSizeHeap IndexValue)) : Prop where
  perm : (contents o).Perm all
  sorted : (contents o).Pairwise fun a b => b.value ≤ a.value
  isSome_of_ne : all ≠ [] → o.isSome

theorem run_append (day : String) (cs : List Step) (c : Step) :
    run day (cs ++ [c]) = sink day (run day cs) c.2 c.1 := by
  rw [run, List.foldl_append]
  rfl

theorem sunk_append (day : String) (cs : List Step) (c : Step) (k : String) :
    sunk day (cs ++ [c]) k =
      sunk day cs k ++ if c.1.heapKey day = k then [c.1.indexValue] else [] := by
  unfold sunk
  rw [List.filter_append, List.map_append]
  congr 1
  by_cases h : c.1.heapKey day = k <;> simp [h]

theorem holdsAll_sink {day : String} {db : Db} {all : String → List IndexValue}
    (h : ∀ k, HoldsAll (all k) (db k)) (ρ : BinaryTree.Rebalance IndexValue) (c : Sink)
    (k : String) :
    HoldsAll (all k ++ if c.heapKey day = k then [c.indexValue] else [])
      (sink day db ρ c k) := by
  by_cases hk : c.heapKey day = k
  · subst hk
    rw [if_pos rfl, sink, Function.update_self]
    have hadd := FixedSizeHeap.iterator_add compareTo_ne_zero ρ
      ((db (c.heapKey day)).getD (.new kTopNumber)) c.indexValue
    refine ⟨?_, ?_, fun _ => rfl⟩
    · rw [contents_some, hadd]
      refine (BinaryTree.perm_inorder_insertBy (compareTo_ne_zero _) _).trans ?_
      exact ((h _).perm.cons _).trans (List.perm_append_singleton _ _).symm
    · rw [contents_some, hadd]
      exact pairwise_insertBy (h _).sorted
  · rw [if_neg hk, List.append_nil, sink, Function.update_of_ne (Ne.symm hk)]
    exact h k

/-- **A heap holds everything that was sunk under its key**, however the trees are balanced. -/
theorem holdsAll_run (day : String) (cs : List Step) (k : String) :
    HoldsAll (sunk day cs k) (run day cs k) := by
  induction cs using List.reverseRecOn generalizing k with
  | nil => exact ⟨.refl _, .nil, absurd rfl⟩
  | append_singleton cs c ih =>
    rw [run_append, sunk_append]
    exact holdsAll_sink ih c.2 c.1 k

/-! ## Top lists -/

theorem isTop_of_holdsAll {all : List IndexValue} {h : FixedSizeHeap IndexValue}
    (hh : HoldsAll all (some h)) (hlen : all.length ≤ kTopNumber) :
    h.iterator.length ≤ kTopNumber ∧ IsTop kTopNumber all h.iterator := by
  have hl := hh.perm.length_eq
  rw [contents_some] at hl
  refine ⟨by omega, by omega, ⟨[], ?_, fun a _ b hb => absurd hb List.not_mem_nil⟩, hh.sorted⟩
  rw [List.append_nil]
  exact hh.perm

/-- A key that takes more than `kTopNumber` elements has a heap with all of them. -/
theorem not_keepsTop_of_lt {day : String} {cs : List Step} {k : String}
    (hlt : kTopNumber < (sunk day cs k).length) : ¬ KeepsTop day cs := by
  intro hk
  have hall := holdsAll_run day cs k
  obtain ⟨h, hh⟩ := Option.isSome_iff_exists.mp
    (hall.isSome_of_ne (List.ne_nil_of_length_pos (by omega)))
  have hl := hall.perm.length_eq
  rw [hh, contents_some] at hl
  have hle := (hk cs List.prefix_rfl k h hh).1
  omega

/-- **The heaps are top lists after every call exactly when no key takes more than `kTopNumber`
elements**, so that no heap has to drop any. -/
theorem keepsTop_iff (day : String) (cs : List Step) :
    KeepsTop day cs ↔ ∀ k, (sunk day cs k).length ≤ kTopNumber := by
  constructor
  · intro hk k
    by_contra hlt
    exact not_keepsTop_of_lt (not_le.mp hlt) hk
  · intro hlen cs' hcs k h hh
    have hall := holdsAll_run day cs' k
    rw [hh] at hall
    refine isTop_of_holdsAll hall (le_trans ?_ (hlen k))
    obtain ⟨rest, rfl⟩ := hcs
    simp only [sunk, List.filter_append, List.length_map, List.length_append]
    omega

theorem length_sunk_replicate (day : String) (n : ℕ) (c : Step) :
    (sunk day (List.replicate n c) (c.1.heapKey day)).length = n := by
  simp [sunk]

/-- One call more than the heap should keep, all with the same arguments. -/
def tooMany : List Step := List.replicate 201 (⟨"model", "installCnt", "100", 1, []⟩, .none)

theorem not_keepsTop_tooMany : ¬ KeepsTop "1" tooMany := by
  refine not_keepsTop_of_lt (k := Sink.heapKey "1" ⟨"model", "installCnt", "100", 1, []⟩) ?_
  rw [tooMany, length_sunk_replicate "1" 201 (⟨"model", "installCnt", "100", 1, []⟩, .none)]
  decide

end Sperm.Playboard
