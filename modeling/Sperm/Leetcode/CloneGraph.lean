import Mathlib.Data.Int.Notation
import Sperm.Lib.Cloning

/-!
# Cloning a graph (`clone-graph.cc`)

A copy is entered into the cache under the label of its node before the neighbours are visited.

* `cloneGraph` with `cloneGraphWithCache`, `cloneNeighbors`, `pushBack`: the model. `none` stands
  for the use of an address without a node, and for a recursion deeper than `fuel`.
* `graphShape`: the neighbours as the pointers of a node.
* **`cloneNeighbors_spec`**: the loop, whose copy is incomplete until it ends;
  `cloneGraphWithCache_spec`.
* **`cloneGraph_spec`**: an isomorphic graph of new nodes.
-/

namespace Sperm.Leetcode.CloneGraph

open Cloning

variable {α : Type} [DecidableEq α]

/-- `UndirectedGraphNode`. -/
structure UndirectedGraphNode (α : Type) where
  label : ℤ
  neighbors : List α

abbrev Memory (α : Type) := Heap α (UndirectedGraphNode α)

/-- The memory, and the `cache` that goes by labels; `none` stands for `NULL` and for no entry. -/
abbrev GraphState (α : Type) := State α (UndirectedGraphNode α) ℤ

/-- `copy->neighbors.push_back(y)`. -/
def pushBack (copy y : α) (s : GraphState α) : Option (GraphState α) :=
  s.modify copy fun n => { n with neighbors := n.neighbors ++ [y] }

/-- The loop over `node->neighbors`, with `clone` for the recursive call. -/
def cloneNeighbors (clone : α → GraphState α → Option (α × GraphState α)) (copy : α) :
    List α → GraphState α → Option (GraphState α)
  | [], s => some s
  | x :: xs, s => do
    let (y, s) ← clone x s
    let s ← pushBack copy y s
    cloneNeighbors clone copy xs s

/-- `cloneGraphWithCache(node, cache)`. -/
def cloneGraphWithCache (A : Allocator α (UndirectedGraphNode α)) :
    ℕ → α → GraphState α → Option (α × GraphState α)
  | 0, _, _ => none
  | fuel + 1, node, s => do
    let n ← s.heap.cell node
    match s.cache n.label with
    | some value => some (value, s)
    | none => do
      let copy := A.alloc s.heap
      -- the copy is put into the cache
      let s := s.enter n.label copy ⟨n.label, []⟩
      let s ← cloneNeighbors (cloneGraphWithCache A fuel) copy n.neighbors s
      some (copy, s)

/-- `cloneGraph(node)`, and the memory behind it. -/
def cloneGraph (A : Allocator α (UndirectedGraphNode α)) (fuel : ℕ) (heap : Memory α) :
    Option α → Option (Option α × Memory α)
  | none => some (none, heap)
  | some node => do
    let (copy, s) ← cloneGraphWithCache A fuel node ⟨heap, fun _ => none⟩
    some (some copy, s.heap)

/-- The neighbours are the pointers of a node. -/
def graphShape : Shape α (UndirectedGraphNode α) where
  links n := n.neighbors
  rename f n := ⟨n.label, n.neighbors.map f⟩
  rename_eq_iff f g n := by simp [List.map_inj_left]

/-! ## One call -/

section Call

variable {S : Set α} {D : Finset α} {key : α → ℤ} {src : α → Option (UndirectedGraphNode α)}
  {s : GraphState α} {m : ℕ}

/-- A call copies a node, if fewer than `m` nodes are not in the cache. -/
def Clones (S : Set α) (D : Finset α) (key : α → ℤ) (src : α → Option (UndirectedGraphNode α))
    (clone : α → GraphState α → Option (α × GraphState α)) (m : ℕ) : Prop :=
  ∀ u ∈ S, ∀ s, Ready graphShape key src S D s → pending key D s < m →
    ∃ c s', clone u s = some (c, s') ∧ Grow graphShape key src S ∅ s s' ∧
      s'.cache (key u) = some c

/-- **The loop** gives the copy of each neighbour to the copy of the node. -/
theorem cloneNeighbors_spec {clone : α → GraphState α → Option (α × GraphState α)}
    (hclone : Clones S D key src clone m) {c : α} {l : ℤ} {done ns : List α}
    (hns : ∀ v ∈ ns, v ∈ S) (hc : c ∉ S) (hs : Ready graphShape key src S D s)
    (hm : pending key D s < m) (hcell : s.heap.cell c = some ⟨l, done⟩) :
    ∃ s', cloneNeighbors clone c ns s = some s' ∧ Grow graphShape key src S {c} s s' ∧
      s'.heap.cell c = some ⟨l, done ++ ns.map (s'.image key)⟩ ∧
      ∀ v ∈ ns, s'.cache (key v) ≠ none := by
  induction ns generalizing s done with
  | nil => exact ⟨s, rfl, Grow.refl s, by simpa using hcell, by simp⟩
  | cons x ns ih =>
    obtain ⟨hx, hns⟩ := List.forall_mem_cons.mp hns
    obtain ⟨y, s₁, hcall, hgrow, hy⟩ := hclone x hx s hs hm
    have halive : s.heap.cell c ≠ none := Option.ne_none_iff_exists'.mpr ⟨_, hcell⟩
    have hcell₁ : s₁.heap.cell c = some ⟨l, done⟩ := by
      rw [hgrow.frame c halive (Set.notMem_empty c), hcell]
    -- the call and the write to the copy
    have hstep := hgrow.call_write halive ⟨l, done ++ [y]⟩
    have hpush : pushBack c y s₁ = some { s₁ with heap := s₁.heap.write c ⟨l, done ++ [y]⟩ } :=
      State.modify_eq hcell₁ _
    have hready := hs.grow hstep fun d hd => by rwa [Set.mem_singleton_iff.mp hd]
    obtain ⟨s', hloop, hgrow', hcell', hall⟩ :=
      ih hns hready (hstep.pending_le.trans_lt hm) (Heap.write_self _ _ _)
    have hx' : s'.cache (key x) = some y := hgrow'.cached _ _ hy
    refine ⟨s', ?_, hstep.trans hgrow' fun d hd => by rwa [Set.mem_singleton_iff.mp hd], ?_, ?_⟩
    · rw [cloneNeighbors, hcall]
      simp only [Option.bind_eq_bind, Option.bind_some, hpush]
      exact hloop
    · rw [hcell', List.append_assoc, List.map_cons, State.image, hx']
      rfl
    · exact List.forall_mem_cons.mpr ⟨Option.ne_none_iff_exists'.mpr ⟨_, hx'⟩, hall⟩

/-- **A call** makes the copy of a node and of everything behind it that has none yet. -/
theorem cloneGraphWithCache_spec (A : Allocator α (UndirectedGraphNode α))
    (hlabel : ∀ u ∈ S, ∀ n, src u = some n → n.label = key u) (fuel : ℕ) :
    Clones S D key src (cloneGraphWithCache A fuel) fuel := by
  induction fuel with
  | zero =>
    intro u _ s _ hm
    omega
  | succ fuel ih =>
    intro u hu s hs hm
    obtain ⟨n, hn, hns⟩ := hs.node u hu
    have hcell := (hs.cell u hu).trans hn
    have hkey := hlabel u hu n hn
    cases hcache : s.cache (key u) with
    | some c =>
      refine ⟨c, s, ?_, Grow.refl s, hcache⟩
      simp [cloneGraphWithCache, hcell, hkey, hcache]
    | none =>
      have hfresh := A.fresh s.heap
      set c := A.alloc s.heap with hc
      have hcS := hs.notMem hfresh
      have hready := hs.enter hcS (key u) ⟨n.label, []⟩
      have hlt := pending_enter_lt (hs.mem u hu) hcache c (⟨n.label, []⟩ : UndirectedGraphNode α)
      obtain ⟨s', hloop, hgrow, hcopy, hall⟩ := cloneNeighbors_spec ih (hns hcache) hcS hready
        (by omega) (Heap.write_self _ _ _)
      refine ⟨c, s', ?_, Grow.close hfresh hcache hu hn hgrow hall hcopy,
        hgrow.cached _ _ (s.enter_self _ _ _)⟩
      simp only [cloneGraphWithCache, hcell, hkey, hcache, Option.bind_eq_bind, Option.bind_some,
        ← hc]
      rw [hkey] at hloop
      exact congrArg (Option.bind · fun s => some (c, s)) hloop

end Call

/-! ## The graph -/

/-- The label of the node at an address. -/
def labelAt (heap : Memory α) (u : α) : ℤ :=
  match heap.cell u with
  | some n => n.label
  | none => 0

/-- **Cloning** a graph makes an isomorphic one of new nodes: there is one for each node that can be
reached, it has the same label and the copies of the same neighbours in the same order, and the
memory is otherwise as it was. -/
theorem cloneGraph_spec (A : Allocator α (UndirectedGraphNode α)) (heap : Memory α) (node : α)
    (hgraph : ∀ u ∈ reach graphShape heap node, heap.cell u ≠ none)
    (hlabels : ∀ u ∈ reach graphShape heap node, ∀ v ∈ reach graphShape heap node,
      labelAt heap u = labelAt heap v → u = v) (fuel : ℕ) (hfuel : heap.dom.card < fuel) :
    ∃ f heap', cloneGraph A fuel heap (some node) = some (some (f node), heap') ∧
      Copied graphShape heap heap' (reach graphShape heap node) f := by
  have hcell : ∀ u ∈ reach graphShape heap node, ∃ n, heap.cell u = some n :=
    fun u hu => Option.ne_none_iff_exists'.mp (hgraph u hu)
  have hready : Ready graphShape (labelAt heap) heap.cell (reach graphShape heap node) heap.dom
      ⟨heap, fun _ => none⟩ := by
    refine ⟨fun u hu => ?_, fun _ _ => rfl, fun u hu => Heap.mem_dom (hgraph u hu)⟩
    obtain ⟨n, hn⟩ := hcell u hu
    exact ⟨n, hn, fun _ v hv => reach_link hu hn hv⟩
  obtain ⟨c, s', hcall, hgrow, hc⟩ := cloneGraphWithCache_spec A
    (fun u _ n hn => by rw [labelAt, hn]) fuel node .refl _ hready
    ((pending_le _ _ _).trans_lt hfuel)
  -- everything that can be reached has been copied
  have hall : ∀ u ∈ reach graphShape heap node, s'.cache (labelAt heap u) ≠ none := by
    intro u hu
    induction hu with
    | refl => exact Option.ne_none_iff_exists'.mpr ⟨_, hc⟩
    | tail hu hlink ih =>
      obtain ⟨n, hn, hv⟩ := hlink
      exact (hgrow.cell_image (fun u hu v hv => hlabels u hu v hv) hu hn rfl ih).2.1 _ hv
  have himage : s'.image (labelAt heap) node = c := by rw [State.image, hc, Option.getD_some]
  refine ⟨s'.image (labelAt heap), s'.heap, ?_, ?_⟩
  · rw [himage, cloneGraph, hcall]
    rfl
  · refine hgrow.copied (fun u hu v hv => hlabels u hu v hv) (fun u hu => ?_) (fun _ _ => rfl) hall
    obtain ⟨n, hn⟩ := hcell u hu
    exact ⟨n, hn, hn⟩

/-- A node with an edge to itself and two edges to another one, which has one back. -/
def loopedHeap : Memory ℕ where
  cell x := if x = 0 then some ⟨10, [0, 1, 1]⟩ else if x = 1 then some ⟨20, [0]⟩ else none
  dom := {0, 1}
  cell_eq_none x hx := by
    rw [Finset.mem_insert, Finset.mem_singleton, not_or] at hx
    rw [if_neg hx.1, if_neg hx.2]

theorem loopedHeap_reach {u : ℕ} (hu : u ∈ reach graphShape loopedHeap 0) : u = 0 ∨ u = 1 := by
  induction hu with
  | refl => exact .inl rfl
  | tail _ hlink ih =>
    obtain ⟨n, hn, hv⟩ := hlink
    rcases ih with rfl | rfl
    · obtain rfl := Option.some_inj.mp hn
      simpa [graphShape] using hv
    · obtain rfl := Option.some_inj.mp hn
      exact .inl (by simpa [graphShape] using hv)

theorem cloneGraph_looped :
    ∃ f heap', cloneGraph Allocator.above 3 loopedHeap (some 0) = some (some (f 0), heap') ∧
      Copied graphShape loopedHeap heap' (reach graphShape loopedHeap 0) f := by
  refine cloneGraph_spec Allocator.above loopedHeap 0 (fun u hu => ?_) (fun u hu v hv heq => ?_) 3
    (by decide)
  · rcases loopedHeap_reach hu with rfl | rfl
    · exact Option.some_ne_none _
    · exact Option.some_ne_none _
  · rcases loopedHeap_reach hu with rfl | rfl <;> rcases loopedHeap_reach hv with rfl | rfl
    · rfl
    · exact absurd heq (by decide)
    · exact absurd heq (by decide)
    · rfl

end Sperm.Leetcode.CloneGraph
