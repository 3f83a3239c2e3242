import Mathlib.Data.Int.Notation
import Sperm.Lib.Cloning

/-!
# Copying a list with random pointers (`copy-list-with-random-pointer.cc`)

The cache goes by addresses and belongs to the object, so that it is still there in later calls,
when something else may be in memory at these addresses.

* `copyRandomList` with `setNext`, `setRandom`: the model. `none` stands for the use of an address
  without a node, and for a recursion deeper than `fuel`.
* `copyRandomList_spec`: one call, whatever is in the cache.
* `Call`, `AllCopy`: a run of calls on one object, each in memory as it is by then.
* **`copies_iff`**: a call copies its list exactly if the cache has no entry for it.
* **`allCopy_iff`**: the calls of a run do so exactly if no two of them meet the same address.
-/

namespace Sperm.Leetcode.CopyRandomList

open Cloning

variable {α : Type} [DecidableEq α]

/-- `RandomListNode`. -/
structure RandomListNode (α : Type) where
  label : ℤ
  next : Option α
  random : Option α

abbrev Memory (α : Type) := Heap α (RandomListNode α)

/-- The memory, and the `cache` of the object; `none` stands for `NULL` and for no entry. -/
abbrev ListState (α : Type) := State α (RandomListNode α) α

/-- `x->next = y`. -/
def setNext (x : α) (y : Option α) (s : ListState α) : Option (ListState α) :=
  s.modify x fun n => { n with next := y }

/-- `x->random = y`. -/
def setRandom (x : α) (y : Option α) (s : ListState α) : Option (ListState α) :=
  s.modify x fun n => { n with random := y }

/-- `copyRandomList(head)`. -/
def copyRandomList (A : Allocator α (RandomListNode α)) :
    ℕ → Option α → ListState α → Option (Option α × ListState α)
  | _, none, s => some (none, s)
  | 0, some _, _ => none
  | fuel + 1, some head, s =>
    match s.cache head with
    | some x => some (some x, s)
    | none => do
      let n ← s.heap.cell head
      let x := A.alloc s.heap
      let s := s.enter head x ⟨n.label, none, none⟩
      let n ← s.heap.cell head
      let (y, s) ← copyRandomList A fuel n.next s
      let s ← setNext x y s
      let n ← s.heap.cell head
      let (y, s) ← copyRandomList A fuel n.random s
      let s ← setRandom x y s
      some (some x, s)

/-- The pointers of a node. -/
def listShape : Shape α (RandomListNode α) where
  links n := n.next.toList ++ n.random.toList
  rename f n := ⟨n.label, n.next.map f, n.random.map f⟩
  rename_eq_iff f g n := by
    obtain ⟨l, next, random⟩ := n
    cases next <;> cases random <;> simp

/-! ## One call -/

section Call

variable {S : Set α} {D : Finset α} {src : α → Option (RandomListNode α)} {s s' : ListState α}

omit [DecidableEq α] in
theorem map_image {C : Set α} {p : Option α} (h : Grow listShape id src S C s s')
    (hp : ∀ v ∈ p, s.cache v ≠ none) : p.map (s'.image id) = p.map (s.image id) := by
  cases p with
  | none => rfl
  | some v => exact congrArg some (h.image_eq (hp v rfl))

/-- Calls copy what they are given, if fewer than `fuel` nodes are not in the cache. -/
def Copying (A : Allocator α (RandomListNode α)) (S : Set α) (D : Finset α)
    (src : α → Option (RandomListNode α)) (fuel : ℕ) : Prop :=
  ∀ (head : Option α) (s : ListState α), (∀ u ∈ head, u ∈ S) → Ready listShape id src S D s →
    pending id D s < fuel →
    ∃ s', copyRandomList A fuel head s = some (head.map (s'.image id), s') ∧
      Grow listShape id src S ∅ s s' ∧ ∀ u ∈ head, s'.cache u ≠ none

theorem Copying.modify {A : Allocator α (RandomListNode α)} {fuel : ℕ}
    (ih : Copying A S D src fuel) {p : Option α} {x : α} {m : RandomListNode α}
    (hp : ∀ v ∈ p, v ∈ S) (hs : Ready listShape id src S D s) (hm : pending id D s < fuel)
    (hxS : x ∉ S) (hx : s.heap.cell x = some m)
    (f : Option α → RandomListNode α → RandomListNode α) :
    ∃ s₁ s₂, copyRandomList A fuel p s = some (p.map (s₂.image id), s₁) ∧
      s₁.modify x (f (p.map (s₂.image id))) = some s₂ ∧ Grow listShape id src S {x} s s₂ ∧
      Ready listShape id src S D s₂ ∧ s₂.heap.cell x = some (f (p.map (s₂.image id)) m) ∧
      ∀ v ∈ p, s₂.cache v ≠ none := by
  obtain ⟨s₁, hcall, hgrow, hcached⟩ := ih p s hp hs hm
  have halive := Option.ne_none_iff_exists'.mpr ⟨_, hx⟩
  have hx₁ : s₁.heap.cell x = some m := by
    rw [hgrow.frame x halive (Set.notMem_empty x), hx]
  have hstep := hgrow.call_write halive (f (p.map (s₁.image id)) m)
  have hready := hs.grow hstep fun v hv => by rwa [Set.mem_singleton_iff.mp hv]
  exact ⟨s₁, { s₁ with heap := s₁.heap.write x (f (p.map (s₁.image id)) m) }, hcall,
    State.modify_eq hx₁ _, hstep, hready, Heap.write_self _ _ _, hcached⟩

/-- **A call** makes the copy of a node and of everything behind it that has no entry in the
cache. -/
theorem copyRandomList_spec (A : Allocator α (RandomListNode α)) (fuel : ℕ) :
    Copying A S D src fuel := by
  induction fuel with
  | zero =>
    intro head s _ _ hm
    omega
  | succ fuel ih =>
    intro head s hhead hs hm
    cases head with
    | none => exact ⟨s, rfl, Grow.refl s, by simp⟩
    | some u =>
      have hu : u ∈ S := hhead u rfl
      obtain ⟨n, hn, hlinks⟩ := hs.node u hu
      have hcell := (hs.cell u hu).trans hn
      cases hcache : s.cache u with
      | some x =>
        exact ⟨s, by simp [copyRandomList, hcache, State.image], Grow.refl s, by simp [hcache]⟩
      | none =>
        have hfresh := A.fresh s.heap
        set x := A.alloc s.heap with hx
        have hxS := hs.notMem hfresh
        have hpointers : ∀ v ∈ listShape.links n, v ∈ S := hlinks hcache
        simp only [listShape, List.mem_append, Option.mem_toList] at hpointers
        have hkey : s.cache (id u) = none := hcache
        have hready := hs.enter hxS u ⟨n.label, none, none⟩
        have hlt : pending id D (s.enter u x ⟨n.label, none, none⟩) < pending id D s :=
          pending_enter_lt (hs.mem u hu) hkey x _
        obtain ⟨s₁, s₂, hcall, hset, hgrow, hready₂, hcopy, hnext⟩ := ih.modify
          (fun v hv => hpointers v (.inl hv)) hready (by omega) hxS (Heap.write_self _ _ _)
          fun y n => { n with next := y }
        have hle := hgrow.pending_le (D := D)
        obtain ⟨s₃, s₄, hcall₂, hset₂, hgrow₂, -, hcopy₂, hrandom⟩ := ih.modify
          (fun v hv => hpointers v (.inr hv)) hready₂ (by omega) hxS hcopy
          fun y n => { n with random := y }
        have htotal := hgrow.trans hgrow₂ fun v hv => by
          rw [Set.mem_singleton_iff.mp hv]
          exact Option.ne_none_iff_exists'.mpr ⟨_, s.heap.write_self x _⟩
        have hentry : s₄.cache u = some x := htotal.cached u x (s.enter_self _ _ _)
        refine ⟨s₄, ?_, Grow.close (C := ∅) hfresh hkey hu hn htotal ?_ ?_, ?_⟩
        · have hcell₁ := (hready.cell u hu).trans hn
          have hcell₂ := (hready₂.cell u hu).trans hn
          simp only [copyRandomList, hcache, hcell, ← hx, hcell₁, hcall, setNext, hset, hcell₂,
            hcall₂, setRandom, hset₂, Option.bind_eq_bind, Option.bind_some, Option.map_some]
          rw [State.image, id, hentry, Option.getD_some]
        · intro v hv
          rcases List.mem_append.mp hv with hv | hv
          · exact hgrow₂.cached_ne_none (hnext v (Option.mem_toList.mp hv))
          · exact hrandom v (Option.mem_toList.mp hv)
        · rw [hcopy₂, ← map_image hgrow₂ hnext]
          rfl
        · intro v hv
          obtain rfl := Option.some_inj.mp hv
          exact Option.ne_none_iff_exists'.mpr ⟨_, hentry⟩

end Call

/-! ## Runs of calls -/

/-- A call of `copyRandomList`, with the memory as it is by then. Between two calls anything may
happen to the memory, but the cache stays. -/
structure Call (α : Type) where
  heap : Memory α
  head : Option α
  alloc : Allocator α (RandomListNode α)
  fuel : ℕ

namespace Call

/-- The nodes of the list. -/
def nodes (c : Call α) : Set α := {u | ∃ a ∈ c.head, u ∈ reach listShape c.heap a}

/-- All pointers lead to nodes, and the recursion is not cut off. -/
def Valid (c : Call α) : Prop := (∀ u ∈ c.nodes, c.heap.cell u ≠ none) ∧ c.heap.dom.card < c.fuel

/-- The call gives a copy of the list as it is now, in nodes that were not in use before, be it by
the list or by what an earlier call has given. -/
def Copies (c : Call α) (x : Option α) (heap : Memory α) : Prop :=
  ∃ f, x = c.head.map f ∧ Copied listShape c.heap heap c.nodes f

/-- No address is met in both calls. -/
def Apart (c d : Call α) : Prop := ∀ u ∈ c.nodes, u ∉ d.nodes

end Call

/-- In the calls on one object, one after the other, each gives a copy of its list. -/
def AllCopy : (α → Option α) → List (Call α) → Prop
  | _, [] => True
  | cache, c :: cs => ∃ x s, copyRandomList c.alloc c.fuel c.head ⟨c.heap, cache⟩ = some (x, s) ∧
      c.Copies x s.heap ∧ AllCopy s.cache cs

section Stale

variable {c : Call α} {cache : α → Option α} {s : ListState α} {u b : α} {f : α → α}

/-- The nodes that a call gets to, as it does not go on behind those in the cache. -/
def explored (c : Call α) (cache : α → Option α) : Set α :=
  {u | ∃ a ∈ c.head, Relation.ReflTransGen (fun u v => cache u = none ∧
    ∃ n, c.heap.cell u = some n ∧ v ∈ listShape.links n) a u}

omit [DecidableEq α] in
theorem explored_subset : explored c cache ⊆ c.nodes := by
  rintro u ⟨a, ha, hu⟩
  exact ⟨a, ha, hu.lift id fun _ _ h => h.2⟩

omit [DecidableEq α] in
theorem explored_or_stale (cache : α → Option α) (hu : u ∈ c.nodes) :
    u ∈ explored c cache ∨ ∃ b ∈ explored c cache, cache b ≠ none := by
  obtain ⟨a, ha, hu⟩ := hu
  induction hu with
  | refl => exact .inl ⟨a, ha, .refl⟩
  | @tail v w _ hlink ih =>
    rcases ih with ⟨a', ha', hv⟩ | hstale
    · by_cases hnone : cache v = none
      · exact .inl ⟨a', ha', hv.tail ⟨hnone, hlink⟩⟩
      · exact .inr ⟨v, ⟨a', ha', hv⟩, hnone⟩
    · exact .inr hstale

omit [DecidableEq α] in
theorem ready_explored (hvalid : c.Valid) :
    Ready listShape id c.heap.cell (explored c cache) c.heap.dom ⟨c.heap, cache⟩ := by
  refine ⟨fun u hu => ?_, fun _ _ => rfl, fun u hu => ?_⟩
  · obtain ⟨n, hn⟩ := Option.ne_none_iff_exists'.mp (hvalid.1 u (explored_subset hu))
    refine ⟨n, hn, fun hnone v hv => ?_⟩
    obtain ⟨a, ha, hu⟩ := hu
    exact ⟨a, ha, hu.tail ⟨hnone, n, hn, hv⟩⟩
  · exact Heap.mem_dom (hvalid.1 u (explored_subset hu))

variable (hgrow : Grow listShape id c.heap.cell (explored c cache) ∅ ⟨c.heap, cache⟩ s)

include hgrow

omit [DecidableEq α] in
theorem cached_of_explored (hhead : ∀ a ∈ c.head, s.cache a ≠ none) (hu : u ∈ explored c cache) :
    s.cache u ≠ none := by
  obtain ⟨a, ha, hu⟩ := hu
  induction hu with
  | refl => exact hhead a ha
  | tail hpath hlink ih =>
    obtain ⟨hnone, n, hn, hv⟩ := hlink
    exact (hgrow.cell_image (Set.injOn_id _) ⟨a, ha, hpath⟩ hn hnone ih).2.1 _ hv

omit [DecidableEq α] in
theorem cache_eq_of_copied (hhead : ∀ a ∈ c.head, s.cache a ≠ none)
    (hres : c.head.map (s.image id) = c.head.map f)
    (hcopied : Copied listShape c.heap s.heap c.nodes f) (hu : u ∈ explored c cache) :
    s.image id u = f u := by
  obtain ⟨a, ha, hu⟩ := hu
  induction hu with
  | refl =>
    rw [Option.mem_def.mp ha] at hres
    exact Option.some_inj.mp hres
  | @tail v w hpath hlink ih =>
    obtain ⟨hnone, n, hn, hw⟩ := hlink
    have hv : v ∈ explored c cache := ⟨a, ha, hpath⟩
    have himage := (hgrow.cell_image (Set.injOn_id _) hv hn hnone
      (cached_of_explored hgrow hhead hv)).2.2
    rw [ih, hcopied.cell v (explored_subset hv) n hn] at himage
    exact ((listShape.rename_eq_iff _ _ n).mp (Option.some_inj.mp himage) w hw).symm

omit [DecidableEq α] in
/-- An old entry of the cache is no part of a copy. -/
theorem not_copied_of_stale (hvalid : c.Valid) (hhead : ∀ a ∈ c.head, s.cache a ≠ none)
    (hres : c.head.map (s.image id) = c.head.map f) (hb : b ∈ explored c cache)
    (hstale : cache b ≠ none) :
    ¬ Copied listShape c.heap s.heap c.nodes f := by
  intro hcopied
  obtain ⟨d, hd⟩ := Option.ne_none_iff_exists'.mp hstale
  have hb' : s.cache b = some d := hgrow.cached b d hd
  have hfb : f b = d := by
    rw [← cache_eq_of_copied hgrow hhead hres hcopied hb, State.image, id, hb', Option.getD_some]
  have hmem := explored_subset hb
  obtain ⟨n, hn⟩ := Option.ne_none_iff_exists'.mp (hvalid.1 b hmem)
  -- the copy of `b` is allocated in the call, as that of another node
  have hfresh := hcopied.fresh b hmem
  obtain ⟨k, hk, hk'⟩ := hgrow.alloc (f b) hfresh (by
    rw [hcopied.cell b hmem n hn]
    exact Option.some_ne_none _)
  obtain ⟨-, v, hv, rfl, -⟩ := hgrow.new k (f b) hk hk'
  have hfv : f v = f b := by
    rw [← cache_eq_of_copied hgrow hhead hres hcopied hv, State.image, hk', Option.getD_some]
  obtain rfl := hcopied.injOn (explored_subset hv) hmem hfv
  exact hstale hk

end Stale

/-- **A call** copies its list exactly if none of its nodes is in the cache. Then all of them are
in the cache, and no others than before. -/
theorem copies_iff (c : Call α) (hvalid : c.Valid) (cache : α → Option α) :
    ∃ x s, copyRandomList c.alloc c.fuel c.head ⟨c.heap, cache⟩ = some (x, s) ∧
      (c.Copies x s.heap ↔ ∀ u ∈ c.nodes, cache u = none) ∧
      ((∀ u ∈ c.nodes, cache u = none) →
        ∀ u, s.cache u ≠ none ↔ cache u ≠ none ∨ u ∈ c.nodes) := by
  have hfirst : ∀ a ∈ c.head, a ∈ explored c cache := fun a ha => ⟨a, ha, .refl⟩
  obtain ⟨s, hcall, hgrow, hhead⟩ := copyRandomList_spec c.alloc c.fuel c.head _ hfirst
    (ready_explored hvalid) ((pending_le _ _ _).trans_lt hvalid.2)
  have hexplored : (∀ u ∈ c.nodes, cache u = none) → explored c cache = c.nodes := by
    intro hnew
    refine Set.Subset.antisymm explored_subset fun u hu => ?_
    rcases explored_or_stale cache hu with hu | ⟨b, hb, hstale⟩
    · exact hu
    · exact absurd (hnew b (explored_subset hb)) hstale
  refine ⟨_, s, hcall, ⟨?_, fun hnew => ?_⟩, fun hnew u => ⟨fun hu => ?_, ?_⟩⟩
  · rintro ⟨f, hres, hcopied⟩ u hu
    by_contra hne
    rcases explored_or_stale cache hu with hu | ⟨b, hb, hstale⟩
    · exact not_copied_of_stale hgrow hvalid hhead hres hu hne hcopied
    · exact not_copied_of_stale hgrow hvalid hhead hres hb hstale hcopied
  · have hall : ∀ u ∈ explored c cache, s.cache u ≠ none :=
      fun u hu => cached_of_explored hgrow hhead hu
    have hcopied := hgrow.copied (Set.injOn_id _) (fun u hu => ?_)
      (fun u hu => hnew u (explored_subset hu)) hall
    · rw [hexplored hnew] at hcopied
      exact ⟨_, rfl, hcopied⟩
    · obtain ⟨n, hn⟩ := Option.ne_none_iff_exists'.mp (hvalid.1 u (explored_subset hu))
      exact ⟨n, hn, hn⟩
  · by_cases hold : cache u = none
    · obtain ⟨d, hd⟩ := Option.ne_none_iff_exists'.mp hu
      obtain ⟨-, v, hv, rfl, -⟩ := hgrow.new u d hold hd
      exact .inr (explored_subset hv)
    · exact .inl hold
  · rintro (hold | hu)
    · exact hgrow.cached_ne_none hold
    · exact cached_of_explored hgrow hhead (by rwa [hexplored hnew])

/-! ## All calls -/

theorem allCopy_iff_of_cache {seen : Set α} {cs : List (Call α)} (hvalid : ∀ c ∈ cs, c.Valid)
    {cache : α → Option α} (hcache : ∀ u, cache u ≠ none ↔ u ∈ seen) :
    AllCopy cache cs ↔ (∀ c ∈ cs, ∀ u ∈ seen, u ∉ c.nodes) ∧ cs.Pairwise Call.Apart := by
  induction cs generalizing seen cache with
  | nil => simp [AllCopy]
  | cons c cs ih =>
    obtain ⟨hc, hvalid⟩ := List.forall_mem_cons.mp hvalid
    obtain ⟨x, s, hcall, hcopies, hafter⟩ := copies_iff c hc cache
    have hdisj : (∀ u ∈ c.nodes, cache u = none) ↔ ∀ u ∈ seen, u ∉ c.nodes := by
      refine forall_congr' fun u => ?_
      rw [← hcache u, not_imp_not]
    have hhead : AllCopy cache (c :: cs) ↔ c.Copies x s.heap ∧ AllCopy s.cache cs := by
      constructor
      · rintro ⟨x', s', hcall', h⟩
        obtain ⟨rfl, rfl⟩ := Prod.mk.inj (Option.some_inj.mp (hcall.symm.trans hcall'))
        exact h
      · rintro h
        exact ⟨x, s, hcall, h⟩
    rw [hhead, hcopies, hdisj, List.forall_mem_cons, List.pairwise_cons, and_assoc]
    refine and_congr_right fun hseen => ?_
    have hnew := hafter (hdisj.mpr hseen)
    have hseen' : ∀ u, s.cache u ≠ none ↔ u ∈ seen ∪ c.nodes := by
      intro u
      rw [hnew u, hcache u]
      rfl
    rw [ih hvalid hseen']
    constructor
    · rintro ⟨hboth, hpairs⟩
      exact ⟨fun d hd u hu => hboth d hd u (.inl hu), fun d hd u hu => hboth d hd u (.inr hu),
        hpairs⟩
    · rintro ⟨hold, hlists, hpairs⟩
      exact ⟨fun d hd u hu => hu.elim (hold d hd u) (hlists d hd u), hpairs⟩

omit [DecidableEq α] in
theorem mem_empty_iff (u : α) : (none : Option α) ≠ none ↔ u ∈ (∅ : Set α) := by simp

/-- **In a run** each call copies its list as it is then exactly if no two calls meet the same
address. -/
theorem allCopy_iff (calls : List (Call α)) (hvalid : ∀ c ∈ calls, c.Valid) :
    AllCopy (fun _ => none) calls ↔ calls.Pairwise Call.Apart := by
  rw [allCopy_iff_of_cache hvalid mem_empty_iff]
  simp

/-- Lists of one node each, at the addresses from `0` on. -/
def singles (labels : List ℤ) : Memory ℕ where
  cell x := labels[x]?.map fun l => ⟨l, none, none⟩
  dom := Finset.range labels.length
  cell_eq_none x hx := by
    rw [Finset.mem_range, not_lt] at hx
    rw [List.getElem?_eq_none hx, Option.map_none]

def singleCall (labels : List ℤ) (a : ℕ) : Call ℕ :=
  ⟨singles labels, some a, Allocator.above, labels.length + 1⟩

theorem singleCall_nodes {labels : List ℤ} {a : ℕ} (ha : a < labels.length) :
    (singleCall labels a).nodes = {a} := by
  have hlinks : ∀ u n, (singles labels).cell u = some n → listShape.links n = [] := by
    intro u n hn
    obtain ⟨l, -, rfl⟩ := Option.map_eq_some_iff.mp hn
    rfl
  ext u
  constructor
  · rintro ⟨b, hb, hu⟩
    obtain rfl := Option.some_inj.mp hb
    induction hu with
    | refl => rfl
    | tail _ hlink _ =>
      obtain ⟨n, hn, hv⟩ := hlink
      rw [hlinks _ n hn] at hv
      cases hv
  · rintro rfl
    exact ⟨u, rfl, .refl⟩

theorem singleCall_valid {labels : List ℤ} {a : ℕ} (ha : a < labels.length) :
    (singleCall labels a).Valid := by
  refine ⟨fun u hu => ?_, ?_⟩
  · rw [singleCall_nodes ha] at hu
    rw [Set.mem_singleton_iff.mp hu]
    simp [singleCall, singles, ha]
  · simp [singleCall, singles]

/-- Two lists at two addresses. -/
theorem allCopy_apart :
    AllCopy (fun _ => none) [singleCall [1] 0, singleCall [1, 1, 2] 2] := by
  refine (allCopy_iff _ ?_).mpr ?_
  · simp only [List.forall_mem_cons, List.not_mem_nil, false_imp_iff, implies_true, and_true]
    exact ⟨singleCall_valid (by decide), singleCall_valid (by decide)⟩
  · simp [Call.Apart, singleCall_nodes]

/-- The second list has been built where the first one was. -/
theorem not_allCopy_rebuilt :
    (∀ c ∈ [singleCall [1] 0, singleCall [2, 1] 0], c.Valid) ∧
      ¬ AllCopy (fun _ => none) [singleCall [1] 0, singleCall [2, 1] 0] := by
  have hvalid : ∀ c ∈ [singleCall [1] 0, singleCall [2, 1] 0], c.Valid := by
    simp only [List.forall_mem_cons, List.not_mem_nil, false_imp_iff, implies_true, and_true]
    exact ⟨singleCall_valid (by decide), singleCall_valid (by decide)⟩
  refine ⟨hvalid, fun h => ?_⟩
  have hpairs := ((allCopy_iff_of_cache hvalid mem_empty_iff).mp h).2
  simp [Call.Apart, singleCall_nodes] at hpairs

end Sperm.Leetcode.CopyRandomList
