import Mathlib.Data.Finset.Card
import Mathlib.Data.Finset.Insert
import Mathlib.Data.Finset.Lattice.Fold
import Mathlib.Order.Lattice.Nat
import Mathlib.Data.Set.Function
import Mathlib.Logic.Relation
import Mathlib.Tactic.Common

/-!
# Copying linked cells with a cache

A copy of a cell is allocated and entered into a cache before the cells that it points to are
copied, so that the recursion may run over cycles.

* `Heap`, `Allocator`: memory with finitely many cells in use, and fresh cells.
* `Shape`: the pointers in a cell; `reach`: the cells that can be reached.
* `Copied`: an isomorphic copy in fresh cells, with the old cells as they were.
* `Grow`: what a call does to memory and cache. `Grow.trans`, `Grow.write` and **`Grow.close`** are
  the rules for the body of the recursion, where a copy may be incomplete.
* `pending`: the cells that are not in the cache yet, which the recursion has fewer of each time.
* `Ready`: the cells to be copied are as they were.
* **`Grow.copied`**: a call that does not meet an old entry of the cache makes a copy.
-/

namespace Cloning

variable {α ν κ : Type}

/-- Memory, with finitely many cells in use. -/
structure Heap (α ν : Type) where
  cell : α → Option ν
  dom : Finset α
  cell_eq_none : ∀ x, x ∉ dom → cell x = none

/-- An allocator gives cells that are not in use. -/
structure Allocator (α ν : Type) where
  alloc : Heap α ν → α
  fresh : ∀ h : Heap α ν, h.cell (alloc h) = none

/-- The cell behind all that have been in use. -/
def Allocator.above : Allocator ℕ ν where
  alloc h := h.dom.sup id + 1
  fresh h := h.cell_eq_none _ fun hmem => by
    have hle : h.dom.sup id + 1 ≤ h.dom.sup id := Finset.le_sup (f := id) hmem
    omega

/-- The pointers that a cell has, and the cell with other pointers. -/
structure Shape (α ν : Type) where
  links : ν → List α
  rename : (α → α) → ν → ν
  rename_eq_iff : ∀ f g n, rename f n = rename g n ↔ ∀ x ∈ links n, f x = g x

/-- Memory and cache. -/
structure State (α ν κ : Type) where
  heap : Heap α ν
  cache : κ → Option α

section Write

variable [DecidableEq α]

def Heap.write (h : Heap α ν) (x : α) (n : ν) : Heap α ν where
  cell := Function.update h.cell x (some n)
  dom := insert x h.dom
  cell_eq_none := by
    intro y hy
    rw [Finset.mem_insert, not_or] at hy
    rw [Function.update_of_ne hy.1]
    exact h.cell_eq_none y hy.2

@[simp] theorem Heap.write_self (h : Heap α ν) (x : α) (n : ν) : (h.write x n).cell x = some n :=
  Function.update_self _ _ _

theorem Heap.write_of_ne {h : Heap α ν} {x y : α} {n : ν} (hne : y ≠ x) :
    (h.write x n).cell y = h.cell y := Function.update_of_ne hne _ _

theorem Heap.write_ne_none {h : Heap α ν} {x y : α} {n : ν} (hy : h.cell y ≠ none) :
    (h.write x n).cell y ≠ none := by
  by_cases hxy : y = x
  · rw [hxy]
    exact Option.ne_none_iff_exists'.mpr ⟨_, h.write_self x n⟩
  · rwa [write_of_ne hxy]

theorem Heap.of_write_eq_none {h : Heap α ν} {x y : α} {n : ν}
    (hy : (h.write x n).cell y = none) : y ≠ x ∧ h.cell y = none := by
  by_cases hxy : y = x
  · rw [hxy, write_self] at hy
    cases hy
  · rw [write_of_ne hxy] at hy
    exact ⟨hxy, hy⟩

end Write

theorem Heap.mem_dom {h : Heap α ν} {x : α} (hx : h.cell x ≠ none) : x ∈ h.dom := by
  by_contra hmem
  exact hx (h.cell_eq_none x hmem)

variable {sh : Shape α ν}

/-- The cells that can be reached from `a`. -/
def reach (sh : Shape α ν) (h : Heap α ν) (a : α) : Set α :=
  {u | Relation.ReflTransGen (fun u v => ∃ n, h.cell u = some n ∧ v ∈ sh.links n) a u}

theorem reach_link {h : Heap α ν} {a u v : α} {n : ν} (hu : u ∈ reach sh h a)
    (hn : h.cell u = some n) (hv : v ∈ sh.links n) : v ∈ reach sh h a :=
  Relation.ReflTransGen.tail hu ⟨n, hn, hv⟩

/-- The cells of `S` have isomorphic copies in cells that were not in use, one each and no more, and
the cells that were in use are as they were. -/
structure Copied (sh : Shape α ν) (h h' : Heap α ν) (S : Set α) (f : α → α) : Prop where
  injOn : Set.InjOn f S
  fresh : ∀ u ∈ S, h.cell (f u) = none
  cell : ∀ u ∈ S, ∀ n, h.cell u = some n → h'.cell (f u) = some (sh.rename f n)
  only : ∀ x, h.cell x = none → h'.cell x ≠ none → ∃ u ∈ S, f u = x
  frame : ∀ x, h.cell x ≠ none → h'.cell x = h.cell x

/-- The copy of `u` that the cache knows of. -/
def State.image (s : State α ν κ) (key : α → κ) (u : α) : α := (s.cache (key u)).getD u

/-- The state in which a copy has just been allocated in `c` and entered under `k`. -/
def State.enter [DecidableEq α] [DecidableEq κ] (s : State α ν κ) (k : κ) (c : α) (n : ν) :
    State α ν κ :=
  ⟨s.heap.write c n, Function.update s.cache k (some c)⟩

/-- A write to the cell `x`, which has to be in use. -/
def State.modify [DecidableEq α] (s : State α ν κ) (x : α) (f : ν → ν) : Option (State α ν κ) :=
  (s.heap.cell x).map fun n => { s with heap := s.heap.write x (f n) }

theorem State.modify_eq [DecidableEq α] {s : State α ν κ} {x : α} {n : ν}
    (hx : s.heap.cell x = some n) (f : ν → ν) :
    s.modify x f = some { s with heap := s.heap.write x (f n) } := by
  rw [modify, hx, Option.map_some]

section Enter

variable [DecidableEq α] [DecidableEq κ]

theorem State.enter_self (s : State α ν κ) (k : κ) (c : α) (n : ν) :
    (s.enter k c n).cache k = some c := Function.update_self _ _ _

theorem State.enter_of_ne (s : State α ν κ) {k l : κ} (hl : l ≠ k) (c : α) (n : ν) :
    (s.enter k c n).cache l = s.cache l := Function.update_of_ne hl _ _

end Enter

/-- From `s` to `s'` some cells of `S`, whose contents are `src`, have been copied. The cells in use
are as they were, but for those in `C`. -/
structure Grow (sh : Shape α ν) (key : α → κ) (src : α → Option ν) (S C : Set α)
    (s s' : State α ν κ) : Prop where
  cached : ∀ k d, s.cache k = some d → s'.cache k = some d
  alive : ∀ x, s.heap.cell x ≠ none → s'.heap.cell x ≠ none
  frame : ∀ x, s.heap.cell x ≠ none → x ∉ C → s'.heap.cell x = s.heap.cell x
  new : ∀ k d, s.cache k = none → s'.cache k = some d → s.heap.cell d = none ∧
    ∃ u ∈ S, key u = k ∧ ∃ n, src u = some n ∧ (∀ v ∈ sh.links n, s'.cache (key v) ≠ none) ∧
      s'.heap.cell d = some (sh.rename (s'.image key) n)
  inj : ∀ k l d, s.cache k = none → s.cache l = none → s'.cache k = some d →
    s'.cache l = some d → k = l
  alloc : ∀ x, s.heap.cell x = none → s'.heap.cell x ≠ none →
    ∃ k, s.cache k = none ∧ s'.cache k = some x

variable {key : α → κ} {src : α → Option ν} {S C : Set α} {s s' s'' : State α ν κ} {u c : α} {n : ν}

namespace Grow

theorem refl (s : State α ν κ) : Grow sh key src S C s s where
  cached := fun _ _ h => h
  alive := fun _ h => h
  frame := fun _ _ _ => rfl
  new := fun _ _ h h' => by rw [h] at h'; cases h'
  inj := fun _ _ _ h _ h' => by rw [h] at h'; cases h'
  alloc := fun _ h h' => absurd h h'

theorem weaken (h : Grow sh key src S ∅ s s') : Grow sh key src S C s s' where
  cached := h.cached
  alive := h.alive
  frame := fun x hx _ => h.frame x hx (Set.notMem_empty x)
  new := h.new
  inj := h.inj
  alloc := h.alloc

theorem cached_ne_none (h : Grow sh key src S C s s') {k : κ} (hk : s.cache k ≠ none) :
    s'.cache k ≠ none := by
  obtain ⟨d, hd⟩ := Option.ne_none_iff_exists'.mp hk
  exact Option.ne_none_iff_exists'.mpr ⟨_, h.cached k d hd⟩

theorem image_eq (h : Grow sh key src S C s s') (hu : s.cache (key u) ≠ none) :
    s'.image key u = s.image key u := by
  obtain ⟨d, hd⟩ := Option.ne_none_iff_exists'.mp hu
  rw [State.image, State.image, hd, h.cached _ d hd]

/-- **One part after the other.** -/
theorem trans (h : Grow sh key src S C s s') (h' : Grow sh key src S C s' s'')
    (hC : ∀ x ∈ C, s.heap.cell x ≠ none) : Grow sh key src S C s s'' where
  cached := fun k d hk => h'.cached k d (h.cached k d hk)
  alive := fun x hx => h'.alive x (h.alive x hx)
  frame := fun x hx hxC => (h'.frame x (h.alive x hx) hxC).trans (h.frame x hx hxC)
  new := by
    intro k d hk hd
    cases hmid : s'.cache k with
    | none =>
      obtain ⟨hfresh, hrest⟩ := h'.new k d hmid hd
      refine ⟨?_, hrest⟩
      by_contra halive
      exact h.alive d halive hfresh
    | some d' =>
      obtain rfl := Option.some_inj.mp (hd.symm.trans (h'.cached k d' hmid))
      obtain ⟨hfresh, u, hu, hkey, n, hn, hlinks, hcell⟩ := h.new k d hk hmid
      refine ⟨hfresh, u, hu, hkey, n, hn, fun v hv => h'.cached_ne_none (hlinks v hv), ?_⟩
      rw [h'.frame d (Option.ne_none_iff_exists'.mpr ⟨_, hcell⟩) fun hdC => hC d hdC hfresh, hcell]
      refine congrArg some ((sh.rename_eq_iff _ _ n).mpr fun v hv => ?_)
      exact (h'.image_eq (hlinks v hv)).symm
  inj := by
    have hone : ∀ k l d, s.cache k = none → s'.cache k = some d → s'.cache l = none →
        s''.cache l = some d → k = l := by
      intro k l d hk hd hl hd'
      obtain ⟨-, -, -, -, n, -, -, hcell⟩ := h.new k d hk hd
      have hfresh := (h'.new l d hl hd').1
      rw [hcell] at hfresh
      cases hfresh
    intro k l d hk hl hd hd'
    cases hmid : s'.cache k with
    | none =>
      cases hmid' : s'.cache l with
      | none => exact h'.inj k l d hmid hmid' hd hd'
      | some e =>
        obtain rfl := Option.some_inj.mp (hd'.symm.trans (h'.cached l e hmid'))
        exact (hone l k d hl hmid' hmid hd).symm
    | some e =>
      obtain rfl := Option.some_inj.mp (hd.symm.trans (h'.cached k e hmid))
      cases hmid' : s'.cache l with
      | none => exact hone k l d hk hmid hmid' hd'
      | some e =>
        obtain rfl := Option.some_inj.mp (hd'.symm.trans (h'.cached l e hmid'))
        exact h.inj k l d hk hl hmid hmid'
  alloc := by
    intro x hx hx'
    by_cases hmid : s'.heap.cell x = none
    · obtain ⟨k, hk, hd⟩ := h'.alloc x hmid hx'
      refine ⟨k, ?_, hd⟩
      by_contra hne
      exact h.cached_ne_none hne hk
    · obtain ⟨k, hk, hd⟩ := h.alloc x hx hmid
      exact ⟨k, hk, h'.cached k x hd⟩

variable [DecidableEq α]

theorem write (hc : s.heap.cell c ≠ none) (n : ν) :
    Grow sh key src S {c} s { s with heap := s.heap.write c n } where
  cached := fun _ _ h => h
  alive := fun _ hx => Heap.write_ne_none hx
  frame := fun _ _ hx => Heap.write_of_ne hx
  new := fun _ _ h h' => by
    have hd := h.symm.trans h'
    cases hd
  inj := fun _ _ _ h _ h' => by
    have hd := h.symm.trans h'
    cases hd
  alloc := by
    intro x hx hx'
    have hxc : x ≠ c := fun hxc => hc (hxc ▸ hx)
    exact absurd ((Heap.write_of_ne hxc).trans hx) hx'

theorem call_write (h : Grow sh key src S ∅ s s') (hc : s.heap.cell c ≠ none) (n : ν) :
    Grow sh key src S {c} s { s' with heap := s'.heap.write c n } :=
  h.weaken.trans (write (h.alive c hc) n) fun _ hd => by rwa [Set.mem_singleton_iff.mp hd]

/-- **A copy is complete** when everything that its cell points to is in the cache. -/
theorem close [DecidableEq κ] {blank : ν} (hc : s.heap.cell c = none)
    (hk : s.cache (key u) = none) (hu : u ∈ S) (hn : src u = some n)
    (h : Grow sh key src S {c} (s.enter (key u) c blank) s')
    (hlinks : ∀ v ∈ sh.links n, s'.cache (key v) ≠ none)
    (hcell : s'.heap.cell c = some (sh.rename (s'.image key) n)) :
    Grow sh key src S C s s' := by
  have hself := s.enter_self (key u) c blank
  have hother : ∀ {l}, l ≠ key u → (s.enter (key u) c blank).cache l = s.cache l :=
    fun hl => s.enter_of_ne hl c blank
  have hcopy : s'.cache (key u) = some c := h.cached _ _ hself
  have hdead : ∀ {x}, s.heap.cell x ≠ none → x ≠ c := fun hx hxc => hx (hxc ▸ hc)
  -- a cell that is allocated later is not that of the copy
  have hlater : ∀ {l d}, l ≠ key u → s.cache l = none → s'.cache l = some d → d ≠ c := by
    intro l d hl hnone hd
    exact (Heap.of_write_eq_none (h.new l d ((hother hl).trans hnone) hd).1).1
  refine ⟨fun l d hd => ?_, fun x hx => h.alive x (Heap.write_ne_none hx), fun x hx _ => ?_,
    fun l d hl hd => ?_, fun l m d hl hm hd hd' => ?_, fun x hx hx' => ?_⟩
  · have hl : l ≠ key u := fun hl => by rw [hl, hk] at hd; cases hd
    exact h.cached l d ((hother hl).trans hd)
  · rw [h.frame x (Heap.write_ne_none hx) (hdead hx)]
    exact Heap.write_of_ne (hdead hx)
  · by_cases hlu : l = key u
    · subst hlu
      obtain rfl := Option.some_inj.mp (hd.symm.trans hcopy)
      exact ⟨hc, u, hu, rfl, n, hn, hlinks, hcell⟩
    · obtain ⟨hfresh, hrest⟩ := h.new l d ((hother hlu).trans hl) hd
      exact ⟨(Heap.of_write_eq_none hfresh).2, hrest⟩
  · by_cases hlu : l = key u
    · by_cases hmu : m = key u
      · rw [hlu, hmu]
      · subst hlu
        exact absurd (Option.some_inj.mp (hd.symm.trans hcopy)) (hlater hmu hm hd')
    · by_cases hmu : m = key u
      · subst hmu
        exact absurd (Option.some_inj.mp (hd'.symm.trans hcopy)) (hlater hlu hl hd)
      · exact h.inj l m d ((hother hlu).trans hl) ((hother hmu).trans hm) hd hd'
  · by_cases hxc : x = c
    · exact ⟨key u, hk, by rw [hcopy, hxc]⟩
    · obtain ⟨l, hl, hd⟩ := h.alloc x ((Heap.write_of_ne hxc).trans hx) hx'
      have hlu : l ≠ key u := fun hlu => by rw [hlu, hself] at hl; cases hl
      exact ⟨l, (hother hlu).symm.trans hl, hd⟩

end Grow

/-! ## Fuel -/

/-- The number of the cells in `D` that are not in the cache. -/
def pending (key : α → κ) (D : Finset α) (s : State α ν κ) : ℕ :=
  (D.filter fun u => (s.cache (key u)).isNone).card

theorem Grow.pending_le {D : Finset α} (h : Grow sh key src S C s s') :
    pending key D s' ≤ pending key D s := by
  refine Finset.card_le_card fun u hu => ?_
  obtain ⟨hD, hu⟩ := Finset.mem_filter.mp hu
  refine Finset.mem_filter.mpr ⟨hD, ?_⟩
  rw [Option.isNone_iff_eq_none] at hu ⊢
  by_contra hne
  exact h.cached_ne_none hne hu

theorem pending_enter_lt [DecidableEq α] [DecidableEq κ] {D : Finset α} (hu : u ∈ D)
    (hk : s.cache (key u) = none) (c : α) (n : ν) :
    pending key D (s.enter (key u) c n) < pending key D s := by
  refine Finset.card_lt_card (Finset.ssubset_iff_of_subset ?_ |>.mpr ⟨u, ?_, ?_⟩)
  · intro v hv
    obtain ⟨hD, hv⟩ := Finset.mem_filter.mp hv
    refine Finset.mem_filter.mpr ⟨hD, ?_⟩
    by_cases hvu : key v = key u
    · rw [hvu, hk]
      rfl
    · rwa [s.enter_of_ne hvu] at hv
  · exact Finset.mem_filter.mpr ⟨hu, by rw [hk]; rfl⟩
  · intro hmem
    have hnone := (Finset.mem_filter.mp hmem).2
    rw [s.enter_self] at hnone
    cases hnone

theorem pending_le (key : α → κ) (D : Finset α) (s : State α ν κ) : pending key D s ≤ D.card :=
  Finset.card_filter_le _ _

/-! ## The cells to be copied -/

/-- The cells of `S` are in `D` and hold what `src` says. Those that are not in the cache point to
cells of `S` only. -/
structure Ready (sh : Shape α ν) (key : α → κ) (src : α → Option ν) (S : Set α) (D : Finset α)
    (s : State α ν κ) : Prop where
  node : ∀ u ∈ S, ∃ n, src u = some n ∧ (s.cache (key u) = none → ∀ v ∈ sh.links n, v ∈ S)
  cell : ∀ u ∈ S, s.heap.cell u = src u
  mem : ∀ u ∈ S, u ∈ D

section Ready

variable {D : Finset α} (h : Ready sh key src S D s)

include h

theorem Ready.notMem (hc : s.heap.cell c = none) : c ∉ S := by
  intro hmem
  obtain ⟨n, hn, -⟩ := h.node c hmem
  rw [h.cell c hmem, hn] at hc
  cases hc

theorem Ready.grow (hgrow : Grow sh key src S C s s') (hC : ∀ u ∈ C, u ∉ S) :
    Ready sh key src S D s' := by
  refine ⟨fun u hu => ?_, fun u hu => ?_, h.mem⟩
  · obtain ⟨n, hn, hlinks⟩ := h.node u hu
    refine ⟨n, hn, fun hnone => hlinks ?_⟩
    by_contra hne
    exact hgrow.cached_ne_none hne hnone
  · obtain ⟨n, hn, -⟩ := h.node u hu
    have halive : s.heap.cell u ≠ none := Option.ne_none_iff_exists'.mpr ⟨n, (h.cell u hu).trans hn⟩
    rw [hgrow.frame u halive fun huC => hC u huC hu, h.cell u hu]

theorem Ready.enter [DecidableEq α] [DecidableEq κ] (hc : c ∉ S) (k : κ) (n : ν) :
    Ready sh key src S D (s.enter k c n) := by
  refine ⟨fun v hv => ?_, fun v hv => ?_, h.mem⟩
  · obtain ⟨m, hm, hlinks⟩ := h.node v hv
    refine ⟨m, hm, fun hnone => hlinks ?_⟩
    have hvk : key v ≠ k := fun hvk => by
      rw [hvk, s.enter_self] at hnone
      cases hnone
    rwa [s.enter_of_ne hvk] at hnone
  · have hvc : v ≠ c := fun hvc => hc (hvc ▸ hv)
    exact (Heap.write_of_ne hvc).trans (h.cell v hv)

end Ready

/-! ## The copy -/

section Copy

variable {a : α} (h : Grow sh key src S C s s')

include h

theorem Grow.cell_image (hkey : Set.InjOn key S) (hu : u ∈ S) (hn : src u = some n)
    (hk : s.cache (key u) = none) (hk' : s'.cache (key u) ≠ none) :
    s.heap.cell (s'.image key u) = none ∧ (∀ v ∈ sh.links n, s'.cache (key v) ≠ none) ∧
      s'.heap.cell (s'.image key u) = some (sh.rename (s'.image key) n) := by
  obtain ⟨d, hd⟩ := Option.ne_none_iff_exists'.mp hk'
  obtain ⟨hfresh, u', hu', hkey', n', hn', hlinks, hcell⟩ := h.new _ d hk hd
  obtain rfl := hkey hu' hu hkey'
  obtain rfl := Option.some_inj.mp (hn'.symm.trans hn)
  have himage : s'.image key u' = d := by rw [State.image, hd, Option.getD_some]
  rw [himage]
  exact ⟨hfresh, hlinks, hcell⟩

end Copy

/-- **A copy** of all cells of `S`, if none of them was in the cache and all of them are now. -/
theorem Grow.copied (h : Grow sh key src S ∅ s s') (hkey : Set.InjOn key S)
    (hsrc : ∀ u ∈ S, ∃ n, s.heap.cell u = some n ∧ src u = some n)
    (hnew : ∀ u ∈ S, s.cache (key u) = none) (hall : ∀ u ∈ S, s'.cache (key u) ≠ none) :
    Copied sh s.heap s'.heap S (s'.image key) := by
  have hcell : ∀ {u n}, u ∈ S → s.heap.cell u = some n →
      s.heap.cell (s'.image key u) = none ∧
        s'.heap.cell (s'.image key u) = some (sh.rename (s'.image key) n) := by
    intro u n hu hn
    obtain ⟨n', hn', hn''⟩ := hsrc u hu
    obtain rfl := Option.some_inj.mp (hn.symm.trans hn')
    obtain ⟨hfresh, -, himage⟩ := h.cell_image hkey hu hn'' (hnew u hu) (hall u hu)
    exact ⟨hfresh, himage⟩
  have himage : ∀ {u}, u ∈ S → s'.cache (key u) = some (s'.image key u) := by
    intro u hu
    obtain ⟨d, hd⟩ := Option.ne_none_iff_exists'.mp (hall u hu)
    rw [State.image, hd, Option.getD_some]
  refine ⟨fun u hu v hv huv => ?_, fun u hu => ?_, fun u hu n hn => (hcell hu hn).2,
    fun x hx hx' => ?_, fun x hx => h.frame x hx (Set.notMem_empty x)⟩
  · refine hkey hu hv (h.inj _ _ _ (hnew u hu) (hnew v hv) (himage hu) ?_)
    rw [himage hv]
    exact congrArg some huv.symm
  · obtain ⟨n, hn, -⟩ := hsrc u hu
    exact (hcell hu hn).1
  · obtain ⟨k, hk, hd⟩ := h.alloc x hx hx'
    obtain ⟨-, u, hu, rfl, -⟩ := h.new k x hk hd
    exact ⟨u, hu, Option.some_inj.mp ((himage hu).symm.trans hd)⟩

end Cloning
