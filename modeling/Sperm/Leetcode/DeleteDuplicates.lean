import Mathlib.Algebra.Order.Ring.Int
import Mathlib.Data.Int.Notation
import Sperm.Lib.Chain

/-!
# Values that occur once (`remove-duplicates-from-sorted-list-2.cc`)

A node is compared with the one behind it only, and `dup` says whether it is equal to the one before
it. A node that is kept is cut off from those behind it.

* `deleteDuplicates` with `setNext`, `keep` and `loop`: the model, where `none` stands for a loop
  with more than `fuel` passes.
* `single_iff`: in order, a value that occurs once is one that its neighbours do not have.
* `Inv`: the nodes that are kept and those that are left; **`keep_spec`**, `loop_spec`.
* **`deleteDuplicates_spec`**: a list of the nodes whose value occurs once.
-/

namespace Sperm.Leetcode.DeleteDuplicates

open Chain

variable {α : Type}

/-- The variables of the loop, and the links in memory. -/
structure State (α : Type) where
  next : α → Option α
  head : α
  xhead : Option α
  xprev : Option α
  dup : Bool

section
variable [DecidableEq α] (val : α → ℤ)

/-- `x->next = p`, if `x` is not `NULL`. -/
def setNext (next : α → Option α) (x p : Option α) : α → Option α :=
  match x with
  | none => next
  | some x => Function.update next x p

/-- The block of `if(!dup)`. -/
def keep (st : State α) : State α :=
  if st.dup then st
  else
    let xhead := if st.xhead = none then some st.head else st.xhead
    let next := setNext st.next st.xprev (some st.head)
    let next := setNext next (some st.head) none
    { st with next := next, xhead := xhead, xprev := some st.head }

/-- The loop. -/
def loop : ℕ → State α → Option (State α)
  | 0, _ => none
  | fuel + 1, st =>
    match st.next st.head with
    | none => some st
    | some next =>
      if val st.head = val next then loop fuel { st with head := next, dup := true }
      else loop fuel { keep st with head := next, dup := false }

/-- `deleteDuplicates(head)`, with the links after it. -/
def deleteDuplicates (fuel : ℕ) (next : α → Option α) :
    Option α → Option (Option α × (α → Option α))
  | none => some (none, next)
  | some head => do
    let st ← loop val fuel ⟨next, head, none, none, false⟩
    let st := keep st
    some (st.xhead, st.next)

end

variable {val : α → ℤ} {next : α → Option α} {nodes pre rest kept : List α} {x y : α} {fuel : ℕ}
  {st : State α}

/-! ## Values that occur once -/

/-- The value of `x` occurs once. -/
def single (val : α → ℤ) (nodes : List α) (x : α) : Bool := (nodes.map val).count (val x) = 1

/-- In order, a value before `x` is that of `x` only if the last one is. -/
theorem notMem_map_iff_last (h : (pre ++ [x]).Pairwise fun x y => val x ≤ val y) :
    val x ∉ pre.map val ↔ ∀ y, pre.getLast? = some y → val y ≠ val x := by
  constructor
  · intro hx y hy heq
    exact hx (List.mem_map.mpr ⟨y, List.mem_of_getLast? hy, heq⟩)
  · intro hlast hx
    obtain ⟨z, hz, hzx⟩ := List.mem_map.mp hx
    rcases List.eq_nil_or_concat pre with rfl | ⟨us, y, rfl⟩
    · cases hz
    · rw [List.concat_eq_append] at h hz hlast
      have hyx : val y ≤ val x := (List.pairwise_append.mp h).2.2 y (by simp) x (by simp)
      have hzy : val z ≤ val y := by
        rcases List.mem_append.mp hz with hz | hz
        · have hus := (List.pairwise_append.mp h).1
          exact (List.pairwise_append.mp hus).2.2 z hz y (List.mem_singleton_self y)
        · exact (congrArg val (List.mem_singleton.mp hz)).le
      exact hlast y List.getLast?_concat (by omega)

theorem notMem_map_iff_head (h : (x :: rest).Pairwise fun x y => val x ≤ val y) :
    val x ∉ rest.map val ↔ ∀ y, rest.head? = some y → val y ≠ val x := by
  constructor
  · intro hx y hy heq
    exact hx (List.mem_map.mpr ⟨y, List.mem_of_head? hy, heq⟩)
  · intro hhead hx
    obtain ⟨z, hz, hzx⟩ := List.mem_map.mp hx
    cases rest with
    | nil => cases hz
    | cons y us =>
      obtain ⟨hx, hrest⟩ := List.pairwise_cons.mp h
      have hxy : val x ≤ val y := hx y List.mem_cons_self
      have hyz : val y ≤ val z := by
        rcases List.mem_cons.mp hz with rfl | hz
        · exact le_rfl
        · exact (List.pairwise_cons.mp hrest).1 z hz
      exact hhead y rfl (by omega)

/-- **A value that occurs once**, by its neighbours. -/
theorem single_iff (h : (pre ++ x :: rest).Pairwise fun x y => val x ≤ val y) :
    single val (pre ++ x :: rest) x = true ↔
      (∀ y, pre.getLast? = some y → val y ≠ val x) ∧
        ∀ y, rest.head? = some y → val y ≠ val x := by
  have hsplit : pre ++ x :: rest = (pre ++ [x]) ++ rest := by simp
  have hpre : (pre ++ [x]).Pairwise fun x y => val x ≤ val y := by
    rw [hsplit] at h
    exact (List.pairwise_append.mp h).1
  have hrest := (List.pairwise_append.mp h).2.1
  rw [← notMem_map_iff_last hpre, ← notMem_map_iff_head hrest, ← List.count_eq_zero,
    ← List.count_eq_zero, single, decide_eq_true_iff, List.map_append, List.map_cons,
    List.count_append, List.count_cons_self]
  omega

/-! ## The loop -/

/-- The nodes before `head` are `pre`, those behind it are `rest`, and the ones that are kept are
linked from `xhead` to `xprev`. -/
structure Inv (val : α → ℤ) (nodes pre rest : List α) (st : State α) : Prop where
  nodes_eq : nodes = pre ++ st.head :: rest
  left : Seg st.next (some st.head) (st.head :: rest) none
  kept : Seg st.next st.xhead (pre.filter (single val nodes)) none
  last : st.xprev = (pre.filter (single val nodes)).getLast?
  dup : st.dup = true ↔ ∃ y, pre.getLast? = some y ∧ val y = val st.head

/-- A node is kept if it is equal neither to the one before it nor to the one behind it. -/
theorem Inv.single_iff (hsorted : nodes.Pairwise fun x y => val x ≤ val y)
    (h : Inv val nodes pre rest st) : single val nodes st.head = true ↔
      st.dup = false ∧ ∀ y, rest.head? = some y → val y ≠ val st.head := by
  have hsingle := DeleteDuplicates.single_iff (h.nodes_eq ▸ hsorted)
  rw [← h.nodes_eq] at hsingle
  rw [hsingle, ← Bool.not_eq_true, h.dup, not_exists]
  exact and_congr_left' (forall_congr' fun y => not_and.symm)

theorem Inv.single_eq (hsorted : nodes.Pairwise fun x y => val x ≤ val y)
    (h : Inv val nodes pre rest st) (hne : ∀ y, rest.head? = some y → val y ≠ val st.head) :
    single val nodes st.head = !st.dup := by
  rw [Bool.eq_iff_iff, h.single_iff hsorted, Bool.not_eq_true']
  exact and_iff_left hne

/-- **A pass** where the node behind is equal. -/
theorem Inv.equal (hsorted : nodes.Pairwise fun x y => val x ≤ val y)
    (h : Inv val nodes pre (x :: rest) st) (hval : val st.head = val x) :
    Inv val nodes (pre ++ [st.head]) rest { st with head := x, dup := true } := by
  have hmany : single val nodes st.head = false := by
    rw [Bool.eq_false_iff, Ne, h.single_iff hsorted]
    exact fun hne => hne.2 x rfl hval.symm
  have hfilter : (pre ++ [st.head]).filter (single val nodes) = pre.filter (single val nodes) := by
    rw [List.filter_append, List.filter_singleton, hmany, cond_false, List.append_nil]
  refine ⟨by rw [h.nodes_eq]; simp, ⟨rfl, h.left.2.2⟩, ?_, ?_, ?_⟩
  · rw [hfilter]
    exact h.kept
  · rw [hfilter]
    exact h.last
  · exact iff_of_true rfl ⟨st.head, List.getLast?_concat, hval⟩

variable [DecidableEq α]

theorem keep_extends (hdup : st.dup = false) (hkept : Seg st.next st.xhead kept none)
    (hlast : st.xprev = kept.getLast?) (hfresh : st.head ∉ kept) :
    Seg (keep st).next (keep st).xhead (kept ++ [st.head]) none ∧
      ∀ y, y ∉ kept → y ≠ st.head → (keep st).next y = st.next y := by
  rw [keep, if_neg (by simp [hdup]), hlast]
  rcases List.eq_nil_or_concat kept with rfl | ⟨us, z, hconcat⟩
  · have hhead : st.xhead = none := hkept
    rw [hhead]
    exact ⟨⟨rfl, Function.update_self _ _ _⟩, fun y _ hy => Function.update_of_ne hy _ _⟩
  · have hz : kept.getLast? = some z := by
      rw [hconcat, List.concat_eq_append, List.getLast?_concat]
    have hhead : st.xhead ≠ none := by
      rw [hkept.head?_eq, Ne, List.head?_eq_none_iff, hconcat]
      simp
    rw [hz, if_neg hhead]
    refine ⟨hkept.extend hkept.nodup hfresh hz, fun y hy hyhead => ?_⟩
    have hyz : y ≠ z := fun heq => hy (heq ▸ List.mem_of_getLast? hz)
    exact (Function.update_of_ne hyhead _ _).trans (Function.update_of_ne hyz _ _)

/-- **The block** keeps a node whose value occurs once, and writes to no node that is left. -/
theorem keep_spec (hnodup : nodes.Nodup) (h : Inv val nodes pre rest st)
    (hsingle : single val nodes st.head = !st.dup) :
    Seg (keep st).next (keep st).xhead ((pre ++ [st.head]).filter (single val nodes)) none ∧
      (keep st).xprev = ((pre ++ [st.head]).filter (single val nodes)).getLast? ∧
        ∀ y ∈ rest, (keep st).next y = st.next y := by
  rw [List.filter_append, List.filter_singleton, hsingle]
  cases hdup : st.dup with
  | true =>
    rw [keep, if_pos hdup, Bool.not_true, cond_false, List.append_nil]
    exact ⟨h.kept, h.last, fun y _ => rfl⟩
  | false =>
    have hsub : ∀ y ∈ pre.filter (single val nodes), y ∈ pre :=
      fun y hy => List.mem_of_mem_filter hy
    rw [h.nodes_eq] at hnodup
    obtain ⟨-, hrest, hapart⟩ := List.nodup_append.mp hnodup
    obtain ⟨hseg, hframe⟩ := keep_extends hdup h.kept h.last fun hmem =>
      hapart _ (hsub _ hmem) _ List.mem_cons_self rfl
    rw [Bool.not_false, cond_true]
    refine ⟨hseg, ?_, fun y hy => hframe y (fun hmem => ?_) fun heq => ?_⟩
    · rw [List.getLast?_concat, keep, if_neg (by simp [hdup])]
    · exact hapart _ (hsub _ hmem) _ (List.mem_cons_of_mem _ hy) rfl
    · exact (List.nodup_cons.mp hrest).1 (heq ▸ hy)

/-- **A pass** where it is not. -/
theorem Inv.differ (hsorted : nodes.Pairwise fun x y => val x ≤ val y) (hnodup : nodes.Nodup)
    (h : Inv val nodes pre (x :: rest) st) (hval : val st.head ≠ val x) :
    Inv val nodes (pre ++ [st.head]) rest { keep st with head := x, dup := false } := by
  have hsingle := h.single_eq hsorted fun y hy => by
    rw [← Option.some_inj.mp hy]
    exact hval.symm
  obtain ⟨hkept, hlast, hframe⟩ := keep_spec hnodup h hsingle
  refine ⟨by rw [h.nodes_eq]; simp, ?_, hkept, hlast, ?_⟩
  · exact (seg_congr hframe).mpr ⟨rfl, h.left.2.2⟩
  · refine iff_of_false Bool.false_ne_true ?_
    rintro ⟨y, hy, heq⟩
    rw [List.getLast?_concat, Option.some_inj] at hy
    exact hval (hy ▸ heq)

/-- **The loop** gets to the last node. -/
theorem loop_spec (hsorted : nodes.Pairwise fun x y => val x ≤ val y) (hnodup : nodes.Nodup)
    (h : Inv val nodes pre rest st) (hfuel : rest.length < fuel) :
    ∃ st' pre', loop val fuel st = some st' ∧ Inv val nodes pre' [] st' := by
  induction fuel generalizing pre rest st with
  | zero => omega
  | succ fuel ih =>
    rw [loop]
    cases rest with
    | nil =>
      have hend : st.next st.head = none := h.left.2
      rw [hend]
      exact ⟨st, pre, rfl, h⟩
    | cons x rest =>
      have hnext : st.next st.head = some x := h.left.2.1
      have hless : rest.length < fuel := Nat.lt_of_succ_lt_succ hfuel
      rw [hnext]
      dsimp only
      split_ifs with hval
      · exact ih (h.equal hsorted hval) hless
      · exact ih (h.differ hsorted hnodup hval) hless

/-- **The list** of the nodes whose value occurs once. -/
theorem deleteDuplicates_spec (val : α → ℤ) (next : α → Option α) (head : Option α)
    (nodes : List α) (h : Seg next head nodes none)
    (hsorted : nodes.Pairwise fun x y => val x ≤ val y) :
    ∀ fuel, nodes.length ≤ fuel → ∃ res next',
      deleteDuplicates val fuel next head = some (res, next') ∧
        Seg next' res (nodes.filter fun x => (nodes.map val).count (val x) = 1) none := by
  intro fuel hfuel
  cases nodes with
  | nil =>
    obtain rfl : head = none := h
    exact ⟨none, next, rfl, rfl⟩
  | cons x rest =>
    obtain ⟨rfl, hrest⟩ := h
    have hseg : Seg next (some x) (x :: rest) none := ⟨rfl, hrest⟩
    have hinv : Inv val (x :: rest) [] rest ⟨next, x, none, none, false⟩ :=
      ⟨rfl, hseg, rfl, rfl, iff_of_false Bool.false_ne_true (by simp)⟩
    obtain ⟨st, pre, hloop, hend⟩ := loop_spec hsorted hseg.nodup hinv hfuel
    have hsingle := hend.single_eq hsorted fun y hy => by cases hy
    obtain ⟨hkept, -, -⟩ := keep_spec hseg.nodup hend hsingle
    rw [← hend.nodes_eq] at hkept
    refine ⟨(keep st).xhead, (keep st).next, ?_, hkept⟩
    rw [deleteDuplicates, hloop]
    rfl

/-- Nodes `0`, `1` and `2` with the values `0`, `0` and `1`. -/
theorem deleteDuplicates_three :
    Seg (fun x : ℕ => if x < 2 then some (x + 1) else none) (some 0) [0, 1, 2] none ∧
      ([0, 1, 2].Pairwise fun x y : ℕ => ((x / 2 : ℕ) : ℤ) ≤ ((y / 2 : ℕ) : ℤ)) ∧
      ∃ res next', deleteDuplicates (fun x : ℕ => ((x / 2 : ℕ) : ℤ)) 3
          (fun x => if x < 2 then some (x + 1) else none) (some 0) = some (res, next') ∧
        Seg next' res ([0, 1, 2].filter fun x : ℕ =>
          ([0, 1, 2].map fun x : ℕ => ((x / 2 : ℕ) : ℤ)).count ((x / 2 : ℕ) : ℤ) = 1) none := by
  have hseg : Seg (fun x : ℕ => if x < 2 then some (x + 1) else none) (some 0) [0, 1, 2] none := by
    simp
  refine ⟨hseg, by decide, ?_⟩
  exact deleteDuplicates_spec (fun x : ℕ => ((x / 2 : ℕ) : ℤ)) _ _ _ hseg (by decide) 3 le_rfl

end Sperm.Leetcode.DeleteDuplicates
