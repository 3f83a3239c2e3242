import Mathlib.Data.Multiset.Bind
import Sperm.Lib.Chain
import Sperm.Lib.PriorityQueue

/-!
# Merging lists (`merge-k-sorted-lists.cc`)

A queue has the first node of what is left of each list. The one with the smallest value is linked
behind the last node of the result, and the node behind it is put into the queue.

* `Elem`, `mergeKLists` with `enqueue`, `body` and `loop`: the model, where `none` stands for a loop
  with more than `fuel` passes.
* `Built`: the result so far; `Inv`, with what is left of the lists.
* **`body_spec`**, `loop_spec`: one pass, and all of them.
* **`mergeKLists_spec`**: a list of all nodes, in order.
-/

namespace Sperm.Leetcode.MergeKLists

open Chain

/-- `Elem`. -/
structure Elem (α : Type) where
  v : ℤ
  p : α

variable {α : Type}

/-- `operator<`. -/
def Elem.less (e x : Elem α) : Prop := x.v < e.v

section
variable (Q : PriorityQueue (Elem α) Elem.less) (val : α → ℤ)

/-- The variables of the loop: the queue, the links in memory, `prev` and `head`. -/
structure State where
  q : Q.Q
  next : α → Option α
  prev : Option α
  head : Option α

/-- A node is put into the queue, if there is one. -/
def enqueue (q : Q.Q) : Option α → Q.Q
  | none => q
  | some x => Q.push ⟨val x, x⟩ q

variable [DecidableEq α]

/-- `prev->next = p`, if there is a `prev`. -/
def link (next : α → Option α) (p : Option α) : Option α → (α → Option α)
  | none => next
  | some prev => Function.update next prev p

/-- The body of the loop. -/
def body (st : State Q) : Option (State Q) := do
  let e ← Q.top st.q
  let n := e.p
  let q := Q.pop st.q
  let head := if st.prev = none then some n else st.head
  let next := link st.next (some n) st.prev
  some ⟨enqueue Q val q (next n), next, some n, head⟩

/-- The loop. -/
def loop : ℕ → State Q → Option (State Q)
  | 0, _ => none
  | fuel + 1, st =>
    if Q.isEmpty st.q then some st
    else do
      let st ← body Q val st
      loop fuel st

/-- `mergeKLists(lists)`, with the links after it. -/
def mergeKLists (fuel : ℕ) (next : α → Option α) (lists : List (Option α)) :
    Option (Option α × (α → Option α)) := do
  let st ← loop Q val fuel ⟨lists.foldl (enqueue Q val) Q.new, next, none, none⟩
  some (st.head, link st.next none st.prev)

end

variable {Q : PriorityQueue (Elem α) Elem.less} {val : α → ℤ} {next : α → Option α}
  {p prev head : Option α} {l done : List α} {r : α × List α} {n x : α} {fuel : ℕ}

/-! ## What is left of the lists -/

/-- What is in the queue for a node with others behind it. -/
def elem (val : α → ℤ) (r : α × List α) : Elem α := ⟨val r.1, r.1⟩

/-- A list that is not empty. -/
def rest : List α → Multiset (α × List α)
  | [] => 0
  | x :: l => {(x, l)}

theorem mem_rest : r ∈ rest l ↔ l = r.1 :: r.2 := by
  cases l with
  | nil => exact iff_of_false (Multiset.notMem_zero r) (List.cons_ne_nil _ _).symm
  | cons x l =>
    rw [rest, Multiset.mem_singleton, List.cons.injEq, Prod.ext_iff]
    exact and_congr eq_comm eq_comm

/-- The nodes of what is left. -/
def nodes (rests : Multiset (α × List α)) : Multiset α :=
  rests.bind fun r => ((r.1 :: r.2 : List α) : Multiset α)

theorem nodes_rest (l : List α) : nodes (rest l) = l := by
  cases l with
  | nil => rfl
  | cons x l => exact Multiset.singleton_bind _ _

theorem nodes_add (rests rests' : Multiset (α × List α)) :
    nodes (rests + rests') = nodes rests + nodes rests' := Multiset.add_bind _ _ _

theorem nodes_cons (n : α) (l : List α) (rests : Multiset (α × List α)) :
    nodes ((n, l) ::ₘ rests) = n ::ₘ nodes (rest l + rests) := by
  rw [nodes_add, nodes_rest, nodes, Multiset.cons_bind, ← Multiset.cons_coe, Multiset.cons_add]
  rfl

theorem items_enqueue (h : Seg next p l none) (q : Q.Q) :
    Q.items (enqueue Q val q p) = (rest l).map (elem val) + Q.items q := by
  cases l with
  | nil =>
    obtain rfl : p = none := h
    exact (zero_add _).symm
  | cons x l =>
    obtain ⟨rfl, -⟩ := h
    rw [enqueue, Q.items_push]
    rfl

theorem items_foldl {lists : List (Option α)} {cells : List (List α)}
    (h : List.Forall₂ (fun p l => Seg next p l none) lists cells) (q : Q.Q) :
    Q.items (lists.foldl (enqueue Q val) q) =
      (cells.map rest).sum.map (elem val) + Q.items q := by
  induction h generalizing q with
  | nil => exact (zero_add _).symm
  | cons hp _ ih =>
    rw [List.foldl_cons, ih, items_enqueue hp, List.map_cons, List.sum_cons, Multiset.map_add,
      add_left_comm, add_assoc]

theorem mem_sum_rest {cells : List (List α)} :
    r ∈ (cells.map rest).sum ↔ r.1 :: r.2 ∈ cells := by
  induction cells with
  | nil => simp
  | cons l cells ih =>
    rw [List.map_cons, List.sum_cons, Multiset.mem_add, mem_rest, ih, List.mem_cons, eq_comm]

theorem nodes_sum_rest (cells : List (List α)) : nodes (cells.map rest).sum = cells.flatten := by
  induction cells with
  | nil => rfl
  | cons l cells ih =>
    rw [List.map_cons, List.sum_cons, nodes_add, nodes_rest, ih, List.flatten_cons,
      Multiset.coe_add]

theorem seg_of_mem {lists : List (Option α)} {cells : List (List α)}
    (h : List.Forall₂ (fun p l => Seg next p l none) lists cells) (hl : l ∈ cells) :
    Seg next l.head? l none := by
  induction h with
  | nil => cases hl
  | cons hp _ ih =>
    rcases List.mem_cons.mp hl with rfl | hl
    · rwa [← hp.head?_eq]
    · exact ih hl

/-! ## The result so far -/

/-- The links from `head` lead through `done`, and `prev` is the last one. -/
def Built (next : α → Option α) (prev head : Option α) (done : List α) : Prop :=
  prev = done.getLast? ∧ Seg next head done.dropLast prev

theorem built_nil : Built next none none [] := ⟨rfl, rfl⟩

/-- The nodes in `all` are those of the result so far, in order, and those of what is left. -/
structure Inv (val : α → ℤ) (all : Multiset α) (st : State Q) (done : List α)
    (rests : Multiset (α × List α)) : Prop where
  items : Q.items st.q = rests.map (elem val)
  chains : ∀ r ∈ rests, Seg st.next (some r.1) (r.1 :: r.2) none
  sorted : ∀ r ∈ rests, (r.1 :: r.2).Pairwise fun x y => val x ≤ val y
  cells : (done : Multiset α) + nodes rests = all
  built : Built st.next st.prev st.head done
  order : done.Pairwise fun x y => val x ≤ val y
  below : ∀ x ∈ done, ∀ y ∈ nodes rests, val x ≤ val y

variable {all : Multiset α} {st : State Q} {rests : Multiset (α × List α)}

theorem mem_nodes : x ∈ nodes rests ↔ ∃ r ∈ rests, x ∈ r.1 :: r.2 := Multiset.mem_bind

theorem Inv.nodup (h : Inv val all st done rests) (hall : all.Nodup) : done.Nodup := by
  rw [← h.cells] at hall
  exact (Multiset.nodup_add.mp hall).1

/-- The item on top has the smallest value that is left. -/
theorem Inv.le_of_top (h : Inv val all st done rests) (htop : Q.top st.q = some (elem val r))
    (hx : x ∈ nodes rests) : val r.1 ≤ val x := by
  obtain ⟨r', hr', hx⟩ := mem_nodes.mp hx
  have hmem : elem val r' ∈ Q.items st.q := by
    rw [h.items]
    exact Multiset.mem_map_of_mem _ hr'
  have hfirst : val r.1 ≤ val r'.1 := not_lt.mp (Q.top_max _ _ htop _ hmem)
  rcases List.mem_cons.mp hx with rfl | hx
  · exact hfirst
  · exact hfirst.trans ((List.pairwise_cons.mp (h.sorted r' hr')).1 x hx)

theorem Inv.exists_top (h : Inv val all st done rests) (hne : rests ≠ 0) :
    ∃ r rests', rests = r ::ₘ rests' ∧ Q.top st.q = some (elem val r) ∧
      Q.items (Q.pop st.q) = rests'.map (elem val) := by
  have hitems : Q.items st.q ≠ 0 := by
    rw [h.items]
    exact mt Multiset.map_eq_zero.mp hne
  obtain ⟨e, htop, hpop⟩ := Q.items_pop _ hitems
  have hmem : e ∈ rests.map (elem val) := by
    rw [← h.items, hpop]
    exact Multiset.mem_cons_self _ _
  obtain ⟨r, hr, rfl⟩ := Multiset.mem_map.mp hmem
  obtain ⟨rests', rfl⟩ := Multiset.exists_cons_of_mem hr
  rw [h.items, Multiset.map_cons, Multiset.cons_inj_right] at hpop
  exact ⟨r, rests', rfl, htop, hpop.symm⟩

/-! ## The loop -/

variable [DecidableEq α]

theorem link_of_ne (h : ∀ y, prev = some y → y ≠ x) : link next p prev x = next x := by
  cases prev with
  | none => rfl
  | some y => exact Function.update_of_ne (h y rfl).symm _ _

theorem Built.seg (h : Built next prev head done) (hnodup : done.Nodup)
    (hp : done = [] → head = p) : Seg (link next p prev) head done p := by
  obtain ⟨rfl, hseg⟩ := h
  rcases List.eq_nil_or_concat done with rfl | ⟨ds, d, rfl⟩
  · exact hp rfl
  · rw [List.concat_eq_append] at hnodup hseg ⊢
    rw [List.getLast?_concat, List.dropLast_concat] at hseg
    have hchain : Seg next head (ds ++ [d]) (next d) := seg_snoc.mpr ⟨hseg, rfl⟩
    rw [List.getLast?_concat]
    exact hchain.redirect hnodup List.getLast?_concat

theorem Built.snoc (h : Built next prev head done) (hnodup : done.Nodup) (n : α) :
    Built (link next (some n) prev) (some n) (if prev = none then some n else head)
      (done ++ [n]) := by
  refine ⟨List.getLast?_concat.symm, ?_⟩
  rw [List.dropLast_concat]
  by_cases hdone : done = []
  · subst hdone
    obtain rfl : prev = none := h.1
    rw [if_pos rfl]
    rfl
  · have hprev : prev ≠ none := by
      rw [h.1, Ne, List.getLast?_eq_none_iff]
      exact hdone
    rw [if_neg hprev]
    exact h.seg hnodup fun hnil => absurd hnil hdone

/-- **The frame**: the last link is not one of what is left. -/
theorem Inv.link_eq (h : Inv val all st done rests) (hall : all.Nodup) (hx : x ∈ nodes rests) :
    link st.next p st.prev x = st.next x := by
  refine link_of_ne fun y hy => ?_
  rintro rfl
  rw [← h.cells] at hall
  have hdone : y ∈ done := List.mem_of_getLast? (h.built.1 ▸ hy)
  exact Multiset.disjoint_left.mp (Multiset.nodup_add.mp hall).2.2 hdone hx

/-- **One pass** of the loop. -/
theorem body_spec (hall : all.Nodup) (h : Inv val all st done rests) (hne : rests ≠ 0) :
    ∃ st' n rests', body Q val st = some st' ∧ Inv val all st' (done ++ [n]) rests' := by
  obtain ⟨⟨n, l⟩, rests', rfl, htop, hpop⟩ := h.exists_top hne
  have hn : n ∈ nodes ((n, l) ::ₘ rests') := by
    rw [nodes_cons]
    exact Multiset.mem_cons_self _ _
  have hsub : ∀ y ∈ nodes (rest l + rests'), y ∈ nodes ((n, l) ::ₘ rests') := by
    intro y hy
    rw [nodes_cons]
    exact Multiset.mem_cons_of_mem hy
  have hframe : ∀ r ∈ rest l + rests', ∀ y ∈ r.1 :: r.2,
      link st.next (some n) st.prev y = st.next y := fun r hr y hy =>
    h.link_eq hall (hsub y (mem_nodes.mpr ⟨r, hr, hy⟩))
  have htail : Seg st.next (st.next n) l none := (h.chains _ (Multiset.mem_cons_self _ _)).2
  refine ⟨⟨enqueue Q val (Q.pop st.q) (st.next n), link st.next (some n) st.prev, some n,
    if st.prev = none then some n else st.head⟩, n, rest l + rests', ?_, ?_, ?_, ?_, ?_,
    h.built.snoc (h.nodup hall) n, ?_, ?_⟩
  · rw [body, htop]
    simp only [Option.bind_eq_bind, Option.bind_some, elem, h.link_eq hall hn]
  · rw [items_enqueue htail, hpop, Multiset.map_add]
  · intro r hr
    rw [seg_congr (hframe r hr)]
    rcases Multiset.mem_add.mp hr with hr | hr
    · obtain rfl := mem_rest.mp hr
      exact ⟨rfl, htail.2⟩
    · exact h.chains r (Multiset.mem_cons_of_mem hr)
  · intro r hr
    rcases Multiset.mem_add.mp hr with hr | hr
    · obtain rfl := mem_rest.mp hr
      exact (List.pairwise_cons.mp (h.sorted _ (Multiset.mem_cons_self _ _))).2
    · exact h.sorted r (Multiset.mem_cons_of_mem hr)
  · rw [← h.cells, nodes_cons, ← Multiset.coe_add, add_assoc]
    rfl
  · refine List.pairwise_append.mpr ⟨h.order, List.pairwise_singleton _ _, fun x hx y hy => ?_⟩
    rw [List.mem_singleton.mp hy]
    exact h.below x hx n hn
  · intro x hx y hy
    rcases List.mem_append.mp hx with hx | hx
    · exact h.below x hx y (hsub y hy)
    · rw [List.mem_singleton.mp hx]
      exact h.le_of_top htop (hsub y hy)

/-- **The loop** takes every node. -/
theorem loop_spec (hall : all.Nodup) (h : Inv val all st done rests)
    (hfuel : all.card < done.length + fuel) :
    ∃ st' done', loop Q val fuel st = some st' ∧ Inv val all st' done' 0 := by
  induction fuel generalizing st done rests with
  | zero =>
    have hcard := congrArg Multiset.card h.cells
    rw [Multiset.card_add, Multiset.coe_card] at hcard
    omega
  | succ fuel ih =>
    rw [loop]
    split_ifs with hempty
    · rw [Q.isEmpty_iff, h.items, Multiset.map_eq_zero] at hempty
      subst hempty
      exact ⟨st, done, rfl, h⟩
    · rw [Q.isEmpty_iff, h.items, Multiset.map_eq_zero] at hempty
      obtain ⟨st', n, rests', hbody, h'⟩ := body_spec hall h hempty
      rw [hbody]
      refine ih h' ?_
      rw [List.length_append, List.length_singleton]
      omega

/-- **The merge** of sorted lists that have no node in common. -/
theorem mergeKLists_spec (Q : PriorityQueue (Elem α) Elem.less) (val : α → ℤ)
    (next : α → Option α) (lists : List (Option α)) (cells : List (List α))
    (h : List.Forall₂ (fun p l => Seg next p l none) lists cells)
    (hsorted : ∀ l ∈ cells, l.Pairwise fun x y => val x ≤ val y)
    (hdisjoint : cells.flatten.Nodup) :
    ∀ fuel, cells.flatten.length < fuel → ∃ head next' l,
      mergeKLists Q val fuel next lists = some (head, next') ∧ Seg next' head l none ∧
        (l.Pairwise fun x y => val x ≤ val y) ∧ l.Perm cells.flatten := by
  intro fuel hfuel
  have hinv : Inv (Q := Q) val cells.flatten
      ⟨lists.foldl (enqueue Q val) Q.new, next, none, none⟩ [] (cells.map rest).sum := by
    refine ⟨?_, fun r hr => ?_, fun r hr => ?_, ?_, built_nil, .nil, by simp⟩
    · rw [items_foldl h, Q.items_new, add_zero]
    · exact seg_of_mem h (mem_sum_rest.mp hr)
    · exact hsorted _ (mem_sum_rest.mp hr)
    · rw [nodes_sum_rest]
      exact zero_add _
  have hall : (cells.flatten : Multiset α).Nodup := Multiset.coe_nodup.mpr hdisjoint
  have hcard : (cells.flatten : Multiset α).card < ([] : List α).length + fuel := by
    rw [Multiset.coe_card]
    simpa using hfuel
  obtain ⟨st, l, hloop, hend⟩ := loop_spec hall hinv hcard
  refine ⟨st.head, link st.next none st.prev, l, ?_, ?_, hend.order, ?_⟩
  · rw [mergeKLists, hloop]
    rfl
  · refine hend.built.seg (hend.nodup hall) fun hnil => ?_
    have hhead := hend.built
    subst hnil
    exact hhead.2.trans hhead.1
  · have hcells := hend.cells
    rw [nodes, Multiset.zero_bind, add_zero] at hcells
    exact Multiset.coe_eq_coe.mp hcells

/-- Nodes `0` and `2` in one list, `1` in another, and a list without nodes between them. -/
theorem mergeKLists_three :
    List.Forall₂ (fun p l => Seg (Function.update (fun _ => none) (0 : ℕ) (some 2)) p l none)
        [some 0, none, some 1] [[0, 2], [], [1]] ∧
      ∃ head next' l, mergeKLists (PriorityQueue.byKey Elem.v) (fun x : ℕ => (x : ℤ)) 10
          (Function.update (fun _ => none) 0 (some 2)) [some 0, none, some 1] =
            some (head, next') ∧
        Seg next' head l none ∧ (l.Pairwise fun x y : ℕ => (x : ℤ) ≤ (y : ℤ)) ∧
          l.Perm [0, 2, 1] := by
  have hlists : List.Forall₂
      (fun p l => Seg (Function.update (fun _ => none) (0 : ℕ) (some 2)) p l none)
      [some 0, none, some 1] [[0, 2], [], [1]] := by
    simp
  refine ⟨hlists, ?_⟩
  exact mergeKLists_spec (PriorityQueue.byKey Elem.v) (fun x : ℕ => (x : ℤ)) _ _ _ hlists
    (by simp) (by simp) 10 (by simp)

end Sperm.Leetcode.MergeKLists
