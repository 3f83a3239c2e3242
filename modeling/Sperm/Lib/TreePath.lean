import Mathlib.Algebra.BigOperators.Group.List.Basic
import Mathlib.Data.List.Chain
import Mathlib.Data.List.Nodup
import Mathlib.Data.Set.Basic
import Mathlib.Data.Tree.Basic
import Mathlib.Tactic.Common

/-!
# Simple paths in binary trees

A position is the list of turns that leads to it from the root, where `true` is a turn to the
right. The trees are those of Mathlib.

* `valueAt`: the value at a position; `Adjacent`: one position is a child of the other.
* `IsPath`, `pathSum`: positions that are joined one by one, each at most once, and the sum of
  their values.
* `exists_map_cons`: a path that avoids the root stays below one child.
* `isPath_split`: a path through the root is made of two from there on.
* **`mem_rootSums_node`**, **`mem_pathSums_node`**: the sums along the paths, by the subtrees.
-/

namespace BinaryTree

variable {α : Type}

def child : BinaryTree α → Bool → BinaryTree α
  | .nil, _ => .nil
  | .node _ l _, false => l
  | .node _ _ r, true => r

def valueAt : BinaryTree α → List Bool → Option α
  | .nil, _ => none
  | .node x _ _, [] => some x
  | .node _ l _, false :: p => l.valueAt p
  | .node _ _ r, true :: p => r.valueAt p

/-- One of the positions is a child of the other. -/
def Adjacent (p q : List Bool) : Prop := ∃ b, q = p ++ [b] ∨ p = q ++ [b]

structure IsPath (t : BinaryTree α) (ps : List (List Bool)) : Prop where
  ne_nil : ps ≠ []
  nodup : ps.Nodup
  adjacent : ps.IsChain Adjacent
  mem : ∀ p ∈ ps, ∃ x, t.valueAt p = some x

variable {t l r : BinaryTree α} {p q : List Bool} {ps qs as bs : List (List Bool)} {b : Bool}
  {x v : α}

theorem valueAt_cons (t : BinaryTree α) (b : Bool) (p : List Bool) :
    t.valueAt (b :: p) = (t.child b).valueAt p := by
  cases t with
  | nil => rfl
  | node x l r =>
    cases b with
    | false => rfl
    | true => rfl

theorem Adjacent.symm (h : Adjacent p q) : Adjacent q p := by
  obtain ⟨b, h⟩ := h
  exact ⟨b, h.symm⟩

theorem adjacent_cons_cons {b b' : Bool} :
    Adjacent (b :: p) (b' :: q) ↔ b = b' ∧ Adjacent p q := by
  constructor
  · rintro ⟨c, h | h⟩
    · obtain ⟨rfl, rfl⟩ := List.cons.inj h
      exact ⟨rfl, c, .inl rfl⟩
    · obtain ⟨rfl, rfl⟩ := List.cons.inj h
      exact ⟨rfl, c, .inr rfl⟩
  · rintro ⟨rfl, c, rfl | rfl⟩
    · exact ⟨c, .inl rfl⟩
    · exact ⟨c, .inr rfl⟩

theorem adjacent_nil_cons : Adjacent [] (b :: p) ↔ p = [] := by
  constructor
  · rintro ⟨c, h | h⟩
    · exact (List.cons.inj h).2
    · exact absurd h (List.append_ne_nil_of_right_ne_nil _ (List.cons_ne_nil _ _)).symm
  · rintro rfl
    exact ⟨b, .inl rfl⟩

/-! ## Below one child -/

/-- A path that avoids the root stays below one child. -/
theorem exists_map_cons (hchain : ps.IsChain Adjacent) (hroot : [] ∉ ps) :
    ∃ (b : Bool) (qs : List (List Bool)), ps = qs.map (b :: ·) := by
  induction ps with
  | nil => exact ⟨false, [], rfl⟩
  | cons p ps ih =>
    rw [List.mem_cons, not_or] at hroot
    obtain ⟨hp, hps⟩ := hroot
    obtain ⟨b, p, rfl⟩ := List.exists_cons_of_ne_nil (Ne.symm hp)
    obtain ⟨b', qs, rfl⟩ := ih hchain.tail hps
    cases qs with
    | nil => exact ⟨b, [p], rfl⟩
    | cons q qs =>
      have hadj := (List.isChain_cons_cons.mp hchain).1
      obtain ⟨rfl, -⟩ := adjacent_cons_cons.mp hadj
      exact ⟨b, p :: q :: qs, rfl⟩

theorem isPath_map_cons : t.IsPath (qs.map (b :: ·)) ↔ (t.child b).IsPath qs := by
  have hinj : Function.Injective (fun p : List Bool => b :: p) := fun _ _ h => (List.cons.inj h).2
  have hrel : (qs.map (b :: ·)).IsChain Adjacent ↔ qs.IsChain Adjacent := by
    rw [List.isChain_map]
    simp only [adjacent_cons_cons, true_and]
  constructor
  · rintro ⟨hne, hnodup, hchain, hmem⟩
    refine ⟨fun h => hne (by rw [h, List.map_nil]), (List.nodup_map_iff hinj).mp hnodup,
      hrel.mp hchain, fun q hq => ?_⟩
    rw [← valueAt_cons]
    exact hmem _ (List.mem_map_of_mem hq)
  · rintro ⟨hne, hnodup, hchain, hmem⟩
    refine ⟨fun h => hne (List.map_eq_nil_iff.mp h), (List.nodup_map_iff hinj).mpr hnodup,
      hrel.mpr hchain, fun p hp => ?_⟩
    obtain ⟨q, hq, rfl⟩ := List.mem_map.mp hp
    rw [valueAt_cons]
    exact hmem q hq

/-! ## Through the root -/

theorem isPath_root_cons (hp : t.IsPath ([] :: p :: ps)) :
    ∃ b qs, p :: ps = ([] :: qs).map (b :: ·) ∧ (t.child b).IsPath ([] :: qs) := by
  obtain ⟨-, hnodup, hchain, hmem⟩ := hp
  obtain ⟨hroot, hnodup⟩ := List.nodup_cons.mp hnodup
  obtain ⟨hadj, hchain⟩ := List.isChain_cons_cons.mp hchain
  obtain ⟨b, qs, hqs⟩ := exists_map_cons hchain hroot
  cases qs with
  | nil => cases hqs
  | cons q qs =>
    obtain ⟨rfl, rfl⟩ := List.cons.inj hqs
    obtain rfl := adjacent_nil_cons.mp hadj
    refine ⟨b, qs, rfl, isPath_map_cons.mp ⟨?_, hnodup, hchain, fun q hq => ?_⟩⟩
    · exact List.cons_ne_nil _ _
    · exact hmem q (List.mem_cons_of_mem _ hq)

theorem isPath_root (hx : t.valueAt [] = some x) : t.IsPath [[]] := by
  refine ⟨List.cons_ne_nil _ _, List.nodup_singleton _, List.isChain_singleton _, fun p hp => ?_⟩
  rw [List.mem_singleton.mp hp]
  exact ⟨x, hx⟩

theorem isPath_cons_root (hx : t.valueAt [] = some x) (hp : (t.child b).IsPath ([] :: qs)) :
    t.IsPath ([] :: ([] :: qs).map (b :: ·)) := by
  obtain ⟨-, hnodup, hchain, hmem⟩ := isPath_map_cons.mpr hp
  refine ⟨List.cons_ne_nil _ _, List.nodup_cons.mpr ⟨by simp, hnodup⟩, ?_, fun p hp => ?_⟩
  · exact List.isChain_cons_cons.mpr ⟨adjacent_nil_cons.mpr rfl, hchain⟩
  · rcases List.mem_cons.mp hp with rfl | hp
    · exact ⟨x, hx⟩
    · exact hmem p hp

theorem isChain_append_root : (as ++ [] :: bs).IsChain Adjacent ↔
    ([] :: as.reverse).IsChain Adjacent ∧ ([] :: bs).IsChain Adjacent := by
  have hsymm : (fun p q => Adjacent q p) = Adjacent := by
    funext p q
    exact propext ⟨Adjacent.symm, Adjacent.symm⟩
  have hleft : (as ++ [[]]).IsChain Adjacent ↔ ([] :: as.reverse).IsChain Adjacent := by
    rw [← List.reverse_concat, List.isChain_reverse, hsymm]
  rw [List.isChain_split, hleft]

/-- A path through the root is made of two that start there and have nothing else in common. -/
theorem isPath_split : t.IsPath (as ++ [] :: bs) ↔
    t.IsPath ([] :: as.reverse) ∧ t.IsPath ([] :: bs) ∧ as.Disjoint bs := by
  constructor
  · rintro ⟨-, hnodup, hchain, hmem⟩
    obtain ⟨hchain, hchain'⟩ := isChain_append_root.mp hchain
    obtain ⟨has, hbs, hdisj⟩ := List.nodup_append'.mp hnodup
    refine ⟨⟨List.cons_ne_nil _ _, ?_, hchain, fun p hp => ?_⟩,
      ⟨List.cons_ne_nil _ _, hbs, hchain', fun p hp => hmem p (List.mem_append_right _ hp)⟩,
      fun p hp hq => hdisj hp (List.mem_cons_of_mem _ hq)⟩
    · refine List.nodup_cons.mpr ⟨fun h => ?_, List.nodup_reverse.mpr has⟩
      exact hdisj (List.mem_reverse.mp h) List.mem_cons_self
    · rcases List.mem_cons.mp hp with rfl | hp
      · exact hmem [] (by simp)
      · exact hmem p (List.mem_append_left _ (List.mem_reverse.mp hp))
  · rintro ⟨⟨-, hnodup, hchain, hmem⟩, ⟨-, hnodup', hchain', hmem'⟩, hdisj⟩
    obtain ⟨hroot, has⟩ := List.nodup_cons.mp hnodup
    refine ⟨by simp, List.nodup_append'.mpr ⟨List.nodup_reverse.mp has, hnodup', ?_⟩,
      isChain_append_root.mpr ⟨hchain, hchain'⟩, fun p hp => ?_⟩
    · intro p hp hq
      rcases List.mem_cons.mp hq with rfl | hq
      · exact hroot (List.mem_reverse.mpr hp)
      · exact hdisj hp hq
    · rcases List.mem_append.mp hp with hp | hp
      · exact hmem p (List.mem_cons_of_mem _ (List.mem_reverse.mpr hp))
      · exact hmem' p hp

/-! ## Sums along paths -/

variable [AddCommMonoid α]

def pathSum (t : BinaryTree α) (ps : List (List Bool)) : α :=
  (ps.map fun p => (t.valueAt p).getD 0).sum

/-- The sums along the paths. -/
def pathSums (t : BinaryTree α) : Set α := {v | ∃ ps, t.IsPath ps ∧ t.pathSum ps = v}

/-- The sums along the paths from the root on. -/
def rootSums (t : BinaryTree α) : Set α :=
  {v | ∃ ps, t.IsPath ([] :: ps) ∧ t.pathSum ([] :: ps) = v}

theorem rootSums_subset (t : BinaryTree α) : t.rootSums ⊆ t.pathSums := by
  rintro v ⟨ps, hps, hv⟩
  exact ⟨_, hps, hv⟩

theorem pathSum_map_cons (t : BinaryTree α) (b : Bool) (qs : List (List Bool)) :
    t.pathSum (qs.map (b :: ·)) = (t.child b).pathSum qs := by
  simp only [pathSum, List.map_map, Function.comp_def, valueAt_cons]

theorem pathSum_cons_root (x : α) (l r : BinaryTree α) (ps : List (List Bool)) :
    (node x l r).pathSum ([] :: ps) = x + (node x l r).pathSum ps := by
  rw [pathSum, List.map_cons, List.sum_cons]
  rfl

theorem pathSum_append (t : BinaryTree α) (ps qs : List (List Bool)) :
    t.pathSum (ps ++ qs) = t.pathSum ps + t.pathSum qs := by
  rw [pathSum, List.map_append, List.sum_append]
  rfl

theorem pathSum_reverse (t : BinaryTree α) (ps : List (List Bool)) :
    t.pathSum ps.reverse = t.pathSum ps := by
  rw [pathSum, List.map_reverse, List.sum_reverse]
  rfl

theorem pathSums_nil : (nil : BinaryTree α).pathSums = ∅ := by
  ext v
  refine iff_of_false ?_ id
  rintro ⟨ps, ⟨hne, -, -, hmem⟩, -⟩
  obtain ⟨p, ps, rfl⟩ := List.exists_cons_of_ne_nil hne
  obtain ⟨x, hx⟩ := hmem p List.mem_cons_self
  cases hx

theorem rootSums_nil : (nil : BinaryTree α).rootSums = ∅ :=
  Set.subset_eq_empty (rootSums_subset nil) pathSums_nil

/-- **The paths from the root** end there or go on from one child. -/
theorem mem_rootSums_node : v ∈ (node x l r).rootSums ↔
    v = x ∨ (∃ w ∈ l.rootSums, v = x + w) ∨ ∃ w ∈ r.rootSums, v = x + w := by
  constructor
  · rintro ⟨ps, hps, rfl⟩
    rw [pathSum_cons_root]
    cases ps with
    | nil => exact .inl (add_zero x)
    | cons p ps =>
      obtain ⟨b, qs, heq, hqs⟩ := isPath_root_cons hps
      rw [heq, pathSum_map_cons]
      cases b with
      | false => exact .inr (.inl ⟨_, ⟨qs, hqs, rfl⟩, rfl⟩)
      | true => exact .inr (.inr ⟨_, ⟨qs, hqs, rfl⟩, rfl⟩)
  · rintro (rfl | ⟨w, ⟨qs, hqs, rfl⟩, rfl⟩ | ⟨w, ⟨qs, hqs, rfl⟩, rfl⟩)
    · exact ⟨[], isPath_root rfl, by rw [pathSum_cons_root]; exact add_zero v⟩
    · refine ⟨_, isPath_cons_root (b := false) rfl hqs, ?_⟩
      rw [pathSum_cons_root, pathSum_map_cons]
      rfl
    · refine ⟨_, isPath_cons_root (b := true) rfl hqs, ?_⟩
      rw [pathSum_cons_root, pathSum_map_cons]
      rfl

/-- A path through the root starts there, ends there or bends there. -/
theorem pathSum_through_root (hps : (node x l r).IsPath (as ++ [] :: bs)) :
    (node x l r).pathSum (as ++ [] :: bs) ∈ (node x l r).rootSums ∨
      ∃ w ∈ l.rootSums, ∃ w' ∈ r.rootSums,
        (node x l r).pathSum (as ++ [] :: bs) = w + (x + w') := by
  obtain ⟨has, hbs, hdisj⟩ := isPath_split.mp hps
  rw [pathSum_append, ← pathSum_reverse _ as]
  cases hrev : as.reverse with
  | nil => exact .inl ⟨bs, hbs, (zero_add _).symm⟩
  | cons a as' =>
    rw [hrev] at has
    cases bs with
    | nil =>
      refine .inl ⟨_, has, ?_⟩
      rw [pathSum_cons_root, pathSum_cons_root, add_comm]
      exact congrArg _ (add_zero x).symm
    | cons b bs =>
      obtain ⟨c, ps, heq, hps⟩ := isPath_root_cons has
      obtain ⟨d, qs, heq', hqs⟩ := isPath_root_cons hbs
      have hcd : c ≠ d := by
        rintro rfl
        have ha : [c] ∈ as := List.mem_reverse.mp (by rw [hrev, heq]; simp)
        exact hdisj ha (by rw [heq']; simp)
      rw [heq, heq', pathSum_cons_root, pathSum_map_cons, pathSum_map_cons]
      refine .inr ?_
      cases c with
      | false =>
        obtain rfl : d = true := Bool.eq_true_of_not_eq_false hcd.symm
        exact ⟨_, ⟨ps, hps, rfl⟩, _, ⟨qs, hqs, rfl⟩, rfl⟩
      | true =>
        obtain rfl : d = false := Bool.eq_false_of_not_eq_true hcd.symm
        refine ⟨_, ⟨qs, hqs, rfl⟩, _, ⟨ps, hps, rfl⟩, ?_⟩
        rw [add_comm, add_comm x, add_assoc]
        rfl

theorem exists_bend {ps qs : List (List Bool)} (hps : l.IsPath ([] :: ps))
    (hqs : r.IsPath ([] :: qs)) :
    l.pathSum ([] :: ps) + (x + r.pathSum ([] :: qs)) ∈ (node x l r).pathSums := by
  refine ⟨(([] :: ps).map (false :: ·)).reverse ++ [] :: ([] :: qs).map (true :: ·), ?_, ?_⟩
  · refine isPath_split.mpr ⟨?_, isPath_cons_root rfl hqs, fun p hp hq => ?_⟩
    · rw [List.reverse_reverse]
      exact isPath_cons_root rfl hps
    · obtain ⟨p', -, rfl⟩ := List.mem_map.mp (List.mem_reverse.mp hp)
      obtain ⟨q', -, h⟩ := List.mem_map.mp hq
      cases h
  · rw [pathSum_append, pathSum_reverse, pathSum_cons_root, pathSum_map_cons, pathSum_map_cons]
    rfl

/-- **The paths** stay below one child, start at the root, or bend there. -/
theorem mem_pathSums_node : v ∈ (node x l r).pathSums ↔
    v ∈ l.pathSums ∨ v ∈ r.pathSums ∨ v ∈ (node x l r).rootSums ∨
      ∃ w ∈ l.rootSums, ∃ w' ∈ r.rootSums, v = w + (x + w') := by
  constructor
  · rintro ⟨ps, hps, rfl⟩
    by_cases hroot : [] ∈ ps
    · obtain ⟨as, bs, rfl⟩ := List.append_of_mem hroot
      exact .inr (.inr (pathSum_through_root hps))
    · obtain ⟨b, qs, rfl⟩ := exists_map_cons hps.adjacent hroot
      rw [pathSum_map_cons]
      cases b with
      | false => exact .inl ⟨qs, isPath_map_cons.mp hps, rfl⟩
      | true => exact .inr (.inl ⟨qs, isPath_map_cons.mp hps, rfl⟩)
  · rintro (⟨qs, hqs, rfl⟩ | ⟨qs, hqs, rfl⟩ | hv | ⟨w, ⟨ps, hps, rfl⟩, w', ⟨qs, hqs, rfl⟩, rfl⟩)
    · exact ⟨_, isPath_map_cons (b := false).mpr hqs, pathSum_map_cons _ _ _⟩
    · exact ⟨_, isPath_map_cons (b := true).mpr hqs, pathSum_map_cons _ _ _⟩
    · exact rootSums_subset _ hv
    · exact exists_bend hps hqs

end BinaryTree
