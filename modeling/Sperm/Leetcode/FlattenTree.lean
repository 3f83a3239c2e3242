import Sperm.Lib.Chain
import Sperm.Lib.TreeMemory

/-!
# A tree as a list (`flatten-binary-tree-to-linked-list.cc`)

Both subtrees of a node are made into lists. The node is put in front of the left one, and the last
node of that one gets the right one behind it.

* `Memory`, `flatten` with `R`: the model, where `none` stands for a recursion deeper than `fuel`.
* `Flattened`: what a call does, and what it leaves as it is.
* `Flattened.cons`, `Flattened.both`: how the lists of the subtrees are put together.
* **`R_spec`**, **`flatten_spec`**: the list has the nodes in preorder.
-/

namespace Sperm.Leetcode.FlattenTree

open BinaryTree Chain

/-- The fields `left` and `right` of all nodes. -/
@[ext] structure Memory (α : Type) where
  left : α → Option α
  right : α → Option α

variable {α : Type} [DecidableEq α]

/-- `x->left = p`. -/
def Memory.setLeft (m : Memory α) (x : α) (p : Option α) : Memory α :=
  { m with left := Function.update m.left x p }

/-- `x->right = p`. -/
def Memory.setRight (m : Memory α) (x : α) (p : Option α) : Memory α :=
  { m with right := Function.update m.right x p }

/-- `R(root, last)`: what it returns, `*last` and the memory. -/
def R : ℕ → Memory α → α → Option (α × α × Memory α)
  | 0, _, _ => none
  | fuel + 1, m, root =>
    match m.left root, m.right root with
    | none, none => some (root, root, m)
    | none, some r => do
      let (x, last, m) ← R fuel m r
      some (root, last, m.setRight root (some x))
    | some l, none => do
      let (x, last, m) ← R fuel m l
      some (root, last, (m.setRight root (some x)).setLeft root none)
    | some l, some r => do
      let (x, p, m) ← R fuel m l
      let (y, last, m) ← R fuel ((m.setRight root (some x)).setLeft root none) r
      some (root, last, m.setRight p (some y))

/-- `flatten(root)`. -/
def flatten (fuel : ℕ) (m : Memory α) : Option α → Option (Memory α)
  | none => some m
  | some root => do
    let (_, _, m) ← R fuel m root
    some m

variable {m m' m'' : Memory α} {x y last last' root : α} {p : Option α} {t l r : BinaryTree α}
  {fuel : ℕ}

/-- From `m` to `m'` the tree `t` has been made into a list that ends at `last`. -/
structure Flattened (m m' : Memory α) (t : BinaryTree α) (last : α) : Prop where
  left : ∀ x ∈ t.preorder, m'.left x = none
  chain : Seg m'.right t.preorder.head? t.preorder none
  last : t.preorder.getLast? = some last
  frame : ∀ x, x ∉ t.preorder → m'.left x = m.left x ∧ m'.right x = m.right x

omit [DecidableEq α] in
theorem flattened_leaf (hl : m.left root = none) (hr : m.right root = none) :
    Flattened m m (.node root .nil .nil) root := by
  refine ⟨fun x hx => ?_, ⟨rfl, hr⟩, rfl, fun _ _ => ⟨rfl, rfl⟩⟩
  rw [List.mem_singleton.mp hx, hl]

omit [DecidableEq α] in
theorem Flattened.cons (h : Flattened m m' t last) (hu : r.preorder = root :: t.preorder)
    (hroot : root ∉ t.preorder) (hleft : m''.left root = none)
    (hright : m''.right root = t.preorder.head?)
    (hrest : ∀ x, x ≠ root → m''.left x = m'.left x ∧ m''.right x = m'.right x) :
    Flattened m m'' r last := by
  have hother : ∀ x ∈ t.preorder, x ≠ root := fun x hx hxr => hroot (hxr ▸ hx)
  constructor
  · rw [hu]
    intro x hx
    rcases List.mem_cons.mp hx with rfl | hx
    · exact hleft
    · rw [(hrest x (hother x hx)).1, h.left x hx]
  · rw [hu, List.head?_cons, seg_cons, hright, seg_congr fun x hx => (hrest x (hother x hx)).2]
    exact ⟨rfl, h.chain⟩
  · rw [hu, List.getLast?_cons, h.last]
    rfl
  · rw [hu]
    intro x hx
    rw [List.mem_cons, not_or] at hx
    rw [(hrest x hx.1).1, (hrest x hx.1).2]
    exact h.frame x hx.2

theorem Flattened.both (hl : Flattened m m' l last)
    (hr : Flattened ((m'.setRight root l.preorder.head?).setLeft root none) m'' r last')
    (hnodup : (node root l r).preorder.Nodup) :
    Flattened m (m''.setRight last r.preorder.head?) (.node root l r) last' := by
  obtain ⟨hroot, hnodup⟩ := List.nodup_cons.mp hnodup
  rw [List.mem_append, not_or] at hroot
  obtain ⟨hnodupl, -, hapart⟩ := List.nodup_append.mp hnodup
  have hlast : last ∈ l.preorder := List.mem_of_getLast? hl.last
  -- the second call leaves the first list and the node as they are
  have hkeep : ∀ x ∈ l.preorder, m''.left x = m'.left x ∧ m''.right x = m'.right x := by
    intro x hx
    have hxr : x ≠ root := fun h => hroot.1 (h ▸ hx)
    obtain ⟨hxl, hxr'⟩ := hr.frame x fun h => hapart x hx x h rfl
    rw [hxl, hxr']
    exact ⟨Function.update_of_ne hxr _ _, Function.update_of_ne hxr _ _⟩
  obtain ⟨hrootl, hrootr⟩ := hr.frame root hroot.2
  constructor
  · intro x hx
    change m''.left x = none
    rcases List.mem_cons.mp hx with rfl | hx
    · rw [hrootl]
      exact Function.update_self _ _ _
    · rcases List.mem_append.mp hx with hx | hx
      · rw [(hkeep x hx).1, hl.left x hx]
      · exact hr.left x hx
  · have hne : root ≠ last := fun h => hroot.1 (h ▸ hlast)
    have hfirst : Seg m''.right l.preorder.head? l.preorder none :=
      (seg_congr fun x hx => (hkeep x hx).2).mpr hl.chain
    have hsecond : Seg (Function.update m''.right last r.preorder.head?) r.preorder.head?
        r.preorder none := by
      rw [seg_update fun h => hapart last hlast last h rfl]
      exact hr.chain
    refine ⟨rfl, seg_append.mpr ⟨_, ?_, hsecond⟩⟩
    have hstart : (m''.setRight last r.preorder.head?).right root = l.preorder.head? := by
      change Function.update m''.right last _ root = _
      rw [Function.update_of_ne hne, hrootr]
      exact Function.update_self _ _ _
    rw [hstart]
    exact hfirst.redirect hnodupl hl.last
  · rw [preorder, List.getLast?_cons, List.getLast?_append, hr.last]
    rfl
  · intro x hx
    rw [preorder, List.mem_cons, List.mem_append, not_or, not_or] at hx
    have hne : x ≠ last := fun h => hx.2.1 (h ▸ hlast)
    obtain ⟨hxl, hxr⟩ := hr.frame x hx.2.2
    have hsame := hl.frame x hx.2.1
    change m''.left x = _ ∧ Function.update m''.right last _ x = _
    rw [Function.update_of_ne hne, hxl, hxr, ← hsame.1, ← hsame.2]
    exact ⟨Function.update_of_ne hx.1 _ _, Function.update_of_ne hx.1 _ _⟩

theorem Flattened.isTree (h : Flattened m m' l last) (hr : IsTree m.left m.right p r)
    (hnodup : (node root l r).preorder.Nodup) (q k : Option α) :
    IsTree ((m'.setRight root q).setLeft root k).left ((m'.setRight root q).setLeft root k).right
      p r := by
  obtain ⟨hroot, hnodup⟩ := List.nodup_cons.mp hnodup
  have hsame : ∀ x ∈ r.preorder, x ∉ l.preorder ∧ x ≠ root := by
    intro x hx
    refine ⟨fun hxl => (List.nodup_append.mp hnodup).2.2 x hxl x hx rfl, ?_⟩
    rintro rfl
    exact hroot (List.mem_append_right _ hx)
  refine (isTree_congr (fun x hx => ?_) fun x hx => ?_).mpr hr
  · obtain ⟨hxl, hxr⟩ := hsame x hx
    exact (Function.update_of_ne hxr _ _).trans (h.frame x hxl).1
  · obtain ⟨hxl, hxr⟩ := hsame x hx
    exact (Function.update_of_ne hxr _ _).trans (h.frame x hxl).2

/-- **A call** makes the tree into a list and reports its last node. -/
theorem R_spec (h : IsTree m.left m.right (some root) t) (hnodup : t.preorder.Nodup)
    (hfuel : t.numNodes ≤ fuel) :
    ∃ last m', R fuel m root = some (root, last, m') ∧ Flattened m m' t last := by
  induction t generalizing m root fuel with
  | nil => exact absurd h (Option.some_ne_none root)
  | node x l r ihl ihr =>
    obtain ⟨hx, hl, hr⟩ := h
    obtain rfl : root = x := Option.some_inj.mp hx
    obtain ⟨fuel, rfl⟩ : ∃ k, fuel = k + 1 := ⟨fuel - 1, by rw [numNodes] at hfuel; omega⟩
    have hfl : l.numNodes ≤ fuel := by rw [numNodes] at hfuel; omega
    have hfr : r.numNodes ≤ fuel := by rw [numNodes] at hfuel; omega
    obtain ⟨hroot, hparts⟩ := List.nodup_cons.mp hnodup
    obtain ⟨hnodupl, hnodupr, -⟩ := List.nodup_append.mp hparts
    rw [List.mem_append, not_or] at hroot
    have hpl := hl.head?_preorder
    have hpr := hr.head?_preorder
    unfold R
    cases hml : m.left root with
    | none =>
      obtain rfl : l = .nil := eq_nil_of_isTree (hml ▸ hl)
      cases hmr : m.right root with
      | none =>
        obtain rfl : r = .nil := eq_nil_of_isTree (hmr ▸ hr)
        exact ⟨root, m, rfl, flattened_leaf hml hmr⟩
      | some y =>
        obtain ⟨last, m', hcall, hflat⟩ := ihr (hmr ▸ hr) hnodupr hfr
        have hleft : m'.left root = none := (hflat.frame root hroot.2).1.trans hml
        have hright : Function.update m'.right root (some y) root = r.preorder.head? := by
          rw [Function.update_self, ← hpr, hmr]
        refine ⟨last, m'.setRight root (some y), ?_, hflat.cons rfl hroot.2 hleft hright
          fun x hx => ⟨rfl, Function.update_of_ne hx _ _⟩⟩
        simp only [hcall, Option.bind_eq_bind, Option.bind_some]
    | some y =>
      obtain ⟨last, m', hcall, hflat⟩ := ihl (hml ▸ hl) hnodupl hfl
      cases hmr : m.right root with
      | none =>
        obtain rfl : r = .nil := eq_nil_of_isTree (hmr ▸ hr)
        have hpre : (node root l .nil).preorder = root :: l.preorder := by
          rw [preorder, preorder, List.append_nil]
        have hright : Function.update m'.right root (some y) root = l.preorder.head? := by
          rw [Function.update_self, ← hpl, hml]
        refine ⟨last, (m'.setRight root (some y)).setLeft root none, ?_,
          hflat.cons hpre hroot.1 (Function.update_self _ _ _) hright
            fun x hx => ⟨Function.update_of_ne hx _ _, Function.update_of_ne hx _ _⟩⟩
        simp only [hcall, Option.bind_eq_bind, Option.bind_some]
      | some z =>
        rw [hml] at hpl
        rw [hmr] at hr hpr
        have hr' := hflat.isTree hr hnodup (some y) none
        obtain ⟨last', m'', hcall', hflat'⟩ := ihr hr' hnodupr hfr
        refine ⟨last', m''.setRight last (some z), ?_, ?_⟩
        · simp only [hcall, hcall', Option.bind_eq_bind, Option.bind_some]
        · rw [hpl] at hflat'
          rw [hpr]
          exact hflat.both hflat' hnodup

/-- **The list** has the nodes of the tree in preorder, and the call for the root reports the last
one. -/
theorem flatten_spec (m : Memory α) (p : Option α) (t : BinaryTree α)
    (h : IsTree m.left m.right p t) (hnodup : t.preorder.Nodup) :
    ∀ fuel, t.numNodes ≤ fuel → ∃ m', flatten fuel m p = some m' ∧
      (∀ x ∈ t.preorder, m'.left x = none) ∧ Seg m'.right p t.preorder none ∧
        ∀ root, p = some root → ∃ last, R fuel m root = some (root, last, m') ∧
          t.preorder.getLast? = some last := by
  intro fuel hfuel
  cases p with
  | none =>
    obtain rfl : t = .nil := eq_nil_of_isTree h
    refine ⟨m, rfl, fun x hx => absurd hx List.not_mem_nil, rfl, fun root hroot => ?_⟩
    exact absurd hroot.symm (Option.some_ne_none root)
  | some root =>
    obtain ⟨last, m', hcall, hflat⟩ := R_spec h hnodup hfuel
    refine ⟨m', ?_, hflat.left, ?_, ?_⟩
    · rw [flatten, hcall]
      rfl
    · rw [h.head?_preorder]
      exact hflat.chain
    · rintro x hx
      obtain rfl := Option.some_inj.mp hx
      exact ⟨last, hcall, hflat.last⟩

/-- A node with two children. -/
theorem flatten_three :
    IsTree (Function.update (fun _ => none) (0 : ℕ) (some 1))
        (Function.update (fun _ => none) (0 : ℕ) (some 2)) (some 0)
        (.node 0 (.node 1 .nil .nil) (.node 2 .nil .nil)) ∧
      ∃ m' : Memory ℕ, flatten 3 ⟨Function.update (fun _ => none) 0 (some 1),
          Function.update (fun _ => none) 0 (some 2)⟩ (some 0) = some m' ∧
        (∀ x ∈ [0, 1, 2], m'.left x = none) ∧ Seg m'.right (some 0) [0, 1, 2] none := by
  have htree : IsTree (Function.update (fun _ => none) (0 : ℕ) (some 1))
      (Function.update (fun _ => none) (0 : ℕ) (some 2)) (some 0)
      (.node 0 (.node 1 .nil .nil) (.node 2 .nil .nil)) := by
    simp [IsTree]
  obtain ⟨m', hcall, hleft, hchain, -⟩ :=
    flatten_spec ⟨_, _⟩ (some 0) _ htree (by simp [preorder]) 3 (by simp [numNodes])
  exact ⟨htree, m', hcall, hleft, hchain⟩

end Sperm.Leetcode.FlattenTree
