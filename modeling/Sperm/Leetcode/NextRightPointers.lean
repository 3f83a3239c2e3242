import Sperm.Lib.Chain
import Sperm.Lib.Levels
import Sperm.Lib.TreeMemory

/-!
# Links to the right (`populating-next-right-pointers-in-each-node-2.cc`)

A level of the tree is walked through along its links, while the nodes of the next one are linked
to each other.

* `TreeLinkNode`, `connect` with `body`, `walk` and `R`: the model, where `none` stands for a loop
  or a recursion with more than `fuel` passes.
* `attach`: what every branch of the body does for a child; `body_eq`.
* `Chained`, `Extends`: the part of the next level that has been linked.
* `walk_spec`, **`R_spec`**: one level, and all below it.
* **`connect_spec`**: every node is linked to its neighbour.
-/

namespace Sperm.Leetcode.NextRightPointers

open BinaryTree Chain

/-- `TreeLinkNode`. -/
structure TreeLinkNode (α : Type) where
  val : ℤ
  left : Option α
  right : Option α
  next : Option α

/-- The nodes in memory. -/
abbrev Memory (α : Type) := α → TreeLinkNode α

variable {α : Type} [DecidableEq α]

/-- `x->next = p`. -/
def setNext (m : Memory α) (x : α) (p : Option α) : Memory α :=
  Function.update m x { m x with next := p }

/-- The memory, `saved` and `head`. -/
structure State (α : Type) where
  m : Memory α
  saved : Option α
  head : Option α

/-- A node is put behind `head`, if there is one. -/
def put (st : State α) (c : α) : State α :=
  match st.head with
  | some head => { st with m := setNext st.m head (some c) }
  | none => { st with saved := some c }

/-- The body of the loop. -/
def body (st : State α) (root : α) : State α :=
  match (st.m root).left, (st.m root).right with
  | none, none => st
  | none, some r =>
    let st := put st r
    { st with m := setNext st.m r none, head := some r }
  | some l, none =>
    let st := put st l
    { st with m := setNext st.m l none, head := some l }
  | some l, some r =>
    let st := put st l
    { st with m := setNext (setNext st.m l (some r)) r none, head := some r }

/-- The loop of `R`. -/
def walk : ℕ → Option α → State α → Option (State α)
  | _, none, st => some st
  | 0, some _, _ => none
  | fuel + 1, some root, st =>
    let st := body st root
    walk fuel (st.m root).next st

/-- `R(root)`, with loops of at most `bound` passes. -/
def R (bound : ℕ) : ℕ → Option α → Memory α → Option (Memory α)
  | _, none, m => some m
  | 0, some _, _ => none
  | fuel + 1, some root, m => do
    let st ← walk bound (some root) ⟨m, none, none⟩
    R bound fuel st.saved st.m

/-- `connect(root)`. -/
def connect (fuel : ℕ) (m : Memory α) : Option α → Option (Memory α)
  | none => some m
  | some root => R fuel fuel (some root) (setNext m root none)

variable {m m' m'' : Memory α} {st st' st'' : State α} {root p : Option α} {x c : α}
  {done cs ds : List α} {fuel : ℕ}

/-! ## Writing to `next` -/

/-- The links of all nodes. -/
def nexts (m : Memory α) (x : α) : Option α := (m x).next

def lefts (m : Memory α) (x : α) : Option α := (m x).left

def rights (m : Memory α) (x : α) : Option α := (m x).right

@[simp] theorem nexts_setNext : nexts (setNext m x p) = Function.update (nexts m) x p := by
  funext y
  by_cases hy : y = x
  · subst hy
    rw [nexts, setNext, Function.update_self, Function.update_self]
  · rw [nexts, setNext, Function.update_of_ne hy, Function.update_of_ne hy, nexts]

/-- Only links differ. -/
def Same (m m' : Memory α) : Prop :=
  ∀ x, (m' x).val = (m x).val ∧ (m' x).left = (m x).left ∧ (m' x).right = (m x).right

omit [DecidableEq α] in
theorem Same.refl (m : Memory α) : Same m m := fun _ => ⟨rfl, rfl, rfl⟩

omit [DecidableEq α] in
theorem Same.trans (h : Same m m') (h' : Same m' m'') : Same m m'' := fun x =>
  ⟨(h' x).1.trans (h x).1, (h' x).2.1.trans (h x).2.1, (h' x).2.2.trans (h x).2.2⟩

omit [DecidableEq α] in
theorem Same.isTree {t : BinaryTree α} (h : Same m m') (ht : IsTree (lefts m) (rights m) p t) :
    IsTree (lefts m') (rights m') p t :=
  (isTree_congr (fun x _ => (h x).2.1) fun x _ => (h x).2.2).mpr ht

theorem same_setNext (m : Memory α) (x : α) (p : Option α) : Same m (setNext m x p) := by
  intro y
  by_cases hy : y = x
  · subst hy
    rw [setNext, Function.update_self]
    exact ⟨rfl, rfl, rfl⟩
  · rw [setNext, Function.update_of_ne hy]
    exact ⟨rfl, rfl, rfl⟩

/-! ## One child more -/

/-- A child becomes the last node of the next level. -/
def attach (st : State α) (c : α) : State α :=
  { put st c with m := setNext (put st c).m c none, head := some c }

/-- **Every branch** does the same for each child. -/
theorem body_eq (st : State α) (root : α) :
    body st root = ((st.m root).left.toList ++ (st.m root).right.toList).foldl attach st := by
  unfold body
  cases (st.m root).left with
  | none => cases (st.m root).right <;> rfl
  | some l =>
    cases (st.m root).right with
    | none => rfl
    | some r =>
      have hlink : ∀ m : Memory α,
          setNext (setNext m l none) l (some r) = setNext m l (some r) := by
        intro m
        unfold setNext
        rw [Function.update_idem, Function.update_self]
      change _ = attach (attach st l) r
      simp only [attach, put, hlink]

/-- The nodes in `done` are linked, from `saved` to `head`. -/
def Chained (st : State α) (done : List α) : Prop :=
  Seg (nexts st.m) st.saved done none ∧ st.head = done.getLast?

/-- From `st` to `st'` the nodes in `cs` have been linked behind those in `done`. -/
structure Extends (st st' : State α) (done cs : List α) : Prop where
  chained : Chained st' (done ++ cs)
  frame : ∀ x, x ∉ done ++ cs → nexts st'.m x = nexts st.m x
  same : Same st.m st'.m

omit [DecidableEq α] in
theorem Extends.refl (h : Chained st done) : Extends st st done [] :=
  ⟨by rwa [List.append_nil], fun _ _ => rfl, .refl _⟩

omit [DecidableEq α] in
theorem Extends.trans (h : Extends st st' done cs) (h' : Extends st' st'' (done ++ cs) ds) :
    Extends st st'' done (cs ++ ds) := by
  obtain ⟨hchain, hframe', hsame'⟩ := h'
  rw [List.append_assoc] at hchain hframe'
  refine ⟨hchain, fun x hx => ?_, h.same.trans hsame'⟩
  rw [hframe' x hx]
  refine h.frame x fun hmem => hx ?_
  rw [← List.append_assoc]
  exact List.mem_append_left _ hmem

theorem attach_extends (h : Chained st done) (hnodup : (done ++ [c]).Nodup) :
    Extends st (attach st c) done [c] := by
  obtain ⟨hchain, hhead⟩ := h
  obtain ⟨hdone, -, hapart⟩ := List.nodup_append.mp hnodup
  have hfresh : c ∉ done := fun hmem => hapart c hmem c (List.mem_singleton_self c) rfl
  unfold attach put
  cases hlast : st.head with
  | none =>
    rw [hlast, eq_comm, List.getLast?_eq_none_iff] at hhead
    subst hhead
    refine ⟨⟨⟨rfl, ?_⟩, rfl⟩, fun x hx => ?_, same_setNext _ _ _⟩
    · rw [nexts_setNext]
      exact Function.update_self _ _ _
    · rw [nexts_setNext]
      exact Function.update_of_ne (List.ne_of_not_mem_cons hx) _ _
  | some d =>
    rw [hlast] at hhead
    refine ⟨⟨?_, List.getLast?_concat.symm⟩, fun x hx => ?_,
      (same_setNext _ _ _).trans (same_setNext _ _ _)⟩
    · rw [nexts_setNext, nexts_setNext, seg_snoc, seg_update hfresh]
      exact ⟨hchain.redirect hdone hhead.symm, Function.update_self _ _ _⟩
    · rw [List.mem_append, not_or] at hx
      have hxd : x ≠ d := fun hxd => hx.1 (hxd ▸ List.mem_of_getLast? hhead.symm)
      rw [nexts_setNext, nexts_setNext,
        Function.update_of_ne (List.ne_of_not_mem_cons hx.2), Function.update_of_ne hxd]

theorem foldl_attach_extends (h : Chained st done) (hnodup : (done ++ cs).Nodup) :
    Extends st (cs.foldl attach st) done cs := by
  induction cs generalizing st done with
  | nil => exact .refl h
  | cons c cs ih =>
    rw [List.append_cons] at hnodup
    have hfirst := attach_extends h (List.nodup_append.mp hnodup).1
    exact hfirst.trans (ih hfirst.chained hnodup)

/-! ## One level -/

/-- The trees of the nodes in a row are in memory. -/
def InMemory (m : Memory α) (row : List (Node α)) : Prop :=
  ∀ p ∈ row, IsTree (lefts m) (rights m) (some p.val) p.tree

variable {row : List (Node α)} {bound : ℕ}

omit [DecidableEq α] in
theorem InMemory.same (h : InMemory m row) (hs : Same m m') : InMemory m' row := fun p hp =>
  hs.isTree (h p hp)

omit [DecidableEq α] in
theorem toList_eq_map_val {left right : α → Option α} {t : BinaryTree α}
    (h : IsTree left right p t) : p.toList = (Node.ofTree t).map Node.val := by
  cases t with
  | nil =>
    obtain rfl : p = none := h
    rfl
  | node x l r =>
    obtain ⟨rfl, -⟩ := h
    rfl

omit [DecidableEq α] in
theorem inMemory_ofTree {t : BinaryTree α} (h : IsTree (lefts m) (rights m) p t) :
    InMemory m (Node.ofTree t) := by
  cases t with
  | nil => exact fun q hq => absurd hq List.not_mem_nil
  | node x l r =>
    intro q hq
    rw [List.mem_singleton.mp hq]
    exact ⟨rfl, h.2⟩

omit [DecidableEq α] in
theorem InMemory.children (h : InMemory m row) : InMemory m (Node.children row) := by
  intro p hp
  obtain ⟨q, hq, hp⟩ := List.mem_flatMap.mp hp
  obtain ⟨-, hl, hr⟩ := h q hq
  rcases List.mem_append.mp hp with hp | hp
  · exact inMemory_ofTree hl p hp
  · exact inMemory_ofTree hr p hp

/-- The loop links the children of the nodes that it gets to. -/
theorem walk_spec (hroot : Seg (nexts st.m) root (row.map Node.val) none)
    (hrow : InMemory st.m row) (h : Chained st done)
    (hnodup : (row.map Node.val ++ (done ++ (Node.children row).map Node.val)).Nodup)
    (hfuel : row.length ≤ fuel) :
    ∃ st', walk fuel root st = some st' ∧
      Extends st st' done ((Node.children row).map Node.val) := by
  induction row generalizing root st done fuel with
  | nil =>
    obtain rfl : root = none := hroot
    exact ⟨st, by unfold walk; rfl, .refl h⟩
  | cons p row ih =>
    obtain ⟨rfl, hrest⟩ := hroot
    obtain ⟨fuel, rfl⟩ : ∃ k, fuel = k + 1 := ⟨fuel - 1, by rw [List.length_cons] at hfuel; omega⟩
    obtain ⟨-, hl, hr⟩ := hrow p List.mem_cons_self
    rw [Node.children_cons, List.map_append] at hnodup ⊢
    generalize hcs : (Node.ofTree p.left ++ Node.ofTree p.right).map Node.val = cs at hnodup ⊢
    rw [← List.append_assoc done] at hnodup
    obtain ⟨hp, hnodup⟩ := List.nodup_cons.mp hnodup
    obtain ⟨-, hdone, hapart⟩ := List.nodup_append.mp hnodup
    have hbody : Extends st (body st p.val) done cs := by
      rw [body_eq, ← hcs, List.map_append, ← toList_eq_map_val hl, ← toList_eq_map_val hr]
      rw [← hcs, List.map_append, ← toList_eq_map_val hl, ← toList_eq_map_val hr] at hdone
      exact foldl_attach_extends h (List.nodup_append.mp hdone).1
    -- the nodes of the level itself keep their links
    have hkeep : ∀ x ∈ row.map Node.val, nexts (body st p.val).m x = nexts st.m x := fun x hx =>
      hbody.frame x fun hmem => hapart x hx x (List.mem_append_left _ hmem) rfl
    have hnext : nexts (body st p.val).m p.val = nexts st.m p.val :=
      hbody.frame p.val fun hmem => hp (List.mem_append_right _ (List.mem_append_left _ hmem))
    have hseg : Seg (nexts (body st p.val).m) (nexts (body st p.val).m p.val)
        (row.map Node.val) none := by
      rw [hnext]
      exact (seg_congr hkeep).mpr hrest
    have hrow' : InMemory (body st p.val).m row :=
      InMemory.same (fun q hq => hrow q (List.mem_cons_of_mem _ hq)) hbody.same
    obtain ⟨st', hwalk, hext⟩ := ih hseg hrow' hbody.chained hnodup (Nat.le_of_succ_le_succ hfuel)
    exact ⟨st', hwalk, hbody.trans hext⟩

/-! ## All levels -/

theorem R_none (bound fuel : ℕ) (m : Memory α) : R bound fuel none m = some m := by
  cases fuel <;> rfl

omit [DecidableEq α] in
theorem nodup_rows (h : (Node.values row).Nodup) :
    (row.map Node.val ++ ((Node.children row).map Node.val ++
      Node.values (Node.children (Node.children row)))).Nodup := by
  have hperm := (Node.values_perm row).trans
    ((Node.values_perm (Node.children row)).append_left (row.map Node.val))
  exact hperm.nodup_iff.mp h

/-- **The recursion** links every level from a row on, and nothing else. -/
theorem R_spec (hroot : Seg (nexts m) root (row.map Node.val) none) (hrow : InMemory m row)
    (hnodup : (Node.values row).Nodup) (hheight : Node.height row ≤ fuel)
    (hsize : Node.size row ≤ bound) :
    ∃ m', R bound fuel root m = some m' ∧ Same m m' ∧
      (∀ d, Seg (nexts m') (row.flatMap fun p => p.tree.atDepth d).head?
        (row.flatMap fun p => p.tree.atDepth d) none) ∧
      ∀ x, x ∉ Node.values (Node.children row) → nexts m' x = nexts m x := by
  induction fuel generalizing root m row with
  | zero =>
    cases row with
    | nil =>
      obtain rfl : root = none := hroot
      exact ⟨m, R_none bound 0 m, .refl m, fun _ => rfl, fun _ _ => rfl⟩
    | cons p row =>
      rw [Node.height_cons] at hheight
      omega
  | succ fuel ih =>
    cases hr : row with
    | nil =>
      subst hr
      obtain rfl : root = none := hroot
      exact ⟨m, R_none bound (fuel + 1) m, .refl m, fun _ => rfl, fun _ _ => rfl⟩
    | cons p ps =>
      rw [← hr]
      have hsome : root = some p.val := by
        rw [hr] at hroot
        exact hroot.1
      have hrows := nodup_rows hnodup
      have hchildren := Node.size_children row
      have hwalks : (row.map Node.val ++ ([] ++ (Node.children row).map Node.val)).Nodup :=
        hrows.sublist (List.Sublist.append_left (List.sublist_append_left _ _) _)
      have hstart : Chained (⟨m, none, none⟩ : State α) [] := ⟨rfl, rfl⟩
      have hbound : row.length ≤ bound := by omega
      obtain ⟨st, hwalk, hext⟩ := walk_spec hroot hrow hstart hwalks hbound
      have hbelow : (Node.values (Node.children row)).Nodup := by
        rw [(Node.values_perm _).nodup_iff]
        exact (List.nodup_append.mp hrows).2.1
      obtain ⟨m', hcall, hsame, hlevels, hframe⟩ := ih hext.chained.1
        (hrow.children.same hext.same) hbelow (by rw [Node.height_children]; omega) (by omega)
      -- what is below the next level is not in it, and neither is the row itself
      have hkeep : ∀ x, x ∉ Node.values (Node.children row) → nexts m' x = nexts m x := by
        intro x hx
        rw [(Node.values_perm _).mem_iff, List.mem_append, not_or] at hx
        rw [hframe x hx.2]
        exact hext.frame x hx.1
      refine ⟨m', ?_, hext.same.trans hsame, fun d => ?_, hkeep⟩
      · subst hsome
        rw [R, hwalk]
        exact hcall
      · cases d with
        | zero =>
          rw [Node.flatMap_atDepth_zero]
          rw [hroot.head?_eq] at hroot
          refine (seg_congr fun x hx => hkeep x fun hmem => ?_).mpr hroot
          rw [(Node.values_perm _).mem_iff] at hmem
          exact (List.nodup_append.mp hrows).2.2 x hx x hmem rfl
        | succ d =>
          rw [← Node.flatMap_children]
          exact hlevels d

/-- **Every level** is linked: a node to the one on its right, and the last one to none. The other
fields are as they were. -/
theorem connect_spec (m : Memory α) (p : Option α) (t : BinaryTree α)
    (h : IsTree (lefts m) (rights m) p t) (hnodup : t.preorder.Nodup) :
    ∀ fuel, t.numNodes ≤ fuel → ∃ m', connect fuel m p = some m' ∧
      (∀ d i x, (t.atDepth d)[i]? = some x → (m' x).next = (t.atDepth d)[i + 1]?) ∧
        ∀ x, (m' x).val = (m x).val ∧ (m' x).left = (m x).left ∧ (m' x).right = (m x).right := by
  intro fuel hfuel
  cases p with
  | none =>
    obtain rfl : t = .nil := eq_nil_of_isTree h
    exact ⟨m, rfl, fun d i x hx => absurd hx (by simp [atDepth]), Same.refl m⟩
  | some root =>
    have hsame := same_setNext m root none
    have hmem : InMemory (setNext m root none) (Node.ofTree t) := inMemory_ofTree (hsame.isTree h)
    have hvals := toList_eq_map_val h
    have hroot : Seg (nexts (setNext m root none)) (some root)
        ((Node.ofTree t).map Node.val) none := by
      rw [← hvals, nexts_setNext]
      exact ⟨rfl, Function.update_self _ _ _⟩
    have hheight : Node.height (Node.ofTree t) ≤ fuel := by
      rw [Node.height_ofTree]
      exact t.height_le_numNodes.trans hfuel
    have hsize : Node.size (Node.ofTree t) ≤ fuel := by rwa [Node.size_ofTree]
    obtain ⟨m', hcall, hsame', hlevels, -⟩ :=
      R_spec hroot hmem (by rwa [Node.values_ofTree]) hheight hsize
    refine ⟨m', hcall, fun d i x hx => ?_, hsame.trans hsame'⟩
    have hlevel := hlevels d
    rw [Node.flatMap_ofTree] at hlevel
    exact hlevel.getElem? hx

/-- A node with two children that are not linked, and a link that leads nowhere. -/
theorem connect_three :
    IsTree (Function.update (fun _ => none) (0 : ℕ) (some 1))
        (Function.update (fun _ => none) (0 : ℕ) (some 2)) (some 0)
        (.node 0 (.node 1 .nil .nil) (.node 2 .nil .nil)) ∧
      ∃ m' : Memory ℕ, connect 3 (fun x => ⟨0, Function.update (fun _ => none) 0 (some 1) x,
          Function.update (fun _ => none) 0 (some 2) x, some 7⟩) (some 0) = some m' ∧
        (m' 0).next = none ∧ (m' 1).next = some 2 ∧ (m' 2).next = none := by
  have htree : IsTree (Function.update (fun _ => none) (0 : ℕ) (some 1))
      (Function.update (fun _ => none) (0 : ℕ) (some 2)) (some 0)
      (.node 0 (.node 1 .nil .nil) (.node 2 .nil .nil)) := by
    simp [IsTree]
  obtain ⟨m', hcall, hnext, -⟩ := connect_spec (fun x : ℕ => ⟨0, Function.update (fun _ => none) 0
    (some 1) x, Function.update (fun _ => none) 0 (some 2) x, some 7⟩) (some 0) _ htree
    (by simp [preorder]) 3 (by simp [numNodes])
  exact ⟨htree, m', hcall, hnext 0 0 0 rfl, hnext 1 0 1 rfl, hnext 1 1 2 rfl⟩

end Sperm.Leetcode.NextRightPointers
