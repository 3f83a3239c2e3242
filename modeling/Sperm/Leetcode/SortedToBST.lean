import Mathlib.Algebra.Order.Ring.Int
import Mathlib.Data.List.GetD
import Sperm.Lib.Balance
import Sperm.Lib.Chain
import Sperm.Lib.Traversal

/-!
# Trees from sorted input (`convert-sorted-array-to-binary-search-tree.cc`,
`convert-sorted-list-to-binary-search-tree.cc`)

The middle value becomes the root. In a list it is found by a pointer that goes half as fast as
another one, and the list is cut in front of it.

* `sortedArrayToBST` with `FromArray.R`: the model for a vector.
* `FromList.R` with `split`: the model for a list, where `none` stands for the use of a null pointer
  and for a recursion or a loop deeper than `fuel`.
* **`FromArray.R_spec`**, **`FromList.split_spec`**, **`FromList.R_spec`**: what they do.
* **`sortedToBST_spec`**: balanced trees with the values in order.

Positions are not cut to `int`.
-/

namespace Sperm.Leetcode.SortedToBST

open BinaryTree

/-! ## From a vector -/

namespace FromArray

/-- `R(num, s, e)`. -/
def R (num : List ℤ) (s e : ℤ) : BinaryTree ℤ :=
  if e < s then .nil
  else if e = s then .node (num.getD s.toNat 0) .nil .nil
  else
    let n := (e + s) / 2
    .node (num.getD n.toNat 0) (R num s (n - 1)) (R num (n + 1) e)
termination_by (e + 1 - s).toNat
decreasing_by
  · omega
  · omega

/-- The values of `num` from `s` to `e`. -/
def slice (num : List ℤ) (s e : ℤ) : List ℤ := (num.take (e + 1).toNat).drop s.toNat

variable {num : List ℤ} {s e n : ℤ}

theorem length_slice (hs : 0 ≤ s) (he : e < num.length) :
    (slice num s e).length = (e + 1 - s).toNat := by
  rw [slice, List.length_drop, List.length_take]
  omega

theorem slice_split (hs : 0 ≤ s) (hsn : s ≤ n) (hne : n ≤ e) (he : e < num.length) :
    slice num s e = slice num s (n - 1) ++ num.getD n.toNat 0 :: slice num (n + 1) e := by
  have hn : n.toNat < num.length := by omega
  have hlen : n.toNat < (num.take (e + 1).toNat).length := by
    rw [List.length_take]
    omega
  have hleft : (num.take (e + 1).toNat).take n.toNat = num.take (n - 1 + 1).toNat := by
    rw [List.take_take, sub_add_cancel, min_eq_left (by omega)]
  have hright : (num.take (e + 1).toNat).drop n.toNat =
      num.getD n.toNat 0 :: slice num (n + 1) e := by
    have hsucc : (n + 1).toNat = n.toNat + 1 := by omega
    rw [List.drop_eq_getElem_cons hlen, List.getElem_take, List.getD_eq_getElem _ _ hn, slice,
      hsucc]
  have hlow : s.toNat ≤ (num.take (n - 1 + 1).toNat).length := by
    rw [List.length_take]
    omega
  rw [slice, ← List.take_append_drop n.toNat (num.take (e + 1).toNat), hleft, hright,
    List.drop_append_of_le_length hlow]
  rfl

/-- **The tree** has the values in order and halves them everywhere. -/
theorem R_spec (hs : 0 ≤ s) (he : e < num.length) :
    (R num s e).inorder = slice num s e ∧ (R num s e).Halved := by
  fun_induction R num s e with
  | case1 s e hlt =>
    refine ⟨?_, trivial⟩
    rw [inorder_nil, eq_comm, ← List.length_eq_zero_iff, length_slice hs he]
    omega
  | case2 s hlt =>
    refine ⟨?_, ⟨by simp [numNodes], trivial, trivial⟩⟩
    rw [slice_split hs le_rfl le_rfl he]
    have hleft : slice num s (s - 1) = [] := by
      rw [← List.length_eq_zero_iff, length_slice hs (by omega)]
      omega
    have hright : slice num (s + 1) s = [] := by
      rw [← List.length_eq_zero_iff, length_slice (by omega) he]
      omega
    rw [hleft, hright]
    rfl
  | case3 s e hlt hne n ihl ihr =>
    obtain ⟨hl, hbl⟩ := ihl hs (by omega)
    obtain ⟨hr, hbr⟩ := ihr (by omega) he
    constructor
    · rw [inorder_node, hl, hr, ← slice_split hs (by omega) (by omega) he]
    · refine ⟨?_, hbl, hbr⟩
      rw [← length_inorder, ← length_inorder, hl, hr, length_slice hs (by omega),
        length_slice (by omega) he]
      omega

end FromArray

/-- `sortedArrayToBST(num)`. -/
def sortedArrayToBST (num : List ℤ) : BinaryTree ℤ :=
  if num.length = 0 then .nil else FromArray.R num 0 (num.length - 1)

/-! ## From a list -/

namespace FromList

variable {α : Type} [DecidableEq α]

/-- The loop that looks for the middle, with its `s1` and `s2`; the result is `prev` and `s1`. -/
def split (next : α → Option α) : ℕ → α → α → Option (α × α)
  | 0, _, _ => none
  | fuel + 1, s1, s2 => do
    let prev := s1
    let s1 ← next s1
    match next s2 with
    | none => some (prev, s1)
    | some t =>
      match next t with
      | none => some (prev, s1)
      | some s2 => if next s2 = none then some (prev, s1) else split next fuel s1 s2

/-- `R(head)`, with the memory of the list behind it. -/
def R (val : α → ℤ) : ℕ → (α → Option α) → α → Option (BinaryTree ℤ × (α → Option α))
  | 0, _, _ => none
  | fuel + 1, next, head =>
    match next head with
    | none => some (.node (val head) .nil .nil, next)
    | some t =>
      match next t with
      | none => some (.node (val head) .nil (.node (val t) .nil .nil), next)
      | some _ => do
        let (prev, s1) ← split next fuel head head
        let next := Function.update next prev none
        let (left, next) ← R val fuel next head
        let rest ← next s1
        let (right, next) ← R val fuel next rest
        some (.node (val s1) left right, next)

variable {next : α → Option α} {p : Option α} {cells : List α} {s1 s2 head : α} {k fuel : ℕ}

omit [DecidableEq α] in
/-- After `k` passes `s1` is at `k` and `s2` at `2 * k`; the loop ends with `s1` in the middle. -/
theorem split_eq (h : Chain.Seg next p cells none) (hs1 : cells[k]? = some s1)
    (hs2 : cells[2 * k]? = some s2) (hk : 2 * k + 1 < cells.length)
    (hfuel : cells.length ≤ 2 * (k + fuel)) :
    ∃ prev mid, split next fuel s1 s2 = some (prev, mid) ∧
      cells[cells.length / 2 - 1]? = some prev ∧ cells[cells.length / 2]? = some mid := by
  induction fuel generalizing k s1 s2 with
  | zero => omega
  | succ fuel ih =>
    have hnext : next s1 = some (cells[k + 1]) := by
      rw [h.getElem? hs1, List.getElem?_eq_getElem]
    have hnext2 : next s2 = some (cells[2 * k + 1]) := by
      rw [h.getElem? hs2, List.getElem?_eq_getElem]
    have hnext3 : next cells[2 * k + 1] = cells[2 * k + 2]? :=
      h.getElem? (List.getElem?_eq_getElem hk)
    simp only [split, hnext, hnext2, hnext3, Option.bind_eq_bind, Option.bind_some]
    cases hthird : cells[2 * k + 2]? with
    | none =>
      have hend := List.getElem?_eq_none_iff.mp hthird
      have hhalf : cells.length / 2 = k + 1 := by omega
      exact ⟨s1, _, rfl, by rwa [hhalf], by rw [hhalf, List.getElem?_eq_getElem]⟩
    | some t =>
      have hnext4 : next t = cells[2 * k + 3]? := h.getElem? hthird
      obtain ⟨hlt, -⟩ := List.getElem?_eq_some_iff.mp hthird
      dsimp only
      split_ifs with hfourth
      · rw [hnext4] at hfourth
        have hend := List.getElem?_eq_none_iff.mp hfourth
        have hhalf : cells.length / 2 = k + 1 := by omega
        exact ⟨s1, _, rfl, by rwa [hhalf], by rw [hhalf, List.getElem?_eq_getElem]⟩
      · have hgo : 2 * (k + 1) + 1 < cells.length := by
          rw [hnext4, List.getElem?_eq_none_iff] at hfourth
          omega
        exact ih (List.getElem?_eq_getElem (by omega)) hthird hgo (by omega)

omit [DecidableEq α] in
/-- **The list is split** into two parts that are not empty, and the middle. -/
theorem split_spec (h : Chain.Seg next (some head) cells none) (hlen : 3 ≤ cells.length)
    (hfuel : cells.length ≤ 2 * fuel) :
    ∃ as prev mid bs, split next fuel head head = some (prev, mid) ∧
      cells = as ++ prev :: mid :: bs ∧ as.length + 1 = cells.length / 2 ∧ bs ≠ [] := by
  have hhead : cells[0]? = some head := by rw [← List.head?_eq_getElem?, ← h.head?_eq]
  have hfuel' : cells.length ≤ 2 * (0 + fuel) := by omega
  obtain ⟨prev, mid, hsplit, hprev, hmid⟩ := split_eq h hhead hhead (by omega) hfuel'
  obtain ⟨hlt, rfl⟩ := List.getElem?_eq_some_iff.mp hprev
  obtain ⟨hlt', rfl⟩ := List.getElem?_eq_some_iff.mp hmid
  have hsucc : cells.length / 2 - 1 + 1 = cells.length / 2 := by omega
  refine ⟨cells.take (cells.length / 2 - 1), _, _, cells.drop (cells.length / 2 + 1), hsplit, ?_,
    ?_, ?_⟩
  · conv_lhs => rw [← List.take_append_drop (cells.length / 2 - 1) cells]
    rw [List.drop_eq_getElem_cons hlt]
    congr 2
    rw [hsucc, List.drop_eq_getElem_cons hlt']
  · rw [List.length_take]
    omega
  · rw [← List.length_pos_iff, List.length_drop]
    omega

theorem R_succ (val : α → ℤ) (h : Chain.Seg next (some head) cells none)
    (hlen : 3 ≤ cells.length) : R val (fuel + 1) next head =
      (split next fuel head head).bind fun s =>
        (R val fuel (Function.update next s.1 none) head).bind fun l =>
          (l.2 s.2).bind fun rest =>
            (R val fuel l.2 rest).bind fun r => some (.node (val s.2) l.1 r.1, r.2) := by
  match cells with
  | x :: y :: z :: rest =>
    obtain ⟨hx, hy, hz, -⟩ := h
    obtain rfl := Option.some_inj.mp hx
    rw [R, hy]
    dsimp only
    rw [hz]
    rfl

theorem seg_cut {as bs : List α} {prev mid : α}
    (h : Chain.Seg next (some head) (as ++ prev :: mid :: bs) none) :
    Chain.Seg (Function.update next prev none) (some head) (as ++ [prev]) none ∧
      Chain.Seg next (next mid) bs none ∧ (as ++ [prev]).Disjoint (mid :: bs) := by
  have hnodup := h.nodup
  rw [List.append_cons, List.nodup_append'] at hnodup
  obtain ⟨hleft, -, hdisj⟩ := hnodup
  obtain ⟨has, -, hrest⟩ := Chain.seg_through.mp h
  have hprev : prev ∉ as := fun hmem => (List.nodup_append'.mp hleft).2.2 hmem (by simp)
  exact ⟨Chain.seg_snoc.mpr ⟨(Chain.seg_update hprev).mpr has, Function.update_self _ _ _⟩,
    hrest, hdisj⟩

/-- **The tree** of a list has its values in order and halves them everywhere. -/
theorem R_spec (val : α → ℤ) (h : Chain.Seg next (some head) cells none)
    (hfuel : cells.length ≤ fuel) :
    ∃ t next', R val fuel next head = some (t, next') ∧ t.inorder = cells.map val ∧ t.Halved ∧
      ∀ x ∉ cells, next' x = next x := by
  induction fuel generalizing next head cells with
  | zero =>
    rw [List.length_eq_zero_iff.mp (Nat.le_zero.mp hfuel)] at h
    cases h
  | succ fuel ih =>
    match cells with
    | [] => cases h
    | [x] =>
      obtain ⟨hx, hnext⟩ := h
      obtain rfl := Option.some_inj.mp hx
      refine ⟨.node (val head) .nil .nil, next, ?_, rfl, ?_, fun _ _ => rfl⟩
      · simp [R, show next head = none from hnext]
      · simp [Halved, numNodes]
    | [x, y] =>
      obtain ⟨hx, hnext, hnext'⟩ := h
      obtain rfl := Option.some_inj.mp hx
      refine ⟨.node (val head) .nil (.node (val y) .nil .nil), next, ?_, rfl, ?_, fun _ _ => rfl⟩
      · simp [R, hnext, show next y = none from hnext']
      · simp [Halved, numNodes]
    | x :: y :: z :: rest =>
      have hhalf : (x :: y :: z :: rest).length ≤ 2 * fuel := by
        simp only [List.length_cons] at hfuel ⊢
        omega
      obtain ⟨as, prev, mid, bs, hsplit, hcells, hmiddle, hbs⟩ := split_spec h (by simp) hhalf
      rw [R_succ val h (by simp), hsplit]
      rw [hcells] at h hfuel hmiddle ⊢
      rw [List.length_append, List.length_cons, List.length_cons] at hfuel hmiddle
      obtain ⟨hleft, hright, hdisj⟩ := seg_cut h
      obtain ⟨l, next₁, hl, hinl, hhl, hframe⟩ := ih hleft (by simp; omega)
      -- the right part is as it was
      have hsame : ∀ c ∈ mid :: bs, next₁ c = next c := by
        intro c hc
        have hnot : c ∉ as ++ [prev] := fun hmem => hdisj hmem hc
        have hne : c ≠ prev := fun heq => hnot (by simp [heq])
        rw [hframe c hnot, Function.update_of_ne hne]
      obtain ⟨b, bs, rfl⟩ := List.exists_cons_of_ne_nil hbs
      have hmid : next mid = some b := hright.1
      rw [hmid, ← Chain.seg_congr fun c hc => hsame c (List.mem_cons_of_mem _ hc)] at hright
      obtain ⟨r, next₂, hr, hinr, hhr, hframe₂⟩ := ih hright (by omega)
      refine ⟨.node (val mid) l r, next₂, ?_, ?_, ⟨?_, hhl, hhr⟩, fun c hc => ?_⟩
      · simp only [Option.bind_some, hl, hsame mid List.mem_cons_self, hmid, hr]
      · rw [inorder_node, hinl, hinr]
        simp
      · rw [← length_inorder, ← length_inorder, hinl, hinr]
        simp at hmiddle ⊢
        omega
      · simp only [List.mem_append, List.mem_cons, not_or] at hc
        rw [hframe₂ c (by simp [hc]), hframe c (by simp [hc]), Function.update_of_ne hc.2.1]

end FromList

/-! ## Both -/

/-- **Balanced trees** are built from a vector and from a list, with the values in order. The list
is always split into parts that are not empty, and the recursion ends. -/
theorem sortedToBST_spec :
    (∀ num : List ℤ, (sortedArrayToBST num).inorder = num ∧ (sortedArrayToBST num).Balanced) ∧
      ∀ (α : Type) [DecidableEq α] (val : α → ℤ) (next : α → Option α) (head : α)
        (cells : List α), Chain.Seg next (some head) cells none → ∀ fuel, cells.length ≤ fuel →
        (∃ t next', FromList.R val fuel next head = some (t, next') ∧
          t.inorder = cells.map val ∧ t.Balanced) ∧
        (3 ≤ cells.length → ∃ as prev mid bs,
          FromList.split next fuel head head = some (prev, mid) ∧
          cells = as ++ prev :: mid :: bs ∧ bs ≠ []) := by
  refine ⟨fun num => ?_, fun α _ val next head cells h fuel hfuel => ⟨?_, fun hlen => ?_⟩⟩
  · unfold sortedArrayToBST
    split_ifs with hzero
    · exact ⟨(List.length_eq_zero_iff.mp hzero).symm, trivial⟩
    · have hlast : (num.length : ℤ) - 1 < num.length := by omega
      obtain ⟨hinorder, hhalved⟩ := FromArray.R_spec le_rfl hlast
      refine ⟨?_, hhalved.balanced⟩
      rw [hinorder, FromArray.slice, sub_add_cancel]
      simp
  · obtain ⟨t, next', hR, hinorder, hhalved, -⟩ := FromList.R_spec val h hfuel
    exact ⟨t, next', hR, hinorder, hhalved.balanced⟩
  · have hhalf : cells.length ≤ 2 * fuel := by omega
    obtain ⟨as, prev, mid, bs, hsplit, hcells, -, hbs⟩ := FromList.split_spec h hlen hhalf
    exact ⟨as, prev, mid, bs, hsplit, hcells, hbs⟩

/-- The numbers from one to three, in cells of their own. -/
theorem sortedToBST_three :
    (sortedArrayToBST [1, 2, 3]).inorder = [1, 2, 3] ∧
      ∃ t next', FromList.R (fun x : ℕ => (x : ℤ)) 3
          (fun x => if x < 3 then some (x + 1) else none) 1 = some (t, next') ∧
        t.inorder = [1, 2, 3] ∧ t.Balanced := by
  obtain ⟨harray, hlist⟩ := sortedToBST_spec
  have hseg : Chain.Seg (fun x : ℕ => if x < 3 then some (x + 1) else none) (some 1) [1, 2, 3]
      none := ⟨rfl, rfl, rfl, rfl⟩
  exact ⟨(harray [1, 2, 3]).1, (hlist ℕ (fun x => (x : ℤ)) _ 1 _ hseg 3 le_rfl).1⟩

end Sperm.Leetcode.SortedToBST
