import Mathlib.Algebra.Order.Ring.Int
import Mathlib.Data.List.Basic
import Mathlib.Data.List.Perm.Basic
import Mathlib.Logic.Relation

/-!
# Merging in place (`merge-sort-array.cc`)

The larger one of the last values is moved to the end of the free cells, until one side is used up;
what is left of the second array is moved then.

* `merge` with `mergeLoop` and `drainLoop`: the model, where `none` stands for an index outside an
  array and for a loop with more than `fuel` passes; `Step`, one pass of either loop.
* `Inv`: what was moved, and what was not; `moveLarger_spec`, `moveRest_spec`, one pass.
* `inv_of_reaches`, **`merge_sorted`**: every state of a run, and the result.
* **`merge_spec`**: both.

Positions are not cut to `int`.
-/

namespace Sperm.Leetcode.MergeSortArray

/-- `A[k]`. -/
def get (A : List ℤ) (k : ℤ) : Option ℤ := if 0 ≤ k then A[k.toNat]? else none

/-- `A[k] = v`. -/
def put (A : List ℤ) (k v : ℤ) : Option (List ℤ) :=
  if 0 ≤ k ∧ k < A.length then some (A.set k.toNat v) else none

/-- The first array and the three positions. -/
structure State where
  A : List ℤ
  p : ℤ
  x : ℤ
  y : ℤ

/-- The body of the first loop. -/
def moveLarger (B : List ℤ) (st : State) : Option State := do
  let a ← get st.A st.x
  let b ← get B st.y
  if a ≥ b then do
    let A ← put st.A st.p a
    some ⟨A, st.p - 1, st.x - 1, st.y⟩
  else do
    let A ← put st.A st.p b
    some ⟨A, st.p - 1, st.x, st.y - 1⟩

/-- The body of the second loop. -/
def moveRest (B : List ℤ) (st : State) : Option State := do
  let b ← get B st.y
  let A ← put st.A st.p b
  some ⟨A, st.p - 1, st.x, st.y - 1⟩

/-- The first loop. -/
def mergeLoop (B : List ℤ) : ℕ → State → Option State
  | 0, _ => none
  | fuel + 1, st =>
    if st.x ≥ 0 ∧ st.y ≥ 0 then do
      let st ← moveLarger B st
      mergeLoop B fuel st
    else some st

/-- The second loop. -/
def drainLoop (B : List ℤ) : ℕ → State → Option State
  | 0, _ => none
  | fuel + 1, st =>
    if st.y ≥ 0 then do
      let st ← moveRest B st
      drainLoop B fuel st
    else some st

/-- The positions before the loops. -/
def start (A : List ℤ) (m n : ℕ) : State := ⟨A, m + n - 1, m - 1, n - 1⟩

/-- `merge(A, m, B, n)`, and the first array after it. -/
def merge (fuel : ℕ) (A : List ℤ) (m : ℕ) (B : List ℤ) (n : ℕ) : Option (List ℤ) := do
  let st ← mergeLoop B fuel (start A m n)
  let st ← drainLoop B fuel st
  some st.A

/-- One pass of the first loop, or of the second one after it. -/
inductive Step (B : List ℤ) : State → State → Prop
  | larger {st st' : State} (hx : st.x ≥ 0) (hy : st.y ≥ 0) (h : moveLarger B st = some st') :
      Step B st st'
  | rest {st st' : State} (hx : st.x < 0) (hy : st.y ≥ 0) (h : moveRest B st = some st') :
      Step B st st'

variable {A U B : List ℤ} {m n a b fuel : ℕ} {v : ℤ} {st st' : State}

theorem get_eq (h : a < A.length) : get A a = some A[a] := by
  rw [get, if_pos (Int.natCast_nonneg a), Int.toNat_natCast, List.getElem?_eq_getElem h]

theorem put_eq (h : a < A.length) : put A a v = some (A.set a v) :=
  if_pos ⟨Int.natCast_nonneg a, Int.ofNat_lt.mpr h⟩

theorem drop_set_self (h : a < A.length) : (A.set a v).drop a = v :: A.drop (a + 1) := by
  rw [List.drop_set, if_neg (lt_irrefl a), Nat.sub_self, List.drop_eq_getElem_cons h]
  rfl

theorem le_of_mem_take (h : B.Pairwise (· ≤ ·)) (hb : b < B.length) {u : ℤ}
    (hu : u ∈ B.take (b + 1)) : u ≤ B[b] := by
  rw [List.take_succ_eq_append_getElem hb, List.mem_append, List.mem_singleton] at hu
  rcases hu with hu | rfl
  · rw [← List.take_append_drop b B, List.pairwise_append, List.drop_eq_getElem_cons hb] at h
    exact h.2.2 u hu _ List.mem_cons_self
  · exact le_rfl

theorem getElem_mem_take (hb : b < B.length) : B[b] ∈ B.take (b + 1) := by
  rw [List.take_succ_eq_append_getElem hb]
  exact List.mem_append_right _ (List.mem_singleton_self _)

/-! ## What is known of a state -/

/-- The first `a` values of `U` and `b` values of `B` have not been moved, and behind them there are
the others, in order. -/
structure Inv (U B : List ℤ) (a b : ℕ) (st : State) : Prop where
  x_eq : st.x = a - 1
  y_eq : st.y = b - 1
  p_eq : st.p = a + b - 1
  left_le : a ≤ U.length
  right_le : b ≤ B.length
  length_eq : st.A.length = U.length + B.length
  unmoved : st.A.take a = U.take a
  moved : (st.A.drop (a + b)).Perm (U.drop a ++ B.drop b)
  sorted : (st.A.drop (a + b)).Pairwise (· ≤ ·)
  above : ∀ w ∈ st.A.drop (a + b), ∀ u ∈ U.take a ++ B.take b, u ≤ w

theorem inv_start (hA : A.length = m + n) (hB : B.length = n) :
    Inv (A.take m) B m n (start A m n) := by
  have hm : (A.take m).length = m := by
    rw [List.length_take]
    omega
  have hdrop : (start A m n).A.drop (m + n) = [] := List.drop_eq_nil_iff.mpr hA.le
  refine ⟨rfl, rfl, rfl, hm.ge, hB.ge, by rw [hm, hB]; exact hA, ?_, ?_, ?_, ?_⟩
  · rw [List.take_take, min_self]
    rfl
  · rw [hdrop, List.drop_eq_nil_iff.mpr hm.le, List.drop_eq_nil_iff.mpr hB.le]
    exact .nil
  · rw [hdrop]
    exact .nil
  · rw [hdrop]
    exact fun w hw => absurd hw List.not_mem_nil

theorem Inv.move {a' b' : ℕ} {x y : ℤ} (h : Inv U B a b st) (hab : a + b = a' + b' + 1)
    (ha : a' ≤ a) (hb : b' ≤ b) (hv : v ∈ U.take a ++ B.take b)
    (hmoved : (U.drop a' ++ B.drop b').Perm (v :: (U.drop a ++ B.drop b)))
    (hmax : ∀ u ∈ U.take a' ++ B.take b', u ≤ v) (hx : x = a' - 1) (hy : y = b' - 1) :
    ∃ A', put st.A st.p v = some A' ∧ Inv U B a' b' ⟨A', st.p - 1, x, y⟩ := by
  obtain ⟨-, -, hp, hle, hle', hlen, hunmoved, hperm, hsorted, habove⟩ := h
  have hplace : st.p = (a' + b' : ℕ) := by omega
  have hlt : a' + b' < st.A.length := by omega
  have hdrop : (st.A.set (a' + b') v).drop (a' + b') = v :: st.A.drop (a + b) := by
    rw [drop_set_self hlt, hab]
  refine ⟨st.A.set (a' + b') v, ?_, hx, hy, ?_, ha.trans hle, hb.trans hle', ?_, ?_, ?_, ?_, ?_⟩
  · rw [hplace, put_eq hlt]
  · change st.p - 1 = a' + b' - 1
    omega
  · rw [List.length_set, hlen]
  · -- the place is not among those that are left
    have hkeep : (st.A.set (a' + b') v).take a' = st.A.take a' :=
      List.take_set_of_le (Nat.le_add_right a' b')
    have htake : ∀ l : List ℤ, l.take a' = (l.take a).take a' := by
      intro l
      rw [List.take_take, min_eq_left ha]
    rw [hkeep, htake, hunmoved, ← htake]
  · rw [hdrop]
    exact (hperm.cons v).trans hmoved.symm
  · rw [hdrop]
    exact List.pairwise_cons.mpr ⟨fun w hw => habove w hw v hv, hsorted⟩
  · rw [hdrop]
    intro w hw u hu
    rcases List.mem_cons.mp hw with rfl | hw
    · exact hmax u hu
    · exact (hmax u hu).trans (habove w hw v hv)

theorem Inv.get_left (h : Inv U B (a + 1) b st) (ha : a < U.length) :
    get st.A st.x = some U[a] := by
  have hx : st.x = a := by
    rw [h.x_eq]
    omega
  have hsame : st.A[a]? = U[a]? := by
    rw [← List.getElem?_take_of_lt a.lt_succ_self, h.unmoved,
      List.getElem?_take_of_lt a.lt_succ_self]
  rw [get, hx, if_pos (Int.natCast_nonneg a), Int.toNat_natCast, hsame, List.getElem?_eq_getElem ha]

theorem Inv.get_right (h : Inv U B a (b + 1) st) (hb : b < B.length) :
    get B st.y = some B[b] := by
  have hy : st.y = b := by
    rw [h.y_eq]
    omega
  rw [hy, get_eq hb]

theorem Inv.move_left (hU : U.Pairwise (· ≤ ·)) (h : Inv U B (a + 1) b st) (ha : a < U.length)
    (hmax : ∀ u ∈ B.take b, u ≤ U[a]) :
    ∃ A', put st.A st.p U[a] = some A' ∧ Inv U B a b ⟨A', st.p - 1, st.x - 1, st.y⟩ := by
  refine h.move (by omega) a.le_succ le_rfl ?_ ?_ (fun u hu => ?_) ?_ h.y_eq
  · exact List.mem_append_left _ (getElem_mem_take ha)
  · rw [List.drop_eq_getElem_cons ha, List.cons_append]
  · rcases List.mem_append.mp hu with hu | hu
    · exact le_of_mem_take hU ha (List.take_subset_take_left _ a.le_succ hu)
    · exact hmax u hu
  · rw [h.x_eq]
    omega

theorem Inv.move_right (hB : B.Pairwise (· ≤ ·)) (h : Inv U B a (b + 1) st) (hb : b < B.length)
    (hmax : ∀ u ∈ U.take a, u ≤ B[b]) :
    ∃ A', put st.A st.p B[b] = some A' ∧ Inv U B a b ⟨A', st.p - 1, st.x, st.y - 1⟩ := by
  refine h.move (by omega) le_rfl b.le_succ ?_ ?_ (fun u hu => ?_) h.x_eq ?_
  · exact List.mem_append_right _ (getElem_mem_take hb)
  · rw [List.drop_eq_getElem_cons hb]
    exact List.perm_middle
  · rcases List.mem_append.mp hu with hu | hu
    · exact hmax u hu
    · exact le_of_mem_take hB hb (List.take_subset_take_left _ b.le_succ hu)
  · rw [h.y_eq]
    omega

theorem moveLarger_spec (hU : U.Pairwise (· ≤ ·)) (hB : B.Pairwise (· ≤ ·))
    (h : Inv U B (a + 1) (b + 1) st) :
    ∃ a' b' st', moveLarger B st = some st' ∧ Inv U B a' b' st' ∧ a' + b' = a + b + 1 := by
  have ha : a < U.length := h.left_le
  have hb : b < B.length := h.right_le
  simp only [moveLarger, h.get_left ha, h.get_right hb, Option.bind_eq_bind, Option.bind_some]
  split_ifs with hge
  · obtain ⟨A', hput, hinv⟩ := h.move_left hU ha fun u hu => (le_of_mem_take hB hb hu).trans hge
    rw [hput]
    exact ⟨a, b + 1, _, rfl, hinv, rfl⟩
  · obtain ⟨A', hput, hinv⟩ := h.move_right hB hb fun u hu =>
      (le_of_mem_take hU ha hu).trans (le_of_not_ge hge)
    rw [hput]
    exact ⟨a + 1, b, _, rfl, hinv, by omega⟩

theorem moveRest_spec (hB : B.Pairwise (· ≤ ·)) (h : Inv U B 0 (b + 1) st) :
    ∃ st', moveRest B st = some st' ∧ Inv U B 0 b st' := by
  have hb : b < B.length := h.right_le
  obtain ⟨A', hput, hinv⟩ := h.move_right hB hb fun u hu => absurd hu List.not_mem_nil
  refine ⟨_, ?_, hinv⟩
  simp only [moveRest, h.get_right hb, hput, Option.bind_eq_bind, Option.bind_some]

/-! ## Runs -/

theorem inv_of_step (hU : U.Pairwise (· ≤ ·)) (hB : B.Pairwise (· ≤ ·)) (h : Inv U B a b st)
    (hs : Step B st st') : ∃ a' b', Inv U B a' b' st' := by
  cases hs with
  | larger hx hy hmove =>
    rw [h.x_eq] at hx
    rw [h.y_eq] at hy
    obtain ⟨a, rfl⟩ : ∃ k, a = k + 1 := ⟨a - 1, by omega⟩
    obtain ⟨b, rfl⟩ : ∃ k, b = k + 1 := ⟨b - 1, by omega⟩
    obtain ⟨a', b', st'', hmove', hinv, -⟩ := moveLarger_spec hU hB h
    rw [hmove', Option.some_inj] at hmove
    exact ⟨a', b', hmove ▸ hinv⟩
  | rest hx hy hmove =>
    rw [h.x_eq] at hx
    rw [h.y_eq] at hy
    obtain rfl : a = 0 := by omega
    obtain ⟨b, rfl⟩ : ∃ k, b = k + 1 := ⟨b - 1, by omega⟩
    obtain ⟨st'', hmove', hinv⟩ := moveRest_spec hB h
    rw [hmove', Option.some_inj] at hmove
    exact ⟨0, b, hmove ▸ hinv⟩

/-- **Every state** of a run. -/
theorem inv_of_reaches (hU : U.Pairwise (· ≤ ·)) (hB : B.Pairwise (· ≤ ·)) (h : Inv U B a b st)
    (hr : Relation.ReflTransGen (Step B) st st') : ∃ a' b', Inv U B a' b' st' := by
  induction hr with
  | refl => exact ⟨a, b, h⟩
  | tail _ hs ih =>
    obtain ⟨a', b', h'⟩ := ih
    exact inv_of_step hU hB h' hs

/-- The first loop ends when one side is used up. -/
theorem mergeLoop_spec (hU : U.Pairwise (· ≤ ·)) (hB : B.Pairwise (· ≤ ·)) (h : Inv U B a b st)
    (hfuel : a + b < fuel) :
    ∃ a' b' st', mergeLoop B fuel st = some st' ∧ Inv U B a' b' st' ∧ (a' = 0 ∨ b' = 0) ∧
      a' + b' ≤ a + b ∧ Relation.ReflTransGen (Step B) st st' := by
  induction fuel generalizing a b st with
  | zero => omega
  | succ fuel ih =>
    rw [mergeLoop]
    split_ifs with hboth
    · have hx := h.x_eq ▸ hboth.1
      have hy := h.y_eq ▸ hboth.2
      obtain ⟨a, rfl⟩ : ∃ k, a = k + 1 := ⟨a - 1, by omega⟩
      obtain ⟨b, rfl⟩ : ∃ k, b = k + 1 := ⟨b - 1, by omega⟩
      obtain ⟨a', b', st', hmove, hinv, hsum⟩ := moveLarger_spec hU hB h
      obtain ⟨a'', b'', st'', hloop, hinv', hend, hle, hr⟩ := ih hinv (by omega)
      refine ⟨a'', b'', st'', ?_, hinv', hend, by omega,
        .head (.larger hboth.1 hboth.2 hmove) hr⟩
      rw [hmove]
      exact hloop
    · rw [h.x_eq, h.y_eq] at hboth
      exact ⟨a, b, st, rfl, h, by omega, le_rfl, .refl⟩

theorem drainLoop_spec (hB : B.Pairwise (· ≤ ·)) (h : Inv U B a b st) (hend : a = 0 ∨ b = 0)
    (hfuel : b < fuel) :
    ∃ st', drainLoop B fuel st = some st' ∧ Inv U B a 0 st' ∧
      Relation.ReflTransGen (Step B) st st' := by
  induction fuel generalizing b st with
  | zero => omega
  | succ fuel ih =>
    rw [drainLoop]
    split_ifs with hmore
    · have hy := h.y_eq ▸ hmore
      obtain rfl : a = 0 := by omega
      obtain ⟨b, rfl⟩ : ∃ k, b = k + 1 := ⟨b - 1, by omega⟩
      obtain ⟨st', hmove, hinv⟩ := moveRest_spec hB h
      obtain ⟨st'', hloop, hinv', hr⟩ := ih hinv (.inl rfl) (by omega)
      have hx : st.x < 0 := by
        rw [h.x_eq]
        omega
      refine ⟨st'', ?_, hinv', .head (.rest hx hmore hmove) hr⟩
      rw [hmove]
      exact hloop
    · rw [h.y_eq] at hmore
      obtain rfl : b = 0 := by omega
      exact ⟨st, rfl, h, .refl⟩

theorem sorted_perm_of_inv (hU : U.Pairwise (· ≤ ·)) (h : Inv U B a 0 st) :
    st.A.Pairwise (· ≤ ·) ∧ st.A.Perm (U ++ B) := by
  have hsplit : U.take a ++ st.A.drop a = st.A := by
    rw [← h.unmoved, List.take_append_drop]
  constructor
  · rw [← hsplit, List.pairwise_append]
    refine ⟨hU.sublist (List.take_sublist a U), h.sorted, fun u hu w hw => ?_⟩
    exact h.above w hw u (List.mem_append_left _ hu)
  · have hmoved := h.moved.append_left (U.take a)
    rw [add_zero, hsplit, List.drop_zero, ← List.append_assoc, List.take_append_drop] at hmoved
    exact hmoved

/-- **The result** is reached, in order, and has the values of both arrays. -/
theorem merge_sorted (hA : A.length = m + n) (hB : B.length = n)
    (hsortedA : (A.take m).Pairwise (· ≤ ·)) (hsortedB : B.Pairwise (· ≤ ·))
    (hfuel : m + n < fuel) :
    ∃ st, merge fuel A m B n = some st.A ∧ Relation.ReflTransGen (Step B) (start A m n) st ∧
      st.A.Pairwise (· ≤ ·) ∧ st.A.Perm (A.take m ++ B) := by
  obtain ⟨a, b, st, hloop, hinv, hend, hle, hr⟩ :=
    mergeLoop_spec hsortedA hsortedB (inv_start hA hB) hfuel
  obtain ⟨st', hloop', hinv', hr'⟩ := drainLoop_spec hsortedB hinv hend (show b < fuel by omega)
  refine ⟨st', ?_, hr.trans hr', sorted_perm_of_inv hsortedA hinv'⟩
  rw [merge, hloop, Option.bind_eq_bind, Option.bind_some, hloop']
  rfl

/-- **The merge**: the arrays are merged, and in every state of the run the positions are in the
first array and the values of its first `x + 1` cells are the original ones. -/
theorem merge_spec (A B : List ℤ) (m n : ℕ) (hA : A.length = m + n) (hB : B.length = n)
    (hsortedA : (A.take m).Pairwise (· ≤ ·)) (hsortedB : B.Pairwise (· ≤ ·)) :
    (∀ fuel, m + n < fuel → ∃ A', merge fuel A m B n = some A' ∧ A'.Pairwise (· ≤ ·) ∧
      A'.Perm (A.take m ++ B)) ∧
    ∀ st, Relation.ReflTransGen (Step B) (start A m n) st →
      (∀ k : ℕ, k ≤ st.x → st.A[k]? = A[k]?) ∧ -1 ≤ st.x ∧ st.x ≤ st.p ∧ st.p < m + n := by
  constructor
  · intro fuel hfuel
    obtain ⟨st, hmerge, -, hsorted, hperm⟩ := merge_sorted hA hB hsortedA hsortedB hfuel
    exact ⟨st.A, hmerge, hsorted, hperm⟩
  · intro st hr
    obtain ⟨a, b, h⟩ := inv_of_reaches hsortedA hsortedB (inv_start hA hB) hr
    have hle := h.left_le
    have hle' := h.right_le
    rw [List.length_take] at hle
    rw [h.x_eq, h.p_eq]
    refine ⟨fun k hk => ?_, by omega, by omega, by omega⟩
    have hka : k < a := by omega
    have hkm : k < m := by omega
    rw [← List.getElem?_take_of_lt hka, h.unmoved, List.getElem?_take_of_lt hka,
      List.getElem?_take_of_lt hkm]

theorem merge_three : merge 10 [1, 5, 0, 0] 2 [2, 3] 2 = some [1, 2, 3, 5] ∧
    ∃ A', merge 10 [1, 5, 0, 0] 2 [2, 3] 2 = some A' ∧ A'.Pairwise (· ≤ ·) ∧
      A'.Perm [1, 5, 2, 3] :=
  ⟨by decide, (merge_spec [1, 5, 0, 0] [2, 3] 2 2 rfl rfl (by decide) (by decide)).1 10 (by decide)⟩

end Sperm.Leetcode.MergeSortArray
