import Mathlib.Data.List.Flatten
import Mathlib.Data.List.Nodup
import Mathlib.Data.List.Range
import Mathlib.Tactic.Common

/-!
# Cutting a list into pieces

* `IsSegmentation P w ws`: `ws` are non-empty pieces that `P` accepts and that make up `w`.
* `segmentations`: all of them, by the length of the first piece; **`mem_segmentations`**,
  **`nodup_segmentations`**. `segmentationsFrom`: those with a first piece of certain lengths.
* `Segmentable` and its recursion **`segmentable_iff`**: accepted as it is, or cut anywhere.
-/

namespace Sperm

variable {α : Type} {P : List α → Prop}

/-- `w` as a concatenation of non-empty pieces that `P` accepts. -/
structure IsSegmentation (P : List α → Prop) (w : List α) (ws : List (List α)) : Prop where
  flatten_eq : ws.flatten = w
  ne_nil : ∀ x ∈ ws, x ≠ []
  accepted : ∀ x ∈ ws, P x

theorem isSegmentation_nil_iff {ws : List (List α)} : IsSegmentation P [] ws ↔ ws = [] := by
  constructor
  · rintro ⟨hf, hn, -⟩
    cases ws with
    | nil => rfl
    | cons x ws =>
      rw [List.flatten_cons, List.append_eq_nil_iff] at hf
      exact absurd hf.1 (hn x List.mem_cons_self)
  · rintro rfl
    exact ⟨rfl, by simp, by simp⟩

theorem isSegmentation_cons_iff {w x : List α} {ws : List (List α)} :
    IsSegmentation P w (x :: ws) ↔
      x ≠ [] ∧ P x ∧ ∃ v, w = x ++ v ∧ IsSegmentation P v ws := by
  constructor
  · rintro ⟨rfl, hn, ha⟩
    refine ⟨hn x List.mem_cons_self, ha x List.mem_cons_self, ws.flatten, List.flatten_cons, rfl,
      fun y hy => hn y (List.mem_cons_of_mem _ hy), fun y hy => ha y (List.mem_cons_of_mem _ hy)⟩
  · rintro ⟨hx, hp, v, rfl, rfl, hn, ha⟩
    exact ⟨List.flatten_cons, List.forall_mem_cons.mpr ⟨hx, hn⟩, List.forall_mem_cons.mpr ⟨hp, ha⟩⟩

theorem IsSegmentation.append {u v : List α} {us vs : List (List α)} (hu : IsSegmentation P u us)
    (hv : IsSegmentation P v vs) : IsSegmentation P (u ++ v) (us ++ vs) := by
  refine ⟨by rw [List.flatten_append, hu.flatten_eq, hv.flatten_eq], fun x hx => ?_, fun x hx => ?_⟩
  · exact (List.mem_append.mp hx).elim (hu.ne_nil x) (hv.ne_nil x)
  · exact (List.mem_append.mp hx).elim (hu.accepted x) (hv.accepted x)

theorem isSegmentation_singleton {w : List α} (hw : w ≠ []) (hp : P w) :
    IsSegmentation P w [w] :=
  isSegmentation_cons_iff.mpr ⟨hw, hp, [], (List.append_nil w).symm, isSegmentation_nil_iff.mpr rfl⟩

theorem IsSegmentation.length_le {w : List α} {ws : List (List α)} {k : ℕ}
    (h : IsSegmentation P w ws) (hP : ∀ x ∈ ws, P x → x.length ≤ k) :
    w.length ≤ k * ws.length := by
  induction ws generalizing w with
  | nil =>
    rw [← h.flatten_eq]
    exact Nat.zero_le _
  | cons x ws ih =>
    obtain ⟨-, hx, v, rfl, hv⟩ := isSegmentation_cons_iff.mp h
    have hlen := hP x List.mem_cons_self hx
    have hrest := ih hv fun y hy => hP y (List.mem_cons_of_mem _ hy)
    rw [List.length_append, List.length_cons, Nat.mul_succ]
    omega

/-! ## All segmentations -/

section

variable [DecidablePred P]

/-- The segmentations of `w` whose first piece has `k + 1` elements, from those of the rest. -/
def startingWith (P : List α → Prop) [DecidablePred P] (w : List α)
    (rest : List (List (List α))) (k : ℕ) : List (List (List α)) :=
  if P (w.take (k + 1)) then rest.map (w.take (k + 1) :: ·) else []

/-- All segmentations, by the length of the first piece. -/
def segmentations (P : List α → Prop) [DecidablePred P] (w : List α) : List (List (List α)) :=
  if h : w = [] then [[]]
  else (List.range w.length).flatMap fun k =>
    startingWith P w (segmentations P (w.drop (k + 1))) k
termination_by w.length
decreasing_by
  have := List.length_pos_iff.mpr h
  rw [List.length_drop]
  omega

/-- The segmentations whose first piece has more than `a` elements, and at most `b`. -/
def segmentationsFrom (P : List α → Prop) [DecidablePred P] (w : List α) (a b : ℕ) :
    List (List (List α)) :=
  (List.range' a (b - a)).flatMap fun k => startingWith P w (segmentations P (w.drop (k + 1))) k

theorem segmentations_nil : segmentations P ([] : List α) = [[]] := by
  rw [segmentations, dif_pos rfl]

theorem segmentations_of_ne {w : List α} (h : w ≠ []) :
    segmentations P w = segmentationsFrom P w 0 w.length := by
  rw [segmentations, dif_neg h, segmentationsFrom, List.range_eq_range', Nat.sub_zero]

theorem segmentationsFrom_self (w : List α) (a : ℕ) : segmentationsFrom P w a a = [] := by
  rw [segmentationsFrom, Nat.sub_self]
  rfl

theorem segmentationsFrom_cons (w : List α) {a b : ℕ} (h : a < b) :
    segmentationsFrom P w a b =
      startingWith P w (segmentations P (w.drop (a + 1))) a ++ segmentationsFrom P w (a + 1) b := by
  rw [segmentationsFrom, show b - a = b - (a + 1) + 1 by omega, List.range'_succ,
    List.flatMap_cons, segmentationsFrom]

theorem segmentationsFrom_concat (w : List α) {a b : ℕ} (h : a ≤ b) :
    segmentationsFrom P w a (b + 1) =
      segmentationsFrom P w a b ++ startingWith P w (segmentations P (w.drop (b + 1))) b := by
  rw [segmentationsFrom, show b + 1 - a = b - a + 1 by omega, List.range'_concat,
    List.flatMap_append, segmentationsFrom, List.flatMap_singleton,
    show a + 1 * (b - a) = b by omega]

theorem mem_startingWith {w : List α} {rest : List (List (List α))} {k : ℕ}
    {ws : List (List α)} : ws ∈ startingWith P w rest k ↔
      P (w.take (k + 1)) ∧ ∃ vs ∈ rest, w.take (k + 1) :: vs = ws := by
  unfold startingWith
  split_ifs with hp
  · rw [List.mem_map, and_iff_right hp]
  · simp [hp]

/-- **The segmentations are all there.** -/
theorem mem_segmentations {w : List α} {ws : List (List α)} :
    ws ∈ segmentations P w ↔ IsSegmentation P w ws := by
  induction hn : w.length using Nat.strong_induction_on generalizing w ws with
  | _ n ih =>
    by_cases hw : w = []
    · subst hw
      rw [segmentations_nil, isSegmentation_nil_iff, List.mem_singleton]
    have hpos := List.length_pos_iff.mpr hw
    rw [segmentations_of_ne hw, segmentationsFrom, List.mem_flatMap]
    have hrest : ∀ k vs, vs ∈ segmentations P (w.drop (k + 1)) ↔
        IsSegmentation P (w.drop (k + 1)) vs := fun k vs =>
      ih _ (by rw [List.length_drop]; omega) rfl
    constructor
    · rintro ⟨k, -, hk⟩
      obtain ⟨hp, vs, hvs, rfl⟩ := mem_startingWith.mp hk
      refine isSegmentation_cons_iff.mpr ⟨?_, hp, w.drop (k + 1), ?_, (hrest k vs).mp hvs⟩
      · simp [hw]
      · rw [List.take_append_drop]
    · intro hseg
      cases ws with
      | nil => exact absurd hseg.flatten_eq.symm hw
      | cons x vs =>
        obtain ⟨hx, hp, v, rfl, hv⟩ := isSegmentation_cons_iff.mp hseg
        have hxpos := List.length_pos_iff.mpr hx
        obtain ⟨k, hk⟩ : ∃ k, x.length = k + 1 := ⟨x.length - 1, by omega⟩
        have htake : (x ++ v).take (k + 1) = x := by rw [← hk, List.take_left]
        have hdrop : (x ++ v).drop (k + 1) = v := by rw [← hk, List.drop_left]
        refine ⟨k, List.mem_range'_1.mpr (by rw [List.length_append]; omega), ?_⟩
        refine mem_startingWith.mpr ⟨by rwa [htake], vs, (hrest k vs).mpr (by rwa [hdrop]), ?_⟩
        rw [htake]

/-- **No segmentation comes twice.** -/
theorem nodup_segmentations (w : List α) : (segmentations P w).Nodup := by
  induction hn : w.length using Nat.strong_induction_on generalizing w with
  | _ n ih =>
    by_cases hw : w = []
    · subst hw
      rw [segmentations_nil]
      exact List.nodup_singleton _
    have hpos := List.length_pos_iff.mpr hw
    rw [segmentations_of_ne hw, segmentationsFrom, List.nodup_flatMap]
    constructor
    · intro k _
      unfold startingWith
      split_ifs
      · refine (ih _ ?_ _ rfl).map fun vs vs' h => (List.cons.inj h).2
        rw [List.length_drop]
        omega
      · exact List.nodup_nil
    · -- first pieces of different lengths
      refine (List.pairwise_lt_range' 1).imp_of_mem fun {i j} hi hj hij => ?_
      rw [List.mem_range'_1] at hi hj
      intro ws hi' hj'
      obtain ⟨-, vs, -, rfl⟩ := mem_startingWith.mp hi'
      obtain ⟨-, vs', -, h⟩ := mem_startingWith.mp hj'
      have hl := congrArg List.length (List.cons.inj h).1
      rw [List.length_take, List.length_take] at hl
      omega

end

/-! ## Whether there is one -/

/-- Some segmentation exists. -/
def Segmentable (P : List α → Prop) (w : List α) : Prop := ∃ ws, IsSegmentation P w ws

theorem segmentable_nil : Segmentable P [] := ⟨[], isSegmentation_nil_iff.mpr rfl⟩

/-- A non-empty list is segmentable when it is accepted as it is, or when it can be cut in two such
lists. -/
theorem segmentable_iff {w : List α} (hw : w ≠ []) :
    Segmentable P w ↔ P w ∨ ∃ u v, w = u ++ v ∧ u ≠ [] ∧ v ≠ [] ∧ Segmentable P u ∧
      Segmentable P v := by
  constructor
  · rintro ⟨ws, hws⟩
    cases ws with
    | nil => exact absurd hws.flatten_eq.symm hw
    | cons x vs =>
      obtain ⟨hx, hp, v, rfl, hv⟩ := isSegmentation_cons_iff.mp hws
      by_cases hv' : v = []
      · subst hv'
        rw [List.append_nil]
        exact .inl hp
      · exact .inr ⟨x, v, rfl, hx, hv', ⟨[x], isSegmentation_singleton hx hp⟩, vs, hv⟩
  · rintro (hp | ⟨u, v, rfl, -, -, ⟨us, hu⟩, vs, hv⟩)
    · exact ⟨[w], isSegmentation_singleton hw hp⟩
    · exact ⟨us ++ vs, hu.append hv⟩

end Sperm
