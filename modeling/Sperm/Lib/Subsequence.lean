import Mathlib.Data.List.GetD
import Mathlib.Data.List.Sort
import Mathlib.Data.List.Sublists
import Mathlib.Data.Set.Card
import Mathlib.Tactic.Common

/-!
# Subsequences

* `spellings s t`: the increasing tuples of positions of `s` that spell `t`.
* `occurrences`: their number; `occurrences_eq_zero`, where `t` is the longer one.
* `IsShuffle x y z`: the elements of `z` can be marked such that those with a mark are `x` and the
  others are `y`; `isShuffle_nil_left`, `isShuffle_nil_right`, **`isShuffle_concat`**.
-/

namespace Subsequence

variable {α : Type} {s t : List α} {ps : List ℕ} {p : ℕ}

theorem take_succ_getD (d : α) (h : p < s.length) : s.take (p + 1) = s.take p ++ [s.getD p d] := by
  rw [List.getD_eq_getElem _ _ h, List.take_succ_eq_append_getElem h]

/-- The increasing tuples of positions of `s` that spell `t`. -/
def spellings (s t : List α) : Set (List ℕ) :=
  {ps | ps.Pairwise (· < ·) ∧ ps.map (fun p => s[p]?) = t.map some}

/-- The number of tuples that spell `t`. -/
noncomputable def occurrences (s t : List α) : ℕ := (spellings s t).ncard

theorem length_eq (h : ps ∈ spellings s t) : ps.length = t.length := by
  have hlen := congrArg List.length h.2
  rwa [List.length_map, List.length_map] at hlen

theorem lt_length (h : ps ∈ spellings s t) (hp : p ∈ ps) : p < s.length := by
  have hmem : s[p]? ∈ t.map some := by
    rw [← h.2]
    exact List.mem_map_of_mem hp
  obtain ⟨c, -, hc⟩ := List.mem_map.mp hmem
  exact (List.getElem?_eq_some_iff.mp hc.symm).1

theorem sublist_range (h : ps ∈ spellings s t) : ps.Sublist (List.range s.length) := by
  have hsubset : ps ⊆ List.range s.length := fun p hp => List.mem_range.mpr (lt_length h hp)
  have hnodup : ps.Nodup := h.1.imp ne_of_lt
  exact List.sublist_of_subperm_of_pairwise (List.subperm_of_subset hnodup hsubset) h.1
    List.pairwise_lt_range

theorem occurrences_eq_zero (h : s.length < t.length) : occurrences s t = 0 := by
  have hempty : spellings s t = ∅ := by
    refine Set.eq_empty_of_forall_notMem fun ps hps => ?_
    have hlen := (sublist_range hps).length_le
    rw [length_eq hps, List.length_range] at hlen
    omega
  rw [occurrences, hempty, Set.ncard_empty]

/-! ## Complementary subsequences -/

variable {x y z : List α} {a b c : α}

/-- `z` is made of the complementary subsequences `x` and `y`. -/
def IsShuffle (x y z : List α) : Prop :=
  ∃ marked : List (α × Bool), marked.map Prod.fst = z ∧
    (marked.filter fun p => p.2).map Prod.fst = x ∧
      (marked.filter fun p => !p.2).map Prod.fst = y

theorem isShuffle_nil_right : IsShuffle x [] z ↔ x = z := by
  constructor
  · rintro ⟨marked, rfl, rfl, hy⟩
    rw [List.map_eq_nil_iff, List.filter_eq_nil_iff] at hy
    have hall : marked.filter (fun p => p.2) = marked := by
      rw [List.filter_eq_self]
      simpa using hy
    rw [hall]
  · rintro rfl
    exact ⟨x.map fun c => (c, true), by simp [List.filter_map, Function.comp_def]⟩

theorem isShuffle_comm : IsShuffle x y z ↔ IsShuffle y x z := by
  have hswap : ∀ x y : List α, IsShuffle x y z → IsShuffle y x z := by
    rintro x y ⟨marked, hz, hx, hy⟩
    refine ⟨marked.map fun p => (p.1, !p.2), ?_, ?_, ?_⟩
    · simpa [Function.comp_def] using hz
    · simpa [List.filter_map, Function.comp_def] using hy
    · simpa [List.filter_map, Function.comp_def] using hx
  exact ⟨hswap x y, hswap y x⟩

theorem isShuffle_nil_left : IsShuffle [] y z ↔ y = z :=
  isShuffle_comm.trans isShuffle_nil_right

theorem IsShuffle.length_eq (h : IsShuffle x y z) : x.length + y.length = z.length := by
  obtain ⟨marked, rfl, rfl, rfl⟩ := h
  have hsplit := List.length_eq_length_filter_add (fun p : α × Bool => p.2) (l := marked)
  simpa using hsplit.symm

theorem IsShuffle.concat_left (h : IsShuffle x y z) (c : α) :
    IsShuffle (x ++ [c]) y (z ++ [c]) := by
  obtain ⟨marked, rfl, rfl, rfl⟩ := h
  exact ⟨marked ++ [(c, true)], by simp⟩

/-- **The last element** is the last one of `x` or the last one of `y`. -/
theorem isShuffle_concat : IsShuffle x y (z ++ [c]) ↔
    (∃ x', x = x' ++ [c] ∧ IsShuffle x' y z) ∨ ∃ y', y = y' ++ [c] ∧ IsShuffle x y' z := by
  constructor
  · rintro ⟨marked, hz, rfl, rfl⟩
    rcases List.eq_nil_or_concat marked with rfl | ⟨marked, ⟨d, b⟩, rfl⟩
    · simp at hz
    · rw [List.concat_eq_append] at hz ⊢
      rw [List.map_append] at hz
      obtain ⟨rfl, hd⟩ := List.append_inj' hz rfl
      obtain rfl : d = c := by simpa using hd
      cases b with
      | true => exact .inl ⟨_, by simp, marked, rfl, rfl, by simp⟩
      | false => exact .inr ⟨_, by simp, marked, rfl, by simp, rfl⟩
  · rintro (⟨x', rfl, h⟩ | ⟨y', rfl, h⟩)
    · exact h.concat_left c
    · exact isShuffle_comm.mp ((isShuffle_comm.mp h).concat_left c)

theorem isShuffle_concat_concat : IsShuffle (x ++ [a]) (y ++ [b]) (z ++ [c]) ↔
    (a = c ∧ IsShuffle x (y ++ [b]) z) ∨ (b = c ∧ IsShuffle (x ++ [a]) y z) := by
  rw [isShuffle_concat]
  apply or_congr
  · constructor
    · rintro ⟨x', hx, h⟩
      obtain ⟨rfl, rfl⟩ := List.append_singleton_inj.mp hx
      exact ⟨rfl, h⟩
    · rintro ⟨rfl, h⟩
      exact ⟨x, rfl, h⟩
  · constructor
    · rintro ⟨y', hy, h⟩
      obtain ⟨rfl, rfl⟩ := List.append_singleton_inj.mp hy
      exact ⟨rfl, h⟩
    · rintro ⟨rfl, h⟩
      exact ⟨y, rfl, h⟩

end Subsequence
