import Mathlib.Algebra.BigOperators.Group.List.Basic
import Mathlib.Data.Set.Basic
import Mathlib.Order.Basic
import Sperm.Lib.Loop
import Sperm.Lib.Sorted

/-!
# The closest sum of three (`three-sum-closest.cc`)

The list is sorted. The first value is taken from the left and the last one from the right, and
a binary search between them finds the neighbours of the value that is missing.

* `closer`: the offset that is kept of two.
* `threeSumClosest` with `scan`, `C`, `B`: the model.
* `Nearest`: the offset of a set that is closest to `0`; `Nearest.union`, `C_nearest`.
* **`scan_nearest`**: the loop from the right, which stops at an offset of `0`.
* **`threeSumClosest_spec`**: no sum of three is closer to the target.

Sums are integers.
-/

namespace Sperm.Leetcode.ThreeSumClosest

open Sorted

/-- `if(!init || abs(res) > abs(c)) { res = c; init = true; }`, where `none` stands for `!init`. -/
def closer (res : Option ℤ) (c : ℤ) : Option ℤ :=
  match res with
  | none => some c
  | some r => if |r| > |c| then some c else some r

/-- `B(number, s, e, x)`. -/
def B (number : List ℤ) (s e x : ℤ) : ℤ :=
  place (fun m => number.getD (m + s).toNat 0) x 0 (e - s) + s

/-- `C(number, s, e, x)`. -/
def C (number : List ℤ) (s e x : ℤ) : ℤ :=
  let xp := B number s e x
  let res := if xp ≥ s then closer none (number.getD xp.toNat 0 - x) else none
  let res := if xp + 1 ≤ e then closer res (number.getD (xp + 1).toNat 0 - x) else res
  res.getD (-1)

/-- The loop over `j`, from `i + 1 + k` down to `i + 2`, with its `res`. -/
def scan (number : List ℤ) (target : ℤ) (i : ℕ) : ℕ → Option ℤ → Option ℤ
  | 0, res => res
  | k + 1, res =>
    let j := i + 2 + k
    let xi := number.getD i 0
    let xj := number.getD j 0
    let xz := target - xi - xj
    let c := C number (i + 1) (j - 1) xz
    let res := closer res c
    if c = 0 then res else scan number target i k res

/-- `threeSumClosest(number, target)`. -/
def threeSumClosest (number : List ℤ) (target : ℤ) : ℤ :=
  let number := number.mergeSort
  let n := number.length
  let res := (List.range (n - 2)).foldl (fun res i => scan number target i (n - 2 - i) res) none
  res.getD (-1) + target

/-! ## The offset that is closest to zero -/

/-- `res` is the offset in `P` that is closest to `0`, if there is any. -/
def Nearest (P : Set ℤ) (res : Option ℤ) : Prop :=
  (∀ c ∈ P, ∃ r, res = some r ∧ |r| ≤ |c|) ∧ ∀ r, res = some r → r ∈ P

variable {P Q : Set ℤ} {res : Option ℤ} {c : ℤ}

theorem nearest_empty : Nearest ∅ none := ⟨nofun, nofun⟩

theorem Nearest.union (hP : Nearest P res) (hQ : Nearest Q (some c)) :
    Nearest (P ∪ Q) (closer res c) := by
  obtain ⟨hle, hmem⟩ := hP
  obtain ⟨hle', hmem'⟩ := hQ
  have hc := hmem' c rfl
  have hmin : ∀ d ∈ Q, |c| ≤ |d| := by
    intro d hd
    obtain ⟨r, hr, hrd⟩ := hle' d hd
    rwa [Option.some_inj.mp hr]
  cases res with
  | none =>
    refine ⟨fun d hd => ?_, fun r hr => .inr (Option.some_inj.mp hr ▸ hc)⟩
    rcases hd with hd | hd
    · obtain ⟨r, hr, -⟩ := hle d hd
      cases hr
    · exact ⟨c, rfl, hmin d hd⟩
  | some r =>
    have hmin' : ∀ d ∈ P, |r| ≤ |d| := by
      intro d hd
      obtain ⟨r', hr, hrd⟩ := hle d hd
      rwa [Option.some_inj.mp hr]
    by_cases hlt : |c| < |r|
    · rw [closer, if_pos hlt]
      refine ⟨fun d hd => ⟨c, rfl, ?_⟩, fun r' hr => .inr (Option.some_inj.mp hr ▸ hc)⟩
      rcases hd with hd | hd
      · exact hlt.le.trans (hmin' d hd)
      · exact hmin d hd
    · rw [closer, if_neg hlt]
      refine ⟨fun d hd => ⟨r, rfl, ?_⟩, fun r' hr => .inl (Option.some_inj.mp hr ▸ hmem r rfl)⟩
      rcases hd with hd | hd
      · exact hmin' d hd
      · exact (not_lt.mp hlt).trans (hmin d hd)

/-- Offsets may be left out if there is one of `0`. -/
theorem Nearest.of_zero (h : Nearest P res) (hzero : (0 : ℤ) ∈ P) (hsub : P ⊆ Q) :
    Nearest Q res := by
  obtain ⟨r, rfl, hr⟩ := h.1 0 hzero
  refine ⟨fun c _ => ⟨r, rfl, ?_⟩, fun r' hr' => hsub (h.2 r' hr')⟩
  rw [abs_zero] at hr
  exact hr.trans (abs_nonneg c)

/-! ## The search -/

variable {number : List ℤ} {target x : ℤ} {i j k m n s : ℕ}

/-- The offsets of the values from `s` on and below `j`. -/
def offsets (number : List ℤ) (x : ℤ) (s j : ℕ) : Set ℤ :=
  {y | ∃ q, s ≤ q ∧ q < j ∧ number.getD q 0 - x = y}

theorem offsets_union (hs : s ≤ m) (hj : m ≤ j) :
    offsets number x s m ∪ offsets number x m j = offsets number x s j := by
  ext y
  constructor
  · rintro (⟨q, hq, hqm, hy⟩ | ⟨q, hq, hqj, hy⟩)
    · exact ⟨q, hq, by omega, hy⟩
    · exact ⟨q, by omega, hqj, hy⟩
  · rintro ⟨q, hq, hqj, hy⟩
    by_cases hqm : q < m
    · exact .inl ⟨q, hq, hqm, hy⟩
    · exact .inr ⟨q, by omega, hqj, hy⟩

/-- The search ends behind the values that are not larger than `x`. -/
theorem B_spec (hsorted : number.Pairwise (· ≤ ·)) (hs : s < j) (hj : j < number.length) (x : ℤ) :
    ∃ m, s ≤ m ∧ m ≤ j ∧ B number s (j - 1) x = m - 1 ∧
      (∀ q, s ≤ q → q < m → number.getD q 0 ≤ x) ∧ ∀ q, m ≤ q → q < j → x ≤ number.getD q 0 := by
  obtain ⟨hlow, hhigh, hbelow, habove⟩ := place_spec (x := x) (u := 0) (v := (j : ℤ) - 1 - s)
    (f := fun m => number.getD (m + s).toNat 0)
    (fun p q hp hpq hq => getD_mono hsorted _ _ (by omega) (by omega)) (by omega)
  refine ⟨(B number s (j - 1) x + 1).toNat, ?_, ?_, ?_, fun q hq hqm => ?_, fun q hq hqj => ?_⟩
  · unfold B
    omega
  · unfold B
    omega
  · unfold B
    omega
  · have hval := hbelow (q - s) (by omega) (by unfold B at hqm; omega)
    rwa [sub_add_cancel, Int.toNat_natCast] at hval
  · have hval := habove (q - s) (by unfold B at hq; omega) (by omega)
    rwa [sub_add_cancel, Int.toNat_natCast] at hval

/-- **The neighbours** of `x` have the closest offset to it. -/
theorem C_nearest (hsorted : number.Pairwise (· ≤ ·)) (hs : s < j) (hj : j < number.length)
    (x : ℤ) : Nearest (offsets number x s j) (some (C number s (j - 1) x)) := by
  obtain ⟨m, hsm, hmj, hB, hbelow, habove⟩ := B_spec hsorted hs hj x
  have hmono := getD_mono (d := 0) hsorted
  have hleft : s < m → Nearest (offsets number x s m) (some (number.getD (m - 1) 0 - x)) := by
    intro hlt
    refine ⟨?_, fun r hr => ⟨m - 1, by omega, by omega, Option.some_inj.mp hr⟩⟩
    rintro c ⟨q, hq, hqm, rfl⟩
    have hle := hmono q (m - 1) (by omega) (by omega)
    have hx := hbelow (m - 1) (by omega) (by omega)
    exact ⟨_, rfl, by rw [abs_of_nonpos (by omega), abs_of_nonpos (by omega)]; omega⟩
  have hright : m < j → Nearest (offsets number x m j) (some (number.getD m 0 - x)) := by
    intro hlt
    refine ⟨?_, fun r hr => ⟨m, le_rfl, hlt, Option.some_inj.mp hr⟩⟩
    rintro c ⟨q, hq, hqj, rfl⟩
    have hle := hmono m q hq (by omega)
    have hx := habove m le_rfl hlt
    exact ⟨_, rfl, by rw [abs_of_nonneg (by omega), abs_of_nonneg (by omega)]; omega⟩
  have hxp : ((m : ℤ) - 1).toNat = m - 1 := by omega
  rw [C, hB, sub_add_cancel, Int.toNat_natCast, hxp]
  rcases hsm.eq_or_lt with rfl | hsm
  · have hge : ¬ ((s : ℤ) - 1 ≥ s) := by omega
    have hle : (s : ℤ) ≤ j - 1 := by omega
    rw [if_neg hge, if_pos hle]
    exact hright hs
  · have hge : (m : ℤ) - 1 ≥ s := by omega
    rw [if_pos hge]
    rcases hmj.eq_or_lt with rfl | hmj
    · have hle : ¬ ((m : ℤ) ≤ m - 1) := by omega
      rw [if_neg hle]
      exact hleft hsm
    · have hle : (m : ℤ) ≤ j - 1 := by omega
      have hunion := (hleft hsm).union (hright hmj)
      rw [offsets_union hsm.le hmj.le] at hunion
      rw [if_pos hle]
      simp only [closer] at hunion ⊢
      split_ifs at hunion ⊢
      · exact hunion
      · exact hunion

/-! ## The loops -/

/-- The offsets of the sums with the first value at `i` and the last one below `n`. -/
def sums (number : List ℤ) (target : ℤ) (i n : ℕ) : Set ℤ :=
  {y | ∃ q j, i < q ∧ q < j ∧ j < n ∧
    number.getD i 0 + number.getD q 0 + number.getD j 0 - target = y}

theorem sums_succ (hn : i + 2 ≤ n) : sums number target i (n + 1) =
    offsets number (target - number.getD i 0 - number.getD n 0) (i + 1) n ∪
      sums number target i n := by
  ext y
  constructor
  · rintro ⟨q, j, hq, hqj, hj, hy⟩
    by_cases hjn : j = n
    · subst hjn
      exact .inl ⟨q, hq, hqj, by omega⟩
    · exact .inr ⟨q, j, hq, hqj, by omega, hy⟩
  · rintro (⟨q, hq, hqn, hy⟩ | ⟨q, j, hq, hqj, hj, hy⟩)
    · exact ⟨q, n, hq, hqn, by omega, by omega⟩
    · exact ⟨q, j, hq, hqj, by omega, hy⟩

/-- **The loop** from the right leaves nothing out, though it stops at `0`. -/
theorem scan_nearest (hsorted : number.Pairwise (· ≤ ·)) (target : ℤ)
    (hk : i + 2 + k ≤ number.length) (hP : Nearest P res) :
    Nearest (P ∪ sums number target i (i + 2 + k)) (scan number target i k res) := by
  induction k generalizing P res with
  | zero =>
    have hnone : sums number target i (i + 2) = ∅ := by
      ext y
      refine iff_of_false ?_ id
      rintro ⟨q, j, hq, hqj, hj, -⟩
      omega
    rwa [add_zero, hnone, Set.union_empty]
  | succ k ih =>
    have hj : ((i + 2 + k : ℕ) : ℤ) - 1 = i + 1 + k := by omega
    have hC := C_nearest hsorted (s := i + 1) (j := i + 2 + k) (by omega) (by omega)
      (target - number.getD i 0 - number.getD (i + 2 + k) 0)
    have hunion := hP.union hC
    rw [← add_assoc, sums_succ (by omega), ← Set.union_assoc]
    simp only [scan]
    push_cast at hunion hC ⊢
    split_ifs with hzero
    · have hmem := hC.2 _ rfl
      rw [hzero] at hmem
      exact hunion.of_zero (.inr hmem) Set.subset_union_left
    · exact ih (by omega) hunion

theorem foldl_nearest (hsorted : number.Pairwise (· ≤ ·)) (target : ℤ) (m : ℕ)
    (hm : m ≤ number.length - 2) :
    Nearest {y | ∃ i < m, y ∈ sums number target i number.length}
      ((List.range m).foldl (fun res i => scan number target i (number.length - 2 - i) res)
        none) := by
  refine Loop.foldl_range
    (P := fun m res => Nearest {y | ∃ i < m, y ∈ sums number target i number.length} res) ?_ ?_
  · have hnone : {y | ∃ i < 0, y ∈ sums number target i number.length} = ∅ := by simp
    rw [hnone]
    exact nearest_empty
  · intro i hi res h
    have hk : i + 2 + (number.length - 2 - i) ≤ number.length := by omega
    have hscan := scan_nearest hsorted target hk h
    have hlen : i + 2 + (number.length - 2 - i) = number.length := by omega
    rw [hlen] at hscan
    refine Eq.subst (motive := fun P => Nearest P _) ?_ hscan
    ext y
    constructor
    · rintro (⟨j, hj, hy⟩ | hy)
      · exact ⟨j, by omega, hy⟩
      · exact ⟨i, by omega, hy⟩
    · rintro ⟨j, hj, hy⟩
      by_cases hji : j = i
      · exact .inr (hji ▸ hy)
      · exact .inl ⟨j, by omega, hy⟩

/-! ## The result -/

/-- Three values from distinct positions have the sum of three values in the sorted list. -/
theorem taken_iff_sums {l : List ℤ} (hperm : l.Perm number) {y : ℤ} :
    (∃ a b c, Taken number [a, b, c] ∧ a + b + c - target = y) ↔
      ∃ i < l.length - 2, y ∈ sums l target i l.length := by
  constructor
  · rintro ⟨a, b, c, htaken, hy⟩
    rw [taken_iff_subperm, ← hperm.subperm_left] at htaken
    obtain ⟨t, ht, hsub⟩ := htaken
    obtain ⟨p, q, r, rfl⟩ := List.length_eq_three.mp ht.length_eq
    have hsum : p + q + r = a + b + c := by simpa [add_assoc] using ht.sum_eq
    rw [← List.drop_zero (l := l), cons_sublist_drop 0] at hsub
    obtain ⟨i, -, hi, rfl, hsub⟩ := hsub
    obtain ⟨j, hij, hj, rfl, hlast⟩ := (cons_sublist_drop 0).mp hsub
    obtain ⟨k, hjk, hk, rfl, -⟩ := (cons_sublist_drop 0).mp hlast
    exact ⟨i, by omega, j, k, by omega, by omega, hk, by omega⟩
  · rintro ⟨i, hi, j, k, hij, hjk, hk, hy⟩
    refine ⟨_, _, _, ?_, hy⟩
    rw [taken_iff_subperm, ← hperm.subperm_left]
    refine List.Sublist.subperm ?_
    rw [← List.drop_zero (l := l), cons_sublist_drop 0]
    refine ⟨i, by omega, by omega, by simp, (cons_sublist_drop 0).mpr ⟨j, hij, by omega, ?_⟩⟩
    exact ⟨by simp, (cons_sublist_drop 0).mpr ⟨k, hjk, hk, by simp, List.nil_sublist _⟩⟩

/-- **The closest sum** of three values at distinct positions. -/
theorem threeSumClosest_spec (number : List ℤ) (target : ℤ) (h : 3 ≤ number.length) :
    (∃ a b c, Taken number [a, b, c] ∧ a + b + c = threeSumClosest number target) ∧
      ∀ a b c, Taken number [a, b, c] →
        |threeSumClosest number target - target| ≤ |a + b + c - target| := by
  have hsorted : number.mergeSort.Pairwise (· ≤ ·) := List.pairwise_mergeSort' _ _
  have hperm : number.mergeSort.Perm number := List.mergeSort_perm _ _
  have hlen := hperm.length_eq
  obtain ⟨hle, hmem⟩ := foldl_nearest hsorted target _ le_rfl
  obtain ⟨r, hr, -⟩ := hle _ ⟨0, by omega, 1, 2, by omega, by omega, by omega, rfl⟩
  have hres : threeSumClosest number target = r + target := by
    rw [threeSumClosest, hr, Option.getD_some]
  rw [hres, add_sub_cancel_right]
  constructor
  · obtain ⟨a, b, c, htaken, hsum⟩ := (taken_iff_sums hperm).mpr (hmem r hr)
    exact ⟨a, b, c, htaken, by omega⟩
  · intro a b c htaken
    obtain ⟨r', hr', hle'⟩ := hle _ ((taken_iff_sums hperm).mp ⟨a, b, c, htaken, rfl⟩)
    obtain rfl := Option.some_inj.mp (hr.symm.trans hr')
    exact hle'

/-- The list of the program's own test. -/
theorem threeSumClosest_three :
    (∃ a b c, Taken [0, 1, 2] [a, b, c] ∧ a + b + c = threeSumClosest [0, 1, 2] 4) ∧
      ∀ a b c, Taken [0, 1, 2] [a, b, c] →
        |threeSumClosest [0, 1, 2] 4 - 4| ≤ |a + b + c - 4| :=
  threeSumClosest_spec [0, 1, 2] 4 (by decide)

end Sperm.Leetcode.ThreeSumClosest
