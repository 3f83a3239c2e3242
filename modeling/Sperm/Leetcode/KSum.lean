import Mathlib.Order.Basic
import Sperm.Lib.Sorted

/-!
# Sums of three and of four (`three-sum.cc`, `four-sum.cc`)

The list is sorted. The first value is taken from the left and the last one from the right, equal
neighbours being passed over, and the value that is left is looked for between them.

* `isOK`, `scan`: the search and the loop from the right, which both programs have.
* `threeSum`, `fourSum`: the model.
* **`mem_scan`**: what the loop finds, though it stops early.
* **`threeSum_fourSum_spec`**: the values in order from distinct positions with the right sum, each
  once.

Sums are integers.
-/

namespace Sperm.Leetcode.KSum

open Sorted

/-- `isOK(num, s, e, x)`. -/
def isOK (num : List ℤ) (s e x : ℤ) : Bool :=
  search (fun m => num.getD (m + s).toNat 0) x 0 (e - s)

/-- The loop over `j`, from `lo + 1 + c` down to `lo + 2`. The programs differ in when they `break`
for `xj`, in the value `xz` that is left, in the values of it that they pass over, and in `r`. -/
def scan (num : List ℤ) (lo : ℕ) (stop : ℤ → Bool) (left : ℤ → ℤ) (skip : ℤ → Bool)
    (r : ℤ → ℤ → List ℤ) : ℕ → List (List ℤ)
  | 0 => []
  | c + 1 =>
    let j := lo + 2 + c
    let xj := num.getD j 0
    if j ≠ num.length - 1 ∧ xj = num.getD (j + 1) 0 then scan num lo stop left skip r c
    else if stop xj then []
    else
      let xz := left xj
      if xz > xj then []
      else if skip xz then scan num lo stop left skip r c
      else if isOK num (lo + 1) (j - 1) xz then r xz xj :: scan num lo stop left skip r c
      else scan num lo stop left skip r c

/-- `threeSum(num)`. -/
def threeSum (num : List ℤ) : List (List ℤ) :=
  let num := num.mergeSort
  let n := num.length
  (List.range (n - 2)).flatMap fun i =>
    let xi := num.getD i 0
    if i ≠ 0 ∧ xi = num.getD (i - 1) 0 then []
    else scan num i (fun xj => xj < xi) (fun xj => -(xi + xj)) (fun xz => xz < xi)
      (fun xz xj => [xi, xz, xj]) (n - 2 - i)

/-- `fourSum(num, target)`. -/
def fourSum (num : List ℤ) (target : ℤ) : List (List ℤ) :=
  let num := num.mergeSort
  let n := num.length
  (List.range (n - 3)).flatMap fun i =>
    let xi := num.getD i 0
    if i ≠ 0 ∧ xi = num.getD (i - 1) 0 then []
    else (List.range' (i + 1) (n - 2 - (i + 1))).flatMap fun k =>
      let xk := num.getD k 0
      if k ≠ i + 1 ∧ xk = num.getD (k - 1) 0 then []
      else scan num k (fun _ => false) (fun xj => target - (xi + xj + xk))
        (fun xz => xz < xi || xz < xk) (fun xz xj => [xi, xk, xz, xj]) (n - 2 - k)

/-! ## The loop from the right -/

section Scan

variable {num : List ℤ} {lo c : ℕ} {stop : ℤ → Bool} {left : ℤ → ℤ} {skip : ℤ → Bool}
  {r : ℤ → ℤ → List ℤ} {t : List ℤ}

theorem isOK_iff (hsorted : num.Pairwise (· ≤ ·)) {j : ℕ} (hj : j < num.length) (x : ℤ) :
    isOK num (lo + 1) (j - 1) x = true ↔ ∃ q, lo < q ∧ q < j ∧ num.getD q 0 = x := by
  rw [isOK, search_iff fun p q hp hpq hq => getD_mono hsorted _ _ (by omega) (by omega)]
  constructor
  · rintro ⟨m, hm, hle, hx⟩
    exact ⟨(m + (lo + 1)).toNat, by omega, by omega, hx⟩
  · rintro ⟨q, hlo, hq, hx⟩
    refine ⟨q - (lo + 1), by omega, by omega, ?_⟩
    rw [sub_add_cancel, Int.toNat_natCast]
    exact hx

/-- What a place `j` gives. -/
structure Gives (num : List ℤ) (lo : ℕ) (left : ℤ → ℤ) (skip : ℤ → Bool) (j : ℕ) : Prop where
  last : LastOf (num.getD · 0) num.length j
  le : left (num.getD j 0) ≤ num.getD j 0
  large : skip (left (num.getD j 0)) = false
  between : ∃ q, lo < q ∧ q < j ∧ num.getD q 0 = left (num.getD j 0)

/-- **The loop** finds every value that is left between two places, though it stops early. -/
theorem mem_scan (hsorted : num.Pairwise (· ≤ ·)) (hc : lo + 2 + c ≤ num.length)
    (hstop : ∀ j, lo < j → j < num.length → stop (num.getD j 0) = false)
    (hleft : ∀ x y, x ≤ y → left y ≤ left x) :
    t ∈ scan num lo stop left skip r c ↔ ∃ j, lo + 2 ≤ j ∧ j < lo + 2 + c ∧
      Gives num lo left skip j ∧ t = r (left (num.getD j 0)) (num.getD j 0) := by
  induction c with
  | zero =>
    simp only [scan, List.not_mem_nil, false_iff]
    rintro ⟨j, hlo, hj, -⟩
    omega
  | succ c ih =>
    have hj : lo + 2 + c < num.length := by omega
    have hok := @isOK_iff num lo hsorted _ hj (left (num.getD (lo + 2 + c) 0))
    -- the places below, or this one
    have hsplit : (∃ j, lo + 2 ≤ j ∧ j < lo + 2 + (c + 1) ∧ Gives num lo left skip j ∧
          t = r (left (num.getD j 0)) (num.getD j 0)) ↔
        (Gives num lo left skip (lo + 2 + c) ∧
          t = r (left (num.getD (lo + 2 + c) 0)) (num.getD (lo + 2 + c) 0)) ∨
        t ∈ scan num lo stop left skip r c := by
      rw [ih (by omega)]
      constructor
      · rintro ⟨j, hlo, hlt, h⟩
        rcases Nat.lt_succ_iff_lt_or_eq.mp (by omega : j < (lo + 2 + c).succ) with hless | rfl
        · exact .inr ⟨j, hlo, hless, h⟩
        · exact .inl h
      · rintro (h | ⟨j, hlo, hlt, h⟩)
        · exact ⟨lo + 2 + c, by omega, by omega, h⟩
        · exact ⟨j, hlo, by omega, h⟩
    rw [hsplit, scan]
    dsimp only
    rw [if_neg (by rw [hstop _ (by omega) hj]; simp : ¬ stop (num.getD (lo + 2 + c) 0) = true)]
    split_ifs with hdup hbreak hskip hisOK
    · refine (or_iff_right ?_).symm
      rintro ⟨hgives, -⟩
      rcases hgives.last.2 with hlast | hne
      · exact hdup.1 hlast
      · exact hne hdup.2
    · -- for a place further left more is left, and less is allowed
      simp only [List.not_mem_nil, false_iff, not_or]
      refine ⟨fun h => absurd h.1.le (not_le.mpr hbreak), fun h => ?_⟩
      obtain ⟨j, hlo, hlt, hgives, -⟩ := (ih (by omega)).mp h
      have hmono := getD_mono (d := 0) hsorted j (lo + 2 + c) (by omega) hj
      have hless := hleft _ _ hmono
      have hle := hgives.le
      omega
    · refine (or_iff_right ?_).symm
      rintro ⟨hgives, -⟩
      have hlarge := hgives.large
      rw [hskip] at hlarge
      cases hlarge
    · rw [List.mem_cons]
      refine or_congr_left ?_
      refine ⟨fun h => ⟨⟨⟨hj, ?_⟩, not_lt.mp hbreak, ?_, hok.mp ?_⟩, h⟩, fun h => h.2⟩
      · by_contra hnot
        rw [not_or, not_not] at hnot
        exact hdup hnot
      · simpa using hskip
      · simpa using hisOK
    · refine (or_iff_right ?_).symm
      rintro ⟨hgives, -⟩
      exact hisOK (by simpa using hok.mpr hgives.between)

theorem nodup_scan (hsorted : num.Pairwise (· ≤ ·)) (hc : lo + 2 + c ≤ num.length)
    (hstop : ∀ j, lo < j → j < num.length → stop (num.getD j 0) = false)
    (hleft : ∀ x y, x ≤ y → left y ≤ left x)
    (hr : ∀ z x z' x', r z x = r z' x' → x = x') :
    (scan num lo stop left skip r c).Nodup := by
  induction c with
  | zero => exact List.nodup_nil
  | succ c ih =>
    have hrest := ih (by omega)
    have hj : lo + 2 + c < num.length := by omega
    rw [scan]
    dsimp only
    split_ifs
    · exact hrest
    · exact List.nodup_nil
    · exact List.nodup_nil
    · exact hrest
    · refine List.nodup_cons.mpr ⟨fun hmem => ?_, hrest⟩
      obtain ⟨j, hlo, hlt, hgives, heq⟩ := (mem_scan hsorted (by omega) hstop hleft).mp hmem
      exact hgives.last.ne (getD_mono hsorted) hlt hj (hr _ _ _ _ heq).symm
    · exact hrest

end Scan

/-! ## The sums -/

/-- The values `t`, in order and from distinct positions of `num`, have the sum `target`. -/
def Solves (num : List ℤ) (k : ℕ) (target : ℤ) (t : List ℤ) : Prop :=
  t.length = k ∧ t.Pairwise (· ≤ ·) ∧ t.sum = target ∧ Taken num t

section Spec

variable {num l : List ℤ} {k : ℕ} {target : ℤ} {t : List ℤ}

theorem solves_iff (hl : l.Perm num) (hsorted : l.Pairwise (· ≤ ·)) :
    Solves num k target t ↔ t.length = k ∧ t.sum = target ∧ t.Sublist l := by
  constructor
  · rintro ⟨hlen, hpair, hsum, htaken⟩
    exact ⟨hlen, hsum, (taken_iff_sublist hl hsorted hpair).mp htaken⟩
  · rintro ⟨hlen, hsum, hsub⟩
    have hpair := hsorted.sublist hsub
    exact ⟨hlen, hpair, hsum, (taken_iff_sublist hl hsorted hpair).mpr hsub⟩

theorem mem_first_pass {f : ℕ → List (List ℤ)} {s c : ℕ} :
    (t ∈ (List.range' s c).flatMap fun i =>
      if i ≠ s ∧ l.getD i 0 = l.getD (i - 1) 0 then [] else f i) ↔
      ∃ i, i < s + c ∧ FirstFrom (l.getD · 0) s i ∧ t ∈ f i := by
  simp only [List.mem_flatMap, List.mem_range'_1, FirstFrom]
  refine exists_congr fun i => ?_
  split_ifs with hdup
  · simp only [List.not_mem_nil, and_false, false_iff]
    rintro ⟨-, ⟨-, hfirst⟩, -⟩
    rcases hfirst with hs | hne
    · exact hdup.1 hs
    · exact hne hdup.2
  · rw [not_and_or, not_not] at hdup
    constructor
    · rintro ⟨⟨hs, hlt⟩, ht⟩
      exact ⟨hlt, ⟨hs, hdup⟩, ht⟩
    · rintro ⟨hlt, ⟨hs, -⟩, ht⟩
      exact ⟨⟨hs, hlt⟩, ht⟩

/-- The passes have nothing in common, if what they give tells the value apart. -/
theorem nodup_first_pass {f : ℕ → List (List ℤ)} {s c : ℕ} {g : List ℤ → Option ℤ}
    (hsorted : l.Pairwise (· ≤ ·)) (hc : s + c ≤ l.length)
    (hf : ∀ i, s ≤ i → i < s + c → (f i).Nodup)
    (hg : ∀ i, s ≤ i → i < s + c → ∀ t ∈ f i, g t = some (l.getD i 0)) :
    ((List.range' s c).flatMap fun i =>
      if i ≠ s ∧ l.getD i 0 = l.getD (i - 1) 0 then [] else f i).Nodup := by
  rw [List.nodup_flatMap]
  constructor
  · intro i hi
    obtain ⟨hs, hlt⟩ := List.mem_range'_1.mp hi
    split_ifs
    · exact List.nodup_nil
    · exact hf i hs hlt
  · have hrange : (List.range' s c).Pairwise (· < ·) := List.pairwise_lt_range'
    refine hrange.imp_of_mem ?_
    intro i j hi hj hij t ht ht'
    dsimp only at ht ht'
    obtain ⟨hs, hlt⟩ := List.mem_range'_1.mp hi
    obtain ⟨hs', hlt'⟩ := List.mem_range'_1.mp hj
    split_ifs at ht
    · simp at ht
    · split_ifs at ht' with hdup
      · simp at ht'
      · rw [not_and_or, not_not] at hdup
        have hfirst : FirstFrom (l.getD · 0) s j := ⟨hs', hdup⟩
        refine hfirst.ne (getD_mono hsorted) hs hij (by omega) ?_
        have heq := (hg i hs hlt t ht).symm.trans (hg j hs' hlt' t ht')
        exact Option.some.inj heq

/-- The two largest values, if the others leave `rest` for them. -/
theorem mem_scan_iff {lo : ℕ} {stop : ℤ → Bool} {left : ℤ → ℤ} {skip : ℤ → Bool}
    {r : ℤ → ℤ → List ℤ} {rest : ℤ} (hsorted : l.Pairwise (· ≤ ·)) (hlo : lo + 2 ≤ l.length)
    (hstop : ∀ j, lo < j → j < l.length → stop (l.getD j 0) = false)
    (hleft : ∀ x, left x = rest - x)
    (hskip : ∀ q, lo < q → q < l.length → skip (l.getD q 0) = false) :
    t ∈ scan l lo stop left skip r (l.length - 2 - lo) ↔
      ∃ y z, [y, z].Sublist (l.drop (lo + 1)) ∧ y + z = rest ∧ t = r y z := by
  have hanti : ∀ x y, x ≤ y → left y ≤ left x := by
    intro x y hxy
    rw [hleft, hleft]
    omega
  rw [mem_scan hsorted (by omega) hstop hanti]
  constructor
  · rintro ⟨j, -, -, hgives, rfl⟩
    obtain ⟨q, hq, hqj, hval⟩ := hgives.between
    refine ⟨_, _, (pair_sublist_last 0).mpr ⟨j, hgives.last, rfl, q, hq, hqj, hval⟩, ?_, rfl⟩
    rw [hleft]
    omega
  · rintro ⟨y, z, hsub, hsum, rfl⟩
    obtain ⟨j, hlast, rfl, q, hq, hqj, rfl⟩ := (pair_sublist_last 0).mp hsub
    have hval : left (l.getD j 0) = l.getD q 0 := by
      rw [hleft]
      omega
    have hjn := hlast.1
    refine ⟨j, by omega, by omega, ⟨hlast, ?_, ?_, q, hq, hqj, hval.symm⟩, by rw [hval]⟩
    · rw [hval]
      exact getD_mono hsorted q j (by omega) hjn
    · rw [hval]
      exact hskip q hq (by omega)

theorem mem_scan_three (hsorted : l.Pairwise (· ≤ ·)) {i : ℕ} (hi : i + 2 ≤ l.length) :
    t ∈ scan l i (fun xj => xj < l.getD i 0) (fun xj => -(l.getD i 0 + xj))
        (fun xz => xz < l.getD i 0) (fun xz xj => [l.getD i 0, xz, xj]) (l.length - 2 - i) ↔
      ∃ y z, [y, z].Sublist (l.drop (i + 1)) ∧ y + z = -l.getD i 0 ∧ t = [l.getD i 0, y, z] := by
  have hle : ∀ j, i < j → j < l.length → l.getD i 0 ≤ l.getD j 0 :=
    fun j hij hj => getD_mono hsorted i j hij.le hj
  refine mem_scan_iff hsorted hi ?_ ?_ ?_
  · intro j hij hj
    simpa using hle j hij hj
  · intro x
    omega
  · intro q hiq hq
    simpa using hle q hiq hq

theorem mem_scan_four (hsorted : l.Pairwise (· ≤ ·)) {i k : ℕ} (hik : i < k)
    (hk : k + 2 ≤ l.length) :
    t ∈ scan l k (fun _ => false) (fun xj => target - (l.getD i 0 + xj + l.getD k 0))
        (fun xz => xz < l.getD i 0 || xz < l.getD k 0)
        (fun xz xj => [l.getD i 0, l.getD k 0, xz, xj]) (l.length - 2 - k) ↔
      ∃ y z, [y, z].Sublist (l.drop (k + 1)) ∧ y + z = target - l.getD i 0 - l.getD k 0 ∧
        t = [l.getD i 0, l.getD k 0, y, z] := by
  refine mem_scan_iff hsorted hk ?_ ?_ ?_
  · intro j _ _
    rfl
  · intro x
    omega
  · intro q hkq hq
    have h1 := getD_mono (d := 0) hsorted i q (by omega) hq
    have h2 := getD_mono (d := 0) hsorted k q hkq.le hq
    simp only [Bool.or_eq_false_iff, decide_eq_false_iff_not]
    omega

theorem length_of_sublist_drop {u : List ℤ} {i : ℕ} (h : u.Sublist (l.drop i)) (hu : u ≠ []) :
    i + u.length ≤ l.length := by
  have hle := h.length_le
  have hpos := List.length_pos_iff.mpr hu
  rw [List.length_drop] at hle
  omega

end Spec

theorem mem_threeSum (num t : List ℤ) : t ∈ threeSum num ↔ Solves num 3 0 t := by
  rw [solves_iff (num.mergeSort_perm _) (List.pairwise_mergeSort' _ num), threeSum]
  have hsorted := List.pairwise_mergeSort' (· ≤ ·) num
  generalize num.mergeSort = l at hsorted ⊢
  dsimp only
  rw [List.range_eq_range', mem_first_pass]
  constructor
  · rintro ⟨i, hi, hfirst, ht⟩
    obtain ⟨y, z, hsub, hsum, rfl⟩ := (mem_scan_three hsorted (by omega)).mp ht
    refine ⟨rfl, ?_, ?_⟩
    · simp only [List.sum_cons, List.sum_nil]
      omega
    · exact (cons_sublist_first (s := 0) 0).mpr ⟨i, by omega, hfirst, rfl, hsub⟩
  · rintro ⟨hlen, hsum, hsub⟩
    obtain ⟨x, y, z, rfl⟩ := List.length_eq_three.mp hlen
    obtain ⟨i, -, hfirst, rfl, hrest⟩ := (cons_sublist_first (s := 0) 0).mp hsub
    have hsize := length_of_sublist_drop hrest (by simp)
    simp only [List.length_cons, List.length_nil] at hsize
    simp only [List.sum_cons, List.sum_nil] at hsum
    refine ⟨i, by omega, hfirst, (mem_scan_three hsorted (by omega)).mpr ?_⟩
    exact ⟨y, z, hrest, by omega, rfl⟩

theorem mem_fourSum (num : List ℤ) (target : ℤ) (t : List ℤ) :
    t ∈ fourSum num target ↔ Solves num 4 target t := by
  rw [solves_iff (num.mergeSort_perm _) (List.pairwise_mergeSort' _ num), fourSum]
  have hsorted := List.pairwise_mergeSort' (· ≤ ·) num
  generalize num.mergeSort = l at hsorted ⊢
  dsimp only
  rw [List.range_eq_range', mem_first_pass]
  simp only [mem_first_pass]
  constructor
  · rintro ⟨i, hi, hfirst, k, hk, hfirst', ht⟩
    have hik := hfirst'.1
    obtain ⟨y, z, hsub, hsum, rfl⟩ := (mem_scan_four hsorted hik (by omega)).mp ht
    refine ⟨rfl, ?_, ?_⟩
    · simp only [List.sum_cons, List.sum_nil]
      omega
    · refine (cons_sublist_first (s := 0) 0).mpr ⟨i, by omega, hfirst, rfl, ?_⟩
      exact (cons_sublist_first 0).mpr ⟨k, by omega, hfirst', rfl, hsub⟩
  · rintro ⟨hlen, hsum, hsub⟩
    match t, hlen with
    | [x, w, y, z], _ =>
      obtain ⟨i, -, hfirst, rfl, hrest⟩ := (cons_sublist_first (s := 0) 0).mp hsub
      obtain ⟨k, -, hfirst', rfl, hpair⟩ := (cons_sublist_first 0).mp hrest
      have hik := hfirst'.1
      have hsize := length_of_sublist_drop hpair (by simp)
      simp only [List.length_cons, List.length_nil] at hsize
      simp only [List.sum_cons, List.sum_nil] at hsum
      refine ⟨i, by omega, hfirst, k, by omega, hfirst',
        (mem_scan_four hsorted hik (by omega)).mpr ?_⟩
      exact ⟨y, z, hpair, by omega, rfl⟩

theorem nodup_threeSum (num : List ℤ) : (threeSum num).Nodup := by
  rw [threeSum]
  have hsorted := List.pairwise_mergeSort' (· ≤ ·) num
  generalize num.mergeSort = l at hsorted ⊢
  dsimp only
  rw [List.range_eq_range']
  refine nodup_first_pass (g := fun t => t[0]?) hsorted (by omega) ?_ ?_
  · intro i _ hi
    refine nodup_scan hsorted (by omega) ?_ ?_ (by simp)
    · intro j hij hj
      simpa using getD_mono hsorted i j hij.le hj
    · intro x y hxy
      omega
  · intro i _ hi t ht
    obtain ⟨y, z, -, -, rfl⟩ := (mem_scan_three hsorted (by omega)).mp ht
    rfl

theorem nodup_fourSum (num : List ℤ) (target : ℤ) : (fourSum num target).Nodup := by
  rw [fourSum]
  have hsorted := List.pairwise_mergeSort' (· ≤ ·) num
  generalize num.mergeSort = l at hsorted ⊢
  dsimp only
  rw [List.range_eq_range']
  refine nodup_first_pass (g := fun t => t[0]?) hsorted (by omega) ?_ ?_
  · intro i _ hi
    refine nodup_first_pass (g := fun t => t[1]?) hsorted (by omega) ?_ ?_
    · intro k _ hk
      refine nodup_scan hsorted (by omega) (by simp) ?_ (by simp)
      intro x y hxy
      omega
    · intro k hik hk t ht
      obtain ⟨y, z, -, -, rfl⟩ := (mem_scan_four hsorted hik (by omega)).mp ht
      rfl
  · intro i _ hi t ht
    obtain ⟨k, hk, hfirst, hscan⟩ := mem_first_pass.mp ht
    obtain ⟨y, z, -, -, rfl⟩ := (mem_scan_four hsorted hfirst.1 (by omega)).mp hscan
    rfl

/-- **The results** are the values in order from distinct positions with the right sum, each
once. -/
theorem threeSum_fourSum_spec (num : List ℤ) (target : ℤ) :
    ((threeSum num).Nodup ∧ ∀ t, t ∈ threeSum num ↔ Solves num 3 0 t) ∧
      (fourSum num target).Nodup ∧ ∀ t, t ∈ fourSum num target ↔ Solves num 4 target t :=
  ⟨⟨nodup_threeSum num, mem_threeSum num⟩, nodup_fourSum num target, mem_fourSum num target⟩

end Sperm.Leetcode.KSum
