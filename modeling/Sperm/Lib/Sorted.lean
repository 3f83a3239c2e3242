import Mathlib.Algebra.Order.Ring.Int
import Mathlib.Data.List.FinRange
import Mathlib.Data.List.GetD
import Mathlib.Data.List.Perm.Basic
import Mathlib.Data.List.Sort
import Mathlib.Tactic.Common

/-!
# Sorted sequences

* `search`, **`search_iff`**: binary search between two places of a sorted sequence.
* `place`, **`place_spec`**: the place that it ends at.
* `FirstFrom`, `LastOf`: the first and the last of equal values that stand together;
  `exists_firstFrom`, `exists_lastOf` find them, `FirstFrom.ne`, `LastOf.ne` tell them apart by
  their values.
* `Taken`: values taken from distinct positions of a list.
* **`taken_iff_sublist`**: values in order are taken from distinct positions exactly when they are a
  part of the sorted list.
-/

namespace Sorted

variable {α : Type} [LinearOrder α]

/-! ## Binary search -/

def search (f : ℤ → α) (x : α) (u v : ℤ) : Bool :=
  if u ≤ v then
    if f ((u + v) / 2) = x then true
    else if x < f ((u + v) / 2) then search f x u ((u + v) / 2 - 1)
    else search f x ((u + v) / 2 + 1) v
  else false
termination_by (v + 1 - u).toNat
decreasing_by
  · omega
  · omega

/-- **Binary search** finds a value exactly when it is there. -/
theorem search_iff {f : ℤ → α} {x : α} {u v : ℤ}
    (hf : ∀ p q, u ≤ p → p ≤ q → q ≤ v → f p ≤ f q) :
    search f x u v = true ↔ ∃ r, u ≤ r ∧ r ≤ v ∧ f r = x := by
  fun_induction search f x u v with
  | case1 u v huv heq =>
    exact iff_of_true rfl ⟨(u + v) / 2, by omega, by omega, heq⟩
  | case2 u v huv hne hlt ih =>
    rw [ih fun p q hp hpq hq => hf p q hp hpq (by omega)]
    constructor
    · rintro ⟨r, hur, hrv, hr⟩
      exact ⟨r, hur, by omega, hr⟩
    · rintro ⟨r, hur, hrv, hr⟩
      -- a value from the middle on is too large
      refine ⟨r, hur, ?_, hr⟩
      by_contra hge
      have hle := hf ((u + v) / 2) r (by omega) (by omega) hrv
      rw [hr] at hle
      exact absurd hlt (not_lt.mpr hle)
  | case3 u v huv hne hlt ih =>
    rw [ih fun p q hp hpq hq => hf p q (by omega) hpq hq]
    constructor
    · rintro ⟨r, hur, hrv, hr⟩
      exact ⟨r, by omega, hrv, hr⟩
    · rintro ⟨r, hur, hrv, hr⟩
      refine ⟨r, ?_, hrv, hr⟩
      by_contra hle
      have hge := hf r ((u + v) / 2) hur (by omega) (by omega)
      rw [hr] at hge
      exact hlt (lt_of_le_of_ne hge (Ne.symm hne))
  | case4 u v huv =>
    simp only [Bool.false_eq_true, false_iff]
    rintro ⟨r, hur, hrv, -⟩
    omega

/-- The place that the search for `x` ends at: that of `x`, or the last one of a smaller value. -/
def place (f : ℤ → α) (x : α) (u v : ℤ) : ℤ :=
  if u ≤ v then
    if f ((u + v) / 2) = x then (u + v) / 2
    else if x < f ((u + v) / 2) then place f x u ((u + v) / 2 - 1)
    else place f x ((u + v) / 2 + 1) v
  else u - 1
termination_by (v + 1 - u).toNat
decreasing_by
  · omega
  · omega

/-- **The place** lies between the values that are not larger and those that are not smaller. -/
theorem place_spec {f : ℤ → α} {x : α} {u v : ℤ}
    (hf : ∀ p q, u ≤ p → p ≤ q → q ≤ v → f p ≤ f q) (huv : u ≤ v + 1) :
    u - 1 ≤ place f x u v ∧ place f x u v ≤ v ∧
      (∀ r, u ≤ r → r ≤ place f x u v → f r ≤ x) ∧ ∀ r, place f x u v < r → r ≤ v → x ≤ f r := by
  fun_induction place f x u v with
  | case1 u v huv heq =>
    refine ⟨by omega, by omega, fun r hr hrp => ?_, fun r hr hrv => ?_⟩
    · rw [← heq]
      exact hf r _ hr hrp (by omega)
    · rw [← heq]
      exact hf _ r (by omega) hr.le hrv
  | case2 u v huv hne hlt ih =>
    obtain ⟨hlow, hhigh, hbelow, habove⟩ :=
      ih (fun p q hp hpq hq => hf p q hp hpq (by omega)) (by omega)
    refine ⟨hlow, by omega, hbelow, fun r hr hrv => ?_⟩
    by_cases hmid : r ≤ (u + v) / 2 - 1
    · exact habove r hr hmid
    · exact hlt.le.trans (hf _ r (by omega) (by omega) hrv)
  | case3 u v huv hne hlt ih =>
    obtain ⟨hlow, hhigh, hbelow, habove⟩ :=
      ih (fun p q hp hpq hq => hf p q (by omega) hpq hq) (by omega)
    refine ⟨by omega, hhigh, fun r hr hrp => ?_, habove⟩
    by_cases hmid : (u + v) / 2 + 1 ≤ r
    · exact hbelow r hmid hrp
    · exact (hf r _ hr (by omega) (by omega)).trans (not_lt.mp hlt)
  | case4 u v huv =>
    exact ⟨le_rfl, by omega, fun r hr hrp => by omega, fun r hr hrv => by omega⟩

/-! ## The first and the last of equal values -/

variable {a : ℕ → α} {n s i j p : ℕ}

/-- From `s` on, `i` is the first place of its value. -/
def FirstFrom (a : ℕ → α) (s i : ℕ) : Prop := s ≤ i ∧ (i = s ∨ a i ≠ a (i - 1))

/-- Below `n`, `j` is the last place of its value. -/
def LastOf (a : ℕ → α) (n j : ℕ) : Prop := j < n ∧ (j = n - 1 ∨ a j ≠ a (j + 1))

omit [LinearOrder α] in
theorem exists_firstFrom (a : ℕ → α) (hp : s ≤ p) : ∃ i ≤ p, FirstFrom a s i ∧ a i = a p := by
  induction p, hp using Nat.le_induction with
  | base => exact ⟨s, le_rfl, ⟨le_rfl, .inl rfl⟩, rfl⟩
  | succ p hp ih =>
    by_cases heq : a (p + 1) = a p
    · obtain ⟨i, hi, hfirst, hval⟩ := ih
      exact ⟨i, by omega, hfirst, by rw [hval, heq]⟩
    · exact ⟨p + 1, le_rfl, ⟨by omega, .inr heq⟩, rfl⟩

omit [LinearOrder α] in
theorem exists_lastOf (a : ℕ → α) (hp : p < n) : ∃ j, p ≤ j ∧ LastOf a n j ∧ a j = a p := by
  induction hd : n - 1 - p generalizing p with
  | zero => exact ⟨p, le_rfl, ⟨hp, .inl (by omega)⟩, rfl⟩
  | succ d ih =>
    by_cases heq : a p = a (p + 1)
    · obtain ⟨j, hj, hlast, hval⟩ := ih (p := p + 1) (by omega) (by omega)
      exact ⟨j, by omega, hlast, by rw [hval, heq]⟩
    · exact ⟨p, le_rfl, ⟨hp, .inr heq⟩, rfl⟩

variable (hmono : ∀ p q, p ≤ q → q < n → a p ≤ a q)

include hmono

theorem FirstFrom.ne (hi : s ≤ i) (hj : FirstFrom a s j) (hij : i < j) (hn : j < n) :
    a i ≠ a j := by
  intro heq
  obtain ⟨-, rfl | hne⟩ := hj
  · omega
  · have h1 := hmono i (j - 1) (by omega) (by omega)
    have h2 := hmono (j - 1) j (by omega) hn
    exact hne (le_antisymm (by rw [← heq]; exact h1) h2)

theorem LastOf.ne (hj : LastOf a n i) (hij : i < j) (hn : j < n) : a i ≠ a j := by
  intro heq
  obtain ⟨-, rfl | hne⟩ := hj
  · omega
  · have h1 := hmono i (i + 1) (by omega) (by omega)
    have h2 := hmono (i + 1) j (by omega) hn
    exact hne (le_antisymm h1 (by rw [heq]; exact h2))

omit hmono

/-! ## Values from distinct positions -/

/-- The values `t` stand at distinct positions of `num`. -/
def Taken (num t : List α) : Prop :=
  ∃ ps : List (Fin num.length), ps.Nodup ∧ ps.map num.get = t

variable {num t l : List α} {x d : α}

omit [LinearOrder α] in
theorem taken_iff_subperm : Taken num t ↔ t.Subperm num := by
  constructor
  · rintro ⟨ps, hps, rfl⟩
    obtain ⟨qs, hqs, hsub⟩ : ps.Subperm (List.finRange num.length) :=
      List.subperm_of_subset hps fun p _ => List.mem_finRange p
    exact ⟨qs.map num.get, hqs.map _, by simpa using hsub.map num.get⟩
  · rintro ⟨u, hu, hsub⟩
    have hsub' : u.Sublist ((List.finRange num.length).map num.get) := by simpa using hsub
    obtain ⟨ps, hps, rfl⟩ := List.sublist_map_iff.mp hsub'
    have hvals : List.Forall₂ (fun x p => x = num.get p) (ps.map num.get) ps := by
      simp [List.forall₂_map_left_iff, List.forall₂_same]
    obtain ⟨qs, hqs, hperm⟩ := List.perm_comp_forall₂ hu.symm hvals
    refine ⟨qs, hperm.nodup_iff.mpr ((List.nodup_finRange _).sublist hps), ?_⟩
    have heq : List.Forall₂ (· = ·) t (qs.map num.get) := List.forall₂_map_right_iff.mpr hqs
    rw [List.forall₂_eq_eq_eq] at heq
    exact heq.symm

/-- **Values in order** are taken from distinct positions exactly when they are a part of the sorted
list. -/
theorem taken_iff_sublist (hl : l.Perm num) (hsorted : l.Pairwise (· ≤ ·))
    (ht : t.Pairwise (· ≤ ·)) : Taken num t ↔ t.Sublist l := by
  rw [taken_iff_subperm, ← hl.subperm_left]
  constructor
  · intro h
    exact List.sublist_of_subperm_of_pairwise h ht hsorted
  · exact List.Sublist.subperm

omit [LinearOrder α] in
theorem cons_sublist_drop (d : α) : (x :: t).Sublist (l.drop s) ↔
    ∃ p, s ≤ p ∧ p < l.length ∧ l.getD p d = x ∧ t.Sublist (l.drop (p + 1)) := by
  constructor
  · intro h
    obtain ⟨r₁, r₂, hl, hx, ht⟩ := List.cons_sublist_iff.mp h
    obtain ⟨u, v, rfl⟩ := List.append_of_mem hx
    have hdrop : l.drop (s + u.length) = x :: (v ++ r₂) := by
      rw [← List.drop_drop, hl]
      simp
    have hlt : s + u.length < l.length := by
      by_contra hge
      rw [List.drop_eq_nil_of_le (by omega)] at hdrop
      cases hdrop
    rw [List.drop_eq_getElem_cons hlt] at hdrop
    obtain ⟨hval, hrest⟩ := List.cons.inj hdrop
    refine ⟨s + u.length, by omega, hlt, by rw [List.getD_eq_getElem _ _ hlt, hval], ?_⟩
    rw [hrest]
    exact ht.trans (List.sublist_append_right v r₂)
  · rintro ⟨p, hp, hlt, rfl, ht⟩
    refine List.Sublist.trans ?_ (List.drop_sublist_drop_left l hp)
    rw [List.drop_eq_getElem_cons hlt, List.getD_eq_getElem _ _ hlt]
    exact ht.cons_cons _

omit [LinearOrder α] in
/-- It starts at the first place of its first value, too. -/
theorem cons_sublist_first (d : α) : (x :: t).Sublist (l.drop s) ↔
    ∃ i, i < l.length ∧ FirstFrom (l.getD · d) s i ∧ l.getD i d = x ∧
      t.Sublist (l.drop (i + 1)) := by
  rw [cons_sublist_drop d]
  constructor
  · rintro ⟨p, hp, hlt, rfl, ht⟩
    obtain ⟨i, hi, hfirst, hval⟩ := exists_firstFrom (l.getD · d) hp
    exact ⟨i, by omega, hfirst, hval, ht.trans (List.drop_sublist_drop_left l (by omega))⟩
  · rintro ⟨i, hi, hfirst, hx, ht⟩
    exact ⟨i, hfirst.1, hi, hx, ht⟩

omit [LinearOrder α] in
theorem pair_sublist_last {y z : α} (d : α) : [y, z].Sublist (l.drop s) ↔
    ∃ j, LastOf (l.getD · d) l.length j ∧ l.getD j d = z ∧
      ∃ q, s ≤ q ∧ q < j ∧ l.getD q d = y := by
  simp only [cons_sublist_drop d, List.nil_sublist, and_true]
  constructor
  · rintro ⟨q, hs, -, hy, p, hqp, hp, rfl⟩
    obtain ⟨j, hj, hlast, hval⟩ := exists_lastOf (l.getD · d) hp
    exact ⟨j, hlast, hval, q, hs, by omega, hy⟩
  · rintro ⟨j, hlast, hz, q, hs, hqj, hy⟩
    exact ⟨q, hs, by have := hlast.1; omega, hy, j, hqj, hlast.1, hz⟩

theorem getD_mono (hsorted : l.Pairwise (· ≤ ·)) (i j : ℕ) (hij : i ≤ j) (hj : j < l.length) :
    l.getD i d ≤ l.getD j d := by
  rw [List.getD_eq_getElem _ _ (by omega), List.getD_eq_getElem _ _ hj]
  rcases hij.eq_or_lt with rfl | hlt
  · exact le_rfl
  · exact List.pairwise_iff_getElem.mp hsorted i j (by omega) hj hlt

end Sorted
