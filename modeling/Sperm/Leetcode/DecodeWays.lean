import Mathlib.Data.List.GetD
import Mathlib.Data.Set.Card
import Mathlib.Data.Set.Finite.List
import Sperm.Lib.Checked
import Sperm.Lib.Subsequence
import Sperm.Leetcode.Atoi

/-!
# Decoding digits (`decode-ways.cc`)

The letters are coded by the numbers from 1 to 26, one after the other without a separator.

* `numDecodings`: the model, where `none` stands for an overflow of `int`.
* `code`, `words`: the words that a text can stand for.
* `mem_words_concat_iff`: the last letter has a code of one digit or of two.
* `fill_eq_some_iff`: the cells are the counts for the first digits.
* **`numDecodings_iff`**: the number of the words, unless one of the counts on the way to it is too
  large.
-/

namespace Sperm.Leetcode.DecodeWays

open Atoi (digit)
open Subsequence (take_succ_getD)

def zero : UInt8 := 48

/-- What is added to `dp[i]`, which is `0` at first. `dp` are the cells before it. -/
def terms (s : List UInt8) (dp : List ℤ) (i : ℕ) : List ℤ :=
  (if s.getD i 0 ≠ zero then [if i > 0 then dp.getD (i - 1) 0 else 1] else []) ++
    if i > 0 ∧ s.getD (i - 1) 0 ≠ zero ∧
        digit (s.getD (i - 1) 0) * 10 + digit (s.getD i 0) ≤ 26 then
      [if i > 1 then dp.getD (i - 2) 0 else 1]
    else []

/-- The cells `dp[0]`, ..., `dp[i - 1]`. -/
def fill (s : List UInt8) : ℕ → Option (List ℤ)
  | 0 => some []
  | i + 1 => do
    let dp ← fill s i
    let v ← Checked.sumFrom 32 0 (terms s dp i)
    return dp ++ [v]

/-- `numDecodings(s)`. -/
def numDecodings (s : List UInt8) : Option ℤ :=
  if s.length = 0 then some 0 else (fill s s.length).map fun dp => dp.getD (s.length - 1) 0

/-! ## Codes -/

/-- The number of a letter, in decimal. -/
def code (k : Fin 26) : List UInt8 :=
  if k.val + 1 < 10 then [.ofNat (48 + (k.val + 1))]
  else [.ofNat (48 + (k.val + 1) / 10), .ofNat (48 + (k.val + 1) % 10)]

/-- The words that have the text `s` as their code. -/
def words (s : List UInt8) : Set (List (Fin 26)) := {w | w.flatMap code = s}

theorem code_eq_singleton_iff {k : Fin 26} {c : UInt8} :
    code k = [c] ↔ c.toNat = 49 + k.val ∧ k.val < 9 := by
  unfold code
  split_ifs with hk
  · rw [List.cons.injEq, and_iff_left rfl, ← UInt8.toNat_inj, UInt8.toNat_ofNat']
    omega
  · constructor
    · intro h
      cases h
    · omega

theorem code_eq_pair_iff {k : Fin 26} {b c : UInt8} :
    code k = [b, c] ↔ b.toNat = 48 + (k.val + 1) / 10 ∧ c.toNat = 48 + (k.val + 1) % 10 ∧
      9 ≤ k.val := by
  unfold code
  split_ifs with hk
  · constructor
    · intro h
      cases h
    · omega
  · rw [List.cons.injEq, List.cons.injEq, and_iff_left rfl, ← UInt8.toNat_inj, ← UInt8.toNat_inj,
      UInt8.toNat_ofNat', UInt8.toNat_ofNat']
    omega

theorem code_cases (k : Fin 26) : (∃ c, code k = [c]) ∨ ∃ b c, code k = [b, c] := by
  unfold code
  split_ifs
  · exact .inl ⟨_, rfl⟩
  · exact .inr ⟨_, _, rfl⟩

theorem code_ne_nil (k : Fin 26) : code k ≠ [] := by
  rcases code_cases k with ⟨c, h⟩ | ⟨b, c, h⟩
  · simp [h]
  · simp [h]

theorem words_nil : words [] = {[]} := by
  ext w
  cases w with
  | nil => simp [words]
  | cons k w =>
    exact iff_of_false (fun h => code_ne_nil k (List.append_eq_nil_iff.mp h).1) (by simp)

theorem finite_words (s : List UInt8) : (words s).Finite := by
  refine (List.finite_length_le (Fin 26) s.length).subset fun w hw => ?_
  obtain rfl : w.flatMap code = s := hw
  induction w with
  | nil => exact Nat.le_refl _
  | cons k w ih =>
    have := List.length_pos_iff.mpr (code_ne_nil k)
    change w.length ≤ _ at ih
    change w.length + 1 ≤ _
    rw [List.flatMap_cons, List.length_append]
    omega

/-- The words with a last letter that has the code `t`. -/
def wordsWith (s t : List UInt8) : Set (List (Fin 26)) :=
  {w | ∃ v ∈ words s, ∃ k, code k = t ∧ w = v ++ [k]}

theorem code_injective : Function.Injective code := by
  intro k l h
  rcases code_cases k with ⟨c, hk⟩ | ⟨b, c, hk⟩
  · have h₁ := code_eq_singleton_iff.mp hk
    have h₂ := code_eq_singleton_iff.mp (h ▸ hk)
    exact Fin.ext (by omega)
  · have h₁ := code_eq_pair_iff.mp hk
    have h₂ := code_eq_pair_iff.mp (h ▸ hk)
    exact Fin.ext (by omega)

theorem ncard_wordsWith (s : List UInt8) (t : List UInt8) [Decidable (∃ k, code k = t)] :
    (wordsWith s t).ncard = if ∃ k, code k = t then (words s).ncard else 0 := by
  split_ifs with h
  · obtain ⟨k, rfl⟩ := h
    have himage : wordsWith s (code k) = (fun v => v ++ [k]) '' words s := by
      ext w
      constructor
      · rintro ⟨v, hv, l, hl, rfl⟩
        exact ⟨v, hv, by rw [code_injective hl]⟩
      · rintro ⟨v, hv, rfl⟩
        exact ⟨v, hv, k, rfl, rfl⟩
    rw [himage]
    exact Set.ncard_image_of_injective _ (List.append_left_injective [k])
  · have hempty : wordsWith s t = ∅ := by
      ext w
      simp only [wordsWith, Set.mem_ofPred_eq, Set.mem_empty_iff_false, iff_false]
      rintro ⟨v, -, k, hk, -⟩
      exact h ⟨k, hk⟩
    rw [hempty, Set.ncard_empty]

/-- **The last letter** has a code of one digit or of two. -/
theorem mem_words_concat_iff {s : List UInt8} {c : UInt8} {w : List (Fin 26)} :
    w ∈ words (s ++ [c]) ↔
      w ∈ wordsWith s [c] ∨ ∃ s' b, s = s' ++ [b] ∧ w ∈ wordsWith s' [b, c] := by
  constructor
  · intro hw
    change w.flatMap code = s ++ [c] at hw
    rcases List.eq_nil_or_concat w with rfl | ⟨v, k, rfl⟩
    · exact absurd hw.symm (by simp)
    · rw [List.concat_eq_append, List.flatMap_append, List.flatMap_singleton] at hw
      rw [List.concat_eq_append]
      rcases code_cases k with ⟨d, hk⟩ | ⟨b, d, hk⟩
      · rw [hk] at hw
        obtain ⟨hv, hd⟩ := List.append_inj' hw rfl
        exact .inl ⟨v, hv, k, hk.trans hd, rfl⟩
      · rw [hk, List.append_cons] at hw
        obtain ⟨hv, hd⟩ := List.append_inj' hw rfl
        cases hd
        exact .inr ⟨_, b, hv.symm, v, rfl, k, hk, rfl⟩
  · rintro (⟨v, hv, k, hk, rfl⟩ | ⟨s', b, rfl, v, hv, k, hk, rfl⟩)
    · change (v ++ [k]).flatMap code = s ++ [c]
      rw [List.flatMap_append, List.flatMap_singleton, hk, show v.flatMap code = s from hv]
    · change (v ++ [k]).flatMap code = s' ++ [b] ++ [c]
      rw [List.flatMap_append, List.flatMap_singleton, hk, show v.flatMap code = s' from hv,
        List.append_assoc]
      rfl

theorem finite_wordsWith (s t : List UInt8) : (wordsWith s t).Finite := by
  refine (finite_words (s ++ t)).subset ?_
  rintro w ⟨v, hv, k, hk, rfl⟩
  change (v ++ [k]).flatMap code = s ++ t
  rw [List.flatMap_append, List.flatMap_singleton, hk, show v.flatMap code = s from hv]

theorem notMem_wordsWith {s s' : List UInt8} {b c : UInt8} {w : List (Fin 26)}
    (hw : w ∈ wordsWith s [c]) : w ∉ wordsWith s' [b, c] := by
  obtain ⟨v, -, k, hk, rfl⟩ := hw
  rintro ⟨v', -, k', hk', h⟩
  obtain ⟨-, hlast⟩ := List.append_inj' h rfl
  cases hlast
  rw [hk] at hk'
  cases hk'

theorem exists_code_singleton_iff {c : UInt8} (hc : 48 ≤ c.toNat) (hc' : c.toNat ≤ 57) :
    (∃ k, code k = [c]) ↔ c ≠ zero := by
  simp only [code_eq_singleton_iff, ne_eq, ← UInt8.toNat_inj, show zero.toNat = 48 from rfl]
  constructor
  · rintro ⟨k, h⟩
    omega
  · intro h
    exact ⟨⟨c.toNat - 49, by omega⟩, by simp only; omega⟩

theorem exists_code_pair_iff {b c : UInt8} (hb : 48 ≤ b.toNat) (hc : 48 ≤ c.toNat)
    (hc' : c.toNat ≤ 57) :
    (∃ k, code k = [b, c]) ↔ b ≠ zero ∧ digit b * 10 + digit c ≤ 26 := by
  simp only [code_eq_pair_iff, ne_eq, ← UInt8.toNat_inj, show zero.toNat = 48 from rfl, digit]
  constructor
  · rintro ⟨k, h⟩
    omega
  · intro h
    exact ⟨⟨(b.toNat - 48) * 10 + (c.toNat - 48) - 1, by omega⟩, by simp only; omega⟩

/-! ## The cells -/

/-- The number of words for the first `i` digits. -/
noncomputable def count (s : List UInt8) (i : ℕ) : ℤ := ((words (s.take i)).ncard : ℤ)

theorem count_nonneg (s : List UInt8) (i : ℕ) : 0 ≤ count s i := Int.natCast_nonneg _

theorem count_zero (s : List UInt8) : count s 0 = 1 := by
  rw [count, List.take_zero, words_nil, Set.ncard_singleton]
  rfl

/-- The text is made of digits. -/
def Digits (s : List UInt8) : Prop := ∀ c ∈ s, 48 ≤ c.toNat ∧ c.toNat ≤ 57

variable {s : List UInt8}

theorem Digits.getD (hs : Digits s) {i : ℕ} (hi : i < s.length) :
    48 ≤ (s.getD i 0).toNat ∧ (s.getD i 0).toNat ≤ 57 := by
  rw [List.getD_eq_getElem _ _ hi]
  exact hs _ (List.getElem_mem hi)

theorem count_one (hs : Digits s) (hpos : 0 < s.length) :
    count s 1 = if s.getD 0 0 ≠ zero then 1 else 0 := by
  have hwords : words (s.take 1) = wordsWith [] [s.getD 0 0] := by
    ext w
    rw [take_succ_getD 0 hpos, List.take_zero, mem_words_concat_iff, or_iff_left]
    rintro ⟨s', b, h, -⟩
    exact absurd h (by simp)
  classical
  rw [count, hwords, ncard_wordsWith, words_nil, Set.ncard_singleton]
  simp only [exists_code_singleton_iff (hs.getD hpos).1 (hs.getD hpos).2]
  split_ifs <;> rfl

theorem count_add_two (hs : Digits s) {i : ℕ} (hi : i + 1 < s.length) :
    count s (i + 2) = (if s.getD (i + 1) 0 ≠ zero then count s (i + 1) else 0) +
      if s.getD i 0 ≠ zero ∧ digit (s.getD i 0) * 10 + digit (s.getD (i + 1) 0) ≤ 26 then count s i
      else 0 := by
  have hi' : i < s.length := by omega
  have hwords : words (s.take (i + 2)) = wordsWith (s.take (i + 1)) [s.getD (i + 1) 0] ∪
      wordsWith (s.take i) [s.getD i 0, s.getD (i + 1) 0] := by
    ext w
    rw [take_succ_getD 0 hi, mem_words_concat_iff, Set.mem_union]
    refine or_congr_right ⟨?_, fun h => ⟨_, _, take_succ_getD 0 hi', h⟩⟩
    rintro ⟨s', b, h, hw⟩
    rw [take_succ_getD 0 hi'] at h
    obtain ⟨hs', hb⟩ := List.append_inj' h rfl
    cases hb
    exact hs' ▸ hw
  classical
  rw [count, hwords, Set.ncard_union_eq (Set.disjoint_left.mpr fun _ => notMem_wordsWith)
    (finite_wordsWith _ _) (finite_wordsWith _ _), ncard_wordsWith, ncard_wordsWith]
  simp only [exists_code_singleton_iff (hs.getD hi).1 (hs.getD hi).2,
    exists_code_pair_iff (hs.getD hi').1 (hs.getD hi).1 (hs.getD hi).2]
  push_cast
  rfl

theorem sum_terms (hs : Digits s) {i : ℕ} (hi : i < s.length) :
    (terms s ((List.range i).map fun j => count s (j + 1)) i).sum = count s (i + 1) := by
  have hcell : ∀ j, j < i →
      ((List.range i).map fun j => count s (j + 1)).getD j 0 = count s (j + 1) := by
    intro j hj
    rw [List.getD_eq_getElem _ _ (by simpa using hj)]
    simp
  unfold terms
  rw [List.sum_append]
  cases i with
  | zero =>
    rw [count_one hs hi]
    simp only [gt_iff_lt, lt_irrefl, if_false, false_and, List.sum_nil, add_zero]
    split_ifs <;> rfl
  | succ i =>
    rw [count_add_two hs hi]
    simp only [Nat.add_sub_cancel, hcell i (Nat.lt_succ_self i), gt_iff_lt, Nat.succ_pos, if_true,
      true_and]
    congr 1
    · split_ifs <;> simp
    · cases i with
      | zero =>
        simp only [count_zero, Nat.reduceAdd, lt_irrefl, if_false]
        split_ifs <;> rfl
      | succ i =>
        have := hcell i (by omega)
        simp only [Nat.reduceSubDiff, this, Nat.lt_add_left_iff_pos, Nat.succ_pos, if_true]
        split_ifs <;> simp

theorem terms_nonneg {dp : List ℤ} (hdp : ∀ v ∈ dp, 0 ≤ v) (i : ℕ) :
    ∀ x ∈ terms s dp i, 0 ≤ x := by
  have hcell : ∀ j, 0 ≤ dp.getD j 0 := by
    intro j
    by_cases hj : j < dp.length
    · rw [List.getD_eq_getElem _ _ hj]
      exact hdp _ (List.getElem_mem hj)
    · rw [List.getD_eq_default _ _ (by omega)]
  intro x hx
  unfold terms at hx
  rcases List.mem_append.mp hx with hx | hx
  · split_ifs at hx <;> simp at hx <;> subst hx <;> [exact hcell _; decide]
  · split_ifs at hx <;> simp at hx <;> subst hx <;> [exact hcell _; decide]

/-- **The cells are the counts**, as long as these fit. -/
theorem fill_eq_some_iff (hs : Digits s) {n : ℕ} (hn : n ≤ s.length) {dp : List ℤ} :
    fill s n = some dp ↔
      (∀ i ≤ n, count s i < 2 ^ 31) ∧ dp = (List.range n).map fun j => count s (j + 1) := by
  induction n generalizing dp with
  | zero =>
    rw [fill, Option.some.injEq, eq_comm, List.range_zero, List.map_nil]
    refine (and_iff_right fun i hi => ?_).symm
    rw [Nat.le_zero.mp hi, count_zero]
    decide
  | succ n ih =>
    have hterms : ∀ x ∈ terms s ((List.range n).map fun j => count s (j + 1)) n, 0 ≤ x :=
      terms_nonneg (by simp [count_nonneg]) n
    have hsum := fun v => Checked.sumFrom_eq_some_iff (w := 32) (s := v) (le_refl 0) (by decide)
      hterms
    simp only [zero_add, sum_terms hs hn] at hsum
    rw [fill, Option.bind_eq_bind, Option.bind_eq_some_iff]
    constructor
    · rintro ⟨dp', hdp', h⟩
      obtain ⟨hfit, rfl⟩ := (ih (by omega)).mp hdp'
      obtain ⟨v, hv, hdp⟩ := Option.bind_eq_some_iff.mp h
      obtain ⟨hlt, rfl⟩ := (hsum v).mp hv
      cases hdp
      refine ⟨fun i hi => ?_, by rw [List.range_succ, List.map_append]; rfl⟩
      rcases Nat.lt_or_eq_of_le hi with hi | rfl
      · exact hfit i (by omega)
      · exact hlt
    · rintro ⟨hfit, rfl⟩
      refine ⟨_, (ih (by omega)).mpr ⟨fun i hi => hfit i (by omega), rfl⟩, ?_⟩
      refine Option.bind_eq_some_iff.mpr ⟨_, (hsum _).mpr ⟨hfit (n + 1) (le_refl _), rfl⟩, ?_⟩
      rw [List.range_succ, List.map_append]
      rfl

/-- **The number of words** that the digits can stand for, exactly when it is an `int`, for every
number of first digits. -/
theorem numDecodings_iff (hs : Digits s) (hne : s ≠ []) {v : ℤ} :
    numDecodings s = some v ↔
      (∀ i ≤ s.length, ((words (s.take i)).ncard : ℤ) < 2 ^ 31) ∧ v = (words s).ncard := by
  have hpos := List.length_pos_iff.mpr hne
  rw [numDecodings, if_neg (by omega), Option.map_eq_some_iff]
  have hlast : ((List.range s.length).map fun j => count s (j + 1)).getD (s.length - 1) 0 =
      (words s).ncard := by
    rw [List.getD_eq_getElem _ _ (by rw [List.length_map, List.length_range]; omega),
      List.getElem_map, List.getElem_range, Nat.sub_add_cancel hpos, count, List.take_length]
  constructor
  · rintro ⟨dp, hdp, rfl⟩
    obtain ⟨hfit, rfl⟩ := (fill_eq_some_iff hs (le_refl _)).mp hdp
    exact ⟨hfit, hlast⟩
  · rintro ⟨hfit, rfl⟩
    exact ⟨_, (fill_eq_some_iff hs (le_refl _)).mpr ⟨hfit, rfl⟩, hlast⟩

/-- `12` is `AB` or `L`. -/
theorem numDecodings_twelve : numDecodings [49, 50] = some 2 ∧ 2 = ((words [49, 50]).ncard : ℤ) :=
  ⟨rfl, ((numDecodings_iff (by simp [Digits]) (by simp)).mp rfl).2⟩

end Sperm.Leetcode.DecodeWays
