import Mathlib.Algebra.Order.Ring.Int
import Mathlib.Data.List.GetD
import Mathlib.Data.List.Nodup
import Mathlib.Order.Bounds.Basic
import Sperm.Lib.Loop
import Sperm.Lib.Window

/-!
# Substrings without repeated characters (`longest-substring-without-repeating-characters.cc`)

A window over the string is moved along it, and `mask` counts the characters in the window. It has
`256` cells, and its index is a `char`, which is signed.

* `lengthOfLongestSubstring` with `shrink`, `single` and `step`: the model, where `none` stands for
  an access outside `mask` or behind the string.
* `Counts`, `Shrunk`, `Inv`: what `mask` counts, and what is known of the window.
* `shrink_spec`, **`step_spec`**: the window without repetitions that begins first.
* **`lengthOfLongestSubstring_iff`**: the result is right exactly if no character is negative.

Positions and counts are not cut to `int`.
-/

namespace Sperm.Leetcode.LongestSubstring

open Window

/-- What is in `mask`. -/
abbrev Mask := ℤ → ℤ

/-- `mask[k]`, if it is a cell of `int mask[256]`. -/
def read (mask : Mask) (k : ℤ) : Option ℤ := if 0 ≤ k ∧ k < 256 then some (mask k) else none

/-- `mask[k] += d`. -/
def add (mask : Mask) (k d : ℤ) : Option Mask :=
  if 0 ≤ k ∧ k < 256 then some (Function.update mask k (mask k + d)) else none

/-- The inner loop, with `t` and `mask`. -/
def shrink (s : List Int8) (ch : Int8) (t : ℕ) (mask : Mask) : Option (ℕ × Mask) :=
  if h : t < s.length then do
    let es := s[t]
    let mask ← add mask es.toInt (-1)
    let v ← read mask ch.toInt
    if v = 1 then some (t + 1, mask) else shrink s ch (t + 1) mask
  else none
termination_by s.length - t

/-- The window without a second `ch`, of which it has `v`. -/
def single (s : List Int8) (ch : Int8) (v : ℤ) (t : ℕ) (mask : Mask) : Option (ℕ × Mask) :=
  if v > 1 then shrink s ch t mask else some (t, mask)

/-- The variables of the outer loop. -/
structure State where
  mask : Mask
  t : ℕ
  res : ℤ

/-- The body of the outer loop. -/
def step (s : List Int8) (st : State) (i : ℕ) : Option State := do
  let ch := s.getD i 0
  let mask ← add st.mask ch.toInt 1
  let v ← read mask ch.toInt
  let (t, mask) ← single s ch v st.t mask
  some ⟨mask, t, max st.res (i - t + 1)⟩

/-- `lengthOfLongestSubstring(s)`. -/
def lengthOfLongestSubstring (s : List Int8) : Option ℤ := do
  let st ← (List.range s.length).foldlM (step s) ⟨fun _ => 0, 0, 0⟩
  some st.res

variable {s w : List Int8} {mask : Mask} {st : State} {c ch : Int8} {d k r : ℤ} {t i n : ℕ}

/-! ## The counts -/

theorem read_eq (h : 0 ≤ c.toInt) : read mask c.toInt = some (mask c.toInt) :=
  if_pos ⟨h, c.toInt_lt.trans (by decide)⟩

theorem add_eq (h : 0 ≤ c.toInt) :
    add mask c.toInt d = some (Function.update mask c.toInt (mask c.toInt + d)) :=
  if_pos ⟨h, c.toInt_lt.trans (by decide)⟩

/-- `mask` counts the characters of `w`. -/
def Counts (mask : Mask) (w : List Int8) : Prop := ∀ c : Int8, mask c.toInt = w.count c

theorem Counts.update {w' : List Int8} (h : Counts mask w)
    (hd : (w.count ch : ℤ) + d = w'.count ch) (hne : ∀ c, c ≠ ch → w.count c = w'.count c) :
    Counts (Function.update mask ch.toInt (mask ch.toInt + d)) w' := by
  intro c
  by_cases hc : c = ch
  · subst hc
    rw [Function.update_self, h c, hd]
  · rw [Function.update_of_ne (mt Int8.toInt_inj.mp hc), h c, hne c hc]

theorem Counts.push (h : Counts mask w) :
    Counts (Function.update mask ch.toInt (mask ch.toInt + 1)) (w ++ [ch]) := by
  refine h.update (by simp) fun c hc => ?_
  simp [List.count_append, Ne.symm hc]

theorem Counts.pop (h : Counts mask (ch :: w)) :
    Counts (Function.update mask ch.toInt (mask ch.toInt + -1)) w := by
  refine h.update ?_ fun c hc => List.count_cons_of_ne (Ne.symm hc)
  rw [List.count_cons_self]
  omega

/-! ## The window -/

/-- The window up to the one before `i` that begins at `t` has no repetitions, and every longer one
has. -/
structure Shrunk (s : List Int8) (i : ℕ) (mask : Mask) (t : ℕ) : Prop where
  le : t ≤ i
  counts : Counts mask (window s t i)
  nodup : (window s t i).Nodup
  widest : ∀ a < t, ¬ (window s a i).Nodup

theorem not_nodup_of_mem {a : ℕ} (hi : i < s.length) (hti : t ≤ i) (hmem : s[i] ∈ window s t i)
    (hat : a ≤ t) : ¬ (window s a (i + 1)).Nodup := by
  intro hnodup
  have hsub := hnodup.sublist (window_suffix hat).sublist
  rw [window_concat hti hi, List.nodup_append] at hsub
  exact hsub.2.2 _ hmem _ (List.mem_singleton_self _) rfl

theorem nodup_concat (hi : i < s.length) (hti : t ≤ i) (hnodup : (window s t i).Nodup)
    (hmem : s[i] ∉ window s t i) : (window s t (i + 1)).Nodup := by
  rw [window_concat hti hi, ← List.concat_eq_append]
  exact hnodup.concat hmem

/-- The inner loop stops behind the first of two equal characters. -/
theorem shrink_spec (hpos : ∀ c ∈ s, 0 ≤ c.toInt) (hi : i < s.length) (hti : t ≤ i)
    (hnodup : (window s t i).Nodup) (hmem : s[i] ∈ window s t i)
    (hcounts : Counts mask (window s t (i + 1))) :
    ∃ t' mask', shrink s s[i] t mask = some (t', mask') ∧ Shrunk s (i + 1) mask' t' := by
  induction hn : i - t generalizing t mask with
  | zero =>
    rw [window_of_le (by omega)] at hmem
    cases hmem
  | succ n ih =>
    have hlt : t < s.length := by omega
    have hwider : ∀ a < t + 1, ¬ (window s a (i + 1)).Nodup :=
      fun a ha => not_nodup_of_mem hi hti hmem (Nat.lt_succ_iff.mp ha)
    rw [window_cons (by omega) hlt] at hcounts hnodup
    have hpop := hcounts.pop
    have htail := (List.nodup_cons.mp hnodup).2
    have hcount : (Function.update mask s[t].toInt (mask s[t].toInt + -1)) s[i].toInt =
        (window s (t + 1) i).count s[i] + 1 := by
      rw [hpop s[i], window_concat (by omega) hi, List.count_append, List.count_singleton_self]
      rfl
    rw [shrink, dif_pos hlt]
    dsimp only
    rw [add_eq (hpos _ (List.getElem_mem hlt)), Option.bind_eq_bind, Option.bind_some,
      read_eq (hpos _ (List.getElem_mem hi)), Option.bind_eq_bind, Option.bind_some, hcount]
    split_ifs with hone
    · have hzero : s[i] ∉ window s (t + 1) i := by
        rw [← List.count_eq_zero]
        omega
      exact ⟨_, _, rfl, by omega, hpop, nodup_concat hi (by omega) htail hzero, hwider⟩
    · have hrest : s[i] ∈ window s (t + 1) i := by
        rw [← List.count_pos_iff]
        omega
      exact ih (by omega) htail hrest hpop (by omega)

theorem single_spec (hpos : ∀ c ∈ s, 0 ≤ c.toInt) (hi : i < s.length) (h : Shrunk s i mask t) :
    ∃ mask', add mask s[i].toInt 1 = some mask' ∧
      ∃ v, read mask' s[i].toInt = some v ∧
        ∃ t' mask'', single s s[i] v t mask' = some (t', mask'') ∧ Shrunk s (i + 1) mask'' t' := by
  obtain ⟨hti, hcounts, hnodup, hwidest⟩ := h
  have hchar := hpos _ (List.getElem_mem hi)
  have hpush : Counts _ (window s t i ++ [s[i]]) := hcounts.push
  rw [← window_concat hti hi] at hpush
  refine ⟨_, add_eq hchar, _, read_eq hchar, ?_⟩
  rw [hpush s[i], window_concat hti hi, List.count_append, List.count_singleton_self, single]
  split_ifs with hmany
  · have hmem : s[i] ∈ window s t i := by
      rw [← List.count_pos_iff]
      omega
    exact shrink_spec hpos hi hti hnodup hmem hpush
  · have hnew : s[i] ∉ window s t i := by
      rw [← List.count_eq_zero]
      omega
    refine ⟨t, _, rfl, by omega, hpush, nodup_concat hi hti hnodup hnew, fun a ha hall => ?_⟩
    refine hwidest a ha (hall.sublist ?_)
    rw [window_concat (by omega) hi]
    exact List.sublist_append_left _ _

/-! ## The longest window -/

/-- The lengths of the windows without repetitions that end at `i` or before. -/
def lengths (s : List Int8) (i : ℕ) : Set ℤ :=
  {k | ∃ a b, a ≤ b ∧ b ≤ i ∧ (window s a b).Nodup ∧ (b : ℤ) - a = k}

/-- The first `i` characters have been read. -/
structure Inv (s : List Int8) (i : ℕ) (st : State) : Prop where
  shrunk : Shrunk s i st.mask st.t
  best : IsGreatest (lengths s i) st.res

theorem inv_zero (s : List Int8) : Inv s 0 ⟨fun _ => 0, 0, 0⟩ := by
  refine ⟨⟨le_rfl, fun c => rfl, List.nodup_nil, fun a ha => absurd ha a.not_lt_zero⟩, ?_, ?_⟩
  · exact ⟨0, 0, le_rfl, le_rfl, List.nodup_nil, rfl⟩
  · rintro k ⟨a, b, hab, hb, -, rfl⟩
    change (b : ℤ) - a ≤ 0
    omega

theorem isGreatest_lengths_succ (h : Shrunk s (i + 1) mask t) (hr : IsGreatest (lengths s i) r) :
    IsGreatest (lengths s (i + 1)) (max r (i - t + 1)) := by
  constructor
  · rcases max_choice r ((i : ℤ) - t + 1) with hmax | hmax
    · rw [hmax]
      obtain ⟨a, b, hab, hb, hnodup, hk⟩ := hr.1
      exact ⟨a, b, hab, by omega, hnodup, hk⟩
    · rw [hmax]
      exact ⟨t, i + 1, h.le, le_rfl, h.nodup, by omega⟩
  · rintro k ⟨a, b, hab, hb, hnodup, rfl⟩
    rcases hb.eq_or_lt with rfl | hlt
    · have hta : t ≤ a := Nat.not_lt.mp fun ha => h.widest a ha hnodup
      exact le_trans (by omega) (le_max_right _ _)
    · exact le_trans (hr.2 ⟨a, b, hab, by omega, hnodup, rfl⟩) (le_max_left _ _)

/-- **The body of the loop** keeps the window and the longest length. -/
theorem step_spec (hpos : ∀ c ∈ s, 0 ≤ c.toInt) (hi : i < s.length) (h : Inv s i st) :
    ∃ st', step s st i = some st' ∧ Inv s (i + 1) st' := by
  obtain ⟨mask', hadd, v, hread, t', mask'', hsingle, hshrunk⟩ := single_spec hpos hi h.shrunk
  refine ⟨⟨mask'', t', max st.res (i - t' + 1)⟩, ?_, hshrunk,
    isGreatest_lengths_succ hshrunk h.best⟩
  rw [← List.getD_eq_getElem s 0 hi] at hadd hread hsingle
  simp only [step, hadd, hread, hsingle, Option.bind_eq_bind, Option.bind_some]

theorem steps_spec (hpos : ∀ c ∈ s, 0 ≤ c.toInt) (hi : i ≤ s.length) :
    ∃ st, (List.range i).foldlM (step s) ⟨fun _ => 0, 0, 0⟩ = some st ∧ Inv s i st := by
  refine Loop.foldlM_range (P := Inv s) (inv_zero s) fun i hlt st hst => ?_
  exact step_spec hpos (hlt.trans_le hi) hst

theorem lengths_length (s : List Int8) :
    lengths s s.length = {k : ℤ | ∃ w, w <:+: s ∧ w.Nodup ∧ (w.length : ℤ) = k} := by
  ext k
  constructor
  · rintro ⟨a, b, hab, hb, hnodup, rfl⟩
    refine ⟨_, window_infix s a b, hnodup, ?_⟩
    rw [length_window hb]
    omega
  · rintro ⟨w, hw, hnodup, rfl⟩
    obtain ⟨a, b, hab, hb, rfl⟩ := infix_iff_window.mp hw
    refine ⟨a, b, hab, hb, hnodup, ?_⟩
    rw [length_window hb]
    omega

/-! ## Negative characters -/

/-- There is no cell for a negative character. -/
theorem step_eq_none (h : (s.getD i 0).toInt < 0) : step s st i = none := by
  have hadd : add st.mask (s.getD i 0).toInt 1 = none := if_neg fun hin => by omega
  rw [step, hadd]
  rfl

theorem lengthOfLongestSubstring_eq_none (hc : c ∈ s) (hneg : c.toInt < 0) :
    lengthOfLongestSubstring s = none := by
  obtain ⟨i, hi, rfl⟩ := List.getElem_of_mem hc
  rw [← List.getD_eq_getElem s 0 hi] at hneg
  have hstep : ∀ st, step s st i = none := fun _ => step_eq_none hneg
  rw [lengthOfLongestSubstring, Loop.foldlM_eq_none (List.mem_range.mpr hi) hstep]
  rfl

/-- **The longest length** is found exactly if no character is negative. -/
theorem lengthOfLongestSubstring_iff (s : List Int8) :
    (∃ res, lengthOfLongestSubstring s = some res ∧
      IsGreatest {k : ℤ | ∃ w, w <:+: s ∧ w.Nodup ∧ (w.length : ℤ) = k} res) ↔
        ∀ c ∈ s, 0 ≤ c.toInt := by
  constructor
  · rintro ⟨res, hres, -⟩ c hc
    by_contra hneg
    rw [lengthOfLongestSubstring_eq_none hc (not_le.mp hneg)] at hres
    cases hres
  · intro hpos
    obtain ⟨st, hloop, hst⟩ := steps_spec hpos le_rfl
    refine ⟨st.res, ?_, ?_⟩
    · rw [lengthOfLongestSubstring, hloop]
      rfl
    · rw [← lengths_length]
      exact hst.best

/-- One character that is `0xff`. -/
theorem not_lengthOfLongestSubstring_ff : ¬ ∃ res, lengthOfLongestSubstring [-1] = some res ∧
    IsGreatest {k : ℤ | ∃ w : List Int8, w <:+: [-1] ∧ w.Nodup ∧ (w.length : ℤ) = k} res := by
  rintro ⟨res, hres, -⟩
  rw [lengthOfLongestSubstring_eq_none (List.mem_singleton_self _) (by decide)] at hres
  cases hres

end Sperm.Leetcode.LongestSubstring
