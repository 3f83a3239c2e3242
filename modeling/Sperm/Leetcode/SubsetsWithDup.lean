import Sperm.Lib.Backtracking
import Sperm.Lib.Loop
import Sperm.Lib.Sorted

/-!
# Subsets of a list with equal values (`subsets-2.cc`)

The list is sorted. Equal values are taken together: the recursion goes on behind them with none of
them, with one, and so on up to all.

* `subsetsWithDup` with `R`, `runEnd`: the model.
* `runEnd_spec`: the equal values that come next.
* `IsPart`: a part of what is left, in order; `isPart_replicate_append`, by the number of equal
  values at its front.
* **`R_spec`**: what a call adds.
* **`subsetsWithDup_spec`**: the sub-multisets, each once.

Positions are not cut to `int`.
-/

namespace Sperm.Leetcode.SubsetsWithDup

open Backtracking

/-- The loop that finds the end of the values equal to `S[idx]`, from `e` on. -/
def runEnd (S : List ℤ) (idx e : ℕ) : ℕ :=
  if e < S.length ∧ S.getD e 0 = S.getD idx 0 then runEnd S idx (e + 1) else e
termination_by S.length - e

theorem le_runEnd (S : List ℤ) (idx e : ℕ) : e ≤ runEnd S idx e := by
  fun_induction runEnd S idx e with
  | case1 e h ih => omega
  | case2 e h => exact le_rfl

theorem lt_runEnd {S : List ℤ} {idx : ℕ} (h : idx < S.length) : idx < runEnd S idx idx := by
  rw [runEnd, if_pos ⟨h, rfl⟩]
  exact le_runEnd S idx (idx + 1)

theorem runEnd_le {S : List ℤ} {idx e : ℕ} (h : e ≤ S.length) : runEnd S idx e ≤ S.length := by
  fun_induction runEnd S idx e with
  | case1 e hnext ih => exact ih hnext.1
  | case2 e hnext => exact h

/-- `R(S, idx, vi, res)`: the vector `vi` and the results `res` after the call. -/
def R (S : List ℤ) (idx : ℕ) (hidx : idx ≤ S.length) (vi : List ℤ) (res : List (List ℤ)) :
    List ℤ × List (List ℤ) :=
  if hend : idx = S.length then (vi, res ++ [vi])
  else
    let e : { e // idx < e ∧ e ≤ S.length } :=
      ⟨runEnd S idx idx, lt_runEnd (lt_of_le_of_ne hidx hend), runEnd_le hidx⟩
    let st := R S e e.2.2 vi res
    let st := (List.range (e - idx)).foldl
      (fun st _ => R S e e.2.2 (st.1 ++ [S.getD idx 0]) st.2) st
    ((List.range (e - idx)).foldl (fun vi _ => vi.dropLast) st.1, st.2)
termination_by S.length - idx
decreasing_by
  all_goals
    have hlt := e.2
    dsimp only [e] at hlt
    omega

/-- `subsetsWithDup(S)`. -/
def subsetsWithDup (S : List ℤ) : List (List ℤ) :=
  (R S.mergeSort 0 (Nat.zero_le _) [] []).2

variable {S vi t u : List ℤ} {res : List (List ℤ)} {idx e k : ℕ} {x : ℤ}

/-! ## Equal values -/

/-- The loop stops behind values equal to `S[idx]`, at another one or at the end. -/
theorem runEnd_spec (idx : ℕ) (he : e ≤ S.length) :
    S.drop e = List.replicate (runEnd S idx e - e) (S.getD idx 0) ++ S.drop (runEnd S idx e) ∧
      (runEnd S idx e < S.length → S.getD (runEnd S idx e) 0 ≠ S.getD idx 0) := by
  fun_induction runEnd S idx e with
  | case1 e h ih =>
    obtain ⟨hlt, hval⟩ := h
    obtain ⟨hdrop, hstop⟩ := ih hlt
    have hle := le_runEnd S idx (e + 1)
    have hsub : runEnd S idx (e + 1) - e = (runEnd S idx (e + 1) - (e + 1)) + 1 := by omega
    refine ⟨?_, hstop⟩
    rw [hsub, List.replicate_succ, List.cons_append, ← hdrop, List.drop_eq_getElem_cons hlt,
      ← List.getD_eq_getElem S 0 hlt, hval]
  | case2 e h =>
    refine ⟨?_, fun hlt hval => h ⟨hlt, hval⟩⟩
    rw [Nat.sub_self]
    rfl

theorem notMem_drop_runEnd (hsorted : S.Pairwise (· ≤ ·)) (hidx : idx ≤ S.length) :
    S.getD idx 0 ∉ S.drop (runEnd S idx idx) := by
  intro hmem
  obtain ⟨i, hi, hval⟩ := List.getElem_of_mem hmem
  rw [List.length_drop] at hi
  rw [List.getElem_drop, ← List.getD_eq_getElem S 0] at hval
  have hle := le_runEnd S idx idx
  have hstop := (runEnd_spec idx hidx).2 (by omega)
  have h1 := Sorted.getD_mono (d := 0) hsorted idx (runEnd S idx idx) hle (by omega)
  have h2 := Sorted.getD_mono (d := 0) hsorted (runEnd S idx idx) (runEnd S idx idx + i)
    (by omega) (by omega)
  omega

theorem sublist_replicate_append_iff : t.Sublist (List.replicate k x ++ u) ↔
    ∃ j ≤ k, ∃ t', t'.Sublist u ∧ List.replicate j x ++ t' = t := by
  rw [List.sublist_append_iff]
  constructor
  · rintro ⟨t₁, t', rfl, h₁, ht'⟩
    obtain ⟨j, hj, rfl⟩ := List.sublist_replicate_iff.mp h₁
    exact ⟨j, hj, t', ht', rfl⟩
  · rintro ⟨j, hj, t', ht', rfl⟩
    exact ⟨_, t', rfl, List.sublist_replicate_iff.mpr ⟨j, hj, rfl⟩, ht'⟩

/-! ## The recursion -/

theorem foldl_dropLast (vi : List ℤ) (x : ℤ) (k : ℕ) :
    (List.range k).foldl (fun vi _ => vi.dropLast) (vi ++ List.replicate k x) = vi := by
  have hloop := Loop.foldl_range (n := k) (f := fun vi _ => vi.dropLast)
    (P := fun i v => v = vi ++ List.replicate (k - i) x) rfl fun i hi v hv => by
      have hsub : k - i = (k - (i + 1)) + 1 := by omega
      rw [hv, hsub, List.replicate_succ', ← List.append_assoc, List.dropLast_concat]
  rw [Nat.sub_zero, Nat.sub_self, List.replicate_zero, List.append_nil] at hloop
  exact hloop

/-- With `j` and with fewer values `x` in front, two parts of the rest are not the same. -/
theorem replicate_append_ne {i j : ℕ} {t t' : List ℤ} (hx : x ∉ u) (ht : t.Sublist u)
    (ht' : t'.Sublist u) (hij : i < j) : List.replicate i x ++ t ≠ List.replicate j x ++ t' := by
  intro h
  have hcount := congrArg (List.count x) h
  rw [List.count_append, List.count_append, List.count_replicate_self, List.count_replicate_self,
    List.count_eq_zero_of_not_mem fun hmem => hx (ht.subset hmem),
    List.count_eq_zero_of_not_mem fun hmem => hx (ht'.subset hmem)] at hcount
  omega

/-- The calls with no value `x`, with one, and so on up to `k` of them. -/
theorem copies_spec (vi : List ℤ) (res : List (List ℤ))
    {call : List ℤ → List (List ℤ) → List ℤ × List (List ℤ)}
    (hcall : ∀ v rs, Adds id (·.Sublist u) v rs (call v rs)) (hx : x ∉ u) (k : ℕ)
    {st : List ℤ × List (List ℤ)}
    (hst : st = (List.range k).foldl (fun st _ => call (st.1 ++ [x]) st.2) (call vi res)) :
    st.1 = vi ++ List.replicate k x ∧
      Adds id (·.Sublist (List.replicate k x ++ u)) vi res (vi, st.2) := by
  rw [hst]
  refine Loop.foldl_range (P := fun k (st : List ℤ × List (List ℤ)) =>
    st.1 = vi ++ List.replicate k x ∧
      Adds id (·.Sublist (List.replicate k x ++ u)) vi res (vi, st.2)) ?_ ?_
  · have h := hcall vi res
    have heq : (vi, (call vi res).2) = call vi res := Prod.ext h.fst_eq.symm rfl
    rw [List.replicate_zero, List.append_nil, List.nil_append, heq]
    exact ⟨h.fst_eq, h⟩
  · rintro i - ⟨v, rs⟩ ⟨rfl, hadds⟩
    have hbuffer : vi ++ List.replicate i x ++ [x] = vi ++ List.replicate (i + 1) x := by
      rw [List.replicate_succ', List.append_assoc]
    have h := hcall (vi ++ List.replicate (i + 1) x) rs
    refine ⟨hbuffer ▸ h.fst_eq, ?_⟩
    rw [hbuffer]
    refine (hadds.trans h.push ?_).congr fun t => ?_
    · rintro t ht ⟨t', ht', rfl⟩
      obtain ⟨j, hj, t'', ht'', heq⟩ := sublist_replicate_append_iff.mp ht
      exact replicate_append_ne hx ht'' ht' (Nat.lt_succ_of_le hj) heq
    · rw [sublist_replicate_append_iff, sublist_replicate_append_iff]
      constructor
      · rintro (⟨j, hj, ht⟩ | ht)
        · exact ⟨j, Nat.le_succ_of_le hj, ht⟩
        · exact ⟨i + 1, le_rfl, ht⟩
      · rintro ⟨j, hj, ht⟩
        rcases Nat.le_succ_iff.mp hj with hle | rfl
        · exact .inl ⟨j, hle, ht⟩
        · exact .inr ht

/-- **A call** adds the parts of what is left, behind the vector. -/
theorem R_spec (vi : List ℤ) (res : List (List ℤ)) (hsorted : S.Pairwise (· ≤ ·))
    (hidx : idx ≤ S.length) :
    Adds id (·.Sublist (S.drop idx)) vi res (R S idx hidx vi res) := by
  induction hm : S.length - idx using Nat.strong_induction_on generalizing idx vi res with
  | _ m ih =>
    by_cases hend : idx = S.length
    · rw [R, dif_pos hend, hend, List.drop_length]
      exact adds_buffer fun t => List.sublist_nil
    · have hlt := lt_runEnd (lt_of_le_of_ne hidx hend)
      have hle : runEnd S idx idx ≤ S.length := runEnd_le hidx
      have hcall : ∀ v rs, Adds id (·.Sublist (S.drop (runEnd S idx idx))) v rs
          (R S (runEnd S idx idx) hle v rs) := fun v rs =>
        ih (S.length - runEnd S idx idx) (by omega) v rs hle rfl
      obtain ⟨hbuffer, hadds⟩ := copies_spec vi res hcall
        (notMem_drop_runEnd hsorted hidx) (runEnd S idx idx - idx) rfl
      rw [R, dif_neg hend]
      dsimp only
      rw [hbuffer, foldl_dropLast, (runEnd_spec idx hidx).1]
      exact hadds

/-- **The sub-multisets** are listed once each, as sorted vectors, and every call gives the vector
back. -/
theorem subsetsWithDup_spec (S : List ℤ) :
    (subsetsWithDup S).Nodup ∧
      (∀ t, t ∈ subsetsWithDup S ↔ t.Pairwise (· ≤ ·) ∧ t.Subperm S) ∧
      ∀ idx hidx vi res, (R S.mergeSort idx hidx vi res).1 = vi := by
  have hsorted := List.pairwise_mergeSort' (· ≤ ·) S
  have hres := (R_spec [] [] hsorted (Nat.zero_le _)).enumerates_id
  refine ⟨hres.nodup, fun t => (hres.mem_iff t).trans ?_, fun idx hidx vi res => ?_⟩
  · rw [List.drop_zero, ← (S.mergeSort_perm _).subperm_left]
    constructor
    · exact fun h => ⟨hsorted.sublist h, h.subperm⟩
    · exact fun h => List.sublist_of_subperm_of_pairwise h.2 h.1 hsorted
  · exact (R_spec vi res hsorted hidx).fst_eq

end Sperm.Leetcode.SubsetsWithDup
