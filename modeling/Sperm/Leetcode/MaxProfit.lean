import Mathlib.Algebra.BigOperators.Group.List.Basic
import Mathlib.Algebra.Order.Ring.Int
import Mathlib.Data.Int.Notation
import Mathlib.Data.List.GetD
import Mathlib.Order.Bounds.Image
import Sperm.Lib.Loop

/-!
# Two transactions (`best-time-to-buy-and-sell-stock-3.cc`)

One table has the best single profit up to a day and the other one the best from a day on; the two
are joined at every day.

* `maxProfit` with `P0`, `P1`: the model.
* `single`: the profits of at most one transaction; `P0_spec`, `P1_spec`: the best ones.
* `Valid`, `profit`: a choice of transactions.
* **`maxProfit_spec`**: the best profit of at most two transactions.

Sums are integers.
-/

namespace Sperm.Leetcode.MaxProfit

/-- `dp[i]` and `s` in `P0(prices, dp)`. -/
def P0 (prices : List ℤ) : ℕ → ℤ × ℤ
  | 0 => (0, prices.getD 0 0)
  | i + 1 =>
    let (d, s) := P0 prices i
    let p := prices.getD (i + 1) 0
    (max d (p - s), min s p)

/-- `dp[t - k]` and `s` in `P1(prices, dp)`. -/
def P1 (prices : List ℤ) : ℕ → ℤ × ℤ
  | 0 => (0, prices.getD (prices.length - 1) 0)
  | k + 1 =>
    let (d, s) := P1 prices k
    let p := prices.getD (prices.length - 1 - (k + 1)) 0
    (max d (s - p), max s p)

/-- `maxProfit(prices)`. -/
def maxProfit (prices : List ℤ) : ℤ :=
  let n := prices.length
  if n = 0 then 0
  else
    (List.range n).foldl (fun result i =>
      let v1 := if i ≠ 0 then (P0 prices (i - 1)).1 else 0
      let v2 := (P1 prices (n - 1 - i)).1
      max (v1 + v2) result) 0

/-! ## One transaction -/

/-- The profits of at most one transaction on the days from `lo` to `hi`. -/
def single (prices : List ℤ) (lo hi : ℕ) : Set ℤ :=
  {v | v = 0 ∨ ∃ b s, lo ≤ b ∧ b < s ∧ s ≤ hi ∧ prices.getD s 0 - prices.getD b 0 = v}

variable {prices : List ℤ} {i k lo hi : ℕ} {v d x : ℤ}

/-- The prices on the days from `lo` to `hi`. -/
def window (prices : List ℤ) (lo hi : ℕ) : Set ℤ :=
  {x | ∃ j, lo ≤ j ∧ j ≤ hi ∧ prices.getD j 0 = x}

theorem single_self : IsGreatest (single prices i i) 0 := by
  refine ⟨.inl rfl, ?_⟩
  rintro v (rfl | ⟨b, s, hb, hbs, hs, -⟩)
  · exact le_rfl
  · omega

theorem single_succ_eq : single prices lo (hi + 1) =
    single prices lo hi ∪ (fun x => prices.getD (hi + 1) 0 - x) '' window prices lo hi := by
  ext v
  constructor
  · rintro (hzero | ⟨b, s, hb, hbs, hs, rfl⟩)
    · exact .inl (.inl hzero)
    · by_cases hlast : s = hi + 1
      · subst hlast
        exact .inr ⟨_, ⟨b, hb, by omega, rfl⟩, rfl⟩
      · exact .inl (.inr ⟨b, s, hb, hbs, by omega, rfl⟩)
  · rintro ((hzero | ⟨b, s, hb, hbs, hs, hv⟩) | ⟨x, ⟨j, hlo, hj, rfl⟩, rfl⟩)
    · exact .inl hzero
    · exact .inr ⟨b, s, hb, hbs, by omega, hv⟩
    · exact .inr ⟨j, hi + 1, hlo, by omega, le_rfl, rfl⟩

theorem single_pred_eq : single prices lo hi =
    single prices (lo + 1) hi ∪ (fun x => x - prices.getD lo 0) '' window prices (lo + 1) hi := by
  ext v
  constructor
  · rintro (hzero | ⟨b, s, hb, hbs, hs, rfl⟩)
    · exact .inl (.inl hzero)
    · by_cases hfirst : b = lo
      · subst hfirst
        exact .inr ⟨_, ⟨s, by omega, hs, rfl⟩, rfl⟩
      · exact .inl (.inr ⟨b, s, by omega, hbs, hs, rfl⟩)
  · rintro ((hzero | ⟨b, s, hb, hbs, hs, hv⟩) | ⟨x, ⟨j, hlo, hj, rfl⟩, rfl⟩)
    · exact .inl hzero
    · exact .inr ⟨b, s, by omega, hbs, hs, hv⟩
    · exact .inr ⟨lo, j, le_rfl, hlo, hj, rfl⟩

theorem single_succ (hd : IsGreatest (single prices lo hi) d)
    (hx : IsLeast (window prices lo hi) x) :
    IsGreatest (single prices lo (hi + 1)) (max d (prices.getD (hi + 1) 0 - x)) := by
  have hsell : Antitone fun x => prices.getD (hi + 1) 0 - x :=
    fun _ _ h => sub_le_sub_left h _
  rw [single_succ_eq]
  exact hd.union (hsell.map_isLeast hx)

theorem single_pred (hd : IsGreatest (single prices (lo + 1) hi) d)
    (hx : IsGreatest (window prices (lo + 1) hi) x) :
    IsGreatest (single prices lo hi) (max d (x - prices.getD lo 0)) := by
  have hbuy : Monotone fun x => x - prices.getD lo 0 := fun _ _ h => sub_le_sub_right h _
  rw [single_pred_eq]
  exact hd.union (hbuy.map_isGreatest hx)

theorem window_self : window prices i i = {prices.getD i 0} := by
  ext x
  constructor
  · rintro ⟨j, hi, hj, rfl⟩
    rw [le_antisymm hj hi]
    rfl
  · rintro rfl
    exact ⟨i, le_rfl, le_rfl, rfl⟩

theorem window_succ (h : lo ≤ hi + 1) :
    window prices lo (hi + 1) = insert (prices.getD (hi + 1) 0) (window prices lo hi) := by
  ext x
  constructor
  · rintro ⟨j, hlo, hj, rfl⟩
    by_cases hlast : j = hi + 1
    · exact .inl (by rw [hlast])
    · exact .inr ⟨j, hlo, by omega, rfl⟩
  · rintro (rfl | ⟨j, hlo, hj, rfl⟩)
    · exact ⟨hi + 1, h, le_rfl, rfl⟩
    · exact ⟨j, hlo, by omega, rfl⟩

theorem window_pred (h : lo ≤ hi) :
    window prices lo hi = insert (prices.getD lo 0) (window prices (lo + 1) hi) := by
  ext x
  constructor
  · rintro ⟨j, hlo, hj, rfl⟩
    by_cases hfirst : j = lo
    · exact .inl (by rw [hfirst])
    · exact .inr ⟨j, by omega, hj, rfl⟩
  · rintro (rfl | ⟨j, hlo, hj, rfl⟩)
    · exact ⟨lo, le_rfl, h, rfl⟩
    · exact ⟨j, by omega, hj, rfl⟩

theorem P0_spec (prices : List ℤ) (i : ℕ) :
    IsGreatest (single prices 0 i) (P0 prices i).1 ∧
      IsLeast (window prices 0 i) (P0 prices i).2 := by
  induction i with
  | zero => exact ⟨single_self, by rw [window_self]; exact isLeast_singleton⟩
  | succ i ih =>
    refine ⟨single_succ ih.1 ih.2, ?_⟩
    rw [window_succ (Nat.zero_le _)]
    simpa [P0, min_comm] using ih.2.insert (prices.getD (i + 1) 0)

theorem P1_spec (hk : k < prices.length) :
    IsGreatest (single prices (prices.length - 1 - k) (prices.length - 1)) (P1 prices k).1 ∧
      IsGreatest (window prices (prices.length - 1 - k) (prices.length - 1)) (P1 prices k).2 := by
  induction k with
  | zero =>
    rw [Nat.sub_zero, window_self]
    exact ⟨single_self, isGreatest_singleton⟩
  | succ k ih =>
    have hsucc : prices.length - 1 - k = prices.length - 1 - (k + 1) + 1 := by omega
    obtain ⟨hd, hx⟩ := ih (by omega)
    rw [hsucc] at hd hx
    refine ⟨single_pred hd hx, ?_⟩
    rw [window_pred (by omega)]
    simpa [P1, max_comm] using hx.insert (prices.getD (prices.length - 1 - (k + 1)) 0)

/-! ## Two transactions -/

/-- At most two transactions on `n` days: each sale is later than its purchase, and the second
purchase is not before the first sale. -/
structure Valid (n : ℕ) (trades : List (ℕ × ℕ)) : Prop where
  few : trades.length ≤ 2
  later : ∀ t ∈ trades, t.1 < t.2 ∧ t.2 < n
  apart : trades.Pairwise fun t u => t.2 ≤ u.1

/-- The total profit of some transactions. -/
def profit (prices : List ℤ) (trades : List (ℕ × ℕ)) : ℤ :=
  (trades.map fun t => prices.getD t.2 0 - prices.getD t.1 0).sum

theorem profit_nil : profit prices [] = 0 := rfl

theorem profit_cons (t : ℕ × ℕ) (ts : List (ℕ × ℕ)) :
    profit prices (t :: ts) = prices.getD t.2 0 - prices.getD t.1 0 + profit prices ts := by
  rw [profit, List.map_cons, List.sum_cons, profit]

theorem exists_of_single (h : v ∈ single prices lo hi) :
    ∃ trades, trades.length ≤ 1 ∧ (∀ t ∈ trades, lo ≤ t.1 ∧ t.1 < t.2 ∧ t.2 ≤ hi) ∧
      trades.Pairwise (fun t u => t.2 ≤ u.1) ∧ profit prices trades = v := by
  rcases h with rfl | ⟨b, s, hb, hbs, hs, rfl⟩
  · exact ⟨[], by simp, by simp, .nil, rfl⟩
  · refine ⟨[(b, s)], by simp, by simpa using ⟨hb, hbs, hs⟩, by simp, ?_⟩
    rw [profit_cons, profit_nil, add_zero]

theorem foldl_max (f : ℕ → ℤ) (n : ℕ) :
    IsGreatest {v | v = 0 ∨ ∃ i < n, f i = v}
      ((List.range n).foldl (fun result i => max (f i) result) 0) := by
  refine Loop.foldl_range
    (P := fun n result => IsGreatest {v | v = 0 ∨ ∃ i < n, f i = v} result) ?_ ?_
  · refine ⟨.inl rfl, ?_⟩
    rintro v (rfl | ⟨i, hi, -⟩)
    · exact le_rfl
    · omega
  · intro n _ result h
    refine Eq.subst (motive := fun S => IsGreatest S _) ?_ (h.insert (f n))
    ext v
    constructor
    · rintro (rfl | rfl | ⟨i, hi, hv⟩)
      · exact .inr ⟨n, by omega, rfl⟩
      · exact .inl rfl
      · exact .inr ⟨i, by omega, hv⟩
    · rintro (rfl | ⟨i, hi, hv⟩)
      · exact .inr (.inl rfl)
      · by_cases hlast : i = n
        · exact .inl (by rw [← hv, hlast])
        · exact .inr (.inr ⟨i, by omega, hv⟩)

/-- The profit that is joined at day `i`. -/
def joined (prices : List ℤ) (i : ℕ) : ℤ :=
  (if i ≠ 0 then (P0 prices (i - 1)).1 else 0) + (P1 prices (prices.length - 1 - i)).1

theorem maxProfit_eq (prices : List ℤ) :
    IsGreatest {v | v = 0 ∨ ∃ i < prices.length, joined prices i = v} (maxProfit prices) := by
  have hfold := foldl_max (joined prices) prices.length
  unfold maxProfit
  by_cases hn : prices.length = 0
  · rw [hn] at hfold
    rw [if_pos hn, hn]
    exact hfold
  · rw [if_neg hn]
    exact hfold

theorem P1_isGreatest (hi : i < prices.length) :
    IsGreatest (single prices i (prices.length - 1)) (P1 prices (prices.length - 1 - i)).1 := by
  have hlt : prices.length - 1 - i < prices.length := by omega
  have hspec := (P1_spec hlt).1
  have hsub : prices.length - 1 - (prices.length - 1 - i) = i := by omega
  rwa [hsub] at hspec

/-- The transactions of both tables go together. -/
theorem exists_joined (hi : i < prices.length) :
    ∃ trades, Valid prices.length trades ∧ profit prices trades = joined prices i := by
  have hfirst : (if i ≠ 0 then (P0 prices (i - 1)).1 else 0) ∈ single prices 0 (i - 1) := by
    split_ifs
    · exact (P0_spec prices (i - 1)).1.1
    · exact .inl rfl
  obtain ⟨ts, hlen, hts, hapart, hprofit⟩ := exists_of_single hfirst
  obtain ⟨us, hlen', hus, hapart', hprofit'⟩ := exists_of_single (P1_isGreatest hi).1
  refine ⟨ts ++ us, ⟨?_, ?_, ?_⟩, ?_⟩
  · rw [List.length_append]
    omega
  · intro t ht
    rcases List.mem_append.mp ht with ht | ht
    · have hdays := hts t ht
      omega
    · have hdays := hus t ht
      omega
  · refine List.pairwise_append.mpr ⟨hapart, hapart', fun t ht u hu => ?_⟩
    have hdays := hts t ht
    have hdays' := hus u hu
    omega
  · rw [profit, List.map_append, List.sum_append]
    exact congrArg₂ (· + ·) hprofit hprofit'

theorem single_le_joined (h : v ∈ single prices 0 (prices.length - 1)) (hn : 0 < prices.length) :
    v ≤ joined prices 0 := by
  have hle := (P1_isGreatest hn).2 h
  rw [joined, if_neg (by simp), zero_add]
  exact hle

/-- Two transactions are found at the day of the second purchase, or as a single one. -/
theorem exists_le_joined {trades : List (ℕ × ℕ)} (h : Valid prices.length trades) :
    profit prices trades = 0 ∨ ∃ i < prices.length, profit prices trades ≤ joined prices i := by
  obtain ⟨hfew, hlater, hapart⟩ := h
  match trades with
  | [] => exact .inl rfl
  | [t] =>
    obtain ⟨hbs, hs⟩ := hlater t (by simp)
    refine .inr ⟨0, by omega, single_le_joined ?_ (by omega)⟩
    rw [profit_cons, profit_nil, add_zero]
    exact .inr ⟨t.1, t.2, Nat.zero_le _, hbs, by omega, rfl⟩
  | [t, u] =>
    obtain ⟨hbs, hs⟩ := hlater t (by simp)
    obtain ⟨hbs', hs'⟩ := hlater u (by simp)
    have hle : t.2 ≤ u.1 := by simpa using hapart
    rw [profit_cons, profit_cons, profit_nil, add_zero]
    rcases hle.eq_or_lt with heq | hlt
    · -- on a shared day the share is sold and bought at the same price
      refine .inr ⟨0, by omega, single_le_joined ?_ (by omega)⟩
      refine .inr ⟨t.1, u.2, Nat.zero_le _, by omega, by omega, ?_⟩
      rw [heq]
      omega
    · refine .inr ⟨u.1, by omega, ?_⟩
      have hfirst := (P0_spec prices (u.1 - 1)).1.2
        (.inr ⟨t.1, t.2, Nat.zero_le _, hbs, by omega, rfl⟩)
      have hlast : u.1 < prices.length := by omega
      have hsecond := (P1_isGreatest hlast).2
        (.inr ⟨u.1, u.2, le_rfl, hbs', by omega, rfl⟩)
      rw [joined, if_pos (by omega)]
      exact add_le_add hfirst hsecond
  | _ :: _ :: _ :: _ => simp at hfew

/-- **The best profit** of at most two transactions. -/
theorem maxProfit_spec (prices : List ℤ) :
    IsGreatest {v | ∃ trades, Valid prices.length trades ∧ profit prices trades = v}
      (maxProfit prices) := by
  obtain ⟨hmem, hle⟩ := maxProfit_eq prices
  constructor
  · rcases hmem with hzero | ⟨i, hi, hv⟩
    · exact ⟨[], ⟨by simp, by simp, .nil⟩, by rw [hzero, profit_nil]⟩
    · obtain ⟨trades, hvalid, hprofit⟩ := exists_joined hi
      exact ⟨trades, hvalid, hprofit.trans hv⟩
  · rintro v ⟨trades, hvalid, rfl⟩
    rcases exists_le_joined hvalid with hzero | ⟨i, hi, hlej⟩
    · exact hle (.inl hzero)
    · exact hlej.trans (hle (.inr ⟨i, hi, rfl⟩))

end Sperm.Leetcode.MaxProfit
