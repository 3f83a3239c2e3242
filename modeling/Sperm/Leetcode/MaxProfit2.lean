import Sperm.Leetcode.MaxProfit

/-!
# Any number of transactions (`best-time-to-buy-and-sell-stock-2.cc`)

The loops go over the rises of the price, and nothing is made of the lowest and the highest price of
each.

* `maxProfit` with `rise` and `scan`: the model.
* `Valid`: a choice of transactions; `rises`, what the price gains over all rises.
* **`rises_isGreatest`**: the best profit; `scan_eq`, the loops leave `result` as it is.
* **`maxProfit_iff`**: the result is the best profit only where the price never rises.

Sums are integers.
-/

namespace Sperm.Leetcode.MaxProfit2

open MaxProfit (profit profit_nil profit_cons)

/-- The inner loop: `x` where the rise is over. -/
def rise (prices : List ℤ) (x : ℕ) : ℕ :=
  if x < prices.length then
    if prices.getD x 0 ≤ prices.getD (x - 1) 0 then x else rise prices (x + 1)
  else x
termination_by prices.length - x

theorem le_rise (prices : List ℤ) (x : ℕ) : x ≤ rise prices x := by
  fun_induction rise prices x with
  | case1 => exact le_rfl
  | case2 x _ _ ih => omega
  | case3 => exact le_rfl

theorem lt_rise {prices : List ℤ} {x : ℕ} (hx : x < prices.length)
    (hup : ¬ prices.getD x 0 ≤ prices.getD (x - 1) 0) : x < rise prices x := by
  rw [rise, if_pos hx, if_neg hup]
  exact le_rise prices (x + 1)

/-- The outer loop. The prices at `x - 1` and at `y - 1` go to `s` and `l`, which are not read. -/
def scan (prices : List ℤ) (x : ℕ) (result : ℤ) : ℤ :=
  if x < prices.length then
    if x = 0 ∨ prices.getD x 0 ≤ prices.getD (x - 1) 0 then scan prices (x + 1) result
    else
      let y := rise prices x
      scan prices (y - 1 + 1) result
  else result
termination_by prices.length - x
decreasing_by
  · omega
  · have hlt := lt_rise ‹_› (not_or.mp ‹_›).2
    omega

/-- `maxProfit(prices)`. -/
def maxProfit (prices : List ℤ) : ℤ :=
  if prices.length = 0 then 0 else scan prices 0 0

/-! ## The best profit -/

/-- Transactions on `n` days: each sale is later than its purchase, and no purchase is before an
earlier sale. -/
structure Valid (n : ℕ) (trades : List (ℕ × ℕ)) : Prop where
  later : ∀ t ∈ trades, t.1 < t.2 ∧ t.2 < n
  apart : trades.Pairwise fun t u => t.2 ≤ u.1

/-- The total profits. -/
def profits (prices : List ℤ) : Set ℤ :=
  {v | ∃ trades, Valid prices.length trades ∧ profit prices trades = v}

/-- What the price gains up to day `j`, over all rises. -/
def rises (prices : List ℤ) : ℕ → ℤ
  | 0 => 0
  | j + 1 => rises prices j + max 0 (prices.getD (j + 1) 0 - prices.getD j 0)

variable {prices : List ℤ} {b s lo n : ℕ} {trades : List (ℕ × ℕ)}

theorem sub_le_rises (prices : List ℤ) (h : b ≤ s) :
    prices.getD s 0 - prices.getD b 0 ≤ rises prices s - rises prices b := by
  induction s, h using Nat.le_induction with
  | base => rw [sub_self, sub_self]
  | succ s _ ih =>
    have hstep := le_max_right 0 (prices.getD (s + 1) 0 - prices.getD s 0)
    rw [rises]
    omega

theorem rises_mono (prices : List ℤ) (h : b ≤ s) : rises prices b ≤ rises prices s := by
  induction s, h using Nat.le_induction with
  | base => exact le_rfl
  | succ s _ ih => exact ih.trans (le_add_of_nonneg_right (le_max_left 0 _))

/-- No choice of transactions from day `lo` on does better. -/
theorem profit_le_rises (prices : List ℤ) (h : Valid (n + 1) trades)
    (hlo : ∀ t ∈ trades, lo ≤ t.1) (hn : lo ≤ n) :
    profit prices trades ≤ rises prices n - rises prices lo := by
  induction trades generalizing lo with
  | nil =>
    rw [profit_nil]
    exact sub_nonneg.mpr (rises_mono prices hn)
  | cons t ts ih =>
    obtain ⟨hlater, hapart⟩ := h
    rw [List.pairwise_cons] at hapart
    obtain ⟨hbs, hs⟩ := hlater t List.mem_cons_self
    have hrest : Valid (n + 1) ts :=
      ⟨fun u hu => hlater u (List.mem_cons_of_mem _ hu), hapart.2⟩
    have htail := ih hrest hapart.1 (by omega)
    have hhead := sub_le_rises prices hbs.le
    have hfirst := rises_mono prices (hlo t List.mem_cons_self)
    rw [profit_cons]
    omega

/-- Buying on each day before the price goes up. -/
theorem exists_profit_eq (prices : List ℤ) (n : ℕ) :
    ∃ trades, Valid (n + 1) trades ∧ profit prices trades = rises prices n := by
  induction n with
  | zero => exact ⟨[], ⟨by simp, .nil⟩, rfl⟩
  | succ n ih =>
    obtain ⟨trades, ⟨hlater, hapart⟩, hprofit⟩ := ih
    rw [rises, ← hprofit]
    by_cases hup : prices.getD (n + 1) 0 ≤ prices.getD n 0
    · rw [max_eq_left (sub_nonpos.mpr hup), add_zero]
      refine ⟨trades, ⟨fun t ht => ?_, hapart⟩, rfl⟩
      have hdays := hlater t ht
      omega
    · rw [max_eq_right (sub_nonneg.mpr (le_of_not_ge hup))]
      refine ⟨trades ++ [(n, n + 1)], ⟨fun t ht => ?_, ?_⟩, ?_⟩
      · rcases List.mem_append.mp ht with ht | ht
        · have hdays := hlater t ht
          omega
        · rw [List.mem_singleton.mp ht]
          omega
      · refine List.pairwise_append.mpr ⟨hapart, List.pairwise_singleton _ _, fun t ht u hu => ?_⟩
        have hdays := hlater t ht
        rw [List.mem_singleton.mp hu]
        omega
      · rw [profit, List.map_append, List.sum_append]
        simp [profit]

/-- **The best profit** is what the price gains over all rises. -/
theorem rises_isGreatest (prices : List ℤ) :
    IsGreatest (profits prices) (rises prices (prices.length - 1)) := by
  cases hn : prices.length with
  | zero =>
    refine ⟨⟨[], ⟨by simp, .nil⟩, rfl⟩, ?_⟩
    rintro v ⟨trades, hvalid, rfl⟩
    cases trades with
    | nil => exact le_rfl
    | cons t ts =>
      have hdays := hvalid.later t List.mem_cons_self
      omega
  | succ n =>
    constructor
    · obtain ⟨trades, hvalid, hprofit⟩ := exists_profit_eq prices n
      exact ⟨trades, hn ▸ hvalid, hprofit⟩
    · rintro v ⟨trades, hvalid, rfl⟩
      rw [hn] at hvalid
      have hle := profit_le_rises prices hvalid (fun t _ => Nat.zero_le t.1) (Nat.zero_le n)
      rwa [rises, sub_zero] at hle

/-! ## What the loops find -/

theorem scan_eq (prices : List ℤ) (x : ℕ) (result : ℤ) : scan prices x result = result := by
  fun_induction scan prices x result with
  | case1 _ _ _ ih => exact ih
  | case2 _ _ _ _ ih => exact ih
  | case3 => rfl

theorem maxProfit_eq_zero (prices : List ℤ) : maxProfit prices = 0 := by
  rw [maxProfit, scan_eq, ite_self]

theorem rises_eq_zero_iff (prices : List ℤ) (n : ℕ) :
    rises prices n = 0 ↔ ∀ i < n, prices.getD (i + 1) 0 ≤ prices.getD i 0 := by
  induction n with
  | zero => simp [rises]
  | succ n ih =>
    have hnonneg : 0 ≤ rises prices n := rises_mono prices (Nat.zero_le n)
    have hstep := le_max_left 0 (prices.getD (n + 1) 0 - prices.getD n 0)
    rw [Nat.forall_lt_succ_right, ← ih, rises, add_eq_zero_iff_of_nonneg hnonneg hstep,
      max_eq_left_iff, sub_nonpos]

/-- **The result is the best profit** exactly if no price is higher than the one before it. -/
theorem maxProfit_iff (prices : List ℤ) :
    IsGreatest (profits prices) (maxProfit prices) ↔
      ∀ i, i + 1 < prices.length → prices.getD (i + 1) 0 ≤ prices.getD i 0 := by
  have hbest := rises_isGreatest prices
  rw [maxProfit_eq_zero]
  trans rises prices (prices.length - 1) = 0
  · constructor
    · intro hzero
      exact hbest.unique hzero
    · intro heq
      rwa [heq] at hbest
  · rw [rises_eq_zero_iff]
    refine forall_congr' fun i => imp_congr_left ?_
    omega

/-- Nothing is earned where the price goes from 1 to 2. -/
theorem not_maxProfit_rising : ¬ IsGreatest (profits [1, 2]) (maxProfit [1, 2]) := by
  intro h
  have hone : (1 : ℤ) ∈ profits [1, 2] := ⟨[(0, 1)], ⟨by simp, by simp⟩, rfl⟩
  have hle := h.2 hone
  rw [maxProfit_eq_zero] at hle
  exact absurd hle (by decide)

end Sperm.Leetcode.MaxProfit2
