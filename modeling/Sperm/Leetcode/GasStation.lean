import Mathlib.Algebra.BigOperators.Group.Finset.Basic
import Mathlib.Algebra.Order.Ring.Int
import Mathlib.Algebra.Ring.Periodic
import Mathlib.Data.Int.Notation
import Mathlib.Data.List.GetD

/-!
# A round of gas stations (`gas-station.cc`)

Stations that lead to an empty tank are left out block by block; where the last block starts, the
round starts.

* `canCompleteCircuit` with `totals`, `circuitLoop`: the model; `none` stands for an index outside
  of the lists, and for more passes than `fuel`.
* `partialSum`: sums around a circle; **`partialSum_nonneg`**: they are not negative from the
  lowest place on.
* `Drivable`: a station to start from.
* `Inv`: what the loop keeps; **`circuitLoop_spec`**: it ends at the lowest place after one round.
* **`canCompleteCircuit_spec`**: a station to start from is found, if there is any.

Sums are integers.
-/

namespace Sperm.Leetcode.GasStation

/-- `g` and `c` after `i` passes of the first loop. -/
def totals (gas cost : List ℤ) : ℕ → Option (ℤ × ℤ)
  | 0 => some (0, 0)
  | i + 1 => do
    let (g, c) ← totals gas cost i
    let x ← gas[i]?
    let y ← cost[i]?
    some (g + x, c + y)

/-- The loop `for(;;)`, with its `id`, `sv`, `g` and `c`. -/
def circuitLoop (gas cost : List ℤ) : ℕ → ℕ → ℕ → ℤ → ℤ → Option ℕ
  | 0, _, _, _, _ => none
  | fuel + 1, id, sv, g, c => do
    let x ← gas[id]?
    let y ← cost[id]?
    let g := g + x
    let c := c + y
    let id := (id + 1) % gas.length
    if g < c then
      if id = 0 then some id else circuitLoop gas cost fuel id id 0 0
    else if id = 0 then some sv
    else circuitLoop gas cost fuel id sv g c

/-- `canCompleteCircuit(gas, cost)`. -/
def canCompleteCircuit (fuel : ℕ) (gas cost : List ℤ) : Option ℤ := do
  let (g, c) ← totals gas cost gas.length
  if g < c then some (-1)
  else (circuitLoop gas cost fuel 0 0 0 0).map Int.ofNat

/-! ## Sums around a circle -/

section Circle

variable {d : ℕ → ℤ} {n s k : ℕ}

/-- The sum of `k` values from `s` on. -/
def partialSum (d : ℕ → ℤ) (s k : ℕ) : ℤ := ∑ i ∈ Finset.range k, d (s + i)

theorem partialSum_zero (d : ℕ → ℤ) (s : ℕ) : partialSum d s 0 = 0 := Finset.sum_range_zero _

theorem partialSum_succ (d : ℕ → ℤ) (s k : ℕ) :
    partialSum d s (k + 1) = partialSum d s k + d (s + k) := Finset.sum_range_succ _ _

theorem partialSum_add (d : ℕ → ℤ) (s k : ℕ) :
    partialSum d 0 (s + k) = partialSum d 0 s + partialSum d s k := by
  simp only [partialSum, zero_add]
  exact Finset.sum_range_add d s k

theorem partialSum_period (hd : Function.Periodic d n) (k : ℕ) :
    partialSum d n k = partialSum d 0 k := by
  refine Finset.sum_congr rfl fun i _ => ?_
  rw [zero_add, add_comm, hd]

/-- **No sum is negative** from the place on where the sums are lowest. -/
theorem partialSum_nonneg (hd : Function.Periodic d n) (htotal : 0 ≤ partialSum d 0 n)
    (hs : s ≤ n) (hlow : ∀ k ≤ n, partialSum d 0 s ≤ partialSum d 0 k) (hk : k ≤ n) :
    0 ≤ partialSum d s k := by
  have hadd := partialSum_add d s k
  by_cases hle : s + k ≤ n
  · have h := hlow (s + k) hle
    omega
  · -- the sum goes on over the end of the circle
    obtain ⟨j, hj⟩ := Nat.exists_eq_add_of_le (not_le.mp hle).le
    have hwrap := partialSum_add d n j
    have h := hlow j (by omega)
    rw [partialSum_period hd] at hwrap
    rw [hj] at hadd
    omega

end Circle

/-! ## The circle of stations -/

/-- What the tank gains from station `i` to the next one. -/
def leg (gas cost : List ℤ) (i : ℕ) : ℤ :=
  gas.getD (i % gas.length) 0 - cost.getD (i % gas.length) 0

/-- From station `s` the tank is not empty before any of the stations around the circle. -/
def Drivable (gas cost : List ℤ) (s : ℕ) : Prop :=
  s < gas.length ∧ ∀ k ≤ gas.length, 0 ≤ partialSum (leg gas cost) s k

variable {gas cost : List ℤ} {fuel id sv i : ℕ} {g c : ℤ}

theorem leg_periodic (gas cost : List ℤ) : Function.Periodic (leg gas cost) gas.length := by
  intro i
  rw [leg, leg, Nat.add_mod_right]

theorem exists_leg (hlen : gas.length = cost.length) (hi : i < gas.length) :
    ∃ x y, gas[i]? = some x ∧ cost[i]? = some y ∧ leg gas cost i = x - y := by
  refine ⟨gas[i], cost[i], List.getElem?_eq_getElem hi, List.getElem?_eq_getElem (hlen ▸ hi), ?_⟩
  rw [leg, Nat.mod_eq_of_lt hi, List.getD_eq_getElem _ _ hi, List.getD_eq_getElem _ _ (hlen ▸ hi)]

theorem totals_eq (hlen : gas.length = cost.length) (hi : i ≤ gas.length) :
    ∃ g c, totals gas cost i = some (g, c) ∧ g - c = partialSum (leg gas cost) 0 i := by
  induction i with
  | zero => exact ⟨0, 0, rfl, rfl⟩
  | succ i ih =>
    obtain ⟨g, c, htotals, hsum⟩ := ih (by omega)
    obtain ⟨x, y, hx, hy, hleg⟩ := exists_leg hlen hi
    refine ⟨g + x, c + y, by simp [totals, htotals, hx, hy], ?_⟩
    rw [partialSum_succ, zero_add, hleg]
    omega

/-- The block that starts at `sv` has brought the tank to `g - c`, and the tank was never lower
than there. -/
structure Inv (gas cost : List ℤ) (id sv : ℕ) (g c : ℤ) : Prop where
  sv_le : sv ≤ id
  tank_eq : g - c = partialSum (leg gas cost) 0 id - partialSum (leg gas cost) 0 sv
  low : ∀ k ≤ id, partialSum (leg gas cost) 0 sv ≤ partialSum (leg gas cost) 0 k

theorem inv_zero : Inv gas cost 0 0 0 0 := by
  refine ⟨le_rfl, by omega, fun k hk => ?_⟩
  rw [Nat.le_zero.mp hk]

section Step

variable (h : Inv gas cost id sv g c) {x y : ℤ} (hleg : leg gas cost id = x - y)

include h hleg

theorem Inv.next (hge : ¬ g + x < c + y) : Inv gas cost (id + 1) sv (g + x) (c + y) := by
  have hsucc := partialSum_succ (leg gas cost) 0 id
  have htank := h.tank_eq
  rw [zero_add] at hsucc
  refine ⟨h.sv_le.trans (Nat.le_succ id), by omega, fun k hk => ?_⟩
  rcases hk.eq_or_lt with rfl | hlt
  · omega
  · exact h.low k (by omega)

/-- The block has emptied the tank, so the next one starts lower. -/
theorem Inv.partialSum_lt (hlt : g + x < c + y) :
    partialSum (leg gas cost) 0 (id + 1) < partialSum (leg gas cost) 0 sv := by
  have hsucc := partialSum_succ (leg gas cost) 0 id
  have htank := h.tank_eq
  rw [zero_add] at hsucc
  omega

theorem Inv.reset (hlt : g + x < c + y) : Inv gas cost (id + 1) (id + 1) 0 0 := by
  have hlow := h.partialSum_lt hleg hlt
  refine ⟨le_rfl, by omega, fun k hk => ?_⟩
  rcases hk.eq_or_lt with rfl | hk
  · exact le_rfl
  · exact hlow.le.trans (h.low k (by omega))

end Step

theorem circuitLoop_succ {x y : ℤ} (hx : gas[id]? = some x) (hy : cost[id]? = some y)
    (fuel : ℕ) : circuitLoop gas cost (fuel + 1) id sv g c =
      if g + x < c + y then
        if (id + 1) % gas.length = 0 then some ((id + 1) % gas.length)
        else circuitLoop gas cost fuel ((id + 1) % gas.length) ((id + 1) % gas.length) 0 0
      else if (id + 1) % gas.length = 0 then some sv
      else circuitLoop gas cost fuel ((id + 1) % gas.length) sv (g + x) (c + y) := by
  simp only [circuitLoop, hx, hy, Option.bind_eq_bind, Option.bind_some]

/-- **The loop** ends after one round, at the station before which the tank is lowest. -/
theorem circuitLoop_spec (hlen : gas.length = cost.length)
    (htotal : 0 ≤ partialSum (leg gas cost) 0 gas.length) (h : Inv gas cost id sv g c)
    (hid : id < gas.length) :
    ∃ s < gas.length,
      (∀ fuel, gas.length ≤ id + fuel → circuitLoop gas cost fuel id sv g c = some s) ∧
      ∀ k ≤ gas.length, partialSum (leg gas cost) 0 s ≤ partialSum (leg gas cost) 0 k := by
  obtain ⟨m, hm⟩ := Nat.exists_eq_add_of_lt hid
  induction m generalizing id sv g c with
  | zero =>
    obtain ⟨x, y, hx, hy, hleg⟩ := exists_leg hlen hid
    have hend : id + 1 = gas.length := by omega
    have hge : ¬ g + x < c + y := by
      intro hlt
      -- the tank is lower after the whole round than before it
      have hneg := h.partialSum_lt hleg hlt
      have hzero := h.low 0 (Nat.zero_le id)
      rw [hend] at hneg
      rw [partialSum_zero] at hzero
      omega
    have hlow := (h.next hleg hge).low
    rw [hend] at hlow
    refine ⟨sv, h.sv_le.trans_lt hid, fun fuel hfuel => ?_, hlow⟩
    obtain ⟨fuel, rfl⟩ : ∃ f, fuel = f + 1 := Nat.exists_eq_succ_of_ne_zero (by omega)
    rw [circuitLoop_succ hx hy, if_neg hge, hend, Nat.mod_self, if_pos rfl]
  | succ m ih =>
    obtain ⟨x, y, hx, hy, hleg⟩ := exists_leg hlen hid
    have hmod : (id + 1) % gas.length = id + 1 := Nat.mod_eq_of_lt (by omega)
    by_cases hlt : g + x < c + y
    · obtain ⟨s, hs, hloop, hlow⟩ := ih (h.reset hleg hlt) (by omega) (by omega)
      refine ⟨s, hs, fun fuel hfuel => ?_, hlow⟩
      obtain ⟨fuel, rfl⟩ : ∃ f, fuel = f + 1 := Nat.exists_eq_succ_of_ne_zero (by omega)
      rw [circuitLoop_succ hx hy, if_pos hlt, hmod, if_neg (Nat.succ_ne_zero id)]
      exact hloop fuel (by omega)
    · obtain ⟨s, hs, hloop, hlow⟩ := ih (h.next hleg hlt) (by omega) (by omega)
      refine ⟨s, hs, fun fuel hfuel => ?_, hlow⟩
      obtain ⟨fuel, rfl⟩ : ∃ f, fuel = f + 1 := Nat.exists_eq_succ_of_ne_zero (by omega)
      rw [circuitLoop_succ hx hy, if_neg hlt, hmod, if_neg (Nat.succ_ne_zero id)]
      exact hloop fuel (by omega)

/-- **A station** is found that the whole circle can be driven from, unless there is none. -/
theorem canCompleteCircuit_spec (hne : gas ≠ []) (hlen : gas.length = cost.length) :
    ∃ r, (∀ fuel, gas.length ≤ fuel → canCompleteCircuit fuel gas cost = some r) ∧
      (r = -1 ↔ ∀ s, ¬ Drivable gas cost s) ∧
      (r ≠ -1 → ∃ s : ℕ, r = s ∧ Drivable gas cost s) := by
  have hpos : 0 < gas.length := List.length_pos_iff.mpr hne
  have hper := leg_periodic gas cost
  obtain ⟨g, c, htotals, hsum⟩ := totals_eq hlen le_rfl
  by_cases hlt : g < c
  · have hnone : ∀ s, ¬ Drivable gas cost s := by
      rintro s ⟨hs, hdrive⟩
      -- a whole round gains the same from everywhere
      have hround := hdrive gas.length le_rfl
      have h1 := partialSum_add (leg gas cost) s gas.length
      have h2 := partialSum_add (leg gas cost) gas.length s
      rw [partialSum_period hper] at h2
      rw [add_comm] at h1
      omega
    refine ⟨-1, fun fuel _ => ?_, iff_of_true rfl hnone, fun h => absurd rfl h⟩
    rw [canCompleteCircuit, htotals]
    exact if_pos hlt
  · have htotal : 0 ≤ partialSum (leg gas cost) 0 gas.length := by omega
    obtain ⟨s, hs, hloop, hlow⟩ :=
      circuitLoop_spec hlen htotal inv_zero hpos
    have hdrive : Drivable gas cost s :=
      ⟨hs, fun k hk => partialSum_nonneg hper htotal hs.le hlow hk⟩
    refine ⟨s, fun fuel hfuel => ?_, ?_, fun _ => ⟨s, rfl, hdrive⟩⟩
    · rw [canCompleteCircuit, htotals, Option.bind_eq_bind, Option.bind_some]
      dsimp only
      rw [if_neg hlt, hloop fuel (by omega)]
      rfl
    · exact iff_of_false (by omega) fun h => h s hdrive

/-- A round of five stations. -/
theorem canCompleteCircuit_five :
    ∃ r, (∀ fuel, 5 ≤ fuel → canCompleteCircuit fuel [1, 2, 3, 4, 5] [3, 4, 5, 1, 2] = some r) ∧
      (r = -1 ↔ ∀ s, ¬ Drivable [1, 2, 3, 4, 5] [3, 4, 5, 1, 2] s) ∧
      (r ≠ -1 → ∃ s : ℕ, r = s ∧ Drivable [1, 2, 3, 4, 5] [3, 4, 5, 1, 2] s) := by
  have hne : [(1 : ℤ), 2, 3, 4, 5] ≠ [] := by simp
  exact canCompleteCircuit_spec hne rfl

end Sperm.Leetcode.GasStation
