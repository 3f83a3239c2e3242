import Mathlib.Data.Nat.Choose.Basic
import Sperm.Lib.Loop
import Sperm.Leetcode.DistinctSubsequences

/-!
# A row of Pascal's triangle (`pascal-triangle-2.cc`)

Two rows are used in turn, and each pass makes the next row of the triangle out of the one before.
Row `n` has `n + 1` entries, and the declared rows have `n` cells.

* `getRow` with `body`, `row`: the model, where `none` stands for an access outside the declared
  cells and for a sum that `int` has no room for. `dp` is what the cells happen to hold.
* `row_eq_none`, `getRow_eq_none`: the last pass leaves the declared cells.
* **`getRow_iff`**: the result is right only for row `0`.
-/

namespace Sperm.Leetcode.PascalTriangle

open DistinctSubsequences (Table read write write_eq_none)

/-- The sum of two cells. -/
def sum (a b : ℕ) : Option ℕ := if a + b < 2 ^ 31 then some (a + b) else none

section
variable (cols : ℕ)

/-- The body of the inner loop. -/
def body (i id : ℕ) (dp : Table) (j : ℕ) : Option Table :=
  if j = 0 then do
    let v ← read cols dp id j
    write cols dp (1 - id) j v
  else if j = i then do
    let v ← read cols dp id ((j : ℤ) - 1)
    write cols dp (1 - id) j v
  else do
    let a ← read cols dp id j
    let b ← read cols dp id ((j : ℤ) - 1)
    let v ← sum a b
    write cols dp (1 - id) j v

/-- The body of the outer loop, with `dp` and `id`. -/
def row (st : Table × ℕ) (i : ℕ) : Option (Table × ℕ) := do
  let dp ← (List.range (i + 1)).foldlM (body cols i st.2) st.1
  some (dp, 1 - st.2)

/-- The body of the last loop. -/
def push (st : Table × ℕ) (res : List ℕ) (i : ℕ) : Option (List ℕ) := do
  let v ← read cols st.1 st.2 i
  some (res ++ [v])

end

/-- `getRow(n)`, with the declared `int dp[2][n]`. -/
def getRow (dp : Table) (n : ℕ) : Option (List ℕ) :=
  if n = 0 then some [1]
  else do
    let dp ← write n dp 0 0 1
    let st ← (List.range' 1 n).foldlM (row n) (dp, 0)
    (List.range (n + 1)).foldlM (push n st) []

variable {n : ℕ}

/-- The last pass writes to a column too far. -/
theorem row_eq_none (hn : n ≠ 0) (st : Table × ℕ) : row n st n = none := by
  have hbody : ∀ dp, body n n st.2 dp n = none := by
    intro dp
    rw [body, if_neg hn, if_pos rfl]
    cases read n dp st.2 ((n : ℤ) - 1) with
    | none => rfl
    | some v => exact write_eq_none
  rw [row, Loop.foldlM_eq_none List.self_mem_range_succ hbody]
  rfl

theorem getRow_eq_none (dp : Table) (hn : n ≠ 0) : getRow dp n = none := by
  have hmem : n ∈ List.range' 1 n := List.mem_range'_1.mpr ⟨by omega, by omega⟩
  rw [getRow, if_neg hn]
  cases write n dp 0 0 1 with
  | none => rfl
  | some dp' =>
    rw [Option.bind_eq_bind, Option.bind_some, Loop.foldlM_eq_none hmem (row_eq_none hn)]
    rfl

/-- **The row is found** for `n = 0` only. -/
theorem getRow_iff (dp : Table) (n : ℕ) :
    getRow dp n = some ((List.range (n + 1)).map n.choose) ↔ n = 0 := by
  constructor
  · intro h
    by_contra hn
    rw [getRow_eq_none dp hn] at h
    cases h
  · rintro rfl
    rfl

/-- Row `1`, in rows of one cell. -/
theorem not_getRow_one :
    ¬ getRow (fun _ _ => 0) 1 = some ((List.range (1 + 1)).map (Nat.choose 1)) := by
  rw [getRow_eq_none _ one_ne_zero]
  exact Option.some_ne_none _ ∘ Eq.symm

end Sperm.Leetcode.PascalTriangle
