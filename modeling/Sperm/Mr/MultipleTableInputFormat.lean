import Mathlib.Data.List.Lex
import Mathlib.Tactic.Common

/-!
# Splits of a table scan (`mr/MultipleTableInputFormat.java`, `mr2/MultipleTableInputFormat.java`)

A table is cut into regions, and a scan gives one split for every region it meets. An empty row key
is minus infinity as a start, plus infinity as a stop, and the smallest key for `Bytes.compareTo`,
which is a parameter.

* `rank`, `IsByteOrder`: the order of row keys, and what the code relies on in `Bytes.compareTo`.
* `getSplitsEachScan`; `inRange`, a half-open range of row keys.
* `inRange_splitOf`: the split of a region holds the rows of the region that are in the scan.
* **`splits_partition_scan`**: the splits partition the scan.
-/

namespace Sperm.MultipleTableInputFormat

/-- A row key in the lexicographic order of naturals. -/
def rank (row : List UInt8) : List ℕ := row.map UInt8.toNat

/-- `Bytes.compareTo` compares row keys by their unsigned bytes. -/
structure IsByteOrder (compareTo : List UInt8 → List UInt8 → ℤ) : Prop where
  neg_iff : ∀ a b, compareTo a b < 0 ↔ rank a < rank b
  pos_iff : ∀ a b, 0 < compareTo a b ↔ rank b < rank a

/-- `Scan`, as far as splits look at it. -/
structure Scan where
  startRow : List UInt8
  stopRow : List UInt8

/-- `HTable`: `getStartEndKeys()`, `none` for null arrays, and the host of the region of a row. -/
structure HTable where
  tableName : List UInt8
  startEndKeys : Option (List (List UInt8) × List (List UInt8))
  regionLocation : List UInt8 → String

structure MultipleTableSplit where
  tableName : List UInt8
  startRow : List UInt8
  endRow : List UInt8
  regionLocation : String
  scan : Scan

inductive Exception where
  /-- `IOException("Expecting at least one region.")`. -/
  | io
  | arrayIndexOutOfBounds
  deriving DecidableEq

section

variable (compareTo : List UInt8 → List UInt8 → ℤ)

def includeRegionInSplit (_startKey _endKey : List UInt8) : Bool := true

/-- Do the start and stop row of the scan fall into the region? -/
def meets (scan : Scan) (startKey endKey : List UInt8) : Bool :=
  (scan.startRow.length = 0 || endKey.length = 0 || compareTo scan.startRow endKey < 0) &&
    (scan.stopRow.length = 0 || compareTo scan.stopRow startKey > 0)

def splitStart (scan : Scan) (startKey : List UInt8) : List UInt8 :=
  if scan.startRow.length = 0 ∨ compareTo startKey scan.startRow ≥ 0 then startKey
  else scan.startRow

def splitStop (scan : Scan) (endKey : List UInt8) : List UInt8 :=
  if (scan.stopRow.length = 0 ∨ compareTo endKey scan.stopRow ≤ 0) ∧ endKey.length > 0 then endKey
  else scan.stopRow

/-- The loop over the regions. -/
def splitsFrom (table : HTable) (scan : Scan) :
    List (List UInt8) → List (List UInt8) → Except Exception (List MultipleTableSplit)
  | [], _ => .ok []
  | _ :: _, [] => .error .arrayIndexOutOfBounds
  | startKey :: starts, endKey :: ends =>
    match splitsFrom table scan starts ends with
    | .error e => .error e
    | .ok splits =>
      if includeRegionInSplit startKey endKey && meets compareTo scan startKey endKey then
        .ok (⟨table.tableName, splitStart compareTo scan startKey,
          splitStop compareTo scan endKey, table.regionLocation startKey, scan⟩ :: splits)
      else .ok splits

/-- `getSplitsEachScan(table, scan, context)`. -/
def getSplitsEachScan (table : HTable) (scan : Scan) :
    Except Exception (List MultipleTableSplit) :=
  match table.startEndKeys with
  | none => .error .io
  | some ([], _) => .error .io
  | some (startKey :: starts, ends) => splitsFrom compareTo table scan (startKey :: starts) ends

end

/-! ## Ranges of row keys -/

/-- The half-open range from `start` to `stop`; an empty `stop` is no bound. -/
def inRange (start stop row : List UInt8) : Bool :=
  rank start ≤ rank row && (stop = [] || rank row < rank stop)

def Scan.contains (scan : Scan) (row : List UInt8) : Bool :=
  inRange scan.startRow scan.stopRow row

def MultipleTableSplit.contains (split : MultipleTableSplit) (row : List UInt8) : Bool :=
  inRange split.startRow split.endRow row

/-- The regions partition the key space: the first start key and the last end key are empty, each
end key is the next start key, and start keys increase. -/
structure Partition (starts ends : List (List UInt8)) : Prop where
  first : starts.head? = some []
  last : ends.getLast? = some []
  adjacent : ends.dropLast = starts.tail
  increasing : starts.IsChain fun a b => rank a < rank b

/-! ## The order of row keys -/

variable {compareTo : List UInt8 → List UInt8 → ℤ}

theorem IsByteOrder.nonpos_iff (hcmp : IsByteOrder compareTo) (a b : List UInt8) :
    compareTo a b ≤ 0 ↔ rank a ≤ rank b := by
  rw [← not_lt (a := rank b), ← hcmp.pos_iff]
  omega

theorem IsByteOrder.nonneg_iff (hcmp : IsByteOrder compareTo) (a b : List UInt8) :
    0 ≤ compareTo a b ↔ rank b ≤ rank a := by
  rw [← not_lt (a := rank a), ← hcmp.neg_iff]
  omega

theorem inRange_iff {start stop row : List UInt8} : inRange start stop row = true ↔
    rank start ≤ rank row ∧ (stop = [] ∨ rank row < rank stop) := by
  simp [inRange]

theorem rank_nil_le (row : List UInt8) : rank [] ≤ rank row := not_lt.mp (List.not_lt_nil _)

/-! ## One region -/

theorem meets_iff (hcmp : IsByteOrder compareTo) {scan : Scan} {startKey endKey : List UInt8} :
    meets compareTo scan startKey endKey = true ↔
      (scan.startRow = [] ∨ endKey = [] ∨ rank scan.startRow < rank endKey) ∧
        (scan.stopRow = [] ∨ rank startKey < rank scan.stopRow) := by
  simp [meets, hcmp.neg_iff, hcmp.pos_iff, or_assoc]

theorem not_inRange_of_not_meets (hcmp : IsByteOrder compareTo) {scan : Scan}
    {startKey endKey row : List UInt8} (h : meets compareTo scan startKey endKey = false) :
    (inRange startKey endKey row && scan.contains row) = false := by
  rw [Bool.eq_false_iff] at h ⊢
  intro hc
  rw [Bool.and_eq_true, inRange_iff, Scan.contains, inRange_iff] at hc
  obtain ⟨⟨hs, he⟩, hs', he'⟩ := hc
  refine h ((meets_iff hcmp).mpr ⟨.inr (he.imp_right hs'.trans_lt), he'.imp_right hs.trans_lt⟩)

theorem rank_splitStart_le (hcmp : IsByteOrder compareTo) {scan : Scan}
    {startKey row : List UInt8} :
    rank (splitStart compareTo scan startKey) ≤ rank row ↔
      rank startKey ≤ rank row ∧ rank scan.startRow ≤ rank row := by
  unfold splitStart
  split_ifs with h <;> rw [ge_iff_le, hcmp.nonneg_iff, List.length_eq_zero_iff] at h
  · refine ⟨fun hr => ⟨hr, ?_⟩, And.left⟩
    rcases h with h | h
    · rw [h]
      exact rank_nil_le row
    · exact h.trans hr
  · rw [not_or, not_le] at h
    exact ⟨fun hr => ⟨h.2.le.trans hr, hr⟩, And.right⟩

theorem lt_splitStop (hcmp : IsByteOrder compareTo) {scan : Scan} {endKey row : List UInt8} :
    (splitStop compareTo scan endKey = [] ∨ rank row < rank (splitStop compareTo scan endKey)) ↔
      (endKey = [] ∨ rank row < rank endKey) ∧
        (scan.stopRow = [] ∨ rank row < rank scan.stopRow) := by
  unfold splitStop
  split_ifs with h <;>
    rw [hcmp.nonpos_iff, List.length_eq_zero_iff, gt_iff_lt, List.length_pos_iff] at h
  · refine ⟨fun hr => ⟨hr, ?_⟩, And.left⟩
    exact h.1.imp_right (hr.resolve_left h.2).trans_le
  · refine ⟨fun hr => ⟨?_, hr⟩, And.right⟩
    by_cases hne : endKey = []
    · exact .inl hne
    · rw [not_and_or, not_or, not_le] at h
      obtain ⟨hstop, hgt⟩ := h.resolve_right (not_not.mpr hne)
      exact .inr ((hr.resolve_left hstop).trans hgt)

/-- **One region**: its split holds the rows of the region that are in the scan. -/
theorem inRange_splitOf (hcmp : IsByteOrder compareTo) (scan : Scan)
    (startKey endKey row : List UInt8) :
    inRange (splitStart compareTo scan startKey) (splitStop compareTo scan endKey) row =
      (inRange startKey endKey row && scan.contains row) := by
  rw [Bool.eq_iff_iff, Bool.and_eq_true, Scan.contains, inRange_iff, inRange_iff, inRange_iff,
    rank_splitStart_le hcmp, lt_splitStop hcmp]
  tauto

/-! ## All regions -/

/-- The rows of the splits are the rows of the regions that are in the scan. -/
theorem countP_splitsFrom (hcmp : IsByteOrder compareTo) (table : HTable) (scan : Scan)
    {starts ends : List (List UInt8)} (hlen : starts.length = ends.length) :
    ∃ splits, splitsFrom compareTo table scan starts ends = .ok splits ∧
      ∀ row, splits.countP (·.contains row) =
        (starts.zip ends).countP fun r => inRange r.1 r.2 row && scan.contains row := by
  induction starts generalizing ends with
  | nil => exact ⟨[], rfl, fun row => by simp⟩
  | cons startKey starts ih =>
    cases ends with
    | nil => cases hlen
    | cons endKey ends =>
      obtain ⟨splits, hs, hc⟩ := ih (Nat.succ.inj hlen)
      cases hm : meets compareTo scan startKey endKey with
      | false =>
        refine ⟨splits, by simp [splitsFrom, hs, hm], fun row => ?_⟩
        rw [hc, List.zip_cons_cons, List.countP_cons, not_inRange_of_not_meets hcmp hm]
        rfl
      | true =>
        refine ⟨_, by simp only [splitsFrom, hs, hm]; rfl, fun row => ?_⟩
        rw [List.countP_cons, hc, List.zip_cons_cons, List.countP_cons]
        simp only [MultipleTableSplit.contains, inRange_splitOf hcmp]

/-- Regions that follow each other from `startKey` on hold every row from there on, once. -/
theorem countP_regions {startKey : List UInt8} {starts ends : List (List UInt8)}
    (last : ends.getLast? = some []) (adjacent : ends.dropLast = starts)
    (increasing : (startKey :: starts).IsChain fun a b => rank a < rank b) (row : List UInt8) :
    (((startKey :: starts).zip ends).countP fun r => inRange r.1 r.2 row) =
      if rank startKey ≤ rank row then 1 else 0 := by
  induction starts generalizing startKey ends with
  | nil =>
    obtain ⟨endKey, rfl⟩ : ∃ endKey, ends = [endKey] := by
      cases ends with
      | nil => cases last
      | cons endKey ends =>
        cases ends with
        | nil => exact ⟨endKey, rfl⟩
        | cons _ _ => cases adjacent
    obtain rfl : endKey = [] := by simpa using last
    simp [inRange_iff]
  | cons nextKey starts ih =>
    cases ends with
    | nil => cases last
    | cons endKey ends =>
      cases ends with
      | nil => cases adjacent
      | cons endKey' ends =>
        rw [List.dropLast_cons_cons, List.cons.injEq] at adjacent
        obtain ⟨rfl, adjacent⟩ := adjacent
        rw [List.isChain_cons_cons] at increasing
        obtain ⟨hlt, increasing⟩ := increasing
        have hne : endKey ≠ [] := fun he => (he ▸ hlt).not_ge (rank_nil_le _)
        rw [List.zip_cons_cons, List.countP_cons, ih (by simpa using last) adjacent increasing]
        -- a row is in the first region, or behind it, or before it
        simp only [inRange_iff, hne, false_or]
        by_cases h₁ : rank endKey ≤ rank row
        · rw [if_pos h₁, if_neg fun h => h.2.not_ge h₁, if_pos (hlt.le.trans h₁)]
        · rw [if_neg h₁]
          simp [not_le.mp h₁]

theorem Partition.length_eq {starts ends : List (List UInt8)} (h : Partition starts ends) :
    starts.length = ends.length := by
  have hadj := congrArg List.length h.adjacent
  have hs : starts ≠ [] := fun he => by simpa [he] using h.first
  have he : ends ≠ [] := fun he => by simpa [he] using h.last
  rw [List.length_dropLast, List.length_tail] at hadj
  have := List.length_pos_iff.mpr hs
  have := List.length_pos_iff.mpr he
  omega

/-- **The splits partition the scan**: when the regions partition the key space, a row is in the
scan exactly when it is in exactly one split, and a row outside the scan is in no split. -/
theorem splits_partition_scan (hcmp : IsByteOrder compareTo) {table : HTable}
    {starts ends : List (List UInt8)} (hkeys : table.startEndKeys = some (starts, ends))
    (h : Partition starts ends) (scan : Scan) :
    ∃ splits, getSplitsEachScan compareTo table scan = .ok splits ∧ ∀ row,
      (scan.contains row = true ↔ splits.countP (·.contains row) = 1) ∧
        (scan.contains row = false → ∀ split ∈ splits, split.contains row = false) := by
  obtain ⟨splits, hs, hc⟩ := countP_splitsFrom hcmp table scan h.length_eq
  cases starts with
  | nil => cases h.first
  | cons startKey starts =>
    obtain rfl : startKey = [] := by simpa using h.first
    refine ⟨splits, by simp only [getSplitsEachScan, hkeys, hs], fun row => ?_⟩
    have hone := countP_regions h.last h.adjacent h.increasing row
    rw [List.tail_cons, if_pos (rank_nil_le row)] at hone
    have hcount := hc row
    cases hrow : scan.contains row with
    | true =>
      simp only [hrow, Bool.and_true, hone] at hcount
      simp [hcount]
    | false =>
      simp only [hrow, Bool.and_false, List.countP_false] at hcount
      refine ⟨by simp [hcount], fun _ split hm => ?_⟩
      simpa using List.countP_eq_zero.mp hcount split hm

/-- The difference of the first two unsigned bytes that differ, or of the lengths. -/
def compareBytes : List UInt8 → List UInt8 → ℤ
  | [], ys => -ys.length
  | x :: xs, [] => (x :: xs).length
  | x :: xs, y :: ys => if x = y then compareBytes xs ys else (x.toNat : ℤ) - y.toNat

theorem compareBytes_neg_iff (a b : List UInt8) : compareBytes a b < 0 ↔ rank a < rank b := by
  induction a generalizing b with
  | nil =>
    cases b with
    | nil => simp [compareBytes, rank]
    | cons y ys =>
      simp only [compareBytes, rank, List.length_cons, List.map_nil, List.map_cons,
        List.nil_lt_cons, iff_true]
      omega
  | cons x xs ih =>
    cases b with
    | nil =>
      simp only [compareBytes, rank, List.length_cons, List.map_nil, List.not_lt_nil, iff_false]
      omega
    | cons y ys =>
      simp only [compareBytes, rank, List.map_cons, List.cons_lt_cons_iff, UInt8.toNat_inj]
      split_ifs with h
      · rw [ih ys]
        simp [h, rank]
      · simp only [h, false_and, or_false]
        omega

theorem compareBytes_symm (a b : List UInt8) : compareBytes b a = -compareBytes a b := by
  induction a generalizing b with
  | nil =>
    cases b with
    | nil => rfl
    | cons y ys => simp [compareBytes]
  | cons x xs ih =>
    cases b with
    | nil => simp [compareBytes]
    | cons y ys =>
      simp only [compareBytes, eq_comm (a := y)]
      split_ifs with h
      · exact ih ys
      · omega

theorem isByteOrder_compareBytes : IsByteOrder compareBytes where
  neg_iff := compareBytes_neg_iff
  pos_iff a b := by
    rw [← compareBytes_neg_iff b a, compareBytes_symm a b]
    omega

/-- Two regions, cut at `"m"`, and a scan from `"c"` to `"t"`. -/
def twoRegions : HTable := ⟨[0x74], some ([[], [0x6d]], [[0x6d], []]), fun _ => "localhost"⟩

theorem splits_twoRegions : ∃ splits,
    getSplitsEachScan compareBytes twoRegions ⟨[0x63], [0x74]⟩ = .ok splits ∧
      splits.map (fun split => (split.startRow, split.endRow)) =
        [([0x63], [0x6d]), ([0x6d], [0x74])] ∧
        ∀ row, (Scan.contains ⟨[0x63], [0x74]⟩ row = true ↔
          splits.countP (·.contains row) = 1) := by
  have hpart : Partition [[], [0x6d]] [[0x6d], []] := ⟨rfl, rfl, rfl, by decide⟩
  have hkeys : twoRegions.startEndKeys = some ([[], [0x6d]], [[0x6d], []]) := rfl
  obtain ⟨splits, hs, h⟩ :=
    splits_partition_scan isByteOrder_compareBytes hkeys hpart ⟨[0x63], [0x74]⟩
  refine ⟨splits, hs, ?_, fun row => (h row).1⟩
  cases hs
  rfl

end Sperm.MultipleTableInputFormat
