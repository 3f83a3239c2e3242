import Mathlib.Data.List.Forall2
import Mathlib.Tactic.Common

/-!
# Comparing two tables (`mr/CompareHBaseTable.java`)

Two scanners are read in lock step, and for every pair of rows two iterators over the cells of a
family. The map of the second iterator is taken from the first row, too.

* `compareCells`: the inner loop; `compareLoop`: the outer one, with what it prints and where it
  stops.
* `SameTables`, `FirstDifference`, `Reports`: what a comparison should report.
* `reports_pass_iff`: what a report about the rows behind a row says about all of them.
* **`reports_iff`**: a comparison reports what it should exactly when the cells agree as long as the
  row keys do.
-/

namespace Sperm.CompareHBaseTable

abbrev Bytes := List UInt8

/-- `Result`: the row key, and the cells of a family (`getNoVersionMap().get(family)`, `none` for
`null`) in the order of their qualifiers. -/
structure Result where
  row : Bytes
  noVersionMap : Bytes → Option (List (Bytes × Bytes))

/-- One of the two tables. -/
inductive Side where
  | t1
  | t2
  deriving DecidableEq

inductive Verdict where
  | same
  | hasMore (t : Side)
  | rows (ra rb : Bytes)
  | keys (ra rb k1 k2 : Bytes)
  | values (ra rb k1 v1 k2 v2 : Bytes)
  | rowHasMore (t : Side) (row : Bytes)
  deriving DecidableEq

inductive Exception where
  | nullPointer
  deriving DecidableEq

/-- The arguments `t1`, `t2` and `cf.getBytes()`, and `Bytes.toString`. -/
structure Args where
  t1 : String
  t2 : String
  cf : Bytes
  toStr : Bytes → String

def Args.name (args : Args) : Side → String
  | .t1 => args.t1
  | .t2 => args.t2

/-- The line that is printed. -/
def Verdict.text (args : Args) : Verdict → String
  | .same => "Congratulations! They are same!"
  | .hasMore t => "BAD! table '" ++ args.name t ++ "' has more"
  | .rows ra rb =>
    "BAD! table '" ++ args.t1 ++ "' row '" ++ args.toStr ra ++ "', table '" ++ args.t2 ++
      "' row '" ++ args.toStr rb ++ "'"
  | .keys ra rb k1 k2 =>
    "BAD! table '" ++ args.t1 ++ "' row '" ++ args.toStr ra ++ "' key '" ++ args.toStr k1 ++
      "', table '" ++ args.t2 ++ "' row '" ++ args.toStr rb ++ "' key '" ++ args.toStr k2 ++ "'"
  | .values ra rb k1 v1 k2 v2 =>
    "BAD! table '" ++ args.t1 ++ "' row '" ++ args.toStr ra ++ "' key '" ++ args.toStr k1 ++
      "' value '" ++ args.toStr v1 ++ ", table '" ++ args.t2 ++ "' row '" ++ args.toStr rb ++
        "' key '" ++ args.toStr k2 ++ "' value '" ++ args.toStr v2 ++ "'"
  | .rowHasMore t row =>
    "BAD! table '" ++ args.name t ++ "' row '" ++ args.toStr row ++ "' has more"

/-- The loop over the two iterators, and the tests behind it. -/
def compareCells (ra rb : Bytes) : List (Bytes × Bytes) → List (Bytes × Bytes) → Option Verdict
  | [], [] => none
  | _ :: _, [] => some (.rowHasMore .t1 ra)
  | [], _ :: _ => some (.rowHasMore .t2 rb)
  | (k1, v1) :: d1, (k2, v2) :: d2 =>
    if k1 ≠ k2 then some (.keys ra rb k1 k2)
    else if v1 ≠ v2 then some (.values ra rb k1 v1 k2 v2)
    else compareCells ra rb d1 d2

/-- What is printed, and the number of rows before the one at which the loop stops. -/
structure Report where
  lines : List String
  verdict : Verdict
  passed : ℕ

/-- The line about the progress. -/
def countLine (count : Int32) : List String :=
  if count % (64 * 1024) = 0 then ["count = " ++ toString count.toInt] else []

def Report.stop (args : Args) (count : Int32) (v : Verdict) : Report :=
  ⟨countLine count ++ [v.text args], v, 0⟩

/-- The report of a loop that passes a row before it goes on. -/
def Report.pass (count : Int32) (r : Report) : Report :=
  ⟨countLine count ++ r.lines, r.verdict, r.passed + 1⟩

/-- The loop `compare`, when `count` rows were read before. -/
def compareLoop (args : Args) (count : Int32) :
    List Result → List Result → Except Exception Report
  | [], [] => .ok (.stop args (count + 1) .same)
  | [], _ :: _ => .ok (.stop args (count + 1) (.hasMore .t2))
  | _ :: _, [] => .ok (.stop args (count + 1) (.hasMore .t1))
  | ra :: r1, rb :: r2 =>
    if ra.row ≠ rb.row then .ok (.stop args (count + 1) (.rows ra.row rb.row))
    else
      -- both maps come from `ra`
      match ra.noVersionMap args.cf, ra.noVersionMap args.cf with
      | some d1, some d2 =>
        match compareCells ra.row rb.row d1 d2 with
        | some v => .ok (.stop args (count + 1) v)
        | none => (compareLoop args (count + 1) r1 r2).map (.pass (count + 1))
      | _, _ => .error .nullPointer

def compare (args : Args) (r1 r2 : List Result) : Except Exception Report :=
  compareLoop args 0 r1 r2

/-! ## What a comparison should report -/

/-- The cells of the family. -/
def Result.cells (cf : Bytes) (r : Result) : List (Bytes × Bytes) := (r.noVersionMap cf).getD []

/-- The map of the family is there. -/
def Present (cf : Bytes) (rows : List Result) : Prop := ∀ r ∈ rows, (r.noVersionMap cf).isSome

/-- The same pairs of a qualifier and a value. -/
def SameCells (cf : Bytes) (ra rb : Result) : Prop :=
  ∀ cell, cell ∈ ra.cells cf ↔ cell ∈ rb.cells cf

def SameRow (cf : Bytes) (ra rb : Result) : Prop := ra.row = rb.row ∧ SameCells cf ra rb

def SameTables (cf : Bytes) (r1 r2 : List Result) : Prop := List.Forall₂ (SameRow cf) r1 r2

/-- The first `k` rows are the same, and then the tables differ. -/
def FirstDifference (cf : Bytes) (r1 r2 : List Result) (k : ℕ) : Prop :=
  SameTables cf (r1.take k) (r2.take k) ∧ ¬ SameTables cf (r1.take (k + 1)) (r2.take (k + 1))

/-- Equal tables are reported as such, and at the first difference of others the loop stops. -/
structure Reports (cf : Bytes) (r1 r2 : List Result) (report : Report) : Prop where
  same_iff : report.verdict = .same ↔ SameTables cf r1 r2
  first : ¬ SameTables cf r1 r2 → report.verdict ≠ .same ∧ FirstDifference cf r1 r2 report.passed

/-- The cells are the same as long as the row keys are. -/
def CellsFollowRows (cf : Bytes) : List Result → List Result → Prop
  | ra :: r1, rb :: r2 => ra.row = rb.row → SameCells cf ra rb ∧ CellsFollowRows cf r1 r2
  | _, _ => True

/-! ## What it does report -/

variable {args : Args} {cf : Bytes} {ra rb : Result} {r1 r2 : List Result}

theorem compareCells_self (row row' : Bytes) (d : List (Bytes × Bytes)) :
    compareCells row row' d d = none := by
  induction d with
  | nil => rfl
  | cons cell d ih => simp [compareCells, ih]

theorem sameTables_cons :
    SameTables cf (ra :: r1) (rb :: r2) ↔ SameRow cf ra rb ∧ SameTables cf r1 r2 :=
  List.forall₂_cons

theorem firstDifference_cons {k : ℕ} : FirstDifference cf (ra :: r1) (rb :: r2) (k + 1) ↔
    SameRow cf ra rb ∧ FirstDifference cf r1 r2 k := by
  unfold FirstDifference
  rw [List.take_succ_cons, List.take_succ_cons, List.take_succ_cons, List.take_succ_cons,
    sameTables_cons, sameTables_cons]
  tauto

theorem reports_stop {count : Int32} {v : Verdict} (hv : v ≠ .same)
    (h : ¬ SameTables cf (r1.take 1) (r2.take 1)) : Reports cf r1 r2 (.stop args count v) := by
  have hne : ¬ SameTables cf r1 r2 := fun hs => h (List.forall₂_take 1 hs)
  exact ⟨iff_of_false hv hne, fun _ => ⟨hv, .nil, h⟩⟩

/-- A row is passed when its key is the same. Whether its cells are is not seen any more. -/
theorem reports_pass_iff {count : Int32} {report : Report} (hrow : ra.row = rb.row) :
    Reports cf (ra :: r1) (rb :: r2) (report.pass count) ↔
      SameCells cf ra rb ∧ Reports cf r1 r2 report := by
  have hsame : SameRow cf ra rb ↔ SameCells cf ra rb := and_iff_right hrow
  by_cases hcells : SameCells cf ra rb
  · have htables : SameTables cf (ra :: r1) (rb :: r2) ↔ SameTables cf r1 r2 := by
      rw [sameTables_cons, hsame, and_iff_right hcells]
    have hfirst : FirstDifference cf (ra :: r1) (rb :: r2) (report.pass count).passed ↔
        FirstDifference cf r1 r2 report.passed := by
      rw [Report.pass, firstDifference_cons, hsame, and_iff_right hcells]
    rw [and_iff_right hcells]
    constructor
    · rintro ⟨h₁, h₂⟩
      rw [htables] at h₁ h₂
      rw [hfirst] at h₂
      exact ⟨h₁, h₂⟩
    · rintro ⟨h₁, h₂⟩
      rw [← htables] at h₁ h₂
      rw [← hfirst] at h₂
      exact ⟨h₁, h₂⟩
  · refine iff_of_false (fun h => ?_) fun h => hcells h.1
    have hne : ¬ SameTables cf (ra :: r1) (rb :: r2) := by
      rw [sameTables_cons, hsame]
      exact fun hs => hcells hs.1
    exact hcells (hsame.mp (firstDifference_cons.mp (h.first hne).2).1)

theorem reports_compareLoop_iff (hpresent : Present args.cf r1) (count : Int32) :
    ∃ report, compareLoop args count r1 r2 = .ok report ∧
      (Reports args.cf r1 r2 report ↔ CellsFollowRows args.cf r1 r2) := by
  induction r1 generalizing r2 count with
  | nil =>
    cases r2 with
    | nil => exact ⟨_, rfl, iff_of_true ⟨iff_of_true rfl .nil, (absurd .nil ·)⟩ trivial⟩
    | cons rb r2 =>
      exact ⟨_, rfl, iff_of_true (reports_stop (by simp) (by simp [SameTables])) trivial⟩
  | cons ra r1 ih =>
    cases r2 with
    | nil =>
      exact ⟨_, rfl, iff_of_true (reports_stop (by simp) (by simp [SameTables])) trivial⟩
    | cons rb r2 =>
      obtain ⟨d, hd⟩ := Option.isSome_iff_exists.mp (hpresent ra List.mem_cons_self)
      by_cases hrow : ra.row = rb.row
      · have hrest : Present args.cf r1 := fun r hr => hpresent r (List.mem_cons_of_mem _ hr)
        obtain ⟨report, hreport, hiff⟩ := @ih r2 hrest (count + 1)
        refine ⟨report.pass (count + 1), ?_, ?_⟩
        · simp [compareLoop, hrow, hd, compareCells_self, hreport, Except.map]
        · rw [reports_pass_iff hrow, hiff, CellsFollowRows]
          exact ⟨fun h _ => h, fun h => h hrow⟩
      · refine ⟨.stop args (count + 1) (.rows ra.row rb.row), by simp [compareLoop, hrow], ?_⟩
        refine iff_of_true (reports_stop (by simp) ?_) fun h => absurd h hrow
        rw [List.take_succ_cons, List.take_succ_cons, sameTables_cons]
        exact fun h => hrow h.1.1

/-- **A comparison reports what it should** exactly when the cells of the two tables are the same as
long as their row keys are: a difference in the cells alone is not seen. -/
theorem reports_iff (hpresent : Present args.cf r1) :
    ∃ report, compare args r1 r2 = .ok report ∧
      (Reports args.cf r1 r2 report ↔ CellsFollowRows args.cf r1 r2) :=
  reports_compareLoop_iff hpresent 0

/-- A row with the key `r` and one cell in every family. -/
def oneCell (value : UInt8) : Result := ⟨[0x72], fun _ => some [([0x71], [value])]⟩

def defaultArgs : Args := ⟨"t1", "t2", [0x63, 0x66], fun _ => "r"⟩

theorem reports_oneCell : ∃ report, compare defaultArgs [oneCell 1] [] = .ok report ∧
    report.lines = ["BAD! table 't1' has more"] ∧
      Reports defaultArgs.cf [oneCell 1] [] report := by
  have hpresent : Present defaultArgs.cf [oneCell 1] := by simp [Present, oneCell]
  obtain ⟨report, h, hiff⟩ := @reports_iff _ _ [] hpresent
  refine ⟨report, h, ?_, hiff.mpr trivial⟩
  cases h
  decide

/-- Two tables that differ in the value of a cell. -/
theorem values_not_compared : ∃ report,
    compare defaultArgs [oneCell 1] [oneCell 2] = .ok report ∧
      report.lines = ["Congratulations! They are same!"] ∧
        ¬ Reports defaultArgs.cf [oneCell 1] [oneCell 2] report := by
  refine ⟨_, rfl, by decide, fun h => ?_⟩
  have hsame := h.same_iff.mp rfl
  have hcells := (sameTables_cons.mp hsame).1.2 ([0x71], [1])
  simp [Result.cells, oneCell] at hcells

end Sperm.CompareHBaseTable
