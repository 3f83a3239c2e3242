import Sperm.Mr.MultipleTableInputFormat
import Sperm.Mr.TableInput

/-!
# A job over tables (`mr/MultipleTableInputFormat.java`)

The way of a scan through a job: its bytes are put into the name of an input path, `getSplits` takes
them out again and cuts the scan into splits, the splits travel to their tasks as bytes, and
`createRecordReader` scans what its split holds. HBase and Hadoop are parameters: a cluster whose
rows are sorted, and objects that are read back from the bytes that were written.

* `Writable`, `Cluster`, `Path`: what the code relies on. A scan from a key to itself is a get.
* `getSplits`, `MultipleTableSplit.write`, `readFields`, `createRecordReader`, `runJob`.
* `flatMap_regions`: sorted rows are the rows of the regions, one region after the other.
* **`runJob_spec`**: a job reads what its scans read, in the same order, if none of them gets the
  first row of a region, which is in no split.
-/

namespace Sperm.MultipleTableInputFormat

/-- Objects with `write` and `readFields`: what was written is read back, and what follows is left
for the next one. -/
structure Writable (A : Type) where
  write : A → List Int8
  readFields : List Int8 → Option (A × List Int8)
  readFields_write : ∀ a rest, readFields (write a ++ rest) = some (a, rest)

/-- A scan of one row, which starts where it stops. -/
def Scan.isGet (scan : Scan) : Bool := scan.startRow ≠ [] && scan.startRow = scan.stopRow

/-- Tables by their names, with their rows in the order of the row keys. A scan reads the rows of
its range, and a get the row of its key. -/
structure Cluster (Result : Type) where
  hTable : List UInt8 → Option HTable
  rows : List UInt8 → List (List UInt8 × Result)
  scan : List UInt8 → Scan → List (List UInt8 × Result)
  tableName_eq : ∀ name table, hTable name = some table → table.tableName = name
  sorted : ∀ name, (rows name).Pairwise fun a b => rank a.1 < rank b.1
  scan_of_isGet : ∀ name s, s.isGet = true →
    scan name s = (rows name).filter fun r => r.1 = s.startRow
  scan_of_not_isGet : ∀ name s, s.isGet = false →
    scan name s = (rows name).filter fun r => s.contains r.1

/-- `toString()` of a path and of its parent, if it has one. -/
structure Path where
  string : JString
  parent : Option JString

/-- The path of a name in a directory. -/
def Path.Names (path : Path) (name : JString) : Prop :=
  ∃ parent, path.parent = some parent ∧ path.string = parent ++ 0x2f :: name

/-- What the super class of a `MultipleTableSplit` holds: the name of the table, the start and the
end row and the location. -/
abbrev TableSplit : Type := List UInt8 × List UInt8 × List UInt8 × String

/-! ## The job -/

section

variable {Result : Type} (compareTo : List UInt8 → List UInt8 → ℤ) (cluster : Cluster Result)
  (toBytes : JString → List UInt8) (scanWritable : Writable Scan)
  (splitWritable : Writable TableSplit)

/-- `path.toString().substring(path.getParent().toString().length() + 1)`. -/
def Path.name (path : Path) : Option JString := do
  let parent ← path.parent
  if parent.length + 1 ≤ path.string.length then some (path.string.drop (parent.length + 1))
  else none

/-- The splits of all scans of a path. -/
def splitsOfPath (path : Path) : Option (List MultipleTableSplit) := do
  let s ← path.name
  let (tableName, scans) ←
    convertStringToTableInput (fun bytes => (scanWritable.readFields bytes).map Prod.fst) s
  let table ← cluster.hTable (toBytes tableName)
  let splits ← scans.mapM fun scan => (getSplitsEachScan compareTo table scan).toOption
  return splits.flatten

/-- `getSplits(context)`, with the paths of the context. -/
def getSplits (paths : List Path) : Option (List MultipleTableSplit) :=
  (paths.mapM (splitsOfPath compareTo cluster toBytes scanWritable)).map List.flatten

def MultipleTableSplit.write (split : MultipleTableSplit) : List Int8 :=
  splitWritable.write (split.tableName, split.startRow, split.endRow, split.regionLocation) ++
    scanWritable.write split.scan

def MultipleTableSplit.readFields (bytes : List Int8) :
    Option (MultipleTableSplit × List Int8) := do
  let ((tableName, startRow, endRow, regionLocation), bytes) ← splitWritable.readFields bytes
  let (scan, bytes) ← scanWritable.readFields bytes
  return (⟨tableName, startRow, endRow, regionLocation, scan⟩, bytes)

/-- `createRecordReader(split, context)`: the table and the scan of the reader. -/
def createRecordReader (split : MultipleTableSplit) : List UInt8 × Scan :=
  (split.tableName, { split.scan with startRow := split.startRow, stopRow := split.endRow })

/-- The task of a split, which gets its bytes: the records it reads. -/
def runTask (bytes : List Int8) : Option (List (List UInt8 × Result)) := do
  let (split, _) ← MultipleTableSplit.readFields scanWritable splitWritable bytes
  let (tableName, scan) := createRecordReader split
  return cluster.scan tableName scan

/-- A job: the records of its tasks, one split after the other. -/
def runJob (paths : List Path) : Option (List (List UInt8 × Result)) := do
  let splits ← getSplits compareTo cluster toBytes scanWritable paths
  let records ← splits.mapM fun split =>
    runTask cluster scanWritable splitWritable (split.write scanWritable splitWritable)
  return records.flatten

end

/-! ## The rows of the regions -/

theorem filter_append_filter {α : Type} {p q : α → Bool} {rows : List α}
    (h : rows.Pairwise fun a b => q a = true → q b = true) :
    (rows.filter fun r => p r && !q r) ++ (rows.filter fun r => p r && q r) = rows.filter p := by
  induction rows with
  | nil => rfl
  | cons r rows ih =>
    rw [List.pairwise_cons] at h
    obtain ⟨hr, hrows⟩ := h
    have ih := ih hrows
    cases hq : q r with
    | false => cases hp : p r <;> simp [hp, hq, ih]
    | true =>
      -- `q` holds from here on
      have hnone : (rows.filter fun r => p r && !q r) = [] := by
        rw [List.filter_eq_nil_iff]
        intro r' hr'
        simp [hr r' hr' hq]
      rw [hnone, List.nil_append] at ih
      cases hp : p r <;> simp [hp, hq, hnone, ih]

variable {Result : Type} {compareTo : List UInt8 → List UInt8 → ℤ}

/-- Sorted rows in regions that follow each other from `startKey` on: the rows from there on, one
region after the other. -/
theorem flatMap_regions {rows : List (List UInt8 × Result)} {p : List UInt8 → Bool}
    (hrows : rows.Pairwise fun a b => rank a.1 < rank b.1) {startKey : List UInt8}
    {starts ends : List (List UInt8)} (last : ends.getLast? = some [])
    (adjacent : ends.dropLast = starts)
    (increasing : (startKey :: starts).IsChain fun a b => rank a < rank b) :
    (((startKey :: starts).zip ends).flatMap fun region =>
        rows.filter fun r => inRange region.1 region.2 r.1 && p r.1) =
      rows.filter fun r => decide (rank startKey ≤ rank r.1) && p r.1 := by
  induction starts generalizing startKey ends with
  | nil =>
    obtain ⟨endKey, rfl⟩ : ∃ endKey, ends = [endKey] := by
      cases ends with
      | nil => cases last
      | cons endKey ends =>
        cases ends with
        | nil => exact ⟨endKey, rfl⟩
        | cons _ _ => cases adjacent
    obtain rfl : endKey = [] := by simpa using last
    rw [List.zip_cons_cons, List.zip_nil_left, List.flatMap_cons, List.flatMap_nil, List.append_nil]
    refine List.filter_congr fun r _ => ?_
    congr 1
    rw [Bool.eq_iff_iff, inRange_iff, decide_eq_true_iff]
    simp
  | cons nextKey starts ih =>
    cases ends with
    | nil => cases last
    | cons endKey ends =>
      cases ends with
      | nil => cases adjacent
      | cons endKey' ends =>
        rw [List.dropLast_cons_cons, List.cons.injEq] at adjacent
        obtain ⟨rfl, adjacent⟩ := adjacent
        rw [List.isChain_cons_cons] at increasing
        obtain ⟨hlt, increasing⟩ := increasing
        have hne : endKey ≠ [] := fun he => (he ▸ hlt).not_ge (rank_nil_le _)
        rw [List.zip_cons_cons, List.flatMap_cons, ih (by simpa using last) adjacent increasing]
        have hmono : rows.Pairwise fun a b => decide (rank endKey ≤ rank a.1) = true →
            decide (rank endKey ≤ rank b.1) = true := by
          refine hrows.imp fun hab => ?_
          simp only [decide_eq_true_iff]
          exact fun ha => ha.trans hab.le
        rw [← filter_append_filter (p := fun r => decide (rank startKey ≤ rank r.1) && p r.1) hmono]
        congr 1
        · refine List.filter_congr fun r _ => ?_
          rw [Bool.eq_iff_iff]
          simp only [Bool.and_eq_true, inRange_iff, hne, false_or, decide_eq_true_iff,
            Bool.not_eq_true', decide_eq_false_iff_not, not_le]
          tauto
        · refine List.filter_congr fun r _ => ?_
          rw [Bool.eq_iff_iff]
          simp only [Bool.and_eq_true, decide_eq_true_iff]
          exact ⟨fun h => ⟨⟨hlt.le.trans h.1, h.2⟩, h.1⟩, fun h => ⟨h.2, h.1.2⟩⟩

theorem Partition.lt_of_mem_zip {starts ends : List (List UInt8)} (h : Partition starts ends)
    {region : List UInt8 × List UInt8} (hmem : region ∈ starts.zip ends) :
    region.2 = [] ∨ rank region.1 < rank region.2 := by
  obtain ⟨-, last, adjacent, increasing⟩ := h
  induction starts generalizing ends with
  | nil => simp at hmem
  | cons startKey starts ih =>
    cases ends with
    | nil => simp at hmem
    | cons endKey ends =>
      rw [List.zip_cons_cons, List.mem_cons] at hmem
      cases ends with
      | nil =>
        obtain rfl : endKey = [] := by simpa using last
        rcases hmem with rfl | hmem
        · exact .inl rfl
        · simp at hmem
      | cons endKey' ends =>
        rw [List.dropLast_cons_cons, List.tail_cons] at adjacent
        subst adjacent
        rw [List.isChain_cons_cons] at increasing
        rcases hmem with rfl | hmem
        · exact .inr increasing.1
        · exact ih hmem (by simpa using last) rfl increasing.2

/-- What a split of a region reads, for the regions that are met. -/
def readsOfRegion (compareTo : List UInt8 → List UInt8 → ℤ) (cluster : Cluster Result)
    (name : List UInt8) (scan : Scan) (region : List UInt8 × List UInt8) :
    List (List UInt8 × Result) :=
  if meets compareTo scan region.1 region.2 then
    cluster.scan name ⟨splitStart compareTo scan region.1, splitStop compareTo scan region.2⟩
  else []

theorem flatMap_splitsFrom (compareTo : List UInt8 → List UInt8 → ℤ) (cluster : Cluster Result)
    (table : HTable) (scan : Scan) {starts ends : List (List UInt8)}
    (hlen : starts.length = ends.length) :
    ∃ splits, splitsFrom compareTo table scan starts ends = .ok splits ∧
      (splits.flatMap fun split =>
        cluster.scan (createRecordReader split).1 (createRecordReader split).2) =
          (starts.zip ends).flatMap (readsOfRegion compareTo cluster table.tableName scan) := by
  induction starts generalizing ends with
  | nil => exact ⟨[], rfl, rfl⟩
  | cons startKey starts ih =>
    cases ends with
    | nil => cases hlen
    | cons endKey ends =>
      obtain ⟨splits, hs, hreads⟩ := ih (Nat.succ.inj hlen)
      rw [List.zip_cons_cons, List.flatMap_cons, ← hreads, readsOfRegion]
      cases hm : meets compareTo scan startKey endKey with
      | false => exact ⟨splits, by simp [splitsFrom, hs, hm], rfl⟩
      | true => exact ⟨_, by simp only [splitsFrom, hs, hm]; rfl, rfl⟩

theorem isGet_iff {scan : Scan} :
    scan.isGet = true ↔ scan.startRow ≠ [] ∧ scan.startRow = scan.stopRow := by
  rw [Scan.isGet, Bool.and_eq_true, decide_eq_true_iff, decide_eq_true_iff]

theorem isGet_splitOf (hcmp : IsByteOrder compareTo) {scan : Scan} (hget : scan.isGet = false)
    {startKey endKey : List UInt8} (hlt : endKey = [] ∨ rank startKey < rank endKey)
    (hm : meets compareTo scan startKey endKey = true) :
    Scan.isGet ⟨splitStart compareTo scan startKey, splitStop compareTo scan endKey⟩ = false := by
  obtain ⟨hstart, hstop⟩ := (meets_iff hcmp).mp hm
  rw [← Bool.not_eq_true, isGet_iff] at hget ⊢
  rintro ⟨hne, heq⟩
  simp only [splitStart, splitStop] at hne heq
  split_ifs at hne heq with h₁ h₂ h₂
  · -- all of the region
    subst heq
    exact hlt.elim hne (lt_irrefl _)
  · subst heq
    exact hstop.elim hne (lt_irrefl _)
  · subst heq
    exact hstart.elim hne fun h => h.elim hne (lt_irrefl _)
  · exact hget ⟨hne, heq⟩

theorem readsOfRegion_range (hcmp : IsByteOrder compareTo) (cluster : Cluster Result)
    (name : List UInt8) {scan : Scan} (hget : scan.isGet = false)
    {region : List UInt8 × List UInt8} (hlt : region.2 = [] ∨ rank region.1 < rank region.2) :
    readsOfRegion compareTo cluster name scan region =
      (cluster.rows name).filter fun r => inRange region.1 region.2 r.1 && scan.contains r.1 := by
  unfold readsOfRegion
  split_ifs with hm
  · rw [cluster.scan_of_not_isGet _ _ (isGet_splitOf hcmp hget hlt hm)]
    simp only [Scan.contains, inRange_splitOf hcmp]
  · rw [Bool.not_eq_true] at hm
    symm
    rw [List.filter_eq_nil_iff]
    intro r _
    rw [not_inRange_of_not_meets hcmp hm]
    exact Bool.false_ne_true

theorem rank_injective : Function.Injective rank :=
  List.map_injective_iff.mpr fun _ _ => UInt8.toNat_inj.mp

theorem readsOfRegion_get (hcmp : IsByteOrder compareTo) (cluster : Cluster Result)
    (name : List UInt8) {scan : Scan} (hget : scan.isGet = true)
    {region : List UInt8 × List UInt8} (hne : region.1 ≠ scan.startRow) :
    readsOfRegion compareTo cluster name scan region =
      if inRange region.1 region.2 scan.startRow then cluster.scan name scan else [] := by
  obtain ⟨startKey, endKey⟩ := region
  obtain ⟨startRow, stopRow⟩ := scan
  obtain ⟨hrow, heq⟩ : startRow ≠ [] ∧ startRow = stopRow := isGet_iff.mp hget
  subst heq
  have hrank : rank startKey ≤ rank startRow ↔ rank startKey < rank startRow :=
    ⟨fun h => h.lt_of_ne fun heq => hne (rank_injective heq), le_of_lt⟩
  have hmeets : meets compareTo ⟨startRow, startRow⟩ startKey endKey =
      inRange startKey endKey startRow := by
    rw [Bool.eq_iff_iff, meets_iff hcmp, inRange_iff, hrank]
    simp only [hrow, false_or]
    exact and_comm
  rw [readsOfRegion, hmeets]
  refine ite_congr rfl (fun hin => ?_) fun _ => rfl
  obtain ⟨hle, hend⟩ := inRange_iff.mp hin
  have hlen : startRow.length ≠ 0 := by rwa [Ne, List.length_eq_zero_iff]
  have hstart : splitStart compareTo ⟨startRow, startRow⟩ startKey = startRow := by
    refine if_neg ?_
    rw [ge_iff_le, hcmp.nonneg_iff, not_or, not_le]
    exact ⟨hlen, hrank.mp hle⟩
  have hstop : splitStop compareTo ⟨startRow, startRow⟩ endKey = startRow := by
    refine if_neg ?_
    rw [hcmp.nonpos_iff, gt_iff_lt, List.length_pos_iff]
    rintro ⟨hor, hne'⟩
    exact (hend.resolve_left hne').not_ge (hor.resolve_left hlen)
  rw [hstart, hstop]

theorem flatMap_ite_of_countP_eq_one {α β : Type} {p : α → Bool} {l : List α} (xs : List β)
    (h : l.countP p = 1) : (l.flatMap fun a => if p a then xs else []) = xs := by
  induction l with
  | nil => cases h
  | cons a l ih =>
    rw [List.countP_cons] at h
    rw [List.flatMap_cons]
    cases ha : p a with
    | false =>
      rw [ha] at h
      exact ih (by simpa using h)
    | true =>
      rw [ha, if_pos rfl, Nat.add_eq_right, List.countP_eq_zero] at h
      have hnone : (l.flatMap fun b => if p b then xs else []) = [] :=
        List.flatMap_eq_nil_iff.mpr fun b hb => if_neg (h b hb)
      rw [hnone, if_pos rfl, List.append_nil]

/-- **One scan**: what its splits read, one after the other, is what the scan reads, if it does not
get the first row of a region. -/
theorem flatMap_getSplitsEachScan (hcmp : IsByteOrder compareTo) (cluster : Cluster Result)
    {name : List UInt8} {table : HTable} (htable : cluster.hTable name = some table)
    {starts ends : List (List UInt8)} (hkeys : table.startEndKeys = some (starts, ends))
    (h : Partition starts ends) {scan : Scan}
    (hfirst : scan.isGet = true → scan.startRow ∉ starts) :
    ∃ splits, getSplitsEachScan compareTo table scan = .ok splits ∧
      (splits.flatMap fun split =>
        cluster.scan (createRecordReader split).1 (createRecordReader split).2) =
          cluster.scan name scan := by
  obtain ⟨splits, hs, hreads⟩ :=
    flatMap_splitsFrom compareTo cluster table scan h.length_eq
  rw [cluster.tableName_eq name table htable] at hreads
  have hlt : ∀ region ∈ starts.zip ends, region.2 = [] ∨ rank region.1 < rank region.2 :=
    fun region => h.lt_of_mem_zip
  cases starts with
  | nil => cases h.first
  | cons startKey starts =>
    obtain rfl : startKey = [] := by simpa using h.first
    refine ⟨splits, by simp only [getSplitsEachScan, hkeys, hs], hreads.trans ?_⟩
    cases hget : scan.isGet with
    | false =>
      have hregions := flatMap_regions (p := scan.contains) (cluster.sorted name) h.last h.adjacent
        h.increasing
      rw [List.tail_cons] at hregions
      rw [cluster.scan_of_not_isGet name scan hget, List.flatMap_congr fun region hmem =>
        readsOfRegion_range hcmp cluster name hget (hlt region hmem), hregions]
      refine List.filter_congr fun r _ => ?_
      rw [decide_eq_true (rank_nil_le _), Bool.true_and]
    | true =>
      have hone := countP_regions h.last h.adjacent h.increasing scan.startRow
      rw [List.tail_cons, if_pos (rank_nil_le _)] at hone
      have hne : ∀ region ∈ ([] :: starts).zip ends, region.1 ≠ scan.startRow :=
        fun region hmem heq => hfirst hget (heq ▸ (List.of_mem_zip hmem).1)
      rw [List.flatMap_congr fun region hmem =>
        readsOfRegion_get hcmp cluster name hget (hne region hmem)]
      exact flatMap_ite_of_countP_eq_one _ hone

/-! ## The way of a scan -/

section

variable {cluster : Cluster Result} {toBytes : JString → List UInt8}
  {scanWritable : Writable Scan} {splitWritable : Writable TableSplit}

theorem Path.Names.name_eq {path : Path} {name : JString} (h : path.Names name) :
    path.name = some name := by
  obtain ⟨parent, hparent, hstring⟩ := h
  have hlen : parent.length + 1 ≤ path.string.length := by
    rw [hstring, List.length_append, List.length_cons]
    omega
  have hdrop : path.string.drop (parent.length + 1) = name := by
    rw [hstring, ← List.drop_drop, List.drop_left]
    rfl
  rw [Path.name, hparent, Option.bind_eq_bind, Option.bind_some, if_pos hlen, hdrop]

/-- A split arrives at its task. -/
theorem readFields_write (split : MultipleTableSplit) :
    MultipleTableSplit.readFields scanWritable splitWritable
      (split.write scanWritable splitWritable) = some (split, []) := by
  have hscan := scanWritable.readFields_write split.scan []
  rw [List.append_nil] at hscan
  simp [MultipleTableSplit.readFields, MultipleTableSplit.write, splitWritable.readFields_write,
    hscan]

theorem runTask_write (split : MultipleTableSplit) :
    runTask cluster scanWritable splitWritable (split.write scanWritable splitWritable) =
      some (cluster.scan (createRecordReader split).1 (createRecordReader split).2) := by
  simp [runTask, readFields_write]

theorem mapM_getSplitsEachScan (hcmp : IsByteOrder compareTo) {name : List UInt8}
    {table : HTable} (htable : cluster.hTable name = some table) {starts ends : List (List UInt8)}
    (hkeys : table.startEndKeys = some (starts, ends)) (h : Partition starts ends)
    {scans : List Scan}
    (hfirst : ∀ scan ∈ scans, scan.isGet = true → scan.startRow ∉ starts) :
    ∃ splits,
      (scans.mapM fun scan => (getSplitsEachScan compareTo table scan).toOption) = some splits ∧
      (splits.flatten.flatMap fun split =>
        cluster.scan (createRecordReader split).1 (createRecordReader split).2) =
          scans.flatMap (cluster.scan name) := by
  induction scans with
  | nil => exact ⟨[], rfl, rfl⟩
  | cons scan scans ih =>
    rw [List.forall_mem_cons] at hfirst
    obtain ⟨rest, hrest, hreads⟩ := ih hfirst.2
    obtain ⟨splits, hs, hread⟩ := flatMap_getSplitsEachScan hcmp cluster htable hkeys h hfirst.1
    refine ⟨splits :: rest, by rw [List.mapM_cons, hs, hrest]; rfl, ?_⟩
    rw [List.flatten_cons, List.flatMap_append, hread, hreads, List.flatMap_cons]

theorem convertStringToTableInput_spec (hwrite : ∀ scan, scanWritable.write scan ≠ [])
    {tableName : JString} (hname : kSeparator ∉ tableName) {scans : List Scan} {s : JString}
    (hs : convertTableInputToString scanWritable.write tableName scans = some s) :
    convertStringToTableInput (fun bytes => (scanWritable.readFields bytes).map Prod.fst) s =
      some (tableName, scans) := by
  have hread : ∀ scan, (fun bytes => (scanWritable.readFields bytes).map Prod.fst)
      (scanWritable.write scan) = some scan := by
    intro scan
    have hone := scanWritable.readFields_write scan []
    rw [List.append_nil] at hone
    simp only [hone, Option.map_some]
  obtain ⟨t, ht, hto⟩ := @convertTableInputToString_spec Scan scanWritable.write
    (fun bytes => (scanWritable.readFields bytes).map Prod.fst) hwrite hread _ hname scans
  rw [hto] at hs
  split_ifs at hs
  cases hs
  exact ht

/-- An input of a job: a table whose regions partition the key space, and scans of it, none of which
gets the first row of a region, in the string that the path of the input names. -/
structure IsInput (cluster : Cluster Result) (toBytes : JString → List UInt8)
    (scanWritable : Writable Scan) (path : Path) (input : JString × List Scan) : Prop where
  names : ∃ s, convertTableInputToString scanWritable.write input.1 input.2 = some s ∧ path.Names s
  notMem : kSeparator ∉ input.1
  partition : ∃ table starts ends, cluster.hTable (toBytes input.1) = some table ∧
    table.startEndKeys = some (starts, ends) ∧ Partition starts ends ∧
      ∀ scan ∈ input.2, scan.isGet = true → scan.startRow ∉ starts

/-- **One path**: what the splits of its scans read is what its scans read. -/
theorem splitsOfPath_spec (hcmp : IsByteOrder compareTo)
    (hwrite : ∀ scan, scanWritable.write scan ≠ []) {path : Path} {input : JString × List Scan}
    (h : IsInput cluster toBytes scanWritable path input) :
    ∃ splits, splitsOfPath compareTo cluster toBytes scanWritable path = some splits ∧
      (splits.flatMap fun split =>
        cluster.scan (createRecordReader split).1 (createRecordReader split).2) =
          input.2.flatMap (cluster.scan (toBytes input.1)) := by
  obtain ⟨⟨s, hs, hnames⟩, hname, table, starts, ends, htable, hkeys, hpart, hfirst⟩ := h
  have hinput := convertStringToTableInput_spec hwrite hname hs
  obtain ⟨splits, hsplits, hreads⟩ := mapM_getSplitsEachScan hcmp htable hkeys hpart hfirst
  exact ⟨splits.flatten, by simp [splitsOfPath, hnames.name_eq, hinput, htable, hsplits], hreads⟩

theorem getSplits_spec (hcmp : IsByteOrder compareTo)
    (hwrite : ∀ scan, scanWritable.write scan ≠ []) {paths : List Path}
    {inputs : List (JString × List Scan)}
    (h : List.Forall₂ (IsInput cluster toBytes scanWritable) paths inputs) :
    ∃ splits, getSplits compareTo cluster toBytes scanWritable paths = some splits ∧
      (splits.flatMap fun split =>
        cluster.scan (createRecordReader split).1 (createRecordReader split).2) =
          inputs.flatMap fun input => input.2.flatMap (cluster.scan (toBytes input.1)) := by
  induction h with
  | nil => exact ⟨[], rfl, rfl⟩
  | cons hinput _ ih =>
    obtain ⟨splits, hsplits, hreads⟩ := ih
    obtain ⟨first, hfirst, hread⟩ := splitsOfPath_spec hcmp hwrite hinput
    obtain ⟨rest, hrest, rfl⟩ := Option.map_eq_some_iff.mp hsplits
    refine ⟨(first :: rest).flatten, by rw [getSplits, List.mapM_cons, hfirst, hrest]; rfl, ?_⟩
    rw [List.flatten_cons, List.flatMap_append, hread, hreads, List.flatMap_cons]

/-- **A job reads what its scans read**: for any tables whose regions partition the key space, any
scans of them that do not get the first row of a region, and any data, the tasks of the splits, one
after the other, read the rows of the first scan of the first input in their order, then those of
the next scan, and so on: no row of a scan is missed, read twice or taken from another scan. -/
theorem runJob_spec (hcmp : IsByteOrder compareTo) (hwrite : ∀ scan, scanWritable.write scan ≠ [])
    {paths : List Path} {inputs : List (JString × List Scan)}
    (h : List.Forall₂ (IsInput cluster toBytes scanWritable) paths inputs) :
    runJob compareTo cluster toBytes scanWritable splitWritable paths =
      some (inputs.flatMap fun input => input.2.flatMap (cluster.scan (toBytes input.1))) := by
  obtain ⟨splits, hsplits, hreads⟩ := getSplits_spec hcmp hwrite h
  have htasks : (splits.mapM fun split => runTask cluster scanWritable splitWritable
      (split.write scanWritable splitWritable)) = some (splits.map fun split =>
        cluster.scan (createRecordReader split).1 (createRecordReader split).2) := by
    simp only [runTask_write]
    exact List.mapM_pure
  rw [runJob, hsplits, Option.bind_eq_bind, Option.bind_some, htasks, ← hreads]
  rfl

end

/-! ## A job over one table -/

/-- `Bytes.writeByteArray`: the length and the bytes, for lengths of one byte. -/
def writeByteArray (bytes : List UInt8) : List Int8 :=
  if bytes.length < 128 then .ofNat bytes.length :: bytes.map UInt8.toInt8
  else -1 :: bytes.flatMap (fun b => [1, b.toInt8]) ++ [0]

def readLong : List Int8 → Option (List UInt8 × List Int8)
  | [] => none
  | [_] => some ([], [])
  | mark :: b :: bytes =>
    if mark = 0 then some ([], b :: bytes)
    else (readLong bytes).map fun r => (b.toUInt8 :: r.1, r.2)

def readByteArray : List Int8 → Option (List UInt8 × List Int8)
  | [] => none
  | length :: bytes =>
    if length = -1 then readLong bytes
    else some ((bytes.take length.toNatClampNeg).map Int8.toUInt8, bytes.drop length.toNatClampNeg)

theorem readLong_append (bytes : List UInt8) (rest : List Int8) :
    readLong (bytes.flatMap (fun b => [1, b.toInt8]) ++ 0 :: rest) = some (bytes, rest) := by
  induction bytes with
  | nil => cases rest <;> rfl
  | cons b bytes ih =>
    rw [List.flatMap_cons, List.append_assoc, List.cons_append, List.cons_append, List.nil_append,
      readLong, if_neg (by decide), ih]
    simp

theorem readByteArray_append (bytes : List UInt8) (rest : List Int8) :
    readByteArray (writeByteArray bytes ++ rest) = some (bytes, rest) := by
  unfold writeByteArray
  split_ifs with hlen
  · have hnat : (Int8.ofNat bytes.length).toNatClampNeg = bytes.length :=
      Int8.toNatClampNeg_ofNat_of_lt hlen
    have hne : Int8.ofNat bytes.length ≠ -1 := by
      intro h
      have hint := congrArg Int8.toInt h
      rw [Int8.toInt_ofNat_of_lt hlen] at hint
      exact absurd hint (by simp)
    have hbytes : (bytes.map UInt8.toInt8).map Int8.toUInt8 = bytes := by
      rw [List.map_map]
      exact List.map_id'' (fun b => by simp) bytes
    have hlength : (bytes.map UInt8.toInt8).length = bytes.length := List.length_map _
    rw [List.cons_append, readByteArray, if_neg hne, hnat, List.take_left' hlength,
      List.drop_left' hlength, hbytes]
  · rw [List.append_assoc, List.cons_append, readByteArray, if_pos rfl]
    exact readLong_append bytes rest

/-- A scan by its start and its stop row. -/
def scanBytes : Writable Scan where
  write scan := writeByteArray scan.startRow ++ writeByteArray scan.stopRow
  readFields bytes := do
    let (startRow, bytes) ← readByteArray bytes
    let (stopRow, bytes) ← readByteArray bytes
    return (⟨startRow, stopRow⟩, bytes)
  readFields_write scan rest := by
    simp [List.append_assoc, readByteArray_append]

/-- A location by its UTF-8 bytes. -/
def splitBytes : Writable TableSplit where
  write split := writeByteArray split.1 ++ writeByteArray split.2.1 ++
    writeByteArray split.2.2.1 ++ writeByteArray split.2.2.2.toByteArray.data.toList
  readFields bytes := do
    let (tableName, bytes) ← readByteArray bytes
    let (startRow, bytes) ← readByteArray bytes
    let (endRow, bytes) ← readByteArray bytes
    let (location, bytes) ← readByteArray bytes
    let regionLocation ← String.fromUTF8? ⟨location.toArray⟩
    return ((tableName, startRow, endRow, regionLocation), bytes)
  readFields_write split rest := by
    have hlocation : String.fromUTF8? ⟨split.2.2.2.toByteArray.data.toList.toArray⟩ =
        some split.2.2.2 := by
      rw [Array.toArray_toList]
      exact dif_pos split.2.2.2.isValidUTF8
    simp only [List.append_assoc, readByteArray_append, Option.bind_eq_bind, Option.bind_some,
      hlocation]
    rfl

/-- A row in front of a scan from `"c"` to `"t"`, two in it and one behind it. -/
def oneTableRows (name : List UInt8) : List (List UInt8 × ℕ) :=
  if name = [0x74] then [([0x61], 0), ([0x64], 1), ([0x6e], 2), ([0x7a], 3)] else []

/-- The table of `twoRegions`. -/
def oneTable : Cluster ℕ where
  hTable name := if name = [0x74] then some twoRegions else none
  rows := oneTableRows
  scan name s := if s.isGet then (oneTableRows name).filter fun r => r.1 = s.startRow
    else (oneTableRows name).filter fun r => s.contains r.1
  tableName_eq name table h := by
    split_ifs at h with hname
    cases h
    exact hname.symm
  sorted name := by
    unfold oneTableRows
    split_ifs
    · decide
    · exact .nil
  scan_of_isGet name s h := if_pos h
  scan_of_not_isGet name s h := if_neg (Bool.eq_false_iff.mp h)

/-- The string of the table with that scan, a scan of all rows and a get. -/
def tableInput : JString :=
  (convertTableInputToString scanBytes.write (literal "t")
    [⟨[0x63], [0x74]⟩, ⟨[], []⟩, ⟨[0x6e], [0x6e]⟩]).getD []

theorem runJob_oneTable :
    runJob compareBytes oneTable (fun s => s.map UInt16.toUInt8) scanBytes splitBytes
      [⟨literal "/user" ++ 0x2f :: tableInput, some (literal "/user")⟩] =
        some [([0x64], 1), ([0x6e], 2), ([0x61], 0), ([0x64], 1), ([0x6e], 2), ([0x7a], 3),
          ([0x6e], 2)] := by
  have hinput : IsInput oneTable (fun s => s.map UInt16.toUInt8) scanBytes
      ⟨literal "/user" ++ 0x2f :: tableInput, some (literal "/user")⟩
      (literal "t", [⟨[0x63], [0x74]⟩, ⟨[], []⟩, ⟨[0x6e], [0x6e]⟩]) := by
    refine ⟨⟨tableInput, by decide +kernel, _, rfl, rfl⟩, by decide, twoRegions, _, _, ?_, rfl,
      ⟨rfl, rfl, rfl, by decide⟩, by simp [Scan.isGet]⟩
    rfl
  have hwrite : ∀ scan, scanBytes.write scan ≠ [] := by
    intro scan
    unfold scanBytes writeByteArray
    dsimp only
    split_ifs <;> simp
  rw [runJob_spec isByteOrder_compareBytes hwrite (.cons hinput .nil)]
  rfl

/-- Of the first row of a region a get makes no split. -/
example : getSplitsEachScan compareBytes twoRegions ⟨[0x6d], [0x6d]⟩ = .ok [] := rfl

end Sperm.MultipleTableInputFormat
