import Mathlib.Algebra.BigOperators.Group.List.Basic
import Mathlib.Algebra.Order.Ring.Nat
import Mathlib.Tactic.Common

/-!
# Table inputs as strings (`mr/MultipleTableInputFormat.java`)

A job gets its tables and scans through a string: the name of a table and behind it, each after a
separator, the bytes of its scans in hexadecimal digits.

* `encode`, `decode`, `split`, `convertTableInputToString`, `convertStringToTableInput`: the model,
  for whatever `Scan.write` and `Scan.readFields` do. `none` is an exception. Lengths are `int`s:
  `encode` doubles one for its capacity, and a buffer cannot hold more.
* `encodeByte_spec`, `encodeLoop_spec`: the digits of bytes give them back, and no digit is a
  separator.
* `split_intercalate`: a string is split where it was put together, when its last field has a
  character.
* **`tableInput_survives_iff`**: table inputs survive their string form, exactly if no length
  overflows.
-/

namespace Sperm.MultipleTableInputFormat

/-- A string, by its UTF-16 code units. -/
abbrev JString := List UInt16

/-- The characters of a literal. -/
def literal (s : String) : JString := s.toList.map fun c => .ofNat c.toNat

/-- `kSeparator`, which has one character. -/
def kSeparator : UInt16 := 0x21

def hexString : JString := literal "0123456789ABCDEF"

/-- `s.charAt(i)`. -/
def charAt (s : JString) (i : Int32) : Option UInt16 :=
  if i < 0 then none else s[i.toNatClampNeg]?

/-- `s.indexOf(c)`. -/
def indexOf (s : JString) (c : UInt16) : Int32 :=
  match s.idxOf? c with
  | none => -1
  | some i => .ofNat i

/-- The two digits of a byte. -/
def encodeByte (b : Int8) : Option (UInt16 × UInt16) := do
  let hi ← charAt hexString ((b.toInt32 &&& 0xf0) >>> 4)
  let lo ← charAt hexString ((b.toInt32 &&& 0x0f) >>> 0)
  return (hi, lo)

/-- The loop of `encode`. -/
def encodeLoop : List Int8 → Option JString
  | [] => some []
  | b :: bytes => do
    let (hi, lo) ← encodeByte b
    let sb ← encodeLoop bytes
    return hi :: lo :: sb

/-- `encode(bytes)`: a capacity `bytes.length * 2` that has become negative is an exception. -/
def encode (bytes : List Int8) : Option JString :=
  if 2 ^ 31 ≤ bytes.length * 2 then none else encodeLoop bytes

/-- The byte of two digits; `write` takes the low eight bits. -/
def decodeByte (hi lo : UInt16) : Int8 :=
  (indexOf hexString hi <<< 4 ||| indexOf hexString lo).toInt8

def decode : JString → Option (List Int8)
  | [] => some []
  | [_] => none
  | hi :: lo :: bytes => (decode bytes).map (decodeByte hi lo :: ·)

/-- `s.split(kSeparator)`: a string without a separator is its only field, and empty fields at the
end are dropped. -/
def split (s : JString) : List JString :=
  if kSeparator ∈ s then ((s.splitOn kSeparator).reverse.dropWhile List.isEmpty).reverse else [s]

/-- `sb.append(s)` of a `StringBuffer`. -/
def append (sb s : JString) : Option JString :=
  if 2 ^ 31 ≤ sb.length + s.length then none else some (sb ++ s)

section

variable {S : Type} (write : S → List Int8) (readFields : List Int8 → Option S)

def convertScanToString (scan : S) : Option JString := encode (write scan)

/-- The pass of the loop in `convertTableInputToString` at a scan. -/
def appendScan (sb : JString) (scan : S) : Option JString := do
  let sb ← append sb [kSeparator]
  let s ← convertScanToString write scan
  append sb s

def convertTableInputToString (tableName : JString) (scans : List S) : Option JString := do
  let sb ← append [] tableName
  scans.foldlM (appendScan write) sb

def convertStringToScan (s : JString) : Option S := do
  let bytes ← decode s
  readFields bytes

/-- The array of objects has the name of the table, and then the scans. -/
def convertStringToTableInput (s : JString) : Option (JString × List S) :=
  match split s with
  | [] => none
  | name :: fields => (fields.mapM (convertStringToScan readFields)).map (name, ·)

end

/-! ## Digits -/

theorem encodeByte_check (v : BitVec 8) : (encodeByte (.ofBitVec v)).any (fun p =>
    decide (decodeByte p.1 p.2 = .ofBitVec v ∧ p.1 ≠ kSeparator ∧ p.2 ≠ kSeparator)) = true := by
  revert v
  decide +kernel

/-- **The digits of a byte** give it back. -/
theorem encodeByte_spec (b : Int8) : ∃ hi lo, encodeByte b = some (hi, lo) ∧
    decodeByte hi lo = b ∧ hi ≠ kSeparator ∧ lo ≠ kSeparator := by
  obtain ⟨⟨hi, lo⟩, h, hp⟩ := (Option.any_eq_true _ _).mp (encodeByte_check b.toBitVec)
  exact ⟨hi, lo, h, of_decide_eq_true hp⟩

theorem encodeLoop_spec (bytes : List Int8) : ∃ s, encodeLoop bytes = some s ∧
    decode s = some bytes ∧ kSeparator ∉ s ∧ s.length = bytes.length * 2 := by
  induction bytes with
  | nil => exact ⟨[], rfl, rfl, List.not_mem_nil, rfl⟩
  | cons b bytes ih =>
    obtain ⟨hi, lo, hb, hdec, hhi, hlo⟩ := encodeByte_spec b
    obtain ⟨s, hs, hds, hsep, hlen⟩ := ih
    refine ⟨hi :: lo :: s, by simp [encodeLoop, hb, hs], by simp [decode, hds, hdec], ?_, ?_⟩
    · simp [hsep, hhi.symm, hlo.symm]
    · simp only [List.length_cons]
      omega

/-! ## Fields -/

theorem intercalate_cons (sep name : JString) (fields : List JString) :
    sep.intercalate (name :: fields) = name ++ (fields.map (sep ++ ·)).flatten := by
  induction fields generalizing name with
  | nil => simp [List.intercalate]
  | cons field fields ih =>
    rw [List.intercalate_cons_cons, ih]
    simp

/-- A string of several fields is split into them, unless the last one is empty. -/
theorem split_intercalate {name : JString} {fields : List JString} (hname : kSeparator ∉ name)
    (hfields : ∀ field ∈ fields, kSeparator ∉ field ∧ field ≠ []) :
    split ([kSeparator].intercalate (name :: fields)) = name :: fields := by
  have hsplit :
      ([kSeparator].intercalate (name :: fields)).splitOn kSeparator = name :: fields := by
    refine List.splitOn_intercalate _ (fun field hf => ?_) (List.cons_ne_nil _ _)
    rcases List.mem_cons.mp hf with rfl | hf
    · exact hname
    · exact (hfields field hf).1
  unfold split
  rw [hsplit, intercalate_cons]
  split_ifs with hsep
  · -- there is a last field behind the name, and it is not dropped
    rcases List.eq_nil_or_concat fields with rfl | ⟨init, last, rfl⟩
    · simp [hname] at hsep
    · have hlast : last.isEmpty = false := by
        simpa using (hfields last (by simp)).2
      simp [hlast]
  · cases fields with
    | nil => simp
    | cons field fields => simp at hsep

/-! ## Table inputs -/

section

variable {S : Type} {write : S → List Int8} {readFields : List Int8 → Option S}

/-- How long the fields of the scans are, with their separators. -/
def fieldsLength (write : S → List Int8) (scans : List S) : ℕ :=
  (scans.map fun scan => 1 + (write scan).length * 2).sum

theorem appendScan_eq {scan : S} {s : JString} (hs : encodeLoop (write scan) = some s)
    (hlen : s.length = (write scan).length * 2) (sb : JString) :
    appendScan write sb scan =
      if 2 ^ 31 ≤ sb.length + (1 + (write scan).length * 2) then none
      else some (sb ++ kSeparator :: s) := by
  have hadd : (sb ++ [kSeparator]).length + s.length =
      sb.length + (1 + (write scan).length * 2) := by
    rw [List.length_append, hlen, Nat.add_assoc]
    rfl
  simp only [appendScan, append, convertScanToString, encode, hs, Option.bind_eq_bind,
    List.length_singleton]
  by_cases hsep : 2 ^ 31 ≤ sb.length + 1
  · rw [if_pos hsep, Option.bind_none, if_pos (by omega)]
  · rw [if_neg hsep, Option.bind_some]
    by_cases hcap : 2 ^ 31 ≤ (write scan).length * 2
    · rw [if_pos hcap, Option.bind_none, if_pos (by omega)]
    · rw [if_neg hcap, Option.bind_some, hadd, List.append_assoc, List.singleton_append]

theorem exists_fields (hwrite : ∀ scan, write scan ≠ [])
    (hread : ∀ scan, readFields (write scan) = some scan) (scans : List S) :
    ∃ fields : List JString,
      (∀ sb, sb.length < 2 ^ 31 → scans.foldlM (appendScan write) sb =
        if 2 ^ 31 ≤ sb.length + fieldsLength write scans then none
        else some (sb ++ (fields.map (kSeparator :: ·)).flatten)) ∧
      fields.mapM (convertStringToScan readFields) = some scans ∧
      ∀ field ∈ fields, kSeparator ∉ field ∧ field ≠ [] := by
  induction scans with
  | nil =>
    refine ⟨[], fun sb hsb => ?_, rfl, by simp⟩
    rw [if_neg (by simpa [fieldsLength] using hsb)]
    simp
  | cons scan scans ih =>
    obtain ⟨fields, hto, hfrom, hfields⟩ := ih
    obtain ⟨s, hs, hds, hsep, hlen⟩ := encodeLoop_spec (write scan)
    have hcons : fieldsLength write (scan :: scans) =
        1 + (write scan).length * 2 + fieldsLength write scans := List.sum_cons
    refine ⟨s :: fields, fun sb hsb => ?_, ?_, ?_⟩
    · rw [List.foldlM_cons, appendScan_eq hs hlen, hcons]
      split_ifs with hscan hall hall
      · rfl
      · omega
      · rw [Option.bind_eq_bind, Option.bind_some, hto, if_pos]
        · rw [List.length_append, List.length_cons, hlen]
          omega
        · rw [List.length_append, List.length_cons, hlen]
          omega
      · rw [Option.bind_eq_bind, Option.bind_some, hto, if_neg]
        · simp
        · rw [List.length_append, List.length_cons, hlen]
          omega
        · rw [List.length_append, List.length_cons, hlen]
          omega
    · rw [List.mapM_cons, hfrom]
      simp [convertStringToScan, hds, hread]
    · have hpos := List.length_pos_iff.mpr (hwrite scan)
      rw [List.forall_mem_cons]
      refine ⟨⟨hsep, ?_⟩, hfields⟩
      rintro rfl
      rw [List.length_nil] at hlen
      omega

/-- **The string of a table input** gives it back, and there is one if it is not too long. -/
theorem convertTableInputToString_spec (hwrite : ∀ scan, write scan ≠ [])
    (hread : ∀ scan, readFields (write scan) = some scan) {tableName : JString}
    (hname : kSeparator ∉ tableName) (scans : List S) :
    ∃ s, convertStringToTableInput readFields s = some (tableName, scans) ∧
      convertTableInputToString write tableName scans =
        if 2 ^ 31 ≤ tableName.length + fieldsLength write scans then none else some s := by
  obtain ⟨fields, hto, hfrom, hfields⟩ := exists_fields hwrite hread scans
  refine ⟨[kSeparator].intercalate (tableName :: fields), ?_, ?_⟩
  · rw [convertStringToTableInput, split_intercalate hname hfields]
    simp only [hfrom, Option.map_some]
  · rw [intercalate_cons, convertTableInputToString, append, List.length_nil, Nat.zero_add,
      List.nil_append]
    by_cases hfit : 2 ^ 31 ≤ tableName.length
    · rw [if_pos hfit, if_pos (by omega)]
      rfl
    · rw [if_neg hfit, Option.bind_eq_bind, Option.bind_some, hto _ (Nat.not_le.mp hfit)]
      rfl

theorem encode_decode_iff (bytes : List Int8) :
    (encode bytes).bind decode = some bytes ↔ bytes.length * 2 < 2 ^ 31 := by
  obtain ⟨s, hs, hds, -⟩ := encodeLoop_spec bytes
  unfold encode
  split_ifs with hcap
  · exact iff_of_false (by simp) (Nat.not_lt.mpr hcap)
  · rw [hs, Option.bind_some]
    exact iff_of_true hds (Nat.not_le.mp hcap)

/-- **Table inputs survive their string form** exactly if no length overflows: bytes survive their
digits if twice their number fits in an `int`, and a name without a separator and any number of
scans come back in their order if the length of their string does, where `readFields` reads what
`write` has written, and that is at least one byte. -/
theorem tableInput_survives_iff (hwrite : ∀ scan, write scan ≠ [])
    (hread : ∀ scan, readFields (write scan) = some scan) :
    (∀ bytes, (encode bytes).bind decode = some bytes ↔ bytes.length * 2 < 2 ^ 31) ∧
      ∀ (tableName : JString) (scans : List S), kSeparator ∉ tableName →
        ((convertTableInputToString write tableName scans).bind
            (convertStringToTableInput readFields) = some (tableName, scans) ↔
          tableName.length + fieldsLength write scans < 2 ^ 31) := by
  refine ⟨encode_decode_iff, fun tableName scans hname => ?_⟩
  obtain ⟨s, hs, hto⟩ := convertTableInputToString_spec hwrite hread hname scans
  rw [hto]
  split_ifs with hfit
  · exact iff_of_false (by simp) (Nat.not_lt.mpr hfit)
  · exact iff_of_true hs (Nat.not_le.mp hfit)

end

/-- A scan of one byte that is written as it is. -/
theorem tableInput_survives_bytes :
    (convertTableInputToString (fun b : Int8 => [b]) (literal "t") [-1, 10]) =
      some (literal "t!FF!0A") ∧
    (convertTableInputToString (fun b : Int8 => [b]) (literal "t") [-1, 10]).bind
      (convertStringToTableInput List.head?) = some (literal "t", [-1, 10]) :=
  ⟨by decide +kernel, ((tableInput_survives_iff (fun _ => List.cons_ne_nil _ _) fun _ => rfl).2 _ _
    (by decide)).mpr (by decide)⟩

/-- An array of `2 ^ 30` bytes. -/
theorem encode_decode_long :
    ¬ ∀ bytes : List Int8, bytes.length < 2 ^ 31 → (encode bytes).bind decode = some bytes := by
  intro h
  have hlen : (List.replicate (2 ^ 30) (0 : Int8)).length = 2 ^ 30 := List.length_replicate
  have hlt := (encode_decode_iff _).mp (h _ (by rw [hlen]; omega))
  rw [hlen] at hlt
  omega

end Sperm.MultipleTableInputFormat
