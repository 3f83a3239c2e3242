import Mathlib.Order.Bounds.Lattice
import Mathlib.Data.Int.Order.Basic
import Sperm.Common.ByteArray

/-!
# Cardinality sketches (`HyperLogLog.java`)

A sketch has a register for every bucket, which holds the largest number of trailing zeroes seen
among the identifiers of the bucket.

* `hash32`, `trailingZeroCount`: on Java's `int`, a bit vector.
* `HyperLogLog` with `new`, `sinkId` and `sinkVector`.
* `Holds h ids`: some run of these has built `h` and contributed `ids`.
* `Describes`: the registers of a set of identifiers; `describes_of_holds`.
* **`exactMerge`**: sketches merge exactly.
-/

namespace Sperm.Playboard

/-! ## The hash -/

/-- `data[i] & 0xff` as an `int`. -/
def byteAt (data : List UInt8) (i : ℕ) : BitVec 32 := (data.getD i 0).toBitVec.setWidth 32

/-- The constant `m`. -/
def mixM : BitVec 32 := 0x5bd1e995#32

/-- One round of the loop of `hash32`. -/
def hashRound (data : List UInt8) (h : BitVec 32) (i : ℕ) : BitVec 32 :=
  let i4 := i * 4
  let k := byteAt data (i4 + 0) + (byteAt data (i4 + 1) <<< 8) + (byteAt data (i4 + 2) <<< 16) +
    (byteAt data (i4 + 3) <<< 24)
  let k := k * mixM
  let k := k ^^^ (k >>> 24)
  let k := k * mixM
  h * mixM ^^^ k

/-- The `switch` over the last bytes, with its cases falling through. -/
def hashTail (data : List UInt8) (length : ℕ) (h : BitVec 32) : BitVec 32 :=
  let at4 := length / 4 * 4
  let h := if length % 4 = 3 then h ^^^ (byteAt data (at4 + 2) <<< 16) else h
  let h := if 2 ≤ length % 4 then h ^^^ (byteAt data (at4 + 1) <<< 8) else h
  if 1 ≤ length % 4 then (h ^^^ byteAt data at4) * mixM else h

/-- `hash32(data, length, seed)`. -/
def hash32 (data : List UInt8) (length : ℕ) (seed : BitVec 32) : BitVec 32 :=
  let h := seed ^^^ BitVec.ofNat 32 length
  let h := (List.range (length / 4)).foldl (hashRound data) h
  let h := hashTail data length h
  let h := h ^^^ (h >>> 13)
  let h := h * mixM
  h ^^^ (h >>> 15)

/-- `hash(bs)`: the `int` as a `long` without its sign. -/
def hash (bs : List UInt8) : ℕ := (hash32 bs bs.length 0).toNat

/-! ## Trailing zeroes -/

theorem eq_zero_of_getLsbD {value : BitVec 32} (h : ∀ q < 32, value.getLsbD q = false) :
    value = 0#32 := by
  apply BitVec.eq_of_getLsbD_eq
  intro i hi
  rw [h i hi, BitVec.getLsbD_zero]

theorem lt_of_zeroes {value : BitVec 32} (h : value ≠ 0#32) {p : ℕ}
    (hp : ∀ q < p, value.getLsbD q = false) : p < 32 := by
  by_contra hge
  exact h (eq_zero_of_getLsbD fun q hq => hp q (by omega))

theorem shift_and_one_eq_zero {value : BitVec 32} {p : ℕ} (hp : p < 32) :
    value.sshiftRight (p % 32) &&& 1#32 = 0#32 ↔ value.getLsbD p = false := by
  have hbit : (value.sshiftRight p).getLsbD 0 = value.getLsbD p := by
    rw [BitVec.getLsbD_sshiftRight]
    simp [hp]
  rw [Nat.mod_eq_of_lt hp, BitVec.and_one_eq_setWidth_ofBool_getLsbD, hbit]
  cases value.getLsbD p <;> decide

/-- `while(((value >> p) & 1) == 0) p += 1`. The bits below `p` are zero, so that the loop ends at
the first bit that is not. -/
def trailingZeroLoop (value : BitVec 32) (h : value ≠ 0#32) (p : ℕ)
    (hp : ∀ q < p, value.getLsbD q = false) : ℕ :=
  if ht : value.sshiftRight (p % 32) &&& 1#32 = 0#32 then
    trailingZeroLoop value h (p + 1) fun q hq =>
      (Nat.lt_succ_iff_lt_or_eq.mp hq).elim (hp q)
        fun he => he ▸ (shift_and_one_eq_zero (lt_of_zeroes h hp)).mp ht
  else p
termination_by 32 - p
decreasing_by
  have := lt_of_zeroes h hp
  omega

/-- `trailing_zero_count(value)`. -/
def trailingZeroCount (value : BitVec 32) : ℕ :=
  if h : value = 0#32 then 32
  else trailingZeroLoop value h 0 fun _ hq => absurd hq (Nat.not_lt_zero _)

theorem trailingZeroLoop_lt (value : BitVec 32) (h : value ≠ 0#32) (p : ℕ)
    (hp : ∀ q < p, value.getLsbD q = false) : trailingZeroLoop value h p hp < 32 := by
  fun_induction trailingZeroLoop value h p hp with
  | case1 p hp ht ih => exact ih
  | case2 p hp ht => exact lt_of_zeroes h hp

theorem trailingZeroCount_le (value : BitVec 32) : trailingZeroCount value ≤ 32 := by
  unfold trailingZeroCount
  split_ifs with h
  · exact le_rfl
  · exact (trailingZeroLoop_lt _ _ _ _).le

/-! ## Sketches -/

/-- The registers `max_zeroes`; there is at least one. -/
@[ext]
structure HyperLogLog where
  maxZeroes : List ℤ
  length_pos : 0 < maxZeroes.length

namespace HyperLogLog

/-- `HyperLogLog(bucket)`. The shift `1 << bucket` takes the last five bits of its count, and gives
a negative number when these are `31`. -/
def new (bucket : ℤ) : Except Fault HyperLogLog :=
  if bucket % 32 = 31 then .error .exception
  else .ok ⟨List.replicate (2 ^ (bucket % 32).toNat) 0, by simp⟩

/-- The register that an identifier goes to. -/
def bucketOf (len : ℕ) (bs : List UInt8) : ℕ := hash bs % len

/-- The zeroes that an identifier has there. The quotient is cut to an `int`. -/
def zeroesOf (len : ℕ) (bs : List UInt8) : ℤ :=
  trailingZeroCount (BitVec.ofNat 32 (hash bs / len))

/-- `sinkId(bs)`. -/
def sinkId (h : HyperLogLog) (bs : List UInt8) : HyperLogLog :=
  let len := h.maxZeroes.length
  let bucket := bucketOf len bs
  ⟨h.maxZeroes.set bucket (max (h.maxZeroes.getD bucket 0) (zeroesOf len bs)),
    by rw [List.length_set]; exact h.length_pos⟩

/-- `sinkVector(vector)`: what it returns and the sketch after it. -/
def sinkVector (h : HyperLogLog) (vector : List ℤ) : Bool × HyperLogLog :=
  if hl : vector.length = h.maxZeroes.length then
    (true, ⟨List.zipWith max h.maxZeroes vector, by
      rw [List.length_zipWith, hl, Nat.min_self]; exact h.length_pos⟩)
  else (false, h)

/-- `sinkId` for one identifier after the other. -/
def sinkIds (h : HyperLogLog) (ids : List (List UInt8)) : HyperLogLog := ids.foldl sinkId h

end HyperLogLog

/-- Some run has built the sketch, and it contributed these identifiers: by `sinkId`, and by
`sinkVector` of another such sketch. A `sinkVector` that returns false contributes nothing. -/
inductive Holds : HyperLogLog → Set (List UInt8) → Prop where
  | new {bucket : ℤ} {h : HyperLogLog} (hn : HyperLogLog.new bucket = .ok h) : Holds h ∅
  | sinkId {h : HyperLogLog} {ids : Set (List UInt8)} (hh : Holds h ids) (bs : List UInt8) :
      Holds (h.sinkId bs) (insert bs ids)
  | sinkVector {h g h' : HyperLogLog} {ids ids' : Set (List UInt8)} (hh : Holds h ids)
      (hg : Holds g ids') (hs : h.sinkVector g.maxZeroes = (true, h')) : Holds h' (ids ∪ ids')
  | refused {h h' : HyperLogLog} {ids : Set (List UInt8)} {vector : List ℤ} (hh : Holds h ids)
      (hs : h.sinkVector vector = (false, h')) : Holds h' ids

/-! ## What the registers hold -/

/-- The zeroes that register `i` of `len` has seen; it starts with `0`. -/
def seen (len : ℕ) (ids : Set (List UInt8)) (i : ℕ) : Set ℤ :=
  insert 0 (HyperLogLog.zeroesOf len '' {bs ∈ ids | HyperLogLog.bucketOf len bs = i})

/-- Every register holds the largest number of zeroes that it has seen. -/
def Describes (h : HyperLogLog) (ids : Set (List UInt8)) : Prop :=
  ∀ i < h.maxZeroes.length, IsGreatest (seen h.maxZeroes.length ids i) (h.maxZeroes.getD i 0)

theorem seen_empty (len i : ℕ) : seen len ∅ i = {0} := by
  simp [seen]

theorem seen_insert_self (len : ℕ) (bs : List UInt8) (ids : Set (List UInt8)) :
    seen len (insert bs ids) (HyperLogLog.bucketOf len bs) =
      insert (HyperLogLog.zeroesOf len bs) (seen len ids (HyperLogLog.bucketOf len bs)) := by
  have hsep : {x ∈ insert bs ids | HyperLogLog.bucketOf len x = HyperLogLog.bucketOf len bs} =
      insert bs {x ∈ ids | HyperLogLog.bucketOf len x = HyperLogLog.bucketOf len bs} := by
    ext x
    constructor
    · rintro ⟨rfl | hx, hb⟩
      · exact .inl rfl
      · exact .inr ⟨hx, hb⟩
    · rintro (rfl | ⟨hx, hb⟩)
      · exact ⟨.inl rfl, rfl⟩
      · exact ⟨.inr hx, hb⟩
  rw [seen, hsep, Set.image_insert_eq, Set.insert_comm]
  rfl

theorem seen_insert_of_ne {len i : ℕ} {bs : List UInt8} (hb : HyperLogLog.bucketOf len bs ≠ i)
    (ids : Set (List UInt8)) : seen len (insert bs ids) i = seen len ids i := by
  have hsep : {x ∈ insert bs ids | HyperLogLog.bucketOf len x = i} =
      {x ∈ ids | HyperLogLog.bucketOf len x = i} := by
    ext x
    constructor
    · rintro ⟨rfl | hx, hx'⟩
      · exact absurd hx' hb
      · exact ⟨hx, hx'⟩
    · exact fun hx => ⟨.inr hx.1, hx.2⟩
  rw [seen, hsep]
  rfl

theorem seen_union (len i : ℕ) (ids ids' : Set (List UInt8)) :
    seen len (ids ∪ ids') i = seen len ids i ∪ seen len ids' i := by
  have hsep : {bs ∈ ids ∪ ids' | HyperLogLog.bucketOf len bs = i} =
      {bs ∈ ids | HyperLogLog.bucketOf len bs = i} ∪
        {bs ∈ ids' | HyperLogLog.bucketOf len bs = i} := by
    ext bs
    exact or_and_right
  rw [seen, hsep, Set.image_union, Set.insert_union_distrib]
  rfl

theorem describes_new {bucket : ℤ} {h : HyperLogLog} (hn : HyperLogLog.new bucket = .ok h) :
    Describes h ∅ := by
  unfold HyperLogLog.new at hn
  split_ifs at hn
  cases hn
  intro i hi
  have hreg : (List.replicate (2 ^ (bucket % 32).toNat) (0 : ℤ)).getD i 0 = 0 := by
    rw [List.length_replicate] at hi
    simp [hi]
  rw [seen_empty, hreg]
  exact isGreatest_singleton

theorem describes_sinkId {h : HyperLogLog} {ids : Set (List UInt8)} (hd : Describes h ids)
    (bs : List UInt8) : Describes (h.sinkId bs) (insert bs ids) := by
  have hlen : (h.sinkId bs).maxZeroes.length = h.maxZeroes.length := List.length_set
  intro i hi
  rw [hlen] at hi ⊢
  by_cases hb : HyperLogLog.bucketOf h.maxZeroes.length bs = i
  · subst hb
    have hreg : (h.sinkId bs).maxZeroes.getD (HyperLogLog.bucketOf h.maxZeroes.length bs) 0 =
        max (HyperLogLog.zeroesOf h.maxZeroes.length bs)
          (h.maxZeroes.getD (HyperLogLog.bucketOf h.maxZeroes.length bs) 0) := by
      rw [max_comm]
      simp [HyperLogLog.sinkId, hi]
    rw [seen_insert_self, hreg]
    exact (hd _ hi).insert _
  · have hreg : (h.sinkId bs).maxZeroes.getD i 0 = h.maxZeroes.getD i 0 := by
      simp [HyperLogLog.sinkId, hb]
    rw [seen_insert_of_ne hb, hreg]
    exact hd i hi

theorem HyperLogLog.sinkVector_of_length {h : HyperLogLog} {vector : List ℤ}
    (hl : vector.length = h.maxZeroes.length) :
    ∃ h', h.sinkVector vector = (true, h') ∧ h'.maxZeroes = List.zipWith max h.maxZeroes vector :=
  ⟨_, dif_pos hl, rfl⟩

theorem HyperLogLog.sinkVector_of_ne {h : HyperLogLog} {vector : List ℤ}
    (hl : vector.length ≠ h.maxZeroes.length) : h.sinkVector vector = (false, h) :=
  dif_neg hl

theorem describes_sinkVector {h g h' : HyperLogLog} {ids ids' : Set (List UInt8)}
    (hd : Describes h ids) (hd' : Describes g ids')
    (hs : h.sinkVector g.maxZeroes = (true, h')) : Describes h' (ids ∪ ids') := by
  by_cases hl : g.maxZeroes.length = h.maxZeroes.length
  · obtain ⟨h₁, hs₁, hmz⟩ := HyperLogLog.sinkVector_of_length hl
    rw [hs] at hs₁
    cases hs₁
    have hlen : h'.maxZeroes.length = h.maxZeroes.length := by
      rw [hmz, List.length_zipWith, hl, Nat.min_self]
    intro i hi
    rw [hlen] at hi ⊢
    have hreg : h'.maxZeroes.getD i 0 = max (h.maxZeroes.getD i 0) (g.maxZeroes.getD i 0) := by
      simp [hmz, hi, hl]
    have hold := hd' i (by omega)
    rw [hl] at hold
    rw [seen_union, hreg]
    exact (hd i hi).union hold
  · rw [HyperLogLog.sinkVector_of_ne hl] at hs
    cases hs

/-- **The registers of a sketch are those of the identifiers it holds.** -/
theorem describes_of_holds {h : HyperLogLog} {ids : Set (List UInt8)} (hh : Holds h ids) :
    Describes h ids := by
  induction hh with
  | new hn => exact describes_new hn
  | sinkId _ bs ih => exact describes_sinkId ih bs
  | sinkVector _ _ hs ih ih' => exact describes_sinkVector ih ih' hs
  | @refused h h' ids vector _ hs ih =>
    by_cases hl : vector.length = h.maxZeroes.length
    · obtain ⟨_, hs₁, -⟩ := HyperLogLog.sinkVector_of_length hl
      rw [hs₁] at hs
      cases hs
    · rw [HyperLogLog.sinkVector_of_ne hl] at hs
      cases hs
      exact ih

/-- A set of identifiers determines the registers. -/
theorem eq_of_describes {h g : HyperLogLog} {ids : Set (List UInt8)} (hd : Describes h ids)
    (hd' : Describes g ids) (hlen : h.maxZeroes.length = g.maxZeroes.length) : h = g := by
  have he : h.maxZeroes = g.maxZeroes := by
    apply List.ext_getElem hlen
    intro i hi hi'
    have hg := hd' i hi'
    rw [← hlen] at hg
    simpa [hi, hi'] using (hd i hi).unique hg
  exact HyperLogLog.ext he

/-! ## Merging -/

theorem holds_sinkIds {h : HyperLogLog} {ids : Set (List UInt8)} (hh : Holds h ids)
    (xs : List (List UInt8)) : Holds (h.sinkIds xs) (ids ∪ {x | x ∈ xs}) := by
  induction xs generalizing h ids with
  | nil =>
    have he : ids ∪ {x | x ∈ []} = ids := by simp
    rw [he]
    exact hh
  | cons x xs ih =>
    have he : ids ∪ {y | y ∈ x :: xs} = insert x ids ∪ {y | y ∈ xs} := by
      ext y
      simp [or_left_comm, or_assoc]
    rw [he]
    exact ih (hh.sinkId x)

theorem length_sinkIds (h : HyperLogLog) (xs : List (List UInt8)) :
    (h.sinkIds xs).maxZeroes.length = h.maxZeroes.length := by
  induction xs generalizing h with
  | nil => rfl
  | cons x xs ih => exact (ih (h.sinkId x)).trans List.length_set

/-- Sketches merge exactly. -/
structure ExactMerge : Prop where
  /-- The registers are those of the identifiers. -/
  describes_of_holds : ∀ {h : HyperLogLog} {ids : Set (List UInt8)}, Holds h ids → Describes h ids
  /-- Order, repetition and grouping do not matter. -/
  eq_of_holds : ∀ {h g : HyperLogLog} {ids : Set (List UInt8)}, Holds h ids → Holds g ids →
    h.maxZeroes.length = g.maxZeroes.length → h = g
  /-- Merging two sketches is sinking the identifiers of both into one, in any order. -/
  sinkVector_sinkIds : ∀ {bucket : ℤ} {h : HyperLogLog}, HyperLogLog.new bucket = .ok h →
    ∀ xs ys zs, (∀ id, id ∈ zs ↔ id ∈ xs ∨ id ∈ ys) →
      (h.sinkIds xs).sinkVector (h.sinkIds ys).maxZeroes = (true, h.sinkIds zs)
  sinkVector_comm : ∀ {h g : HyperLogLog}, h.maxZeroes.length = g.maxZeroes.length →
    h.sinkVector g.maxZeroes = g.sinkVector h.maxZeroes
  sinkVector_assoc : ∀ {h g k : HyperLogLog}, h.maxZeroes.length = g.maxZeroes.length →
    g.maxZeroes.length = k.maxZeroes.length →
      (h.sinkVector g.maxZeroes).2.sinkVector k.maxZeroes =
        h.sinkVector (g.sinkVector k.maxZeroes).2.maxZeroes
  sinkVector_self : ∀ h : HyperLogLog, h.sinkVector h.maxZeroes = (true, h)
  /-- A vector of another length changes nothing. -/
  sinkVector_ne : ∀ {h : HyperLogLog} {vector : List ℤ},
    vector.length ≠ h.maxZeroes.length → h.sinkVector vector = (false, h)
  trailingZeroCount_le : ∀ value, trailingZeroCount value ≤ 32

theorem eq_of_holds {h g : HyperLogLog} {ids : Set (List UInt8)} (hh : Holds h ids)
    (hg : Holds g ids) (hlen : h.maxZeroes.length = g.maxZeroes.length) : h = g :=
  eq_of_describes (describes_of_holds hh) (describes_of_holds hg) hlen

theorem sinkVector_sinkIds {bucket : ℤ} {h : HyperLogLog} (hn : HyperLogLog.new bucket = .ok h)
    {xs ys zs : List (List UInt8)} (hz : ∀ id, id ∈ zs ↔ id ∈ xs ∨ id ∈ ys) :
    (h.sinkIds xs).sinkVector (h.sinkIds ys).maxZeroes = (true, h.sinkIds zs) := by
  have hl : (h.sinkIds ys).maxZeroes.length = (h.sinkIds xs).maxZeroes.length := by
    rw [length_sinkIds, length_sinkIds]
  obtain ⟨h', hs, hmz⟩ := HyperLogLog.sinkVector_of_length hl
  have hlen : h'.maxZeroes.length = (h.sinkIds zs).maxZeroes.length := by
    rw [hmz, List.length_zipWith, hl, Nat.min_self, length_sinkIds, length_sinkIds]
  have hall := (holds_sinkIds (.new hn) xs).sinkVector (holds_sinkIds (.new hn) ys) hs
  have hset : ∅ ∪ {x | x ∈ xs} ∪ (∅ ∪ {x | x ∈ ys}) = ∅ ∪ {x | x ∈ zs} := by
    ext x
    simp [hz]
  rw [hset] at hall
  rw [hs, eq_of_holds hall (holds_sinkIds (.new hn) zs) hlen]

theorem sinkVector_comm {h g : HyperLogLog} (hl : h.maxZeroes.length = g.maxZeroes.length) :
    h.sinkVector g.maxZeroes = g.sinkVector h.maxZeroes := by
  obtain ⟨h₁, hs₁, hmz₁⟩ := HyperLogLog.sinkVector_of_length hl.symm
  obtain ⟨h₂, hs₂, hmz₂⟩ := HyperLogLog.sinkVector_of_length hl
  have he : h₁ = h₂ := by
    apply HyperLogLog.ext
    rw [hmz₁, hmz₂, List.zipWith_comm_of_comm max_comm]
  rw [hs₁, hs₂, he]

theorem sinkVector_assoc {h g k : HyperLogLog} (hl : h.maxZeroes.length = g.maxZeroes.length)
    (hl' : g.maxZeroes.length = k.maxZeroes.length) :
    (h.sinkVector g.maxZeroes).2.sinkVector k.maxZeroes =
      h.sinkVector (g.sinkVector k.maxZeroes).2.maxZeroes := by
  obtain ⟨h₁, hs₁, hmz₁⟩ := HyperLogLog.sinkVector_of_length hl.symm
  obtain ⟨h₂, hs₂, hmz₂⟩ := HyperLogLog.sinkVector_of_length hl'.symm
  rw [hs₁, hs₂]
  have hlen₁ : k.maxZeroes.length = h₁.maxZeroes.length := by
    rw [hmz₁, List.length_zipWith]
    omega
  have hlen₂ : h₂.maxZeroes.length = h.maxZeroes.length := by
    rw [hmz₂, List.length_zipWith]
    omega
  obtain ⟨h₃, hs₃, hmz₃⟩ := HyperLogLog.sinkVector_of_length hlen₁
  obtain ⟨h₄, hs₄, hmz₄⟩ := HyperLogLog.sinkVector_of_length hlen₂
  have he : h₃ = h₄ := by
    apply HyperLogLog.ext
    rw [hmz₃, hmz₄, hmz₁, hmz₂]
    apply List.ext_getElem
    · simp only [List.length_zipWith]
      omega
    · intro i _ _
      simp only [List.getElem_zipWith, max_assoc]
  rw [hs₃, hs₄, he]

theorem sinkVector_self (h : HyperLogLog) : h.sinkVector h.maxZeroes = (true, h) := by
  obtain ⟨h', hs, hmz⟩ := HyperLogLog.sinkVector_of_length (h := h) rfl
  have he : h' = h := by
    apply HyperLogLog.ext
    rw [hmz, List.zipWith_self]
    simp
  rw [hs, he]

/-- **Sketches merge exactly**: the registers depend on the identifiers alone. -/
theorem exactMerge : ExactMerge where
  describes_of_holds := describes_of_holds
  eq_of_holds := eq_of_holds
  sinkVector_sinkIds hn _ _ _ := sinkVector_sinkIds hn
  sinkVector_comm := sinkVector_comm
  sinkVector_assoc := sinkVector_assoc
  sinkVector_self := sinkVector_self
  sinkVector_ne := HyperLogLog.sinkVector_of_ne
  trailingZeroCount_le := trailingZeroCount_le

/-- `"alice"`, `"bob"` and `"carol"`. -/
def alice : List UInt8 := [0x61, 0x6c, 0x69, 0x63, 0x65]

def bob : List UInt8 := [0x62, 0x6f, 0x62]

def carol : List UInt8 := [0x63, 0x61, 0x72, 0x6f, 0x6c]

/-- Two sketches of four registers, with `"bob"` in both. -/
theorem exactMerge_bob_in_both : ∃ h, HyperLogLog.new 2 = .ok h ∧
    (h.sinkIds [alice, bob]).maxZeroes = [0, 1, 0, 6] ∧
    (h.sinkIds [carol, bob]).maxZeroes = [0, 0, 1, 6] ∧
    (h.sinkIds [alice, bob]).sinkVector (h.sinkIds [carol, bob]).maxZeroes =
      (true, h.sinkIds [bob, carol, alice]) ∧
    (h.sinkIds [bob, carol, alice]).maxZeroes = [0, 1, 1, 6] ∧
    Describes (h.sinkIds [alice, bob]) (∅ ∪ {id | id ∈ [alice, bob]}) := by
  have hn : HyperLogLog.new 2 = .ok ⟨List.replicate (2 ^ (2 % 32 : ℤ).toNat) 0, by simp⟩ := rfl
  refine ⟨_, hn, by decide +kernel, by decide +kernel,
    exactMerge.sinkVector_sinkIds hn [alice, bob] [carol, bob] [bob, carol, alice] fun id => ?_,
    by decide +kernel, exactMerge.describes_of_holds (holds_sinkIds (.new hn) _)⟩
  simp only [List.mem_cons, List.not_mem_nil, or_false]
  tauto

end Sperm.Playboard
