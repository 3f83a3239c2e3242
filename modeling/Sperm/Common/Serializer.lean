import Sperm.Common.Compress

/-!
# The wire format (`common/serializer.h`, `common/proto_serializer.h`)

Integers are variable-length, signed ones zigzagged and 32-bit ones widened; a string or a protobuf
message is its length followed by its bytes.

* `Protobuf`: `ByteSize`, `SerializeToArray` and `ParseFromCodedStream` of the message classes, and
  `Protobuf.Exact`, what the code relies on.
* `serialize`, `deserialize` at every type, `serializeAll` and `deserializeAll` for a sequence.
* `wire`: the bytes of a value; `serialize_spec`, `deserialize_spec`.
* **`deserializeAll_serializeAll`**: the wire format round-trips.
-/

namespace Sperm

/-- Protobuf message classes `T i`. A parse gets the memory and the `int` size that
`CodedInputStream` is built from, and gives its result and the message after it. -/
structure Protobuf {ι : Type} (T : ι → Type) where
  byteSize : ∀ {i}, T i → ℕ
  serializeToArray : ∀ {i}, T i → ℕ → Option (List UInt8)
  parseFromCodedStream : ∀ i, (ℕ → UInt8) → ℤ → Bool × T i

/-- Parsing exactly the produced bytes gives the message back; `ByteSize` is an `int`. -/
structure Protobuf.Exact {ι : Type} {T : ι → Type} (pb : Protobuf T) : Prop where
  byteSize_lt : ∀ {i} (m : T i), pb.byteSize m < 2 ^ 31
  parse_serialize : ∀ {i} (m : T i), ∃ bs, pb.serializeToArray m (pb.byteSize m) = some bs ∧
    bs.length = pb.byteSize m ∧
      ∀ p, slice p 0 bs.length = bs → pb.parseFromCodedStream i p bs.length = (true, m)

/-- The types that have a `serialize` and a `deserialize`. -/
inductive Ty (ι : Type) where
  | uint64
  | int64
  | uint32
  | int32
  | string
  | proto (i : ι)
  deriving DecidableEq

variable {ι : Type} {T : ι → Type}

/-- The values of a type. -/
def Ty.Carrier (T : ι → Type) : Ty ι → Type
  | .uint64 => UInt64
  | .int64 => Int64
  | .uint32 => UInt32
  | .int32 => Int32
  | .string => List UInt8
  | .proto i => T i

/-- A value with its type. -/
abbrev Value (T : ι → Type) : Type := Σ t : Ty ι, t.Carrier T

variable (env : Env) (pb : Protobuf T)

/-! ## Serialization -/

/-- `serialize(const std::string&, bytes)`. -/
def serializeString (s : List UInt8) (w : WriteableByteArray) :
    Except Fault (Bool × WriteableByteArray) :=
  match compressUint64To env w (UInt64.ofNat s.length) with
  | .error f => .error f
  | .ok (false, w') => .ok (false, w')
  | .ok (true, w') => w'.write env s

/-- `SerializeToByteArray(obj, bytes)`. -/
def serializeToByteArray {i : ι} (m : T i) (w : WriteableByteArray) :
    Except Fault (Bool × WriteableByteArray) :=
  match compressUint64To env w (UInt64.ofNat (pb.byteSize m)) with
  | .error f => .error f
  | .ok (false, w') => .ok (false, w')
  | .ok (true, w') =>
    match w'.allocate env (pb.byteSize m) with
    | .error f => .error f
    | .ok (none, w'') => .ok (false, w'')
    | .ok (some buf, w'') =>
      match pb.serializeToArray m (pb.byteSize m) with
      | none => .ok (false, w'')
      | some bs => .ok (true, w''.fill buf bs)

/-- `serialize` at each type. -/
def serialize : (t : Ty ι) → t.Carrier T → WriteableByteArray →
    Except Fault (Bool × WriteableByteArray)
  | .uint64, v, w => compressUint64To env w v
  | .int64, v, w => compressInt64To env w v
  | .uint32, v, w => compressUint64To env w (UInt32.toUInt64 v)
  | .int32, v, w => compressInt64To env w (Int32.toInt64 v)
  | .string, s, w => serializeString env s w
  | .proto _, m, w => serializeToByteArray env pb m w

/-- Serialize in order, up to the first call that returns false. -/
def serializeAll : List (Value T) → WriteableByteArray → Except Fault (Bool × WriteableByteArray)
  | [], w => .ok (true, w)
  | v :: vs, w =>
    match serialize env pb v.1 v.2 w with
    | .error f => .error f
    | .ok (false, w') => .ok (false, w')
    | .ok (true, w') => serializeAll vs w'

/-! ## Deserialization -/

/-- `std::string::resize`. -/
def resize (u : List UInt8) (n : ℕ) : List UInt8 := u.take n ++ List.replicate (n - u.length) 0

/-- `deserialize(std::string*, bytes)`: what it returns, the string and the array after it. -/
def deserializeString (u : List UInt8) (r : ReadableByteArray) :
    Except Fault (Bool × List UInt8 × ReadableByteArray) :=
  match decompressUint64From r 0 with
  | .error f => .error f
  | .ok (false, _, r') => .ok (false, u, r')
  | .ok (true, size, r') =>
    if env.stringFits size.toNat then
      match r'.read size.toNat with
      | none => .ok (false, resize u size.toNat, r')
      | some (s, r'') => .ok (true, s, r'')
    else .error .exception

/-- `DeserizlizeFromByteArray(obj, bytes)`. The size is not checked against what is left, and the
result of the last `read` is ignored. -/
def deserializeFromByteArray {i : ι} (m : T i) (r : ReadableByteArray) :
    Except Fault (Bool × T i × ReadableByteArray) :=
  match decompressUint64From r 0 with
  | .error f => .error f
  | .ok (false, _, r') => .ok (false, m, r')
  | .ok (true, size, r') =>
    match pb.parseFromCodedStream i r'.remain.1 ((size.toNat : ℤ).bmod (2 ^ 32)) with
    | (false, m') => .ok (false, m', r')
    | (true, m') =>
      match r'.read size.toNat with
      | none => .ok (true, m', r')
      | some (_, r'') => .ok (true, m', r'')

/-- `deserialize(uint32_t*, bytes)`. -/
def deserializeUint32 (u : UInt32) (r : ReadableByteArray) :
    Except Fault (Bool × UInt32 × ReadableByteArray) :=
  match decompressUint64From r 0 with
  | .error f => .error f
  | .ok (false, _, r') => .ok (false, u, r')
  | .ok (true, x, r') => .ok (true, x.toUInt32, r')

/-- `deserialize(int32_t*, bytes)`. -/
def deserializeInt32 (u : Int32) (r : ReadableByteArray) :
    Except Fault (Bool × Int32 × ReadableByteArray) :=
  match decompressInt64From r 0 with
  | .error f => .error f
  | .ok (false, _, r') => .ok (false, u, r')
  | .ok (true, x, r') => .ok (true, x.toInt32, r')

/-- `deserialize` at each type: what it returns, the variable and the array after it. -/
def deserialize : (t : Ty ι) → t.Carrier T → ReadableByteArray →
    Except Fault (Bool × t.Carrier T × ReadableByteArray)
  | .uint64, v, r => decompressUint64From r v
  | .int64, v, r => decompressInt64From r v
  | .uint32, v, r => deserializeUint32 v r
  | .int32, v, r => deserializeInt32 v r
  | .string, v, r => deserializeString env v r
  | .proto _, v, r => deserializeFromByteArray pb v r

/-- Deserialize into the variables in order, up to the first call that returns false. -/
def deserializeAll : List (Value T) → ReadableByteArray →
    Except Fault (Bool × List (Value T) × ReadableByteArray)
  | [], r => .ok (true, [], r)
  | v :: vs, r =>
    match deserialize env pb v.1 v.2 r with
    | .error f => .error f
    | .ok (false, x, r') => .ok (false, ⟨v.1, x⟩ :: vs, r')
    | .ok (true, x, r') =>
      match deserializeAll vs r' with
      | .error f => .error f
      | .ok (b, xs, r'') => .ok (b, ⟨v.1, x⟩ :: xs, r'')

/-! ## The bytes of a value -/

/-- The number of bytes of a value on the wire. -/
def wireSize : (t : Ty ι) → t.Carrier T → ℕ
  | .uint64, v => compressUint64Size v
  | .int64, v => compressUint64Size (zigzagEncode v)
  | .uint32, v => compressUint64Size (UInt32.toUInt64 v)
  | .int32, v => compressUint64Size (zigzagEncode (Int32.toInt64 v))
  | .string, s => compressUint64Size (UInt64.ofNat (List.length s)) + List.length s
  | .proto _, m => compressUint64Size (UInt64.ofNat (pb.byteSize m)) + pb.byteSize m

/-- A length followed by that many bytes. -/
def framed (n : ℕ) (bs : List UInt8) : List UInt8 := varint (UInt64.ofNat n) ++ bs

/-- The bytes of a value on the wire. -/
def wire : (t : Ty ι) → t.Carrier T → List UInt8
  | .uint64, v => varint v
  | .int64, v => varint (zigzagEncode v)
  | .uint32, v => varint (UInt32.toUInt64 v)
  | .int32, v => varint (zigzagEncode (Int32.toInt64 v))
  | .string, s => framed (List.length s) s
  | .proto _, m => framed (pb.byteSize m) ((pb.serializeToArray m (pb.byteSize m)).getD [])

variable {env pb}

theorem length_framed (n : ℕ) (bs : List UInt8) :
    (framed n bs).length = compressUint64Size (UInt64.ofNat n) + bs.length := by
  rw [framed, List.length_append, length_varint]

theorem wire_proto {i : ι} {m : T i} {bs : List UInt8}
    (h : pb.serializeToArray m (pb.byteSize m) = some bs) :
    wire pb (.proto i) m = framed (pb.byteSize m) bs := by
  change framed _ (Option.getD _ _) = _
  rw [h, Option.getD_some]

theorem length_wire (hpb : pb.Exact) (t : Ty ι) (v : t.Carrier T) :
    (wire pb t v).length = wireSize pb t v := by
  cases t with
  | uint64 => exact length_varint _
  | int64 => exact length_varint _
  | uint32 => exact length_varint _
  | int32 => exact length_varint _
  | string => exact length_framed _ _
  | proto i =>
    obtain ⟨bs, hbs, hlen, -⟩ := hpb.parse_serialize v
    rw [wire_proto hbs, wireSize, length_framed, hlen]

/-! ## What each `serialize` writes -/

section

variable (hm : ∀ n, (env.malloc n).isSome) {w : WriteableByteArray} (hw : w.Usable)

include hm hw

theorem compressSize_spec {n k : ℕ} (hfit : w.cur + (compressUint64Size (.ofNat n) + k) < 2 ^ 63) :
    ∃ w', compressUint64To env w (.ofNat n) = .ok (true, w') ∧
      w'.contents = w.contents ++ varint (.ofNat n) ∧ w'.block ≠ .null ∧ w'.cur + k < 2 ^ 63 := by
  rw [← length_varint] at hfit
  obtain ⟨w', h, hc, hb⟩ := compressUint64To_spec hm hw (v := .ofNat n) (by omega)
  have hcur := w'.length_contents
  rw [hc, List.length_append, w.length_contents] at hcur
  exact ⟨w', h, hc, hb, by omega⟩

theorem serializeString_spec {s : List UInt8}
    (hfit : w.cur + (framed s.length s).length < 2 ^ 63) :
    ∃ w', serializeString env s w = .ok (true, w') ∧
      w'.contents = w.contents ++ framed s.length s ∧ w'.block ≠ .null := by
  rw [length_framed] at hfit
  obtain ⟨w₁, h₁, hc₁, hb₁, hfit₁⟩ := compressSize_spec hm hw hfit
  obtain ⟨w₂, h₂, hc₂, hb₂⟩ := WriteableByteArray.write_spec hm (absurd · hb₁) (.inl hb₁) hfit₁
  refine ⟨w₂, ?_, ?_, hb₂⟩
  · simp only [serializeString, h₁, h₂]
  · rw [hc₂, hc₁, List.append_assoc, framed]

theorem serializeToByteArray_spec (hpb : pb.Exact) {i : ι} {m : T i}
    (hfit : w.cur + (wire pb (.proto i) m).length < 2 ^ 63) :
    ∃ w', serializeToByteArray env pb m w = .ok (true, w') ∧
      w'.contents = w.contents ++ wire pb (.proto i) m ∧ w'.block ≠ .null := by
  obtain ⟨bs, hbs, hlen, -⟩ := hpb.parse_serialize m
  rw [wire_proto hbs] at hfit ⊢
  rw [length_framed, hlen] at hfit
  obtain ⟨w₁, h₁, hc₁, hb₁, hfit₁⟩ := compressSize_spec hm hw hfit
  obtain ⟨w₂, h₂, hc₂, hb₂, hs₂⟩ := WriteableByteArray.allocate_spec hm (absurd · hb₁) (.inl hb₁)
    hfit₁
  refine ⟨w₂.fill w₁.cur bs, ?_, ?_, hb₂⟩
  · simp only [serializeToByteArray, h₁, h₂, hbs]
  · have hcur : (w₂.fill w₁.cur bs).cur = w₁.cur + bs.length := by rw [hlen]; exact hc₂
    rw [WriteableByteArray.contents, hcur, WriteableByteArray.slice_fill, hs₂, hc₁,
      List.append_assoc, framed]

theorem serialize_spec (hpb : pb.Exact) (t : Ty ι) (v : t.Carrier T)
    (hfit : w.cur + wireSize pb t v < 2 ^ 63) :
    ∃ w', serialize env pb t v w = .ok (true, w') ∧ w'.contents = w.contents ++ wire pb t v ∧
      w'.block ≠ .null := by
  rw [← length_wire hpb] at hfit
  cases t with
  | uint64 => exact compressUint64To_spec hm hw hfit
  | int64 => exact compressUint64To_spec hm hw hfit
  | uint32 => exact compressUint64To_spec hm hw hfit
  | int32 => exact compressUint64To_spec hm hw hfit
  | string => exact serializeString_spec hm hw hfit
  | proto i => exact serializeToByteArray_spec hm hw hpb hfit

theorem serializeAll_spec (hpb : pb.Exact) (vs : List (Value T))
    (hfit : w.cur + (vs.map fun v => wireSize pb v.1 v.2).sum < 2 ^ 63) :
    ∃ w', serializeAll env pb vs w = .ok (true, w') ∧
      w'.contents = w.contents ++ vs.flatMap fun v => wire pb v.1 v.2 := by
  induction vs generalizing w with
  | nil => exact ⟨w, rfl, by rw [List.flatMap_nil, List.append_nil]⟩
  | cons v vs ih =>
    rw [List.map_cons, List.sum_cons] at hfit
    obtain ⟨w₁, h₁, hc₁, hb₁⟩ := serialize_spec hm hw hpb v.1 v.2 (by omega)
    have hcur := w₁.length_contents
    rw [hc₁, List.length_append, w.length_contents, length_wire hpb] at hcur
    obtain ⟨w₂, h₂, hc₂⟩ := ih (w := w₁) (absurd · hb₁) (by omega)
    refine ⟨w₂, ?_, ?_⟩
    · simp only [serializeAll, h₁, h₂]
    · rw [hc₂, hc₁, List.append_assoc, List.flatMap_cons]

end

/-! ## What each `deserialize` takes -/

theorem toNat_ofNat_size {n : ℕ} (h : n < 2 ^ 63) : (UInt64.ofNat n).toNat = n := by
  rw [UInt64.toNat_ofNat']
  omega

section

variable {r : ReadableByteArray} {ys : List UInt8}

theorem deserializeUint32_spec {v : UInt32} (h : r.rest = varint v.toUInt64 ++ ys) (u : UInt32) :
    ∃ r', deserializeUint32 u r = .ok (true, v, r') ∧ r'.rest = ys ∧ r'.size = r.size := by
  obtain ⟨r', h₁, h₂, h₃⟩ := decompressUint64From_spec h 0
  exact ⟨r', by rw [deserializeUint32, h₁]; simp only [UInt32.toUInt32_toUInt64], h₂, h₃⟩

theorem deserializeInt32_spec {v : Int32} (h : r.rest = varint (zigzagEncode v.toInt64) ++ ys)
    (u : Int32) :
    ∃ r', deserializeInt32 u r = .ok (true, v, r') ∧ r'.rest = ys ∧ r'.size = r.size := by
  obtain ⟨r', h₁, h₂, h₃⟩ := decompressInt64From_spec h 0
  exact ⟨r', by rw [deserializeInt32, h₁]; simp only [Int32.toInt32_toInt64], h₂, h₃⟩

theorem deserializeString_spec {s : List UInt8} (hfits : env.stringFits s.length = true)
    (h : r.rest = framed s.length s ++ ys) (u : List UInt8) :
    ∃ r', deserializeString env u r = .ok (true, s, r') ∧ r'.rest = ys ∧ r'.size = r.size := by
  rw [framed, List.append_assoc] at h
  obtain ⟨r₁, h₁, hr₁, hs₁⟩ := decompressUint64From_spec h 0
  obtain ⟨r₂, h₂, hr₂, hs₂⟩ := ReadableByteArray.read_spec hr₁
  refine ⟨r₂, ?_, hr₂, by rw [hs₂, hs₁]⟩
  simp only [deserializeString, h₁, toNat_ofNat_size (env.lt_of_fits _ hfits), hfits, if_true, h₂]

theorem deserializeFromByteArray_spec (hpb : pb.Exact) {i : ι} {m : T i}
    (h : r.rest = wire pb (.proto i) m ++ ys) (u : T i) :
    ∃ r', deserializeFromByteArray pb u r = .ok (true, m, r') ∧ r'.rest = ys ∧
      r'.size = r.size := by
  obtain ⟨bs, hbs, hlen, hparse⟩ := hpb.parse_serialize m
  have hlt := hpb.byteSize_lt m
  rw [wire_proto hbs, framed, List.append_assoc] at h
  obtain ⟨r₁, h₁, hr₁, hs₁⟩ := decompressUint64From_spec h 0
  obtain ⟨r₂, h₂, hr₂, hs₂⟩ := ReadableByteArray.read_spec hr₁
  have hint : ((pb.byteSize m : ℕ) : ℤ).bmod (2 ^ 32) = bs.length := by
    rw [hlen, Int.bmod_def]
    omega
  -- the parser gets exactly the bytes that were produced
  have hp : pb.parseFromCodedStream i r₁.remain.1 (bs.length : ℤ) = (true, m) := by
    refine hparse _ ?_
    change slice (fun j => r₁.bytes (r₁.cur + j)) 0 bs.length = bs
    rw [slice_shift]
    exact (slice_eq_of_append hr₁).1
  rw [hlen] at h₂
  refine ⟨r₂, ?_, hr₂, by rw [hs₂, hs₁]⟩
  simp only [deserializeFromByteArray, h₁, toNat_ofNat_size (show pb.byteSize m < 2 ^ 63 by omega),
    hint, hp, h₂]

theorem deserialize_spec (hpb : pb.Exact) (t : Ty ι) (v u : t.Carrier T)
    (hstr : ∀ s, (⟨t, v⟩ : Value T) = ⟨.string, s⟩ → env.stringFits (List.length s) = true)
    (h : r.rest = wire pb t v ++ ys) :
    ∃ r', deserialize env pb t u r = .ok (true, v, r') ∧ r'.rest = ys ∧ r'.size = r.size := by
  cases t with
  | uint64 => exact decompressUint64From_spec h u
  | int64 => exact decompressInt64From_spec h u
  | uint32 => exact deserializeUint32_spec h u
  | int32 => exact deserializeInt32_spec h u
  | string => exact deserializeString_spec (hstr v rfl) h u
  | proto i => exact deserializeFromByteArray_spec hpb h u

theorem deserializeAll_spec (hpb : pb.Exact) (vs us : List (Value T))
    (htypes : us.map Sigma.fst = vs.map Sigma.fst)
    (hstr : ∀ s, (⟨.string, s⟩ : Value T) ∈ vs → env.stringFits (List.length s) = true)
    (h : r.rest = (vs.flatMap fun v => wire pb v.1 v.2) ++ ys) :
    ∃ r', deserializeAll env pb us r = .ok (true, vs, r') ∧ r'.rest = ys ∧ r'.size = r.size := by
  induction vs generalizing r us with
  | nil =>
    rw [List.map_nil, List.map_eq_nil_iff] at htypes
    subst htypes
    exact ⟨r, rfl, h, rfl⟩
  | cons v vs ih =>
    cases us with
    | nil => cases htypes
    | cons u us =>
      obtain ⟨t, v⟩ := v
      obtain ⟨t', u⟩ := u
      rw [List.map_cons, List.map_cons, List.cons.injEq] at htypes
      obtain ⟨ht, htypes⟩ := htypes
      cases ht
      rw [List.flatMap_cons, List.append_assoc] at h
      obtain ⟨r₁, h₁, hr₁, hs₁⟩ := deserialize_spec hpb t v u
        (fun s hs => hstr s (hs ▸ List.mem_cons_self)) h
      obtain ⟨r₂, h₂, hr₂, hs₂⟩ := ih us htypes (fun s hs => hstr s (List.mem_cons_of_mem _ hs)) hr₁
      refine ⟨r₂, ?_, hr₂, by rw [hs₂, hs₁]⟩
      simp only [deserializeAll, h₁, h₂]

end

/-! ## The round trip -/

/-- **The wire format round-trips**: a sequence of values, serialized into one fresh array with all
allocations succeeding and fewer than `2 ^ 63` bytes in all, is deserialized from its `data()` value
by value into variables of the same types, with the cursor at the end. -/
theorem deserializeAll_serializeAll (hpb : pb.Exact) (hm : ∀ n, (env.malloc n).isSome)
    (userFree : Bool) (small : ℕ → UInt8) (vs us : List (Value T))
    (htypes : us.map Sigma.fst = vs.map Sigma.fst)
    (hstr : ∀ s, (⟨.string, s⟩ : Value T) ∈ vs → env.stringFits (List.length s) = true)
    (hsize : (vs.map fun v => wireSize pb v.1 v.2).sum < 2 ^ 63) :
    ∃ w, ∃ hw : w.cur < 2 ^ 63,
      serializeAll env pb vs (.new userFree small) = .ok (true, w) ∧
        ∃ r, deserializeAll env pb us (.new w.mem w.cur hw) = .ok (true, vs, r) ∧
          r.cur = r.size := by
  obtain ⟨w, h₁, hc⟩ := serializeAll_spec hm (WriteableByteArray.usable_new userFree small) hpb vs
    (by rw [show (WriteableByteArray.new userFree small).cur = 0 from rfl]; omega)
  rw [WriteableByteArray.contents_new, List.nil_append] at hc
  have hcur : w.cur < 2 ^ 63 := by
    rw [← w.length_contents, hc, List.length_flatMap]
    simpa only [length_wire hpb] using hsize
  obtain ⟨r, h₂, hr, hs⟩ := @deserializeAll_spec _ _ env pb (.new w.mem w.cur hcur) [] hpb vs us
    htypes hstr (by rw [List.append_nil, ← hc]; rfl)
  have hle := r.cur_le
  have hrest := r.length_rest
  rw [hr] at hrest
  exact ⟨w, hcur, h₁, r, h₂, by simp only [List.length_nil] at hrest; omega⟩

/-- The message class of `required bool flag = 1`: the tag `0x08` and the flag. -/
def flagPb : Protobuf fun _ : Unit => Bool where
  byteSize _ := 2
  serializeToArray m _ := some [0x08, if m then 1 else 0]
  parseFromCodedStream _ p n := if n = 2 ∧ p 0 = 0x08 then (true, p 1 != 0) else (false, false)

theorem flagPb_exact : flagPb.Exact where
  byteSize_lt _ := by norm_num [flagPb]
  parse_serialize m := by
    refine ⟨_, rfl, rfl, fun p hp => ?_⟩
    obtain ⟨h₀, h₁⟩ : p 0 = 0x08 ∧ p 1 = if m then 1 else 0 := by
      simpa [slice, List.range_succ] using hp
    change (if (2 : ℤ) = 2 ∧ p 0 = 0x08 then (true, p 1 != 0) else (false, false)) = (true, m)
    rw [if_pos ⟨rfl, h₀⟩, h₁]
    cases m <;> rfl

/-- A machine with memory for every block and every string below `2 ^ 32` bytes. -/
def roomy : Env where
  malloc _ := some fun _ => 0
  stringFits n := decide (n < 2 ^ 32)
  lt_of_fits n h := by have := of_decide_eq_true h; omega

/-- An integer of two bytes, a negative one, the empty string, a string and a message. -/
def mixed : List (Value fun _ : Unit => Bool) :=
  [⟨.uint64, (300 : UInt64)⟩, ⟨.int32, (-1 : Int32)⟩, ⟨.string, ([] : List UInt8)⟩,
    ⟨.string, ([104, 105] : List UInt8)⟩, ⟨.proto (), true⟩]

/-- Variables of these types. -/
def mixedVars : List (Value fun _ : Unit => Bool) :=
  [⟨.uint64, (0 : UInt64)⟩, ⟨.int32, (0 : Int32)⟩, ⟨.string, ([1] : List UInt8)⟩,
    ⟨.string, ([] : List UInt8)⟩, ⟨.proto (), false⟩]

theorem deserializeAll_serializeAll_mixed :
    (mixed.map fun v => wireSize flagPb v.1 v.2).sum = 10 ∧ ∃ w, ∃ hw : w.cur < 2 ^ 63,
      serializeAll roomy flagPb mixed (.new false fun _ => 0) = .ok (true, w) ∧
        ∃ r, deserializeAll roomy flagPb mixedVars (.new w.mem w.cur hw) = .ok (true, mixed, r) ∧
          r.cur = r.size := by
  have hsize : (mixed.map fun v => wireSize flagPb v.1 v.2).sum = 10 := by decide
  refine ⟨hsize, deserializeAll_serializeAll flagPb_exact (fun _ => rfl) false (fun _ => 0) mixed
    mixedVars rfl (fun s hs => ?_) (by rw [hsize]; norm_num)⟩
  simp only [mixed, List.mem_cons, List.not_mem_nil, or_false] at hs
  rcases hs with h | h | h | h | h <;> cases h <;> decide

end Sperm
