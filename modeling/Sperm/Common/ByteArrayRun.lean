import Sperm.Common.ByteArray
import Sperm.Lib.Run

/-!
# Runs of calls on byte arrays (`common/byte_array.cc`)

* `ReadCall`, `ReadableByteArray.call`: a call of `read` with or without a destination.
  **`guarded_behaves_iff`**: a run of reads behaves exactly when no sum `cur_ + size` wraps around.
* `WriteCall`, `ByteLog`: calls of `write` and `allocate`, each with what `malloc` gives, and the
  array beside its capacity and the chunks of the calls that succeeded. `call_cases`: a call that
  fails changes nothing. **`guarded_survives_iff`**: a run of writes survives the allocations that
  fail exactly when none of them is the first one of an array that starts with `bytes_ == NULL`.
-/

namespace Sperm

open StepRun

/-! ## Reads -/

/-- The arguments of `read(bytes, size)`; `dest` is false for a call without a destination. -/
structure ReadCall where
  size : UInt64
  dest : Bool

namespace ReadableByteArray

/-- A call of `read`: what it returns, the bytes it copies out and the array after it. -/
def call (r : ReadableByteArray) (c : ReadCall) : Bool × List UInt8 × ReadableByteArray :=
  match r.read c.size.toNat with
  | none => (false, [], r)
  | some (bs, r') => (true, if c.dest then bs else [], r')

def callStep (r : ReadableByteArray) (c : ReadCall) : Option ReadableByteArray :=
  some (r.call c).2.2

/-- What a call should do: the cursor stays in the buffer and does not go back, the call succeeds
exactly when `size` bytes are left, then it delivers them, and otherwise it leaves the cursor. -/
structure Behaves (r : ReadableByteArray) (c : ReadCall) : Prop where
  cur_le : (r.call c).2.2.cur ≤ (r.call c).2.2.size
  le_cur : r.cur ≤ (r.call c).2.2.cur
  ok_iff : (r.call c).1 = true ↔ c.size.toNat ≤ r.size - r.cur
  delivers : (r.call c).1 = true →
    (r.call c).2.1 = (if c.dest then r.rest.take c.size.toNat else []) ∧
      (r.call c).2.2.rest = r.rest.drop c.size.toNat
  unchanged : (r.call c).1 = false → (r.call c).2.2.cur = r.cur
  same_buffer : (r.call c).2.2.bytes = r.bytes ∧ (r.call c).2.2.size = r.size

/-- The sum `cur_ + size` of the bound check is below `2 ^ 64`. -/
def NoWrap (r : ReadableByteArray) (c : ReadCall) : Prop := r.cur + c.size.toNat < 2 ^ 64

instance (r : ReadableByteArray) (c : ReadCall) : Decidable (r.NoWrap c) := Nat.decLt _ _

theorem rest_eq_append {r : ReadableByteArray} {n : ℕ} (h : n ≤ r.size - r.cur) :
    r.rest = slice r.bytes r.cur n ++ slice r.bytes (r.cur + n) (r.size - (r.cur + n)) := by
  rw [rest, ← slice_add]
  congr 1
  omega

theorem call_of_le {r : ReadableByteArray} {c : ReadCall} (h : c.size.toNat ≤ r.size - r.cur) :
    ∃ r', r.call c = (true, if c.dest then slice r.bytes r.cur c.size.toNat else [], r') ∧
      r'.cur = r.cur + c.size.toNat ∧ r'.size = r.size ∧ r'.bytes = r.bytes := by
  obtain ⟨r', h₁, h₂⟩ := read_of_le h
  exact ⟨r', by rw [call, h₁], h₂⟩

theorem call_of_lt {r : ReadableByteArray} {c : ReadCall} (h : r.size - r.cur < c.size.toNat)
    (hw : r.NoWrap c) : r.call c = (false, [], r) := by
  have hle := r.cur_le
  have hmod : (r.cur + c.size.toNat) % 2 ^ 64 = r.cur + c.size.toNat := Nat.mod_eq_of_lt hw
  have hread : r.read c.size.toNat = none := dif_pos (by omega)
  rw [call, hread]

theorem call_of_wrap {r : ReadableByteArray} {c : ReadCall} (hw : ¬ r.NoWrap c) :
    (r.call c).1 = true := by
  have hlt := r.size_lt
  have hle := r.cur_le
  have hc := c.size.toNat_lt
  have hsum : r.cur + c.size.toNat ≥ 2 ^ 64 := not_lt.mp hw
  have hread : ¬ (r.cur + c.size.toNat) % 2 ^ 64 > r.size := by omega
  rw [call, read, dif_neg hread]

theorem behaves_of_le {r : ReadableByteArray} {c : ReadCall} (h : c.size.toNat ≤ r.size - r.cur) :
    r.Behaves c := by
  obtain ⟨r', h₁, h₂, h₃, h₄⟩ := call_of_le h
  have happ := rest_eq_append h
  constructor
  · rw [h₁]; exact r'.cur_le
  · rw [h₁]; simp only [h₂]; omega
  · rw [h₁]; exact ⟨fun _ => h, fun _ => rfl⟩
  · rw [h₁]
    intro _
    refine ⟨?_, ?_⟩
    · rw [happ, List.take_left' (length_slice _ _ _)]
    · rw [happ, List.drop_left' (length_slice _ _ _), rest, h₂, h₃, h₄]
  · rw [h₁]
    intro h
    cases h
  · rw [h₁]; exact ⟨h₄, h₃⟩

/-- **One read** behaves exactly when the sum of its bound check does not wrap around. -/
theorem behaves_iff (r : ReadableByteArray) (c : ReadCall) : r.Behaves c ↔ r.NoWrap c := by
  constructor
  · intro h
    by_contra hw
    have := h.ok_iff.mp (call_of_wrap hw)
    have hlt := r.size_lt
    have hle := r.cur_le
    exact hw (by unfold NoWrap; omega)
  · intro hw
    by_cases h : c.size.toNat ≤ r.size - r.cur
    · exact behaves_of_le h
    · have hcall := call_of_lt (not_le.mp h) hw
      constructor
      · rw [hcall]; exact r.cur_le
      · rw [hcall]
      · rw [hcall]; exact ⟨nofun, fun h' => absurd h' h⟩
      · rw [hcall]; exact nofun
      · rw [hcall]; exact fun _ => rfl
      · rw [hcall]; exact ⟨rfl, rfl⟩

/-- **Runs of reads.** Every call of a run of reads behaves exactly when none of them makes
`cur_ + size` wrap around. -/
theorem guarded_behaves_iff (r : ReadableByteArray) (calls : List ReadCall) :
    Guarded callStep Behaves r calls ↔ Guarded callStep NoWrap r calls :=
  guarded_congr behaves_iff r calls

/-- A buffer of one byte: after that byte is read, a read of `2 ^ 64 - 1` bytes succeeds and takes
the cursor back to the start. -/
theorem read_wraps_back :
    ¬ Guarded callStep Behaves (new (fun _ => 7) 1 (by decide)) [⟨1, true⟩, ⟨-1, false⟩] ∧
      (run callStep (new (fun _ => 7) 1 (by decide)) [⟨1, true⟩, ⟨-1, false⟩]).map cur =
        some 0 := by
  constructor
  · intro h
    have hback := (behaves_iff _ _).mp h.2.1
    revert hback
    decide
  · rfl

end ReadableByteArray

/-! ## Writes -/

/-- A call of `write(bytes, size)`, or of `allocate(size)` whose caller then fills the place it got.
`chunk` are the bytes and `malloc` is what `malloc` or `realloc` gives should the call need it. -/
structure WriteCall where
  isWrite : Bool
  chunk : List UInt8
  malloc : Option (ℕ → UInt8)

namespace WriteCall

def env (c : WriteCall) : Env := ⟨fun _ => c.malloc, fun _ => false, nofun⟩

end WriteCall

namespace WriteableByteArray

/-- A call: whether it succeeds, and the array after it. -/
def call (w : WriteableByteArray) (c : WriteCall) : Except Fault (Bool × WriteableByteArray) :=
  if c.isWrite then w.write c.env c.chunk
  else match w.allocate c.env c.chunk.length with
    | .error f => .error f
    | .ok (none, w') => .ok (false, w')
    | .ok (some a, w') => .ok (true, w'.fill a c.chunk)

/-- The size that `allocate(n)` passes to `malloc` or `realloc`; `none` when it calls neither. -/
def request (w : WriteableByteArray) (n : ℕ) : Option ℕ :=
  if (w.cur + n) % 2 ^ 64 > w.size then
    growLoop ((w.cur + n) % 2 ^ 64) 65 (w.oldSize * 2 % 2 ^ 64)
  else none

/-- What is seen of a sequence of calls: whether each of them succeeds, and the data after it. -/
def outcomes : WriteableByteArray → List WriteCall → List (Except Fault (Bool × List UInt8))
  | _, [] => []
  | w, c :: l =>
    match w.call c with
    | .error f => [.error f]
    | .ok (ok, w') => .ok (ok, w'.contents) :: outcomes w' l

theorem call_eq_write (w : WriteableByteArray) (c : WriteCall) :
    w.call c = w.write c.env c.chunk := by
  unfold call write
  split_ifs <;> rfl

theorem call_of_failed {w w' : WriteableByteArray} {c : WriteCall}
    (h : w.allocate c.env c.chunk.length = .ok (none, w')) : w.call c = .ok (false, w') := by
  rw [call_eq_write, write, h]

theorem call_of_allocated {w w' : WriteableByteArray} {c : WriteCall}
    (h : w.allocate c.env c.chunk.length = .ok (some w.cur, w'))
    (hcur : w'.cur = w.cur + c.chunk.length) (hkeep : slice w'.mem 0 w.cur = w.contents) :
    ∃ w₁, w.call c = .ok (true, w₁) ∧ w₁.contents = w.contents ++ c.chunk ∧
      w₁.block = w'.block ∧ w₁.size = w'.size := by
  refine ⟨w'.fill w.cur c.chunk, by rw [call_eq_write, write, h], ?_, rfl, rfl⟩
  rw [contents, show (w'.fill w.cur c.chunk).cur = _ from hcur, slice_fill, hkeep]

theorem request_of_le {w : WriteableByteArray} {n : ℕ} (h : w.cur + n ≤ w.size)
    (hfit : w.cur + n < 2 ^ 63) : w.request n = none := by
  have hmod : (w.cur + n) % 2 ^ 64 = w.cur + n := Nat.mod_eq_of_lt (by omega)
  exact if_neg (by omega)

theorem request_of_lt {w : WriteableByteArray} {n next : ℕ} (h : w.size < w.cur + n)
    (hfit : w.cur + n < 2 ^ 63) (hnext : growLoop (w.cur + n) 65 (w.oldSize * 2) = some next) :
    w.request n = some next := by
  have hlt : w.oldSize < 2 ^ 63 := by unfold oldSize kSmallBufferSize; split_ifs <;> omega
  have hmod : (w.cur + n) % 2 ^ 64 = w.cur + n := Nat.mod_eq_of_lt (by omega)
  have hdbl : w.oldSize * 2 % 2 ^ 64 = w.oldSize * 2 := Nat.mod_eq_of_lt (by omega)
  rw [request, hmod, hdbl, if_pos h, hnext]

end WriteableByteArray

/-- An array with the capacity of the memory `bytes_` points to and the chunks of the calls that
succeeded, oldest first. -/
structure ByteLog where
  array : WriteableByteArray
  capacity : ℕ
  chunks : List (List UInt8)

namespace ByteLog

def new (userFree : Bool) (small : ℕ → UInt8) : ByteLog :=
  ⟨.new userFree small, if userFree then 0 else kSmallBufferSize, []⟩

/-- The capacity after a call: the requested size, if it was given. -/
def newCapacity (s : ByteLog) (c : WriteCall) : ℕ :=
  match s.array.request c.chunk.length, c.malloc with
  | some next, some _ => next
  | _, _ => s.capacity

def call (s : ByteLog) (c : WriteCall) : Except Fault (Bool × ByteLog) :=
  match s.array.call c with
  | .error f => .error f
  | .ok (ok, w) => .ok (ok, ⟨w, s.newCapacity c, if ok then s.chunks ++ [c.chunk] else s.chunks⟩)

def callStep (s : ByteLog) (c : WriteCall) : Option ByteLog := (s.call c).toOption.map Prod.snd

/-- The total size stays below `2 ^ 63`. -/
def Fits (s : ByteLog) (c : WriteCall) : Prop := s.array.cur + c.chunk.length < 2 ^ 63

instance (s : ByteLog) (c : WriteCall) : Decidable (s.Fits c) := Nat.decLt _ _

/-- What a call should do: it returns, the data are the chunks of the calls that succeeded, they fit
the memory, and a failed call is one that was never made. -/
def Survives (s : ByteLog) (c : WriteCall) : Prop :=
  ∃ ok s', s.call c = .ok (ok, s') ∧ s'.array.contents = s'.chunks.flatten ∧
    s'.array.cur = (s'.chunks.map List.length).sum ∧ s'.array.cur ≤ s'.capacity ∧
    (ok = false → ∀ later, s'.array.outcomes later = s.array.outcomes later)

/-- Not a first allocation that fails: with `bytes_ == NULL`, memory that is asked for is given. -/
def FirstSucceeds (s : ByteLog) (c : WriteCall) : Prop :=
  s.array.block = .null → c.chunk ≠ [] → c.malloc ≠ none

instance (s : ByteLog) (c : WriteCall) : Decidable (s.FirstSucceeds c) :=
  inferInstanceAs (Decidable (_ → _ → _))

/-- The array has memory exactly when `size_` says so, `size_` is its capacity, and its contents
are the chunks. -/
structure Sound (s : ByteLog) : Prop where
  null_iff : s.array.block = .null ↔ s.array.size = 0
  capacity_eq : s.capacity = s.array.size
  contents_eq : s.array.contents = s.chunks.flatten

theorem sound_new (userFree : Bool) (small : ℕ → UInt8) : (new userFree small).Sound := by
  cases userFree with
  | false => exact ⟨⟨nofun, nofun⟩, rfl, rfl⟩
  | true => exact ⟨⟨fun _ => rfl, fun _ => rfl⟩, rfl, rfl⟩

theorem Sound.cur_eq {s : ByteLog} (hs : s.Sound) :
    s.array.cur = (s.chunks.map List.length).sum := by
  rw [← s.array.length_contents, hs.contents_eq, List.length_flatten]

theorem Sound.cur_le {s : ByteLog} (hs : s.Sound) : s.array.cur ≤ s.capacity := by
  rw [hs.capacity_eq]
  exact s.array.cur_le

theorem Sound.usable {s : ByteLog} (hs : s.Sound) : s.array.Usable := hs.null_iff.mp

theorem call_of_failed {s : ByteLog} {c : WriteCall}
    (h : s.array.allocate c.env c.chunk.length = .ok (none, s.array))
    (hcap : s.newCapacity c = s.capacity) : s.call c = .ok (false, s) := by
  rw [call, WriteableByteArray.call_of_failed h, hcap]
  rfl

theorem call_of_allocated {s : ByteLog} {c : WriteCall} {w' : WriteableByteArray} (hs : s.Sound)
    (h : s.array.allocate c.env c.chunk.length = .ok (some s.array.cur, w'))
    (hcur : w'.cur = s.array.cur + c.chunk.length)
    (hkeep : slice w'.mem 0 s.array.cur = s.array.contents)
    (hnull : w'.block = .null ↔ w'.size = 0) (hcap : s.newCapacity c = w'.size) :
    ∃ s', s.call c = .ok (true, s') ∧ s'.Sound := by
  obtain ⟨w₁, hcall, hcont, hblock, hsize⟩ := WriteableByteArray.call_of_allocated h hcur hkeep
  refine ⟨_, by rw [call, hcall], ?_, ?_, ?_⟩
  · rw [hblock, hsize]; exact hnull
  · rw [hcap, hsize]
  · rw [if_pos rfl, List.flatten_append, List.flatten_singleton, ← hs.contents_eq, hcont]

/-- A growth that fails changes nothing: `size_` is not zero, so that the code did not adjust it. -/
theorem call_of_growth_failed {s : ByteLog} {c : WriteCall} (hs : s.Sound) (hfit : s.Fits c)
    (hfirst : s.FirstSucceeds c) (hg : s.array.size < s.array.cur + c.chunk.length)
    (hm : c.malloc = none) : s.call c = .ok (false, s) := by
  have hb : s.array.block ≠ .null := by
    intro hb
    refine hfirst hb (fun hc => ?_) hm
    have := hs.usable hb
    have := s.array.cur_le
    rw [hc, List.length_nil] at hg
    omega
  have hsz : s.array.oldSize = s.array.size := if_neg fun h => hb (hs.null_iff.mpr h)
  obtain ⟨next, _, hnext, hall⟩ := WriteableByteArray.allocate_of_lt c.env hg hfit
  rw [show c.env.malloc next = none from hm] at hall
  apply call_of_failed
  · rw [hall]
    simp only [hsz]
  · rw [newCapacity, WriteableByteArray.request_of_lt hg hfit hnext, hm]

theorem call_of_grown {s : ByteLog} {c : WriteCall} (hs : s.Sound) (hfit : s.Fits c)
    (hg : s.array.size < s.array.cur + c.chunk.length) {fresh : ℕ → UInt8}
    (hm : c.malloc = some fresh) : ∃ s', s.call c = .ok (true, s') ∧ s'.Sound := by
  obtain ⟨next, hle, hnext, hall⟩ := WriteableByteArray.allocate_of_lt c.env hg hfit
  rw [show c.env.malloc next = some fresh from hm] at hall
  refine call_of_allocated hs hall rfl (slice_congr fun k hk => ?_) ?_ ?_
  · rw [zero_add]
    exact s.array.grown_of_lt hs.usable fresh hk
  · constructor
    · intro h
      cases h
    · intro h
      exact absurd h (by simp only; omega)
  · rw [newCapacity, WriteableByteArray.request_of_lt hg hfit hnext, hm]

/-- Without a growth, a call succeeds, or nothing was ever written and nothing is asked for: then it
gets `NULL`. -/
theorem call_of_room {s : ByteLog} {c : WriteCall} (hs : s.Sound) (hfit : s.Fits c)
    (hle : s.array.cur + c.chunk.length ≤ s.array.size) :
    s.call c = .ok (false, s) ∨ ∃ s', s.call c = .ok (true, s') ∧ s'.Sound := by
  have hall := WriteableByteArray.allocate_of_le c.env hle hfit
  have hcap : s.newCapacity c = s.capacity := by
    rw [newCapacity, WriteableByteArray.request_of_le hle hfit]
  by_cases hb : s.array.block = .null
  · have hz := hs.usable hb
    have hcur := s.array.cur_le
    have hn : s.array.cur + c.chunk.length = s.array.cur := by omega
    rw [WriteableByteArray.addr, if_pos ⟨hb, by omega⟩] at hall
    refine .inl (call_of_failed ?_ hcap)
    rw [hall]
    simp only [hn]
  · rw [WriteableByteArray.addr, if_neg fun h => hb h.1] at hall
    exact .inr (call_of_allocated hs hall rfl rfl hs.null_iff (hcap.trans hs.capacity_eq))

/-- **One call.** Unless it is a first allocation that fails, a call either fails and changes
nothing, or succeeds. -/
theorem call_cases {s : ByteLog} {c : WriteCall} (hs : s.Sound) (hfit : s.Fits c)
    (hfirst : s.FirstSucceeds c) :
    s.call c = .ok (false, s) ∨ ∃ s', s.call c = .ok (true, s') ∧ s'.Sound := by
  by_cases hg : s.array.size < s.array.cur + c.chunk.length
  · cases hm : c.malloc with
    | none => exact .inl (call_of_growth_failed hs hfit hfirst hg hm)
    | some fresh => exact .inr (call_of_grown hs hfit hg hm)
  · exact call_of_room hs hfit (not_lt.mp hg)

theorem sound_step {s s' : ByteLog} {c : WriteCall} (hs : s.Sound) (hfit : s.Fits c)
    (hfirst : s.FirstSucceeds c) (h : s.callStep c = some s') : s'.Sound := by
  rcases call_cases hs hfit hfirst with hcall | ⟨s₁, hcall, hs₁⟩
  · rw [callStep, hcall] at h
    cases h
    exact hs
  · rw [callStep, hcall] at h
    cases h
    exact hs₁

/-- After a first allocation that has failed, a write of one byte fails; without that call it would
have succeeded. -/
theorem outcomes_of_first_failed {s : ByteLog} {c : WriteCall} (hs : s.Sound) (hfit : s.Fits c)
    (hb : s.array.block = .null) (hc : c.chunk ≠ []) (hm : c.malloc = none) :
    ∃ s', s.call c = .ok (false, s') ∧ s'.array.outcomes [⟨true, [0], some fun _ => 0⟩] ≠
      s.array.outcomes [⟨true, [0], some fun _ => 0⟩] := by
  have hz := hs.usable hb
  have hcur : s.array.cur = 0 := by have := s.array.cur_le; omega
  have hpos := List.length_pos_iff.mpr hc
  obtain ⟨next, hle, hnext, hall⟩ :=
    WriteableByteArray.allocate_of_lt c.env (w := s.array) (by omega) hfit
  rw [show c.env.malloc next = none from hm] at hall
  refine ⟨_, by rw [call, WriteableByteArray.call_of_failed hall], ?_⟩
  have hm₁ : ∀ n, ((WriteCall.env ⟨true, [0], some fun _ => 0⟩).malloc n).isSome := fun _ => rfl
  have hfit₁ : s.array.cur + [(0 : UInt8)].length < 2 ^ 63 := by rw [hcur]; decide
  have hne₁ : s.array.block ≠ .null ∨ [(0 : UInt8)] ≠ [] := .inr (List.cons_ne_nil _ _)
  obtain ⟨w₁, hw₁, -⟩ := WriteableByteArray.write_spec hm₁ hs.usable hne₁ hfit₁
  have hsz : s.array.oldSize = 128 := if_pos hz
  -- the array now claims 128 bytes at `NULL`
  have hbad := WriteableByteArray.allocate_of_le
    (WriteCall.env ⟨true, [0], some fun _ => 0⟩) (n := 1)
    (w := { s.array with size := s.array.oldSize, cur_le := by omega })
    (show s.array.cur + 1 ≤ s.array.oldSize by omega)
    (show s.array.cur + 1 < 2 ^ 63 by rw [hcur]; decide)
  rw [WriteableByteArray.addr, if_pos ⟨hb, hcur⟩] at hbad
  intro heq
  rw [WriteableByteArray.outcomes, WriteableByteArray.outcomes,
    WriteableByteArray.call_of_failed hbad, WriteableByteArray.call_eq_write, hw₁] at heq
  cases heq

/-- **One call** survives exactly when it is no first allocation that fails. -/
theorem survives_iff {s : ByteLog} {c : WriteCall} (hs : s.Sound) (hfit : s.Fits c) :
    s.FirstSucceeds c ↔ s.Survives c := by
  constructor
  · intro hfirst
    rcases call_cases hs hfit hfirst with hcall | ⟨s', hcall, hs'⟩
    · exact ⟨false, s, hcall, hs.contents_eq, hs.cur_eq, hs.cur_le, fun _ _ => rfl⟩
    · exact ⟨true, s', hcall, hs'.contents_eq, hs'.cur_eq, hs'.cur_le, nofun⟩
  · rintro ⟨ok, s', hcall, -, -, -, hlater⟩ hb hc hm
    obtain ⟨s₁, hcall₁, hne⟩ := outcomes_of_first_failed hs hfit hb hc hm
    rw [hcall₁] at hcall
    cases hcall
    exact hne (hlater rfl _)

/-- **Runs of writes.** In both modes, and for every choice of the allocations that fail, every call
of a run survives exactly when none of them is a first allocation that fails. -/
theorem guarded_survives_iff (userFree : Bool) (small : ℕ → UInt8) (calls : List WriteCall)
    (hfit : Guarded callStep Fits (new userFree small) calls) :
    Guarded callStep Survives (new userFree small) calls ↔
      Guarded callStep FirstSucceeds (new userFree small) calls :=
  (guarded_iff_guarded (fun _ _ => survives_iff) (fun _ _ _ => sound_step)
    (sound_new userFree small) hfit).symm

/-- One byte is written, and then the growth for 300 bytes fails. -/
theorem survives_failed_growth :
    Guarded callStep Survives (new true fun _ => 0)
      [⟨true, [1], some fun _ => 0⟩, ⟨false, List.replicate 300 0, none⟩, ⟨true, [2], none⟩] :=
  (guarded_survives_iff true (fun _ => 0) _ (by decide +kernel)).mpr (by decide +kernel)

/-- In the `user_free` mode the first allocation fails: the call does not survive, as a later write
of one byte fails although the memory is there. -/
theorem first_failed_not_survives :
    ¬ Guarded callStep Survives (new true fun _ => 0)
      [⟨true, [1], none⟩, ⟨true, [1], some fun _ => 0⟩] := by
  intro h
  have hfirst := (survives_iff (sound_new true fun _ => 0) (by decide)).mpr h.1
  revert hfirst
  decide

end ByteLog

end Sperm
