import Mathlib.Algebra.Order.Ring.Nat
import Mathlib.Data.List.Basic
import Mathlib.Tactic.Common

/-!
# Byte arrays (`common/byte_array.h`, `common/byte_array.cc`)

A `Byte*` is the memory from that address on, a map `ℕ → UInt8`; `ByteSize` is a natural with its
64-bit arithmetic written out.

* `Fault`: how a call fails to come back.
* `slice`: the bytes of a memory range; `slice_add`, `slice_congr`.
* `ReadableByteArray` with `read` and `remain`; `rest`, the bytes still to be read, and `read_spec`.
* `WriteableByteArray` with `allocate` (growth loop, `malloc` and `realloc`) and `write`;
  `contents`, the bytes written so far, **`allocate_spec`** and **`write_spec`**.
-/

namespace Sperm

/-- Ways in which a call does not come back. -/
inductive Fault where
  | assert
  /-- `SPERM_FATAL`, which calls `abort`. -/
  | fatal
  /-- An exception that nobody catches. -/
  | exception
  /-- A loop that never ends. -/
  | diverge
  deriving DecidableEq

/-- `n` bytes of memory from offset `off` on. -/
def slice (p : ℕ → UInt8) (off n : ℕ) : List UInt8 := (List.range n).map fun i => p (off + i)

@[simp] theorem length_slice (p : ℕ → UInt8) (off n : ℕ) : (slice p off n).length = n := by
  simp [slice]

theorem slice_congr {p q : ℕ → UInt8} {i j n : ℕ} (h : ∀ k < n, p (i + k) = q (j + k)) :
    slice p i n = slice q j n :=
  List.map_congr_left fun k hk => h k (List.mem_range.mp hk)

theorem slice_add (p : ℕ → UInt8) (off m n : ℕ) :
    slice p off (m + n) = slice p off m ++ slice p (off + m) n := by
  simp only [slice, List.range_add, List.map_append, List.map_map, Function.comp_def, add_assoc]

theorem slice_succ (p : ℕ → UInt8) (off n : ℕ) :
    slice p off (n + 1) = p off :: slice p (off + 1) n := by
  rw [add_comm, slice_add]
  rfl

theorem slice_shift (p : ℕ → UInt8) (c off n : ℕ) :
    slice (fun i => p (c + i)) off n = slice p (c + off) n :=
  slice_congr fun k _ => by rw [add_assoc]

theorem slice_eq_of_append {p : ℕ → UInt8} {off n : ℕ} {xs ys : List UInt8}
    (h : slice p off n = xs ++ ys) : slice p off xs.length = xs ∧
      slice p (off + xs.length) (n - xs.length) = ys := by
  have hn : n = xs.length + (n - xs.length) := by
    have := congrArg List.length h
    rw [length_slice, List.length_append] at this
    omega
  rw [hn, slice_add] at h
  have := List.append_inj h (by rw [length_slice])
  exact ⟨this.1, by rw [← this.2]⟩

/-! ## `ReadableByteArray` -/

/-- The buffer, its size (an object has fewer than `2 ^ 63` bytes) and the read cursor. -/
structure ReadableByteArray where
  bytes : ℕ → UInt8
  size : ℕ
  cur : ℕ
  size_lt : size < 2 ^ 63
  cur_le : cur ≤ size

namespace ReadableByteArray

/-- `ReadableByteArray(bytes, size)`. -/
def new (bytes : ℕ → UInt8) (size : ℕ) (h : size < 2 ^ 63) : ReadableByteArray :=
  ⟨bytes, size, 0, h, Nat.zero_le _⟩

/-- `read(bytes, size)`: the bytes copied out and the array after it; `none` when it returns
false. -/
def read (r : ReadableByteArray) (n : ℕ) : Option (List UInt8 × ReadableByteArray) :=
  if h : (r.cur + n) % 2 ^ 64 > r.size then none
  else some (slice r.bytes r.cur n, { r with cur := (r.cur + n) % 2 ^ 64, cur_le := not_lt.mp h })

/-- `remain(&size)`: the memory at the cursor and the number of bytes left. -/
def remain (r : ReadableByteArray) : (ℕ → UInt8) × ℕ :=
  (fun i => r.bytes (r.cur + i), r.size - r.cur)

/-- The bytes that are still to be read. -/
def rest (r : ReadableByteArray) : List UInt8 := slice r.bytes r.cur (r.size - r.cur)

theorem length_rest (r : ReadableByteArray) : r.rest.length = r.size - r.cur := length_slice _ _ _

theorem read_of_le {r : ReadableByteArray} {n : ℕ} (h : n ≤ r.size - r.cur) :
    ∃ r', r.read n = some (slice r.bytes r.cur n, r') ∧ r'.cur = r.cur + n ∧
      r'.size = r.size ∧ r'.bytes = r.bytes := by
  have h₁ := r.size_lt
  have h₂ := r.cur_le
  have hm : (r.cur + n) % 2 ^ 64 = r.cur + n := Nat.mod_eq_of_lt (by omega)
  refine ⟨_, dif_neg (by omega), hm, rfl, rfl⟩

/-- **Reading what is there**: a read of `xs` leaves what follows. -/
theorem read_spec {r : ReadableByteArray} {xs ys : List UInt8} (h : r.rest = xs ++ ys) :
    ∃ r', r.read xs.length = some (xs, r') ∧ r'.rest = ys ∧ r'.size = r.size := by
  have hl := congrArg List.length h
  rw [length_rest, List.length_append] at hl
  obtain ⟨hx, hy⟩ := slice_eq_of_append h
  obtain ⟨r', h₁, h₂, h₃, h₄⟩ := read_of_le (r := r) (n := xs.length) (by omega)
  refine ⟨r', by rw [h₁, hx], ?_, h₃⟩
  rw [rest, h₂, h₃, h₄, ← hy]
  congr 1
  omega

end ReadableByteArray

/-! ## `WriteableByteArray` -/

/-- What the code gets from the machine: `malloc(n)` gives a block of arbitrary contents or `NULL`,
and `stringFits n` says that `std::string::resize(n)` gets its memory. -/
structure Env where
  malloc : ℕ → Option (ℕ → UInt8)
  stringFits : ℕ → Bool
  /-- `resize` beyond `max_size()` throws. -/
  lt_of_fits : ∀ n, stringFits n = true → n < 2 ^ 63

/-- What `bytes_` points to. -/
inductive Block where
  | null
  | small
  | heap
  deriving DecidableEq

def kSmallBufferSize : ℕ := 128

structure WriteableByteArray where
  userFree : Bool
  block : Block
  mem : ℕ → UInt8
  size : ℕ
  cur : ℕ
  cur_le : cur ≤ size

/-- `while(need > next_size) next_size *= 2`, for at most `fuel` tests. After 64 doublings
`next_size` is `0` for ever, so a loop that is still running after 65 tests never ends. -/
def growLoop (need : ℕ) : ℕ → ℕ → Option ℕ
  | 0, _ => none
  | fuel + 1, next => if need > next then growLoop need fuel (next * 2 % 2 ^ 64) else some next

theorem le_of_growLoop {need fuel next r : ℕ} (h : growLoop need fuel next = some r) :
    need ≤ r := by
  induction fuel generalizing next with
  | zero => cases h
  | succ fuel ih =>
    rw [growLoop] at h
    split_ifs at h with hn
    · exact ih h
    · rw [Option.some.injEq] at h; omega

/-- The growth loop ends on every request below `2 ^ 63`. -/
theorem exists_growLoop {need : ℕ} (hneed : need < 2 ^ 63) {fuel next : ℕ}
    (h : need ≤ next * 2 ^ fuel) : ∃ r, growLoop need (fuel + 1) next = some r := by
  induction fuel generalizing next with
  | zero => exact ⟨next, if_neg (by omega)⟩
  | succ fuel ih =>
    rw [growLoop]
    split_ifs with hn
    · have hm : next * 2 % 2 ^ 64 = next * 2 := Nat.mod_eq_of_lt (by omega)
      rw [hm]
      exact ih (by rw [mul_assoc, ← pow_succ']; exact h)
    · exact ⟨next, rfl⟩

namespace WriteableByteArray

/-- `WriteableByteArray(user_free)`; `small` is what `small_` happens to hold. -/
def new (userFree : Bool) (small : ℕ → UInt8) : WriteableByteArray :=
  ⟨userFree, if userFree then .null else .small, small,
    if userFree then 0 else kSmallBufferSize, 0, Nat.zero_le _⟩

/-- `bytes_ + cur_` as an address: the offset in the block, or `none` for `NULL`. -/
def addr (w : WriteableByteArray) : Option ℕ :=
  if w.block = .null ∧ w.cur = 0 then none else some w.cur

/-- The block after the growth: `memcpy` from `small_`, or `realloc`. -/
def grown (w : WriteableByteArray) (fresh : ℕ → UInt8) : ℕ → UInt8 :=
  match w.block with
  | .null => fresh
  | .small => fun i => if i < w.cur then w.mem i else fresh i
  | .heap => fun i => if i < w.size then w.mem i else fresh i

/-- `size_` where the growth starts: an array without a buffer takes the small size. -/
def oldSize (w : WriteableByteArray) : ℕ := if w.size = 0 then kSmallBufferSize else w.size

theorem le_oldSize (w : WriteableByteArray) : w.size ≤ w.oldSize := by
  unfold oldSize; split_ifs <;> omega

theorem oldSize_pos (w : WriteableByteArray) : 0 < w.oldSize := by
  unfold oldSize kSmallBufferSize; split_ifs <;> omega

/-- `allocate(size)`: the address it returns and the array after it. -/
def allocate (env : Env) (w : WriteableByteArray) (n : ℕ) :
    Except Fault (Option ℕ × WriteableByteArray) :=
  if h : (w.cur + n) % 2 ^ 64 > w.size then
    match hg : growLoop ((w.cur + n) % 2 ^ 64) 65 (w.oldSize * 2 % 2 ^ 64) with
    | none => .error .diverge
    | some next =>
      match env.malloc next with
      | none => .ok (none, { w with size := w.oldSize, cur_le := w.cur_le.trans w.le_oldSize })
      | some fresh => .ok (some w.cur, ⟨w.userFree, .heap, w.grown fresh, next,
          (w.cur + n) % 2 ^ 64, le_of_growLoop hg⟩)
  else .ok (w.addr, { w with cur := (w.cur + n) % 2 ^ 64, cur_le := not_lt.mp h })

/-- Fill the block from offset `a` on with `bs`. -/
def fill (w : WriteableByteArray) (a : ℕ) (bs : List UInt8) : WriteableByteArray :=
  { w with mem := fun i => if a ≤ i then bs.getD (i - a) (w.mem i) else w.mem i }

/-- `write(bytes, size)`. -/
def write (env : Env) (w : WriteableByteArray) (bs : List UInt8) :
    Except Fault (Bool × WriteableByteArray) :=
  match w.allocate env bs.length with
  | .error f => .error f
  | .ok (none, w') => .ok (false, w')
  | .ok (some a, w') => .ok (true, w'.fill a bs)

/-- The bytes written so far: what `data(&size)` gives. -/
def contents (w : WriteableByteArray) : List UInt8 := slice w.mem 0 w.cur

theorem length_contents (w : WriteableByteArray) : w.contents.length = w.cur := length_slice _ _ _

/-- A `NULL` buffer is an array nothing was written to. -/
def Usable (w : WriteableByteArray) : Prop := w.block = .null → w.size = 0

theorem usable_new (userFree : Bool) (small : ℕ → UInt8) : (new userFree small).Usable := by
  cases userFree
  · intro h; cases h
  · exact fun _ => rfl

theorem contents_new (userFree : Bool) (small : ℕ → UInt8) : (new userFree small).contents = [] :=
  rfl

theorem grown_of_lt (w : WriteableByteArray) (hw : w.Usable) (fresh : ℕ → UInt8) {i : ℕ}
    (hi : i < w.cur) : w.grown fresh i = w.mem i := by
  have hle := w.cur_le
  unfold grown
  cases hb : w.block with
  | null => have := hw hb; omega
  | small => exact if_pos hi
  | heap => exact if_pos (by omega)

theorem allocate_of_le (env : Env) {w : WriteableByteArray} {n : ℕ} (h : w.cur + n ≤ w.size)
    (hfit : w.cur + n < 2 ^ 63) :
    w.allocate env n = .ok (w.addr, { w with cur := w.cur + n, cur_le := h }) := by
  have hmod : (w.cur + n) % 2 ^ 64 = w.cur + n := Nat.mod_eq_of_lt (by omega)
  have hg : ¬ (w.cur + n) % 2 ^ 64 > w.size := by omega
  rw [allocate, dif_neg hg]
  simp only [hmod]

/-- A request beyond `size_` asks for a block that is large enough, and goes on by what it gets. -/
theorem allocate_of_lt (env : Env) {w : WriteableByteArray} {n : ℕ} (h : w.size < w.cur + n)
    (hfit : w.cur + n < 2 ^ 63) :
    ∃ next, ∃ hle : w.cur + n ≤ next, growLoop (w.cur + n) 65 (w.oldSize * 2) = some next ∧
      w.allocate env n = match env.malloc next with
        | none => .ok (none, { w with size := w.oldSize, cur_le := w.cur_le.trans w.le_oldSize })
        | some fresh => .ok (some w.cur,
            ⟨w.userFree, .heap, w.grown fresh, next, w.cur + n, hle⟩) := by
  have hpos := w.oldSize_pos
  have hlt : w.oldSize < 2 ^ 63 := by unfold oldSize kSmallBufferSize; split_ifs <;> omega
  have hmod : (w.cur + n) % 2 ^ 64 = w.cur + n := Nat.mod_eq_of_lt (by omega)
  have hdbl : w.oldSize * 2 % 2 ^ 64 = w.oldSize * 2 := Nat.mod_eq_of_lt (by omega)
  have hneed : w.cur + n ≤ w.oldSize * 2 * 2 ^ 64 := by omega
  obtain ⟨next, hnext⟩ := exists_growLoop hfit hneed
  refine ⟨next, le_of_growLoop hnext, hnext, ?_⟩
  rw [allocate, dif_pos (by omega)]
  simp only [hmod]
  split
  · next hg => rw [hmod, hdbl, hnext] at hg; cases hg
  · next r hg =>
    rw [hmod, hdbl, hnext, Option.some.injEq] at hg
    subst hg
    rfl

/-- **Allocation**: below `2 ^ 63` bytes, and when `malloc` gives memory, `allocate` returns the
address behind the bytes written so far and keeps them. -/
theorem allocate_spec {env : Env} (hm : ∀ n, (env.malloc n).isSome) {w : WriteableByteArray}
    (hw : w.Usable) {n : ℕ} (hn : w.block ≠ .null ∨ 0 < n) (hfit : w.cur + n < 2 ^ 63) :
    ∃ w', w.allocate env n = .ok (some w.cur, w') ∧ w'.cur = w.cur + n ∧ w'.block ≠ .null ∧
      slice w'.mem 0 w.cur = w.contents := by
  by_cases hg : w.size < w.cur + n
  · obtain ⟨next, hle, -, hall⟩ := allocate_of_lt env hg hfit
    obtain ⟨fresh, hfresh⟩ := Option.isSome_iff_exists.mp (hm next)
    rw [hfresh] at hall
    refine ⟨_, hall, rfl, nofun, slice_congr fun k hk => ?_⟩
    rw [zero_add]
    exact grown_of_lt w hw fresh hk
  · have hnn : w.block ≠ .null := by
      intro hb
      have := hw hb
      rcases hn with h | h
      · exact h hb
      · omega
    have hall := allocate_of_le env (not_lt.mp hg) hfit
    rw [addr, if_neg fun h => hnn h.1] at hall
    exact ⟨_, hall, rfl, hnn, rfl⟩

theorem slice_fill (w : WriteableByteArray) (a : ℕ) (bs : List UInt8) :
    slice (w.fill a bs).mem 0 (a + bs.length) = slice w.mem 0 a ++ bs := by
  rw [slice_add]
  congr 1
  · refine slice_congr fun k hk => ?_
    exact if_neg (by omega)
  · refine List.ext_getElem (length_slice _ _ _) fun i h₁ h₂ => ?_
    simp [slice, fill, h₂]

/-- **Writing** appends to the contents. -/
theorem write_spec {env : Env} (hm : ∀ n, (env.malloc n).isSome) {w : WriteableByteArray}
    (hw : w.Usable) {bs : List UInt8} (hn : w.block ≠ .null ∨ bs ≠ [])
    (hfit : w.cur + bs.length < 2 ^ 63) :
    ∃ w', w.write env bs = .ok (true, w') ∧ w'.contents = w.contents ++ bs ∧ w'.block ≠ .null := by
  obtain ⟨w', h₁, h₂, h₃, h₄⟩ := allocate_spec hm hw
    (hn.imp_right List.length_pos_iff.mpr) hfit
  refine ⟨w'.fill w.cur bs, by rw [write, h₁], ?_, h₃⟩
  rw [contents, show (w'.fill w.cur bs).cur = w.cur + bs.length from h₂, slice_fill, h₄]

end WriteableByteArray

end Sperm
