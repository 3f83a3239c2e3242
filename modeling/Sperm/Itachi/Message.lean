import Mathlib.Data.List.Infix
import Sperm.Common.ByteArray
import Sperm.Lib.LittleEndian

/-!
# Framed messages (`itachi/asocket.h`, `itachi/asocket.cc`)

A message is a `uint32_t` length followed by that many bytes, and a receiver gets the stream in
whatever pieces `::read` returns.

* `Message` with `onRecv`, `onSend` and `read`; `recv` calls `read` again after every `kWouldBlock`.
* `Filling`: the header is being filled; `Lost`: `read` does not return `kDone` any more.
* `frame`, `DeliversAll`: what a receiver is for.
* **`deliversAll_iff_wholeBodies`**: the messages arrive exactly when every body is non-empty and
  comes whole, in one read result that ends with it.
-/

namespace Sperm.Itachi

def kReadBufferSize : ℕ := 64 * 2 ^ 10

/-- What `Message::read` and `Message::write` return. -/
inductive Code where
  | kDone
  | kWouldBlock
  | kEOF
  | kBrokenPipe
  | kError
  deriving DecidableEq

/-- The bytes of one successful `::read` into `buf`. -/
def Chunk : Type := { bs : List UInt8 // bs ≠ [] ∧ bs.length ≤ kReadBufferSize }

/-- What one `::read` returns. -/
inductive ReadResult where
  | data (c : Chunk)
  | eof
  | eagain
  | error

/-- The bytes that a sequence of read results carries. -/
def bytesOf : List ReadResult → List UInt8
  | [] => []
  | .data c :: fd => c.1 ++ bytesOf fd
  | _ :: fd => bytesOf fd

structure Message where
  bodyLen : UInt32
  body : List UInt8
  bodyOff : UInt32
  deriving DecidableEq

namespace Message

/-- `onRecv()`. -/
def onRecv (m : Message) : Message := { m with bodyOff := 0, body := [] }

/-- `onSend()`. -/
def onSend (m : Message) : Message := { m with bodyOff := 0, bodyLen := .ofNat m.body.length }

/-- `memcpy` into `body_len` at `body_off`, as much as is missing; the number of bytes used. -/
def fillHeader (m : Message) (buf : List UInt8) : Message × ℕ :=
  if m.bodyOff.toNat < 4 then
    let x := min (4 - m.bodyOff.toNat) buf.length
    ({ m with
        bodyLen := .ofNat (LittleEndian.store 4 m.bodyLen.toNat m.bodyOff.toNat (buf.take x))
        bodyOff := m.bodyOff + .ofNat x }, x)
  else (m, 0)

/-- `body.append(buf + off, code - off)` and the advance of `body_off`. -/
def append (m : Message) (bs : List UInt8) : Message :=
  { m with body := m.body ++ bs, bodyOff := m.bodyOff + .ofNat bs.length }

/-- `check whether it's OK`: `true` when `read` returns `kDone`. -/
def check (m : Message) : Except Fault (Bool × Message) :=
  if m.bodyLen.toNat ≥ m.body.length then
    if 4 + m.bodyLen.toNat = m.bodyOff.toNat then .ok (true, m) else .error .assert
  else .ok (false, m)

/-- One round of the loop of `read`, with the bytes in `buf`. -/
def onData (m : Message) (buf : List UInt8) : Except Fault (Bool × Message) :=
  let filled := (m.fillHeader buf).1
  let off := (m.fillHeader buf).2
  if filled.bodyOff.toNat < 4 ∨ buf.length ≤ off then .ok (false, filled)
  else (filled.append (buf.drop off)).check

/-- `read(fd)`: the code, the message after it and the results `fd` has still to give. A
non-blocking socket that has nothing more gives `EAGAIN`. -/
def read (m : Message) : List ReadResult → Except Fault (Code × Message × List ReadResult)
  | [] => .ok (.kWouldBlock, m, [])
  | .eof :: fd => .ok (.kEOF, m, fd)
  | .eagain :: fd => .ok (.kWouldBlock, m, fd)
  | .error :: fd => .ok (.kError, m, fd)
  | .data c :: fd =>
    match m.onData c.1 with
    | .error f => .error f
    | .ok (true, m') => .ok (.kDone, m', fd)
    | .ok (false, m') => m'.read fd

/-- `read` again on the same message after every `kWouldBlock`, at most `n` times. -/
def recvLoop : ℕ → Message → List ReadResult → Except Fault (Code × Message × List ReadResult)
  | 0, m, fd => .ok (.kWouldBlock, m, fd)
  | n + 1, m, fd =>
    match m.read fd with
    | .ok (.kWouldBlock, m', fd') => recvLoop n m' fd'
    | r => r

/-- Receive one message. Every `read` that would block takes a result, if there is one. -/
def recv (m : Message) (fd : List ReadResult) : Except Fault (Code × Message × List ReadResult) :=
  recvLoop (fd.length + 1) m.onRecv fd

theorem recvLoop_nil (n : ℕ) (m : Message) : recvLoop n m [] = .ok (.kWouldBlock, m, []) := by
  induction n with
  | zero => rfl
  | succ n ih => rw [recvLoop, read]; exact ih

theorem recvLoop_data (n : ℕ) (m : Message) (c : Chunk) (fd : List ReadResult) :
    recvLoop (n + 1) m (.data c :: fd) =
      match m.onData c.1 with
      | .error f => .error f
      | .ok (true, m') => .ok (.kDone, m', fd)
      | .ok (false, m') => recvLoop (n + 1) m' fd := by
  rw [recvLoop, read]
  rcases m.onData c.1 with f | ⟨_ | _, m'⟩ <;> rfl

/-! ## Filling the header -/

/-- Exactly the bytes `hs` were taken, all of them for the header. -/
structure Filling (m : Message) (hs : List UInt8) : Prop where
  off_eq : m.bodyOff.toNat = hs.length
  length_le : hs.length ≤ 4
  body_eq : m.body = []
  take_eq : (LittleEndian.bytes 4 m.bodyLen.toNat).take hs.length = hs

theorem filling_onRecv (m : Message) : m.onRecv.Filling [] := ⟨rfl, by simp, rfl, rfl⟩

theorem fillHeader_spec {m : Message} {hs : List UInt8} (h : m.Filling hs) (buf : List UInt8) :
    (m.fillHeader buf).2 = min (4 - hs.length) buf.length ∧
      (m.fillHeader buf).1.Filling (hs ++ buf.take (min (4 - hs.length) buf.length)) := by
  obtain ⟨hoff, hle, hbody, htake⟩ := h
  rcases hle.lt_or_eq with hlt | heq
  · have hx : (buf.take (min (4 - hs.length) buf.length)).length =
        min (4 - hs.length) buf.length := by
      rw [List.length_take]
      omega
    rw [fillHeader, if_pos (by omega), hoff]
    refine ⟨rfl, ?_, ?_, hbody, ?_⟩
    · rw [UInt32.toNat_add, UInt32.toNat_ofNat', hoff, List.length_append, hx]
      omega
    · rw [List.length_append, hx]
      omega
    · have hroom : hs.length + (buf.take (min (4 - hs.length) buf.length)).length ≤ 4 := by omega
      rw [UInt32.toNat_ofNat_of_lt' (LittleEndian.store_lt hroom), LittleEndian.bytes_store hroom,
        List.length_append, LittleEndian.take_patch (by rw [LittleEndian.length_bytes]; omega),
        htake]
  · rw [fillHeader, if_neg (by omega), heq, Nat.sub_self, Nat.zero_min, List.take_zero,
      List.append_nil]
    exact ⟨rfl, hoff, hle, hbody, htake⟩

theorem onData_filling {m : Message} {hs buf : List UInt8} (h : m.Filling hs)
    (hle : hs.length + buf.length ≤ 4) :
    ∃ m', m.onData buf = .ok (false, m') ∧ m'.Filling (hs ++ buf) := by
  obtain ⟨hoff, hfill⟩ := fillHeader_spec h buf
  rw [Nat.min_eq_right (by omega), List.take_length] at hfill
  refine ⟨(m.fillHeader buf).1, ?_, hfill⟩
  rw [onData, if_pos (.inr (by omega))]

theorem onData_body {m : Message} {hs buf : List UInt8} (h : m.Filling hs)
    (hgt : 4 < hs.length + buf.length) (hbuf : buf.length ≤ kReadBufferSize) :
    ∃ m' : Message, m.onData buf = m'.check ∧ m'.body = (hs ++ buf).drop 4 ∧
      m'.bodyLen.toNat = LittleEndian.value ((hs ++ buf).take 4) ∧
        m'.bodyOff.toNat = 4 + m'.body.length := by
  obtain ⟨hoff, hfill⟩ := fillHeader_spec h buf
  have hle := h.length_le
  rw [Nat.min_eq_left (by omega)] at hoff hfill
  obtain ⟨hoff', -, hbody', htake'⟩ := hfill
  have hlen : (hs ++ buf.take (4 - hs.length)).length = 4 := by
    rw [List.length_append, List.length_take]
    omega
  have htake : (hs ++ buf).take 4 = hs ++ buf.take (4 - hs.length) := by
    rw [List.take_append, List.take_of_length_le hle]
  have hdrop : (hs ++ buf).drop 4 = buf.drop (4 - hs.length) := by
    rw [List.drop_append, List.drop_eq_nil_of_le hle, List.nil_append]
  rw [hlen] at hoff' htake'
  refine ⟨(m.fillHeader buf).1.append (buf.drop (m.fillHeader buf).2), ?_, ?_, ?_, ?_⟩
  · rw [onData, if_neg (by omega)]
  · rw [append, hoff, hbody', List.nil_append, hdrop]
  · rw [htake, ← htake', List.take_of_length_le (by rw [LittleEndian.length_bytes])]
    exact (LittleEndian.value_bytes_of_lt (UInt32.toNat_lt _)).symm
  · rw [append, UInt32.toNat_add, UInt32.toNat_ofNat', hoff', hoff, hbody', List.nil_append,
      List.length_drop]
    unfold kReadBufferSize at hbuf
    omega

/-! ## Reading too far -/

/-- More than the announced body was taken, or so much that `body_off` has wrapped around. -/
def Lost (m : Message) : Prop :=
  (m.bodyLen.toNat < m.body.length ∧ m.bodyOff.toNat = 4 + m.body.length) ∨
    2 ^ 32 - 4 ≤ m.body.length

theorem fillHeader_body (m : Message) (buf : List UInt8) : (m.fillHeader buf).1.body = m.body := by
  unfold fillHeader
  split_ifs <;> rfl

/-- The check never accepts a body for which `body_off` has wrapped around. -/
theorem check_of_wrapped {m : Message} (h : 2 ^ 32 - 4 ≤ m.body.length) :
    m.check = .error .assert ∨ m.check = .ok (false, m) := by
  have hoff := m.bodyOff.toNat_lt
  unfold check
  split_ifs with h₁ h₂
  · omega
  · exact .inl rfl
  · exact .inr rfl

theorem onData_lost {m : Message} (h : m.Lost) (buf : List UInt8) :
    m.onData buf = .error .assert ∨ ∃ m', m.onData buf = .ok (false, m') ∧ m'.Lost := by
  rcases h with ⟨hlt, hoff⟩ | hwrap
  · have hfill : m.fillHeader buf = (m, 0) := if_neg (by omega)
    rw [onData, hfill]
    by_cases hbuf : buf = []
    · exact .inr ⟨m, if_pos (.inr (by rw [hbuf]; rfl)), .inl ⟨hlt, hoff⟩⟩
    · have hpos := List.length_pos_iff.mpr hbuf
      have hlen : (m.append buf).body.length = m.body.length + buf.length := List.length_append
      have hcheck : (m.append buf).check = .ok (false, m.append buf) :=
        if_neg (by rw [hlen]; change ¬ m.bodyLen.toNat ≥ _; omega)
      have hcont : ¬ (m.bodyOff.toNat < 4 ∨ buf.length ≤ 0) := by omega
      refine .inr ⟨m.append buf, (if_neg hcont).trans hcheck, ?_⟩
      by_cases hw : 2 ^ 32 - 4 ≤ (m.append buf).body.length
      · exact .inr hw
      · refine .inl ⟨by rw [hlen]; change m.bodyLen.toNat < _; omega, ?_⟩
        change (m.bodyOff + .ofNat buf.length).toNat = _
        rw [UInt32.toNat_add, UInt32.toNat_ofNat', hlen]
        omega
  · by_cases hcont : (m.fillHeader buf).1.bodyOff.toNat < 4 ∨ buf.length ≤ (m.fillHeader buf).2
    · exact .inr ⟨_, if_pos hcont, .inr (by rw [fillHeader_body]; exact hwrap)⟩
    · have hw : 2 ^ 32 - 4 ≤
          ((m.fillHeader buf).1.append (buf.drop (m.fillHeader buf).2)).body.length := by
        rw [append, fillHeader_body, List.length_append]
        omega
      rw [onData, if_neg hcont]
      exact (check_of_wrapped hw).imp_right fun hc => ⟨_, hc, .inr hw⟩

/-- **Lost**: a receiver that has read too far does not deliver a message any more. -/
theorem recvLoop_lost {n : ℕ} {m m' : Message} {fd fd' : List ReadResult} (h : m.Lost) :
    recvLoop n m fd ≠ .ok (.kDone, m', fd') := by
  induction fd generalizing n m with
  | nil => rw [recvLoop_nil]; nofun
  | cons r fd ih =>
    cases n with
    | zero => nofun
    | succ n =>
      cases r with
      | data c =>
        rw [recvLoop_data]
        rcases onData_lost h c.1 with hd | ⟨m₁, hd, h₁⟩ <;> rw [hd]
        · nofun
        · exact ih h₁
      | eagain => exact ih h
      | eof => nofun
      | error => nofun

/-- When a receiver is done, the header came within the results before the last one, and the last
one ended with the body. -/
theorem recvLoop_done {n : ℕ} {m m' : Message} {hs : List UInt8} {fd fd' : List ReadResult}
    (h : m.Filling hs) (hd : recvLoop n m fd = .ok (.kDone, m', fd')) :
    ∃ fd₀ c, fd = fd₀ ++ .data c :: fd' ∧ hs.length + (bytesOf fd₀).length ≤ 4 ∧
      4 < hs.length + (bytesOf fd₀).length + c.1.length := by
  induction fd generalizing n m hs with
  | nil => rw [recvLoop_nil] at hd; cases hd
  | cons r fd ih =>
    cases n with
    | zero => cases hd
    | succ n =>
      cases r with
      | eof => cases hd
      | error => cases hd
      | eagain =>
        obtain ⟨fd₀, c, rfl, h₁, h₂⟩ := ih h hd
        exact ⟨.eagain :: fd₀, c, rfl, h₁, h₂⟩
      | data c =>
        rw [recvLoop_data] at hd
        by_cases hle : hs.length + c.1.length ≤ 4
        · obtain ⟨m₁, h₁, hfill⟩ := onData_filling h hle
          rw [h₁] at hd
          obtain ⟨fd₀, c', rfl, h₂, h₃⟩ := ih hfill hd
          rw [List.length_append] at h₂ h₃
          refine ⟨.data c :: fd₀, c', rfl, ?_, ?_⟩ <;> rw [bytesOf, List.length_append] <;> omega
        · obtain ⟨m₁, h₁, -, -, hoff⟩ := onData_body h (by omega) c.2.2
          rw [h₁] at hd
          by_cases hlen : m₁.bodyLen.toNat ≥ m₁.body.length
          · by_cases hass : 4 + m₁.bodyLen.toNat = m₁.bodyOff.toNat
            · rw [check, if_pos hlen, if_pos hass] at hd
              cases hd
              have hle' := h.length_le
              refine ⟨[], c, rfl, ?_, ?_⟩ <;> rw [bytesOf, List.length_nil] <;> omega
            · rw [check, if_pos hlen, if_neg hass] at hd
              cases hd
          · rw [check, if_neg hlen] at hd
            exact absurd hd (recvLoop_lost (.inl ⟨by omega, hoff⟩))

end Message

/-! ## Delivery -/

/-- The bytes of a message on the wire: `body_len` and the body. -/
def frame (b : List UInt8) : List UInt8 := LittleEndian.bytes 4 b.length ++ b

/-- The socket stays open: there is no end of file and no error. -/
def Open (fd : List ReadResult) : Prop := ∀ r ∈ fd, r ≠ .eof ∧ r ≠ .error

/-- Every body is delivered by a `recv` of its own, which takes its frame and nothing else, and
after the last one there is nothing to receive. The message that is passed to `recv` may have held
anything before. -/
def DeliversAll : List (List UInt8) → List ReadResult → Prop
  | [], fd => ∀ m : Message, ∃ m', m.recv fd = .ok (.kWouldBlock, m', [])
  | b :: bs, fd => ∀ m : Message, ∃ m' fd₀ fd', m.recv fd = .ok (.kDone, m', fd') ∧
      m'.body = b ∧ m'.bodyLen.toNat = b.length ∧
        fd = fd₀ ++ fd' ∧ bytesOf fd₀ = frame b ∧ DeliversAll bs fd'

/-- Every body is non-empty and comes whole, in one read result that ends with it. -/
def WholeBodies : List (List UInt8) → List ReadResult → Prop
  | [], _ => True
  | b :: bs, fd => b ≠ [] ∧ ∃ fd₀ c fd', fd = fd₀ ++ .data c :: fd' ∧
      bytesOf fd₀ ++ c.1 = frame b ∧ b <:+ c.1 ∧ WholeBodies bs fd'

theorem bytesOf_append (xs ys : List ReadResult) :
    bytesOf (xs ++ ys) = bytesOf xs ++ bytesOf ys := by
  induction xs with
  | nil => rfl
  | cons r xs ih =>
    cases r with
    | data c => rw [List.cons_append, bytesOf, bytesOf, ih, List.append_assoc]
    | _ => exact ih

theorem Open.tail {r : ReadResult} {fd : List ReadResult} (h : Open (r :: fd)) : Open fd :=
  fun r' hr => h r' (List.mem_cons_of_mem _ hr)

theorem Open.right {xs ys : List ReadResult} (h : Open (xs ++ ys)) : Open ys :=
  fun r hr => h r (List.mem_append_right _ hr)

theorem Open.left {xs ys : List ReadResult} (h : Open (xs ++ ys)) : Open xs :=
  fun r hr => h r (List.mem_append_left _ hr)

theorem recvLoop_of_bytesOf_nil {n : ℕ} {m : Message} {fd : List ReadResult} (ho : Open fd)
    (hb : bytesOf fd = []) (hn : fd.length < n) :
    m.recvLoop n fd = .ok (.kWouldBlock, m, []) := by
  induction fd generalizing n with
  | nil => exact m.recvLoop_nil n
  | cons r fd ih =>
    obtain ⟨k, rfl⟩ : ∃ k, n = k + 1 := ⟨n - 1, by omega⟩
    cases r with
    | eof => exact absurd rfl (ho _ List.mem_cons_self).1
    | error => exact absurd rfl (ho _ List.mem_cons_self).2
    | data c => exact absurd (List.append_eq_nil_iff.mp hb).1 c.2.1
    | eagain => exact ih ho.tail hb (by simpa using hn)

/-- A body that comes whole is delivered, whatever the cuts in its header. -/
theorem recvLoop_whole {n : ℕ} {m : Message} {hs b : List UInt8} {fd₀ fd' : List ReadResult}
    {c : Chunk} (ho : Open fd₀) (hm : m.Filling hs) (hb : b ≠ []) (hlen : b.length < 2 ^ 32)
    (hbytes : hs ++ bytesOf fd₀ ++ c.1 = frame b) (hc : b <:+ c.1) (hn : fd₀.length + 1 ≤ n) :
    ∃ m', m.recvLoop n (fd₀ ++ .data c :: fd') = .ok (.kDone, m', fd') ∧ m'.body = b ∧
      m'.bodyLen.toNat = b.length := by
  induction fd₀ generalizing n m hs with
  | nil =>
    obtain ⟨k, rfl⟩ : ∃ k, n = k + 1 := ⟨n - 1, by omega⟩
    rw [bytesOf, List.append_nil] at hbytes
    have hl := congrArg List.length hbytes
    have hpos := List.length_pos_iff.mpr hb
    have hbc := hc.length_le
    rw [frame, List.length_append, List.length_append, LittleEndian.length_bytes] at hl
    obtain ⟨m₁, h₁, hbody, hval, hoff⟩ := Message.onData_body hm (by omega) c.2.2
    have htake : (frame b).take 4 = LittleEndian.bytes 4 b.length := by
      rw [frame, List.take_left' (LittleEndian.length_bytes _ _)]
    rw [hbytes, htake, LittleEndian.value_bytes_of_lt hlen] at hval
    rw [hbytes, frame, List.drop_left' (LittleEndian.length_bytes _ _)] at hbody
    have hcheck : m₁.check = .ok (true, m₁) := by
      rw [Message.check, if_pos (by rw [hbody, hval]), if_pos (by rw [hoff, hbody, hval])]
    refine ⟨m₁, ?_, hbody, hval⟩
    rw [List.nil_append, Message.recvLoop_data, h₁, hcheck]
  | cons r fd₀ ih =>
    obtain ⟨k, rfl⟩ : ∃ k, n = k + 1 := ⟨n - 1, by omega⟩
    rw [List.length_cons] at hn
    cases r with
    | eof => exact absurd rfl (ho _ List.mem_cons_self).1
    | error => exact absurd rfl (ho _ List.mem_cons_self).2
    | eagain => exact ih ho.tail hm hbytes (by omega)
    | data c₀ =>
      have hbc := hc.length_le
      have hl := congrArg List.length hbytes
      simp only [bytesOf, frame, List.length_append, LittleEndian.length_bytes] at hl
      have hle : hs.length + c₀.1.length ≤ 4 := by omega
      obtain ⟨m₁, h₁, hfill⟩ := Message.onData_filling hm hle
      obtain ⟨m', h₂, hm'⟩ := ih (n := k + 1) ho.tail hfill
        (by rw [← hbytes, bytesOf, List.append_assoc hs c₀.1]) (by omega)
      refine ⟨m', ?_, hm'⟩
      rw [List.cons_append, Message.recvLoop_data, h₁]
      exact h₂

theorem deliversAll_of_wholeBodies {bs : List (List UInt8)} {fd : List ReadResult}
    (hlen : ∀ b ∈ bs, b.length < 2 ^ 32) (ho : Open fd) (hbytes : bytesOf fd = bs.flatMap frame)
    (h : WholeBodies bs fd) : DeliversAll bs fd := by
  induction bs generalizing fd with
  | nil => exact fun m => ⟨m.onRecv, recvLoop_of_bytesOf_nil ho hbytes (by omega)⟩
  | cons b bs ih =>
    obtain ⟨hb, fd₀, c, fd', rfl, hfr, hc, hrest⟩ := h
    have hbytes' : bytesOf fd' = bs.flatMap frame := by
      rw [bytesOf_append, bytesOf, ← List.append_assoc, hfr, List.flatMap_cons] at hbytes
      exact List.append_cancel_left hbytes
    have ho' : Open fd' := ho.right.tail
    intro m
    have hn : fd₀.length + 1 ≤ (fd₀ ++ .data c :: fd').length + 1 := by
      rw [List.length_append]
      omega
    obtain ⟨m', h₁, h₂, h₃⟩ := recvLoop_whole ho.left m.filling_onRecv hb
      (hlen b List.mem_cons_self) hfr hc hn
    refine ⟨m', fd₀ ++ [.data c], fd', h₁, h₂, h₃, by rw [List.append_assoc]; rfl, ?_, ?_⟩
    · rw [bytesOf_append, ← hfr]
      simp only [bytesOf, List.append_nil]
    · exact ih (fun b hb => hlen b (List.mem_cons_of_mem _ hb)) ho' hbytes' hrest

theorem wholeBodies_of_deliversAll {bs : List (List UInt8)} {fd : List ReadResult}
    (h : DeliversAll bs fd) : WholeBodies bs fd := by
  induction bs generalizing fd with
  | nil => trivial
  | cons b bs ih =>
    obtain ⟨m', taken, fd', h₁, -, -, hfd, hfr, hrest⟩ := h ⟨0, [], 0⟩
    obtain ⟨fd₀, c, hfd', hle, hgt⟩ := Message.recvLoop_done (Message.filling_onRecv _) h₁
    have htaken : taken = fd₀ ++ [.data c] := by
      have heq : taken ++ fd' = (fd₀ ++ [.data c]) ++ fd' := by
        rw [← hfd, hfd', List.append_assoc]
        rfl
      exact List.append_cancel_right heq
    rw [htaken, bytesOf_append] at hfr
    simp only [bytesOf, List.append_nil] at hfr
    have hl := congrArg List.length hfr
    rw [List.length_append, frame, List.length_append, LittleEndian.length_bytes] at hl
    rw [List.length_nil, zero_add] at hle hgt
    refine ⟨?_, fd₀, c, fd', hfd', hfr, ?_, ih hrest⟩
    · rw [← List.length_pos_iff]
      omega
    · -- the results before the last one lie within the header
      exact List.suffix_of_suffix_length_le ⟨LittleEndian.bytes 4 b.length, rfl⟩ ⟨_, hfr⟩ (by omega)

/-- **Framed messages survive exactly the fragmentations that keep bodies whole.** -/
theorem deliversAll_iff_wholeBodies {bs : List (List UInt8)} {fd : List ReadResult}
    (hlen : ∀ b ∈ bs, b.length < 2 ^ 32) (ho : Open fd) (hbytes : bytesOf fd = bs.flatMap frame) :
    DeliversAll bs fd ↔ WholeBodies bs fd :=
  ⟨wholeBodies_of_deliversAll, deliversAll_of_wholeBodies hlen ho hbytes⟩

/-- The frame of `[7, 8]` with a cut inside its header. -/
def headerCut : List ReadResult :=
  [.data ⟨[2, 0], by decide⟩, .eagain, .data ⟨[0, 0, 7, 8], by decide⟩]

theorem deliversAll_headerCut : bytesOf headerCut = [[7, 8]].flatMap frame ∧
    WholeBodies [[7, 8]] headerCut ∧ DeliversAll [[7, 8]] headerCut := by
  have hw : WholeBodies [[7, 8]] headerCut := by
    refine ⟨nofun, [.data ⟨[2, 0], by decide⟩, .eagain], ⟨[0, 0, 7, 8], by decide⟩, [], rfl, rfl,
      ⟨[0, 0], rfl⟩, trivial⟩
  have hopen : Open headerCut := by
    intro r hr
    simp only [headerCut, List.mem_cons, List.not_mem_nil, or_false] at hr
    rcases hr with rfl | rfl | rfl <;> exact ⟨nofun, nofun⟩
  exact ⟨rfl, hw, (deliversAll_iff_wholeBodies (by decide) hopen rfl).mpr hw⟩

/-- The frame of `[7, 8]` with a cut inside its body. -/
def bodyCut : List ReadResult := [.data ⟨[2, 0, 0, 0, 7], by decide⟩, .data ⟨[8], by decide⟩]

/-- The frames of `[7]` and `[8]` in one read result. -/
def twoFrames : List ReadResult := [.data ⟨[1, 0, 0, 0, 7, 1, 0, 0, 0, 8], by decide⟩]

/-- The frame of an empty body. -/
def emptyBody : List ReadResult := [.data ⟨[0, 0, 0, 0], by decide⟩]

/-- A cut inside the body trips the assert; of two frames that come together neither is delivered,
and neither is an empty body. -/
theorem fragmentation_breaks_delivery :
    (bytesOf bodyCut = [[7, 8]].flatMap frame ∧ ¬ DeliversAll [[7, 8]] bodyCut ∧
      Message.recv ⟨0, [], 0⟩ bodyCut = .error .assert) ∧
    (bytesOf twoFrames = [[7], [8]].flatMap frame ∧ ¬ DeliversAll [[7], [8]] twoFrames) ∧
    (bytesOf emptyBody = [[]].flatMap frame ∧ ¬ DeliversAll [[]] emptyBody) := by
  refine ⟨⟨rfl, fun h => ?_, rfl⟩, ⟨rfl, fun h => ?_⟩, ⟨rfl, fun h => ?_⟩⟩ <;>
    · obtain ⟨m', fd₀, fd', h₁, -⟩ := h ⟨0, [], 0⟩
      cases h₁

end Sperm.Itachi
