import Sperm.Itachi.Message

/-!
# Sending framed messages (`Message::write` in `itachi/asocket.cc`)

`write` resumes at `body_off`, which counts the bytes of the header and of the body that the
descriptor has taken. What is left of the body is put into an `int`.

* `WriteResult`: what one `::write` does; `Message.write`, and `Message.sendLoop`, which calls it
  again on the same message after every `kWouldBlock`.
* `Message.Sent`: the descriptor has taken the first `k` bytes of the frame.
* **`emitsOnce_iff`**: a frame is emitted exactly once, whatever the partial counts, exactly when
  its body has fewer than `2 ^ 31` bytes.
-/

namespace Sperm.Itachi

/-- What one `::write` does. `wrote k` takes `k + 1` bytes, or all if it is offered fewer. -/
inductive WriteResult where
  | wrote (k : ℕ)
  | zero
  | eagain
  | epipe
  | error
  deriving DecidableEq

namespace Message

/-- `int rest = body.size() - body_off + sizeof(body_len)`. -/
def rest (m : Message) : ℤ := ((m.body.length : ℤ) - m.bodyOff.toNat + 4).bmod (2 ^ 32)

/-- The bytes that the next `::write` is offered; `none` when `write` returns `kDone` instead. -/
def offer (m : Message) : Option (List UInt8) :=
  if m.bodyOff.toNat < 4 then
    some ((LittleEndian.bytes 4 m.bodyLen.toNat).drop m.bodyOff.toNat)
  else if m.rest ≤ 0 then none
  else some ((m.body.drop (m.bodyOff.toNat - 4)).take m.rest.toNat)

/-- `body_off += code`. -/
def advance (m : Message) (code : ℕ) : Message := { m with bodyOff := m.bodyOff + .ofNat code }

/-- What is left of a `write`: its code, the message, the bytes that the descriptor has taken and
the results that it has still to give. -/
structure Written where
  code : Except Fault Code
  msg : Message
  taken : List UInt8
  fd : List WriteResult

/-- `write(fd)`. A descriptor that has no more to give gives `EAGAIN`. -/
def write (m : Message) (fd : List WriteResult) : Written :=
  match m.offer with
  | none => ⟨.ok .kDone, m, [], fd⟩
  | some bs =>
    match fd with
    | [] => ⟨.ok .kWouldBlock, m, [], []⟩
    | .eagain :: fd => ⟨.ok .kWouldBlock, m, [], fd⟩
    | .epipe :: fd => ⟨.ok .kBrokenPipe, m, [], fd⟩
    | .error :: fd => ⟨.ok .kError, m, [], fd⟩
    | .zero :: fd => ⟨.error .fatal, m, [], fd⟩
    | .wrote k :: fd =>
      let code := min (k + 1) bs.length
      let w := (m.advance code).write fd
      { w with taken := bs.take code ++ w.taken }

/-- `write` again on the same message after every `kWouldBlock`, `n` times at most. -/
def sendLoop : ℕ → Message → List WriteResult → Written
  | 0, m, fd => ⟨.ok .kWouldBlock, m, [], fd⟩
  | n + 1, m, fd =>
    let w := m.write fd
    if w.code = .ok .kWouldBlock then
      let w' := sendLoop n w.msg w.fd
      { w' with taken := w.taken ++ w'.taken }
    else w

/-- The first `k` bytes of the frame of `b` are sent. -/
structure Sent (m : Message) (b : List UInt8) (k : ℕ) : Prop where
  body_eq : m.body = b
  len_eq : m.bodyLen.toNat = b.length
  off_eq : m.bodyOff.toNat = k
  le_length : k ≤ (frame b).length

theorem length_frame (b : List UInt8) : (frame b).length = 4 + b.length := by
  rw [frame, List.length_append, LittleEndian.length_bytes]

theorem sent_onSend {m : Message} {b : List UInt8} (hb : m.body = b) (hlen : b.length < 2 ^ 32) :
    m.onSend.Sent b 0 := by
  refine ⟨hb, ?_, rfl, Nat.zero_le _⟩
  change (UInt32.ofNat m.body.length).toNat = b.length
  rw [hb, UInt32.toNat_ofNat_of_lt' hlen]

/-! ## One round of the loop -/

section

variable {m : Message} {b : List UInt8} {k : ℕ}

theorem offer_header (h : m.Sent b k) (hk : k < 4) :
    m.offer = some ((LittleEndian.bytes 4 b.length).drop k) := by
  rw [offer, h.off_eq, h.len_eq, if_pos hk]

/-- Behind the header, `rest` is what is left of the body if that is an `int`. -/
theorem rest_of_sent (h : m.Sent b k) (hk : 4 ≤ k) (hlen : b.length < 2 ^ 31) :
    m.rest = ((frame b).length - k : ℕ) := by
  have hle := h.le_length
  rw [length_frame] at hle ⊢
  rw [rest, h.body_eq, h.off_eq, Int.bmod_def]
  omega

theorem offer_of_all (h : m.Sent b (frame b).length) (hlen : b.length < 2 ^ 31) :
    m.offer = none := by
  have h4 : 4 ≤ (frame b).length := by rw [length_frame]; omega
  rw [offer, h.off_eq, if_neg (by omega), if_pos]
  rw [rest_of_sent h h4 hlen, Nat.sub_self]
  rfl

theorem offer_of_lt (h : m.Sent b k) (hk : k < (frame b).length) (hlen : b.length < 2 ^ 31) :
    ∃ bs, m.offer = some bs ∧ bs <+: (frame b).drop k := by
  rcases Nat.lt_or_ge k 4 with h4 | h4
  · refine ⟨_, offer_header h h4, ?_⟩
    rw [frame, List.drop_append_of_le_length (by rw [LittleEndian.length_bytes]; omega)]
    exact List.prefix_append _ _
  · have hdrop : (frame b).drop k = b.drop (k - 4) := by
      rw [frame, List.drop_append, LittleEndian.length_bytes,
        List.drop_eq_nil_of_le (by rw [LittleEndian.length_bytes]; omega), List.nil_append]
    have hrest := rest_of_sent h h4 hlen
    refine ⟨(frame b).drop k, ?_, List.prefix_rfl⟩
    rw [offer, h.off_eq, if_neg (by omega), if_neg (by omega), h.body_eq, hrest, Int.toNat_natCast,
      ← hdrop, List.take_of_length_le (by rw [List.length_drop])]

theorem sent_advance {x : ℕ} (h : m.Sent b k) (hx : k + x ≤ (frame b).length)
    (hlen : b.length < 2 ^ 31) : (m.advance x).Sent b (k + x) := by
  refine ⟨h.body_eq, h.len_eq, ?_, hx⟩
  change (m.bodyOff + .ofNat x).toNat = k + x
  rw [length_frame] at hx
  rw [UInt32.toNat_add, UInt32.toNat_ofNat', h.off_eq]
  omega

end

/-! ## Whole calls -/

/-- What a call that starts with `k` bytes sent has done to the frame of `b`: it took the bytes up
to some `k'`, and it is done exactly when these are all. -/
def Continues (b : List UInt8) (k : ℕ) (w : Written) : Prop :=
  ∃ k', k ≤ k' ∧ w.msg.Sent b k' ∧ (frame b).take k' = (frame b).take k ++ w.taken ∧
    (w.code = .ok .kDone ↔ k' = (frame b).length)

theorem take_add_eq_append {xs bs : List UInt8} {k x : ℕ} (h : bs <+: xs.drop k)
    (hx : x ≤ bs.length) : xs.take (k + x) = xs.take k ++ bs.take x := by
  obtain ⟨zs, hzs⟩ := h
  rw [List.take_add, ← hzs, List.take_append_of_le_length hx]

theorem continues_stop {m : Message} {b : List UInt8} {k : ℕ} {c : Except Fault Code}
    {fd : List WriteResult} (h : m.Sent b k) (hk : k < (frame b).length) (hc : c ≠ .ok .kDone) :
    Continues b k ⟨c, m, [], fd⟩ :=
  ⟨k, le_rfl, h, by rw [List.append_nil], iff_of_false hc hk.ne⟩

theorem continues_done {m : Message} {b : List UInt8} {fd : List WriteResult}
    (h : m.Sent b (frame b).length) (hlen : b.length < 2 ^ 31) :
    Continues b (frame b).length (m.write fd) := by
  unfold write
  rw [offer_of_all h hlen]
  exact ⟨_, le_rfl, h, by rw [List.append_nil], iff_of_true rfl rfl⟩

theorem continues_append {b taken : List UInt8} {k k₁ : ℕ} {w : Written} (hk : k ≤ k₁)
    (ht : (frame b).take k₁ = (frame b).take k ++ taken) (h : Continues b k₁ w) :
    Continues b k { w with taken := taken ++ w.taken } := by
  obtain ⟨k', hle, hsent, htake, hcode⟩ := h
  exact ⟨k', hk.trans hle, hsent, by rw [htake, ht, List.append_assoc], hcode⟩

theorem continues_write {b : List UInt8} (hlen : b.length < 2 ^ 31) (fd : List WriteResult)
    {m : Message} {k : ℕ} (h : m.Sent b k) : Continues b k (m.write fd) := by
  induction fd generalizing m k with
  | nil =>
    rcases h.le_length.lt_or_eq with hk | rfl
    · obtain ⟨bs, hoff, -⟩ := offer_of_lt h hk hlen
      unfold write
      rw [hoff]
      exact continues_stop h hk nofun
    · exact continues_done h hlen
  | cons r fd ih =>
    rcases h.le_length.lt_or_eq with hk | rfl
    · obtain ⟨bs, hoff, hpre⟩ := offer_of_lt h hk hlen
      unfold write
      rw [hoff]
      cases r with
      | wrote j =>
        have hx : min (j + 1) bs.length ≤ bs.length := Nat.min_le_right _ _
        have hbs := hpre.length_le
        rw [List.length_drop] at hbs
        exact continues_append (Nat.le_add_right k _) (take_add_eq_append hpre hx)
          (ih (sent_advance h (by omega) hlen))
      | zero => exact continues_stop h hk nofun
      | eagain => exact continues_stop h hk nofun
      | epipe => exact continues_stop h hk nofun
      | error => exact continues_stop h hk nofun
    · exact continues_done h hlen

theorem continues_sendLoop {b : List UInt8} (hlen : b.length < 2 ^ 31) (n : ℕ)
    (fd : List WriteResult) {m : Message} {k : ℕ} (h : m.Sent b k) (hk : k < (frame b).length) :
    Continues b k (m.sendLoop n fd) := by
  induction n generalizing m k fd with
  | zero => exact continues_stop h hk nofun
  | succ n ih =>
    have hw := continues_write hlen fd h
    rw [sendLoop]
    split_ifs with hc
    · obtain ⟨k₁, hle, hsent, htake, hcode⟩ := hw
      have hne : k₁ ≠ (frame b).length := fun he => by
        rw [hcode.mpr he] at hc
        cases hc
      exact continues_append hle htake (ih _ hsent (hsent.le_length.lt_of_ne hne))
    · exact hw

end Message

/-! ## Exactly once -/

/-- However `::write` cuts the frame of `b` and however often it would block, the bytes taken over
all calls are a prefix of the frame, and the last call is done exactly when they are all of it. -/
def EmitsOnce (b : List UInt8) : Prop :=
  ∀ (m : Message) (n : ℕ) (fd : List WriteResult), m.body = b →
    (m.onSend.sendLoop n fd).taken <+: frame b ∧
      ((m.onSend.sendLoop n fd).code = .ok .kDone ↔ (m.onSend.sendLoop n fd).taken = frame b)

theorem emitsOnce_of_lt {b : List UInt8} (hlen : b.length < 2 ^ 31) : EmitsOnce b := by
  intro m n fd hb
  have hpos : 0 < (frame b).length := by rw [Message.length_frame]; omega
  obtain ⟨k, -, hsent, htake, hcode⟩ := Message.continues_sendLoop hlen n fd
    (Message.sent_onSend hb (by omega)) hpos
  rw [List.take_zero, List.nil_append] at htake
  rw [hcode, ← htake]
  refine ⟨List.take_prefix _ _, fun h => by rw [h, List.take_length], fun h => ?_⟩
  have hl := congrArg List.length h
  have hle := hsent.le_length
  rw [List.length_take] at hl
  omega

/-- A body from `2 ^ 31` bytes on: `rest` is negative when the header is sent, and `write` is done
without having sent a byte of the body. -/
theorem sendLoop_of_ge {m : Message} {b : List UInt8} (hb : m.body = b) (hge : 2 ^ 31 ≤ b.length)
    (hlen : b.length < 2 ^ 32) :
    (m.onSend.sendLoop 1 [.wrote 3]).code = .ok .kDone ∧
      (m.onSend.sendLoop 1 [.wrote 3]).taken = LittleEndian.bytes 4 b.length := by
  have hsent := Message.sent_onSend hb hlen
  have hbytes : (LittleEndian.bytes 4 b.length).length = 4 := LittleEndian.length_bytes _ _
  have hoff := Message.offer_header hsent (by omega)
  rw [List.drop_zero] at hoff
  have hrest : (m.onSend.advance 4).rest ≤ 0 := by
    change ((m.body.length : ℤ) - 4 + 4).bmod (2 ^ 32) ≤ 0
    rw [hb, Int.bmod_def]
    omega
  have hdone : (m.onSend.advance 4).offer = none := by
    have hoff : (m.onSend.advance 4).bodyOff.toNat = 4 := rfl
    rw [Message.offer, if_neg (by omega), if_pos hrest]
  have hwrite : m.onSend.write [.wrote 3] =
      ⟨.ok .kDone, m.onSend.advance 4, LittleEndian.bytes 4 b.length, []⟩ := by
    unfold Message.write
    simp only [hoff, hbytes, Nat.min_self]
    unfold Message.write
    rw [hdone, List.append_nil, List.take_of_length_le (by omega)]
  rw [Message.sendLoop, hwrite, if_neg nofun]
  exact ⟨rfl, rfl⟩

theorem not_emitsOnce_of_ge {b : List UInt8} (hge : 2 ^ 31 ≤ b.length) (hlen : b.length < 2 ^ 32) :
    ¬ EmitsOnce b := by
  intro h
  obtain ⟨hdone, htaken⟩ := sendLoop_of_ge (b := b) (m := ⟨0, b, 0⟩) rfl hge hlen
  have hall := ((h ⟨0, b, 0⟩ 1 [.wrote 3] rfl).2.mp hdone).symm.trans htaken
  have hl := congrArg List.length hall
  rw [Message.length_frame, LittleEndian.length_bytes] at hl
  omega

/-- **A frame is emitted exactly once, whatever the partial counts, exactly when its body has fewer
than `2 ^ 31` bytes.** -/
theorem emitsOnce_iff {b : List UInt8} (hlen : b.length < 2 ^ 32) :
    EmitsOnce b ↔ b.length < 2 ^ 31 :=
  ⟨fun h => not_le.mp fun hge => not_emitsOnce_of_ge hge hlen h, emitsOnce_of_lt⟩

theorem emitsOnce_pair : ([7, 8] : List UInt8).length < 2 ^ 31 ∧ EmitsOnce [7, 8] :=
  ⟨by decide, (emitsOnce_iff (by decide)).mpr (by decide)⟩

/-- A body of `2 ^ 31` bytes fits `body_len`, and its frame is not emitted. -/
theorem not_emitsOnce_two_pow : (List.replicate (2 ^ 31) (0 : UInt8)).length < 2 ^ 32 ∧
    ¬ EmitsOnce (List.replicate (2 ^ 31) 0) := by
  have hl : (List.replicate (2 ^ 31) (0 : UInt8)).length = 2 ^ 31 := List.length_replicate
  exact ⟨by omega, not_emitsOnce_of_ge hl.ge (by omega)⟩

end Sperm.Itachi
