import Sperm.Itachi.MessageWrite
import Sperm.Lib.Run

/-!
# A connection that carries messages (`AsyncSocket::send`, `recv` and `onComplete`)

One socket sends messages one after the other, the other one receives them, and the bytes between
them are a stream. A `::write` may take any part of what it is offered, a `::read` may return any
part of what is there, and both sides may fail at any time.

* `Peer`, `Link`, `Link.Act`, `Link.step`: the two sockets with the bytes in between.
* `read_filling`, `read_lost`: what one `read` makes of the bytes of the stream.
* `Link.Inv`: where in the stream the two sockets are.
* **`delivered_isPrefix`**: in every run the bodies that were delivered are the first ones that were
  sent.
-/

namespace Sperm.Itachi

/-! ## The connection -/

/-- `msg_` of a socket. A closed one has been released. -/
inductive Peer where
  | idle
  | busy (msg : Message)
  | closed
  deriving DecidableEq

/-- A connection: the bodies that are still to be sent, the sender, the bytes that were written and
not read yet, the receiver and the bodies that it has got. -/
structure Link where
  unsent : List (List UInt8)
  sender : Peer
  wire : List UInt8
  receiver : Peer
  delivered : List (List UInt8)
  deriving DecidableEq

namespace Link

/-- What may happen on a connection. The message of `recv` may have held anything before. -/
inductive Act where
  | send (msg : Message)
  | write (fd : List WriteResult)
  | recv (msg : Message)
  | read (fd : List ReadResult)

/-- The socket after `Message::write`. -/
def afterWrite (w : Message.Written) : Peer :=
  match w.code with
  | .ok .kDone => .idle
  | .ok .kWouldBlock => .busy w.msg
  | _ => .closed

/-- The case `AA_READ`: the socket, the bodies delivered and the results that were not read. -/
def afterRead (delivered : List (List UInt8)) :
    Except Fault (Code × Message × List ReadResult) → Peer × List (List UInt8) × List ReadResult
  | .ok (.kDone, m, fd) => (.idle, delivered ++ [m.body], fd)
  | .ok (.kWouldBlock, m, fd) => (.busy m, delivered, fd)
  | .ok (_, _, fd) => (.closed, delivered, fd)
  | .error _ => (.closed, delivered, [])

def step (s : Link) : Act → Option Link
  | .send msg =>
    match s.sender, s.unsent with
    | .idle, b :: bs =>
      if msg.body = b then some { s with unsent := bs, sender := .busy msg.onSend } else none
    | _, _ => none
  | .write fd =>
    match s.sender with
    | .busy m =>
      some { s with
        sender := afterWrite (m.write fd)
        wire := s.wire ++ (m.write fd).taken }
    | _ => none
  | .recv msg =>
    match s.receiver with
    | .idle => some { s with receiver := .busy msg.onRecv }
    | _ => none
  | .read fd =>
    match s.receiver with
    | .busy m =>
      -- The results carry the next bytes of the stream.
      if bytesOf fd <+: s.wire then
        let r := afterRead s.delivered (m.read fd)
        some { s with
          receiver := r.1
          delivered := r.2.1
          wire := bytesOf r.2.2 ++ s.wire.drop (bytesOf fd).length }
      else none
    | _ => none

/-- A connection before the first message. -/
def init (bodies : List (List UInt8)) : Link := ⟨bodies, .idle, [], .idle, []⟩

end Link

/-! ## One `read` -/

theorem bytesOf_read {m m' : Message} {fd fd' : List ReadResult} {code : Code}
    (hread : m.read fd = .ok (code, m', fd')) : ∃ taken, bytesOf fd = taken ++ bytesOf fd' := by
  induction fd generalizing m with
  | nil =>
    cases hread
    exact ⟨[], rfl⟩
  | cons r fd ih =>
    cases r with
    | data c =>
      rw [Message.read] at hread
      cases hdata : m.onData c.1 with
      | error f =>
        rw [hdata] at hread
        cases hread
      | ok x =>
        obtain ⟨done, m₁⟩ := x
        rw [hdata] at hread
        cases done with
        | true =>
          cases hread
          exact ⟨c.1, rfl⟩
        | false =>
          obtain ⟨taken, htaken⟩ := ih hread
          exact ⟨c.1 ++ taken, by rw [bytesOf, htaken, List.append_assoc]⟩
    | eof =>
      cases hread
      exact ⟨[], rfl⟩
    | eagain =>
      cases hread
      exact ⟨[], rfl⟩
    | error =>
      cases hread
      exact ⟨[], rfl⟩

/-- A receiver that has read too far stays so. -/
theorem read_lost {m m' : Message} {fd fd' : List ReadResult} {code : Code} (h : m.Lost)
    (hread : m.read fd = .ok (code, m', fd')) : code ≠ .kDone ∧ m'.Lost := by
  induction fd generalizing m with
  | nil =>
    cases hread
    exact ⟨by decide, h⟩
  | cons r fd ih =>
    cases r with
    | data c =>
      rw [Message.read] at hread
      rcases Message.onData_lost h c.1 with hdata | ⟨m₁, hdata, h₁⟩
      · rw [hdata] at hread
        cases hread
      · rw [hdata] at hread
        exact ih h₁ hread
    | eof =>
      cases hread
      exact ⟨by decide, h⟩
    | eagain =>
      cases hread
      exact ⟨by decide, h⟩
    | error =>
      cases hread
      exact ⟨by decide, h⟩

/-- The first bytes of a stream of frames, more than a header: the header is the one of the first
frame. -/
theorem header_of_prefix {bs : List (List UInt8)} {w : List UInt8}
    (hlen : ∀ b ∈ bs, b.length < 2 ^ 32) (hw : w <+: bs.flatMap frame) (h4 : 4 < w.length) :
    ∃ b bs', bs = b :: bs' ∧ LittleEndian.value (w.take 4) = b.length ∧
      (w.length = 4 + b.length → w = frame b) := by
  cases bs with
  | nil =>
    have := hw.length_le
    rw [List.flatMap_nil, List.length_nil] at this
    omega
  | cons b bs =>
    obtain ⟨r, hr⟩ := hw
    rw [List.flatMap_cons] at hr
    refine ⟨b, bs, rfl, ?_, ?_⟩
    · have htake : w.take 4 = LittleEndian.bytes 4 b.length := by
        have := congrArg (List.take 4) hr
        rwa [List.take_append_of_le_length (by omega), frame, List.append_assoc,
          List.take_left' (LittleEndian.length_bytes _ _)] at this
      rw [htake, LittleEndian.value_bytes_of_lt (hlen b List.mem_cons_self)]
    · intro hl
      rw [← Message.length_frame] at hl
      have := congrArg (List.take w.length) hr
      rwa [List.take_left, hl, List.take_left] at this

/-- One `read` of a receiver that has got the bytes `hs` of its header, from a stream that goes on
with the frames of `bs`. -/
theorem read_filling {m m' : Message} {hs : List UInt8} {fd fd' : List ReadResult} {code : Code}
    {bs : List (List UInt8)} (hlen : ∀ b ∈ bs, b.length < 2 ^ 32) (h : m.Filling hs)
    (hw : hs ++ bytesOf fd <+: bs.flatMap frame) (hread : m.read fd = .ok (code, m', fd')) :
    ∃ taken, bytesOf fd = taken ++ bytesOf fd' ∧
      (code = .kDone → ∃ bs', bs = m'.body :: bs' ∧ hs ++ taken = frame m'.body) ∧
      (code = .kWouldBlock → m'.Lost ∨ m'.Filling (hs ++ taken)) := by
  induction fd generalizing m hs with
  | nil =>
    cases hread
    exact ⟨[], rfl, fun h => absurd h (by decide), fun _ => .inr (by rwa [List.append_nil])⟩
  | cons r fd ih =>
    cases r with
    | eof =>
      cases hread
      exact ⟨[], rfl, fun h => absurd h (by decide), fun h => absurd h (by decide)⟩
    | error =>
      cases hread
      exact ⟨[], rfl, fun h => absurd h (by decide), fun h => absurd h (by decide)⟩
    | eagain =>
      cases hread
      exact ⟨[], rfl, fun h => absurd h (by decide), fun _ => .inr (by rwa [List.append_nil])⟩
    | data c =>
      rw [bytesOf, ← List.append_assoc] at hw
      rw [Message.read] at hread
      by_cases hle : hs.length + c.1.length ≤ 4
      · obtain ⟨m₁, h₁, hfill⟩ := Message.onData_filling h hle
        rw [h₁] at hread
        obtain ⟨taken, htaken, hdone, hblock⟩ := ih hfill hw hread
        refine ⟨c.1 ++ taken, by rw [bytesOf, htaken, List.append_assoc], ?_, ?_⟩
        · rw [← List.append_assoc]
          exact hdone
        · rw [← List.append_assoc]
          exact hblock
      · obtain ⟨m₁, h₁, hbody, hval, hoff⟩ := Message.onData_body h (by omega) c.2.2
        have hpre : hs ++ c.1 <+: bs.flatMap frame := (List.prefix_append _ _).trans hw
        have h4 : 4 < (hs ++ c.1).length := by
          rw [List.length_append]
          omega
        obtain ⟨b, bs', rfl, hheader, hframe⟩ := header_of_prefix hlen hpre h4
        rw [hheader] at hval
        rw [h₁] at hread
        by_cases hbig : m₁.bodyLen.toNat ≥ m₁.body.length
        · by_cases hassert : 4 + m₁.bodyLen.toNat = m₁.bodyOff.toNat
          · rw [Message.check, if_pos hbig, if_pos hassert] at hread
            cases hread
            have hbl := congrArg List.length hbody
            rw [List.length_drop] at hbl
            have hall : hs ++ c.1 = frame b := hframe (by omega)
            have hb : m'.body = b := by
              rw [hbody, hall, frame, List.drop_left' (LittleEndian.length_bytes _ _)]
            exact ⟨c.1, rfl, fun _ => ⟨bs', by rw [hb], by rw [hb, hall]⟩,
              fun h => absurd h (by decide)⟩
          · rw [Message.check, if_pos hbig, if_neg hassert] at hread
            cases hread
        · rw [Message.check, if_neg hbig] at hread
          obtain ⟨hne, hlost⟩ := read_lost (.inl ⟨by omega, hoff⟩) hread
          obtain ⟨taken, htaken⟩ := bytesOf_read hread
          refine ⟨c.1 ++ taken, by rw [bytesOf, htaken, List.append_assoc], ?_, ?_⟩
          · exact fun hdone => absurd hdone hne
          · exact fun _ => .inl hlost

/-! ## Runs -/

namespace Link

/-- The bytes that the sender has written of the whole stream, and what it has still to write. -/
def Sender (stream written : List UInt8) (unsent : List (List UInt8)) : Peer → Prop
  | .idle => written ++ unsent.flatMap frame = stream
  | .busy m => ∃ b k, m.Sent b k ∧ b.length < 2 ^ 31 ∧
      written ++ ((frame b).drop k ++ unsent.flatMap frame) = stream
  | .closed => written <+: stream

/-- The bytes that the receiver has read: the frames of what it has delivered, with a part of a
header, or it is lost. -/
def Receiver (delivered : List (List UInt8)) (read : List UInt8) : Peer → Prop
  | .idle => read = delivered.flatMap frame
  | .busy m => (∃ hs, m.Filling hs ∧ read = delivered.flatMap frame ++ hs) ∨ m.Lost
  | .closed => True

/-- Both sockets are at their places in the stream of the bodies. -/
structure Inv (bodies : List (List UInt8)) (s : Link) : Prop where
  lt : ∀ b ∈ s.unsent, b.length < 2 ^ 31
  prefix_bodies : s.delivered <+: bodies
  places : ∃ read, Sender (bodies.flatMap frame) (read ++ s.wire) s.unsent s.sender ∧
    Receiver s.delivered read s.receiver

variable {bodies unsent : List (List UInt8)} {stream written : List UInt8} {p : Peer} {s s' : Link}

theorem Sender.prefix_stream (h : Sender stream written unsent p) : written <+: stream := by
  cases p with
  | idle => exact ⟨_, h⟩
  | busy m =>
    obtain ⟨b, k, -, -, h⟩ := h
    exact ⟨_, h⟩
  | closed => exact h

theorem sender_write {m : Message} {fd : List WriteResult}
    (h : Sender stream written unsent (.busy m)) :
    Sender stream (written ++ (m.write fd).taken) unsent (afterWrite (m.write fd)) := by
  obtain ⟨b, k, hsent, hlen, hstream⟩ := h
  obtain ⟨k', hle, hsent', htake, hcode⟩ := Message.continues_write hlen fd hsent
  have hdrop : (frame b).drop k = (m.write fd).taken ++ (frame b).drop k' := by
    have hall : (frame b).take k ++ (frame b).drop k =
        (frame b).take k ++ ((m.write fd).taken ++ (frame b).drop k') := by
      rw [← List.append_assoc, ← htake, List.take_append_drop, List.take_append_drop]
    exact List.append_cancel_left hall
  have hstream' : written ++ (m.write fd).taken ++ ((frame b).drop k' ++ unsent.flatMap frame) =
      stream := by
    rw [← hstream, hdrop]
    simp only [List.append_assoc]
  rw [afterWrite]
  cases hc : (m.write fd).code with
  | error f => exact ⟨_, hstream'⟩
  | ok code =>
    cases code with
    | kDone =>
      rw [hcode.mp hc, List.drop_length, List.nil_append] at hstream'
      exact hstream'
    | kWouldBlock => exact ⟨b, k', hsent', hlen, hstream'⟩
    | kEOF => exact ⟨_, hstream'⟩
    | kBrokenPipe => exact ⟨_, hstream'⟩
    | kError => exact ⟨_, hstream'⟩

/-- One `read` takes the next bytes from the wire, and delivers no body but the next one. -/
theorem receiver_read {m m' : Message} {fd fd' : List ReadResult} {code : Code}
    {delivered : List (List UInt8)} {read : List UInt8} (hlen : ∀ b ∈ bodies, b.length < 2 ^ 31)
    (hdelivered : delivered <+: bodies) (h : Receiver delivered read (.busy m))
    (hw : read ++ bytesOf fd <+: bodies.flatMap frame) (hread : m.read fd = .ok (code, m', fd')) :
    ∃ taken, bytesOf fd = taken ++ bytesOf fd' ∧
      (afterRead delivered (.ok (code, m', fd'))).2.1 <+: bodies ∧
      Receiver (afterRead delivered (.ok (code, m', fd'))).2.1 (read ++ taken)
        (afterRead delivered (.ok (code, m', fd'))).1 := by
  obtain ⟨taken, htaken⟩ := bytesOf_read hread
  rcases h with ⟨hs, hfill, hpos⟩ | hlost
  · obtain ⟨bs, rfl⟩ := hdelivered
    have hbs : ∀ b ∈ bs, b.length < 2 ^ 32 := fun b hb =>
      (hlen b (List.mem_append_right _ hb)).trans (by decide)
    rw [hpos, List.flatMap_append, List.append_assoc, List.prefix_append_right_inj] at hw
    obtain ⟨taken', htaken', hdone, hblock⟩ := read_filling hbs hfill hw hread
    obtain rfl : taken' = taken := List.append_cancel_right (htaken'.symm.trans htaken)
    refine ⟨taken', htaken, ?_⟩
    cases code with
    | kDone =>
      obtain ⟨bs', rfl, hframe⟩ := hdone rfl
      refine ⟨⟨bs', by rw [afterRead, List.append_assoc]; rfl⟩, ?_⟩
      rw [afterRead, Receiver, hpos, List.append_assoc, hframe, List.flatMap_append]
      simp
    | kWouldBlock =>
      refine ⟨List.prefix_append _ _, ?_⟩
      rcases hblock rfl with hlost | hfill'
      · exact .inr hlost
      · exact .inl ⟨_, hfill', by rw [hpos, List.append_assoc]; rfl⟩
    | kEOF => exact ⟨List.prefix_append _ _, trivial⟩
    | kBrokenPipe => exact ⟨List.prefix_append _ _, trivial⟩
    | kError => exact ⟨List.prefix_append _ _, trivial⟩
  · obtain ⟨hne, hlost'⟩ := read_lost hlost hread
    refine ⟨taken, htaken, ?_⟩
    cases code with
    | kDone => exact absurd rfl hne
    | kWouldBlock => exact ⟨hdelivered, .inr hlost'⟩
    | kEOF => exact ⟨hdelivered, trivial⟩
    | kBrokenPipe => exact ⟨hdelivered, trivial⟩
    | kError => exact ⟨hdelivered, trivial⟩

theorem inv_init (hlen : ∀ b ∈ bodies, b.length < 2 ^ 31) : Inv bodies (init bodies) :=
  ⟨hlen, List.nil_prefix, [], rfl, rfl⟩

/-- **Every step** keeps the two sockets at their places. -/
theorem inv_step {a : Act} (hlen : ∀ b ∈ bodies, b.length < 2 ^ 31) (h : Inv bodies s)
    (hstep : s.step a = some s') : Inv bodies s' := by
  obtain ⟨hlt, hdelivered, read, hsender, hreceiver⟩ := h
  obtain ⟨unsent, sender, wire, receiver, delivered⟩ := s
  dsimp only at hlt hdelivered hsender hreceiver
  cases a with
  | send msg =>
    cases sender with
    | idle =>
      cases unsent with
      | nil => cases hstep
      | cons b bs =>
        simp only [step] at hstep
        split_ifs at hstep with hbody
        cases hstep
        have hb := hlt b List.mem_cons_self
        refine ⟨fun b' hb' => hlt b' (List.mem_cons_of_mem _ hb'), hdelivered, read, ?_, hreceiver⟩
        exact ⟨b, 0, Message.sent_onSend hbody (by omega), hb, hsender⟩
    | busy m => cases hstep
    | closed => cases hstep
  | write fd =>
    cases sender with
    | idle => cases hstep
    | busy m =>
      cases hstep
      refine ⟨hlt, hdelivered, read, ?_, hreceiver⟩
      rw [← List.append_assoc]
      exact sender_write hsender
    | closed => cases hstep
  | recv msg =>
    cases receiver with
    | idle =>
      cases hstep
      refine ⟨hlt, hdelivered, read, hsender, .inl ⟨[], msg.filling_onRecv, ?_⟩⟩
      rw [List.append_nil]
      exact hreceiver
    | busy m => cases hstep
    | closed => cases hstep
  | read fd =>
    cases receiver with
    | idle => cases hstep
    | busy m =>
      simp only [step] at hstep
      split_ifs at hstep with hwire
      cases hstep
      obtain ⟨rest, rfl⟩ := hwire
      rw [List.drop_left]
      cases hread : m.read fd with
      | error f =>
        refine ⟨hlt, hdelivered, read ++ bytesOf fd, ?_, trivial⟩
        show Sender _ (read ++ bytesOf fd ++ rest) _ _
        rwa [List.append_assoc]
      | ok x =>
        obtain ⟨code, m', fd'⟩ := x
        have hw : read ++ bytesOf fd <+: bodies.flatMap frame := by
          refine List.IsPrefix.trans ?_ hsender.prefix_stream
          rw [← List.append_assoc]
          exact List.prefix_append _ _
        obtain ⟨taken, htaken, hdelivered', hreceiver'⟩ :=
          receiver_read hlen hdelivered hreceiver hw hread
        have hfd : (afterRead delivered (.ok (code, m', fd'))).2.2 = fd' := by
          cases code <;> rfl
        refine ⟨hlt, hdelivered', read ++ taken, ?_, hreceiver'⟩
        rw [htaken, List.append_assoc] at hsender
        rw [hfd, List.append_assoc]
        exact hsender
    | closed => cases hstep

/-- **The bodies that were delivered are the first ones that were sent**, in their order and each
one once, in every run: however the bytes are cut on both sides and whenever a socket fails. -/
theorem delivered_isPrefix {acts : List Act} (hlen : ∀ b ∈ bodies, b.length < 2 ^ 31)
    (hrun : StepRun.run step (init bodies) acts = some s) : s.delivered <+: bodies :=
  (StepRun.invariant_of_run (fun _ _ _ h hstep => inv_step hlen h hstep) hrun
    (inv_init hlen)).prefix_bodies

/-- Two messages, with cuts in the header on both sides; the second one is lost at the end. -/
def twoMessages : List Act :=
  [.send ⟨0, [7, 8, 9], 0⟩, .write [.wrote 1, .eagain], .recv ⟨5, [1], 9⟩,
    .read [.data ⟨[3, 0], by decide⟩, .eagain], .write [.wrote 3, .wrote 2],
    .read [.data ⟨[0, 0, 7, 8, 9], by decide⟩], .send ⟨0, [9], 0⟩, .write [.wrote 3, .error]]

theorem delivered_isPrefix_twoMessages :
    ∃ s, StepRun.run step (init [[7, 8, 9], [9]]) twoMessages = some s ∧ s.delivered = [[7, 8, 9]] ∧
      s.delivered <+: [[7, 8, 9], [9]] := by
  have hrun : ∃ s, StepRun.run step (init [[7, 8, 9], [9]]) twoMessages = some s ∧
      s.delivered = [[7, 8, 9]] := ⟨_, rfl, rfl⟩
  obtain ⟨s, hs, hdelivered⟩ := hrun
  exact ⟨s, hs, hdelivered, delivered_isPrefix (by decide) hs⟩

end Link

end Sperm.Itachi
