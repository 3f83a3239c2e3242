import Sperm.Itachi.Stream

/-!
# The echo sockets (`test/asock_echo_client.cc`, `test/asock_echo_server.cc`)

The client sends a message when it is connected. After that both sockets do the same with one
message each: what was received is sent back, and what was sent makes room for the next.

* `Side`, `Echo`, `Echo.Act`, `Echo.step`: the two sockets and the bytes on both ways.
* `read_frame`: a receiver never reads too far while no second frame is under way.
* `Echo.link`: each way is a connection as in `Stream.lean`; `Inv.place`: where its receiver is.
* **`conversation`**: the sockets take turns with one body, and never wait for each other.
-/

namespace Sperm.Itachi

/-- The two programs. -/
inductive Who where
  | client
  | server
  deriving DecidableEq

def Who.other : Who → Who
  | .client => .server
  | .server => .client

@[simp] theorem Who.other_other (w : Who) : w.other.other = w := by cases w <;> rfl

@[simp] theorem Who.other_ne (w : Who) : w.other ≠ w := by cases w <;> decide

@[simp] theorem Who.ne_other (w : Who) : w ≠ w.other := w.other_ne.symm

theorem Who.eq_or (w w' : Who) : w' = w ∨ w' = w.other := by
  cases w <;> cases w' <;> simp [Who.other]

/-- A socket with its `msg_`. After an error, the end of the file or a failed assertion it is
closed. -/
inductive Side where
  | sending (msg : Message)
  | receiving (msg : Message)
  | closed
  deriving DecidableEq

/-- Both sockets; `wire w` are the bytes that `w` has written and the other one has not read,
`got w` the bodies that `w` took out in `onRecvOK`. -/
structure Echo where
  side : Who → Side
  wire : Who → List UInt8
  got : Who → List (List UInt8)

namespace Echo

/-- `AA_WRITE`, with `onSendOK`: `recv(takeOutMessage())`. -/
def afterWrite (r : Message.Written) : Side :=
  match r.code with
  | .ok .kDone => .receiving r.msg.onRecv
  | .ok .kWouldBlock => .sending r.msg
  | _ => .closed

/-- `AA_READ`, with `onRecvOK`: `send(takeOutMessage())`. The socket, the body that was taken out
and the results that were not read. -/
def afterRead : Except Fault (Code × Message × List ReadResult) →
    Side × List (List UInt8) × List ReadResult
  | .ok (.kDone, m, fd) => (.sending m.onSend, [m.body], fd)
  | .ok (.kWouldBlock, m, fd) => (.receiving m, [], fd)
  | .ok (_, _, fd) => (.closed, [], fd)
  | .error _ => (.closed, [], [])

/-- A socket is called back, and its descriptor does this. -/
inductive Act where
  | write (w : Who) (fd : List WriteResult)
  | read (w : Who) (fd : List ReadResult)

def step (s : Echo) : Act → Option Echo
  | .write w fd =>
    match s.side w with
    | .sending m =>
      let r := m.write fd
      some { s with
        side := Function.update s.side w (afterWrite r)
        wire := Function.update s.wire w (s.wire w ++ r.taken) }
    | _ => none
  | .read w fd =>
    match s.side w with
    | .receiving m =>
      if bytesOf fd <+: s.wire w.other then
        let r := afterRead (m.read fd)
        some {
          side := Function.update s.side w r.1
          wire := Function.update s.wire w.other
            (bytesOf r.2.2 ++ (s.wire w.other).drop (bytesOf fd).length)
          got := Function.update s.got w (s.got w ++ r.2.1) }
      else none
    | _ => none

/-- `onConnected()` of the client with body `b` and `onAccept()` of the server. The new messages
hold anything beside the body. -/
def init (b : List UInt8) (len off : UInt32) (msg : Message) : Echo where
  side
    | .client => .sending (Message.onSend ⟨len, b, off⟩)
    | .server => .receiving msg.onRecv
  wire _ := []
  got _ := []

end Echo

/-! ## One frame -/

/-- A receiver that is offered the rest of one frame does not read too far. -/
theorem read_frame {m m' : Message} {hs b : List UInt8} {fd fd' : List ReadResult}
    (hlen : b.length < 2 ^ 32) (h : m.Filling hs) (hw : hs ++ bytesOf fd <+: frame b)
    (hread : m.read fd = .ok (.kWouldBlock, m', fd')) : ∃ hs', m'.Filling hs' := by
  induction fd generalizing m hs with
  | nil =>
    cases hread
    exact ⟨hs, h⟩
  | cons r fd ih =>
    cases r with
    | eof => cases hread
    | error => cases hread
    | eagain =>
      cases hread
      exact ⟨hs, h⟩
    | data c =>
      rw [bytesOf, ← List.append_assoc] at hw
      rw [Message.read] at hread
      by_cases hle : hs.length + c.1.length ≤ 4
      · obtain ⟨m₁, h₁, hfill⟩ := Message.onData_filling h hle
        rw [h₁] at hread
        exact ih hfill hw hread
      · obtain ⟨m₁, h₁, hbody, hval, hoff⟩ := Message.onData_body h (by omega) c.2.2
        have hpre : hs ++ c.1 <+: [b].flatMap frame := by
          rw [List.flatMap_singleton]
          exact (List.prefix_append _ _).trans hw
        obtain ⟨b', bs', hb, hheader, -⟩ :=
          header_of_prefix (by simpa using hlen) hpre (by rw [List.length_append]; omega)
        cases hb
        -- all that was read is no more than the frame, so the check is made, and is not passed over
        have hbig : m₁.bodyLen.toNat ≥ m₁.body.length := by
          have := hpre.length_le
          rw [List.flatMap_singleton, Message.length_frame] at this
          rw [hval, hheader, hbody, List.length_drop]
          omega
        rw [h₁, Message.check, if_pos hbig] at hread
        split_ifs at hread
        cases hread

theorem Message.not_lost_of_filling {m : Message} {hs : List UInt8} (h : m.Filling hs) :
    ¬ m.Lost := by
  rintro (⟨hlt, -⟩ | hwrap)
  · rw [h.body_eq] at hlt
    exact Nat.not_lt_zero _ hlt
  · rw [h.body_eq] at hwrap
    exact absurd hwrap (by decide)

/-! ## Each way as a connection -/

namespace Link

variable {bodies : List (List UInt8)} {b : List UInt8} {s : Link}

theorem Inv.send {msg : Message} (hlen : ∀ b' ∈ bodies ++ [b], b'.length < 2 ^ 31)
    (hidle : s.sender = .idle) (hunsent : s.unsent = []) (hbody : msg.body = b)
    (h : Inv bodies s) : Inv (bodies ++ [b]) { s with sender := .busy msg.onSend } := by
  obtain ⟨unsent, sender, wire, receiver, delivered⟩ := s
  obtain rfl : sender = .idle := hidle
  obtain rfl : unsent = [] := hunsent
  obtain ⟨-, hdelivered, read, hsender, hreceiver⟩ := h
  have hmore : Inv (bodies ++ [b]) ⟨[b], .idle, wire, receiver, delivered⟩ := by
    refine ⟨fun b' hb' => hlen b' (List.mem_append_right _ hb'),
      hdelivered.trans (List.prefix_append _ _), read, ?_, hreceiver⟩
    change _ ++ [].flatMap frame = _ at hsender
    change _ ++ [b].flatMap frame = (bodies ++ [b]).flatMap frame
    rw [List.flatMap_nil, List.append_nil] at hsender
    rw [hsender, List.flatMap_append]
  exact inv_step (a := .send msg) hlen hmore (if_pos hbody)

theorem Sender.of_append {pre stream written : List UInt8} {unsent : List (List UInt8)} {p : Peer}
    (h : Sender (pre ++ stream) (pre ++ written) unsent p) : Sender stream written unsent p := by
  cases p with
  | idle =>
    change pre ++ written ++ _ = _ at h
    rw [List.append_assoc] at h
    exact List.append_cancel_left h
  | busy m =>
    obtain ⟨b, k, hsent, hlen, h⟩ := h
    rw [List.append_assoc] at h
    exact ⟨b, k, hsent, hlen, List.append_cancel_left h⟩
  | closed => exact (List.prefix_append_right_inj pre).mp h

theorem Inv.closeSender (h : Inv bodies s) : Inv bodies { s with sender := .closed } := by
  obtain ⟨hlt, hdelivered, read, hsender, hreceiver⟩ := h
  exact ⟨hlt, hdelivered, read, hsender.prefix_stream, hreceiver⟩

theorem Inv.closeReceiver (h : Inv bodies s) : Inv bodies { s with receiver := .closed } := by
  obtain ⟨hlt, hdelivered, read, hsender, -⟩ := h
  exact ⟨hlt, hdelivered, read, hsender, trivial⟩

end Link

/-- A socket as the sender of a connection. -/
def Side.asSender : Side → Peer
  | .sending m => .busy m
  | .receiving _ => .idle
  | .closed => .closed

/-- A socket as the receiver of a connection. -/
def Side.asReceiver : Side → Peer
  | .sending _ => .idle
  | .receiving m => .busy m
  | .closed => .closed

namespace Echo

/-- The way from `w` to the other socket. -/
def link (s : Echo) (w : Who) : Link :=
  ⟨[], (s.side w).asSender, s.wire w, (s.side w.other).asReceiver, s.got w.other⟩

/-- How many messages `w` has begun to send: the one of `onConnected`, and one for each received. -/
def sends (s : Echo) (w : Who) : ℕ := (s.got w).length + if w = .client then 1 else 0

/-- Both ways carry the body again and again, and no receiver has read too far. -/
structure Inv (b : List UInt8) (s : Echo) : Prop where
  link : ∀ w, (s.link w).Inv (List.replicate (s.sends w) b)
  filling : ∀ w m, s.side w = .receiving m → ∃ hs, m.Filling hs

variable {b : List UInt8} {s s' : Echo}

theorem asSender_afterWrite (r : Message.Written) :
    (afterWrite r).asSender = Link.afterWrite r := by
  obtain ⟨code, msg, taken, fd⟩ := r
  cases code with
  | error f => rfl
  | ok code => cases code <;> rfl

theorem inv_init (hb : b.length < 2 ^ 31) (len off : UInt32) (msg : Message) :
    Inv b (init b len off msg) := by
  have hempty : (⟨[], .idle, [], .busy msg.onRecv, []⟩ : Link).Inv [] :=
    ⟨fun _ h => absurd h List.not_mem_nil, List.nil_prefix, [], rfl,
      .inl ⟨[], msg.filling_onRecv, rfl⟩⟩
  constructor
  · intro w
    cases w with
    | client => exact hempty.send (b := b) (by simpa using hb) rfl rfl rfl
    | server =>
      exact ⟨fun _ h => absurd h List.not_mem_nil, List.nil_prefix, [], rfl, rfl⟩
  · intro w m h
    cases w with
    | client => cases h
    | server =>
      cases h
      exact ⟨[], msg.filling_onRecv⟩

theorem Inv.length_lt (hb : b.length < 2 ^ 31) (n : ℕ) :
    ∀ b' ∈ List.replicate n b, b'.length < 2 ^ 31 := by
  intro b' hb'
  rwa [List.eq_of_mem_replicate hb']

theorem Inv.got_eq (h : Inv b s) (w : Who) :
    s.got w.other = List.replicate (s.got w.other).length b ∧
      (s.got w.other).length ≤ s.sends w := by
  have hpre := (h.link w).prefix_bodies
  have hle := hpre.length_le
  rw [List.length_replicate] at hle
  exact ⟨List.eq_replicate_of_mem fun b' hb' =>
    List.eq_of_mem_replicate (hpre.subset hb'), hle⟩

/-- A socket that has written waits for the next message of the other way, or is closed. -/
theorem receiver_afterWrite {bodies : List (List UInt8)} {l : Link}
    (hlen : ∀ b' ∈ bodies, b'.length < 2 ^ 31) (hidle : l.receiver = .idle) (h : l.Inv bodies)
    (r : Message.Written) : Link.Inv bodies { l with receiver := (afterWrite r).asReceiver } := by
  obtain ⟨unsent, sender, wire, receiver, delivered⟩ := l
  obtain rfl : receiver = .idle := hidle
  obtain ⟨code, msg, taken, fd⟩ := r
  cases code with
  | error f => exact h.closeReceiver
  | ok code =>
    cases code with
    | kDone => exact Link.inv_step (a := .recv msg) hlen h rfl
    | kWouldBlock => exact h
    | kEOF => exact h.closeReceiver
    | kBrokenPipe => exact h.closeReceiver
    | kError => exact h.closeReceiver

theorem inv_write (hb : b.length < 2 ^ 31) {w : Who} {m : Message} (fd : List WriteResult)
    (hside : s.side w = .sending m) (h : Inv b s) :
    Inv b { s with
      side := Function.update s.side w (afterWrite (m.write fd))
      wire := Function.update s.wire w (s.wire w ++ (m.write fd).taken) } := by
  constructor
  · intro w'
    rcases Who.eq_or w w' with rfl | rfl
    · have hlink := h.link w'
      simp only [link, hside, Side.asSender] at hlink
      have hstep := Link.inv_step (a := .write fd) (Inv.length_lt hb _) hlink rfl
      simpa [link, sends, asSender_afterWrite] using hstep
    · have hlink := h.link w.other
      simp only [link, Who.other_other, hside, Side.asReceiver] at hlink
      have hstep := receiver_afterWrite (Inv.length_lt hb _) rfl hlink (m.write fd)
      simpa [link, sends] using hstep
  · intro w' m' hm'
    rcases Who.eq_or w w' with rfl | rfl
    · simp only [Function.update_self] at hm'
      unfold afterWrite at hm'
      split at hm'
      · cases hm'
        exact ⟨[], Message.filling_onRecv _⟩
      · cases hm'
      · cases hm'
    · simp only [Function.update_of_ne (Who.other_ne w)] at hm'
      exact h.filling _ _ hm'

/-- Where a receiver is: it has got all but `n` of the messages that the other socket has begun to
send, and of the first one of these the part `hs` of its header. -/
theorem Inv.place (h : Inv b s) {w : Who} {m : Message} (hside : s.side w = .receiving m) :
    ∃ hs n, m.Filling hs ∧ s.sends w.other = (s.got w).length + n ∧
      Link.Sender ((List.replicate n b).flatMap frame) (hs ++ s.wire w.other) []
        (s.side w.other).asSender := by
  have hlink := h.link w.other
  simp only [Echo.link, Who.other_other, hside, Side.asReceiver] at hlink
  obtain ⟨-, -, read, hsender, hreceiver⟩ := hlink
  obtain ⟨hs₀, hfill₀⟩ := h.filling w m hside
  obtain ⟨hgot, hle⟩ := h.got_eq w.other
  rw [Who.other_other] at hgot hle
  obtain ⟨n, hn⟩ := Nat.exists_eq_add_of_le hle
  rcases hreceiver with ⟨hs, hfill, hread⟩ | hlost
  · refine ⟨hs, n, hfill, hn, ?_⟩
    rw [hread, hgot, hn, List.replicate_add, List.flatMap_append, List.append_assoc] at hsender
    exact hsender.of_append
  · exact absurd hlost (Message.not_lost_of_filling hfill₀)

theorem Inv.rest (h : Inv b s) {w : Who} {m : Message} (hside : s.side w = .receiving m) :
    ∃ hs, m.Filling hs ∧ hs ++ s.wire w.other <+: frame b := by
  obtain ⟨hs, n, hfill, hn, hsender⟩ := h.place hside
  obtain ⟨-, hle⟩ := h.got_eq w
  have hn1 : n ≤ 1 := by
    unfold sends at hn hle
    cases w <;> simp [Who.other] at hn hle <;> omega
  refine ⟨hs, hfill, hsender.prefix_stream.trans ?_⟩
  interval_cases n
  · exact List.nil_prefix
  · exact (List.flatMap_singleton frame b).symm ▸ List.prefix_rfl

theorem link_afterRead (delivered : List (List UInt8))
    (x : Except Fault (Code × Message × List ReadResult)) :
    Link.afterRead delivered x =
      ((afterRead x).1.asReceiver, delivered ++ (afterRead x).2.1, (afterRead x).2.2) := by
  cases x with
  | error f => simp [Link.afterRead, afterRead, Side.asReceiver]
  | ok x =>
    obtain ⟨code, m, fd⟩ := x
    cases code <;> simp [Link.afterRead, afterRead, Side.asReceiver]

/-- A socket that has read sends what it has got on the other way, or goes on reading, or is
closed. -/
theorem sender_afterRead {bodies : List (List UInt8)} {l : Link}
    {x : Except Fault (Code × Message × List ReadResult)}
    (hlen : ∀ b' ∈ bodies ++ (afterRead x).2.1, b'.length < 2 ^ 31) (hidle : l.sender = .idle)
    (hunsent : l.unsent = []) (h : l.Inv bodies) :
    Link.Inv (bodies ++ (afterRead x).2.1) { l with sender := (afterRead x).1.asSender } := by
  obtain ⟨unsent, sender, wire, receiver, delivered⟩ := l
  obtain rfl : sender = .idle := hidle
  cases x with
  | error f => exact (List.append_nil bodies).symm ▸ h.closeSender
  | ok x =>
    obtain ⟨code, m, fd⟩ := x
    cases code with
    | kDone => exact h.send hlen rfl hunsent rfl
    | kWouldBlock => exact (List.append_nil bodies).symm ▸ h
    | kEOF => exact (List.append_nil bodies).symm ▸ h.closeSender
    | kBrokenPipe => exact (List.append_nil bodies).symm ▸ h.closeSender
    | kError => exact (List.append_nil bodies).symm ▸ h.closeSender

theorem inv_read (hb : b.length < 2 ^ 31) {w : Who} {m : Message} {fd : List ReadResult}
    (hside : s.side w = .receiving m) (hwire : bytesOf fd <+: s.wire w.other) (h : Inv b s) :
    Inv b {
      side := Function.update s.side w (afterRead (m.read fd)).1
      wire := Function.update s.wire w.other
        (bytesOf (afterRead (m.read fd)).2.2 ++ (s.wire w.other).drop (bytesOf fd).length)
      got := Function.update s.got w (s.got w ++ (afterRead (m.read fd)).2.1) } := by
  have hreceiver := h.link w.other
  simp only [link, Who.other_other, hside, Side.asReceiver] at hreceiver
  replace hreceiver :=
    Link.inv_step (a := .read fd) (Inv.length_lt hb _) hreceiver (if_pos hwire)
  simp only [link_afterRead] at hreceiver
  -- whatever was taken out is the body
  have hall : (afterRead (m.read fd)).2.1 =
      List.replicate (afterRead (m.read fd)).2.1.length b :=
    List.eq_replicate_of_mem fun b' hb' => List.eq_of_mem_replicate
      (hreceiver.prefix_bodies.subset (List.mem_append_right _ hb'))
  have hsender := h.link w
  simp only [link, hside, Side.asSender] at hsender
  have hmore : List.replicate (s.sends w) b ++ (afterRead (m.read fd)).2.1 =
      List.replicate (s.sends w + (afterRead (m.read fd)).2.1.length) b := by
    rw [List.replicate_add, ← hall]
  replace hsender := sender_afterRead (x := m.read fd)
    (by rw [hmore]; exact Inv.length_lt hb _) rfl rfl hsender
  rw [hmore] at hsender
  constructor
  · intro w'
    rcases Who.eq_or w w' with rfl | rfl
    · simpa [link, sends, Nat.add_right_comm] using hsender
    · simpa [link, sends] using hreceiver
  · intro w' m' hm'
    rcases Who.eq_or w w' with rfl | rfl
    · obtain ⟨hs, hfill, hrest⟩ := h.rest hside
      simp only [Function.update_self] at hm'
      cases hread : m.read fd with
      | error f => rw [hread] at hm'; cases hm'
      | ok x =>
        obtain ⟨code, m₁, fd'⟩ := x
        rw [hread] at hm'
        cases code with
        | kWouldBlock =>
          cases hm'
          refine read_frame (hb.trans (by decide)) hfill (List.IsPrefix.trans ?_ hrest) hread
          exact (List.prefix_append_right_inj _).mpr hwire
        | kDone => cases hm'
        | kEOF => cases hm'
        | kBrokenPipe => cases hm'
        | kError => cases hm'
    · simp only [Function.update_of_ne (Who.other_ne w)] at hm'
      exact h.filling _ _ hm'

/-- **Every step** keeps both ways as they should be. -/
theorem inv_step {a : Act} (hb : b.length < 2 ^ 31) (h : Inv b s) (hstep : s.step a = some s') :
    Inv b s' := by
  cases a with
  | write w fd =>
    cases hside : s.side w with
    | sending m =>
      simp only [step, hside, Option.some.injEq] at hstep
      exact hstep ▸ inv_write hb fd hside h
    | receiving m => simp [step, hside] at hstep
    | closed => simp [step, hside] at hstep
  | read w fd =>
    cases hside : s.side w with
    | receiving m =>
      simp only [step, hside] at hstep
      split_ifs at hstep with hwire
      cases hstep
      exact inv_read hb hside hwire h
    | sending m => simp [step, hside] at hstep
    | closed => simp [step, hside] at hstep

/-- When both sockets wait and nothing is on the way, everything that was sent has been got. -/
theorem Inv.drained (h : Inv b s) (hne : b ≠ []) {w : Who} {m m' : Message}
    (hside : s.side w = .receiving m) (hother : s.side w.other = .receiving m')
    (hwire : s.wire w.other = []) : s.sends w.other = (s.got w).length := by
  obtain ⟨hs, n, hfill, hn, hsender⟩ := h.place hside
  rw [hother, hwire] at hsender
  change hs ++ [] ++ [].flatMap frame = _ at hsender
  rw [List.flatMap_nil, List.append_nil, List.append_nil] at hsender
  cases n with
  | zero => exact hn
  | succ n =>
    -- a whole frame does not fit into the part of a header
    have hlen := congrArg List.length hsender
    rw [List.replicate_succ, List.flatMap_cons, List.length_append, Message.length_frame] at hlen
    have hle4 := hfill.length_le
    have hpos := List.length_pos_iff.mpr hne
    omega

/-- **The two sockets take turns with one body.** In every run, whatever the cuts and the failures:
all that was received is the body of the client; the client is never ahead of the server, and at
most one message behind; and while neither socket is closed, one of them is sending or some byte is
on its way. -/
theorem conversation {acts : List Act} {len off : UInt32} {msg : Message} (hb : b.length < 2 ^ 31)
    (hne : b ≠ []) (hrun : StepRun.run step (init b len off msg) acts = some s) :
    (∀ w, s.got w = List.replicate (s.got w).length b) ∧
      (s.got .client).length ≤ (s.got .server).length ∧
      (s.got .server).length ≤ (s.got .client).length + 1 ∧
      ((∀ w, s.side w ≠ .closed) → ∃ w, (∃ m, s.side w = .sending m) ∨ s.wire w ≠ []) := by
  have h : Inv b s := StepRun.invariant_of_run (fun _ _ _ h hstep => inv_step hb h hstep) hrun
    (inv_init hb len off msg)
  obtain ⟨hserver, hserver_le⟩ := h.got_eq .client
  obtain ⟨hclient, hclient_le⟩ := h.got_eq .server
  refine ⟨?_, hclient_le, hserver_le, fun hopen => ?_⟩
  · intro w
    cases w with
    | client => exact hclient
    | server => exact hserver
  · by_contra hstall
    push Not at hstall
    have hside : ∀ w, ∃ m, s.side w = .receiving m := by
      intro w
      cases hw : s.side w with
      | sending m => exact absurd hw ((hstall w).1 m)
      | receiving m => exact ⟨m, rfl⟩
      | closed => exact absurd hw (hopen w)
    obtain ⟨m, hm⟩ := hside .client
    obtain ⟨m', hm'⟩ := hside .server
    -- then each of them would have got as many messages as the other one has sent
    have h₁ : s.sends .server = (s.got .client).length := h.drained hne hm hm' (hstall _).2
    have h₂ : s.sends .client = (s.got .server).length := h.drained hne hm' hm (hstall _).2
    unfold sends at h₁ h₂
    simp at h₁ h₂
    omega

/-- The body of the client. -/
def hello : List UInt8 := [104, 101, 108, 108, 111]

/-- The server gets "hello" in two pieces, and the client gets it back in one. -/
def helloRun : List Act :=
  [.write .client [.wrote 1, .eagain], .read .server [.data ⟨[5, 0], by decide⟩, .eagain],
    .write .client [.wrote 1, .wrote 4],
    .read .server [.data ⟨[0, 0, 104, 101, 108, 108, 111], by decide⟩],
    .write .server [.wrote 3, .wrote 4],
    .read .client [.data ⟨[5, 0, 0, 0, 104, 101, 108, 108, 111], by decide⟩]]

theorem conversation_hello :
    ∃ s, StepRun.run step (init hello 0 0 ⟨0, [], 0⟩) helloRun = some s ∧
      s.got .client = [hello] ∧ (s.got .server).length ≤ (s.got .client).length + 1 ∧
        ((∀ w, s.side w ≠ .closed) → ∃ w, (∃ m, s.side w = .sending m) ∨ s.wire w ≠ []) := by
  have hrun : ∃ s, StepRun.run step (init hello 0 0 ⟨0, [], 0⟩) helloRun = some s ∧
      s.got .client = [hello] := ⟨_, rfl, rfl⟩
  obtain ⟨s, hs, hgot⟩ := hrun
  have hconv := conversation (b := hello) (by decide) (by decide) hs
  exact ⟨s, hs, hgot, hconv.2.2⟩

end Echo

end Sperm.Itachi
