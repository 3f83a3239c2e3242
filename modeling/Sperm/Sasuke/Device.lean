import Sperm.Lib.Run

/-!
# The device (`device` in `sasuke/rpc.cc`)

A device polls a front and a back socket and forwards what arrives on one to the other, part by
part. Both directions share one `zmq_msg_t` and one `more` flag.

* `Message`, `Part`, `parts`: multi-part messages, and their parts with the `ZMQ_RCVMORE` boundary.
* `messages`: the messages of a sequence of parts, without the one that has only begun.
* `Socket`: zmq delivers a message with all its parts. `received` and `sent` are what went through.
* `Device.step`: one zmq call of the loop, an arrival, or somebody setting `*stop`.
* `Whole`: a sequence of parts that ends with a message. `whole_split`: at the beginning of the
  parts of a sequence of messages, it has the parts of the first few of them.
* **`device_forwards`**: what was sent on one side is a prefix of what was received on the other,
  and at the top of the loop just the messages received, whole.
-/

namespace Sperm.Sasuke

/-! ## Messages -/

/-- A zmq message: its parts before the last one, and the last. -/
structure Message where
  init : List (List UInt8)
  last : List UInt8
  deriving DecidableEq

/-- A part, and whether more parts of its message follow. -/
structure Part where
  data : List UInt8
  more : Bool
  deriving DecidableEq

def Message.parts (m : Message) : List Part := m.init.map (⟨·, true⟩) ++ [⟨m.last, false⟩]

/-- The last part, if there is one, ends its message. -/
def Whole (l : List Part) : Prop := ∀ p, l.getLast? = some p → p.more = false

theorem whole_nil : Whole [] := nofun

theorem whole_append_singleton {l : List Part} {p : Part} : Whole (l ++ [p]) ↔ p.more = false := by
  rw [Whole, List.getLast?_concat]
  constructor
  · intro h
    exact h p rfl
  · rintro h q hq
    cases hq
    exact h

theorem whole_of_append {l₁ l₂ : List Part} (h : Whole (l₁ ++ l₂)) : Whole l₂ := by
  intro p hp
  refine h p ?_
  rw [List.getLast?_append, hp]
  rfl

theorem parts_of_whole {m : Message} {xs ys : List Part} (h : m.parts = xs ++ ys) (hxs : Whole xs) :
    xs = [] ∨ ys = [] := by
  rcases List.eq_nil_or_concat ys with rfl | ⟨ys, y, rfl⟩
  · exact .inr rfl
  · left
    rw [Message.parts, List.concat_eq_append, ← List.append_assoc] at h
    have hinit := (List.append_inj' h rfl).1
    cases hlast : xs.getLast? with
    | none => exact List.getLast?_eq_none_iff.mp hlast
    | some p =>
      have hp : p ∈ m.init.map (⟨·, true⟩ : List UInt8 → Part) := by
        rw [hinit]
        exact List.mem_append_left _ (List.mem_of_getLast? hlast)
      obtain ⟨bs, -, rfl⟩ := List.mem_map.mp hp
      cases hxs _ hlast

/-- **Whole messages**: where the parts of a sequence of messages are cut behind the end of one, the
sequence is cut. -/
theorem whole_split {ms : List Message} {xs ys : List Part}
    (h : ms.flatMap Message.parts = xs ++ ys) (hxs : Whole xs) :
    ∃ ms₁ ms₂, ms = ms₁ ++ ms₂ ∧ xs = ms₁.flatMap Message.parts := by
  induction ms generalizing xs with
  | nil =>
    rw [List.flatMap_nil, List.nil_eq_append_iff] at h
    exact ⟨[], [], rfl, h.1⟩
  | cons m ms ih =>
    rw [List.flatMap_cons, List.append_eq_append_iff] at h
    obtain ⟨zs, rfl, hzs⟩ | ⟨zs, hm, -⟩ := h
    · obtain ⟨ms₁, ms₂, rfl, hxs'⟩ := ih hzs (whole_of_append hxs)
      exact ⟨m :: ms₁, ms₂, rfl, by rw [List.flatMap_cons, hxs']⟩
    · rcases parts_of_whole hm hxs with rfl | rfl
      · exact ⟨[], m :: ms, rfl, rfl⟩
      · exact ⟨[m], ms, rfl, by rw [List.flatMap_singleton, hm, List.append_nil]⟩

/-- The messages of which all parts are there, behind the parts `init` of the first one. -/
def messagesFrom (init : List (List UInt8)) : List Part → List Message
  | [] => []
  | p :: ps =>
    if p.more then messagesFrom (init ++ [p.data]) ps else ⟨init, p.data⟩ :: messagesFrom [] ps

def messages (l : List Part) : List Message := messagesFrom [] l

theorem messagesFrom_isPrefix (init : List (List UInt8)) (l l' : List Part) :
    messagesFrom init l <+: messagesFrom init (l ++ l') := by
  induction l generalizing init with
  | nil => exact List.nil_prefix
  | cons p l ih =>
    rw [List.cons_append, messagesFrom, messagesFrom]
    split_ifs
    · exact ih _
    · exact (List.prefix_cons_inj _).mpr (ih _)

theorem messagesFrom_parts (init bss : List (List UInt8)) (bs : List UInt8) (l : List Part) :
    messagesFrom init (bss.map (⟨·, true⟩) ++ ⟨bs, false⟩ :: l) =
      ⟨init ++ bss, bs⟩ :: messagesFrom [] l := by
  induction bss generalizing init with
  | nil => rw [List.map_nil, List.nil_append, messagesFrom, if_neg Bool.false_ne_true,
      List.append_nil]
  | cons b bss ih =>
    rw [List.map_cons, List.cons_append, messagesFrom, if_pos rfl, ih, List.append_assoc,
      List.singleton_append]

theorem messages_flatMap (ms : List Message) : messages (ms.flatMap Message.parts) = ms := by
  induction ms with
  | nil => rfl
  | cons m ms ih =>
    rw [List.flatMap_cons, Message.parts, List.append_assoc, List.singleton_append, messages,
      messagesFrom_parts, List.nil_append]
    exact congrArg (m :: ·) ih

theorem messages_isPrefix {l : List Part} {ms : List Message}
    (h : l <+: ms.flatMap Message.parts) : messages l <+: ms := by
  obtain ⟨l', hl'⟩ := h
  have hms := messages_flatMap ms
  rw [← hl'] at hms
  rw [← hms]
  exact messagesFrom_isPrefix [] l l'

/-! ## The loop -/

/-- The two items of the poll. -/
inductive Side where
  | front
  | back
  deriving DecidableEq

def Side.other : Side → Side
  | .front => .back
  | .back => .front

theorem Side.other_injective : Function.Injective Side.other := by
  intro d e h
  cases d <;> cases e <;> first | rfl | cases h

/-- A socket: the messages that arrived on it, the parts still to be received, those received and
those sent. `rcvMore` is the option `ZMQ_RCVMORE`. -/
structure Socket where
  arrived : List Message
  inbox : List Part
  rcvMore : Bool
  received : List Part
  sent : List Part

namespace Socket

def new : Socket := ⟨[], [], false, [], []⟩

/-- All parts of a message become readable. -/
def arrive (k : Socket) (m : Message) : Socket :=
  { k with arrived := k.arrived ++ [m], inbox := k.inbox ++ m.parts }

/-- The part `p` is received and `ps` are left. -/
def take (k : Socket) (p : Part) (ps : List Part) : Socket :=
  { k with inbox := ps, rcvMore := p.more, received := k.received ++ [p] }

/-- `zmq_recv`, which blocks on an empty socket: the content of the `zmq_msg_t` and the socket. -/
def recv (k : Socket) : Option (List UInt8 × Socket) :=
  match k.inbox with
  | [] => none
  | p :: ps => some (p.data, k.take p ps)

/-- `zmq_send` with or without `ZMQ_SNDMORE`. -/
def send (k : Socket) (msg : List UInt8) (sndMore : Bool) : Socket :=
  { k with sent := k.sent ++ [⟨msg, sndMore⟩] }

end Socket

/-- Where the device is: at the top of its loop, before the poll, or before one of the three calls
that forward a part from a side. -/
inductive DevicePc where
  | top
  | poll
  | recv (src : Side)
  | getsockopt (src : Side)
  | send (src : Side)
  | exited
  deriving DecidableEq

/-- The two sockets and the variables of `device`. -/
structure Device where
  socket : Side → Socket
  msg : List UInt8
  more : Bool
  revents : Side → Bool
  stop : Bool
  pc : DevicePc

namespace Device

/-- `more` and `revents` start out with whatever is on the stack. -/
def new (more : Bool) (revents : Side → Bool) : Device :=
  ⟨fun _ => .new, [], more, revents, false, .top⟩

/-- What happens: a message arrives, somebody sets `*stop`, or the device tests it, polls (with the
`revents` it finds), or makes its next call, which may fail. -/
inductive Act where
  | arrive (on : Side) (m : Message)
  | setStop
  | testStop
  | poll (revents : Side → Bool)
  | recv
  | getsockopt
  | send
  | fail

/-- Behind the loop of a side: from the front to the test for the back, from there to the top. -/
def next (s : Device) : Side → DevicePc
  | .front => if s.revents .back then .recv .back else .top
  | .back => .top

def step (s : Device) : Act → Option Device
  | .arrive d m => some { s with socket := Function.update s.socket d ((s.socket d).arrive m) }
  | .setStop => some { s with stop := true }
  | .testStop =>
    match s.pc with
    | .top => some { s with pc := if s.stop then .exited else .poll }
    | _ => none
  | .poll revents =>
    match s.pc with
    | .poll => some { s with
        revents := revents
        pc := if revents .front then .recv .front else if revents .back then .recv .back else .top }
    | _ => none
  | .recv =>
    match s.pc with
    | .recv d => (s.socket d).recv.map fun (msg, k) =>
        { s with socket := Function.update s.socket d k, msg := msg, pc := .getsockopt d }
    | _ => none
  | .getsockopt =>
    match s.pc with
    | .getsockopt d => some { s with more := (s.socket d).rcvMore, pc := .send d }
    | _ => none
  | .send =>
    match s.pc with
    | .send d => some { s with
        socket := Function.update s.socket d.other ((s.socket d.other).send s.msg s.more)
        msg := []
        pc := if s.more then .recv d else s.next d }
    | _ => none
  | .fail =>
    match s.pc with
    | .recv _ | .getsockopt _ | .send _ => some { s with pc := .exited }
    | _ => none

/-! ## The invariant -/

/-- Everything received from a side has been sent on, and it ends with a message. -/
def Done (s : Device) (d : Side) : Prop :=
  (s.socket d.other).sent = (s.socket d).received ∧ Whole (s.socket d).received

/-- Everything received from a side but the last part `p` has been sent on. -/
def Holds (s : Device) (d : Side) (p : Part) : Prop :=
  (s.socket d).received = (s.socket d.other).sent ++ [p]

/-- How far the forwarding from a side is. Only the side that is being served can be in the middle
of a message, and between `recv` and `send` its last part is in `msg`. -/
def Flow (s : Device) (d : Side) : Prop :=
  match s.pc with
  | .top | .poll => s.Done d
  | .recv d' =>
    if d' = d then (s.socket d.other).sent = (s.socket d).received else s.Done d
  | .getsockopt d' => if d' = d then s.Holds d ⟨s.msg, (s.socket d).rcvMore⟩ else s.Done d
  | .send d' => if d' = d then s.Holds d ⟨s.msg, s.more⟩ else s.Done d
  | .exited => (s.socket d.other).sent <+: (s.socket d).received

/-- The parts received and those still to be received are the parts of the messages that arrived. -/
def Stream (s : Device) (d : Side) : Prop :=
  (s.socket d).arrived.flatMap Message.parts = (s.socket d).received ++ (s.socket d).inbox

/-- What a step can do. -/
inductive Step (s : Device) : Device → Prop where
  | arrive (d : Side) (m : Message) :
      Step s { s with socket := Function.update s.socket d ((s.socket d).arrive m) }
  | setStop : Step s { s with stop := true }
  | testStop (h : s.pc = .top) {p : DevicePc} (hp : p = .exited ∨ p = .poll) :
      Step s { s with pc := p }
  | poll (h : s.pc = .poll) (revents : Side → Bool) {p : DevicePc}
      (hp : p = .top ∨ ∃ d, p = .recv d) : Step s { s with revents := revents, pc := p }
  | recv {d : Side} (h : s.pc = .recv d) {p : Part} {ps : List Part}
      (hin : (s.socket d).inbox = p :: ps) :
      Step s { s with
        socket := Function.update s.socket d ((s.socket d).take p ps)
        msg := p.data
        pc := .getsockopt d }
  | getsockopt {d : Side} (h : s.pc = .getsockopt d) :
      Step s { s with more := (s.socket d).rcvMore, pc := .send d }
  | send {d : Side} (h : s.pc = .send d) {p : DevicePc}
      (hp : s.more = true ∧ p = .recv d ∨ s.more = false ∧ (p = .top ∨ p = .recv d.other)) :
      Step s { s with
        socket := Function.update s.socket d.other ((s.socket d.other).send s.msg s.more)
        msg := []
        pc := p }
  | fail : Step s { s with pc := .exited }

theorem next_cases (s : Device) (d : Side) : s.next d = .top ∨ s.next d = .recv d.other := by
  cases d with
  | front =>
    rw [next]
    split_ifs
    · exact .inr rfl
    · exact .inl rfl
  | back => exact .inl rfl

theorem step_cases {s s' : Device} {a : Act} (hs : s.step a = some s') : Step s s' := by
  cases a with
  | arrive d m => cases hs; exact .arrive d m
  | setStop => cases hs; exact .setStop
  | testStop =>
    rw [step] at hs
    split at hs <;> cases hs
    next h =>
    refine .testStop h ?_
    split_ifs
    · exact .inl rfl
    · exact .inr rfl
  | poll revents =>
    rw [step] at hs
    split at hs <;> cases hs
    next h =>
    refine .poll h revents ?_
    split_ifs
    · exact .inr ⟨.front, rfl⟩
    · exact .inr ⟨.back, rfl⟩
    · exact .inl rfl
  | recv =>
    rw [step] at hs
    split at hs
    · next d h =>
      cases hin : (s.socket d).inbox with
      | nil => simp [Socket.recv, hin] at hs
      | cons p ps =>
        simp only [Socket.recv, hin, Option.map_some, Option.some.injEq] at hs
        subst hs
        exact .recv h hin
    · cases hs
  | getsockopt =>
    rw [step] at hs
    split at hs <;> cases hs
    next d h => exact .getsockopt h
  | send =>
    rw [step] at hs
    split at hs <;> cases hs
    next d h =>
    refine .send h ?_
    cases s.more with
    | true => exact .inl ⟨rfl, rfl⟩
    | false => exact .inr ⟨rfl, s.next_cases d⟩
  | fail =>
    rw [step] at hs
    split at hs <;> cases hs <;> exact .fail

theorem stream_step {s s' : Device} (h : ∀ d, s.Stream d) (hs : Step s s') : ∀ d, s'.Stream d := by
  intro d
  have hd := h d
  unfold Stream at hd ⊢
  cases hs with
  | arrive e m =>
    by_cases hde : d = e
    · subst hde
      simp [Socket.arrive, hd]
    · simp [Function.update_of_ne hde, hd]
  | @recv e _ p ps hin =>
    by_cases hde : d = e
    · subst hde
      simp [Socket.take, hd, hin]
    · simp [Function.update_of_ne hde, hd]
  | @send e =>
    by_cases hde : d = e.other
    · subst hde
      simpa [Socket.send] using hd
    · simpa [Function.update_of_ne hde] using hd
  | _ => exact hd

/-! ## The flow from each side -/

theorem field_update {α : Type} (field : Socket → α) {f : Side → Socket} {e : Side} {k : Socket}
    (h : field k = field (f e)) (d : Side) :
    field (Function.update f e k d) = field (f d) := by
  by_cases hde : d = e
  · subst hde
    rw [Function.update_self, h]
  · rw [Function.update_of_ne hde]

section

variable {s : Device} {d e : Side}

theorem flow_arrive {m : Message} :
    Flow { s with socket := Function.update s.socket e ((s.socket e).arrive m) } d ↔ s.Flow d := by
  have hsent := field_update (f := s.socket) (k := (s.socket e).arrive m) (·.sent) rfl
  have hreceived := field_update (f := s.socket) (k := (s.socket e).arrive m) (·.received) rfl
  have hmore := field_update (f := s.socket) (k := (s.socket e).arrive m) (·.rcvMore) rfl
  simp only [Flow, Done, Holds, hsent, hreceived, hmore]

theorem sent_take (p : Part) (ps : List Part) :
    (Function.update s.socket e ((s.socket e).take p ps) d).sent = (s.socket d).sent :=
  field_update (f := s.socket) (k := (s.socket e).take p ps) (·.sent) rfl d

theorem received_send (msg : List UInt8) (more : Bool) :
    (Function.update s.socket e ((s.socket e).send msg more) d).received = (s.socket d).received :=
  field_update (f := s.socket) (k := (s.socket e).send msg more) (·.received) rfl d

theorem Done.forwarded (h : s.Done d) :
    (s.socket d.other).sent <+: (s.socket d).received := by
  exact h.1 ▸ List.prefix_refl _

theorem Done.flow (h : s.Done d) (hpc : s.pc = .top ∨ ∃ e, s.pc = .recv e) : s.Flow d := by
  rcases hpc with hpc | ⟨e, hpc⟩
  · simp only [Flow, hpc]
    exact h
  · simp only [Flow, hpc]
    split_ifs
    · exact h.1
    · exact h

theorem Flow.forwarded (h : s.Flow d) :
    (s.socket d.other).sent <+: (s.socket d).received := by
  unfold Flow at h
  split at h
  · exact h.forwarded
  · exact h.forwarded
  · split_ifs at h
    · exact h ▸ List.prefix_refl _
    · exact h.forwarded
  · split_ifs at h
    · rw [h]
      exact List.prefix_append _ _
    · exact h.forwarded
  · split_ifs at h
    · rw [h]
      exact List.prefix_append _ _
    · exact h.forwarded
  · exact h

theorem flow_take {p : Part} {ps : List Part} (hpc : s.pc = .recv e) (hd : s.Flow d) :
    Flow { s with
      socket := Function.update s.socket e ((s.socket e).take p ps)
      msg := p.data
      pc := .getsockopt e } d := by
  simp only [Flow, hpc] at hd
  by_cases hed : e = d
  · subst hed
    rw [if_pos rfl] at hd
    simp only [Flow, Holds, if_true, sent_take, Function.update_self, hd]
    rfl
  · rw [if_neg hed] at hd
    simp only [Flow, if_neg hed, Done, sent_take, Function.update_of_ne (Ne.symm hed)]
    exact hd

/-- The part in `msg` is sent on. It was the last of its message unless `more`. -/
theorem flow_send {p : DevicePc} (hpc : s.pc = .send e)
    (hp : s.more = true ∧ p = .recv e ∨ s.more = false ∧ (p = .top ∨ p = .recv e.other))
    (hd : s.Flow d) :
    Flow { s with
      socket := Function.update s.socket e.other ((s.socket e.other).send s.msg s.more)
      msg := []
      pc := p } d := by
  simp only [Flow, hpc] at hd
  by_cases hed : e = d
  · subst hed
    rw [if_pos rfl, Holds] at hd
    have hsent : (Function.update s.socket e.other ((s.socket e.other).send s.msg s.more)
        e.other).sent = (s.socket e).received := by
      rw [Function.update_self, hd]
      rfl
    rcases hp with ⟨-, rfl⟩ | ⟨hmore, hp⟩
    · simp only [Flow, if_true, received_send, hsent]
    · refine Done.flow ⟨?_, ?_⟩ (hp.imp_right fun h => ⟨e.other, h⟩)
      · rw [received_send, hsent]
      · rw [received_send, hd, whole_append_singleton]
        exact hmore
  · rw [if_neg hed] at hd
    refine Done.flow ⟨?_, ?_⟩ ?_
    · dsimp only
      rw [received_send, Function.update_of_ne fun h => hed (Side.other_injective h).symm, hd.1]
    · rw [received_send]
      exact hd.2
    · rcases hp with ⟨-, hp⟩ | ⟨-, hp | hp⟩
      · exact .inr ⟨e, hp⟩
      · exact .inl hp
      · exact .inr ⟨e.other, hp⟩

end

theorem flow_step {s s' : Device} (h : ∀ d, s.Flow d) (hs : Step s s') : ∀ d, s'.Flow d := by
  intro d
  have hd := h d
  cases hs with
  | arrive e m => exact flow_arrive.mpr hd
  | setStop => exact hd
  | testStop hpc hp =>
    rw [Flow, hpc] at hd
    rcases hp with rfl | rfl
    · exact hd.forwarded
    · exact hd
  | poll hpc revents hp =>
    rw [Flow, hpc] at hd
    exact Done.flow hd hp
  | recv hpc hin => exact flow_take hpc hd
  | @getsockopt e hpc =>
    simp only [Flow, hpc] at hd ⊢
    by_cases hed : e = d
    · subst hed
      exact hd
    · rw [if_neg hed] at hd ⊢
      exact hd
  | send hpc hp => exact flow_send hpc hp hd
  | fail => exact hd.forwarded

structure Inv (s : Device) : Prop where
  stream : ∀ d, s.Stream d
  flow : ∀ d, s.Flow d

theorem inv_new (more : Bool) (revents : Side → Bool) : (new more revents).Inv :=
  ⟨fun _ => rfl, fun _ => ⟨rfl, whole_nil⟩⟩

theorem inv_step (s : Device) (a : Act) (s' : Device) (h : s.Inv) (hs : s.step a = some s') :
    s'.Inv :=
  ⟨stream_step h.stream (step_cases hs), flow_step h.flow (step_cases hs)⟩

/-- The messages that have been sent whole are the first ones that arrived. -/
theorem Inv.messages_sent {s : Device} (h : s.Inv) (d : Side) :
    messages (s.socket d.other).sent <+: (s.socket d).arrived := by
  refine messages_isPrefix ((h.flow d).forwarded.trans ?_)
  rw [h.stream d]
  exact List.prefix_append _ _

end Device

/-- **The device forwards faithfully**: in any run, whatever arrives and whatever the polls report,
the parts sent on one side are a prefix of the parts received on the other, with their contents and
their `more` flags, and at the top of the loop they are the parts of the first few messages that
arrived there, whole. -/
theorem device_forwards {more : Bool} {revents : Side → Bool} {as : List Device.Act} {s : Device}
    (hrun : StepRun.run Device.step (.new more revents) as = some s) :
    (∀ d, (s.socket d.other).sent <+: (s.socket d).received) ∧
      (s.pc = .top → ∀ d, (s.socket d.other).sent = (s.socket d).received ∧
        ∃ ms₁ ms₂, (s.socket d).arrived = ms₁ ++ ms₂ ∧
          (s.socket d.other).sent = ms₁.flatMap Message.parts) := by
  have hinv := StepRun.invariant_of_run Device.inv_step hrun (Device.inv_new more revents)
  refine ⟨fun d => (hinv.flow d).forwarded, fun htop d => ?_⟩
  have hd := hinv.flow d
  rw [Device.Flow, htop] at hd
  obtain ⟨ms₁, ms₂, harrived, hreceived⟩ := whole_split (hinv.stream d) hd.2
  exact ⟨hd.1, ms₁, ms₂, harrived, by rw [hd.1, hreceived]⟩

/-- A message of two parts, the first empty, and one of a single part, to be forwarded in opposite
directions after one poll. -/
def crossing : List Device.Act :=
  [.arrive .front ⟨[[]], [1]⟩, .arrive .back ⟨[], [2]⟩, .testStop, .poll fun _ => true, .recv,
    .getsockopt, .send, .recv, .getsockopt, .send, .recv, .getsockopt, .send]

theorem device_forwards_crossing : ∃ s,
    StepRun.run Device.step (.new true fun _ => true) crossing = some s ∧
      (s.socket .back).sent = [⟨[], true⟩, ⟨[1], false⟩] ∧ (s.socket .front).sent = [⟨[2], false⟩] ∧
        ∀ d, (s.socket d.other).sent = (s.socket d).received := by
  have h : ((StepRun.run Device.step (.new true fun _ => true) crossing).any fun s =>
      decide (s.pc = .top ∧ (s.socket .back).sent = [⟨[], true⟩, ⟨[1], false⟩] ∧
        (s.socket .front).sent = [⟨[2], false⟩])) = true := by
    decide
  obtain ⟨s, hs, hp⟩ := (Option.any_eq_true _ _).mp h
  obtain ⟨htop, hback, hfront⟩ := of_decide_eq_true hp
  exact ⟨s, hs, hback, hfront, fun d => ((device_forwards hs).2 htop d).1⟩

end Sperm.Sasuke
