import Sperm.Common.Serializer
import Sperm.Lib.Run

/-!
# RPC workers (`sasuke/rpc.h`, `sasuke/rpc.cc`, `sasuke/proto_rpc.h`)

A worker thread polls a `ZMQ_REP` socket, hands every request to the call back and sends what comes
out of it.

* `Service`, `Dispatcher` and `ServiceCallBack.handle`; `protoService` is `proto_rpc::Service`.
* `RepSocket`: a socket that alternates between `recv` and `send`.
* `Server.turn`: one turn of the loop of `rpc_thread_function`; `Server.step` puts arriving messages
  and `stop` between the turns.
* `Refused`: the requests that `handle` turns down, `handle_fails_iff`.
* **`answered_iff_not_refused`**: a worker at the top of its loop has answered everything it
  received exactly when it never received a refused request.
-/

namespace Sperm.Sasuke

variable {σ : Type}

/-! ## Services -/

/-- A registered service: the virtual functions of its request, its response and itself. What the
services share and change between requests is a state `σ`. -/
structure Service (σ : Type) where
  Request : Type
  Response : Type
  allocateRequest : Request
  allocateResponse : Response
  deserialize : Request → ReadableByteArray → Except Fault (Bool × Request × ReadableByteArray)
  run : Request → Response → σ → Response × σ
  serialize : Response → WriteableByteArray → Except Fault (Bool × WriteableByteArray)

/-- `std::map<std::string, Service*>`. -/
abbrev Dispatcher (σ : Type) : Type 1 := List UInt8 → Option (Service σ)

/-- `registerService(method, service)`. -/
def Dispatcher.registerService (d : Dispatcher σ) (method : List UInt8) (service : Service σ) :
    Dispatcher σ := fun m => if m = method then some service else d m

/-- `proto_rpc::Service<REQUEST, RESPONSE>` with its `handleRequest`; `new REQUEST()` is `req` and
`new RESPONSE()` is `res`. -/
def protoService {ι : Type} {T : ι → Type} (env : Env) (pb : Protobuf T) {i j : ι} (req : T i)
    (res : T j) (handleRequest : T i → T j → σ → T j × σ) : Service σ where
  Request := T i
  Response := T j
  allocateRequest := req
  allocateResponse := res
  deserialize := deserializeFromByteArray pb
  run := handleRequest
  serialize := serializeToByteArray env pb

/-- `deserialize_method(method, bytes)`. -/
def deserializeMethod (env : Env) (method : List UInt8) (r : ReadableByteArray) :
    Except Fault (Bool × List UInt8 × ReadableByteArray) := deserializeString env method r

/-- `serialize_response(response, bytes)`. -/
def serializeResponse (service : Service σ) (response : service.Response)
    (w : WriteableByteArray) : Except Fault (Bool × WriteableByteArray) :=
  service.serialize response w

/-- `ServiceCallBack::handle(in_bytes, out_bytes)`: the services after it, whether it returned `0`,
and the out bytes. -/
def handle (env : Env) (d : Dispatcher σ) (s : σ) (r : ReadableByteArray)
    (w : WriteableByteArray) : Except Fault (σ × Bool × WriteableByteArray) :=
  match deserializeMethod env [] r with
  | .error f => .error f
  | .ok (false, _, _) => .ok (s, false, w)
  | .ok (true, method, r') =>
    match d method with
    | none => .ok (s, false, w)
    | some service =>
      match service.deserialize service.allocateRequest r' with
      | .error f => .error f
      | .ok (false, _, _) => .ok (s, false, w)
      | .ok (true, request, _) =>
        let (response, s') := service.run request service.allocateResponse s
        match serializeResponse service response w with
        | .error f => .error f
        | .ok (b, w') => .ok (s', b, w')

/-! ## The worker -/

/-- The payload of a `zmq_msg_t`, in memory that goes on behind it. -/
structure Msg where
  data : ℕ → UInt8
  size : ℕ
  size_lt : size < 2 ^ 63

def Msg.bytes (m : Msg) : ReadableByteArray := .new m.data m.size m.size_lt

/-- Which operation a `ZMQ_REP` socket allows next. -/
inductive RepState where
  | ready
  | mustReply
  deriving DecidableEq

structure RepSocket where
  state : RepState
  inbox : List Msg
  sent : List (List UInt8)

namespace RepSocket

/-- `ZMQ_POLLIN`. -/
def pollIn (s : RepSocket) : Bool := s.state = .ready && !s.inbox.isEmpty

/-- `zmq_recv`, `none` when it is not allowed or there is nothing. -/
def recv (s : RepSocket) : Option (Msg × RepSocket) :=
  match s.state, s.inbox with
  | .ready, m :: ms => some (m, { s with state := .mustReply, inbox := ms })
  | _, _ => none

/-- `zmq_send`, `none` when it is not allowed. -/
def send (s : RepSocket) (bs : List UInt8) : Option RepSocket :=
  match s.state with
  | .ready => none
  | .mustReply => some { s with state := .ready, sent := s.sent ++ [bs] }

end RepSocket

/-- Where the thread is: at the top of the loop, returned, or taken down by the process. -/
inductive Phase where
  | top
  | exited
  | aborted (f : Fault)
  deriving DecidableEq

/-- A worker thread; `received` are the messages it took, each with the services at that time. -/
structure Worker (σ : Type) where
  socket : RepSocket
  stop : Bool
  phase : Phase
  services : σ
  received : List (σ × Msg)

def Worker.init (s : σ) : Worker σ := ⟨⟨.ready, [], []⟩, false, .top, s, []⟩

/-- How zmq behaves in one turn of the loop. -/
inductive Io where
  | fine
  | timeout
  | pollFails
  | recvFails
  | sendFails
  deriving DecidableEq

inductive Event where
  | arrive (m : Msg)
  | stop
  | turn (io : Io)

structure Server (σ : Type) where
  env : Env
  callBack : Option (Dispatcher σ)

namespace Server

/-- The turn of the loop after `_zmq_recv` gave `m`. -/
def serve (server : Server σ) (io : Io) (w : Worker σ) (m : Msg) : Worker σ :=
  match server.callBack with
  | none => { w with phase := .aborted .fatal }
  | some d =>
    match handle server.env d w.services m.bytes (.new true fun _ => 0) with
    | .error f => { w with phase := .aborted f }
    -- `continue`
    | .ok (s, false, _) => { w with services := s }
    | .ok (s, true, out) =>
      match if io = .sendFails then none else w.socket.send out.contents with
      | none => { w with services := s, phase := .exited }
      | some socket => { w with services := s, socket := socket }

/-- One turn of the loop of `rpc_thread_function`. -/
def turn (server : Server σ) (io : Io) (w : Worker σ) : Worker σ :=
  if w.stop then { w with phase := .exited }
  else if io = .pollFails then { w with phase := .exited }
  else if io = .timeout ∨ w.socket.pollIn = false then w
  else
    match if io = .recvFails then none else w.socket.recv with
    | none => { w with phase := .exited }
    | some (m, socket) =>
      server.serve io { w with socket := socket, received := w.received ++ [(w.services, m)] } m

/-- What happens to a worker. -/
def step (server : Server σ) (w : Worker σ) : Event → Option (Worker σ)
  | .arrive m => some { w with socket := { w.socket with inbox := w.socket.inbox ++ [m] } }
  | .stop => some { w with stop := true }
  | .turn io => if w.phase = .top then some (server.turn io w) else none

end Server

/-! ## Refused requests -/

/-- The requests `handle` turns down. -/
inductive Refused (env : Env) (d : Dispatcher σ) (s : σ) (m : Msg) : Prop where
  | method {method : List UInt8} {r : ReadableByteArray}
      (h : deserializeMethod env [] m.bytes = .ok (false, method, r))
  | unknown {method : List UInt8} {r : ReadableByteArray}
      (h : deserializeMethod env [] m.bytes = .ok (true, method, r)) (hd : d method = none)
  | request {method : List UInt8} {r r' : ReadableByteArray} {service : Service σ}
      {request : service.Request}
      (h : deserializeMethod env [] m.bytes = .ok (true, method, r)) (hd : d method = some service)
      (hreq : service.deserialize service.allocateRequest r = .ok (false, request, r'))
  | response {method : List UInt8} {r r' : ReadableByteArray} {service : Service σ}
      {request : service.Request} {w : WriteableByteArray}
      (h : deserializeMethod env [] m.bytes = .ok (true, method, r)) (hd : d method = some service)
      (hreq : service.deserialize service.allocateRequest r = .ok (true, request, r'))
      (hres : serializeResponse service (service.run request service.allocateResponse s).1
        (.new true fun _ => 0) = .ok (false, w))

theorem handle_fails_iff {env : Env} {d : Dispatcher σ} {s : σ} {m : Msg} :
    (∃ s' w, handle env d s m.bytes (.new true fun _ => 0) = .ok (s', false, w)) ↔
      Refused env d s m := by
  constructor
  · rintro ⟨s', w, h⟩
    unfold handle at h
    split at h
    · cases h
    · next method r hm => exact .method hm
    · next method r hm =>
      split at h
      · next hd => exact .unknown hm hd
      · next service hd =>
        split at h
        · cases h
        · next request r' hreq => exact .request hm hd hreq
        · next request r' hreq =>
          dsimp only at h
          split at h
          · cases h
          · next b w' hres =>
            cases h
            exact .response hm hd hreq hres
  · intro h
    cases h with
    | method hm => exact ⟨s, .new true fun _ => 0, by simp only [handle, hm]⟩
    | unknown hm hd => exact ⟨s, .new true fun _ => 0, by simp only [handle, hm, hd]⟩
    | request hm hd hreq => exact ⟨s, .new true fun _ => 0, by simp only [handle, hm, hd, hreq]⟩
    | @response _ _ _ service request w hm hd hreq hres =>
      exact ⟨(service.run request service.allocateResponse s).2, w, by
        simp only [handle, hm, hd, hreq, hres]⟩

/-! ## Every request is answered -/

namespace Server

variable (server : Server σ)

/-- A received message that the call back turned down. -/
def Refuses (p : σ × Msg) : Prop := ∃ d, server.callBack = some d ∧ Refused server.env d p.1 p.2

/-- The socket is ready to receive, and there is one reply for each request. -/
def Answered (w : Worker σ) : Prop :=
  w.socket.state = .ready ∧ w.socket.sent.length = w.received.length

/-- The socket waits for a reply that the worker does not send. -/
def Stuck (w : Worker σ) : Prop :=
  w.socket.state = .mustReply ∧ ∃ p ∈ w.received, server.Refuses p

/-- At the top of its loop a worker has answered everything and refused nothing, or is stuck. -/
def Inv (w : Worker σ) : Prop :=
  w.phase = .top → Answered w ∧ (∀ p ∈ w.received, ¬ server.Refuses p) ∨ server.Stuck w

variable {server}

/-- A worker that comes back to the top of its loop has refused the request, or sent one reply. -/
theorem serve_top {io : Io} {w : Worker σ} {m : Msg} (hw : w.socket.state = .mustReply)
    (htop : (server.serve io w m).phase = .top) :
    (server.serve io w m).received = w.received ∧
      ((server.serve io w m).socket = w.socket ∧ server.Refuses (w.services, m) ∨
        ¬ server.Refuses (w.services, m) ∧ (server.serve io w m).socket.state = .ready ∧
          (server.serve io w m).socket.sent.length = w.socket.sent.length + 1) := by
  cases hcb : server.callBack with
  | none => simp [serve, hcb] at htop
  | some d =>
    have hrefuses : server.Refuses (w.services, m) ↔ Refused server.env d w.services m := by
      simp [Refuses, hcb]
    rw [hrefuses, ← handle_fails_iff]
    cases hh : handle server.env d w.services m.bytes (.new true fun _ => 0) with
    | error f => simp [serve, hcb, hh] at htop
    | ok r =>
      obtain ⟨s, b, out⟩ := r
      cases b with
      | false =>
        have hs : server.serve io w m = { w with services := s } := by simp only [serve, hcb, hh]
        rw [hs]
        exact ⟨rfl, .inl ⟨rfl, s, out, rfl⟩⟩
      | true =>
        by_cases hio : io = .sendFails
        · simp [serve, hcb, hh, hio] at htop
        · have hs : server.serve io w m = { w with
              services := s
              socket := { w.socket with
                state := .ready
                sent := w.socket.sent ++ [out.contents] } } := by
            simp only [serve, hcb, hh, if_neg hio, RepSocket.send, hw]
          rw [hs]
          exact ⟨rfl, .inr ⟨by simp, rfl, List.length_append⟩⟩

theorem turn_inv {io : Io} {w : Worker σ} (htop : w.phase = .top) (h : server.Inv w) :
    server.Inv (server.turn io w) := by
  unfold turn
  split_ifs with hstop hpoll hidle hrecv
  · nofun
  · nofun
  · exact h
  · nofun
  · -- the poll reported input, so the socket was ready
    rw [not_or, Bool.not_eq_false, RepSocket.pollIn, Bool.and_eq_true, decide_eq_true_iff] at hidle
    obtain ⟨-, hready, hne⟩ := hidle
    obtain ⟨⟨-, hlen⟩, hnone⟩ | ⟨hmust, -⟩ := h htop
    · cases hin : w.socket.inbox with
      | nil => rw [hin] at hne; cases hne
      | cons m ms =>
        simp only [RepSocket.recv, hready, hin]
        intro htop'
        obtain ⟨hrec, ⟨hsock, href⟩ | ⟨hnot, hst, hsent⟩⟩ := serve_top rfl htop'
        · refine .inr ⟨by rw [hsock], (w.services, m), ?_, href⟩
          rw [hrec]
          exact List.mem_append_right _ (List.mem_singleton_self _)
        · refine .inl ⟨⟨hst, ?_⟩, fun p hp => ?_⟩
          · rw [hsent, hrec, List.length_append, hlen]
            rfl
          · rw [hrec, List.mem_append, List.mem_singleton] at hp
            rcases hp with hp | rfl
            · exact hnone p hp
            · exact hnot
    · rw [hready] at hmust
      cases hmust

theorem step_inv (w : Worker σ) (e : Event) (w' : Worker σ) (h : server.Inv w)
    (hs : server.step w e = some w') : server.Inv w' := by
  cases e with
  | arrive m =>
    rw [step, Option.some.injEq] at hs
    subst hs
    exact h
  | stop =>
    rw [step, Option.some.injEq] at hs
    subst hs
    exact h
  | turn io =>
    rw [step] at hs
    split_ifs at hs with htop
    rw [Option.some.injEq] at hs
    subst hs
    exact turn_inv htop h

theorem inv_init (s : σ) : server.Inv (.init s) := fun _ => .inl ⟨⟨rfl, rfl⟩, nofun⟩

/-- **Every request is answered, unless one was refused**: whatever arrives and whenever polls time
out, a worker at the top of its loop has its socket ready and one reply for each request exactly
when it received no refused request. -/
theorem answered_iff_not_refused {s : σ} {es : List Event} {w : Worker σ}
    (hrun : StepRun.run server.step (.init s) es = some w) (htop : w.phase = .top) :
    Answered w ↔ ∀ p ∈ w.received, ¬ server.Refuses p := by
  obtain ⟨ha, hn⟩ | ⟨hmust, p, hp, href⟩ := StepRun.invariant_of_run step_inv hrun (inv_init s) htop
  · exact ⟨fun _ => hn, fun _ => ha⟩
  · constructor
    · intro ha
      rw [ha.1] at hmust
      cases hmust
    · intro h
      exact absurd href (h p hp)

end Server

/-! ## An echo server -/

/-- A server whose only method is `"e"`: it sends the request back. -/
def echoServer : Server Unit where
  env := roomy
  callBack := some (Dispatcher.registerService (fun _ => none) [0x65]
    (protoService roomy flagPb (i := ()) (j := ()) false false fun request _ s => (request, s)))

/-- The method `"e"` and the message `true`. -/
def echoMsg : Msg := ⟨fun i => [0x02, 0x65, 0x04, 0x08, 0x01].getD i 0, 5, by norm_num⟩

/-- The method `"x"`, which nobody registered. -/
def unknownMsg : Msg := ⟨fun i => [0x02, 0x78].getD i 0, 2, by norm_num⟩

theorem answered_echo : ∃ w,
    StepRun.run echoServer.step (.init ()) [.arrive echoMsg, .turn .timeout, .turn .fine] = some w ∧
      w.socket.sent = [[0x04, 0x08, 0x01]] ∧ Server.Answered w ∧
        ∀ p ∈ w.received, ¬ echoServer.Refuses p := by
  have h : ((StepRun.run echoServer.step (.init ())
      [.arrive echoMsg, .turn .timeout, .turn .fine]).any fun w => decide (w.phase = .top ∧
        w.socket.sent = [[0x04, 0x08, 0x01]] ∧ w.socket.state = .ready ∧
          w.socket.sent.length = w.received.length)) = true := by
    decide +kernel
  obtain ⟨w, hw, hp⟩ := (Option.any_eq_true _ _).mp h
  obtain ⟨htop, hsent, ha⟩ := of_decide_eq_true hp
  exact ⟨w, hw, hsent, ha, (Server.answered_iff_not_refused hw htop).mp ha⟩

/-- After a request for an unknown method the worker is back at the top of its loop without having
replied, and a valid request waits in front of a socket that reports no input. -/
theorem unknown_method_strands_worker : ∃ w,
    StepRun.run echoServer.step (.init ())
      [.arrive unknownMsg, .turn .fine, .arrive echoMsg, .turn .fine] = some w ∧
      w.phase = .top ∧ ¬ Server.Answered w ∧ w.socket.sent = [] ∧ w.received.length = 1 ∧
        w.socket.inbox.length = 1 ∧ w.socket.pollIn = false := by
  have h : ((StepRun.run echoServer.step (.init ())
      [.arrive unknownMsg, .turn .fine, .arrive echoMsg, .turn .fine]).any fun w =>
        decide (w.phase = .top ∧ w.socket.sent = [] ∧ w.received.length = 1 ∧
          w.socket.inbox.length = 1 ∧ w.socket.pollIn = false)) = true := by
    decide +kernel
  obtain ⟨w, hw, hp⟩ := (Option.any_eq_true _ _).mp h
  obtain ⟨htop, hsent, hrec, hin⟩ := of_decide_eq_true hp
  refine ⟨w, hw, htop, fun ha => ?_, hsent, hrec, hin⟩
  have hlen := ha.2
  rw [hsent, hrec] at hlen
  cases hlen

end Sperm.Sasuke
