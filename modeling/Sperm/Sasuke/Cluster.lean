import Sperm.Lib.Channel
import Sperm.Sasuke.Connection
import Sperm.Sasuke.Device

/-!
# Clients, device and workers (`Client`, `Server::run` and `device` in `sasuke/rpc.cc`)

Any number of clients call a server. Its device passes the requests from the front socket on to the
worker threads, and their replies back. What zmq does between the sockets is not in this repository:
it is a parameter, with what is promised of it.

* `Worker.Inv`: what a worker has sent is what `handle` made of what it has received, in order.
* `Cluster`, `Cluster.step`: the clients, the device and the workers, each taking its own steps.
* `Zmq`, `Zmq.Delivers`: messages may be late, change places or get lost, but none is made up and
  none arrives twice; a request carries the address of its connection, a worker's reply the one of
  the request before it, and a reply goes to the connection whose address it carries.
* `Zmq.origin`: the request whose reply answered a request. `Zmq.origin_spec`, **`Zmq.sound`**: it
  was sent on the same connection, and no reply answers two requests.
* `TypedService`: services for the requests of the clients.
* **`call_runs_service_once`**: a call that returns `0` was run by one worker, once, and its
  response is the one of the service that is registered for its method.
-/

namespace Sperm.Sasuke

open Channel

variable {σ Request Response ι κ : Type}

theorem getElem?_of_isPrefix {α : Type} {l l' : List α} {k : ℕ} {a : α} (h : l <+: l')
    (hk : l[k]? = some a) : l'[k]? = some a := by
  obtain ⟨r, rfl⟩ := h
  rw [List.getElem?_append_left (List.getElem?_eq_some_iff.mp hk).1, hk]

/-! ## What a worker has sent -/

/-- The bytes of a message. -/
def Msg.contents (m : Msg) : List UInt8 := m.bytes.rest

namespace Worker

/-- The reply `bs` is what the call back made of the message `p.2`, with the services at `p.1`. -/
def Replies (server : Server σ) (p : σ × Msg) (bs : List UInt8) : Prop :=
  ∃ d s out, server.callBack = some d ∧
    handle server.env d p.1 p.2.bytes (.new true fun _ => 0) = .ok (s, true, out) ∧
      out.contents = bs

/-- The replies of a worker are for the first messages that it received, one for each. At the top of
its loop with a socket that is ready, it has replied to all of them. -/
structure Inv (server : Server σ) (w : Worker σ) : Prop where
  replies : ∀ (k : ℕ) (bs : List UInt8), w.socket.sent[k]? = some bs →
    ∃ p : σ × Msg, w.received[k]? = some p ∧ Replies server p bs
  turns : w.phase = .top → w.socket.state = .ready → w.socket.sent.length = w.received.length

/-- The messages that arrived at a worker. -/
def arrived (w : Worker σ) : List Msg := w.received.map Prod.snd ++ w.socket.inbox

theorem inv_init (server : Server σ) (s : σ) : Inv server (.init s) :=
  ⟨fun _ _ h => (List.not_mem_nil (List.mem_of_getElem? h)).elim, fun _ _ => rfl⟩

variable {server : Server σ} {w w' : Worker σ} {m : Msg}

/-- Serving a message sends at most its reply, and the socket stays busy if there is none. -/
theorem serve_cases (io : Io) (hmust : w.socket.state = .mustReply) :
    (server.serve io w m).received = w.received ∧
      ((server.serve io w m).socket.sent = w.socket.sent ∧
          ((server.serve io w m).phase = .top →
            (server.serve io w m).socket.state = .mustReply) ∨
        ∃ bs, Replies server (w.services, m) bs ∧
          (server.serve io w m).socket.sent = w.socket.sent ++ [bs]) := by
  cases hcb : server.callBack with
  | none =>
    have hs : server.serve io w m = { w with phase := .aborted .fatal } := by
      simp only [Server.serve, hcb]
    rw [hs]
    exact ⟨rfl, .inl ⟨rfl, fun h => by cases h⟩⟩
  | some d =>
    cases hh : handle server.env d w.services m.bytes (.new true fun _ => 0) with
    | error f =>
      have hs : server.serve io w m = { w with phase := .aborted f } := by
        simp only [Server.serve, hcb, hh]
      rw [hs]
      exact ⟨rfl, .inl ⟨rfl, fun h => by cases h⟩⟩
    | ok r =>
      obtain ⟨s, b, out⟩ := r
      cases b with
      | false =>
        have hs : server.serve io w m = { w with services := s } := by
          simp only [Server.serve, hcb, hh]
        rw [hs]
        exact ⟨rfl, .inl ⟨rfl, fun _ => hmust⟩⟩
      | true =>
        by_cases hio : io = .sendFails
        · have hs : server.serve io w m = { w with services := s, phase := .exited } := by
            simp only [Server.serve, hcb, hh, if_pos hio]
          rw [hs]
          exact ⟨rfl, .inl ⟨rfl, fun h => by cases h⟩⟩
        · have hs : server.serve io w m = { w with
              services := s
              socket := { w.socket with
                state := .ready
                sent := w.socket.sent ++ [out.contents] } } := by
            simp only [Server.serve, hcb, hh, if_neg hio, RepSocket.send, hmust]
          rw [hs]
          exact ⟨rfl, .inr ⟨out.contents, ⟨d, s, out, hcb, hh, rfl⟩, rfl⟩⟩

theorem inv_turn (io : Io) (h : Inv server w) (htop : w.phase = .top) :
    Inv server (server.turn io w) := by
  have hsame : ∀ phase, phase ≠ .top → Inv server { w with phase := phase } := fun phase hphase =>
    ⟨h.replies, fun ht => absurd ht hphase⟩
  unfold Server.turn
  split_ifs with hstop hpoll hidle hrecv
  · exact hsame _ nofun
  · exact hsame _ nofun
  · exact h
  · exact hsame _ nofun
  · rw [not_or, Bool.not_eq_false, RepSocket.pollIn, Bool.and_eq_true, decide_eq_true_iff] at hidle
    obtain ⟨-, hready, hne⟩ := hidle
    cases hin : w.socket.inbox with
    | nil =>
      rw [hin] at hne
      cases hne
    | cons m ms =>
      have hlen := h.turns htop hready
      simp only [RepSocket.recv, hready, hin]
      generalize hw₁ : ({ w with
        socket := { w.socket with state := .mustReply, inbox := ms }
        received := w.received ++ [(w.services, m)] } : Worker σ) = w₁
      have hmust : w₁.socket.state = .mustReply := by rw [← hw₁]
      obtain ⟨hreceived, hsent⟩ : _ ∧ (_ ∨ _) := @serve_cases _ server w₁ m io hmust
      have hsent₁ : w₁.socket.sent = w.socket.sent := by rw [← hw₁]
      have hreceived₁ : w₁.received = w.received ++ [(w.services, m)] := by rw [← hw₁]
      have hservices₁ : w₁.services = w.services := by rw [← hw₁]
      have hprefix : w.received <+: (server.serve io w₁ m).received := by
        rw [hreceived, hreceived₁]
        exact List.prefix_append _ _
      rw [hsent₁, hservices₁] at hsent
      rcases hsent with ⟨hsent, hstate⟩ | ⟨bs, hbs, hsent⟩
      · refine ⟨fun k bs hk => ?_, fun ht hr => ?_⟩
        · rw [hsent] at hk
          obtain ⟨p, hp, hreplies⟩ := h.replies k bs hk
          exact ⟨p, getElem?_of_isPrefix hprefix hp, hreplies⟩
        · rw [hstate ht] at hr
          cases hr
      · refine ⟨fun k bs' hk => ?_, fun _ _ => ?_⟩
        · rw [hsent, List.getElem?_append] at hk
          split_ifs at hk with hlt
          · obtain ⟨p, hp, hreplies⟩ := h.replies k bs' hk
            exact ⟨p, getElem?_of_isPrefix hprefix hp, hreplies⟩
          · have hk' := List.getElem?_eq_some_iff.mp hk
            obtain rfl : k = w.received.length := by
              have := hk'.1
              rw [List.length_singleton] at this
              omega
            rw [← hlen, Nat.sub_self, List.getElem?_cons_zero, Option.some.injEq] at hk
            refine ⟨(w.services, m), ?_, hk ▸ hbs⟩
            rw [hreceived, hreceived₁, List.getElem?_concat_length]
        · rw [hsent, hreceived, hreceived₁, List.length_append, List.length_append, hlen]
          rfl

theorem inv_step {e : Event} (h : Inv server w) (hs : server.step w e = some w') :
    Inv server w' := by
  cases e with
  | arrive m =>
    cases hs
    exact ⟨h.replies, h.turns⟩
  | stop =>
    cases hs
    exact ⟨h.replies, h.turns⟩
  | turn io =>
    rw [Server.step] at hs
    split_ifs at hs with htop
    cases hs
    exact inv_turn io h htop

/-- What was replied to has arrived. -/
theorem Inv.arrived (h : Inv server w) {k : ℕ} {bs : List UInt8}
    (hk : w.socket.sent[k]? = some bs) :
    ∃ st m, w.received[k]? = some (st, m) ∧ w.arrived[k]? = some m ∧
      Replies server (st, m) bs := by
  obtain ⟨⟨st, m⟩, hreceived, hreplies⟩ := h.replies k bs hk
  refine ⟨st, m, hreceived, getElem?_of_isPrefix (List.prefix_append _ _) ?_, hreplies⟩
  rw [List.getElem?_map, hreceived]
  rfl

end Worker

/-! ## The cluster -/

structure Cluster (σ Request Response ι κ : Type) where
  endpoint : ι → Endpoint Request Response
  device : Device
  worker : κ → Worker σ

namespace Cluster

/-- What may happen: a client, the device or a worker goes on, or something arrives there. -/
inductive Act (Request Response ι κ : Type) where
  | client (i : ι) (a : Client.Act Request Response)
  | device (a : Device.Act)
  | worker (w : κ) (e : Event)

/-- `lockStep` are the arguments of the clients; `more` and `revents` are what the device finds on
its stack. -/
def init (lockStep : ι → Bool) (more : Bool) (revents : Side → Bool) (services : κ → σ) :
    Cluster σ Request Response ι κ :=
  ⟨fun i => .new (lockStep i), .new more revents, fun w => .init (services w)⟩

variable [DecidableEq ι] [DecidableEq κ] (env : Env) (objects : Objects Request Response)
  (server : Server σ)

def step (s : Cluster σ Request Response ι κ) :
    Act Request Response ι κ → Option (Cluster σ Request Response ι κ)
  | .client i a => ((s.endpoint i).step env objects a).map fun e =>
      { s with endpoint := Function.update s.endpoint i e }
  | .device a => (s.device.step a).map fun d => { s with device := d }
  | .worker w e => (server.step (s.worker w) e).map fun v =>
      { s with worker := Function.update s.worker w v }

end Cluster

/-! ## The network -/

/-- What zmq puts in front of the messages, and which message is which: the request that arrives on
the front, the message sent on the back that arrives at a worker, the reply that arrives on the
back, and the message sent on the front that answers a request. Messages are numbered in order. -/
structure Zmq (ι κ : Type) where
  envelope : ι → ℕ → List (List UInt8)
  /-- Every connection has an address of its own. -/
  envelope_inj : ∀ i c j d, envelope i c = envelope j d → i = j ∧ c = d
  request : ℕ → ι × ℕ
  delivery : κ × ℕ → ℕ
  reply : ℕ → κ × ℕ
  answer : ι × ℕ → ℕ

namespace Zmq

variable (zmq : Zmq ι κ) (s : Cluster σ Request Response ι κ)

/-- A request, with the address of its connection. -/
def requestAt (p : ι × ℕ) : Option Message := do
  let c ← (s.endpoint p.1).via[p.2]?
  let bs ← (s.endpoint p.1).client.sent[p.2]?
  some ⟨zmq.envelope p.1 c, bs⟩

/-- A reply, with what was in front of the message that it replies to. -/
def replyAt (q : κ × ℕ) : Option Message := do
  let m ← (messages (s.device.socket .back).sent)[zmq.delivery q]?
  let bs ← (s.worker q.1).socket.sent[q.2]?
  some ⟨m.init, bs⟩

/-- An answer, with the address of the connection on which it came. -/
def answerAt (p : ι × ℕ) : Option Message := do
  let c ← (s.endpoint p.1).via[p.2]?
  let m ← (s.endpoint p.1).client.answers p.2
  some ⟨zmq.envelope p.1 c, m.contents⟩

/-- **What is promised of zmq**: the sockets `ZMQ_REQ` or `ZMQ_DEALER` of the clients, `ZMQ_ROUTER`
and `ZMQ_DEALER` of the device, and `ZMQ_REP` of the workers carry messages whole and at most once,
and a `ZMQ_REP` socket takes what is in front of a request off and puts it in front of the reply. -/
structure Delivers : Prop where
  requests : Carries (fun k => (s.device.socket .front).arrived[k]?) (zmq.requestAt s) zmq.request
  deliveries : Carries (fun q : κ × ℕ => (s.worker q.1).arrived[q.2]?.map Msg.contents)
    (fun k => (messages (s.device.socket .back).sent)[k]?.map Message.last) zmq.delivery
  replies : Carries (fun k => (s.device.socket .back).arrived[k]?) (zmq.replyAt s) zmq.reply
  answers : Carries (zmq.answerAt s) (fun k => (messages (s.device.socket .front).sent)[k]?)
    zmq.answer

/-- The request whose reply answered the request `p`. -/
def origin (p : ι × ℕ) : ι × ℕ := zmq.request (zmq.delivery (zmq.reply (zmq.answer p)))

/-- The request `p` arrived at a worker, as the `q.2`-th message of worker `q.1`. -/
def Arrived (p : ι × ℕ) (q : κ × ℕ) : Prop :=
  (s.worker q.1).arrived[q.2]? ≠ none ∧ zmq.request (zmq.delivery q) = p

end Zmq

/-! ## The invariant -/

structure Cluster.Inv (env : Env) (objects : Objects Request Response) (server : Server σ)
    (zmq : Zmq ι κ) (s : Cluster σ Request Response ι κ) : Prop where
  endpoint : ∀ i, Endpoint.Inv env objects (fun id => (zmq.origin (i, id)).2) (s.endpoint i)
  device : s.device.Inv
  worker : ∀ w, Worker.Inv server (s.worker w)

section

variable {env : Env} {objects : Objects Request Response} {server : Server σ} {zmq : Zmq ι κ}
  {s s' : Cluster σ Request Response ι κ}

theorem Cluster.inv_init (lockStep : ι → Bool) (more : Bool) (revents : Side → Bool)
    (services : κ → σ) :
    Cluster.Inv env objects server zmq
      (.init lockStep more revents services : Cluster σ Request Response ι κ) :=
  ⟨fun _ => Endpoint.inv_new _ _ _ _, Device.inv_new _ _, fun _ => Worker.inv_init _ _⟩

namespace Zmq

variable (h : zmq.Delivers s) (hs : s.Inv env objects server zmq)

include h hs

/-- The messages of the workers are requests of the clients. -/
theorem carries_requests :
    Carries (fun q : κ × ℕ => (s.worker q.1).arrived[q.2]?.map Msg.contents)
      (fun p => (zmq.requestAt s p).map Message.last) (zmq.request ∘ zmq.delivery) := by
  refine h.deliveries.comp (h.requests.map Message.last) fun k bs hk => ?_
  obtain ⟨m, hm, rfl⟩ := Option.map_eq_some_iff.mp hk
  rw [getElem?_of_isPrefix (hs.device.messages_sent .front) hm]
  rfl

/-- The answers of the clients are replies of the workers. -/
theorem carries_replies : Carries (zmq.answerAt s) (zmq.replyAt s) (zmq.reply ∘ zmq.answer) :=
  h.answers.comp h.replies fun _ _ hk => getElem?_of_isPrefix (hs.device.messages_sent .back) hk

/-- An answer and the request that it is the reply to: both have the address of one connection. -/
theorem reply_of_answer {i : ι} {id : ℕ} {m : Msg}
    (hm : (s.endpoint i).client.answers id = some m) :
    ∃ q c m', zmq.reply (zmq.answer (i, id)) = q ∧ (s.endpoint i).via[id]? = some c ∧
      (s.worker q.1).socket.sent[q.2]? = some m.contents ∧
        zmq.requestAt s (zmq.origin (i, id)) = some m' ∧ m'.init = zmq.envelope i c := by
  have hendpoint := hs.endpoint i
  have hlt : id < (s.endpoint i).via.length := by
    rw [hendpoint.length]
    by_contra hle
    rw [hendpoint.client.fresh id (Nat.not_lt.mp hle)] at hm
    cases hm
  have hvia := List.getElem?_eq_getElem hlt
  have hanswer : zmq.answerAt s (i, id) =
      some ⟨zmq.envelope i (s.endpoint i).via[id], m.contents⟩ := by
    simp only [answerAt, hvia, hm, Option.bind_eq_bind, Option.bind_some]
  have hreply := (carries_replies h hs).sent_of_arrived _ _ hanswer
  obtain ⟨m', hm', hreply⟩ := Option.bind_eq_some_iff.mp hreply
  obtain ⟨bs, hbs, hreply⟩ := Option.bind_eq_some_iff.mp hreply
  rw [Option.some.injEq, Message.mk.injEq] at hreply
  obtain ⟨hinit, rfl⟩ := hreply
  have harrived := getElem?_of_isPrefix (hs.device.messages_sent .front) hm'
  exact ⟨_, _, m', rfl, hvia, hbs, h.requests.sent_of_arrived _ _ harrived, hinit⟩

theorem origin_spec {i : ι} {id : ℕ} (hid : (s.endpoint i).client.answers id ≠ none) :
    (zmq.origin (i, id)).1 = i ∧
      (s.endpoint i).via[(zmq.origin (i, id)).2]? = (s.endpoint i).via[id]? := by
  obtain ⟨m, hm⟩ := Option.ne_none_iff_exists'.mp hid
  obtain ⟨-, c, m', -, hvia, -, hrequest, hinit⟩ := reply_of_answer h hs hm
  obtain ⟨c', hvia', hrequest⟩ := Option.bind_eq_some_iff.mp hrequest
  obtain ⟨bs, -, hrequest⟩ := Option.bind_eq_some_iff.mp hrequest
  cases hrequest
  obtain ⟨hi, rfl⟩ := zmq.envelope_inj _ _ _ _ hinit
  rw [hi] at hvia'
  exact ⟨hi, hvia'.trans hvia.symm⟩

/-- **The answers of a client** are replies to requests of the same connection, and none answers two
requests. -/
theorem sound (i : ι) : (s.endpoint i).Sound fun id => (zmq.origin (i, id)).2 where
  same id hid := (origin_spec h hs hid).2
  once id hid id' hid' heq := by
    have horigin : zmq.origin (i, id) = zmq.origin (i, id') :=
      Prod.ext ((origin_spec h hs hid).1.trans (origin_spec h hs hid').1.symm) heq
    have hplace : ∀ id, (s.endpoint i).client.answers id ≠ none →
        (s.worker (zmq.reply (zmq.answer (i, id))).1).arrived[
          (zmq.reply (zmq.answer (i, id))).2]?.map Msg.contents ≠ none ∧
        zmq.answerAt s (i, id) ≠ none := by
      intro id hid
      obtain ⟨m, hm⟩ := Option.ne_none_iff_exists'.mp hid
      obtain ⟨q, c, -, rfl, hvia, hsent, -⟩ := reply_of_answer h hs hm
      obtain ⟨st, m₁, -, harrived, -⟩ := (hs.worker _).arrived hsent
      rw [harrived]
      refine ⟨nofun, ?_⟩
      simp only [answerAt, hvia, hm, Option.bind_eq_bind, Option.bind_some]
      nofun
    obtain ⟨harrived, hanswer⟩ := hplace id hid
    obtain ⟨harrived', hanswer'⟩ := hplace id' hid'
    have hreply := (carries_requests h hs).once harrived harrived' horigin
    exact (Prod.mk.inj ((carries_replies h hs).once hanswer hanswer' hreply)).2

end Zmq

variable [DecidableEq ι] [DecidableEq κ]

/-- **Every step** keeps the invariant. -/
theorem Cluster.inv_step (s : Cluster σ Request Response ι κ) (a : Act Request Response ι κ)
    (s' : Cluster σ Request Response ι κ) (hzmq : zmq.Delivers s)
    (h : s.Inv env objects server zmq) (hs : s.step env objects server a = some s') :
    s'.Inv env objects server zmq := by
  cases a with
  | client i a =>
    obtain ⟨e, he, rfl⟩ := Option.map_eq_some_iff.mp hs
    refine ⟨fun j => ?_, h.device, h.worker⟩
    dsimp only
    by_cases hji : j = i
    · subst hji
      rw [Function.update_self]
      exact Endpoint.inv_step (h.endpoint j) (Zmq.sound hzmq h j) he
    · rw [Function.update_of_ne hji]
      exact h.endpoint j
  | device a =>
    obtain ⟨d, hd, rfl⟩ := Option.map_eq_some_iff.mp hs
    exact ⟨h.endpoint, Device.inv_step _ _ _ h.device hd, h.worker⟩
  | worker w e =>
    obtain ⟨v, hv, rfl⟩ := Option.map_eq_some_iff.mp hs
    refine ⟨h.endpoint, h.device, fun w' => ?_⟩
    dsimp only
    by_cases hw : w' = w
    · subst hw
      rw [Function.update_self]
      exact Worker.inv_step (h.worker w') hv
    · rw [Function.update_of_ne hw]
      exact h.worker w'

end

/-! ## Calls and services -/

/-- A service whose request and response objects are those of the clients. -/
structure TypedService (σ Request Response : Type) where
  allocateRequest : Request
  allocateResponse : Response
  deserialize : Request → ReadableByteArray → Except Fault (Bool × Request × ReadableByteArray)
  run : Request → Response → σ → Response × σ
  serialize : Response → WriteableByteArray → Except Fault (Bool × WriteableByteArray)

def TypedService.toService (service : TypedService σ Request Response) : Service σ :=
  ⟨Request, Response, service.allocateRequest, service.allocateResponse, service.deserialize,
    service.run, service.serialize⟩

/-- The map of these services. -/
def dispatcherOf (services : List UInt8 → Option (TypedService σ Request Response)) :
    Dispatcher σ := fun method => (services method).map TypedService.toService

/-- The server that has these services. -/
def serverOf (env : Env) (services : List UInt8 → Option (TypedService σ Request Response)) :
    Server σ := ⟨env, some (dispatcherOf services)⟩

/-- The request of `r` arrived at one worker, once. This worker had its services in the state `st`
then, and the response is the one of the service of the method, run in this state. -/
def RunOnce (zmq : Zmq ι κ) (objects : Objects Request Response)
    (services : List UInt8 → Option (TypedService σ Request Response))
    (s : Cluster σ Request Response ι κ) (i : ι) (r : Record Request Response) (res : Response) :
    Prop :=
  ∃ (id : ℕ) (q : κ × ℕ) (st : σ) (m : Msg) (service : TypedService σ Request Response),
    r.id = some id ∧ zmq.Arrived s (i, id) q ∧ (∀ q', zmq.Arrived s (i, id) q' → q' = q) ∧
      (s.worker q.1).received[q.2]? = some (st, m) ∧
        (s.endpoint i).client.sent[id]? = some m.contents ∧
          services (objects.method r.request) = some service ∧
            res = (service.run r.request service.allocateResponse st).1

section

variable {env : Env} {objects : Objects Request Response}
  {services : List UInt8 → Option (TypedService σ Request Response)}
  {payload : Request → List UInt8} {payload' : Response → List UInt8}

theorem dispatcherOf_of_none {method : List UInt8} (h : services method = none) :
    dispatcherOf services method = none := by
  rw [dispatcherOf, h]
  rfl

theorem exists_service_of_replies {st : σ} {m : Msg} {bs : List UInt8}
    (h : Worker.Replies (serverOf env services) (st, m) bs) :
    ∃ method service, services method = some service := by
  obtain ⟨d, s', out, hd, hhandle, -⟩ := h
  cases hd
  unfold handle at hhandle
  split at hhandle
  · cases hhandle
  · cases hhandle
  · next method r hmethod =>
    cases hservice : services method with
    | some service => exact ⟨method, service, hservice⟩
    | none =>
      rw [dispatcherOf_of_none hservice] at hhandle
      cases hhandle

/-- What a worker replies to a request: its method has a service, and the bytes are the response of
this service. -/
theorem replies_request {method : List UInt8}
    (hfits : env.stringFits method.length = true)
    (hf : ∀ method service, services method = some service →
      Framed payload objects.serialize service.deserialize ∧
        Framed payload' service.serialize objects.deserialize)
    (hsmall : ∀ response, (frame payload' response).length < 2 ^ 63) {request : Request} {st : σ}
    {m : Msg} {bs : List UInt8}
    (hm : m.contents = framed method.length method ++ frame payload request)
    (h : Worker.Replies (serverOf env services) (st, m) bs) :
    ∃ service, services method = some service ∧
      bs = frame payload' (service.run request service.allocateResponse st).1 := by
  obtain ⟨d, s', out, hd, hhandle, rfl⟩ := h
  cases hd
  cases hservice : services method with
  | none =>
    rw [serverOf] at hhandle
    dsimp only at hhandle
    rw [handle_of_not_registered hfits hm (dispatcherOf_of_none hservice)] at hhandle
    cases hhandle
  | some service =>
    have hsome : dispatcherOf services method = some service.toService := by
      rw [dispatcherOf, hservice]
      rfl
    obtain ⟨hrequest, hresponse⟩ := hf method service hservice
    obtain ⟨w, hw, hcontents⟩ := @handle_of_registered σ _ _ _ _ _ hfits hm service.toService hsome
      _ _ _ _ hrequest hresponse _ rfl st true (fun _ => 0) (hsmall _)
    rw [serverOf] at hhandle
    dsimp only at hhandle
    rw [hw] at hhandle
    cases hhandle
    exact ⟨service, rfl, hcontents⟩

end

/-! ## Two clients and two workers -/

/-- What is to be looked at when these are all clients and workers. -/
def Zmq.DeliversOn [DecidableEq ι] [DecidableEq κ] (zmq : Zmq ι κ) (clients : List ι)
    (workers : List κ) (s : Cluster σ Request Response ι κ) : Prop :=
  CarriesOn (fun k => (s.device.socket .front).arrived[k]?) (zmq.requestAt s) zmq.request
      (List.range (s.device.socket .front).arrived.length) ∧
    CarriesOn (fun q : κ × ℕ => (s.worker q.1).arrived[q.2]?.map Msg.contents)
      (fun k => (messages (s.device.socket .back).sent)[k]?.map Message.last) zmq.delivery
      (workers.flatMap fun w => (List.range (s.worker w).arrived.length).map (w, ·)) ∧
    CarriesOn (fun k => (s.device.socket .back).arrived[k]?) (zmq.replyAt s) zmq.reply
      (List.range (s.device.socket .back).arrived.length) ∧
    CarriesOn (zmq.answerAt s) (fun k => (messages (s.device.socket .front).sent)[k]?) zmq.answer
      (clients.flatMap fun i => (List.range (s.endpoint i).via.length).map (i, ·))

instance [DecidableEq ι] [DecidableEq κ] (zmq : Zmq ι κ) (clients : List ι) (workers : List κ)
    (s : Cluster σ Request Response ι κ) : Decidable (zmq.DeliversOn clients workers s) :=
  inferInstanceAs (Decidable (_ ∧ _ ∧ _ ∧ _))

theorem Zmq.DeliversOn.delivers [DecidableEq ι] [DecidableEq κ] {zmq : Zmq ι κ} {clients : List ι}
    {workers : List κ} {s : Cluster σ Request Response ι κ} (h : zmq.DeliversOn clients workers s)
    (hclients : ∀ i, i ∈ clients) (hworkers : ∀ w, w ∈ workers) : zmq.Delivers s := by
  have hrange : ∀ (l : List Message) (k : ℕ), l[k]? ≠ none → k ∈ List.range l.length :=
    fun l k hk => by rwa [ne_eq, List.getElem?_eq_none_iff, Nat.not_le, ← List.mem_range] at hk
  obtain ⟨hrequests, hdeliveries, hreplies, hanswers⟩ := h
  refine ⟨hrequests.carries (hrange _), hdeliveries.carries ?_, hreplies.carries (hrange _),
    hanswers.carries ?_⟩
  · rintro ⟨w, k⟩ hk
    rw [ne_eq, Option.map_eq_none_iff, List.getElem?_eq_none_iff, Nat.not_le] at hk
    exact List.mem_flatMap.mpr ⟨w, hworkers w,
      List.mem_map.mpr ⟨k, List.mem_range.mpr hk, rfl⟩⟩
  · rintro ⟨i, id⟩ hid
    refine List.mem_flatMap.mpr ⟨i, hclients i, List.mem_map.mpr ⟨id, List.mem_range.mpr ?_, rfl⟩⟩
    by_contra hlt
    rw [Zmq.answerAt, List.getElem?_eq_none (Nat.not_lt.mp hlt)] at hid
    exact hid rfl

/-- The method `"e"` negates its request and counts its runs. -/
def negations (method : List UInt8) : Option (TypedService ℕ Bool Bool) :=
  if method = [0x65] then
    some ⟨false, false, deserializeFromByteArray flagPb (i := ()), fun request _ n =>
      (!request, n + 1), serializeToByteArray roomy flagPb (i := ())⟩
  else none

/-- The request `false` of the method `"e"`. -/
def falseRequest : Msg :=
  { echoMsg with data := fun i => [0x02, 0x65, 0x04, 0x08, 0x00].getD i 0 }

/-- An identity and an empty part in front of the requests; the requests change places on their way
to the device, and the replies on their way back. -/
def changingPlaces : Zmq Bool Bool where
  envelope i c := [i.toNat.toUInt8 :: List.replicate c 0, []]
  envelope_inj i c j d h := by
    obtain ⟨hij, hcd⟩ := List.cons.inj (List.cons.inj h).1
    refine ⟨?_, by simpa using congrArg List.length hcd⟩
    cases i <;> cases j <;> first | rfl | exact absurd hij (by decide)
  request k := (k == 0, 0)
  delivery q := if q.1 then 1 else 0
  reply k := (k == 0, 0)
  answer p := if p.1 then 1 else 0

/-- The device passes on one message of three parts. -/
def passOn (d : Side) : List (Cluster.Act Bool Bool Bool Bool) :=
  [.device .testStop, .device (.poll fun e => decide (e = d)), .device .recv, .device .getsockopt,
    .device .send, .device .recv, .device .getsockopt, .device .send, .device .recv,
    .device .getsockopt, .device .send]

/-- Two calls cross: the second request arrives first, and both replies come back. -/
def crossedCalls : List (Cluster.Act Bool Bool Bool Bool) :=
  [.client false (.connect true), .client true (.connect true),
    .client false (.send true false false), .client true (.send false true false),
    .device (.arrive .front ⟨changingPlaces.envelope true 1, falseRequest.contents⟩),
    .device (.arrive .front ⟨changingPlaces.envelope false 1, echoMsg.contents⟩)] ++
  passOn .front ++ passOn .front ++
  [.worker false (.arrive falseRequest), .worker true (.arrive echoMsg),
    .worker true (.turn .fine), .worker false (.turn .fine),
    .device (.arrive .back ⟨changingPlaces.envelope false 1, falseMsg.contents⟩),
    .device (.arrive .back ⟨changingPlaces.envelope true 1, trueMsg.contents⟩)] ++
  passOn .back ++ passOn .back ++
  [.client true (.answer 0 trueMsg), .client false (.answer 0 falseMsg),
    .client false (.recv .fine), .client true (.recv .fine)]

def flagPayload (m : Bool) : List UInt8 :=
  (flagPb.serializeToArray (i := ()) m (flagPb.byteSize (i := ()) m)).getD []

theorem negations_framed (method : List UInt8) (service : TypedService ℕ Bool Bool)
    (h : negations method = some service) :
    Framed flagPayload flagObjects.serialize service.deserialize ∧
      Framed flagPayload service.serialize flagObjects.deserialize := by
  unfold negations at h
  split_ifs at h
  cases h
  exact ⟨framed_protobuf (fun _ => rfl) flagPb_exact (),
    framed_protobuf (fun _ => rfl) flagPb_exact ()⟩

theorem delivers_crossedCalls :
    StepRun.Always (Cluster.step roomy flagObjects (serverOf roomy negations))
      changingPlaces.Delivers (.init (fun _ => true) true (fun _ => true) fun _ => 0)
      crossedCalls := by
  have h : StepRun.Always (Cluster.step roomy flagObjects (serverOf roomy negations))
      (changingPlaces.DeliversOn [false, true] [false, true])
      (.init (fun _ => true) true (fun _ => true) fun _ => 0) crossedCalls := by
    decide +kernel
  exact h.mono fun s hs => hs.delivers (by decide) (by decide)

end Sperm.Sasuke
