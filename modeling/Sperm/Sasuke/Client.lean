import Sperm.Sasuke.ServiceCallBack

/-!
# RPC clients (`Client` in `sasuke/rpc.h`, `sasuke/rpc.cc`)

A call sends a request and takes the first reply that comes. Replies carry no number: in lock step
mode the `ZMQ_REQ` socket refuses to send while a reply is outstanding, and a `ZMQ_DEALER` socket
sends freely.

* `Objects`: the virtual functions of the request and response objects.
* `ClientSocket`: the requests of a connection that the peer has not answered yet, and the replies
  that have not been received.
* `Client.step`: the two halves of `call`, `connect`, `reconnect` and `close`, and the answers of
  the peer between them, in any order.
* `Own`: a call that returned `0` filled its response from the answer to its own request.
* **`call_gets_own_answer`**: every call does in lock step mode, and otherwise every call that
  starts with nothing left over on its connection.
-/

namespace Sperm.Sasuke

/-- The objects that calls are made with. -/
structure Objects (Request Response : Type) where
  method : Request → List UInt8
  serialize : Request → WriteableByteArray → Except Fault (Bool × WriteableByteArray)
  deserialize : Response → ReadableByteArray → Except Fault (Bool × Response × ReadableByteArray)

/-- The client's end of a connection. Requests are numbered over the whole life of the client; the
peer sees to it that a reply belongs to a request. -/
structure ClientSocket where
  /-- A `ZMQ_REQ` socket waits for a reply. -/
  awaiting : Bool
  outstanding : List ℕ
  inbox : List (ℕ × Msg)

namespace ClientSocket

def new : ClientSocket := ⟨false, [], []⟩

/-- The requests whose reply has not been received. -/
def pending (k : ClientSocket) : List ℕ := k.outstanding ++ k.inbox.map Prod.fst

theorem length_pending (k : ClientSocket) :
    k.pending.length = k.outstanding.length + k.inbox.length := by
  rw [pending, List.length_append, List.length_map]

/-- `zmq_send`; a `ZMQ_REQ` socket refuses while it waits for a reply. -/
def send (lockStep : Bool) (k : ClientSocket) (id : ℕ) : Option ClientSocket :=
  if lockStep && k.awaiting then none
  else some { k with awaiting := true, outstanding := k.outstanding ++ [id] }

/-- The reply to a request arrives. -/
def answer (k : ClientSocket) (id : ℕ) (m : Msg) : ClientSocket :=
  { k with outstanding := k.outstanding.erase id, inbox := k.inbox ++ [(id, m)] }

/-- The first reply is received and `inbox` is left. -/
def take (k : ClientSocket) (inbox : List (ℕ × Msg)) : ClientSocket :=
  { k with awaiting := false, inbox := inbox }

end ClientSocket

/-- A call: its arguments, the number of its request once it is sent, and whether its connection had
nothing pending when it started. -/
structure Call (Request Response : Type) where
  request : Request
  response : Response
  id : Option ℕ
  clean : Bool

/-- A call that came back, with the response when it returned `0`. -/
structure Record (Request Response : Type) extends Call Request Response where
  ret : Option Response

/-- Where the thread that uses the client is. -/
inductive ClientPc (Request Response : Type) where
  | idle
  | waiting (c : Call Request Response)
  | aborted (f : Fault)

/-- A client. `sent` are the requests on the wire, in order, `answers` what the peer answered to
each, and `log` the calls that came back. -/
structure Client (Request Response : Type) where
  lockStep : Bool
  socket : Option ClientSocket
  pc : ClientPc Request Response
  sent : List (List UInt8)
  answers : ℕ → Option Msg
  log : List (Record Request Response)

namespace Client

variable {Request Response : Type}

/-- `Client(lock_step)`. -/
def new (lockStep : Bool) : Client Request Response :=
  ⟨lockStep, none, .idle, [], fun _ => none, []⟩

/-- How `recvInternalMessage` goes: a reply is taken, the poll times out, or `zmq_recv` fails. -/
inductive RecvIo where
  | fine
  | timeout
  | recvFails
  deriving DecidableEq

/-- What happens: `connect`, `reconnect` (with whether they succeed) and `close`, the two halves of
a `call` (with whether `zmq_send` fails by itself), and an answer of the peer. -/
inductive Act (Request Response : Type) where
  | connect (ok : Bool)
  | reconnect (ok : Bool)
  | close
  | send (request : Request) (response : Response) (fails : Bool)
  | recv (io : RecvIo)
  | answer (id : ℕ) (m : Msg)

/-- Does it make a new connection? -/
def Act.connects : Act Request Response → Bool
  | .connect _ => true
  | .reconnect _ => true
  | _ => false

def connect (s : Client Request Response) (ok : Bool) : Client Request Response :=
  { s with socket := if ok then some .new else none }

def close (s : Client Request Response) : Client Request Response := { s with socket := none }

/-- The call returns `-1`, or `0` with its response. -/
def finish (s : Client Request Response) (c : Call Request Response) (ret : Option Response) :
    Client Request Response :=
  { s with pc := .idle, log := s.log ++ [{ c with ret := ret }] }

variable (env : Env) (objects : Objects Request Response)

/-- `serialize_request(request, &send_bytes)`. -/
def wireRequest (request : Request) : Except Fault (Bool × WriteableByteArray) :=
  serializeRequest env (objects.method request) objects.serialize request (.new true fun _ => 0)

/-- `send(request)`, the first half of `call`. -/
def send (s : Client Request Response) (request : Request) (response : Response) (fails : Bool) :
    Client Request Response :=
  let clean := s.socket.all fun k => k.pending.isEmpty
  match wireRequest env objects request with
  | .error f => { s with pc := .aborted f }
  | .ok (false, _) => s.finish ⟨request, response, none, clean⟩ none
  | .ok (true, w) =>
    match if fails then none else s.socket.bind (·.send s.lockStep s.sent.length) with
    | none => s.finish ⟨request, response, none, clean⟩ none
    | some k => { s with
        socket := some k
        pc := .waiting ⟨request, response, some s.sent.length, clean⟩
        sent := s.sent ++ [w.contents] }

/-- `recv(response, timeout_ms)`, the second half of `call`; without a reply the poll goes on. -/
def recv (s : Client Request Response) (c : Call Request Response) :
    RecvIo → Option (Client Request Response)
  | .timeout | .recvFails => some (s.finish c none)
  | .fine =>
    match s.socket with
    | none => none
    | some k =>
      match k.inbox with
      | [] => none
      | (_, m) :: inbox =>
        let s' := { s with socket := some (k.take inbox) }
        match deserializeResponse objects.deserialize c.response m.bytes with
        | .error f => some { s' with pc := .aborted f }
        | .ok (false, _, _) => some (s'.finish c none)
        | .ok (true, res, _) => some (s'.finish c (some res))

def step (s : Client Request Response) : Act Request Response → Option (Client Request Response)
  | .connect ok =>
    match s.pc with
    | .idle => some (s.connect ok)
    | _ => none
  | .reconnect ok =>
    match s.pc with
    | .idle => some (s.close.connect ok)
    | _ => none
  | .close =>
    match s.pc with
    | .idle => some s.close
    | _ => none
  | .send request response fails =>
    match s.pc with
    | .idle => some (s.send env objects request response fails)
    | _ => none
  | .recv io =>
    match s.pc with
    | .waiting c => s.recv objects c io
    | _ => none
  | .answer id m =>
    match s.socket with
    | none => none
    | some k =>
      if id ∈ k.outstanding then
        some { s with
          socket := some (k.answer id m), answers := Function.update s.answers id (some m) }
      else none

/-! ## Own answers -/

/-- If the call returned `0`, its request was sent, the peer answered it, and the response comes
from this answer. -/
def Own (s : Client Request Response) (r : Record Request Response) : Prop :=
  ∀ res, r.ret = some res → ∃ id w m rest, r.id = some id ∧
    wireRequest env objects r.request = .ok (true, w) ∧ s.sent[id]? = some w.contents ∧
      s.answers id = some m ∧
        deserializeResponse objects.deserialize r.response m.bytes = .ok (true, res, rest)

/-! ## What a step does -/

variable {env objects}

inductive Step (env : Env) (objects : Objects Request Response) (s : Client Request Response)
    (a : Act Request Response) : Client Request Response → Prop where
  | connect {o : Option ClientSocket} (hpc : s.pc = .idle)
      (ho : ∀ k, o = some k → k = .new ∧ a.connects = true) :
      Step env objects s a { s with socket := o }
  | refused {c : Call Request Response} (hpc : s.pc = .idle) :
      Step env objects s a (s.finish c none)
  | sent {request : Request} {response : Response} {w : WriteableByteArray} {k : ClientSocket}
      (hpc : s.pc = .idle) (hw : wireRequest env objects request = .ok (true, w))
      (hk : s.socket = some k) (hfree : s.lockStep = true → k.awaiting = false) :
      Step env objects s a { s with
        socket := some { k with awaiting := true, outstanding := k.outstanding ++ [s.sent.length] }
        pc := .waiting ⟨request, response, some s.sent.length, k.pending.isEmpty⟩
        sent := s.sent ++ [w.contents] }
  | failed {c : Call Request Response} (hpc : s.pc = .waiting c) :
      Step env objects s a (s.finish c none)
  | received {c : Call Request Response} {k : ClientSocket} {id : ℕ} {m : Msg}
      {inbox : List (ℕ × Msg)} {ret : Option Response} (hpc : s.pc = .waiting c)
      (hk : s.socket = some k) (hin : k.inbox = (id, m) :: inbox)
      (hret : ∀ res, ret = some res → ∃ rest,
        deserializeResponse objects.deserialize c.response m.bytes = .ok (true, res, rest)) :
      Step env objects s a (finish { s with socket := some (k.take inbox) } c ret)
  | aborted {f : Fault} {o : Option ClientSocket} (ho : o = s.socket ∨ ∃ k p inbox,
        s.socket = some k ∧ k.inbox = p :: inbox ∧ o = some (k.take inbox)) :
      Step env objects s a { s with socket := o, pc := .aborted f }
  | answer {k : ClientSocket} {id : ℕ} {m : Msg} (hk : s.socket = some k)
      (hid : id ∈ k.outstanding) :
      Step env objects s a { s with
        socket := some (k.answer id m), answers := Function.update s.answers id (some m) }

theorem send_cases {s : Client Request Response} {request : Request} {response : Response}
    {fails : Bool} {a : Act Request Response} (hpc : s.pc = .idle) :
    Step env objects s a (s.send env objects request response fails) := by
  unfold send
  split
  · exact .aborted (.inl rfl)
  · exact .refused hpc
  · next w hw =>
    split
    · exact .refused hpc
    · next k' hk' =>
      split_ifs at hk'
      obtain ⟨k, hk, hsend⟩ := Option.bind_eq_some_iff.mp hk'
      unfold ClientSocket.send at hsend
      split_ifs at hsend with hbusy
      cases hsend
      simp only [hk, Option.all_some]
      refine .sent hpc hw hk fun hl => ?_
      simpa [hl] using hbusy

theorem recv_cases {s s' : Client Request Response} {c : Call Request Response} {io : RecvIo}
    {a : Act Request Response} (hpc : s.pc = .waiting c) (hs : s.recv objects c io = some s') :
    Step env objects s a s' := by
  cases io with
  | timeout => cases hs; exact .failed hpc
  | recvFails => cases hs; exact .failed hpc
  | fine =>
    rw [recv] at hs
    split at hs
    · cases hs
    · next k hk =>
      split at hs
      · cases hs
      · next id m inbox hin =>
        dsimp only at hs
        split at hs <;> cases hs
        · exact .aborted (.inr ⟨k, _, inbox, hk, hin, rfl⟩)
        · exact .received hpc hk hin nofun
        · next res rest hres =>
          refine .received hpc hk hin fun res' h => ?_
          cases h
          exact ⟨rest, hres⟩

theorem step_cases {s s' : Client Request Response} {a : Act Request Response}
    (hs : s.step env objects a = some s') : Step env objects s a s' := by
  cases a with
  | connect ok =>
    rw [step] at hs
    split at hs <;> cases hs
    next hpc => exact .connect hpc (by cases ok <;> simp [Act.connects])
  | reconnect ok =>
    rw [step] at hs
    split at hs <;> cases hs
    next hpc => exact .connect hpc (by cases ok <;> simp [Act.connects])
  | close =>
    rw [step] at hs
    split at hs <;> cases hs
    next hpc => exact .connect hpc nofun
  | send request response fails =>
    rw [step] at hs
    split at hs <;> cases hs
    next hpc => exact send_cases hpc
  | recv io =>
    rw [step] at hs
    split at hs
    · next c hpc => exact recv_cases hpc hs
    · cases hs
  | answer id m =>
    rw [step] at hs
    split at hs
    · cases hs
    · next k hk =>
      split_ifs at hs with hid
      cases hs
      exact .answer hk hid

/-! ## The invariant -/

/-- A socket of a client that has sent `n` requests: requests wait for their only answer, replies
are the answers that were given, and in lock step mode there is at most one of either. -/
structure SocketInv (lockStep : Bool) (n : ℕ) (answers : ℕ → Option Msg) (k : ClientSocket) :
    Prop where
  nodup : k.outstanding.Nodup
  lt : ∀ id ∈ k.outstanding, id < n
  unanswered : ∀ id ∈ k.outstanding, answers id = none
  replied : ∀ p ∈ k.inbox, answers p.1 = some p.2
  turns : lockStep = true → k.pending.length ≤ if k.awaiting then 1 else 0

section

variable {lockStep : Bool} {n : ℕ} {answers : ℕ → Option Msg} {k : ClientSocket}

theorem socketInv_new : SocketInv lockStep n answers .new :=
  ⟨List.nodup_nil, nofun, nofun, nofun, fun _ => Nat.le_refl 0⟩

theorem SocketInv.send (h : SocketInv lockStep n answers k) (hn : answers n = none)
    (hfree : lockStep = true → k.awaiting = false) :
    SocketInv lockStep (n + 1) answers
      { k with awaiting := true, outstanding := k.outstanding ++ [n] } where
  nodup := by
    rw [List.nodup_append_comm, List.singleton_append, List.nodup_cons]
    exact ⟨fun hmem => (h.lt n hmem).false, h.nodup⟩
  lt id hid := by
    rw [List.mem_append, List.mem_singleton] at hid
    rcases hid with hid | rfl
    · exact (h.lt id hid).trans (Nat.lt_succ_self n)
    · exact Nat.lt_succ_self _
  unanswered id hid := by
    rw [List.mem_append, List.mem_singleton] at hid
    rcases hid with hid | rfl
    · exact h.unanswered id hid
    · exact hn
  replied := h.replied
  turns hl := by
    have hle := h.turns hl
    rw [hfree hl, ClientSocket.length_pending] at hle
    rw [ClientSocket.length_pending, List.length_append, List.length_singleton, if_pos rfl]
    rw [if_neg Bool.false_ne_true] at hle
    dsimp only
    omega

theorem SocketInv.take (h : SocketInv lockStep n answers k) {p : ℕ × Msg} {inbox : List (ℕ × Msg)}
    (hin : k.inbox = p :: inbox) : SocketInv lockStep n answers (k.take inbox) where
  nodup := h.nodup
  lt := h.lt
  unanswered := h.unanswered
  replied q hq := h.replied q (by rw [hin]; exact List.mem_cons_of_mem _ hq)
  turns hl := by
    have hle := h.turns hl
    rw [ClientSocket.length_pending, hin, List.length_cons] at hle
    rw [ClientSocket.length_pending, ClientSocket.take, if_neg Bool.false_ne_true]
    dsimp only
    split_ifs at hle <;> omega

theorem SocketInv.answer (h : SocketInv lockStep n answers k) {id : ℕ} (hid : id ∈ k.outstanding)
    (m : Msg) : SocketInv lockStep n (Function.update answers id (some m)) (k.answer id m) where
  nodup := h.nodup.erase id
  lt j hj := h.lt j (List.mem_of_mem_erase hj)
  unanswered j hj := by
    rw [ClientSocket.answer, h.nodup.mem_erase_iff] at hj
    rw [Function.update_of_ne hj.1]
    exact h.unanswered j hj.2
  replied p hp := by
    rw [ClientSocket.answer, List.mem_append, List.mem_singleton] at hp
    rcases hp with hp | rfl
    · have hne : p.1 ≠ id := fun he => by
        have := h.replied p hp
        rw [he, h.unanswered id hid] at this
        cases this
      rw [Function.update_of_ne hne]
      exact h.replied p hp
    · exact Function.update_self ..
  turns hl := by
    have hlen := List.length_erase_of_mem hid
    have hpos := List.length_pos_of_mem hid
    refine le_of_eq_of_le ?_ (h.turns hl)
    rw [ClientSocket.length_pending, ClientSocket.length_pending, ClientSocket.answer, hlen,
      List.length_append, List.length_singleton]
    omega

theorem pending_answer {id j : ℕ} {m : Msg} (hid : id ∈ k.outstanding)
    (hj : j ∈ (k.answer id m).pending) : j ∈ k.pending := by
  simp only [ClientSocket.pending, ClientSocket.answer, List.map_append, List.mem_append] at hj ⊢
  rcases hj with hj | hj | hj
  · exact .inl (List.mem_of_mem_erase hj)
  · exact .inr hj
  · rw [List.map_singleton, List.mem_singleton] at hj
    exact .inl (hj ▸ hid)

end

/-- The calls whose answer cannot be confused: those in lock step mode, and those that start with
nothing pending. -/
def Alone (s : Client Request Response) (c : Call Request Response) : Prop :=
  s.lockStep = true ∨ c.clean = true

structure Inv (env : Env) (objects : Objects Request Response) (s : Client Request Response) :
    Prop where
  socket : ∀ k, s.socket = some k → SocketInv s.lockStep s.sent.length s.answers k
  fresh : ∀ id, s.sent.length ≤ id → s.answers id = none
  waiting : ∀ c, s.pc = .waiting c → ∃ id w, c.id = some id ∧
    wireRequest env objects c.request = .ok (true, w) ∧ s.sent[id]? = some w.contents ∧
      (s.Alone c → ∀ k, s.socket = some k → ∀ j ∈ k.pending, j = id)
  log : ∀ r ∈ s.log, s.Alone r.toCall → Own env objects s r

theorem Own.mono {s s' : Client Request Response} {r : Record Request Response}
    (h : Own env objects s r) (hsent : s.sent <+: s'.sent)
    (hans : ∀ id m, s.answers id = some m → s'.answers id = some m) : Own env objects s' r := by
  intro res hres
  obtain ⟨id, w, m, rest, hid, hw, hget, hm, hd⟩ := h res hres
  obtain ⟨more, hmore⟩ := hsent
  have hlt := (List.getElem?_eq_some_iff.mp hget).1
  refine ⟨id, w, m, rest, hid, hw, ?_, hans id m hm, hd⟩
  rw [← hmore, List.getElem?_append_left hlt, hget]

theorem own_none {s : Client Request Response} {c : Call Request Response} :
    Own env objects s { c with ret := none } := nofun

theorem inv_new (lockStep : Bool) : Inv env objects (new lockStep) :=
  ⟨nofun, fun _ _ => rfl, nofun, nofun⟩

section

variable {s : Client Request Response} (h : Inv env objects s)

include h

theorem Inv.finish {c : Call Request Response} {ret : Option Response}
    {o : Option ClientSocket}
    (ho : ∀ k, o = some k → SocketInv s.lockStep s.sent.length s.answers k)
    (hown : s.Alone c → Own env objects s { c with ret := ret }) :
    Inv env objects (Client.finish { s with socket := o } c ret) where
  socket := ho
  fresh := h.fresh
  waiting := nofun
  log r hr hal := by
    rw [Client.finish, List.mem_append, List.mem_singleton] at hr
    rcases hr with hr | rfl
    · exact h.log r hr hal
    · exact hown hal

theorem Inv.pending_eq_nil {c : Call Request Response} {k : ClientSocket} (hk : s.socket = some k)
    (hfree : s.lockStep = true → k.awaiting = false) (hc : c.clean = k.pending.isEmpty)
    (hal : s.Alone c) : k.pending = [] := by
  rcases hal with hl | hclean
  · have hle := (h.socket k hk).turns hl
    rw [hfree hl, if_neg Bool.false_ne_true, Nat.le_zero, List.length_eq_zero_iff] at hle
    exact hle
  · exact List.isEmpty_iff.mp (hc ▸ hclean)

theorem Inv.sent {request : Request} {response : Response} {w : WriteableByteArray}
    {k : ClientSocket} (hw : wireRequest env objects request = .ok (true, w))
    (hk : s.socket = some k) (hfree : s.lockStep = true → k.awaiting = false) :
    Inv env objects { s with
      socket := some { k with awaiting := true, outstanding := k.outstanding ++ [s.sent.length] }
      pc := .waiting ⟨request, response, some s.sent.length, k.pending.isEmpty⟩
      sent := s.sent ++ [w.contents] } where
  socket k' hk' := by
    cases hk'
    rw [List.length_append]
    exact (h.socket k hk).send (h.fresh _ le_rfl) hfree
  fresh id hid := by
    rw [List.length_append, List.length_singleton] at hid
    exact h.fresh id (by omega)
  waiting c hc := by
    cases hc
    refine ⟨_, w, rfl, hw, List.getElem?_concat_length, fun hal k' hk' j hj => ?_⟩
    -- nothing was pending, by the state of the socket or by what the call found
    have hnil := h.pending_eq_nil hk hfree rfl hal
    cases hk'
    rw [ClientSocket.pending, List.append_eq_nil_iff] at hnil
    simpa [ClientSocket.pending, hnil] using hj
  log r hr hal := (h.log r hr hal).mono (List.prefix_append _ _) fun _ _ => id

theorem Inv.answer {k : ClientSocket} {id : ℕ} {m : Msg} (hk : s.socket = some k)
    (hid : id ∈ k.outstanding) :
    Inv env objects { s with
      socket := some (k.answer id m), answers := Function.update s.answers id (some m) } where
  socket k' hk' := by
    cases hk'
    exact (h.socket k hk).answer hid m
  fresh j hj := by
    have hlt := (h.socket k hk).lt id hid
    have hne : j ≠ id := (hlt.trans_le hj).ne'
    exact (Function.update_of_ne hne _ _).trans (h.fresh j hj)
  waiting c hc := by
    obtain ⟨i, w, hi, hw, hget, hal⟩ := h.waiting c hc
    refine ⟨i, w, hi, hw, hget, fun ha k' hk' j hj => ?_⟩
    cases hk'
    exact hal ha k hk j (pending_answer hid hj)
  log r hr hal := by
    refine (h.log r hr hal).mono (List.prefix_refl _) fun j m' hj => ?_
    have hne : j ≠ id := by
      rintro rfl
      rw [(h.socket k hk).unanswered j hid] at hj
      cases hj
    exact (Function.update_of_ne hne _ _).trans hj

end

theorem inv_step (s : Client Request Response) (a : Act Request Response)
    (s' : Client Request Response) (h : Inv env objects s) (hs : s.step env objects a = some s') :
    Inv env objects s' := by
  cases step_cases hs with
  | connect hpc ho =>
    refine ⟨fun k hk => ?_, h.fresh, fun c hc => ?_, h.log⟩
    · rw [(ho k hk).1]
      exact socketInv_new
    · rw [show s.pc = _ from hc] at hpc
      cases hpc
  | refused hpc => exact h.finish h.socket fun _ => own_none
  | sent hpc hw hk hfree => exact h.sent hw hk hfree
  | failed hpc => exact h.finish h.socket fun _ => own_none
  | @received c k id m inbox ret hpc hk hin hret =>
    refine h.finish (fun k' hk' => ?_) fun hal res hres => ?_
    · cases hk'
      exact (h.socket k hk).take hin
    · -- the reply that was taken was pending, so it answers this call
      obtain ⟨i, w, hi, hw, hget, hall⟩ := h.waiting c hpc
      obtain ⟨rest, hd⟩ := hret res hres
      have hreply := (h.socket k hk).replied (id, m) (by rw [hin]; exact List.mem_cons_self)
      obtain rfl : id = i := hall hal k hk id (by simp [ClientSocket.pending, hin])
      exact ⟨id, w, m, rest, hi, hw, hget, hreply, hd⟩
  | aborted ho =>
    refine ⟨fun k hk => ?_, h.fresh, nofun, h.log⟩
    rcases ho with ho | ⟨k', p, inbox, hk', hin, ho⟩
    · exact h.socket k (ho ▸ hk)
    · cases ho.symm.trans hk
      exact (h.socket k' hk').take hin
  | answer hk hid => exact h.answer hk hid

end Client

/-- **Every call gets its own answer** in lock step mode, and every call that starts with nothing
pending on its connection does in the other mode: in any run of calls, time-outs, reconnections and
answers, if such a call returns `0` its response is deserialized from the peer's answer to the
request that was passed to it. -/
theorem call_gets_own_answer {Request Response : Type} {env : Env}
    {objects : Objects Request Response} {lockStep : Bool} {as : List (Client.Act Request Response)}
    {s : Client Request Response}
    (hrun : StepRun.run (Client.step env objects) (.new lockStep) as = some s) :
    ∀ r ∈ s.log, s.Alone r.toCall → Client.Own env objects s r :=
  (StepRun.invariant_of_run Client.inv_step hrun (Client.inv_new lockStep)).log

/-- Calls of the method `"e"` with a flag in both directions. -/
def flagObjects : Objects Bool Bool where
  method _ := [0x65]
  serialize := serializeToByteArray roomy flagPb (i := ())
  deserialize := deserializeFromByteArray flagPb (i := ())

/-- The response `true`. -/
def trueMsg : Msg := ⟨fun i => [0x04, 0x08, 0x01].getD i 0, 3, by norm_num⟩

/-- The response `false`. -/
def falseMsg : Msg := ⟨fun i => [0x04, 0x08, 0x00].getD i 0, 3, by norm_num⟩

/-- A call times out, the client reconnects, and the next call is answered. -/
def reconnecting : List (Client.Act Bool Bool) :=
  [.connect true, .send false false false, .recv .timeout, .answer 0 falseMsg, .reconnect true,
    .send true false false, .answer 1 trueMsg, .recv .fine]

/-- The same without the reconnection, and before the second call is answered. -/
def stale : List (Client.Act Bool Bool) :=
  [.connect true, .send false false false, .recv .timeout, .answer 0 falseMsg,
    .send true true false, .recv .fine]

theorem call_gets_own_answer_reconnecting : ∃ s,
    StepRun.run (Client.step roomy flagObjects) (.new false) reconnecting = some s ∧
      s.log.map (·.ret) = [none, some true] ∧ ∀ r ∈ s.log, Client.Own roomy flagObjects s r := by
  have h : ((StepRun.run (Client.step roomy flagObjects) (.new false) reconnecting).any fun s =>
      decide (s.log.map (·.ret) = [none, some true]) &&
        s.log.all (·.clean)) = true := by
    decide +kernel
  obtain ⟨s, hs, hp⟩ := (Option.any_eq_true _ _).mp h
  rw [Bool.and_eq_true, List.all_eq_true] at hp
  exact ⟨s, hs, of_decide_eq_true hp.1,
    fun r hr => call_gets_own_answer hs r hr (.inr (hp.2 r hr))⟩

/-- Without lock step, a call returns `0` with the late answer to the call before it, and its own
request has not been answered at all. -/
theorem late_answer_taken : ∃ s,
    StepRun.run (Client.step roomy flagObjects) (.new false) stale = some s ∧
      ∃ r ∈ s.log, r.request = true ∧ r.id = some 1 ∧ r.ret = some false ∧ s.answers 1 = none ∧
        ¬ Client.Own roomy flagObjects s r := by
  have h : ((StepRun.run (Client.step roomy flagObjects) (.new false) stale).any fun s =>
      (s.answers 1).isNone && s.log.any fun r =>
        decide (r.request = true ∧ r.id = some 1 ∧ r.ret = some false)) = true := by
    decide +kernel
  obtain ⟨s, hs, hp⟩ := (Option.any_eq_true _ _).mp h
  rw [Bool.and_eq_true, List.any_eq_true] at hp
  obtain ⟨hnone, r, hr, hp⟩ := hp
  obtain ⟨hreq, hid, hret⟩ := of_decide_eq_true hp
  rw [Option.isNone_iff_eq_none] at hnone
  refine ⟨s, hs, r, hr, hreq, hid, hret, hnone, fun hown => ?_⟩
  obtain ⟨id, w, m, rest, hid', -, -, hm, -⟩ := hown false hret
  rw [hid] at hid'
  cases hid'
  rw [hnone] at hm
  cases hm

end Sperm.Sasuke
