import Sperm.Itachi.AsyncSocket

/-!
# Calls on a socket (`itachi/asocket.h`, `itachi/asocket.cc`)

The functions of `AsyncSocket` that user code calls, each from its beginning to its end with no
other thread in between.

* `State.launch`; **`run_launch`**: the statements of `launch` in a row do this.
* `World`: a socket, its itachi and the messages. `bindAndListen`, `connect`, `reconnect`, `close`,
  `call` (which is `recv` and `send`) and `takeOutMessage`.
* `NoEffect`: what a refused call should leave alone. **`noEffect_iff`**: when it does.
* `Op`, `step`: sequences of calls, up to the destructor. `Alive`: the socket never keeps or deletes
  a dead message. **`alive_iff_noResident`**: this holds exactly in the sequences in which `close`
  and `reconnect` find no message in the socket.
-/

namespace Sperm.Itachi

variable {Ctx : Type} [DecidableEq Ctx] {n m : ℕ}

namespace State

variable {s t : State Ctx n m} {c : Ctx}

/-- `launch` gets as far as the push of a context that has a type. -/
def Launchable (s : State Ctx n m) (c : Ctx) : Prop := s.mine c = true ∧ s.stop = false

instance (s : State Ctx n m) (c : Ctx) : Decidable (s.Launchable c) :=
  inferInstanceAs (Decidable (_ ∧ _))

theorem release_acquire (h : 1 ≤ s.refCount c) : (s.acquire c).release c = s := by
  have hne : s.refCount c ≠ 0 := by omega
  simp only [release, acquire, Function.update_self, Function.update_idem, add_sub_cancel_right,
    Function.update_eq_self, if_neg hne]

@[simp] theorem launchPc_launchGoto (s : State Ctx n m) (c : Ctx) (p : Option LaunchPc) :
    (s.launchGoto c p).launchPc c = p := Function.update_self _ _ _

@[simp] theorem launchGoto_launchGoto (s : State Ctx n m) (c : Ctx) (p q : Option LaunchPc) :
    (s.launchGoto c p).launchGoto c q = s.launchGoto c q := by
  simp only [launchGoto, Function.update_idem]

@[simp] theorem accept_launchGoto (s : State Ctx n m) (c : Ctx) (p : Option LaunchPc) :
    (s.launchGoto c p).accept c = s.accept c := by
  simp only [accept, launchGoto, Function.update_idem]

variable [NeZero n] [NeZero m]

/-- `launch(ctx)`. -/
def launch (s : State Ctx n m) (c : Ctx) : Option (Bool × State Ctx n m) :=
  if s.mine c = false then some (false, s)
  else
    let s := s.acquire c
    if (s.ctx c).type = .nop ∨ s.stop = true then some (false, s.release c)
    else (s.push c).map fun t => (true, t.accept c)

theorem launch_of_not_launchable (h : 1 ≤ s.refCount c) (hl : ¬ s.Launchable c) :
    s.launch c = some (false, s) := by
  unfold launch
  by_cases hm : s.mine c = true
  · have hstop : s.stop = true := by simpa [Launchable, hm] using hl
    rw [if_neg (by simp [hm])]
    dsimp only
    rw [if_pos (.inr hstop), release_acquire h]
  · rw [if_pos (by simpa using hm)]

theorem launch_of_launchable (hl : s.Launchable c) (hty : (s.ctx c).type ≠ .nop) :
    s.launch c = ((s.acquire c).push c).map fun t => (true, t.accept c) := by
  have hnot : ¬ (((s.acquire c).ctx c).type = .nop ∨ (s.acquire c).stop = true) := by
    rintro (h | h)
    · exact hty h
    · exact absurd (hl.2.symm.trans h) (by decide)
  rw [launch, if_neg (by simp [hl.1])]
  exact if_neg hnot

theorem push_launchGoto (s : State Ctx n m) (c : Ctx) (p : Option LaunchPc) :
    (s.launchGoto c p).push c = (s.push c).map (·.launchGoto c p) := by
  have hcpu : (s.launchGoto c p).cpuPush c = (s.cpuPush c).map (·.launchGoto c p) := by
    rw [cpuPush, cpuPush, Option.map_map]
    rfl
  have hpoll : (s.launchGoto c p).pollPush c = (s.pollPush c).map (·.launchGoto c p) := by
    rw [pollPush, pollPush, Option.map_map]
    rfl
  have htype : ((s.launchGoto c p).ctx c).type = (s.ctx c).type := rfl
  rw [push, push, htype]
  cases (s.ctx c).type with
  | nop => rfl
  | cpu => exact hcpu
  | net => exact hpoll

theorem launchStep_acquired (s : State Ctx n m) (c : Ctx) :
    (s.launchGoto c (some .acquired)).launchStep c =
      some (s.launchGoto c (some (if (s.ctx c).type = .nop ∨ s.stop = true then .rollback
        else .push))) := by
  have htype : ((s.launchGoto c (some .acquired)).ctx c).type = (s.ctx c).type := rfl
  rw [launchStep, launchPc_launchGoto, htype]
  cases (s.ctx c).type with
  | nop => simp
  | cpu | net =>
    simp only [launchGoto_launchGoto, reduceCtorEq, false_or]
    rfl

theorem launchStep_push (s : State Ctx n m) (c : Ctx) :
    (s.launchGoto c (some .push)).launchStep c = (s.push c).map (·.accept c) := by
  rw [launchStep, launchPc_launchGoto]
  dsimp only
  rw [push_launchGoto, Option.map_map]
  congr 1
  funext t
  simp

theorem launchStep_rollback (s : State Ctx n m) (c : Ctx) :
    (s.launchGoto c (some .rollback)).launchStep c = some ((s.release c).launchGoto c none) := by
  have hrelease : (s.launchGoto c (some .rollback)).release c =
      (s.release c).launchGoto c (some .rollback) := rfl
  rw [launchStep, launchPc_launchGoto]
  dsimp only
  rw [hrelease, launchGoto_launchGoto]

/-- **The statements of `launch` in a row** do what `launch` does. -/
theorem run_launch (ha : s.aborted = false) (hc : s.Idle c) (hm : s.mine c = true) :
    StepRun.run step s [.launch c, .launchStep c, .launchStep c] = (s.launch c).map Prod.snd := by
  have hstep : ∀ p, step ((s.acquire c).launchGoto c p) (.launchStep c) =
      ((s.acquire c).launchGoto c p).launchStep c := by
    intro p
    exact if_neg (by simp [launchGoto, acquire, ha])
  have h₁ : step s (.launch c) = some ((s.acquire c).launchGoto c (some .acquired)) := by
    simp [step, ha, hc, hm]
  have hmine : s.mine c ≠ false := by simp [hm]
  simp only [StepRun.run, h₁, Option.bind_some]
  rw [hstep, launchStep_acquired, Option.bind_some, hstep, Option.bind_fun_some, launch,
    if_neg hmine]
  dsimp only
  split_ifs
  · rw [launchStep_rollback, Option.map_some]
    have hnone : ((s.acquire c).release c).launchPc c = none := hc.2
    simp only [launchGoto, ← hnone, Function.update_eq_self]
  · rw [launchStep_push, Option.map_map]
    rfl

end State

namespace AsyncSocket

variable {Ptr : Type} [DecidableEq Ptr]

/-! ## The functions of a socket -/

def aaConnect : ℤ := 4

def aaConnected : ℤ := 5

def aaBindListen : ℤ := 6

/-- `EV_READ` and `EV_WRITE`. -/
def evRead : ℤ := 1

def evWrite : ℤ := 2

/-- The fields of `net` that only user code writes. -/
structure Net where
  fd : ℤ
  events : ℤ
  timeoutMs : ℤ
  deriving DecidableEq

/-- A socket with its itachi and all messages. `deletes` counts how many times a message was
deleted, so a message is live when it is `0`. `closed` says that `close` or a successful `reconnect`
has returned and no message was put into the socket since, `destroyed` that the destructor has
run. -/
structure World (Ctx : Type) (n m : ℕ) (Ptr : Type) where
  itachi : Itachi.State Ctx n m
  net : Net
  socket : Socket Ptr
  ip : String
  port : ℤ
  timeoutMs : ℤ
  heap : Ptr → Message
  deletes : Ptr → ℕ
  closed : Bool
  destroyed : Bool

/-- What the system gives to `connect` and `bindAndListen`: the result of `create_tcp_socket()`, and
that of `tcp_connect(fd, ip, port)` or `tcp_bind_listen(fd, ip, port, backlog)`. -/
structure Tcp where
  fd : ℤ
  code : ℤ
  deriving DecidableEq

/-- What `initNetReadEvent` or `initNetWriteEvent` make of `net`. -/
def Call.net (call : Call Ptr) (fd : ℤ) : Net :=
  match call.kind with
  | .recv => ⟨fd, evRead, call.timeoutMs⟩
  | .send => ⟨fd, evWrite, call.timeoutMs⟩

namespace World

/-- `AsyncSocket(itachi)`, and `AsyncSocket(conn, fd)` for another `fd`. What the constructors leave
uninitialised is given. -/
def new (itachi : Itachi.State Ctx n m) (fd events netTimeoutMs : ℤ) (ioTimestamp : UInt64)
    (ioTimeoutMs timeoutMs : ℤ) (heap : Ptr → Message) : World Ctx n m Ptr where
  itachi := itachi
  net := ⟨fd, events, netTimeoutMs⟩
  socket := ⟨ioTimestamp, ioTimeoutMs, none⟩
  ip := "255.255.255.255"
  port := -1
  timeoutMs := timeoutMs
  heap := heap
  deletes _ := 0
  closed := false
  destroyed := false

/-- The event fields of the socket are assigned. -/
def init (c : Ctx) (w : World Ctx n m Ptr) (x : Context) (net : Net) : World Ctx n m Ptr :=
  { w with itachi := { w.itachi with ctx := Function.update w.itachi.ctx c x }, net := net }

/-- `initNetReadEvent(action, fd, timeout_ms)` or `initNetWriteEvent(action, fd, timeout_ms)`. -/
def initNetEvent (c : Ctx) (w : World Ctx n m Ptr) (action : ℤ) (net : Net) : World Ctx n m Ptr :=
  w.init c { w.itachi.ctx c with type := .net, action := action, timeout := false } net

/-- `close()`. -/
def close (w : World Ctx n m Ptr) : World Ctx n m Ptr :=
  { w with
    net := { w.net with fd := -1 }
    deletes :=
      match w.socket.msg with
      | none => w.deletes
      | some p => Function.update w.deletes p (w.deletes p + 1) }

/-- `takeOutMessage()`. -/
def takeOutMessage (w : World Ctx n m Ptr) : Option Ptr × World Ctx n m Ptr :=
  (w.socket.msg, { w with socket := { w.socket with msg := none } })

variable [NeZero n] [NeZero m]

/-- `itachi->launch(this)`. -/
def launch (c : Ctx) (w : World Ctx n m Ptr) : Option (Bool × World Ctx n m Ptr) :=
  (w.itachi.launch c).map fun (ok, t) => (ok, { w with itachi := t })

/-- `bindAndListen(ip, port, backlog)`. -/
def bindAndListen (c : Ctx) (tcp : Tcp) (w : World Ctx n m Ptr) :
    Option (Bool × World Ctx n m Ptr) :=
  if tcp.fd = -1 then some (false, w)
  else if tcp.code = -1 then some (false, w)
  else (w.initNetEvent c aaBindListen ⟨tcp.fd, evRead, -1⟩).launch c

/-- `connect(ip, port, timeout_ms)`. -/
def connect (c : Ctx) (ip : String) (port timeoutMs : ℤ) (tcp : Tcp) (w : World Ctx n m Ptr) :
    Option (Bool × World Ctx n m Ptr) :=
  let w := { w with ip := ip, port := port, timeoutMs := timeoutMs }
  if tcp.fd = -1 then some (false, w)
  else if tcp.code = -1 then some (false, w)
  else if tcp.code = 0 then
    (w.init c ((w.itachi.ctx c).initCpuEvent aaConnected false)
      { w.net with fd := tcp.fd }).launch c
  else (w.initNetEvent c aaConnect ⟨tcp.fd, evWrite, timeoutMs⟩).launch c

/-- `reconnect()`. -/
def reconnect (c : Ctx) (tcp : Tcp) (w : World Ctx n m Ptr) : Option (Bool × World Ctx n m Ptr) :=
  w.close.connect c w.ip w.port w.timeoutMs tcp

/-- `recv(msg, timeout_ms)` or `send(msg, timeout_ms)`. -/
def call (c : Ctx) (call : Call Ptr) (w : World Ctx n m Ptr) :
    Option (Bool × World Ctx n m Ptr) :=
  ((w.initNetEvent c call.action (call.net w.net.fd)).launch c).map fun (ok, w) =>
    if ok = false then (false, w)
    else if w.socket.msg ≠ none then (false, w)
    else
      (true, { w with
        heap := Function.update w.heap call.msg (call.prepare (w.heap call.msg))
        socket := ⟨call.now, call.timeoutMs, some call.msg⟩ })

end World

/-! ## Refused calls -/

/-- No event is queued, and the socket, its references and all messages are as before. -/
structure NoEffect (c : Ctx) (w w' : World Ctx n m Ptr) : Prop where
  cpuQueue : w'.itachi.cpuQueue = w.itachi.cpuQueue
  pollQueue : w'.itachi.pollQueue = w.itachi.pollQueue
  next : w'.itachi.next = w.itachi.next
  ctx : w'.itachi.ctx c = w.itachi.ctx c
  net : w'.net = w.net
  socket : w'.socket = w.socket
  refCount : w'.itachi.refCount = w.itachi.refCount
  deleted : w'.itachi.deleted = w.itachi.deleted
  heap : w'.heap = w.heap

/-- The event fields are already what the call makes of them. -/
def SameEvent (c : Ctx) (call : Call Ptr) (w : World Ctx n m Ptr) : Prop :=
  call.initNetEvent (w.itachi.ctx c) = w.itachi.ctx c ∧ call.net w.net.fd = w.net

/-- The call is not refused, or all that it did before it is refused is to assign the event fields
what they are. -/
def NothingToUndo (c : Ctx) (call : Call Ptr) (w : World Ctx n m Ptr) : Prop :=
  (w.itachi.Launchable c ∧ w.socket.msg = none) ∨ (¬ w.itachi.Launchable c ∧ SameEvent c call w)

section

variable [NeZero n] [NeZero m] {c : Ctx} {call : Call Ptr} {w w' : World Ctx n m Ptr} {ok : Bool}

theorem call_of_not_launchable (href : 1 ≤ w.itachi.refCount c) (hl : ¬ w.itachi.Launchable c) :
    w.call c call = some (false, w.initNetEvent c call.action (call.net w.net.fd)) := by
  have hlaunch : (w.initNetEvent c call.action (call.net w.net.fd)).itachi.launch c =
      some (false, (w.initNetEvent c call.action (call.net w.net.fd)).itachi) :=
    State.launch_of_not_launchable href hl
  simp only [World.call, World.launch, hlaunch, Option.map_some, if_true]

/-- A call that `launch` accepts has acquired the socket, also when a message resides in it. -/
theorem call_of_launchable (hl : w.itachi.Launchable c) (hcall : w.call c call = some (ok, w')) :
    w'.itachi.refCount c = w.itachi.refCount c + 1 ∧ (ok = true ↔ w.socket.msg = none) := by
  have htype : ((w.initNetEvent c call.action (call.net w.net.fd)).itachi.ctx c).type ≠ .nop := by
    simp [World.initNetEvent, World.init]
  have hlaunch := State.launch_of_launchable
    (s := (w.initNetEvent c call.action (call.net w.net.fd)).itachi) hl htype
  obtain ⟨⟨ok₁, w₁⟩, h₁, heq⟩ := Option.map_eq_some_iff.mp hcall
  obtain ⟨⟨ok₂, t₂⟩, h₂, heq₁⟩ := Option.map_eq_some_iff.mp h₁
  rw [hlaunch] at h₂
  obtain ⟨t, ht, heq₂⟩ := Option.map_eq_some_iff.mp h₂
  obtain ⟨next, cpuQueue, pollQueue, rfl⟩ := State.push_cases ht
  obtain ⟨rfl, rfl⟩ := Prod.mk.inj heq₂
  obtain ⟨rfl, rfl⟩ := Prod.mk.inj heq₁
  have hcount : Function.update w.itachi.refCount c (w.itachi.refCount c + 1) c =
      w.itachi.refCount c + 1 := Function.update_self _ _ _
  have hsocket : (w.initNetEvent c call.action (call.net w.net.fd)).socket = w.socket := rfl
  dsimp only at heq
  rw [if_neg (by decide), hsocket] at heq
  split_ifs at heq with hmsg
  · obtain ⟨rfl, rfl⟩ := Prod.mk.inj heq
    exact ⟨hcount, by simpa using hmsg⟩
  · obtain ⟨rfl, rfl⟩ := Prod.mk.inj heq
    exact ⟨hcount, by simpa using hmsg⟩

omit [DecidableEq Ptr] [NeZero n] [NeZero m] in
theorem noEffect_initNetEvent_iff :
    NoEffect c w (w.initNetEvent c call.action (call.net w.net.fd)) ↔ SameEvent c call w := by
  have hctx : (w.initNetEvent c call.action (call.net w.net.fd)).itachi.ctx c =
      call.initNetEvent (w.itachi.ctx c) := Function.update_self _ _ _
  constructor
  · intro h
    exact ⟨hctx.symm.trans h.ctx, h.net⟩
  · intro h
    exact ⟨rfl, rfl, rfl, hctx.trans h.1, h.2, rfl, rfl, rfl, rfl⟩

/-- **A refused call has no effect** exactly when it has nothing to undo: `launch` comes before the
test for a resident message, and the event fields are assigned before both. -/
theorem noEffect_iff (href : 1 ≤ w.itachi.refCount c) (hcall : w.call c call = some (ok, w')) :
    (ok = false → NoEffect c w w') ↔ NothingToUndo c call w := by
  by_cases hl : w.itachi.Launchable c
  · obtain ⟨hcount, hok⟩ := call_of_launchable hl hcall
    have hnothing : NothingToUndo c call w ↔ w.socket.msg = none := by
      simp [NothingToUndo, hl]
    rw [hnothing, ← hok]
    constructor
    · intro h
      by_contra hfalse
      have := congrFun (h (by simpa using hfalse)).refCount c
      omega
    · rintro rfl
      nofun
  · rw [call_of_not_launchable href hl, Option.some.injEq, Prod.mk.injEq] at hcall
    obtain ⟨rfl, rfl⟩ := hcall
    have hnothing : NothingToUndo c call w ↔ SameEvent c call w := by
      simp [NothingToUndo, hl]
    rw [hnothing, ← noEffect_initNetEvent_iff]
    exact ⟨fun h => h rfl, fun h _ => h⟩

end

/-- A socket that has the event of `recv(msg, 1000)` in its fields, with two messages. -/
def recvWorld (stop : Bool) (msg : Option Bool) : World Unit 1 1 Bool where
  itachi :=
    { Itachi.State.new 1 1 (fun _ => ⟨.net, aaRead, false, 0, false, false, false⟩)
        (fun _ => true) with stop := stop }
  net := ⟨3, evRead, 1000⟩
  socket := ⟨0, 0, msg⟩
  ip := "255.255.255.255"
  port := -1
  timeoutMs := -1
  heap _ := ⟨0, [1], 7⟩
  deletes _ := 0
  closed := false
  destroyed := false

/-- A call `recv(msg, 1000)` with the other message. -/
def nextRecv : Call Bool := ⟨.recv, true, 1000, 5⟩

/-- A stopped itachi refuses the same `recv` once more. -/
theorem noEffect_stopped : ∃ w', (recvWorld true none).call () nextRecv = some (false, w') ∧
    NoEffect () (recvWorld true none) w' := by
  have hnothing : NothingToUndo () nextRecv (recvWorld true none) :=
    .inr ⟨by decide, by decide, by decide⟩
  exact ⟨_, rfl, (noEffect_iff (by decide) rfl).mpr hnothing rfl⟩

/-- A message resides in the socket: the call is refused, but the socket is in the queue of the poll
thread and has one more reference. -/
theorem resident_launched : ∃ w', (recvWorld false (some false)).call () nextRecv =
    some (false, w') ∧ (w'.itachi.pollQueue only).head = some () ∧
      w'.itachi.refCount () = (recvWorld false (some false)).itachi.refCount () + 1 ∧
        ¬ NoEffect () (recvWorld false (some false)) w' := by
  refine ⟨_, rfl, rfl, rfl, fun h => ?_⟩
  exact absurd (congrFun h.refCount ()) (by decide)

/-! ## The message of a socket -/

inductive Op (Ctx : Type) (n m : ℕ) (Ptr : Type) where
  | bindAndListen (tcp : Tcp)
  | connect (ip : String) (port timeoutMs : ℤ) (tcp : Tcp)
  | reconnect (tcp : Tcp)
  | close
  /-- `recv` or `send`. -/
  | call (call : Call Ptr)
  | takeOutMessage
  /-- The destructor. -/
  | destroy
  /-- User code deletes a message that it has. -/
  | delete (p : Ptr)
  /-- All the other threads go on, and messages are read and written. -/
  | others (itachi : Itachi.State Ctx n m) (heap : Ptr → Message)

/-- The socket never keeps or deletes a dead message, and after `close` it has none. -/
structure Alive (w : World Ctx n m Ptr) : Prop where
  resident : w.destroyed = false → ∀ p, w.socket.msg = some p → w.deletes p = 0
  once : ∀ p, w.deletes p ≤ 1
  closed : w.destroyed = false → w.closed = true → w.socket.msg = none

/-- `close` and `reconnect` find no message in the socket. -/
def NoResident (w : World Ctx n m Ptr) : Op Ctx n m Ptr → Prop
  | .close | .reconnect _ => w.socket.msg = none
  | _ => True

instance (w : World Ctx n m Ptr) (op : Op Ctx n m Ptr) : Decidable (NoResident w op) :=
  match op with
  | .close | .reconnect _ => inferInstanceAs (Decidable (_ = _))
  | .bindAndListen _ | .connect .. | .call _ | .takeOutMessage | .destroy | .delete _ |
    .others .. => isTrue trivial

/-- Nothing is done to the messages. -/
structure SameMessages (w w' : World Ctx n m Ptr) : Prop where
  msg : w'.socket.msg = w.socket.msg
  deletes : w'.deletes = w.deletes
  closed : w'.closed = w.closed
  destroyed : w'.destroyed = w.destroyed

section

omit [DecidableEq Ctx]

variable {w w' : World Ctx n m Ptr}

theorem deletes_close_of_none (h : w.socket.msg = none) : w.close.deletes = w.deletes := by
  simp only [World.close, h]

theorem deletes_close_of_some {p : Ptr} (h : w.socket.msg = some p) :
    w.close.deletes = Function.update w.deletes p (w.deletes p + 1) := by
  simp only [World.close, h]

omit [DecidableEq Ptr] in
theorem Alive.of_same (h : Alive w) (hs : SameMessages w w') : Alive w' where
  resident := by
    rw [hs.destroyed, hs.msg, hs.deletes]
    exact h.resident
  once := by
    rw [hs.deletes]
    exact h.once
  closed := by
    rw [hs.destroyed, hs.closed, hs.msg]
    exact h.closed

omit [DecidableEq Ptr] in
theorem Alive.of_none (h : Alive w) (hmsg : w'.socket.msg = none)
    (hdeletes : w'.deletes = w.deletes) : Alive w' where
  resident _ p hp := by
    rw [hmsg] at hp
    cases hp
  once := by
    rw [hdeletes]
    exact h.once
  closed _ _ := hmsg

theorem Alive.destroy (h : Alive w) (hw : w.destroyed = false) :
    Alive { w.close with destroyed := true } where
  resident := nofun
  once p := by
    change w.close.deletes p ≤ 1
    cases hmsg : w.socket.msg with
    | none =>
      rw [deletes_close_of_none hmsg]
      exact h.once p
    | some q =>
      rw [deletes_close_of_some hmsg, h.resident hw q hmsg, Function.update_apply]
      split_ifs
      · exact le_rfl
      · exact h.once p
  closed := nofun

theorem Alive.delete (h : Alive w) {p : Ptr} (hp : w.socket.msg ≠ some p) :
    Alive { w with deletes := Function.update w.deletes p 1 } where
  resident hw q hq := by
    have hne : q ≠ p := by
      rintro rfl
      exact hp hq
    exact (Function.update_of_ne hne _ _).trans (h.resident hw q hq)
  once q := by
    change Function.update w.deletes p 1 q ≤ 1
    rw [Function.update_apply]
    split_ifs
    · exact le_rfl
    · exact h.once q
  closed := h.closed

/-- `close` deletes a message and keeps it in the socket. -/
theorem not_alive_of_close {p : Ptr} (hmsg : w.socket.msg = some p) (hw : w'.destroyed = false)
    (hmsg' : w'.socket.msg = w.socket.msg) (hdeletes : w'.deletes = w.close.deletes) :
    ¬ Alive w' := by
  intro h
  have hlive := h.resident hw p (hmsg'.trans hmsg)
  rw [hdeletes, deletes_close_of_some hmsg, Function.update_self] at hlive
  exact absurd hlive (Nat.succ_ne_zero _)

end

section

variable [NeZero n] [NeZero m]

/-- One call. A message is given to the socket, or deleted by user code, only while it is live, and
while it resides in the socket user code does not delete it. -/
def step (c : Ctx) (w : World Ctx n m Ptr) (op : Op Ctx n m Ptr) : Option (World Ctx n m Ptr) :=
  if w.destroyed then none
  else
    match op with
    | .bindAndListen tcp => (w.bindAndListen c tcp).map Prod.snd
    | .connect ip port timeoutMs tcp => (w.connect c ip port timeoutMs tcp).map Prod.snd
    | .reconnect tcp =>
      (w.reconnect c tcp).map fun (ok, w') => { w' with closed := ok || w'.closed }
    | .close => some { w.close with closed := true }
    | .call call =>
      if w.deletes call.msg = 0 then
        (w.call c call).map fun (ok, w') => { w' with closed := !ok && w'.closed }
      else none
    | .takeOutMessage => some w.takeOutMessage.2
    | .destroy => some { w.close with destroyed := true }
    | .delete p =>
      if w.deletes p = 0 ∧ w.socket.msg ≠ some p then
        some { w with deletes := Function.update w.deletes p 1 }
      else none
    | .others itachi heap => some { w with itachi := itachi, heap := heap }

variable {c : Ctx} {call : Call Ptr} {w w₁ w' : World Ctx n m Ptr} {ok : Bool} {tcp : Tcp}

omit [DecidableEq Ptr] in
theorem sameMessages_launch (hlaunch : w₁.launch c = some (ok, w')) (h : SameMessages w w₁) :
    SameMessages w w' := by
  obtain ⟨⟨ok₁, t⟩, -, heq⟩ := Option.map_eq_some_iff.mp hlaunch
  obtain ⟨-, rfl⟩ := Prod.mk.inj heq
  exact ⟨h.msg, h.deletes, h.closed, h.destroyed⟩

omit [DecidableEq Ptr] in
theorem sameMessages_bindAndListen (h : w.bindAndListen c tcp = some (ok, w')) :
    SameMessages w w' := by
  unfold World.bindAndListen at h
  split_ifs at h
  · cases h
    exact ⟨rfl, rfl, rfl, rfl⟩
  · cases h
    exact ⟨rfl, rfl, rfl, rfl⟩
  · exact sameMessages_launch h ⟨rfl, rfl, rfl, rfl⟩

omit [DecidableEq Ptr] in
theorem sameMessages_connect {ip : String} {port timeoutMs : ℤ}
    (h : w.connect c ip port timeoutMs tcp = some (ok, w')) : SameMessages w w' := by
  unfold World.connect at h
  dsimp only at h
  split_ifs at h
  · cases h
    exact ⟨rfl, rfl, rfl, rfl⟩
  · cases h
    exact ⟨rfl, rfl, rfl, rfl⟩
  · exact sameMessages_launch h ⟨rfl, rfl, rfl, rfl⟩
  · exact sameMessages_launch h ⟨rfl, rfl, rfl, rfl⟩

theorem call_messages (h : w.call c call = some (ok, w')) :
    w'.socket.msg = (if ok = true then some call.msg else w.socket.msg) ∧ w'.deletes = w.deletes ∧
      w'.closed = w.closed ∧ w'.destroyed = w.destroyed := by
  obtain ⟨⟨ok₁, w₁⟩, h₁, heq⟩ := Option.map_eq_some_iff.mp h
  obtain ⟨hmsg, hdeletes, hclosed, hdestroyed⟩ : SameMessages w w₁ :=
    sameMessages_launch h₁ ⟨rfl, rfl, rfl, rfl⟩
  dsimp only at heq
  split_ifs at heq
  · obtain ⟨rfl, rfl⟩ := Prod.mk.inj heq
    exact ⟨hmsg, hdeletes, hclosed, hdestroyed⟩
  · obtain ⟨rfl, rfl⟩ := Prod.mk.inj heq
    exact ⟨hmsg, hdeletes, hclosed, hdestroyed⟩
  · obtain ⟨rfl, rfl⟩ := Prod.mk.inj heq
    exact ⟨rfl, hdeletes, hclosed, hdestroyed⟩

theorem Alive.of_call (h : Alive w) (hlive : w.deletes call.msg = 0)
    (hcall : w.call c call = some (ok, w')) :
    Alive { w' with closed := !ok && w'.closed } := by
  obtain ⟨hmsg, hdeletes, hclosed, hdestroyed⟩ := call_messages hcall
  cases ok with
  | false => exact h.of_same ⟨hmsg, hdeletes, hclosed, hdestroyed⟩
  | true =>
    refine ⟨fun _ p hp => ?_, ?_, nofun⟩
    · obtain rfl : call.msg = p := Option.some.inj (hmsg.symm.trans hp)
      exact (congrFun hdeletes _).trans hlive
    · change ∀ p, w'.deletes p ≤ 1
      rw [hdeletes]
      exact h.once

theorem alive_step (w : World Ctx n m Ptr) (op : Op Ctx n m Ptr) (w' : World Ctx n m Ptr)
    (hG : NoResident w op) (h : Alive w) (hs : step c w op = some w') : Alive w' := by
  unfold step at hs
  split_ifs at hs with hw
  cases op with
  | bindAndListen tcp =>
    obtain ⟨⟨ok, w₁⟩, h₁, rfl⟩ := Option.map_eq_some_iff.mp hs
    exact h.of_same (sameMessages_bindAndListen h₁)
  | connect ip port timeoutMs tcp =>
    obtain ⟨⟨ok, w₁⟩, h₁, rfl⟩ := Option.map_eq_some_iff.mp hs
    exact h.of_same (sameMessages_connect h₁)
  | reconnect tcp =>
    obtain ⟨⟨ok, w₁⟩, h₁, rfl⟩ := Option.map_eq_some_iff.mp hs
    have hsame := sameMessages_connect h₁
    exact h.of_none (hsame.msg.trans hG) (hsame.deletes.trans (deletes_close_of_none hG))
  | close =>
    cases hs
    exact h.of_none hG (deletes_close_of_none hG)
  | call call =>
    dsimp only at hs
    split_ifs at hs with hlive
    obtain ⟨⟨ok, w₁⟩, h₁, rfl⟩ := Option.map_eq_some_iff.mp hs
    exact h.of_call hlive h₁
  | takeOutMessage =>
    cases hs
    exact h.of_none rfl rfl
  | destroy =>
    cases hs
    exact h.destroy (by simpa using hw)
  | delete p =>
    dsimp only at hs
    split_ifs at hs with hp
    cases hs
    exact h.delete hp.2
  | others itachi heap =>
    cases hs
    exact h.of_same ⟨rfl, rfl, rfl, rfl⟩

theorem not_alive_step (w : World Ctx n m Ptr) (op : Op Ctx n m Ptr) (w' : World Ctx n m Ptr)
    (hG : ¬ NoResident w op) (hs : step c w op = some w') : ¬ Alive w' := by
  unfold step at hs
  split_ifs at hs with hw
  have hdestroyed : w.destroyed = false := by simpa using hw
  cases op with
  | close =>
    obtain ⟨p, hmsg⟩ := Option.ne_none_iff_exists'.mp hG
    cases hs
    exact not_alive_of_close hmsg hdestroyed rfl rfl
  | reconnect tcp =>
    obtain ⟨p, hmsg⟩ := Option.ne_none_iff_exists'.mp hG
    obtain ⟨⟨ok, w₁⟩, h₁, rfl⟩ := Option.map_eq_some_iff.mp hs
    have hsame := sameMessages_connect h₁
    exact not_alive_of_close hmsg (hsame.destroyed.trans hdestroyed) hsame.msg hsame.deletes
  | bindAndListen | connect | call | takeOutMessage | destroy | delete | others =>
    exact absurd trivial hG

/-- **The socket never keeps or deletes a dead message** exactly in the sequences of calls in which
`close` and `reconnect` find no message in it: `close` deletes the message and does not forget it.
The destructor, after which there is no `msg_` any more, may find one. -/
theorem alive_iff_noResident {itachi : Itachi.State Ctx n m} {fd events netTimeoutMs : ℤ}
    {ioTimestamp : UInt64} {ioTimeoutMs timeoutMs : ℤ} {heap : Ptr → Message}
    {ops : List (Op Ctx n m Ptr)}
    (hrun : StepRun.run (step c)
      (.new itachi fd events netTimeoutMs ioTimestamp ioTimeoutMs timeoutMs heap) ops = some w) :
    StepRun.Always (step c) Alive
        (.new itachi fd events netTimeoutMs ioTimestamp ioTimeoutMs timeoutMs heap) ops ↔
      StepRun.Guarded (step c) NoResident
        (.new itachi fd events netTimeoutMs ioTimestamp ioTimeoutMs timeoutMs heap) ops := by
  refine StepRun.always_iff_guarded (I := fun _ => True) (fun _ _ _ _ _ => trivial)
    (fun w op w' hG _ => alive_step w op w' hG) (fun w op w' hG _ => not_alive_step w op w' hG) hrun
    trivial ?_
  exact ⟨nofun, fun _ => Nat.zero_le _, nofun⟩

end

/-- A new socket of an itachi that is started, with one message. -/
def newWorld : World Unit 1 1 Unit :=
  .new (.new 1 1 (fun _ => ⟨.nop, 0, false, 0, false, false, false⟩) fun _ => true) (-1) 0 0 0 0 0
    fun _ => ⟨0, [1], 7⟩

/-- The handlers have completed what was launched. -/
def completed : Op Unit 1 1 Unit := .others newWorld.itachi newWorld.heap

/-- The socket connects, and a `recv` on it comes to its end. -/
def received : List (Op Unit 1 1 Unit) :=
  [.connect "127.0.0.1" 19870 (-1) ⟨3, 1⟩, completed, .call recvCall, completed]

/-- The message is taken out before `reconnect`, and put back by a `send`. -/
def takenOut : List (Op Unit 1 1 Unit) :=
  received ++ [.takeOutMessage, .reconnect ⟨4, 0⟩, completed, .call ⟨.send, (), -1, 6⟩, .destroy]

/-- The destructor deletes the message. -/
theorem alive_takeOutMessage : ∃ w, StepRun.run (step ()) newWorld takenOut = some w ∧
    w.deletes () = 1 ∧ StepRun.Always (step ()) Alive newWorld takenOut := by
  refine ⟨_, rfl, rfl, ?_⟩
  exact (alive_iff_noResident rfl).mpr (by decide)

/-- `close` finds a message in the socket: it is deleted there, and once more by the destructor. -/
theorem close_deletes_twice : ∃ w,
    StepRun.run (step ()) newWorld (received ++ [.close, .destroy]) = some w ∧ w.deletes () = 2 ∧
      ¬ Alive w := by
  refine ⟨_, rfl, rfl, fun h => ?_⟩
  exact absurd (h.once ()) (by decide)

end AsyncSocket

end Sperm.Itachi
