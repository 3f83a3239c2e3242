import Sperm.Itachi.Handler
import Sperm.Itachi.Message

/-!
# Sockets (`AsyncSocket` in `itachi/asocket.h`, `itachi/asocket.cc`)

`recv` and `send` launch the socket, and only then prepare the message and put it into the socket.
Meanwhile the handlers' threads go on.

* `Socket`: the fields of an `AsyncSocket` that a completion reads. `Call`: one `recv` or `send`.
* `State.step`: one statement of the call, or one of any other thread. When `onComplete` starts for
  the event of the call, what it finds is recorded.
* `Prepared`: what `onComplete` should find; `AfterReturn`: the event of the call is completed only
  when the call has done all its assignments.
* **`completions_prepared_iff`**: completions find their message exactly in these runs.
-/

namespace Sperm.Itachi

namespace AsyncSocket

/-- `AA_READ` and `AA_WRITE`, behind `AA_USER`, `AA_CONNECT`, `AA_CONNECTED`, `AA_BIND_LISTEN`. -/
def aaRead : ℤ := 7

def aaWrite : ℤ := 8

structure Socket (Ptr : Type) where
  ioTimestamp : UInt64
  ioTimeoutMs : ℤ
  msg : Option Ptr
  deriving DecidableEq

inductive Kind where
  | recv
  | send
  deriving DecidableEq

/-- A call `recv(msg, timeout_ms)` or `send(msg, timeout_ms)`; `gettime_ms()` gives `now`. -/
structure Call (Ptr : Type) where
  kind : Kind
  msg : Ptr
  timeoutMs : ℤ
  now : UInt64

variable {Ptr : Type}

def Call.action (call : Call Ptr) : ℤ :=
  match call.kind with
  | .recv => aaRead
  | .send => aaWrite

/-- `initNetReadEvent` or `initNetWriteEvent`. -/
def Call.initNetEvent (call : Call Ptr) (x : Context) : Context :=
  { x with type := .net, action := call.action, timeout := false }

/-- `msg->onRecv()` or `msg->onSend()`. -/
def Call.prepare (call : Call Ptr) (m : Message) : Message :=
  match call.kind with
  | .recv => m.onRecv
  | .send => m.onSend

/-- Where the call is: before it, or before one of its statements. -/
inductive CallPc where
  | before
  | launch
  | launching
  | test
  | prepare
  | stamp
  | timeout
  | setMsg
  | returned (ok : Bool)
  deriving DecidableEq

/-- What `onComplete` finds: the fields of the socket, and the message if there is one. -/
structure Snapshot (Ptr : Type) where
  socket : Socket Ptr
  message : Option Message
  deriving DecidableEq

/-- A socket with an itachi around it. `pending` says that the launch of the call was accepted and
not completed, `done` that there is nothing left of the call. -/
structure State (Ctx : Type) (n m : ℕ) (Ptr : Type) where
  itachi : Itachi.State Ctx n m
  socket : Socket Ptr
  heap : Ptr → Message
  pc : CallPc
  pending : Bool
  done : Bool
  seen : List (Snapshot Ptr)

variable {Ctx : Type} {n m : ℕ}

/-- The action is not one on the context by user code. -/
def other [DecidableEq Ctx] (c : Ctx) : Itachi.Act Ctx n m → Bool
  | .init d _ | .launch d | .launchStep d => d ≠ c
  | _ => true

inductive Act (Ctx : Type) (n m : ℕ) where
  | call
  | itachi (a : Itachi.Act Ctx n m)

namespace State

variable [DecidableEq Ctx] [DecidableEq Ptr]

/-- A socket with `msg_ == NULL`. -/
def new (n m : ℕ) (ctx : Ctx → Context) (mine : Ctx → Bool) (ioTimestamp : UInt64)
    (ioTimeoutMs : ℤ) (heap : Ptr → Message) : State Ctx n m Ptr :=
  ⟨.new n m ctx mine, ⟨ioTimestamp, ioTimeoutMs, none⟩, heap, .before, false, false, []⟩

/-- The next step of the thread starts `onComplete` for the event of the call. -/
def completes (c : Ctx) (s : State Ctx n m Ptr) : Itachi.Act Ctx n m → Bool
  | .cpu i _ =>
    match s.itachi.cpuPc i with
    | .hand d _ => d = c && s.pending
    | _ => false
  | _ => false

/-- `Client::onComplete(ctx)`, up to `assert(ctx->msg_)`; `t` is the itachi in `onComplete`. -/
def onComplete (c : Ctx) (s : State Ctx n m Ptr) (t : Itachi.State Ctx n m) : State Ctx n m Ptr :=
  if (t.ctx c).action = aaRead ∨ (t.ctx c).action = aaWrite then
    { s with
      itachi := { t with aborted := t.aborted || s.socket.msg.isNone }
      pending := false
      done := true
      seen := s.seen ++ [⟨s.socket, s.socket.msg.map s.heap⟩] }
  else { s with itachi := t, pending := false, done := true }

variable [NeZero n] [NeZero m]

/-- The next statement of the call. -/
def callStep (c : Ctx) (call : Call Ptr) (s : State Ctx n m Ptr) : Option (State Ctx n m Ptr) :=
  if s.itachi.aborted then none
  else
    match s.pc with
    | .before =>
      if s.socket.msg = none then
        (Itachi.step s.itachi (.init c (call.initNetEvent (s.itachi.ctx c)))).map fun t =>
          { s with itachi := t, pc := .launch }
      else none
    | .launch =>
      (Itachi.step s.itachi (.launch c)).map fun t =>
        if s.itachi.mine c then { s with itachi := t, pc := .launching }
        else { s with itachi := t, pc := .returned false, done := true }
    | .launching =>
      (Itachi.step s.itachi (.launchStep c)).map fun t =>
        if t.launchPc c ≠ none then { s with itachi := t }
        else if s.itachi.launchPc c = some .push then
          { s with itachi := t, pc := .test, pending := true }
        else { s with itachi := t, pc := .returned false, done := true }
    | .test =>
      some { s with pc := if s.socket.msg = none then .prepare else .returned false }
    | .prepare =>
      some { s with
        heap := Function.update s.heap call.msg (call.prepare (s.heap call.msg)), pc := .stamp }
    | .stamp => some { s with socket := { s.socket with ioTimestamp := call.now }, pc := .timeout }
    | .timeout =>
      some { s with socket := { s.socket with ioTimeoutMs := call.timeoutMs }, pc := .setMsg }
    | .setMsg =>
      some { s with socket := { s.socket with msg := some call.msg }, pc := .returned true }
    | .returned _ => none

/-- One statement of one thread. From the start of the call until the completion of its event the
context is launched by the call only. -/
def step (c : Ctx) (call : Call Ptr) (s : State Ctx n m Ptr) :
    Act Ctx n m → Option (State Ctx n m Ptr)
  | .call => s.callStep c call
  | .itachi a =>
    if s.pc = .before ∨ s.done = true ∨ other c a = true then
      (Itachi.step s.itachi a).map fun t =>
        if s.completes c a then s.onComplete c t else { s with itachi := t }
    else none

end State

/-! ## The action of a context -/

section

variable [DecidableEq Ctx] {s s' : Itachi.State Ctx n m} {c : Ctx}

theorem ctx_cpuStep {i : Fin n} {timeout : Bool} (hs : s.cpuStep i timeout = some s') :
    s'.ctx = s.ctx := by
  unfold State.cpuStep at hs
  split at hs
  · cases hs; rfl
  · split_ifs at hs
    · cases hs; rfl
    · obtain ⟨_, -, rfl⟩ := Option.map_eq_some_iff.mp hs
      rfl
  all_goals cases hs <;> rfl

variable [NeZero n]

theorem ctx_cpuPush (hs : s.cpuPush c = some s') : s'.ctx = s.ctx := by
  obtain ⟨_, -, rfl⟩ := Option.map_eq_some_iff.mp hs
  rfl

theorem action_pollStep {i : Fin m} {fire : Option (Ctx × Revents)}
    (hs : s.pollStep i fire = some s') : (s'.ctx c).action = (s.ctx c).action := by
  have hcb : ∀ d revents, (Function.update s.ctx d ((s.ctx d).netCallback revents) c).action =
      (s.ctx c).action := by
    intro d revents
    by_cases hd : c = d
    · subst hd
      rw [Function.update_self]
      rfl
    · rw [Function.update_of_ne hd]
  unfold State.pollStep at hs
  split at hs
  · cases hs; rfl
  · split at hs
    · split_ifs at hs
      cases hs; rfl
    · cases hs; rfl
  · dsimp only at hs
    split_ifs at hs <;> cases hs
    · rfl
    · exact hcb _ _
    · exact hcb _ _
  · obtain ⟨t, ht, rfl⟩ := Option.map_eq_some_iff.mp hs
    change (t.ctx c).action = _
    rw [ctx_cpuPush ht]
  · cases hs; rfl
  · split at hs <;> cases hs <;> rfl
  · cases hs; rfl
  · cases hs

variable [NeZero m]

theorem ctx_launchStep {d : Ctx} (hs : s.launchStep d = some s') : s'.ctx = s.ctx := by
  unfold State.launchStep at hs
  split at hs
  · cases hs
  · split at hs <;> cases hs <;> rfl
  · obtain ⟨t, ht, rfl⟩ := Option.map_eq_some_iff.mp hs
    obtain ⟨next, cpuQueue, pollQueue, rfl⟩ := State.push_cases ht
    rfl
  · cases hs; rfl

theorem ctx_init {x : Context} (hs : Itachi.step s (.init c x) = some s') : s'.ctx c = x := by
  simp only [Itachi.step] at hs
  split_ifs at hs
  cases hs
  exact Function.update_self _ _ _

theorem action_step {a : Itachi.Act Ctx n m} (hs : Itachi.step s a = some s')
    (ha : ∀ x, a ≠ .init c x) : (s'.ctx c).action = (s.ctx c).action := by
  unfold Itachi.step at hs
  split_ifs at hs
  cases a with
  | init d x =>
    dsimp only at hs
    split_ifs at hs
    cases hs
    have hne : c ≠ d := by
      rintro rfl
      exact ha x rfl
    exact congrArg Context.action (Function.update_of_ne hne _ _)
  | launch d =>
    dsimp only at hs
    split_ifs at hs <;> cases hs <;> rfl
  | launchStep d => rw [ctx_launchStep hs]
  | stop => cases hs; rfl
  | cpu i timeout => rw [ctx_cpuStep hs]
  | poll i fire => exact action_pollStep hs

end

/-! ## What a completion finds -/

/-- What `onComplete` should find, when `msg` pointed to `m₀` before the call. -/
def Call.prepared (call : Call Ptr) (m₀ : Message) : Snapshot Ptr :=
  ⟨⟨call.now, call.timeoutMs, some call.msg⟩, some (call.prepare m₀)⟩

/-- Every completion of the event of the call found its message. -/
def Prepared (call : Call Ptr) (m₀ : Message) (s : State Ctx n m Ptr) : Prop :=
  ∀ snapshot ∈ s.seen, snapshot = call.prepared m₀

/-- The event of the call is completed only when the call has done all its assignments. -/
def AfterReturn [DecidableEq Ctx] (c : Ctx) (s : State Ctx n m Ptr) : Act Ctx n m → Prop
  | .call => True
  | .itachi a => s.completes c a = true → s.pc = .returned true

instance [DecidableEq Ctx] (c : Ctx) (s : State Ctx n m Ptr) (a : Act Ctx n m) :
    Decidable (AfterReturn c s a) :=
  match a with
  | .call => isTrue trivial
  | .itachi _ => inferInstanceAs (Decidable (_ → _))

/-- The fields that the call has assigned so far. -/
def Assigned (call : Call Ptr) (m₀ : Message) (s : State Ctx n m Ptr) : Prop :=
  match s.pc with
  | .stamp => s.socket.msg = none ∧ s.heap call.msg = call.prepare m₀
  | .timeout =>
    s.socket.msg = none ∧ s.heap call.msg = call.prepare m₀ ∧ s.socket.ioTimestamp = call.now
  | .setMsg =>
    s.socket.msg = none ∧ s.heap call.msg = call.prepare m₀ ∧ s.socket.ioTimestamp = call.now ∧
      s.socket.ioTimeoutMs = call.timeoutMs
  | .returned true =>
    s.socket = ⟨call.now, call.timeoutMs, some call.msg⟩ ∧ s.heap call.msg = call.prepare m₀
  | _ => s.socket.msg = none ∧ s.heap call.msg = m₀

/-- The call has prepared the context and its event is not completed. -/
def Live (s : State Ctx n m Ptr) : Prop := s.pc = .launch ∨ s.pc = .launching ∨ s.pending = true

structure Inv (c : Ctx) (call : Call Ptr) (m₀ : Message) (s : State Ctx n m Ptr) : Prop where
  assigned : Assigned call m₀ s
  live : Live s → s.pc ≠ .before ∧ s.done = false ∧ (s.itachi.ctx c).action = call.action
  pending : s.pending = true → s.pc ≠ .launch ∧ s.pc ≠ .launching
  before : s.pc = .before → s.done = false

section

variable {c : Ctx} {call : Call Ptr} {m₀ : Message} {s s' : State Ctx n m Ptr}

/-- Until the end of the call there is no message in the socket. -/
theorem Assigned.msg_eq (h : Assigned call m₀ s) (hpc : s.pc ≠ .returned true) :
    s.socket.msg = none := by
  unfold Assigned at h
  split at h
  · exact h.1
  · exact h.1
  · exact h.1
  · next hr => exact absurd hr hpc
  · exact h.1

theorem Call.action_eq (call : Call Ptr) : call.action = aaRead ∨ call.action = aaWrite := by
  unfold Call.action
  cases call.kind with
  | recv => exact .inl rfl
  | send => exact .inr rfl

variable [DecidableEq Ctx] [DecidableEq Ptr] [NeZero n] [NeZero m]

/-- A step of the handlers. -/
inductive ItachiStep (c : Ctx) (s : State Ctx n m Ptr) (a : Itachi.Act Ctx n m) :
    State Ctx n m Ptr → Prop where
  | quiet {t : Itachi.State Ctx n m} (ht : Itachi.step s.itachi a = some t)
      (hc : s.completes c a = false) : ItachiStep c s a { s with itachi := t }
  | complete {t : Itachi.State Ctx n m} (ht : Itachi.step s.itachi a = some t)
      (hc : s.completes c a = true) : ItachiStep c s a (s.onComplete c t)

theorem itachi_cases {a : Itachi.Act Ctx n m} (hs : s.step c call (.itachi a) = some s') :
    ItachiStep c s a s' ∧ (s.pc = .before ∨ s.done = true ∨ other c a = true) := by
  rw [State.step] at hs
  split_ifs at hs with hallow hc
  · obtain ⟨t, ht, rfl⟩ := Option.map_eq_some_iff.mp hs
    exact ⟨.complete ht hc, hallow⟩
  · obtain ⟨t, ht, rfl⟩ := Option.map_eq_some_iff.mp hs
    exact ⟨.quiet ht (by simpa using hc), hallow⟩

omit [DecidableEq Ptr] [NeZero n] [NeZero m] in
theorem pending_of_completes {a : Itachi.Act Ctx n m} (h : s.completes c a = true) :
    s.pending = true := by
  unfold State.completes at h
  split at h
  · split at h
    · exact (Bool.and_eq_true_iff.mp h).2
    · cases h
  · cases h

omit [DecidableEq Ptr] in
theorem Inv.action_eq (h : Inv c call m₀ s) (hlive : Live s) {a : Itachi.Act Ctx n m}
    {t : Itachi.State Ctx n m} (ht : Itachi.step s.itachi a = some t)
    (hallow : s.pc = .before ∨ s.done = true ∨ other c a = true) :
    (t.ctx c).action = call.action := by
  obtain ⟨hpc, hdone, haction⟩ := h.live hlive
  rw [action_step ht, haction]
  rintro x rfl
  rcases hallow with hb | hd | ho
  · exact hpc hb
  · rw [hdone] at hd
    cases hd
  · simp [other] at ho

omit [DecidableEq Ptr] in
theorem Inv.seen_eq (h : Inv c call m₀ s) {a : Itachi.Act Ctx n m} {t : Itachi.State Ctx n m}
    (ht : Itachi.step s.itachi a = some t) (hc : s.completes c a = true)
    (hallow : s.pc = .before ∨ s.done = true ∨ other c a = true) :
    (s.onComplete c t).seen = s.seen ++ [⟨s.socket, s.socket.msg.map s.heap⟩] := by
  have haction := h.action_eq (.inr (.inr (pending_of_completes hc))) ht hallow
  rw [State.onComplete, if_pos (by rw [haction]; exact call.action_eq)]

omit [DecidableEq Ptr] in
theorem Inv.itachi (h : Inv c call m₀ s) {a : Itachi.Act Ctx n m} (hs : ItachiStep c s a s')
    (hallow : s.pc = .before ∨ s.done = true ∨ other c a = true) : Inv c call m₀ s' := by
  cases hs with
  | quiet ht hc =>
    refine ⟨h.assigned, fun hlive => ?_, h.pending, h.before⟩
    obtain ⟨hpc, hdone, -⟩ := h.live hlive
    exact ⟨hpc, hdone, h.action_eq hlive ht hallow⟩
  | complete ht hc =>
    have hp := pending_of_completes hc
    have hpc := h.pending hp
    have hbefore := (h.live (.inr (.inr hp))).1
    unfold State.onComplete
    split_ifs
    · exact ⟨h.assigned, fun hlive => absurd hlive (by simp [Live, hpc]), nofun, (absurd · hbefore)⟩
    · exact ⟨h.assigned, fun hlive => absurd hlive (by simp [Live, hpc]), nofun, (absurd · hbefore)⟩

/-- A step of the call. -/
inductive CallStep (c : Ctx) (call : Call Ptr) (s : State Ctx n m Ptr) : State Ctx n m Ptr → Prop
    where
  | init {t : Itachi.State Ctx n m} (hpc : s.pc = .before)
      (ht : Itachi.step s.itachi (.init c (call.initNetEvent (s.itachi.ctx c))) = some t) :
      CallStep c call s { s with itachi := t, pc := .launch }
  | launch {t : Itachi.State Ctx n m} (hpc : s.pc = .launch)
      (ht : Itachi.step s.itachi (.launch c) = some t) :
      CallStep c call s { s with itachi := t, pc := .launching }
  | launching {t : Itachi.State Ctx n m} (hpc : s.pc = .launching)
      (ht : Itachi.step s.itachi (.launchStep c) = some t) :
      CallStep c call s { s with itachi := t }
  | launched {t : Itachi.State Ctx n m} (hpc : s.pc = .launching)
      (ht : Itachi.step s.itachi (.launchStep c) = some t) :
      CallStep c call s { s with itachi := t, pc := .test, pending := true }
  | refused {t : Itachi.State Ctx n m} (hpc : s.pc = .launch ∨ s.pc = .launching) :
      CallStep c call s { s with itachi := t, pc := .returned false, done := true }
  | test (hpc : s.pc = .test) :
      CallStep c call s { s with pc := if s.socket.msg = none then .prepare else .returned false }
  | prepare (hpc : s.pc = .prepare) :
      CallStep c call s { s with
        heap := Function.update s.heap call.msg (call.prepare (s.heap call.msg)), pc := .stamp }
  | stamp (hpc : s.pc = .stamp) :
      CallStep c call s
        { s with socket := { s.socket with ioTimestamp := call.now }, pc := .timeout }
  | timeout (hpc : s.pc = .timeout) :
      CallStep c call s
        { s with socket := { s.socket with ioTimeoutMs := call.timeoutMs }, pc := .setMsg }
  | setMsg (hpc : s.pc = .setMsg) :
      CallStep c call s
        { s with socket := { s.socket with msg := some call.msg }, pc := .returned true }

theorem call_cases (hs : s.callStep c call = some s') : CallStep c call s s' := by
  unfold State.callStep at hs
  by_cases haborted : s.itachi.aborted = true
  · rw [if_pos haborted] at hs
    cases hs
  · rw [if_neg haborted] at hs
    split at hs
    · next hpc =>
      split at hs
      · obtain ⟨t, ht, rfl⟩ := Option.map_eq_some_iff.mp hs
        exact .init hpc ht
      · cases hs
    · next hpc =>
      obtain ⟨t, ht, rfl⟩ := Option.map_eq_some_iff.mp hs
      split
      · exact .launch hpc ht
      · exact .refused (.inl hpc)
    · next hpc =>
      obtain ⟨t, ht, rfl⟩ := Option.map_eq_some_iff.mp hs
      split
      · exact .launching hpc ht
      · split
        · exact .launched hpc ht
        · exact .refused (.inr hpc)
    · next hpc => cases hs; exact .test hpc
    · next hpc => cases hs; exact .prepare hpc
    · next hpc => cases hs; exact .stamp hpc
    · next hpc => cases hs; exact .timeout hpc
    · next hpc => cases hs; exact .setMsg hpc
    · cases hs

omit [DecidableEq Ctx] [DecidableEq Ptr] [NeZero n] [NeZero m] in
theorem Inv.assign (h : Inv c call m₀ s) {pc : CallPc} {socket : Socket Ptr} {heap : Ptr → Message}
    (hpc : pc ≠ .before ∧ pc ≠ .launch ∧ pc ≠ .launching)
    (hassigned : Assigned call m₀ { s with pc := pc, socket := socket, heap := heap }) :
    Inv c call m₀ { s with pc := pc, socket := socket, heap := heap } where
  assigned := hassigned
  live hlive := by
    have hp : s.pending = true := by simpa [Live, hpc] using hlive
    exact ⟨hpc.1, (h.live (.inr (.inr hp))).2⟩
  pending _ := hpc.2
  before hb := absurd hb hpc.1

theorem Inv.callStep (h : Inv c call m₀ s) (hs : CallStep c call s s') : Inv c call m₀ s' := by
  have hassigned := h.assigned
  have hlive := h.live
  unfold Assigned at hassigned
  unfold Live at hlive
  cases hs with
  | init hpc ht =>
    rw [hpc] at hassigned
    refine ⟨hassigned, fun _ => ⟨nofun, h.before hpc, ?_⟩, fun hp => ?_, nofun⟩
    · exact congrArg Context.action (ctx_init ht)
    · exact absurd hpc (hlive (.inr (.inr hp))).1
  | launch hpc ht =>
    rw [hpc] at hassigned
    refine ⟨hassigned, fun _ => ⟨nofun, (hlive (.inl hpc)).2.1, ?_⟩, fun hp => ?_, nofun⟩
    · exact (action_step ht nofun).trans (hlive (.inl hpc)).2.2
    · exact absurd hpc (h.pending hp).1
  | launching hpc ht =>
    refine ⟨h.assigned, fun _ => ⟨(hlive (.inr (.inl hpc))).1, (hlive (.inr (.inl hpc))).2.1, ?_⟩,
      h.pending, h.before⟩
    exact (action_step ht nofun).trans (hlive (.inr (.inl hpc))).2.2
  | launched hpc ht =>
    rw [hpc] at hassigned
    refine ⟨hassigned, fun _ => ⟨nofun, (hlive (.inr (.inl hpc))).2.1, ?_⟩, fun _ => ⟨nofun, nofun⟩,
      nofun⟩
    exact (action_step ht nofun).trans (hlive (.inr (.inl hpc))).2.2
  | refused hpc =>
    have hnp : s.pending ≠ true := fun hp => by
      rcases hpc with hpc | hpc
      · exact (h.pending hp).1 hpc
      · exact (h.pending hp).2 hpc
    refine ⟨?_, fun hl => ?_, fun hp => absurd hp hnp, nofun⟩
    · rcases hpc with hpc | hpc <;> rw [hpc] at hassigned <;> exact hassigned
    · rcases hl with hl | hl | hl
      · cases hl
      · cases hl
      · exact absurd hl hnp
  | test hpc =>
    rw [hpc] at hassigned
    rw [if_pos hassigned.1]
    exact h.assign (by simp) hassigned
  | prepare hpc =>
    rw [hpc] at hassigned
    exact h.assign (by simp) ⟨hassigned.1, by simp [hassigned.2]⟩
  | stamp hpc =>
    rw [hpc] at hassigned
    exact h.assign (by simp) ⟨hassigned.1, hassigned.2, rfl⟩
  | timeout hpc =>
    rw [hpc] at hassigned
    exact h.assign (by simp) ⟨hassigned.1, hassigned.2.1, hassigned.2.2, rfl⟩
  | setMsg hpc =>
    rw [hpc] at hassigned
    refine h.assign (by simp) ⟨?_, hassigned.2.1⟩
    dsimp only
    rw [hassigned.2.2.1, hassigned.2.2.2]

theorem inv_step (s : State Ctx n m Ptr) (a : Act Ctx n m) (s' : State Ctx n m Ptr)
    (h : Inv c call m₀ s) (hs : s.step c call a = some s') : Inv c call m₀ s' := by
  cases a with
  | itachi a =>
    obtain ⟨hstep, hallow⟩ := itachi_cases hs
    exact h.itachi hstep hallow
  | call => exact h.callStep (call_cases hs)

theorem seen_call (hs : CallStep c call s s') : s'.seen = s.seen := by cases hs <;> rfl

/-- A completion behind the call finds the message. -/
theorem prepared_step (s : State Ctx n m Ptr) (a : Act Ctx n m) (s' : State Ctx n m Ptr)
    (hG : AfterReturn c s a) (h : Inv c call m₀ s) (hp : Prepared call m₀ s)
    (hs : s.step c call a = some s') : Prepared call m₀ s' := by
  cases a with
  | call =>
    unfold Prepared
    rw [seen_call (call_cases hs)]
    exact hp
  | itachi a =>
    obtain ⟨hstep, hallow⟩ := itachi_cases hs
    cases hstep with
    | quiet ht hc => exact hp
    | complete ht hc =>
      have hassigned := h.assigned
      rw [Assigned, hG hc] at hassigned
      unfold Prepared
      rw [h.seen_eq ht hc hallow]
      intro snapshot hsnap
      rw [List.mem_append, List.mem_singleton] at hsnap
      rcases hsnap with hsnap | rfl
      · exact hp snapshot hsnap
      · rw [hassigned.1, Option.map_some, hassigned.2]
        rfl

/-- A completion before the end of the call finds no message. -/
theorem not_prepared_step (s : State Ctx n m Ptr) (a : Act Ctx n m) (s' : State Ctx n m Ptr)
    (hG : ¬ AfterReturn c s a) (h : Inv c call m₀ s) (hs : s.step c call a = some s') :
    ¬ Prepared call m₀ s' := by
  cases a with
  | call => exact absurd trivial hG
  | itachi a =>
    obtain ⟨hc, hpc⟩ := Classical.not_imp.mp hG
    obtain ⟨hstep, hallow⟩ := itachi_cases hs
    cases hstep with
    | quiet ht hc' =>
      rw [hc] at hc'
      cases hc'
    | complete ht hc =>
      intro hp
      have hsnap := hp ⟨s.socket, s.socket.msg.map s.heap⟩ (by
        rw [h.seen_eq ht hc hallow]
        exact List.mem_append_right _ (List.mem_singleton_self _))
      have hmsg := congrArg (fun snapshot => snapshot.socket.msg) hsnap
      dsimp only [Call.prepared] at hmsg
      rw [h.assigned.msg_eq hpc] at hmsg
      cases hmsg

/-- **Completions find their message** exactly in the runs in which the event of the call is
completed only after the last assignment of the call: then, and only then, `onComplete` always finds
the message of the call, prepared, with the time stamp and the time-out of the call. -/
theorem completions_prepared_iff {ctx : Ctx → Context} {mine : Ctx → Bool} {ioTimestamp : UInt64}
    {ioTimeoutMs : ℤ} {heap : Ptr → Message} {as : List (Act Ctx n m)}
    (hrun : StepRun.run (State.step c call) (.new n m ctx mine ioTimestamp ioTimeoutMs heap) as =
      some s) :
    StepRun.Always (State.step c call) (Prepared call (heap call.msg))
        (.new n m ctx mine ioTimestamp ioTimeoutMs heap) as ↔
      StepRun.Guarded (State.step c call) (AfterReturn c)
        (.new n m ctx mine ioTimestamp ioTimeoutMs heap) as := by
  refine StepRun.always_iff_guarded inv_step prepared_step not_prepared_step hrun ?_ nofun
  exact ⟨⟨rfl, rfl⟩, fun hl => by simp [Live, State.new] at hl, nofun, fun _ => rfl⟩

end

/-- A call `recv(msg, 1000)` at time `5`. -/
def recvCall : Call Unit := ⟨.recv, (), 1000, 5⟩

/-- The socket `()`, with one cpu thread and one poll thread. -/
def socketState : State Unit 1 1 Unit :=
  .new 1 1 (fun _ => ⟨.nop, 0, false, 0, false, false, false⟩) (fun _ => true) 0 0 fun _ =>
    ⟨0, [1], 7⟩

/-- The call up to its launch, and the poll thread until libev has called back. -/
def launched : List (Act Unit 1 1) :=
  [.call, .call, .call, .call, .itachi (.poll only none), .itachi (.poll only none),
    .itachi (.poll only none), .itachi (.poll only none), .itachi (.poll only none),
    .itachi (.poll only none), .itachi (.poll only (some ((), ⟨false, true, false, false⟩))),
    .itachi (.poll only none), .itachi (.poll only none)]

/-- The rest of the call. -/
def restOfCall : List (Act Unit 1 1) := [.call, .call, .call, .call, .call]

/-- The cpu thread pops the context and completes it. -/
def completion : List (Act Unit 1 1) :=
  [.itachi (.cpu only false), .itachi (.cpu only false), .itachi (.cpu only false)]

theorem completions_prepared_restOfCall : ∃ s,
    StepRun.run (State.step () recvCall) socketState (launched ++ restOfCall ++ completion) =
      some s ∧ s.seen = [⟨⟨5, 1000, some ()⟩, some ⟨0, [], 0⟩⟩] ∧
      StepRun.Always (State.step () recvCall) (Prepared recvCall ⟨0, [1], 7⟩) socketState
        (launched ++ restOfCall ++ completion) := by
  have h : ((StepRun.run (State.step () recvCall) socketState
      (launched ++ restOfCall ++ completion)).any fun s =>
        decide (s.seen = [⟨⟨5, 1000, some ()⟩, some ⟨0, [], 0⟩⟩])) = true := by
    decide +kernel
  obtain ⟨s, hs, hp⟩ := (Option.any_eq_true _ _).mp h
  exact ⟨s, hs, of_decide_eq_true hp, (completions_prepared_iff hs).mpr (by decide +kernel)⟩

/-- The cpu thread is faster than the call: `onComplete` finds no message, and its assertion
fails. -/
theorem completion_before_message : ∃ s,
    StepRun.run (State.step () recvCall) socketState (launched ++ completion) = some s ∧
      s.seen = [⟨⟨0, 0, none⟩, none⟩] ∧ s.itachi.aborted = true ∧
        ¬ Prepared recvCall ⟨0, [1], 7⟩ s := by
  have h : ((StepRun.run (State.step () recvCall) socketState (launched ++ completion)).any fun s =>
      decide (s.seen = [⟨⟨0, 0, none⟩, none⟩] ∧ s.itachi.aborted = true)) = true := by
    decide +kernel
  obtain ⟨s, hs, hp⟩ := (Option.any_eq_true _ _).mp h
  obtain ⟨hseen, haborted⟩ := of_decide_eq_true hp
  refine ⟨s, hs, hseen, haborted, fun hprep => ?_⟩
  have := hprep ⟨⟨0, 0, none⟩, none⟩ (by rw [hseen]; exact List.mem_singleton_self _)
  cases this

end AsyncSocket

end Sperm.Itachi
