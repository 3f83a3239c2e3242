import Mathlib.Algebra.Order.Ring.Int
import Mathlib.Data.Int.Notation
import Mathlib.Tactic.Common
import Sperm.Common.SLinkedListQueue
import Sperm.Lib.Run

/-!
# Itachi and its handlers (`itachi/itachi.h`, `itachi/itachi.cc`, `itachi/handler.cc`)

A launched context goes to the queue of a cpu thread, or to the queue of a poll thread, which
registers it with its libev loop; when libev calls back, the context goes on to a cpu queue. A cpu
thread takes contexts from its queue and completes them. All queues and drained chains run through
the one `next` field of a context.

* `Context`: the fields of an `AsyncContext` that the handlers read and write.
* `CpuPc`, `PollPc`, `LaunchPc`: how far `CpuHandler::thread_function`,
  `PollHandler::thread_function` and `Itachi::launch` have come.
* `State`, with the reference counts, and for every context how many launches were accepted, how
  many times it was completed, and how many times a handler released it.
* `step`: one statement of one thread. User code prepares and launches contexts that are not
  launched, from whatever thread, so also from an `onComplete`.
-/

namespace Sperm.Itachi

inductive Ty where
  | nop
  | cpu
  | net
  deriving DecidableEq

structure Context where
  type : Ty
  action : ℤ
  urgent : Bool
  threadHint : UInt32
  readable : Bool
  writeable : Bool
  timeout : Bool
  deriving DecidableEq

/-- `initCpuEvent(action, emergency)`. -/
def Context.initCpuEvent (x : Context) (action : ℤ) (emergency : Bool) : Context :=
  { x with type := .cpu, action := action, urgent := emergency }

/-- The bits `EV_ERROR`, `EV_READ`, `EV_WRITE` and `EV_TIMER`. -/
structure Revents where
  error : Bool
  read : Bool
  write : Bool
  timer : Bool
  deriving DecidableEq

/-- What `net_callback` makes of a context. -/
def Context.netCallback (x : Context) (revents : Revents) : Context :=
  { x with
    readable := revents.read
    writeable := revents.write
    timeout := revents.timer && !revents.read && !revents.write }.initCpuEvent x.action false

section

variable (Ctx : Type)

/-- Where a cpu thread goes on after a context: behind the one that `pop` gave, or with the next of
the chain that `clear` gave. -/
inductive After where
  | popped
  | chain (next : Option Ctx)
  deriving DecidableEq

inductive CpuPc where
  | top
  | pop
  /-- Before `onComplete(ctx)`. -/
  | hand (c : Ctx) (k : After Ctx)
  /-- In `onComplete(ctx)`. -/
  | complete (c : Ctx) (k : After Ctx)
  /-- Before `ctx->release()`. -/
  | release (c : Ctx) (k : After Ctx)
  | clear
  /-- At the test of `while(ctx)`. -/
  | walk (p : Option Ctx)
  | exited
  deriving DecidableEq

inductive PollPc where
  | top
  /-- In `ev_run`. -/
  | run
  /-- At the beginning of `net_callback(revents, ctx)`. -/
  | callback (c : Ctx) (revents : Revents)
  /-- In `net_callback`, before the push to the cpu queue. -/
  | push (c : Ctx)
  /-- At the test of `while(ctx)`. -/
  | walk (p : Option Ctx)
  /-- Before `ctx = ctx->next`. -/
  | registered (c : Ctx)
  | exited
  deriving DecidableEq

end

/-- A `launch` that has acquired the context: before the `switch`, before the push, or before the
release of the rollback. -/
inductive LaunchPc where
  | acquired
  | push
  | rollback
  deriving DecidableEq

/-- An `Itachi` with `n` cpu threads and `m` poll threads, and all contexts. -/
structure State (Ctx : Type) (n m : ℕ) where
  stop : Bool
  /-- `SPERM_FATAL` was reached. -/
  aborted : Bool
  ctx : Ctx → Context
  /-- `ctx->client->itachi == this`. -/
  mine : Ctx → Bool
  next : Ctx → Option Ctx
  refCount : Ctx → ℤ
  deleted : Ctx → Bool
  cpuQueue : Fin n → SLinkedList Ctx
  pollQueue : Fin m → SLinkedList Ctx
  /-- The contexts that wait in an `ev_once`. -/
  loop : Fin m → List Ctx
  cpuPc : Fin n → CpuPc Ctx
  pollPc : Fin m → PollPc Ctx
  launchPc : Ctx → Option LaunchPc
  accepted : Ctx → ℕ
  completed : Ctx → ℕ
  released : Ctx → ℕ

variable {Ctx : Type} [DecidableEq Ctx] {n m : ℕ}

namespace State

/-- An itachi that was just started. -/
def new (n m : ℕ) (ctx : Ctx → Context) (mine : Ctx → Bool) : State Ctx n m where
  stop := false
  aborted := false
  ctx := ctx
  mine := mine
  next _ := none
  refCount _ := 1
  deleted _ := false
  cpuQueue _ := .new
  pollQueue _ := .new
  loop _ := []
  cpuPc _ := .top
  pollPc _ := .top
  launchPc _ := none
  accepted _ := 0
  completed _ := 0
  released _ := 0

/-- No launch of the context is under way or waits for its `onComplete`. -/
def Idle (s : State Ctx n m) (c : Ctx) : Prop :=
  s.accepted c = s.completed c ∧ s.launchPc c = none

instance (s : State Ctx n m) (c : Ctx) : Decidable (s.Idle c) :=
  inferInstanceAs (Decidable (_ ∧ _))

def cpuGoto (s : State Ctx n m) (i : Fin n) (p : CpuPc Ctx) : State Ctx n m :=
  { s with cpuPc := Function.update s.cpuPc i p }

def pollGoto (s : State Ctx n m) (i : Fin m) (p : PollPc Ctx) : State Ctx n m :=
  { s with pollPc := Function.update s.pollPc i p }

def launchGoto (s : State Ctx n m) (c : Ctx) (p : Option LaunchPc) : State Ctx n m :=
  { s with launchPc := Function.update s.launchPc c p }

/-- `AsyncContext::acquire()`. -/
def acquire (s : State Ctx n m) (c : Ctx) : State Ctx n m :=
  { s with refCount := Function.update s.refCount c (s.refCount c + 1) }

/-- `AsyncContext::release()`. -/
def release (s : State Ctx n m) (c : Ctx) : State Ctx n m :=
  { s with
    refCount := Function.update s.refCount c (s.refCount c - 1)
    deleted := if s.refCount c - 1 = 0 then Function.update s.deleted c true else s.deleted }

/-- `thread_hint % threads_`. -/
def cpuId [NeZero n] (s : State Ctx n m) (c : Ctx) : Fin n := Fin.ofNat n (s.ctx c).threadHint.toNat

def pollId [NeZero m] (s : State Ctx n m) (c : Ctx) : Fin m :=
  Fin.ofNat m (s.ctx c).threadHint.toNat

/-- `CpuHandler::push(ctx)` behind its test of `stop_`. -/
def cpuPush [NeZero n] (s : State Ctx n m) (c : Ctx) : Option (State Ctx n m) :=
  (if (s.ctx c).urgent then some ((s.cpuQueue (s.cpuId c)).pushFront s.next c)
    else (s.cpuQueue (s.cpuId c)).push s.next c).map fun (q, next) =>
      { s with next := next, cpuQueue := Function.update s.cpuQueue (s.cpuId c) q }

/-- `PollHandler::push(ctx)` behind its test of `stop_`. -/
def pollPush [NeZero m] (s : State Ctx n m) (c : Ctx) : Option (State Ctx n m) :=
  ((s.pollQueue (s.pollId c)).push s.next c).map fun (q, next) =>
    { s with next := next, pollQueue := Function.update s.pollQueue (s.pollId c) q }

/-- The push of the `switch` in `launch_`. -/
def push [NeZero n] [NeZero m] (s : State Ctx n m) (c : Ctx) : Option (State Ctx n m) :=
  match (s.ctx c).type with
  | .cpu => s.cpuPush c
  | .net => s.pollPush c
  | .nop => none

/-- A push was the end of a successful launch. -/
def accept (s : State Ctx n m) (c : Ctx) : State Ctx n m :=
  { s with accepted := Function.update s.accepted c (s.accepted c + 1) }.launchGoto c none

/-! ## The threads -/

/-- The next statement of a cpu thread; `timeout` says how a `pop` ends. -/
def cpuStep (s : State Ctx n m) (i : Fin n) (timeout : Bool) : Option (State Ctx n m) :=
  match s.cpuPc i with
  | .top => some (s.cpuGoto i (if s.stop then .exited else .pop))
  | .pop =>
    if timeout then some (s.cpuGoto i .top)
    else
      ((s.cpuQueue i).pop s.next).map fun (c, q, next) =>
        { s with next := next, cpuQueue := Function.update s.cpuQueue i q }.cpuGoto i
          (.hand c .popped)
  | .hand c k =>
    some ({ s with completed := Function.update s.completed c (s.completed c + 1) }.cpuGoto i
      (.complete c k))
  | .complete c k => some (s.cpuGoto i (.release c k))
  | .release c k =>
    some ({ s.release c with
      released := Function.update s.released c (s.released c + 1) }.cpuGoto i
        (match k with
          | .popped => .clear
          | .chain next => .walk next))
  | .clear =>
    let (p, q) := (s.cpuQueue i).clear
    some ({ s with cpuQueue := Function.update s.cpuQueue i q }.cpuGoto i (.walk p))
  | .walk none => some (s.cpuGoto i .top)
  | .walk (some c) => some (s.cpuGoto i (.hand c (.chain (s.next c))))
  | .exited => none

/-- The next statement of a poll thread; `fire` is the context that libev calls back for, if it does
not return from `ev_run`. -/
def pollStep [NeZero n] (s : State Ctx n m) (i : Fin m) (fire : Option (Ctx × Revents)) :
    Option (State Ctx n m) :=
  match s.pollPc i with
  | .top => some (s.pollGoto i (if s.stop then .exited else .run))
  | .run =>
    match fire with
    | some (c, revents) =>
      if c ∈ s.loop i then
        some ({ s with loop := Function.update s.loop i ((s.loop i).erase c) }.pollGoto i
          (.callback c revents))
      else none
    | none =>
      let (p, q) := (s.pollQueue i).clear
      some ({ s with pollQueue := Function.update s.pollQueue i q }.pollGoto i (.walk p))
  | .callback c revents =>
    if revents.error then some { s with aborted := true }
    else
      let s' := { s with ctx := Function.update s.ctx c ((s.ctx c).netCallback revents) }
      -- `launch_(ctx, false)`, and the test in `CpuHandler::push`
      if s.stop then some { s' with aborted := true } else some (s'.pollGoto i (.push c))
  | .push c => (s.cpuPush c).map (·.pollGoto i .run)
  | .walk none => some (s.pollGoto i .top)
  | .walk (some c) =>
    match (s.ctx c).type with
    | .net =>
      some ({ s with loop := Function.update s.loop i (s.loop i ++ [c]) }.pollGoto i
        (.registered c))
    | _ => some { s with aborted := true }
  | .registered c => some (s.pollGoto i (.walk (s.next c)))
  | .exited => none

/-- The next statement of a `launch(ctx)` that has acquired the context. -/
def launchStep [NeZero n] [NeZero m] (s : State Ctx n m) (c : Ctx) : Option (State Ctx n m) :=
  match s.launchPc c with
  | none => none
  | some .acquired =>
    match (s.ctx c).type with
    | .nop => some (s.launchGoto c (some .rollback))
    | _ => some (s.launchGoto c (some (if s.stop then .rollback else .push)))
  | some .push => (s.push c).map (·.accept c)
  | some .rollback => some ((s.release c).launchGoto c none)

end State

inductive Act (Ctx : Type) (n m : ℕ) where
  /-- User code prepares a context with one of the `init` functions. -/
  | init (c : Ctx) (x : Context)
  /-- User code calls `launch(ctx)`. -/
  | launch (c : Ctx)
  | launchStep (c : Ctx)
  | stop
  | cpu (i : Fin n) (timeout : Bool)
  | poll (i : Fin m) (fire : Option (Ctx × Revents))

open State in
/-- One statement of one thread. A context that is launched is not prepared or launched again. -/
def step [NeZero n] [NeZero m] (s : State Ctx n m) (a : Act Ctx n m) : Option (State Ctx n m) :=
  if s.aborted then none
  else
    match a with
    | .init c x => if s.Idle c then some { s with ctx := Function.update s.ctx c x } else none
    | .launch c =>
      if s.Idle c then
        -- a context of another itachi is refused at once
        some (if s.mine c then (s.acquire c).launchGoto c (some .acquired) else s)
      else none
    | .launchStep c => s.launchStep c
    | .stop => some { s with stop := true }
    | .cpu i timeout => s.cpuStep i timeout
    | .poll i fire => s.pollStep i fire

/-! ## What a step does -/

section

variable [NeZero n] [NeZero m]

/-- A thread moves on without a context in its hands. -/
def CpuPc.Free (p : CpuPc Ctx) : Prop := p = .top ∨ p = .pop ∨ p = .walk none ∨ p = .exited

def PollPc.Free (p : PollPc Ctx) : Prop := p = .top ∨ p = .run ∨ p = .walk none ∨ p = .exited

/-- Behind `ctx->release()`. -/
def After.pc : After Ctx → CpuPc Ctx
  | .popped => .clear
  | .chain next => .walk next

inductive Step (s : State Ctx n m) : State Ctx n m → Prop where
  | init {c : Ctx} (x : Context) (hc : s.Idle c) :
      Step s { s with ctx := Function.update s.ctx c x }
  | foreign : Step s s
  | acquire {c : Ctx} (hc : s.Idle c) : Step s ((s.acquire c).launchGoto c (some .acquired))
  | dispatch {c : Ctx} (hc : s.launchPc c = some .acquired) (p : LaunchPc) :
      Step s (s.launchGoto c (some p))
  | launched {c : Ctx} {s₁ : State Ctx n m} (hc : s.launchPc c = some .push)
      (hs : s.push c = some s₁) : Step s (s₁.accept c)
  | rollback {c : Ctx} (hc : s.launchPc c = some .rollback) :
      Step s ((s.release c).launchGoto c none)
  | stop : Step s { s with stop := true }
  | cpuFree {i : Fin n} {p : CpuPc Ctx} (hi : (s.cpuPc i).Free) (hp : p.Free) :
      Step s (s.cpuGoto i p)
  | pop {i : Fin n} {c : Ctx} {q : SLinkedList Ctx} {next : Ctx → Option Ctx}
      (hi : s.cpuPc i = .pop) (hq : (s.cpuQueue i).pop s.next = some (c, q, next)) :
      Step s ({ s with next := next, cpuQueue := Function.update s.cpuQueue i q }.cpuGoto i
        (.hand c .popped))
  | onComplete {i : Fin n} {c : Ctx} {k : After Ctx} (hi : s.cpuPc i = .hand c k) :
      Step s ({ s with completed := Function.update s.completed c (s.completed c + 1) }.cpuGoto i
        (.complete c k))
  | completed {i : Fin n} {c : Ctx} {k : After Ctx} (hi : s.cpuPc i = .complete c k) :
      Step s (s.cpuGoto i (.release c k))
  | release {i : Fin n} {c : Ctx} {k : After Ctx} (hi : s.cpuPc i = .release c k) :
      Step s ({ s.release c with
        released := Function.update s.released c (s.released c + 1) }.cpuGoto i k.pc)
  | cpuClear {i : Fin n} (hi : s.cpuPc i = .clear) :
      Step s ({ s with cpuQueue := Function.update s.cpuQueue i .new }.cpuGoto i
        (.walk (s.cpuQueue i).head))
  | fetch {i : Fin n} {c : Ctx} (hi : s.cpuPc i = .walk (some c)) :
      Step s (s.cpuGoto i (.hand c (.chain (s.next c))))
  | pollFree {i : Fin m} {p : PollPc Ctx} (hi : (s.pollPc i).Free) (hp : p.Free) :
      Step s (s.pollGoto i p)
  | fire {i : Fin m} {c : Ctx} (revents : Revents) (hi : s.pollPc i = .run) (hc : c ∈ s.loop i) :
      Step s ({ s with loop := Function.update s.loop i ((s.loop i).erase c) }.pollGoto i
        (.callback c revents))
  | pollClear {i : Fin m} (hi : s.pollPc i = .run) :
      Step s ({ s with pollQueue := Function.update s.pollQueue i .new }.pollGoto i
        (.walk (s.pollQueue i).head))
  | callback {i : Fin m} {c : Ctx} {revents : Revents} (hi : s.pollPc i = .callback c revents) :
      Step s ({ s with
        ctx := Function.update s.ctx c ((s.ctx c).netCallback revents) }.pollGoto i (.push c))
  | pollPush {i : Fin m} {c : Ctx} {s₁ : State Ctx n m} (hi : s.pollPc i = .push c)
      (hs : s.cpuPush c = some s₁) : Step s (s₁.pollGoto i .run)
  | evOnce {i : Fin m} {c : Ctx} (hi : s.pollPc i = .walk (some c)) :
      Step s ({ s with loop := Function.update s.loop i (s.loop i ++ [c]) }.pollGoto i
        (.registered c))
  | advance {i : Fin m} {c : Ctx} (hi : s.pollPc i = .registered c) :
      Step s (s.pollGoto i (.walk (s.next c)))
  /-- `SPERM_FATAL`, in a callback or before one. -/
  | abort : Step s { s with aborted := true }
  | callbackAbort {i : Fin m} {c : Ctx} {revents : Revents}
      (hi : s.pollPc i = .callback c revents) :
      Step s { s with
        ctx := Function.update s.ctx c ((s.ctx c).netCallback revents), aborted := true }

variable {s s' : State Ctx n m}

theorem State.push_cases {c : Ctx} (hs : s.push c = some s') :
    ∃ next cpuQueue pollQueue,
      s' = { s with next := next, cpuQueue := cpuQueue, pollQueue := pollQueue } := by
  unfold State.push State.cpuPush State.pollPush at hs
  split at hs
  · obtain ⟨⟨q, next⟩, -, rfl⟩ := Option.map_eq_some_iff.mp hs
    exact ⟨next, _, s.pollQueue, rfl⟩
  · obtain ⟨⟨q, next⟩, -, rfl⟩ := Option.map_eq_some_iff.mp hs
    exact ⟨next, s.cpuQueue, _, rfl⟩
  · cases hs

theorem cpuStep_cases {i : Fin n} {timeout : Bool} (hs : s.cpuStep i timeout = some s') :
    Step s s' := by
  unfold State.cpuStep at hs
  split at hs
  · next hi =>
    cases hs
    refine .cpuFree (.inl hi) ?_
    split_ifs
    · exact .inr (.inr (.inr rfl))
    · exact .inr (.inl rfl)
  · next hi =>
    split_ifs at hs
    · cases hs
      exact .cpuFree (.inr (.inl hi)) (.inl rfl)
    · obtain ⟨⟨c, q, next⟩, hq, rfl⟩ := Option.map_eq_some_iff.mp hs
      exact .pop hi hq
  · next hi => cases hs; exact .onComplete hi
  · next hi => cases hs; exact .completed hi
  · next c k hi =>
    cases hs
    cases k with
    | popped => exact .release hi
    | chain next => exact .release hi
  · next hi => cases hs; exact .cpuClear hi
  · next hi => cases hs; exact .cpuFree (.inr (.inr (.inl hi))) (.inl rfl)
  · next hi => cases hs; exact .fetch hi
  · cases hs

theorem pollStep_cases {i : Fin m} {fire : Option (Ctx × Revents)}
    (hs : s.pollStep i fire = some s') : Step s s' := by
  unfold State.pollStep at hs
  split at hs
  · next hi =>
    cases hs
    refine .pollFree (.inl hi) ?_
    split_ifs
    · exact .inr (.inr (.inr rfl))
    · exact .inr (.inl rfl)
  · next hi =>
    split at hs
    · next c revents =>
      split_ifs at hs with hc
      cases hs
      exact .fire revents hi hc
    · cases hs
      exact .pollClear hi
  · next c revents hi =>
    dsimp only at hs
    split_ifs at hs
    · cases hs
      exact .abort
    · cases hs
      exact .callbackAbort hi
    · cases hs
      exact .callback hi
  · next c hi =>
    obtain ⟨s₁, hs₁, rfl⟩ := Option.map_eq_some_iff.mp hs
    exact .pollPush hi hs₁
  · next hi => cases hs; exact .pollFree (.inr (.inr (.inl hi))) (.inl rfl)
  · next c hi =>
    split at hs <;> cases hs
    · exact .evOnce hi
    · exact .abort
  · next hi => cases hs; exact .advance hi
  · cases hs

theorem launchStep_cases {c : Ctx} (hs : s.launchStep c = some s') : Step s s' := by
  unfold State.launchStep at hs
  split at hs
  · cases hs
  · next hc =>
    split at hs <;> cases hs
    · exact .dispatch hc _
    · exact .dispatch hc _
  · next hc =>
    obtain ⟨s₁, hs₁, rfl⟩ := Option.map_eq_some_iff.mp hs
    exact .launched hc hs₁
  · next hc => cases hs; exact .rollback hc

theorem step_cases {a : Act Ctx n m} (hs : step s a = some s') : Step s s' := by
  unfold step at hs
  split_ifs at hs
  cases a with
  | init c x =>
    dsimp only at hs
    split_ifs at hs with hc
    cases hs
    exact .init x hc
  | launch c =>
    dsimp only at hs
    split_ifs at hs with hc hm
    · cases hs
      exact .acquire hc
    · cases hs
      exact .foreign
  | launchStep c => exact launchStep_cases hs
  | stop => cases hs; exact .stop
  | cpu i timeout => exact cpuStep_cases hs
  | poll i fire => exact pollStep_cases hs

end

/-- The thread of a handler that has one thread. -/
def only : Fin 1 := ⟨0, Nat.zero_lt_one⟩

end Sperm.Itachi
