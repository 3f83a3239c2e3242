import Sperm.Itachi.Delivery

/-!
# `Itachi::stop`

`stop` sets `stop_`, joins the cpu threads and deletes their queues, and then joins the poll threads
and deletes theirs, with their libev loops. Whoever tested `stop_` before it was set may still push
to a queue that is gone, or notify a loop that is, and a callback of libev that comes later ends the
process, as `launch_` refuses its context. A cpu thread that launches from an `onComplete` is joined
behind its launch, which is in time.

* `StopPc`, `Service`, `Service.step`: an itachi with the thread that stops it, the launches that
  are under way in its cpu threads, and the launches that go on with an `ev_async_send`.
* `Service.Calm`: nobody else is about to push or to notify, and no callback is to come.
* `canReturn`: a launch in a cpu thread can come to its end.
* `canExitCpu`, `canExitPoll`: a thread that is stopped can leave its loop.
* **`stop_safe_iff`**: from a stopped itachi nothing can go wrong exactly when it is calm.

What the client does with a launch of its own that is refused is not looked at.
-/

namespace Sperm.Itachi

open Chain StepRun

/-- How far `Itachi::stop` has come. -/
inductive StopPc where
  | before
  | joiningCpu
  | joiningPoll
  | after
  deriving DecidableEq

structure Service (Ctx : Type) (n m : ℕ) where
  itachi : State Ctx n m
  stopPc : StopPc
  /-- The launch that is under way in a cpu thread, in its `onComplete`. -/
  inside : Fin n → Option Ctx
  /-- The cpu threads that have pushed to a poll queue and go on with `ev_async_send`. -/
  sending : Fin n → Bool
  /-- How many other threads do. -/
  outside : ℕ
  /-- A queue or a loop was used that is deleted. -/
  crashed : Bool

variable {Ctx : Type} [DecidableEq Ctx] {n m : ℕ}

namespace Service

/-- An itachi that was just started. -/
def new (n m : ℕ) (ctx : Ctx → Context) (mine : Ctx → Bool) : Service Ctx n m :=
  ⟨.new n m ctx mine, .before, fun _ => none, fun _ => false, 0, false⟩

/-- `CpuHandler::fini()` has deleted the queues. -/
def cpuDeleted (s : Service Ctx n m) : Bool := s.stopPc = .joiningPoll || s.stopPc = .after

/-- `PollHandler::fini()` has. -/
def pollDeleted (s : Service Ctx n m) : Bool := s.stopPc = .after

/-- Is the next statement of the thread a push to a queue that is deleted? -/
def dangles (s : Service Ctx n m) : Itachi.Act Ctx n m → Bool
  | .launchStep c =>
    match s.itachi.launchPc c, (s.itachi.ctx c).type with
    | some .push, .cpu => s.cpuDeleted
    | some .push, .net => s.pollDeleted
    | _, _ => false
  | .poll i _ =>
    match s.itachi.pollPc i with
    | .push _ => s.cpuDeleted
    | _ => false
  | _ => false

/-- The context that the next statement of the thread pushes to a poll queue. -/
def pushesNet (s : Service Ctx n m) : Itachi.Act Ctx n m → Option Ctx
  | .launchStep c =>
    if s.itachi.launchPc c = some .push ∧ (s.itachi.ctx c).type = .net then some c else none
  | _ => none

/-- The state after a step. Behind a push to a poll queue, the thread goes on with `ev_async_send`;
launches that have returned are under way no more. -/
def goto (s : Service Ctx n m) (a : Itachi.Act Ctx n m) (t : State Ctx n m) : Service Ctx n m :=
  { s with
    itachi := t
    inside := fun i => (s.inside i).filter fun c => (t.launchPc c).isSome
    sending := fun i => s.sending i || (s.pushesNet a).any fun c => s.inside i = some c
    outside := s.outside +
      if (s.pushesNet a).any fun c => ∀ i, s.inside i ≠ some c then 1 else 0 }

/-- Is the thread in the middle of a launch? -/
def launching (s : Service Ctx n m) : Itachi.Act Ctx n m → Bool
  | .cpu i _ => (s.inside i).isSome || s.sending i
  | _ => false

/-- Is the thread about to call `ev_async_send`? -/
def mustSend (s : Service Ctx n m) : Option (Fin n) → Bool
  | some i => s.sending i
  | none => s.outside ≠ 0

/-- `ev_async_send(loop_[id], async_ + id)`. -/
def send (s : Service Ctx n m) (w : Option (Fin n)) : Service Ctx n m :=
  if s.pollDeleted then { s with crashed := true }
  else
    match w with
    | some i => { s with sending := Function.update s.sending i false }
    | none => { s with outside := s.outside - 1 }

inductive Act (Ctx : Type) (n m : ℕ) where
  /-- A statement of a thread, or of user code outside the cpu threads. -/
  | act (a : Itachi.Act Ctx n m)
  /-- An `onComplete` calls `launch(ctx)`. -/
  | launchFrom (i : Fin n) (c : Ctx)
  /-- `PollHandler::push` ends, in a cpu thread or in any other. -/
  | send (w : Option (Fin n))
  /-- `Itachi::stop` begins. -/
  | stop
  /-- The threads of a handler are joined, and its queues are deleted. -/
  | join

variable [NeZero n] [NeZero m]

def step (s : Service Ctx n m) (a : Act Ctx n m) : Option (Service Ctx n m) :=
  if s.crashed || s.itachi.aborted then none
  else
    match a, s.stopPc with
    | .act .stop, _ => none
    | .act a, _ =>
      if s.launching a then none
      else if s.dangles a then some { s with crashed := true }
      else (Itachi.step s.itachi a).map (s.goto a)
    | .launchFrom i c, _ =>
      match s.itachi.cpuPc i with
      | .complete _ _ =>
        if (s.inside i).isSome || s.sending i then none
        else (Itachi.step s.itachi (.launch c)).map
          ({ s with inside := Function.update s.inside i (some c) }.goto (.launch c))
      | _ => none
    | .send w, _ => if s.mustSend w then some (s.send w) else none
    | .stop, .before =>
      some { s with itachi := { s.itachi with stop := true }, stopPc := .joiningCpu }
    | .join, .joiningCpu =>
      if ∀ i, s.itachi.cpuPc i = .exited then some { s with stopPc := .joiningPoll } else none
    | .join, .joiningPoll =>
      if ∀ i, s.itachi.pollPc i = .exited then some { s with stopPc := .after } else none
    | _, _ => none

/-- A handler has ended the process by `SPERM_FATAL`, or a deleted queue or loop was used. -/
def Failed (s : Service Ctx n m) : Prop := s.crashed = true ∨ s.itachi.aborted = true

omit [DecidableEq Ctx] [NeZero n] [NeZero m] in
theorem not_failed_iff {s : Service Ctx n m} :
    ¬ s.Failed ↔ s.crashed = false ∧ s.itachi.aborted = false := by
  rw [Failed, not_or, Bool.not_eq_true, Bool.not_eq_true]

end Service

/-- A thread that will not push, nor get a callback, once `stop_` is set. -/
def PollPc.Calm (loop : List Ctx) : PollPc Ctx → Prop
  | .run => loop = []
  | .callback _ _ => False
  | .push _ => False
  | _ => True

/-- Only cpu threads are about to push or to notify, and no callback is to come. -/
structure Service.Calm (s : Service Ctx n m) : Prop where
  poll : ∀ i, (s.itachi.pollPc i).Calm (s.itachi.loop i)
  launch : ∀ c, s.itachi.launchPc c = some .push → ∃ i, s.inside i = some c
  outside : s.outside = 0

variable {s s' : State Ctx n m}

/-! ## What the cpu threads leave alone -/

/-- Everything that the launches and the poll threads look at is the same. -/
structure SameButCpu (s s' : State Ctx n m) : Prop where
  stop : s'.stop = s.stop
  aborted : s'.aborted = s.aborted
  ctx : s'.ctx = s.ctx
  loop : s'.loop = s.loop
  pollPc : s'.pollPc = s.pollPc
  launchPc : s'.launchPc = s.launchPc

omit [DecidableEq Ctx] in
theorem SameButCpu.trans {s₁ : State Ctx n m} (h : SameButCpu s s₁) (h' : SameButCpu s₁ s') :
    SameButCpu s s' :=
  ⟨h'.stop.trans h.stop, h'.aborted.trans h.aborted, h'.ctx.trans h.ctx, h'.loop.trans h.loop,
    h'.pollPc.trans h.pollPc, h'.launchPc.trans h.launchPc⟩

theorem cpuStep_frame {i : Fin n} {timeout : Bool} (hs : s.cpuStep i timeout = some s') :
    SameButCpu s s' ∧ ∀ j, j ≠ i → s'.cpuPc j = s.cpuPc j := by
  have hother : ∀ (pc : CpuPc Ctx) (j : Fin n), j ≠ i →
      Function.update s.cpuPc i pc j = s.cpuPc j := fun pc j hj => Function.update_of_ne hj _ _
  unfold State.cpuStep at hs
  split at hs
  · cases hs
    exact ⟨⟨rfl, rfl, rfl, rfl, rfl, rfl⟩, hother _⟩
  · split_ifs at hs
    · cases hs
      exact ⟨⟨rfl, rfl, rfl, rfl, rfl, rfl⟩, hother _⟩
    · obtain ⟨⟨c, q, next⟩, -, rfl⟩ := Option.map_eq_some_iff.mp hs
      exact ⟨⟨rfl, rfl, rfl, rfl, rfl, rfl⟩, hother _⟩
  · cases hs
    exact ⟨⟨rfl, rfl, rfl, rfl, rfl, rfl⟩, hother _⟩
  · cases hs
    exact ⟨⟨rfl, rfl, rfl, rfl, rfl, rfl⟩, hother _⟩
  · cases hs
    exact ⟨⟨rfl, rfl, rfl, rfl, rfl, rfl⟩, hother _⟩
  · cases hs
    exact ⟨⟨rfl, rfl, rfl, rfl, rfl, rfl⟩, hother _⟩
  · cases hs
    exact ⟨⟨rfl, rfl, rfl, rfl, rfl, rfl⟩, hother _⟩
  · cases hs
    exact ⟨⟨rfl, rfl, rfl, rfl, rfl, rfl⟩, hother _⟩
  · cases hs

/-! ## Leaving the loops -/

/-- The thread can leave its loop by its own steps. -/
def CanExitCpu (i : Fin n) (s : State Ctx n m) : Prop :=
  ∃ t, CanReach (fun s timeout => State.cpuStep s i timeout) s t ∧ t.cpuPc i = .exited

section

variable {i : Fin n}

theorem CanExitCpu.head (timeout : Bool) (s' : State Ctx n m) (hs : s.cpuStep i timeout = some s')
    (h : CanExitCpu i s') : CanExitCpu i s := by
  obtain ⟨t, hreach, ht⟩ := h
  exact ⟨t, .head (a := timeout) hs hreach, ht⟩

omit [DecidableEq Ctx] in
theorem cpuGoto_cpuPc (s : State Ctx n m) (pc : CpuPc Ctx) : (s.cpuGoto i pc).cpuPc i = pc :=
  Function.update_self _ _ _

theorem canExitCpu_top (hstop : s.stop = true) (hi : s.cpuPc i = .top) : CanExitCpu i s := by
  refine .head false (s.cpuGoto i .exited) ?_ ⟨_, .refl _, cpuGoto_cpuPc _ _⟩
  simp only [State.cpuStep, hi, hstop, if_true]

/-- What a cpu thread still looks at is the same. -/
structure SameLinks (s s' : State Ctx n m) : Prop where
  stop : s'.stop = s.stop
  next : s'.next = s.next
  cpuQueue : s'.cpuQueue = s.cpuQueue

section

variable {c : Ctx} {k : After Ctx}

theorem CanExitCpu.release (hi : s.cpuPc i = .release c k)
    (h : ∀ t, SameLinks s t → t.cpuPc i = k.pc → CanExitCpu i t) : CanExitCpu i s := by
  refine .head false ({ s.release c with
    released := Function.update s.released c (s.released c + 1) }.cpuGoto i k.pc) ?_
    (h _ ⟨rfl, rfl, rfl⟩ (cpuGoto_cpuPc _ _))
  rw [State.cpuStep, hi]
  cases k <;> rfl

theorem CanExitCpu.complete (hi : s.cpuPc i = .complete c k)
    (h : ∀ t, SameLinks s t → t.cpuPc i = k.pc → CanExitCpu i t) : CanExitCpu i s := by
  refine .head false (s.cpuGoto i (.release c k)) (by rw [State.cpuStep, hi]) ?_
  exact .release (cpuGoto_cpuPc _ _) fun t ht => h t ⟨ht.stop, ht.next, ht.cpuQueue⟩

theorem CanExitCpu.hand (hi : s.cpuPc i = .hand c k)
    (h : ∀ t, SameLinks s t → t.cpuPc i = k.pc → CanExitCpu i t) : CanExitCpu i s := by
  refine .head false ({ s with
    completed := Function.update s.completed c (s.completed c + 1) }.cpuGoto i (.complete c k))
    (by rw [State.cpuStep, hi]) ?_
  exact .complete (cpuGoto_cpuPc _ _) fun t ht => h t ⟨ht.stop, ht.next, ht.cpuQueue⟩

end

theorem canExitCpu_walk {l : List Ctx} {p : Option Ctx} (hstop : s.stop = true)
    (hi : s.cpuPc i = .walk p) (hl : Seg s.next p l none) : CanExitCpu i s := by
  induction l generalizing s p with
  | nil =>
    obtain rfl : p = none := hl
    refine .head false (s.cpuGoto i .top) ?_ (canExitCpu_top hstop (cpuGoto_cpuPc _ _))
    simp only [State.cpuStep, hi]
  | cons c l ih =>
    obtain ⟨rfl, hl⟩ := hl
    refine .head false (s.cpuGoto i (.hand c (.chain (s.next c)))) ?_ ?_
    · simp only [State.cpuStep, hi]
    refine .hand (cpuGoto_cpuPc _ _) fun t ht hpc => ?_
    have hnext : t.next = s.next := ht.next
    exact ih (ht.stop.trans hstop) hpc (hnext ▸ hl)

theorem canExitCpu_after {k : After Ctx} {l l' : List Ctx} (hstop : s.stop = true)
    (hl : Seg s.next k.next l none) (hq : Seg s.next (s.cpuQueue i).head l' none)
    (s' : State Ctx n m) (hs : SameLinks s s') (hi : s'.cpuPc i = k.pc) : CanExitCpu i s' := by
  rw [← hs.stop] at hstop
  rw [← hs.next] at hl hq
  rw [← hs.cpuQueue] at hq
  cases k with
  | popped =>
    refine .head false ({ s' with
      cpuQueue := Function.update s'.cpuQueue i .new }.cpuGoto i (.walk (s'.cpuQueue i).head))
      ?_ (canExitCpu_walk hstop (cpuGoto_cpuPc _ _) hq)
    rw [State.cpuStep, hi]
    rfl
  | chain next => exact canExitCpu_walk hstop hi hl

variable [NeZero n] [NeZero m] {lists : Place n m → List Ctx}

/-- **A cpu thread that is stopped** can leave its loop: a `pop` times out, and a chain ends. -/
theorem canExitCpu (h : Inv s lists) (hstop : s.stop = true) (i : Fin n) : CanExitCpu i s := by
  obtain ⟨hq, -⟩ := holds_queueView.mp (h.holds (.cpuQueue i))
  have hchain : (s.cpuPc i).view.Holds s.next (lists (.cpuChain i)) := h.holds (.cpuChain i)
  cases hi : s.cpuPc i with
  | top => exact canExitCpu_top hstop hi
  | pop =>
    refine .head true (s.cpuGoto i .top) ?_ (canExitCpu_top hstop (cpuGoto_cpuPc _ _))
    simp only [State.cpuStep, hi, if_true]
  | hand c k =>
    rw [hi] at hchain
    obtain ⟨l, -, hl⟩ := holds_chain.mp hchain
    exact .hand hi (canExitCpu_after hstop hl hq)
  | complete c k =>
    rw [hi] at hchain
    obtain ⟨l, -, hl⟩ := holds_chain.mp hchain
    exact .complete hi (canExitCpu_after hstop hl hq)
  | release c k =>
    rw [hi] at hchain
    obtain ⟨l, -, hl⟩ := holds_chain.mp hchain
    exact .release hi (canExitCpu_after hstop hl hq)
  | clear => exact canExitCpu_after (k := .popped) (l := []) hstop rfl hq s ⟨rfl, rfl, rfl⟩ hi
  | walk p =>
    rw [hi] at hchain
    obtain ⟨l, -, hl⟩ := holds_chain.mp hchain
    exact canExitCpu_walk hstop hi hl
  | exited => exact ⟨s, .refl s, hi⟩

end

/-! ## What a poll thread leaves alone -/

/-- The launches and the other threads are where they were. -/
structure OnlyPoll (i : Fin m) (s s' : State Ctx n m) : Prop where
  stop : s'.stop = s.stop
  cpuPc : s'.cpuPc = s.cpuPc
  launchPc : s'.launchPc = s.launchPc
  pollPc : ∀ j, j ≠ i → s'.pollPc j = s.pollPc j
  loop : ∀ j, j ≠ i → s'.loop j = s.loop j

/-- And no callback of libev has come. -/
structure SameButPoll (i : Fin m) (s s' : State Ctx n m) : Prop extends OnlyPoll i s s' where
  aborted : s'.aborted = s.aborted
  ctx : s'.ctx = s.ctx

omit [DecidableEq Ctx] in
theorem SameButPoll.refl (i : Fin m) (s : State Ctx n m) : SameButPoll i s s :=
  ⟨⟨rfl, rfl, rfl, fun _ _ => rfl, fun _ _ => rfl⟩, rfl, rfl⟩

omit [DecidableEq Ctx] in
theorem SameButPoll.trans {i : Fin m} {s₁ : State Ctx n m} (h : SameButPoll i s s₁)
    (h' : SameButPoll i s₁ s') : SameButPoll i s s' :=
  ⟨⟨h'.stop.trans h.stop, h'.cpuPc.trans h.cpuPc, h'.launchPc.trans h.launchPc,
    fun j hj => (h'.pollPc j hj).trans (h.pollPc j hj),
    fun j hj => (h'.loop j hj).trans (h.loop j hj)⟩,
    h'.aborted.trans h.aborted, h'.ctx.trans h.ctx⟩

variable [NeZero n] [NeZero m] {lists : Place n m → List Ctx} {S S' : Service Ctx n m}

/-- No launch is under way in the cpu thread. -/
def Service.FreeAt (S : Service Ctx n m) (i : Fin n) : Prop :=
  S.inside i = none ∧ S.sending i = false

def Service.Free (S : Service Ctx n m) : Prop := ∀ i, S.FreeAt i

/-- The thread can leave its loop, and nothing else happens. -/
def CanExitPoll (i : Fin m) (S : Service Ctx n m) : Prop :=
  ∃ t, CanReach Service.step S { S with itachi := t } ∧ t.pollPc i = .exited ∧
    SameButPoll i S.itachi t

section

variable {i : Fin m}

omit [DecidableEq Ctx] [NeZero n] [NeZero m] in
theorem pollGoto_pollPc (s : State Ctx n m) (pc : PollPc Ctx) :
    (s.pollGoto i pc).pollPc i = pc := Function.update_self _ _ _

omit [DecidableEq Ctx] [NeZero n] [NeZero m] in
theorem sameButPoll_goto (s : State Ctx n m) (pc : PollPc Ctx) :
    SameButPoll i s (s.pollGoto i pc) :=
  ⟨⟨rfl, rfl, rfl, fun _ hj => Function.update_of_ne hj _ _, fun _ _ => rfl⟩, rfl, rfl⟩

omit [NeZero n] [NeZero m] in
theorem Service.goto_of_free {a : Itachi.Act Ctx n m} (hfree : S.Free)
    (ha : S.pushesNet a = none) (t : State Ctx n m) : S.goto a t = { S with itachi := t } := by
  have hinside : (fun i => (S.inside i).filter fun c => (t.launchPc c).isSome) = S.inside := by
    funext i
    rw [(hfree i).1]
    rfl
  simp only [Service.goto, hinside, ha, Option.any_none, Bool.or_false, Bool.false_eq_true,
    if_false, Nat.add_zero]

theorem Service.step_poll (hok : ¬ S.Failed) (hpush : ∀ c, S.itachi.pollPc i ≠ .push c)
    {fire : Option (Ctx × Revents)} (hs : S.itachi.pollStep i fire = some s') :
    Service.step S (.act (.poll i fire)) = some (S.goto (.poll i fire) s') := by
  rw [Service.not_failed_iff] at hok
  obtain ⟨hcrashed, haborted⟩ := hok
  have hdangles : S.dangles (.poll i fire) = false := by
    unfold Service.dangles
    dsimp only
    split
    · next c hc => exact absurd hc (hpush c)
    · rfl
  simp [Service.step, hcrashed, haborted, hdangles, Service.launching, Itachi.step, hs]

theorem CanExitPoll.head (hok : ¬ S.Failed) (hfree : S.Free)
    (hpush : ∀ c, S.itachi.pollPc i ≠ .push c) (s' : State Ctx n m)
    (hs : S.itachi.pollStep i none = some s') (hsame : SameButPoll i S.itachi s')
    (h : CanExitPoll i { S with itachi := s' }) : CanExitPoll i S := by
  obtain ⟨t, hreach, ht, hsame'⟩ := h
  have hstep := Service.step_poll hok hpush hs
  rw [Service.goto_of_free hfree rfl] at hstep
  exact ⟨t, .head hstep hreach, ht, hsame.trans hsame'⟩

theorem canExitPoll_top (hok : ¬ S.Failed) (hfree : S.Free) (hstop : S.itachi.stop = true)
    (hi : S.itachi.pollPc i = .top) : CanExitPoll i S := by
  refine .head hok hfree (by simp [hi]) (S.itachi.pollGoto i .exited) ?_
    (sameButPoll_goto _ _) ⟨S.itachi.pollGoto i .exited, .refl _, pollGoto_pollPc _ _, ?_⟩
  · simp only [State.pollStep, hi, hstop, if_true]
  · exact .refl i _

theorem canExitPoll_walk {l : List Ctx} {p : Option Ctx} (hok : ¬ S.Failed) (hfree : S.Free)
    (hstop : S.itachi.stop = true) (hi : S.itachi.pollPc i = .walk p)
    (hl : Seg S.itachi.next p l none) (hnet : ∀ c ∈ l, (S.itachi.ctx c).type = .net) :
    CanExitPoll i S := by
  induction l generalizing S p with
  | nil =>
    obtain rfl : p = none := hl
    refine .head hok hfree (by simp [hi]) (S.itachi.pollGoto i .top) ?_ (sameButPoll_goto _ _)
      (canExitPoll_top hok hfree hstop (pollGoto_pollPc _ _))
    simp only [State.pollStep, hi]
  | cons c l ih =>
    obtain ⟨rfl, hl⟩ := hl
    obtain ⟨hc, hnet⟩ := List.forall_mem_cons.mp hnet
    refine .head hok hfree (by simp [hi]) ({ S.itachi with
      loop := Function.update S.itachi.loop i (S.itachi.loop i ++ [c]) }.pollGoto i
        (.registered c)) ?_ ?_ ?_
    · simp only [State.pollStep, hi, hc]
    · exact ⟨⟨rfl, rfl, rfl, fun _ hj => Function.update_of_ne hj _ _,
        fun _ hj => Function.update_of_ne hj _ _⟩, rfl, rfl⟩
    refine .head hok hfree (by simp [pollGoto_pollPc]) _
      (by rw [State.pollStep, pollGoto_pollPc]) (sameButPoll_goto _ _) ?_
    exact ih hok hfree hstop (pollGoto_pollPc _ _) hl hnet

/-- **A poll thread that is stopped** and will not push can leave its loop. -/
theorem canExitPoll (h : Inv S.itachi lists) (hok : ¬ S.Failed) (hfree : S.Free)
    (hstop : S.itachi.stop = true) (hcalm : (S.itachi.pollPc i).Calm (S.itachi.loop i)) :
    CanExitPoll i S := by
  obtain ⟨hq, -⟩ := holds_queueView.mp (h.holds (.pollQueue i))
  obtain ⟨l, hlist, hl⟩ := holds_chain.mp (h.holds (.pollChain i))
  rw [List.nil_append] at hlist
  have hnet : ∀ c ∈ l, (S.itachi.ctx c).type = .net := fun c hc =>
    (h.routed (.pollChain i) c (hlist ▸ hc)).1
  cases hi : S.itachi.pollPc i with
  | top => exact canExitPoll_top hok hfree hstop hi
  | run =>
    refine .head hok hfree (by simp [hi]) ({ S.itachi with
      pollQueue := Function.update S.itachi.pollQueue i .new }.pollGoto i
        (.walk (S.itachi.pollQueue i).head)) ?_ ?_ ?_
    · rw [State.pollStep, hi]
      rfl
    · exact ⟨⟨rfl, rfl, rfl, fun _ hj => Function.update_of_ne hj _ _, fun _ _ => rfl⟩, rfl, rfl⟩
    · exact canExitPoll_walk hok hfree hstop (pollGoto_pollPc _ _) hq fun c hc =>
        (h.routed (.pollQueue i) c hc).1
  | callback c revents =>
    rw [hi] at hcalm
    exact hcalm.elim
  | push c =>
    rw [hi] at hcalm
    exact hcalm.elim
  | walk p =>
    rw [hi] at hl
    exact canExitPoll_walk hok hfree hstop hi hl hnet
  | registered c =>
    rw [hi] at hl
    refine .head hok hfree (by simp [hi]) _ (by rw [State.pollStep, hi]) (sameButPoll_goto _ _) ?_
    exact canExitPoll_walk hok hfree hstop (pollGoto_pollPc _ _) hl hnet
  | exited => exact ⟨S.itachi, .refl S, hi, .refl i _⟩

end

/-! ## What every run keeps -/

omit [NeZero m] in
theorem pollStep_frame {i : Fin m} {fire : Option (Ctx × Revents)}
    (hs : s.pollStep i fire = some s') : OnlyPoll i s s' := by
  have hgoto : ∀ (pc : PollPc Ctx) (j : Fin m), j ≠ i →
      Function.update s.pollPc i pc j = s.pollPc j := fun pc j hj => Function.update_of_ne hj _ _
  have hloop : ∀ (l : List Ctx) (j : Fin m), j ≠ i →
      Function.update s.loop i l j = s.loop j := fun l j hj => Function.update_of_ne hj _ _
  unfold State.pollStep at hs
  split at hs
  · cases hs
    exact ⟨rfl, rfl, rfl, hgoto _, fun _ _ => rfl⟩
  · split at hs
    · split_ifs at hs
      cases hs
      exact ⟨rfl, rfl, rfl, hgoto _, hloop _⟩
    · cases hs
      exact ⟨rfl, rfl, rfl, hgoto _, fun _ _ => rfl⟩
  · dsimp only at hs
    split_ifs at hs
    · cases hs
      exact ⟨rfl, rfl, rfl, fun _ _ => rfl, fun _ _ => rfl⟩
    · cases hs
      exact ⟨rfl, rfl, rfl, fun _ _ => rfl, fun _ _ => rfl⟩
    · cases hs
      exact ⟨rfl, rfl, rfl, hgoto _, fun _ _ => rfl⟩
  · obtain ⟨t, ht, rfl⟩ := Option.map_eq_some_iff.mp hs
    obtain ⟨⟨q, next⟩, -, rfl⟩ := Option.map_eq_some_iff.mp ht
    exact ⟨rfl, rfl, rfl, hgoto _, fun _ _ => rfl⟩
  · cases hs
    exact ⟨rfl, rfl, rfl, hgoto _, fun _ _ => rfl⟩
  · split at hs
    · cases hs
      exact ⟨rfl, rfl, rfl, hgoto _, hloop _⟩
    · cases hs
      exact ⟨rfl, rfl, rfl, fun _ _ => rfl, fun _ _ => rfl⟩
  · cases hs
    exact ⟨rfl, rfl, rfl, hgoto _, fun _ _ => rfl⟩
  · cases hs

omit [NeZero n] [NeZero m] in
theorem launchGoto_launchPc (s : State Ctx n m) (d : Ctx) (p : Option LaunchPc) (c : Ctx) :
    (s.launchGoto d p).launchPc c = if c = d then p else s.launchPc c :=
  Function.update_apply _ _ _ _

/-- A launch that is about to push was about to before, or it has just found `stop_` unset. -/
theorem launchPc_push {a : Itachi.Act Ctx n m} (hs : Itachi.step s a = some s') {c : Ctx}
    (hc : s'.launchPc c = some .push) :
    s.launchPc c = some .push ∨ s.stop = false ∧ (s'.ctx c).type ≠ .nop := by
  unfold Itachi.step at hs
  split_ifs at hs
  cases a with
  | init d x =>
    dsimp only at hs
    split_ifs at hs
    cases hs
    exact .inl hc
  | launch d =>
    dsimp only at hs
    split_ifs at hs
    · cases hs
      rw [launchGoto_launchPc] at hc
      split_ifs at hc
      · cases hc
      · exact .inl hc
    · cases hs
      exact .inl hc
  | launchStep d =>
    dsimp only [State.launchStep] at hs
    split at hs
    · cases hs
    · split at hs
      · cases hs
        rw [launchGoto_launchPc] at hc
        split_ifs at hc
        · cases hc
        · exact .inl hc
      · next htype =>
        cases hs
        rw [launchGoto_launchPc] at hc
        split_ifs at hc with hcd hstop
        · cases hc
        · exact .inr ⟨Bool.eq_false_iff.mpr hstop, hcd ▸ htype⟩
        · exact .inl hc
    · obtain ⟨t, ht, rfl⟩ := Option.map_eq_some_iff.mp hs
      obtain ⟨_, _, _, rfl⟩ := State.push_cases ht
      rw [State.accept, launchGoto_launchPc] at hc
      split_ifs at hc
      exact .inl hc
    · cases hs
      rw [launchGoto_launchPc] at hc
      split_ifs at hc
      exact .inl hc
  | stop =>
    cases hs
    exact .inl hc
  | cpu i timeout => exact .inl ((cpuStep_frame hs).1.launchPc ▸ hc)
  | poll i fire => exact .inl ((pollStep_frame hs).launchPc ▸ hc)

theorem step_type {c : Ctx} (hs : Step s s') (hc : s.launchPc c ≠ none) :
    (s'.ctx c).type = (s.ctx c).type ∨ (s'.ctx c).type = .cpu := by
  have hcall : ∀ d (x : Context), x.type = .cpu →
      (Function.update s.ctx d x c).type = (s.ctx c).type ∨
        (Function.update s.ctx d x c).type = .cpu := by
    intro d x hx
    rw [Function.update_apply]
    split_ifs
    · exact .inr hx
    · exact .inl rfl
  cases hs with
  | @init d x hd =>
    have hcd : c ≠ d := fun h => hc (h ▸ hd.2)
    exact .inl (congrArg _ (Function.update_of_ne hcd _ _))
  | launched _ hs =>
    obtain ⟨_, _, _, rfl⟩ := State.push_cases hs
    exact .inl rfl
  | pollPush _ hs =>
    obtain ⟨⟨q, next⟩, -, rfl⟩ := Option.map_eq_some_iff.mp hs
    exact .inl rfl
  | callback _ => exact hcall _ _ rfl
  | callbackAbort _ => exact hcall _ _ rfl
  | _ => exact .inl rfl

/-- What a step of the service does. -/
inductive Service.Step (S : Service Ctx n m) : Service Ctx n m → Prop where
  | crash {a : Itachi.Act Ctx n m} (ha : S.dangles a = true) : Step S { S with crashed := true }
  | crashSend {w : Option (Fin n)} (hw : S.mustSend w = true) (hpoll : S.pollDeleted = true) :
      Step S { S with crashed := true }
  | act {a : Itachi.Act Ctx n m} {t : State Ctx n m} (hlaunch : S.launching a = false)
      (ha : S.dangles a = false) (hstop : a ≠ .stop) (hs : Itachi.step S.itachi a = some t) :
      Step S (S.goto a t)
  | launchFrom {i : Fin n} {c d : Ctx} {k : After Ctx} {t : State Ctx n m}
      (hi : S.itachi.cpuPc i = .complete d k) (hfree : S.FreeAt i)
      (hs : Itachi.step S.itachi (.launch c) = some t) :
      Step S ({ S with inside := Function.update S.inside i (some c) }.goto (.launch c) t)
  | sendFrom {i : Fin n} : Step S { S with sending := Function.update S.sending i false }
  | send : Step S { S with outside := S.outside - 1 }
  | stop (hpc : S.stopPc = .before) :
      Step S { S with itachi := { S.itachi with stop := true }, stopPc := .joiningCpu }
  | joinCpu (hpc : S.stopPc = .joiningCpu) (hexit : ∀ i, S.itachi.cpuPc i = .exited) :
      Step S { S with stopPc := .joiningPoll }
  | joinPoll (hpc : S.stopPc = .joiningPoll) : Step S { S with stopPc := .after }

theorem Service.step_cases {a : Service.Act Ctx n m} (hs : Service.step S a = some S') :
    S.Step S' := by
  unfold Service.step at hs
  by_cases hfail : S.crashed || S.itachi.aborted
  · rw [if_pos hfail] at hs
    cases hs
  rw [if_neg hfail] at hs
  split at hs
  · cases hs
  · next a _ hstop =>
    split_ifs at hs with hlaunch hdangles
    · cases hs
      exact .crash hdangles
    · obtain ⟨t, ht, rfl⟩ := Option.map_eq_some_iff.mp hs
      exact .act (Bool.eq_false_iff.mpr hlaunch) (Bool.eq_false_iff.mpr hdangles) hstop ht
  · split at hs
    · next hi =>
      split_ifs at hs with hfree
      obtain ⟨t, ht, rfl⟩ := Option.map_eq_some_iff.mp hs
      rw [Bool.not_eq_true, Bool.or_eq_false_iff, Option.isSome_eq_false_iff,
        Option.isNone_iff_eq_none] at hfree
      exact .launchFrom hi hfree ht
    · cases hs
  · next w =>
    split_ifs at hs with hw
    cases hs
    unfold Service.send
    split_ifs with hpoll
    · exact .crashSend hw hpoll
    · cases w with
      | some i => exact .sendFrom
      | none => exact .send
  · next hpc =>
    cases hs
    exact .stop hpc
  · next hpc =>
    split_ifs at hs with hexit
    cases hs
    exact .joinCpu hpc hexit
  · next hpc =>
    split_ifs at hs
    cases hs
    exact .joinPoll hpc
  · cases hs

/-- What a statement of a launch leaves alone. -/
structure SameButLaunch (c : Ctx) (s s' : State Ctx n m) : Prop where
  stop : s'.stop = s.stop
  aborted : s'.aborted = s.aborted
  ctx : s'.ctx = s.ctx
  loop : s'.loop = s.loop
  cpuPc : s'.cpuPc = s.cpuPc
  pollPc : s'.pollPc = s.pollPc
  launchPc : ∀ d, d ≠ c → s'.launchPc d = s.launchPc d

omit [NeZero n] [NeZero m] in
theorem sameButLaunch_goto (s : State Ctx n m) (c : Ctx) (p : Option LaunchPc) :
    SameButLaunch c s (s.launchGoto c p) :=
  ⟨rfl, rfl, rfl, rfl, rfl, rfl, fun _ hd => Function.update_of_ne hd _ _⟩

theorem launchStep_frame {c : Ctx} (hs : s.launchStep c = some s') : SameButLaunch c s s' := by
  unfold State.launchStep at hs
  split at hs
  · cases hs
  · split at hs <;> cases hs <;> exact sameButLaunch_goto _ _ _
  · obtain ⟨t, ht, rfl⟩ := Option.map_eq_some_iff.mp hs
    obtain ⟨_, _, _, rfl⟩ := State.push_cases ht
    exact ⟨rfl, rfl, rfl, rfl, rfl, rfl, fun _ hd => Function.update_of_ne hd _ _⟩
  · cases hs
    exact ⟨rfl, rfl, rfl, rfl, rfl, rfl, fun _ hd => Function.update_of_ne hd _ _⟩

/-- The threads of both handlers are where they were. -/
structure SameThreads (s s' : State Ctx n m) : Prop where
  stop : s'.stop = s.stop
  aborted : s'.aborted = s.aborted
  loop : s'.loop = s.loop
  cpuPc : s'.cpuPc = s.cpuPc
  pollPc : s'.pollPc = s.pollPc

theorem user_frame {a : Itachi.Act Ctx n m} (hs : Itachi.step s a = some s') (hstop : a ≠ .stop)
    (hcpu : ∀ i timeout, a ≠ .cpu i timeout) (hpoll : ∀ i fire, a ≠ .poll i fire) :
    SameThreads s s' := by
  unfold Itachi.step at hs
  split_ifs at hs
  cases a with
  | init c x =>
    dsimp only at hs
    split_ifs at hs
    cases hs
    exact ⟨rfl, rfl, rfl, rfl, rfl⟩
  | launch c =>
    dsimp only at hs
    split_ifs at hs <;> cases hs <;> exact ⟨rfl, rfl, rfl, rfl, rfl⟩
  | launchStep c =>
    have h := launchStep_frame hs
    exact ⟨h.stop, h.aborted, h.loop, h.cpuPc, h.pollPc⟩
  | stop => exact absurd rfl hstop
  | cpu i timeout => exact absurd rfl (hcpu i timeout)
  | poll i fire => exact absurd rfl (hpoll i fire)

theorem step_frame {a : Itachi.Act Ctx n m} (hs : Itachi.step s a = some s') (hstop : a ≠ .stop)
    (hpoll : ∀ i fire, a ≠ .poll i fire) :
    s'.stop = s.stop ∧ s'.aborted = s.aborted ∧ s'.pollPc = s.pollPc ∧ s'.loop = s.loop := by
  by_cases hcpu : ∃ i timeout, a = .cpu i timeout
  · obtain ⟨i, timeout, rfl⟩ := hcpu
    unfold Itachi.step at hs
    split_ifs at hs
    have hsame := (cpuStep_frame hs).1
    exact ⟨hsame.stop, hsame.aborted, hsame.pollPc, hsame.loop⟩
  · push Not at hcpu
    have hsame := user_frame hs hstop hcpu hpoll
    exact ⟨hsame.stop, hsame.aborted, hsame.pollPc, hsame.loop⟩

/-- A cpu thread moves by its own statements only, and when it has left its loop no more. -/
theorem step_cpuPc {a : Itachi.Act Ctx n m} (hs : Itachi.step s a = some s') (hstop : a ≠ .stop)
    {i : Fin n} (hi : s.cpuPc i = .exited ∨ ∀ timeout, a ≠ .cpu i timeout) :
    s'.cpuPc i = s.cpuPc i := by
  by_cases hcpu : ∃ j timeout, a = .cpu j timeout
  · obtain ⟨j, timeout, rfl⟩ := hcpu
    unfold Itachi.step at hs
    split_ifs at hs
    refine (cpuStep_frame hs).2 i fun hij => ?_
    subst hij
    rcases hi with hi | hi
    · simp [State.cpuStep, hi] at hs
    · exact hi timeout rfl
  by_cases hpoll : ∃ j fire, a = .poll j fire
  · obtain ⟨j, fire, rfl⟩ := hpoll
    unfold Itachi.step at hs
    split_ifs at hs
    exact congrFun (pollStep_frame hs).cpuPc i
  · push Not at hcpu hpoll
    exact congrFun (user_frame hs hstop hcpu hpoll).cpuPc i

theorem stop_step {a : Itachi.Act Ctx n m} (hs : Itachi.step s a = some s') (hact : a ≠ .stop)
    (hstop : s.stop = true) : s'.stop = true := by
  by_cases hpoll : ∃ i fire, a = .poll i fire
  · obtain ⟨i, fire, rfl⟩ := hpoll
    unfold Itachi.step at hs
    split_ifs at hs
    exact (pollStep_frame hs).stop ▸ hstop
  · push Not at hpoll
    exact (step_frame hs hact hpoll).1 ▸ hstop

/-- What holds in every state of an itachi and the thread that stops it. -/
structure Service.Good (S : Service Ctx n m) : Prop where
  inv : ∃ lists, Inv S.itachi lists
  typed : ∀ c, S.itachi.launchPc c = some .push → (S.itachi.ctx c).type ≠ .nop
  stopped : S.stopPc ≠ .before → S.itachi.stop = true
  inside : ∀ i c, S.inside i = some c →
    S.itachi.launchPc c ≠ none ∧ ∃ d k, S.itachi.cpuPc i = .complete d k
  sending : ∀ i, S.sending i = true → ∃ d k, S.itachi.cpuPc i = .complete d k
  joined : S.cpuDeleted = true → ∀ i, S.itachi.cpuPc i = .exited

theorem Service.good_new (ctx : Ctx → Context) (mine : Ctx → Bool) :
    (Service.new n m ctx mine).Good :=
  ⟨⟨_, inv_new ctx mine⟩, nofun, fun h => absurd rfl h, nofun,
    fun _ h => (Bool.false_ne_true h).elim, nofun⟩

omit [NeZero n] [NeZero m] in
theorem Service.inside_goto {a : Itachi.Act Ctx n m} {t : State Ctx n m} {i : Fin n} {c : Ctx} :
    (S.goto a t).inside i = some c ↔ S.inside i = some c ∧ t.launchPc c ≠ none := by
  rw [Service.goto, Option.filter_eq_some_iff, Option.isSome_iff_ne_none]

omit [NeZero n] [NeZero m] in
/-- Who sends behind a step was about to before, or its launch was under way. -/
theorem Service.sending_goto {a : Itachi.Act Ctx n m} {t : State Ctx n m} {i : Fin n}
    (hi : (S.goto a t).sending i = true) : S.sending i = true ∨ ∃ c, S.inside i = some c := by
  rcases Bool.or_eq_true_iff.mp hi with hi | hi
  · exact .inl hi
  · obtain ⟨c, -, hc⟩ := (Option.any_eq_true _ _).mp hi
    exact .inr ⟨c, of_decide_eq_true hc⟩

omit [DecidableEq Ctx] [NeZero n] [NeZero m] in
theorem Service.pushesNet_eq_some {a : Itachi.Act Ctx n m} {c : Ctx}
    (h : S.pushesNet a = some c) : S.itachi.launchPc c = some .push := by
  cases a with
  | launchStep d =>
    rw [Service.pushesNet] at h
    split_ifs at h with hd
    cases h
    exact hd.1
  | _ => cases h

/-- A step of the itachi, with what is inside the cpu threads at this moment. -/
theorem Service.Good.goto {a : Itachi.Act Ctx n m} {t : State Ctx n m} {inside : Fin n → Option Ctx}
    (h : S.Good) (hs : Itachi.step S.itachi a = some t) (hstop : a ≠ .stop)
    (hinside : ∀ i c, inside i = some c →
      (∃ d k, S.itachi.cpuPc i = .complete d k) ∧ ∀ timeout, a ≠ .cpu i timeout)
    (hsending : ∀ i, S.sending i = true → ∀ timeout, a ≠ .cpu i timeout) :
    ({ S with inside := inside }.goto a t).Good := by
  have ht := Itachi.step_cases hs
  obtain ⟨lists, hinv⟩ := h.inv
  obtain ⟨lists', hinv', -⟩ := inv_step ht hinv
  refine ⟨⟨lists', hinv'⟩, fun c hc => ?_, fun hpc => stop_step hs hstop (h.stopped hpc),
    fun i c hi => ?_, fun i hi => ?_, fun hcpu i => ?_⟩
  · rcases launchPc_push hs hc with hc | ⟨-, htype⟩
    · rcases step_type ht (by rw [hc]; nofun) with htype | htype
      · exact htype ▸ h.typed c hc
      · exact ne_of_eq_of_ne htype nofun
    · exact htype
  · obtain ⟨hi, hc⟩ := Service.inside_goto.mp hi
    obtain ⟨⟨d, k, hpc⟩, hcpu⟩ := hinside i c hi
    exact ⟨hc, d, k, (step_cpuPc hs hstop (.inr hcpu)).trans hpc⟩
  · rcases Service.sending_goto hi with hi | ⟨c, hi⟩
    · obtain ⟨d, k, hpc⟩ := h.sending i hi
      exact ⟨d, k, (step_cpuPc hs hstop (.inr (hsending i hi))).trans hpc⟩
    · obtain ⟨⟨d, k, hpc⟩, hcpu⟩ := hinside i c hi
      exact ⟨d, k, (step_cpuPc hs hstop (.inr hcpu)).trans hpc⟩
  · have hexit := h.joined hcpu i
    exact (step_cpuPc hs hstop (.inl hexit)).trans hexit

theorem Service.good_step (hs : S.Step S') (h : S.Good) : S'.Good := by
  cases hs with
  | crash _ => exact ⟨h.inv, h.typed, h.stopped, h.inside, h.sending, h.joined⟩
  | crashSend _ _ => exact ⟨h.inv, h.typed, h.stopped, h.inside, h.sending, h.joined⟩
  | act hlaunch _ hstop hs =>
    refine h.goto hs hstop (fun i c hi => ⟨(h.inside i c hi).2, ?_⟩) fun i hi => ?_
    · rintro timeout rfl
      rw [Service.launching, hi] at hlaunch
      cases hlaunch
    · rintro timeout rfl
      rw [Service.launching, hi, Bool.or_true] at hlaunch
      cases hlaunch
  | @launchFrom i c d k _ hi _ hs =>
    refine h.goto hs nofun (fun j e hj => ⟨?_, nofun⟩) fun _ _ _ h => by cases h
    by_cases hji : j = i
    · exact ⟨d, k, hji ▸ hi⟩
    · rw [Function.update_of_ne hji] at hj
      exact (h.inside j e hj).2
  | @sendFrom i =>
    refine ⟨h.inv, h.typed, h.stopped, h.inside, fun j hj => h.sending j ?_, h.joined⟩
    dsimp only at hj
    rw [Function.update_apply] at hj
    split_ifs at hj
    exact hj
  | send => exact ⟨h.inv, h.typed, h.stopped, h.inside, h.sending, h.joined⟩
  | stop hpc =>
    obtain ⟨lists, hinv⟩ := h.inv
    obtain ⟨lists', hinv', -⟩ := inv_step .stop hinv
    exact ⟨⟨lists', hinv'⟩, h.typed, fun _ => rfl, h.inside, h.sending, nofun⟩
  | joinCpu hpc hexit =>
    exact ⟨h.inv, h.typed, fun _ => h.stopped (by simp [hpc]), h.inside, h.sending, fun _ => hexit⟩
  | joinPoll hpc =>
    exact ⟨h.inv, h.typed, fun _ => h.stopped (by simp [hpc]), h.inside, h.sending,
      fun _ => h.joined (by simp [Service.cpuDeleted, hpc])⟩

theorem Service.good_run {ctx : Ctx → Context} {mine : Ctx → Bool} {as : List (Service.Act Ctx n m)}
    (hrun : run Service.step (.new n m ctx mine) as = some S) : S.Good :=
  invariant_of_run (fun _ _ _ h hs => Service.good_step (Service.step_cases hs) h) hrun
    (Service.good_new ctx mine)

/-- In an `onComplete` all queues are there: the thread has not been joined. -/
theorem Service.not_deleted {i : Fin n} {d : Ctx} {k : After Ctx} (hS : S.Good)
    (hpc : S.itachi.cpuPc i = .complete d k) : S.cpuDeleted = false ∧ S.pollDeleted = false := by
  have hcpu : S.cpuDeleted = false := by
    rw [Bool.eq_false_iff]
    intro hcpu
    rw [hS.joined hcpu i] at hpc
    cases hpc
  exact ⟨hcpu, (Bool.or_eq_false_iff.mp hcpu).2⟩

theorem Service.dangles_of_inside {i : Fin n} {c : Ctx} (hS : S.Good) (hi : S.inside i = some c) :
    S.dangles (.launchStep c) = false := by
  obtain ⟨-, d, k, hpc⟩ := hS.inside i c hi
  obtain ⟨hcpu, hpoll⟩ := Service.not_deleted hS hpc
  unfold Service.dangles
  dsimp only
  split
  · exact hcpu
  · exact hpoll
  · rfl

/-! ## Nothing goes wrong in a calm itachi -/

theorem PollPc.Calm.step {i : Fin m} {fire : Option (Ctx × Revents)} (h : Inv s lists)
    (hstop : s.stop = true) (hcalm : (s.pollPc i).Calm (s.loop i))
    (hs : s.pollStep i fire = some s') :
    s'.aborted = s.aborted ∧ (s'.pollPc i).Calm (s'.loop i) := by
  have hgoto : ∀ (t : State Ctx n m) (pc : PollPc Ctx), t.aborted = s.aborted →
      (∀ l, pc.Calm l) → (t.pollGoto i pc).aborted = s.aborted ∧
        ((t.pollGoto i pc).pollPc i).Calm ((t.pollGoto i pc).loop i) :=
    fun t pc ht hpc => ⟨ht, (pollGoto_pollPc t pc).symm ▸ hpc _⟩
  unfold State.pollStep at hs
  split at hs
  · cases hs
    rw [if_pos hstop]
    exact hgoto _ _ rfl fun _ => trivial
  · next hi =>
    rw [hi] at hcalm
    split at hs
    · split_ifs at hs with hc
      rw [show s.loop i = [] from hcalm] at hc
      cases hc
    · cases hs
      exact hgoto _ _ rfl fun _ => trivial
  · next hi =>
    rw [hi] at hcalm
    exact hcalm.elim
  · next hi =>
    rw [hi] at hcalm
    exact hcalm.elim
  · cases hs
    exact hgoto _ _ rfl fun _ => trivial
  · next c hi =>
    -- the chain of a poll thread holds contexts of type `NET` only
    obtain ⟨l, hlist, hl⟩ := holds_chain.mp (h.holds (.pollChain i))
    rw [List.nil_append] at hlist
    rw [hi] at hl
    have hc : c ∈ lists (.pollChain i) := by
      cases l with
      | nil => cases hl
      | cons d l =>
        obtain ⟨hd, -⟩ := hl
        cases hd
        exact hlist ▸ List.mem_cons_self
    rw [(h.routed (.pollChain i) c hc).1] at hs
    cases hs
    exact hgoto _ _ rfl fun _ => trivial
  · cases hs
    exact hgoto _ _ rfl fun _ => trivial
  · cases hs

theorem State.calm_poll {a : Itachi.Act Ctx n m} (h : Inv s lists) (hstop : s.stop = true)
    (hcalm : ∀ i, (s.pollPc i).Calm (s.loop i)) (hs : Itachi.step s a = some s')
    (hact : a ≠ .stop) :
    s'.aborted = s.aborted ∧ ∀ i, (s'.pollPc i).Calm (s'.loop i) := by
  by_cases hpoll : ∃ i fire, a = .poll i fire
  · obtain ⟨i, fire, rfl⟩ := hpoll
    unfold Itachi.step at hs
    split_ifs at hs
    obtain ⟨haborted, hi⟩ := PollPc.Calm.step h hstop (hcalm i) hs
    refine ⟨haborted, fun j => ?_⟩
    by_cases hj : j = i
    · exact hj ▸ hi
    · rw [(pollStep_frame hs).pollPc j hj, (pollStep_frame hs).loop j hj]
      exact hcalm j
  · push Not at hpoll
    obtain ⟨-, haborted, hpc, hloop⟩ := step_frame hs hact hpoll
    refine ⟨haborted, fun i => ?_⟩
    rw [hpc, hloop]
    exact hcalm i

theorem Service.Calm.goto {a : Itachi.Act Ctx n m} {t : State Ctx n m} (h : Inv S.itachi lists)
    (hstop : S.itachi.stop = true) (hcalm : S.Calm) (hs : Itachi.step S.itachi a = some t)
    (hact : a ≠ .stop) : t.aborted = S.itachi.aborted ∧ (S.goto a t).Calm := by
  obtain ⟨haborted, hpoll⟩ := State.calm_poll h hstop hcalm.poll hs hact
  refine ⟨haborted, hpoll, fun c hc => ?_, ?_⟩
  · rcases launchPc_push hs hc with hpush | ⟨hunset, -⟩
    · obtain ⟨i, hi⟩ := hcalm.launch c hpush
      refine ⟨i, Service.inside_goto.mpr ⟨hi, ?_⟩⟩
      rw [show t.launchPc c = some .push from hc]
      nofun
    · rw [hstop] at hunset
      cases hunset
  · rw [Service.goto, hcalm.outside, if_neg]
    intro hany
    obtain ⟨c, hc, hnone⟩ := (Option.any_eq_true _ _).mp hany
    obtain ⟨i, hi⟩ := hcalm.launch c (Service.pushesNet_eq_some hc)
    exact of_decide_eq_true hnone i hi

theorem Service.dangles_eq_false (hS : S.Good) (hcalm : S.Calm) (a : Itachi.Act Ctx n m) :
    S.dangles a = false := by
  cases a with
  | launchStep c =>
    by_cases hc : S.itachi.launchPc c = some .push
    · obtain ⟨i, hi⟩ := hcalm.launch c hc
      exact Service.dangles_of_inside hS hi
    · unfold Service.dangles
      dsimp only
      split
      · next hpush _ => exact absurd hpush hc
      · next hpush _ => exact absurd hpush hc
      · rfl
  | poll i fire =>
    unfold Service.dangles
    dsimp only
    split
    · next hi =>
      have := hcalm.poll i
      rw [hi] at this
      exact this.elim
    · rfl
  | _ => rfl

/-- **A calm itachi stays calm**, whoever takes the next step. -/
theorem Service.calm_step (hS : S.Good) (hstop : S.stopPc ≠ .before) (hok : ¬ S.Failed)
    (hcalm : S.Calm) (hs : S.Step S') : S'.stopPc ≠ .before ∧ ¬ S'.Failed ∧ S'.Calm := by
  obtain ⟨lists, h⟩ := hS.inv
  cases hs with
  | crash ha =>
    rw [Service.dangles_eq_false hS hcalm] at ha
    cases ha
  | @crashSend w hw hpoll =>
    cases w with
    | some i =>
      obtain ⟨d, k, hpc⟩ := hS.sending i hw
      rw [(Service.not_deleted hS hpc).2] at hpoll
      cases hpoll
    | none =>
      rw [Service.mustSend, hcalm.outside] at hw
      cases hw
  | act _ _ hact hs =>
    obtain ⟨haborted, hcalm'⟩ := Service.Calm.goto h (hS.stopped hstop) hcalm hs hact
    exact ⟨hstop, fun hfail => hok (hfail.imp_right (haborted ▸ ·)), hcalm'⟩
  | @launchFrom i c _ _ _ _ hfree hs =>
    let S₁ : Service Ctx n m := { S with inside := Function.update S.inside i (some c) }
    have hcalm₁ : S₁.Calm := by
      refine ⟨hcalm.poll, fun e he => ?_, hcalm.outside⟩
      obtain ⟨j, hj⟩ := hcalm.launch e he
      have hji : j ≠ i := by
        rintro rfl
        rw [hfree.1] at hj
        cases hj
      exact ⟨j, (Function.update_of_ne hji _ _).trans hj⟩
    obtain ⟨haborted, hcalm'⟩ := Service.Calm.goto (S := S₁) h (hS.stopped hstop) hcalm₁ hs nofun
    exact ⟨hstop, fun hfail => hok (hfail.imp_right (haborted ▸ ·)), hcalm'⟩
  | stop hpc => exact absurd hpc hstop
  | sendFrom => exact ⟨hstop, hok, hcalm.poll, hcalm.launch, hcalm.outside⟩
  | send =>
    refine ⟨hstop, hok, hcalm.poll, hcalm.launch, ?_⟩
    dsimp only
    rw [hcalm.outside]
  | joinCpu _ _ => exact ⟨nofun, hok, hcalm.poll, hcalm.launch, hcalm.outside⟩
  | joinPoll _ => exact ⟨nofun, hok, hcalm.poll, hcalm.launch, hcalm.outside⟩

/-! ## Launches come to their ends -/

theorem exists_push {c : Ctx} (h : Inv s lists) (hc : s.launchPc c = some .push)
    (htype : (s.ctx c).type ≠ .nop) : ∃ t, s.push c = some t := by
  have hnot := h.not_mem (h.tidy.launching c (by rw [hc]; nofun))
  unfold State.push
  split
  · have hrep := holds_queueView.mp (h.holds (.cpuQueue (s.cpuId c)))
    obtain ⟨q, next, hpush, -⟩ := hrep.push (hnot _)
    rw [State.cpuPush]
    split_ifs
    · exact ⟨_, rfl⟩
    · rw [hpush]
      exact ⟨_, rfl⟩
  · have hrep := holds_queueView.mp (h.holds (.pollQueue (s.pollId c)))
    obtain ⟨q, next, hpush, -⟩ := hrep.push (hnot _)
    rw [State.pollPush, hpush]
    exact ⟨_, rfl⟩
  · next hnop => exact absurd hnop htype

/-- Only launches in cpu threads have gone on. -/
structure Service.Undisturbed (S S' : Service Ctx n m) : Prop where
  stopPc : S'.stopPc = S.stopPc
  crashed : S'.crashed = S.crashed
  aborted : S'.itachi.aborted = S.itachi.aborted
  loop : S'.itachi.loop = S.itachi.loop
  pollPc : S'.itachi.pollPc = S.itachi.pollPc
  launchPc : ∀ c, (∀ i, S.inside i ≠ some c) → S'.itachi.launchPc c = S.itachi.launchPc c
  inside : ∀ i c, S'.inside i = some c → S.inside i = some c
  outside : S.outside ≤ S'.outside
  free : ∀ i, S.FreeAt i → S'.FreeAt i

omit [DecidableEq Ctx] [NeZero n] [NeZero m] in
theorem Service.Undisturbed.refl (S : Service Ctx n m) : S.Undisturbed S :=
  ⟨rfl, rfl, rfl, rfl, rfl, fun _ _ => rfl, fun _ _ => id, le_rfl, fun _ => id⟩

omit [DecidableEq Ctx] [NeZero n] [NeZero m] in
theorem Service.Undisturbed.trans {S₁ : Service Ctx n m} (h : S.Undisturbed S₁)
    (h' : S₁.Undisturbed S') : S.Undisturbed S' where
  stopPc := h'.stopPc.trans h.stopPc
  crashed := h'.crashed.trans h.crashed
  aborted := h'.aborted.trans h.aborted
  loop := h'.loop.trans h.loop
  pollPc := h'.pollPc.trans h.pollPc
  launchPc c hc :=
    (h'.launchPc c fun i hi => hc i (h.inside i c hi)).trans (h.launchPc c hc)
  inside i c hi := h.inside i c (h'.inside i c hi)
  outside := h.outside.trans h'.outside
  free i hi := h'.free i (h.free i hi)

omit [DecidableEq Ctx] [NeZero n] [NeZero m] in
theorem Service.Undisturbed.ok (h : S.Undisturbed S') (hok : ¬ S.Failed) : ¬ S'.Failed := by
  rw [Service.Failed, h.crashed, h.aborted]
  exact hok

section

variable {i : Fin n} {c : Ctx}

omit [NeZero n] [NeZero m] in
theorem Service.undisturbed_goto {a : Itachi.Act Ctx n m} {t : State Ctx n m}
    (hi : S.inside i = some c) (h : SameButLaunch c S.itachi t) : S.Undisturbed (S.goto a t) where
  stopPc := rfl
  crashed := rfl
  aborted := h.aborted
  loop := h.loop
  pollPc := h.pollPc
  launchPc d hd := h.launchPc d fun hdc => hd i (hdc ▸ hi)
  inside _ _ hj := (Service.inside_goto.mp hj).1
  outside := Nat.le_add_right _ _
  free j hj := by
    refine ⟨?_, ?_⟩
    · dsimp only [Service.goto]
      rw [hj.1]
      rfl
    · rw [Bool.eq_false_iff]
      intro hsend
      rcases Service.sending_goto hsend with hsend | ⟨d, hd⟩
      · rw [hj.2] at hsend
        cases hsend
      · rw [hj.1] at hd
        cases hd

/-- A run leads to where thread `i` is in no launch. -/
def Service.CanReturn (i : Fin n) (S : Service Ctx n m) : Prop :=
  ∃ S', CanReach Service.step S S' ∧ S.Undisturbed S' ∧ S'.FreeAt i

theorem Service.step_launch {t : State Ctx n m} (hS : S.Good) (hok : ¬ S.Failed)
    (hi : S.inside i = some c) (hs : S.itachi.launchStep c = some t) :
    Service.step S (.act (.launchStep c)) = some (S.goto (.launchStep c) t) := by
  rw [Service.not_failed_iff] at hok
  simp [Service.step, Service.launching, Itachi.step, hok.1, hok.2, hs,
    Service.dangles_of_inside hS hi]

/-- What is left behind a push to a poll queue: the loop is there. -/
theorem Service.canReturn_send (hS : S.Good) (hok : ¬ S.Failed) (hi : S.inside i = none) :
    Service.CanReturn i S := by
  cases hsend : S.sending i with
  | false => exact ⟨S, .refl S, .refl S, hi, hsend⟩
  | true =>
    obtain ⟨d, k, hpc⟩ := hS.sending i hsend
    have hpoll := (Service.not_deleted hS hpc).2
    rw [Service.not_failed_iff] at hok
    refine ⟨{ S with sending := Function.update S.sending i false },
      .head (a := .send (some i)) ?_ (.refl _), ?_, hi, Function.update_self _ _ _⟩
    · simp [Service.step, Service.mustSend, Service.send, hok.1, hok.2, hsend, hpoll]
    · refine ⟨rfl, rfl, rfl, rfl, rfl, fun _ _ => rfl, fun _ _ => id, le_rfl, fun j hj => ?_⟩
      refine ⟨hj.1, ?_⟩
      dsimp only
      rw [Function.update_apply, hj.2, ite_self]

theorem Service.canReturn_last {t : State Ctx n m} (hS : S.Good) (hok : ¬ S.Failed)
    (hi : S.inside i = some c) (hs : S.itachi.launchStep c = some t) (ht : t.launchPc c = none) :
    Service.CanReturn i S := by
  have hstep := Service.step_launch hS hok hi hs
  have hsame := Service.undisturbed_goto (a := .launchStep c) hi (launchStep_frame hs)
  have hnone : (S.goto (.launchStep c) t).inside i = none := by
    simp [Service.goto, hi, ht]
  obtain ⟨S', hreach, hsame', hfree⟩ := Service.canReturn_send
    (Service.good_step (Service.step_cases hstep) hS) (hsame.ok hok) hnone
  exact ⟨S', .head hstep hreach, hsame.trans hsame', hfree⟩

/-- Behind `stop`, a launch in a cpu thread is refused, or its push was to come. -/
theorem Service.canReturn (hS : S.Good) (hok : ¬ S.Failed) (hstop : S.stopPc ≠ .before)
    (hi : S.inside i = some c) : Service.CanReturn i S := by
  have hset := hS.stopped hstop
  obtain ⟨lists, h⟩ := hS.inv
  cases hc : S.itachi.launchPc c with
  | none => exact absurd hc (hS.inside i c hi).1
  | some p =>
    cases p with
    | acquired =>
      have hs : S.itachi.launchStep c = some (S.itachi.launchGoto c (some .rollback)) := by
        simp only [State.launchStep, hc, hset, if_true]
        split <;> rfl
      have hgoto := Service.step_launch hS hok hi hs
      have hback : (S.itachi.launchGoto c (some .rollback)).launchPc c = some .rollback :=
        Function.update_self _ _ _
      have hsame := Service.undisturbed_goto (a := .launchStep c) hi (launchStep_frame hs)
      have hi' : (S.goto (.launchStep c)
          (S.itachi.launchGoto c (some .rollback))).inside i = some c :=
        Service.inside_goto.mpr ⟨hi, by rw [hback]; nofun⟩
      have hs' : (S.itachi.launchGoto c (some .rollback)).launchStep c =
          some (((S.itachi.launchGoto c (some .rollback)).release c).launchGoto c none) := by
        simp only [State.launchStep, hback]
      obtain ⟨S', hreach, hsame', hnone⟩ := Service.canReturn_last
        (Service.good_step (Service.step_cases hgoto) hS) (hsame.ok hok) hi' hs'
        (Function.update_self _ _ _)
      exact ⟨S', .head hgoto hreach, hsame.trans hsame', hnone⟩
    | push =>
      obtain ⟨t, ht⟩ := exists_push h hc (hS.typed c hc)
      exact Service.canReturn_last hS hok hi (t := t.accept c)
        (by simp only [State.launchStep, hc, ht, Option.map_some]) (Function.update_self _ _ _)
    | rollback =>
      exact Service.canReturn_last hS hok hi (by simp only [State.launchStep, hc]; rfl)
        (Function.update_self _ _ _)

end

theorem Service.good_canReach (h : CanReach Service.step S S') (hS : S.Good) : S'.Good :=
  h.invariant (fun _ _ _ hS hs => Service.good_step (Service.step_cases hs) hS) hS

theorem Service.canReach_free (hS : S.Good) (hok : ¬ S.Failed) (hstop : S.stopPc ≠ .before) :
    ∃ S', CanReach Service.step S S' ∧ S'.Good ∧ S.Undisturbed S' ∧ S'.Free := by
  have hone : ∀ (S₁ : Service Ctx n m) (i : Fin n), S₁.Good ∧ S.Undisturbed S₁ →
      ∃ S₂, CanReach Service.step S₁ S₂ ∧ (S₂.Good ∧ S.Undisturbed S₂) ∧ S₂.FreeAt i ∧
        ∀ j, j ≠ i → S₁.FreeAt j → S₂.FreeAt j := by
    rintro S₁ i ⟨hS₁, hsame⟩
    have hreturn : Service.CanReturn i S₁ := by
      cases hi : S₁.inside i with
      | none => exact Service.canReturn_send hS₁ (hsame.ok hok) hi
      | some c => exact Service.canReturn hS₁ (hsame.ok hok) (hsame.stopPc ▸ hstop) hi
    obtain ⟨S₂, hreach, hsame', hfree⟩ := hreturn
    exact ⟨S₂, hreach, ⟨Service.good_canReach hreach hS₁, hsame.trans hsame'⟩, hfree,
      fun j _ hj => hsame'.free j hj⟩
  obtain ⟨S', hreach, ⟨hS', hsame⟩, hfree⟩ := CanReach.forall_done hone (List.finRange n)
    ⟨hS, .refl S⟩
  exact ⟨S', hreach, hS', hsame, fun i => hfree i (List.mem_finRange i)⟩

/-! ## Something can go wrong in any other -/

theorem Service.canReach_cpu {i : Fin n} {t : State Ctx n m} (hok : ¬ S.Failed) (hfree : S.Free)
    (h : CanReach (fun s timeout => State.cpuStep s i timeout) S.itachi t) :
    CanReach Service.step S { S with itachi := t } := by
  rw [Service.not_failed_iff] at hok
  refine CanReach.lift (I := fun s => s.aborted = false) (fun s => { S with itachi := s })
    (fun s timeout s' haborted hs => ?_) h hok.2
  refine ⟨(cpuStep_frame hs).1.aborted.trans haborted, .act (.cpu i timeout), ?_⟩
  have hgoto := Service.goto_of_free (S := { S with itachi := s }) (a := .cpu i timeout) hfree
    rfl s'
  simpa [Service.step, Service.dangles, Service.launching, Itachi.step, hok.1, haborted, hs,
    (hfree i).1, (hfree i).2] using hgoto

omit [NeZero n] [NeZero m] in
theorem SameButCpu.of_canReach {i : Fin n} {t : State Ctx n m}
    (h : CanReach (fun s timeout => State.cpuStep s i timeout) s t) :
    SameButCpu s t ∧ ∀ j, j ≠ i → t.cpuPc j = s.cpuPc j := by
  refine h.invariant (I := fun t => SameButCpu s t ∧ ∀ j, j ≠ i → t.cpuPc j = s.cpuPc j)
    (fun t timeout t' ht hs => ?_) ⟨⟨rfl, rfl, rfl, rfl, rfl, rfl⟩, fun _ _ => rfl⟩
  obtain ⟨hsame, hother⟩ := cpuStep_frame hs
  exact ⟨ht.1.trans hsame, fun j hj => (hother j hj).trans (ht.2 j hj)⟩

theorem Service.canDrainCpu (hS : S.Good) (hok : ¬ S.Failed) (hfree : S.Free)
    (hstop : S.stopPc ≠ .before) :
    ∃ t, CanReach Service.step S { S with itachi := t } ∧ SameButCpu S.itachi t ∧
      ∀ i, t.cpuPc i = .exited := by
  have hone : ∀ (S₁ : Service Ctx n m) (i : Fin n),
      (S₁.Good ∧ ∃ t, S₁ = { S with itachi := t } ∧ SameButCpu S.itachi t) →
        ∃ S₂, CanReach Service.step S₁ S₂ ∧
          (S₂.Good ∧ ∃ t, S₂ = { S with itachi := t } ∧ SameButCpu S.itachi t) ∧
          S₂.itachi.cpuPc i = .exited ∧
          ∀ j, j ≠ i → S₁.itachi.cpuPc j = .exited → S₂.itachi.cpuPc j = .exited := by
    rintro S₁ i ⟨hS₁, t, rfl, hsame⟩
    obtain ⟨lists, h⟩ := hS₁.inv
    obtain ⟨t', hreach, hexit⟩ := canExitCpu h (hS₁.stopped hstop) i
    have hok₁ : ¬ Service.Failed { S with itachi := t } :=
      fun hfail => hok (hfail.imp_right (hsame.aborted ▸ ·))
    have hreach' := Service.canReach_cpu hok₁ hfree hreach
    obtain ⟨hsame', hother⟩ := SameButCpu.of_canReach hreach
    exact ⟨_, hreach', ⟨Service.good_canReach hreach' hS₁, t', rfl, hsame.trans hsame'⟩, hexit,
      fun j hj hexited => (hother j hj).trans hexited⟩
  obtain ⟨S₁, hreach, ⟨-, t, rfl, hsame⟩, hexit⟩ := CanReach.forall_done hone (List.finRange n)
    ⟨hS, S.itachi, rfl, rfl, rfl, rfl, rfl, rfl, rfl⟩
  exact ⟨t, hreach, hsame, fun i => hexit i (List.mem_finRange i)⟩

theorem Service.canDrainPoll (hS : S.Good) (hok : ¬ S.Failed) (hfree : S.Free)
    (hstop : S.stopPc ≠ .before) (hcalm : ∀ i, (S.itachi.pollPc i).Calm (S.itachi.loop i)) :
    ∃ t, CanReach Service.step S { S with itachi := t } ∧
      (t.aborted = S.itachi.aborted ∧ t.ctx = S.itachi.ctx ∧ t.launchPc = S.itachi.launchPc) ∧
      ∀ i, t.pollPc i = .exited := by
  let I : Service Ctx n m → Prop := fun S₁ => S₁.Good ∧ ∃ t, S₁ = { S with itachi := t } ∧
    (∀ i, (t.pollPc i).Calm (t.loop i)) ∧
    (t.aborted = S.itachi.aborted ∧ t.ctx = S.itachi.ctx ∧ t.launchPc = S.itachi.launchPc)
  have hone : ∀ (S₁ : Service Ctx n m) (i : Fin m), I S₁ → ∃ S₂, CanReach Service.step S₁ S₂ ∧
      I S₂ ∧ S₂.itachi.pollPc i = .exited ∧
      ∀ j, j ≠ i → S₁.itachi.pollPc j = .exited → S₂.itachi.pollPc j = .exited := by
    rintro S₁ i ⟨hS₁, t, rfl, hcalm₁, haborted, hctx, hlaunch⟩
    obtain ⟨lists, h⟩ := hS₁.inv
    have hok₁ : ¬ Service.Failed { S with itachi := t } :=
      fun hfail => hok (hfail.imp_right (haborted ▸ ·))
    obtain ⟨t', hreach, hexit, hsame⟩ :=
      canExitPoll h hok₁ hfree (hS₁.stopped hstop) (hcalm₁ i)
    refine ⟨_, hreach, ⟨Service.good_canReach hreach hS₁, t', rfl, fun j => ?_,
      hsame.aborted.trans haborted, hsame.ctx.trans hctx, hsame.launchPc.trans hlaunch⟩, hexit,
      fun j hj hexited => (hsame.pollPc j hj).trans hexited⟩
    by_cases hj : j = i
    · rw [hj, hexit]
      trivial
    · rw [hsame.pollPc j hj, hsame.loop j hj]
      exact hcalm₁ j
  obtain ⟨S₁, hreach, ⟨-, t, rfl, -, hframe⟩, hexit⟩ := CanReach.forall_done hone (List.finRange m)
    ⟨hS, S.itachi, rfl, hcalm, rfl, rfl, rfl⟩
  exact ⟨t, hreach, hframe, fun i => hexit i (List.mem_finRange i)⟩

theorem Service.canDeleteCpu (hS : S.Good) (hok : ¬ S.Failed) (hfree : S.Free)
    (hstop : S.stopPc ≠ .before) :
    ∃ S₁, CanReach Service.step S S₁ ∧ S₁.cpuDeleted = true ∧ ¬ S₁.Failed ∧ S₁.Free ∧
      S₁.outside = S.outside ∧ SameButCpu S.itachi S₁.itachi := by
  by_cases hpc : S.stopPc = .joiningCpu
  · obtain ⟨t, hreach, hsame, hexit⟩ := Service.canDrainCpu hS hok hfree hstop
    rw [Service.not_failed_iff] at hok
    have haborted := hsame.aborted.trans hok.2
    refine ⟨{ S with itachi := t, stopPc := .joiningPoll }, hreach.trans
      (.head (a := .join) ?_ (.refl _)), rfl, ?_, hfree, rfl, hsame⟩
    · simp [Service.step, hok.1, haborted, hpc, hexit]
    · exact Service.not_failed_iff.mpr ⟨hok.1, haborted⟩
  · refine ⟨S, .refl S, ?_, hok, hfree, rfl, rfl, rfl, rfl, rfl, rfl, rfl⟩
    unfold Service.cpuDeleted
    cases hcase : S.stopPc with
    | before => exact absurd hcase hstop
    | joiningCpu => exact absurd hcase hpc
    | joiningPoll => rfl
    | after => rfl

theorem Service.canDeletePoll (hS : S.Good) (hok : ¬ S.Failed) (hfree : S.Free)
    (hcpu : S.cpuDeleted = true) (hcalm : ∀ i, (S.itachi.pollPc i).Calm (S.itachi.loop i)) :
    ∃ S₁, CanReach Service.step S S₁ ∧ S₁.pollDeleted = true ∧ ¬ S₁.Failed ∧
      S₁.outside = S.outside ∧ S₁.itachi.ctx = S.itachi.ctx ∧
        S₁.itachi.launchPc = S.itachi.launchPc := by
  rw [Service.cpuDeleted, Bool.or_eq_true, decide_eq_true_eq, decide_eq_true_eq] at hcpu
  rcases hcpu with hpc | hpc
  · obtain ⟨t, hreach, ⟨haborted, hctx, hlaunch⟩, hexit⟩ :=
      Service.canDrainPoll hS hok hfree (by simp [hpc]) hcalm
    rw [Service.not_failed_iff] at hok
    rw [hok.2] at haborted
    refine ⟨{ S with itachi := t, stopPc := .after }, hreach.trans
      (.head (a := .join) ?_ (.refl _)), rfl, ?_, rfl, hctx, hlaunch⟩
    · simp [Service.step, hok.1, haborted, hpc, hexit]
    · exact Service.not_failed_iff.mpr ⟨hok.1, haborted⟩
  · refine ⟨S, .refl S, ?_, hok, rfl, rfl, rfl⟩
    rw [Service.pollDeleted, hpc]
    rfl

theorem Service.crash_of_dangles {a : Itachi.Act Ctx n m} (hok : ¬ S.Failed)
    (hd : S.dangles a = true) : ∃ S', CanReach Service.step S S' ∧ S'.Failed := by
  rw [Service.not_failed_iff] at hok
  refine ⟨{ S with crashed := true }, .head (a := .act a) ?_ (.refl _), .inl rfl⟩
  cases a with
  | launchStep c => simp [Service.step, Service.launching, hok.1, hok.2, hd]
  | poll i fire => simp [Service.step, Service.launching, hok.1, hok.2, hd]
  | _ => cases hd

theorem Service.fail_of_callback {i : Fin m} {c : Ctx} {revents : Revents} (hok : ¬ S.Failed)
    (hstop : S.itachi.stop = true) (hi : S.itachi.pollPc i = .callback c revents) :
    ∃ S', CanReach Service.step S S' ∧ S'.Failed := by
  have hs : ∃ t, S.itachi.pollStep i none = some t ∧ t.aborted = true := by
    simp only [State.pollStep, hi, hstop, if_true]
    split_ifs
    · exact ⟨_, rfl, rfl⟩
    · exact ⟨_, rfl, rfl⟩
  obtain ⟨t, hs, haborted⟩ := hs
  exact ⟨_, .head (Service.step_poll hok (by simp [hi]) hs) (.refl _), .inr haborted⟩

theorem Service.fail_of_poll {i : Fin m} (hS : S.Good) (hok : ¬ S.Failed) (hfree : S.Free)
    (hstop : S.stopPc ≠ .before) (hi : ¬ (S.itachi.pollPc i).Calm (S.itachi.loop i)) :
    ∃ S', CanReach Service.step S S' ∧ S'.Failed := by
  cases hpc : S.itachi.pollPc i with
  | run =>
    rw [hpc] at hi
    -- one of the contexts that wait in the loop is called back
    obtain ⟨c, hc⟩ := List.exists_mem_of_ne_nil _ hi
    let t : State Ctx n m := { S.itachi with
      loop := Function.update S.itachi.loop i ((S.itachi.loop i).erase c) }.pollGoto i
        (.callback c ⟨false, true, false, false⟩)
    have hs : S.itachi.pollStep i (some (c, ⟨false, true, false, false⟩)) = some t := by
      simp only [State.pollStep, hpc, if_pos hc, t]
    obtain ⟨S', hreach, hfail⟩ := Service.fail_of_callback
      (S := S.goto (.poll i (some (c, ⟨false, true, false, false⟩))) t) (i := i)
      hok (hS.stopped hstop) (pollGoto_pollPc _ _)
    exact ⟨S', .head (Service.step_poll hok (by simp [hpc]) hs) hreach, hfail⟩
  | callback c revents => exact Service.fail_of_callback hok (hS.stopped hstop) hpc
  | push c =>
    obtain ⟨S₁, hreach, hcpu, hok₁, -, -, hsame⟩ := Service.canDeleteCpu hS hok hfree hstop
    obtain ⟨S', hreach', hfail⟩ := Service.crash_of_dangles (a := .poll i none) hok₁ (by
      simp only [Service.dangles, hsame.pollPc, hpc, hcpu])
    exact ⟨S', hreach.trans hreach', hfail⟩
  | _ =>
    rw [hpc] at hi
    exact absurd trivial hi

/-- Both handlers can delete what they have, if no poll thread brings the process down before. -/
theorem Service.canDelete (hS : S.Good) (hok : ¬ S.Failed) (hfree : S.Free)
    (hstop : S.stopPc ≠ .before) (hcalm : ∀ i, (S.itachi.pollPc i).Calm (S.itachi.loop i)) :
    ∃ S₁, CanReach Service.step S S₁ ∧ S₁.pollDeleted = true ∧ ¬ S₁.Failed ∧
      S₁.outside = S.outside ∧ S₁.itachi.ctx = S.itachi.ctx ∧
        S₁.itachi.launchPc = S.itachi.launchPc := by
  obtain ⟨S₁, hreach₁, hcpu, hok₁, hfree₁, houtside, hsame⟩ :=
    Service.canDeleteCpu hS hok hfree hstop
  obtain ⟨S₂, hreach₂, hpoll, hok₂, houtside', hctx, hlaunch⟩ :=
    Service.canDeletePoll (Service.good_canReach hreach₁ hS) hok₁ hfree₁ hcpu fun i => by
      rw [hsame.pollPc, hsame.loop]
      exact hcalm i
  exact ⟨S₂, hreach₁.trans hreach₂, hpoll, hok₂, houtside'.trans houtside, hctx.trans hsame.ctx,
    hlaunch.trans hsame.launchPc⟩

theorem Service.fail_of_launch {c : Ctx} (hS : S.Good) (hok : ¬ S.Failed) (hfree : S.Free)
    (hstop : S.stopPc ≠ .before) (hcalm : ∀ i, (S.itachi.pollPc i).Calm (S.itachi.loop i))
    (hc : S.itachi.launchPc c = some .push) : ∃ S', CanReach Service.step S S' ∧ S'.Failed := by
  cases htype : (S.itachi.ctx c).type with
  | nop => exact absurd htype (hS.typed c hc)
  | cpu =>
    obtain ⟨S₁, hreach₁, hcpu, hok₁, -, -, hsame⟩ := Service.canDeleteCpu hS hok hfree hstop
    obtain ⟨S', hreach, hfail⟩ := Service.crash_of_dangles (a := .launchStep c) hok₁ (by
      simp only [Service.dangles, hsame.launchPc, hsame.ctx, hc, htype, hcpu])
    exact ⟨S', hreach₁.trans hreach, hfail⟩
  | net =>
    obtain ⟨S₁, hreach₁, hpoll, hok₁, -, hctx, hlaunch⟩ :=
      Service.canDelete hS hok hfree hstop hcalm
    obtain ⟨S', hreach, hfail⟩ := Service.crash_of_dangles (a := .launchStep c) hok₁ (by
      simp only [Service.dangles, hlaunch, hctx, hc, htype, hpoll])
    exact ⟨S', hreach₁.trans hreach, hfail⟩

theorem Service.fail_of_outside (hS : S.Good) (hok : ¬ S.Failed) (hfree : S.Free)
    (hstop : S.stopPc ≠ .before) (hcalm : ∀ i, (S.itachi.pollPc i).Calm (S.itachi.loop i))
    (houtside : S.outside ≠ 0) : ∃ S', CanReach Service.step S S' ∧ S'.Failed := by
  obtain ⟨S₁, hreach, hpoll, hok₁, heq, -, -⟩ := Service.canDelete hS hok hfree hstop hcalm
  rw [Service.not_failed_iff] at hok₁
  refine ⟨{ S₁ with crashed := true }, hreach.trans (.head (a := .send none) ?_ (.refl _)),
    .inl rfl⟩
  simp [Service.step, Service.mustSend, Service.send, hok₁.1, hok₁.2, heq, houtside, hpoll]

/-- **A stopped itachi is safe exactly when it is calm.** Behind the first statement of `stop`, no
order of the remaining statements can end the process in a handler or use a deleted queue or loop,
if and only if at this moment nobody but a cpu thread is about to push or to notify, and no callback
can come. -/
theorem stop_safe_iff {ctx : Ctx → Context} {mine : Ctx → Bool} {as : List (Service.Act Ctx n m)}
    (hrun : run Service.step (.new n m ctx mine) as = some S) (hstop : S.stopPc ≠ .before) :
    (∀ as' S', run Service.step S as' = some S' → ¬ S'.Failed) ↔ ¬ S.Failed ∧ S.Calm := by
  have hS := Service.good_run hrun
  constructor
  · intro hsafe
    have hok : ¬ S.Failed := hsafe [] S rfl
    obtain ⟨S₁, hreach, hS₁, hsame, hfree⟩ := Service.canReach_free hS hok hstop
    have hok₁ := hsame.ok hok
    have hstop₁ : S₁.stopPc ≠ .before := hsame.stopPc ▸ hstop
    have hcannot : ¬ ∃ S', CanReach Service.step S₁ S' ∧ S'.Failed := by
      rintro ⟨S', hreach', hfail⟩
      obtain ⟨as', h⟩ := hreach.trans hreach'
      exact hsafe as' S' h hfail
    have hcalm : ∀ i, (S₁.itachi.pollPc i).Calm (S₁.itachi.loop i) := by
      intro i
      by_contra hi
      exact hcannot (Service.fail_of_poll hS₁ hok₁ hfree hstop₁ hi)
    refine ⟨hok, fun i => hsame.pollPc ▸ hsame.loop ▸ hcalm i, fun c hc => ?_, ?_⟩
    · by_contra hinside
      push Not at hinside
      rw [← hsame.launchPc c hinside] at hc
      exact hcannot (Service.fail_of_launch hS₁ hok₁ hfree hstop₁ hcalm hc)
    · by_contra houtside
      have hle := hsame.outside
      exact hcannot (Service.fail_of_outside hS₁ hok₁ hfree hstop₁ hcalm (by omega))
  · rintro ⟨hok, hcalm⟩ as' S' h
    refine (invariant_of_run (I := fun S => S.Good ∧ S.stopPc ≠ .before ∧ ¬ S.Failed ∧
      S.Calm) (fun S a S' hI hs => ?_) h ⟨hS, hstop, hok, hcalm⟩).2.2.1
    obtain ⟨hS, hstop, hok, hcalm⟩ := hI
    have hs := Service.step_cases hs
    exact ⟨Service.good_step hs hS, Service.calm_step hS hstop hok hcalm hs⟩

/-- One context waits in an `ev_once`, and one in a cpu queue, when `stop` begins. -/
def stopWhileRegistered : List (Service.Act Bool 1 1) :=
  (passingOn.take 12).map .act ++ [.stop]

/-- A context is launched again from its `onComplete`, and `stop` begins before the push. -/
def stopWhileLaunching : List (Service.Act Bool 1 1) :=
  [.act (.launch true), .act (.launchStep true), .act (.launchStep true), .act (.cpu only false),
    .act (.cpu only false), .act (.cpu only false), .launchFrom only true,
    .act (.launchStep true), .stop]

/-- A context is in a poll queue, and `stop` begins before its launch has called `ev_async_send`. -/
def stopWhileSending : List (Service.Act Bool 1 1) :=
  [.act (.launch false), .act (.launchStep false), .act (.launchStep false), .stop]

theorem stop_safe_registered :
    (∃ S, run Service.step (.new 1 1 netAndCpu fun _ => true) stopWhileRegistered = some S ∧
      ∃ as S', run Service.step S as = some S' ∧ S'.Failed) ∧
    (∃ S, run Service.step (.new 1 1 netAndCpu fun _ => true) stopWhileSending = some S ∧
      ∃ as S', run Service.step S as = some S' ∧ S'.Failed) ∧
    ∃ S, run Service.step (.new 1 1 netAndCpu fun _ => true) stopWhileLaunching = some S ∧
      S.itachi.launchPc true = some .push ∧
        ∀ as S', run Service.step S as = some S' → ¬ S'.Failed := by
  refine ⟨?_, ?_, ?_⟩
  · have h : ((run Service.step (.new 1 1 netAndCpu fun _ => true) stopWhileRegistered).any
        fun S => decide (S.stopPc = .joiningCpu ∧ S.itachi.pollPc only = .run ∧
          S.itachi.loop only = [false])) = true := by
      decide +kernel
    obtain ⟨S, hS, hp⟩ := (Option.any_eq_true _ _).mp h
    obtain ⟨hpc, hrun, hloop⟩ := of_decide_eq_true hp
    refine ⟨S, hS, ?_⟩
    by_contra hsafe
    push Not at hsafe
    have hcalm := ((stop_safe_iff hS (by simp [hpc])).mp hsafe).2.poll only
    rw [hrun, hloop] at hcalm
    cases hcalm
  · have h : ((run Service.step (.new 1 1 netAndCpu fun _ => true) stopWhileSending).any
        fun S => decide (S.stopPc = .joiningCpu ∧ S.outside = 1)) = true := by
      decide +kernel
    obtain ⟨S, hS, hp⟩ := (Option.any_eq_true _ _).mp h
    obtain ⟨hpc, houtside⟩ := of_decide_eq_true hp
    refine ⟨S, hS, ?_⟩
    by_contra hsafe
    push Not at hsafe
    have hcalm := ((stop_safe_iff hS (by simp [hpc])).mp hsafe).2.outside
    rw [houtside] at hcalm
    cases hcalm
  · have h : ((run Service.step (.new 1 1 netAndCpu fun _ => true) stopWhileLaunching).any
        fun S => decide (S.stopPc = .joiningCpu ∧ S.crashed = false ∧ S.itachi.aborted = false ∧
          S.itachi.pollPc only = .top ∧ S.itachi.launchPc false = none ∧
            S.itachi.launchPc true = some .push ∧ S.inside only = some true ∧ S.outside = 0)) =
              true := by
      decide +kernel
    obtain ⟨S, hS, hp⟩ := (Option.any_eq_true _ _).mp h
    obtain ⟨hpc, hcrashed, haborted, hpoll, hfalse, htrue, hinside, houtside⟩ :=
      of_decide_eq_true hp
    refine ⟨S, hS, htrue, (stop_safe_iff hS (by simp [hpc])).mpr
      ⟨?_, fun i => ?_, fun c hc => ?_, houtside⟩⟩
    · exact Service.not_failed_iff.mpr ⟨hcrashed, haborted⟩
    · obtain rfl : i = only := Subsingleton.elim _ _
      rw [hpoll]
      trivial
    · cases c with
      | false =>
        rw [hfalse] at hc
        cases hc
      | true => exact ⟨only, hinside⟩

end Sperm.Itachi
