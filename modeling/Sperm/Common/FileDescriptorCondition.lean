import Sperm.Common.SyncedQueue
import Sperm.Lib.Pool

/-!
# `FileDescriptorCondition` and its `SyncedQueue` (`common/cond.h`, `common/queue.h`)

A condition that is a pair of descriptors: `notify` writes one byte, `wait` reads one. Any number of
threads run the calls of a `SyncedQueue` over it. Every call of the kernel, every use of `lock_` and
every use of `queue_` is one step; what the kernel answers and the time that passes are part of the
action.

* `Waiting.step`, `Notifying.step`: the loops of `wait` and `notify`.
* `Pc`, `State`, `Act`, `step`: the calls of a `SyncedQueue`.
* `Fresh`: no item is linked while it is linked.
* `tokens`: what a thread owes to the pair or has taken from it; **`step_balance`**.
* **`synced_balanced`**: in every run each item in `queue_` has its byte, `lock_` excludes, and
  nobody pops or looks at an empty `queue_`.
-/

namespace Sperm.FileDescriptorCondition

open StepRun ThreadPool SyncedQueue

/-! ## `wait` and `notify` -/

/-- The result of a `::read` or a `::write` of one byte. -/
inductive Moved where
  | one
  /-- `EAGAIN` or `EWOULDBLOCK`. -/
  | again
  | failed

/-- The result of `epoll_wait`. -/
inductive Epoll where
  | failed
  | timeout
  | ready

/-- Where a thread stands in `wait`, with `wait_ms`. -/
inductive Waiting where
  | firstRead (waitMs : ℤ)
  | epoll (waitMs : ℤ)
  | read (waitMs : ℤ)

/-- An answer of the kernel to a thread in `wait`; `elapsed` is `now2 - now`. -/
inductive WaitIo where
  | read (r : Moved) (elapsed : ℤ)
  | epoll (r : Epoll)

/-- The test of `while(wait_ms > 0)`, with `return true` behind the loop. -/
def Waiting.loop (waitMs : ℤ) : Waiting ⊕ Bool :=
  if waitMs > 0 then .inl (.epoll waitMs) else .inr true

/-- One byte is taken, and `wait` returns true. -/
def takeByte : ℕ → Option (ℕ × (Waiting ⊕ Bool))
  | 0 => none
  | n + 1 => some (n, .inr true)

/-- One step of `wait`, with `bytes` that were written and not read yet: these bytes after it, and
where the thread is, or what `wait` returns. -/
def Waiting.step (bytes : ℕ) : Waiting → WaitIo → Option (ℕ × (Waiting ⊕ Bool))
  | .firstRead _, .read .one _ => takeByte bytes
  | .firstRead _, .read .failed _ => some (bytes, .inr false)
  | .firstRead w, .read .again _ => some (bytes, if w ≤ 0 then .inr false else loop w)
  | .epoll _, .epoll .failed => some (bytes, .inr false)
  | .epoll _, .epoll .timeout => some (bytes, .inr false)
  | .epoll w, .epoll .ready => some (bytes, .inl (.read w))
  | .read _, .read .one _ => takeByte bytes
  | .read _, .read .failed _ => some (bytes, .inr false)
  | .read w, .read .again elapsed =>
    some (bytes, if w - elapsed ≤ 0 then .inr false else loop (w - elapsed))
  | _, _ => none

def kRetryCounter : ℤ := 10

/-- One round of the loop in `notify`, with `retry`: the bytes after it, and `retry` when the loop
goes on. -/
def Notifying.step (bytes : ℕ) (retry : ℤ) : Moved → ℕ × Option ℤ
  | .one => (bytes + 1, none)
  | .failed => (bytes, none)
  | .again => (bytes, some (if retry - 1 = 0 then kRetryCounter else retry - 1))

/-- **`wait` returns true with a byte only**: the `return true` behind the loop is never reached. -/
theorem Waiting.step_cases {bytes bytes' : ℕ} {w : Waiting} {io : WaitIo} {r : Waiting ⊕ Bool}
    (h : w.step bytes io = some (bytes', r)) :
    (bytes = bytes' + 1 ∧ r = .inr true) ∨ (bytes' = bytes ∧ r ≠ .inr true) := by
  have htake : takeByte bytes = some (bytes', r) → bytes = bytes' + 1 ∧ r = .inr true := by
    intro h
    cases bytes with
    | zero => cases h
    | succ n =>
      cases h
      exact ⟨rfl, rfl⟩
  have hloop : ∀ w : ℤ, (if w ≤ 0 then .inr false else Waiting.loop w) ≠
      (.inr true : Waiting ⊕ Bool) := by
    intro w
    split_ifs with hw
    · simp
    · rw [Waiting.loop, if_pos (by omega)]
      simp
  cases w with
  | firstRead w =>
    cases io with
    | epoll r => cases h
    | read r elapsed =>
      cases r with
      | one => exact .inl (htake h)
      | again =>
        cases h
        exact .inr ⟨rfl, hloop w⟩
      | failed =>
        cases h
        exact .inr ⟨rfl, by simp⟩
  | epoll w =>
    cases io with
    | read r elapsed => cases h
    | epoll r => cases r <;> cases h <;> exact .inr ⟨rfl, by simp⟩
  | read w =>
    cases io with
    | epoll r => cases h
    | read r elapsed =>
      cases r with
      | one => exact .inl (htake h)
      | again =>
        cases h
        exact .inr ⟨rfl, hloop _⟩
      | failed =>
        cases h
        exact .inr ⟨rfl, by simp⟩

/-! ## The calls of the queue -/

/-- What is done to `queue_` under `lock_`: `dest` is false for a call with `NULL`. -/
inductive Task (T : Type) where
  | push (x : T)
  | pushFront (x : T)
  | pop (dest : Bool)
  | top (dest : Bool)

/-- Where a thread stands in a call. -/
inductive Pc (T : Type) where
  | idle
  | waiting (task : Task T) (w : Waiting)
  | lock (task : Task T)
  | body (task : Task T)
  /-- `notifies` says that the call ends with `cond_.notify()`. -/
  | unlock (notifies : Bool)
  | notifying (retry : ℤ)
  /-- The call has done something undefined to `queue_`. -/
  | undefined

/-- Where a thread goes when `wait` has returned. -/
def Task.waited {T : Type} (task : Task T) : Bool → Pc T
  | true => .lock task
  | false => .idle

/-- The holder of `lock_` is between `lock()` and `unlock()`. -/
def Pc.Critical {T : Type} : Pc T → Prop
  | .body _ => True
  | .unlock _ => True
  | .undefined => True
  | _ => False

structure State {T : Type} (ops : QueueOps T) (Tid : Type) where
  queue : ops.Q
  lock : Option Tid
  /-- The bytes that were written and not read yet. -/
  bytes : ℕ
  pc : Tid → Pc T
  pushed : List T
  popped : List T
  /-- The `pop(NULL)` that have returned true. -/
  nulls : ℕ
  /-- The `notify` whose `::write` has failed. -/
  lost : ℕ

/-- What a thread may do: begin a call, get an answer of the kernel, or take its next step. -/
inductive Act (T Tid : Type) where
  | push (t : Tid) (x : T)
  | pushFront (t : Tid) (x : T)
  | pop (t : Tid) (dest : Bool) (waitMs : ℤ)
  | top (t : Tid) (dest : Bool) (waitMs : ℤ)
  | wait (t : Tid) (io : WaitIo)
  | lock (t : Tid)
  | body (t : Tid)
  | unlock (t : Tid)
  | write (t : Tid) (r : Moved)

namespace State

variable {T Tid : Type} {ops : QueueOps T}

def new (ops : QueueOps T) (Tid : Type) : State ops Tid :=
  ⟨ops.new, none, 0, fun _ => .idle, [], [], 0, 0⟩

def items (s : State ops Tid) : Multiset T := ops.items s.queue

variable [DecidableEq Tid]

/-- Thread `t` moves to `p`. -/
def goto (s : State ops Tid) (t : Tid) (p : Pc T) : State ops Tid :=
  { s with pc := Function.update s.pc t p }

/-- The work on `queue_` between `lock()` and `unlock()`. -/
def runBody (s : State ops Tid) (t : Tid) : Task T → State ops Tid
  | .push x =>
    match ops.push s.queue x with
    | none => s.goto t .undefined
    | some q => { s with queue := q, pushed := x :: s.pushed }.goto t (.unlock true)
  | .pushFront x =>
    match ops.pushFront s.queue x with
    | none => s.goto t .undefined
    | some q => { s with queue := q, pushed := x :: s.pushed }.goto t (.unlock true)
  | .pop false => { s with nulls := s.nulls + 1 }.goto t (.unlock false)
  | .pop true =>
    match ops.pop s.queue with
    | none => s.goto t .undefined
    | some (x, q) => { s with queue := q, popped := x :: s.popped }.goto t (.unlock false)
  | .top false => s.goto t (.unlock true)
  | .top true =>
    match ops.top s.queue with
    | none => s.goto t .undefined
    | some _ => s.goto t (.unlock true)

/-- A thread begins a call. -/
def enter (s : State ops Tid) (t : Tid) (p : Pc T) : Option (State ops Tid) :=
  match s.pc t with
  | .idle => some (s.goto t p)
  | _ => none

def step (s : State ops Tid) : Act T Tid → Option (State ops Tid)
  | .push t x => s.enter t (.lock (.push x))
  | .pushFront t x => if ops.hasPushFront then s.enter t (.lock (.pushFront x)) else none
  | .pop t dest waitMs => s.enter t (.waiting (.pop dest) (.firstRead waitMs))
  | .top t dest waitMs =>
    if ops.hasTop then s.enter t (.waiting (.top dest) (.firstRead waitMs)) else none
  | .wait t io =>
    match s.pc t with
    | .waiting task w =>
      (w.step s.bytes io).map fun r =>
        { s with bytes := r.1 }.goto t (r.2.elim (.waiting task) task.waited)
    | _ => none
  | .lock t =>
    match s.pc t, s.lock with
    | .lock task, none => some ({ s with lock := some t }.goto t (.body task))
    | _, _ => none
  | .body t =>
    match s.pc t with
    | .body task => some (s.runBody t task)
    | _ => none
  | .unlock t =>
    match s.pc t with
    | .unlock notifies =>
      some ({ s with lock := none }.goto t (if notifies then .notifying kRetryCounter else .idle))
    | _ => none
  | .write t r =>
    match s.pc t with
    | .notifying retry =>
      match r, Notifying.step s.bytes retry r with
      | _, (bytes, some retry') => some ({ s with bytes := bytes }.goto t (.notifying retry'))
      | .failed, (bytes, none) =>
        some ({ s with bytes := bytes, lost := s.lost + 1 }.goto t .idle)
      | _, (bytes, none) => some ({ s with bytes := bytes }.goto t .idle)
    | _ => none

/-- An item is not linked into `queue_` while it is linked there. -/
def Fresh (s : State ops Tid) : Act T Tid → Prop
  | .body t =>
    match s.pc t with
    | .body (.push x) => ops.intrusive → x ∉ s.items
    | .body (.pushFront x) => ops.intrusive → x ∉ s.items
    | _ => True
  | _ => True

end State

/-! ## The balance -/

section

variable {T Tid : Type} {ops : QueueOps T}

/-- The bytes that a task has taken from the pair before it is done. -/
def Task.tokens : Task T → ℕ
  | .push _ => 0
  | .pushFront _ => 0
  | .pop _ => 1
  | .top _ => 1

/-- The bytes that a thread has taken and not used, or owes. -/
def tokens : Pc T → ℕ
  | .lock task => task.tokens
  | .body task => task.tokens
  | .unlock true => 1
  | .notifying _ => 1
  | _ => 0

/-- The class has the operation. -/
def Task.Allowed (ops : QueueOps T) : Task T → Prop
  | .pushFront _ => ops.hasPushFront
  | .top _ => ops.hasTop
  | _ => True

/-- A thread is in no call that the class does not have, waits for a byte that its task takes, and
has done nothing undefined. -/
def Pc.Allowed (ops : QueueOps T) : Pc T → Prop
  | .waiting task _ => task.tokens = 1 ∧ task.Allowed ops
  | .lock task => task.Allowed ops
  | .body task => task.Allowed ops
  | .undefined => False
  | _ => True

variable [Fintype Tid]

/-- The items stand in `queue_` for the bytes, and for those that are under way or will not come
back. -/
structure Balanced (s : State ops Tid) : Prop where
  card_items : s.items.card = s.bytes + tally tokens s.pc + s.lost + s.nulls
  pushed_eq : (s.pushed : Multiset T) = s.popped + s.items
  lock : ∀ t, (s.pc t).Critical ↔ s.lock = some t
  allowed : ∀ t, (s.pc t).Allowed ops

theorem balanced_new : Balanced (State.new ops Tid) where
  card_items := by
    have htally : tally tokens (State.new ops Tid).pc = 0 := tally_const Pc.idle rfl
    have hitems : (State.new ops Tid).items = 0 := ops.items_new
    rw [htally, hitems]
    rfl
  pushed_eq := by
    have hitems : (State.new ops Tid).items = 0 := ops.items_new
    rw [hitems]
    rfl
  lock _ := ⟨False.elim, nofun⟩
  allowed _ := trivial

variable [DecidableEq Tid] {s s' : State ops Tid} {t : Tid} {p : Pc T}

theorem Balanced.goto (h : Balanced s) (s₁ : State ops Tid) (hpc : s₁.pc = s.pc)
    (hlength : s₁.items.card + (s.bytes + s.lost + s.nulls + tokens (s.pc t)) =
      s.items.card + (s₁.bytes + s₁.lost + s₁.nulls + tokens p))
    (hpushed : (s₁.pushed : Multiset T) = s₁.popped + s₁.items)
    (hlock : ∀ u, (Function.update s.pc t p u).Critical ↔ s₁.lock = some u)
    (hallowed : p.Allowed ops) : Balanced (s₁.goto t p) where
  card_items := by
    have htally := tally_update tokens s₁.pc t p
    rw [hpc] at htally
    have hold := h.card_items
    show s₁.items.card =
      s₁.bytes + tally tokens (Function.update s₁.pc t p) + s₁.lost + s₁.nulls
    rw [hpc]
    omega
  pushed_eq := hpushed
  lock := by
    intro u
    show (Function.update s₁.pc t p u).Critical ↔ s₁.lock = some u
    rw [hpc]
    exact hlock u
  allowed := by
    intro u
    show (Function.update s₁.pc t p u).Allowed ops
    rw [hpc]
    by_cases hu : u = t
    · subst hu
      rwa [Function.update_self]
    · rw [Function.update_of_ne hu]
      exact h.allowed u

theorem Balanced.lock_kept (h : Balanced s) (hp : p.Critical ↔ (s.pc t).Critical) (u : Tid) :
    (Function.update s.pc t p u).Critical ↔ s.lock = some u := by
  by_cases hu : u = t
  · subst hu
    rw [Function.update_self, hp]
    exact h.lock u
  · rw [Function.update_of_ne hu]
    exact h.lock u

theorem Balanced.lock_taken (h : Balanced s) (hfree : s.lock = none) (hp : p.Critical) (u : Tid) :
    (Function.update s.pc t p u).Critical ↔ some t = some u := by
  by_cases hu : u = t
  · subst hu
    rw [Function.update_self]
    exact ⟨fun _ => rfl, fun _ => hp⟩
  · rw [Function.update_of_ne hu, h.lock u, hfree]
    simp [Ne.symm hu]

theorem Balanced.lock_freed (h : Balanced s) (ht : (s.pc t).Critical) (hp : ¬ p.Critical)
    (u : Tid) : (Function.update s.pc t p u).Critical ↔ (none : Option Tid) = some u := by
  by_cases hu : u = t
  · subst hu
    rw [Function.update_self]
    exact ⟨fun h => absurd h hp, nofun⟩
  · rw [Function.update_of_ne hu, h.lock u, (h.lock t).mp ht]
    simp [Ne.symm hu]

theorem Balanced.move (h : Balanced s) (htokens : tokens p = tokens (s.pc t))
    (hcritical : p.Critical ↔ (s.pc t).Critical) (hallowed : p.Allowed ops) :
    Balanced (s.goto t p) :=
  h.goto s rfl (by omega) h.pushed_eq (h.lock_kept hcritical) hallowed

/-- Whoever has taken a byte and not used it finds an item. -/
theorem Balanced.items_ne_zero (h : Balanced s) (ht : tokens (s.pc t) = 1) : s.items ≠ 0 := by
  have htally := tally_update tokens s.pc t .idle
  have hlength := h.card_items
  rw [ht, show tokens (.idle : Pc T) = 0 from rfl] at htally
  intro hnil
  rw [hnil, Multiset.card_zero] at hlength
  omega

theorem Balanced.added {q : ops.Q} {x : T} (h : Balanced s) (ht : tokens (s.pc t) = 0)
    (hcritical : (s.pc t).Critical) (hq : ops.items q = x ::ₘ s.items) :
    Balanced ({ s with queue := q, pushed := x :: s.pushed }.goto t (.unlock true)) := by
  refine h.goto { s with queue := q, pushed := x :: s.pushed } rfl ?_ ?_
    (h.lock_kept ⟨fun _ => hcritical, fun _ => trivial⟩) trivial
  · have hlength := congrArg Multiset.card hq
    rw [Multiset.card_cons] at hlength
    show (ops.items q).card + _ = _ + (s.bytes + s.lost + s.nulls + 1)
    omega
  · show ((x :: s.pushed : List T) : Multiset T) = s.popped + ops.items q
    rw [hq, Multiset.add_cons, ← h.pushed_eq, Multiset.cons_coe]

theorem Balanced.runBody {task : Task T} (h : Balanced s) (ht : s.pc t = .body task)
    (hfresh : s.Fresh (.body t)) : Balanced (s.runBody t task) := by
  have hallowed := h.allowed t
  have hcritical : (s.pc t).Critical := by
    rw [ht]
    trivial
  rw [ht] at hallowed
  simp only [State.Fresh, ht] at hfresh
  cases task with
  | push x =>
    obtain ⟨q, hpush, hq⟩ := ops.push_spec s.queue x hfresh
    rw [State.runBody, hpush]
    exact h.added (by rw [ht]; rfl) hcritical hq
  | pushFront x =>
    obtain ⟨q, hpush, hq⟩ := ops.pushFront_spec hallowed s.queue x hfresh
    rw [State.runBody, hpush]
    exact h.added (by rw [ht]; rfl) hcritical hq
  | pop dest =>
    have hne : s.items ≠ 0 := h.items_ne_zero (t := t) (by rw [ht]; rfl)
    cases dest with
    | false =>
      refine h.goto { s with nulls := s.nulls + 1 } rfl ?_ h.pushed_eq
        (h.lock_kept ⟨fun _ => hcritical, fun _ => trivial⟩) trivial
      rw [ht]
      show s.items.card + (_ + 1) = _ + (s.bytes + s.lost + (s.nulls + 1) + 0)
      omega
    | true =>
      obtain ⟨x, q, hpop, hq⟩ := ops.pop_spec s.queue hne
      rw [State.runBody, hpop]
      refine h.goto { s with queue := q, popped := x :: s.popped } rfl ?_ ?_
        (h.lock_kept ⟨fun _ => hcritical, fun _ => trivial⟩) trivial
      · have hlength : s.items.card = (x ::ₘ ops.items q).card := congrArg Multiset.card hq
        rw [Multiset.card_cons] at hlength
        rw [ht]
        show (ops.items q).card + (s.bytes + s.lost + s.nulls + 1) =
          s.items.card + (s.bytes + s.lost + s.nulls + 0)
        omega
      · show (s.pushed : Multiset T) = ((x :: s.popped : List T) : Multiset T) + ops.items q
        have hx : s.items = x ::ₘ ops.items q := hq
        rw [h.pushed_eq, hx, Multiset.add_cons, ← Multiset.cons_coe, Multiset.cons_add]
  | top dest =>
    have hne : s.items ≠ 0 := h.items_ne_zero (t := t) (by rw [ht]; rfl)
    have hdone : Balanced (s.goto t (.unlock true)) :=
      h.move (by rw [ht]; rfl) ⟨fun _ => hcritical, fun _ => trivial⟩ trivial
    cases dest with
    | false => exact hdone
    | true =>
      obtain ⟨x, -, htop⟩ := ops.top_spec hallowed s.queue hne
      rw [State.runBody, htop]
      exact hdone

theorem Balanced.enter (h : Balanced s) (hs : s.enter t p = some s') (htokens : tokens p = 0)
    (hcritical : ¬ p.Critical) (hallowed : p.Allowed ops) : Balanced s' := by
  unfold State.enter at hs
  split at hs
  · next hpc =>
    cases hs
    refine h.move (by rw [htokens, hpc]; rfl) ?_ hallowed
    rw [hpc]
    exact ⟨fun hp => absurd hp hcritical, False.elim⟩
  · cases hs

theorem Balanced.wait {task : Task T} {w : Waiting} {io : WaitIo} {bytes : ℕ} {r : Waiting ⊕ Bool}
    (h : Balanced s) (ht : s.pc t = .waiting task w)
    (hstep : w.step s.bytes io = some (bytes, r)) :
    Balanced ({ s with bytes := bytes }.goto t (r.elim (.waiting task) task.waited)) := by
  have hallowed := h.allowed t
  rw [ht] at hallowed
  have hfree : ∀ p : Pc T, ¬ p.Critical → (p.Critical ↔ (s.pc t).Critical) := by
    intro p hp
    rw [ht]
    exact ⟨fun h => absurd h hp, False.elim⟩
  rcases Waiting.step_cases hstep with ⟨hbytes, rfl⟩ | ⟨rfl, hr⟩
  · refine h.goto { s with bytes := bytes } rfl ?_ h.pushed_eq (h.lock_kept (hfree _ id))
      hallowed.2
    have htask : task.tokens = 1 := hallowed.1
    rw [ht]
    show s.items.card + (s.bytes + s.lost + s.nulls + 0) =
      s.items.card + (bytes + s.lost + s.nulls + task.tokens)
    omega
  · cases r with
    | inl w' => exact h.move (by rw [ht]; rfl) (hfree _ id) hallowed
    | inr b =>
      cases b with
      | true => exact absurd rfl hr
      | false => exact h.move (by rw [ht]; rfl) (hfree _ id) trivial

/-- **Every step** keeps the balance. -/
theorem step_balance {a : Act T Tid} (hfresh : s.Fresh a) (h : Balanced s)
    (hs : s.step a = some s') : Balanced s' := by
  cases a with
  | push t x => exact h.enter hs rfl id trivial
  | pushFront t x =>
    simp only [State.step] at hs
    split_ifs at hs with hhas
    exact h.enter hs rfl id hhas
  | pop t dest waitMs => exact h.enter hs rfl id ⟨rfl, trivial⟩
  | top t dest waitMs =>
    simp only [State.step] at hs
    split_ifs at hs with hhas
    exact h.enter hs rfl id ⟨rfl, hhas⟩
  | wait t io =>
    simp only [State.step] at hs
    split at hs
    · next task w ht =>
      obtain ⟨⟨bytes, r⟩, hstep, rfl⟩ := Option.map_eq_some_iff.mp hs
      exact h.wait ht hstep
    · cases hs
  | lock t =>
    simp only [State.step] at hs
    split at hs
    · next task ht hlock =>
      cases hs
      have hallowed := h.allowed t
      rw [ht] at hallowed
      refine h.goto { s with lock := some t } rfl ?_ h.pushed_eq
        (h.lock_taken hlock trivial) hallowed
      rw [ht]
      rfl
    · cases hs
  | body t =>
    simp only [State.step] at hs
    split at hs
    · next task ht =>
      cases hs
      exact h.runBody ht hfresh
    · cases hs
  | unlock t =>
    simp only [State.step] at hs
    split at hs
    · next notifies ht =>
      cases hs
      refine h.goto { s with lock := none } rfl ?_ h.pushed_eq
        (h.lock_freed (by rw [ht]; trivial) ?_) ?_
      · rw [ht]
        cases notifies <;> rfl
      · cases notifies <;> exact id
      · cases notifies <;> trivial
    · cases hs
  | write t r =>
    simp only [State.step] at hs
    split at hs
    · next retry ht =>
      have hfree : ∀ p : Pc T, ¬ p.Critical → (p.Critical ↔ (s.pc t).Critical) := by
        intro p hp
        rw [ht]
        exact ⟨fun h => absurd h hp, False.elim⟩
      cases r with
      | one =>
        cases hs
        refine h.goto { s with bytes := s.bytes + 1 } rfl ?_ h.pushed_eq
          (h.lock_kept (hfree _ id)) trivial
        rw [ht]
        show s.items.card + (s.bytes + s.lost + s.nulls + 1) =
          s.items.card + (s.bytes + 1 + s.lost + s.nulls + 0)
        omega
      | again =>
        cases hs
        exact h.move (by rw [ht]; rfl) (hfree _ id) trivial
      | failed =>
        cases hs
        refine h.goto { s with lost := s.lost + 1 } rfl ?_ h.pushed_eq
          (h.lock_kept (hfree _ id)) trivial
        rw [ht]
        show s.items.card + (s.bytes + s.lost + s.nulls + 1) =
          s.items.card + (s.bytes + (s.lost + 1) + s.nulls + 0)
        omega
    · cases hs

/-- **The items and the bytes**: in every run of any threads, an item that is in `queue_` has its
byte in the pair or on its way, but for the ones that a `pop(NULL)` or a failed `::write` has left
behind. So nobody pops or looks at an empty `queue_`; `lock_` excludes; and what was popped and what
is in `queue_` are what was pushed. -/
theorem synced_balanced {acts : List (Act T Tid)}
    (hrun : run State.step (State.new ops Tid) acts = some s)
    (hfresh : Guarded State.step State.Fresh (State.new ops Tid) acts) :
    s.items.card = s.bytes + tally tokens s.pc + s.lost + s.nulls ∧
      (s.pushed : Multiset T) = s.popped + s.items ∧
        (∀ t u, (s.pc t).Critical → (s.pc u).Critical → t = u) ∧
          ∀ t, s.pc t ≠ .undefined := by
  have h := invariant_of_guarded (fun _ _ _ hfresh => step_balance hfresh) hrun hfresh balanced_new
  refine ⟨h.card_items, h.pushed_eq, fun t u ht hu => ?_, fun t ht => ?_⟩
  · rw [h.lock] at ht hu
    rw [ht] at hu
    exact Option.some.inj hu
  · have hallowed := h.allowed t
    rw [ht] at hallowed
    exact hallowed

omit [Fintype Tid] [DecidableEq Tid] in
theorem fresh_of_not_intrusive (h : ops.intrusive = false) (s : State ops Tid) (a : Act T Tid) :
    s.Fresh a := by
  unfold State.Fresh
  split
  · split
    · exact fun hi => absurd hi (by rw [h]; decide)
    · exact fun hi => absurd hi (by rw [h]; decide)
    · trivial
  · trivial

end

/-- One thread is told that the byte is there when the other one takes it to look at the item and
gives it back. -/
def stolenByte : List (Act ℕ Bool) :=
  [.pop false true 5, .wait false (.read .again 0), .push true 7, .lock true, .body true,
    .unlock true, .write true .again, .write true .one, .wait false (.epoll .ready),
    .top true true (-1), .wait true (.read .one 0), .wait false (.read .again 2), .lock true,
    .body true, .unlock true, .write true .one, .wait false (.epoll .ready),
    .wait false (.read .one 0), .lock false, .body false]

theorem synced_balanced_stolenByte :
    ∃ s, run State.step (State.new (stlQueue ℕ) Bool) stolenByte = some s ∧ s.popped = [7] ∧
      s.items.card = s.bytes + tally tokens s.pc + s.lost + s.nulls := by
  have hrun : ∃ s, run State.step (State.new (stlQueue ℕ) Bool) stolenByte = some s ∧
      s.popped = [7] := ⟨_, rfl, rfl⟩
  obtain ⟨s, hs, hpopped⟩ := hrun
  exact ⟨s, hs, hpopped,
    (synced_balanced hs (guarded_of_forall (fresh_of_not_intrusive rfl) _ _)).1⟩

end Sperm.FileDescriptorCondition
