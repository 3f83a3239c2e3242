import Sperm.Common.DLinkedListQueue
import Sperm.Common.FutexCondition
import Sperm.Common.SLinkedListQueue
import Sperm.Lib.PriorityQueue

/-!
# `SyncedQueue` (`common/queue.h`)

A queue class, a lock and a condition: `push` adds an item and a token, `pop` waits for a token and
takes an item, and `top` waits for a token and gives it back. Here the condition is a
`FutexCondition`, and one thread does all the calls.

* `wait`, `notify`: the calls of a `FutexCondition` by the only thread.
* `QueueOps`: a queue class with what its operations do to the items; `QueueClass.ops`: the five
  classes of the source.
* `Call`, `call`: the calls of a `SyncedQueue`.
* **`tokens_match_iff`**: the tokens match the items through a run exactly when no item is left
  behind by `pop(NULL)` and the counter does not overflow.
-/

namespace Sperm.SyncedQueue

open StepRun

/-! ## The condition, from one thread -/

abbrev Cond : Type := FutexCondition.State Unit

/-- `wait(wait_ms)`: what it returns and the condition after it. Without a token the thread sleeps
until its time is over, and for ever when it has none, as nobody else is there to wake it. (An
interrupted `FUTEX_WAIT` is done again.) -/
def wait (c : Cond) (timed : Bool) : Option (Bool × Cond) :=
  if c.counter ≥ 1 then (FutexCondition.step c (.waitAdd () timed)).map fun c' => (true, c')
  else if timed then
    (run FutexCondition.step c
      [.waitAdd () true, .futexWait (), .timeout (), .anotifyAdd ()]).bind fun c' =>
        if c'.pc () = .anotifyWake then
          (FutexCondition.step c' (.anotifyWake () none)).map fun c'' => (false, c'')
        else some (false, c')
  else none

/-- `notify()`: a thread that finds a waiter tries to wake it until it has woken one. Here nobody
waits, so it tries for ever. -/
def notify (c : Cond) : Option Cond :=
  (FutexCondition.step c (.notifyAdd ())).bind fun c' =>
    if c'.pc () = .notifyWake then none else some c'

variable {c : Cond} {timed : Bool}

theorem add32_of_mem {n d : ℤ} (h₁ : -2 ^ 31 ≤ n + d) (h₂ : n + d < 2 ^ 31) :
    FutexCondition.add32 n d = n + d := by
  rw [FutexCondition.add32, Int.bmod_def]
  split_ifs <;> omega

theorem wait_of_pos (hp : c.pc () = .idle) (hc : 1 ≤ c.counter) (hlt : c.counter < 2 ^ 31)
    (timed : Bool) :
    ∃ c', wait c timed = some (true, c') ∧ c'.counter = c.counter - 1 ∧ c'.pc () = .idle := by
  refine ⟨{ c with counter := FutexCondition.add32 c.counter (-1), trues := c.trues + 1 }, ?_, ?_,
    hp⟩
  · rw [wait, if_pos hc, FutexCondition.step, if_pos hp, if_pos hc]
    rfl
  · exact add32_of_mem (by omega) (by omega)

theorem wait_timeout (hp : c.pc () = .idle) (hc : c.counter = 0) :
    ∃ c', wait c true = some (false, c') ∧ c'.counter = 0 ∧ c'.pc () = .idle := by
  obtain ⟨counter, pc, trues, incs⟩ := c
  dsimp only at hp hc
  subst hc
  obtain rfl : pc = fun _ => .idle := funext fun _ => hp
  refine ⟨⟨0, fun _ => .idle, trues, incs⟩, ?_, rfl, rfl⟩
  -- the decrement to `-1` is taken back
  have hrun : run FutexCondition.step (⟨0, fun _ => .idle, trues, incs⟩ : Cond)
      [.waitAdd () true, .futexWait (), .timeout (), .anotifyAdd ()] =
        some ⟨0, fun _ => .idle, trues, incs⟩ := by
    simp [run, FutexCondition.step, FutexCondition.State.goto, FutexCondition.add32,
      FutexCondition.timeoutThreshold, Function.update]
  rw [wait, if_neg (show ¬ (0 : ℤ) ≥ 1 by decide), if_pos rfl, hrun]
  rfl

theorem wait_for_ever (hc : c.counter < 1) : wait c false = none := by
  rw [wait, if_neg (by omega), if_neg Bool.false_ne_true]

theorem notify_of_nonneg (hp : c.pc () = .idle) (hc : 0 ≤ c.counter) :
    ∃ c', notify c = some c' ∧ c'.counter = FutexCondition.add32 c.counter 1 ∧
      c'.pc () = .idle := by
  have hstep : FutexCondition.step c (.notifyAdd ()) = some ({ c with
      counter := FutexCondition.add32 c.counter 1, incs := c.incs + 1 }.goto () .idle) := by
    rw [FutexCondition.step, if_pos hp, if_pos hc]
  exact ⟨_, by rw [notify, hstep]; rfl, rfl, rfl⟩

/-! ## Queue classes -/

/-- A queue class for items `T`: its operations, where `none` is a call whose behaviour is undefined
or that the class does not have, and what they do to the items in the queue. An intrusive class
takes no item that is already in the queue. -/
structure QueueOps (T : Type) where
  Q : Type
  new : Q
  items : Q → Multiset T
  intrusive : Bool
  hasPushFront : Bool
  hasTop : Bool
  push : Q → T → Option Q
  pushFront : Q → T → Option Q
  pop : Q → Option (T × Q)
  top : Q → Option T
  items_new : items new = 0
  push_spec : ∀ q x, (intrusive → x ∉ items q) →
    ∃ q', push q x = some q' ∧ items q' = x ::ₘ items q
  pushFront_spec : hasPushFront → ∀ q x, (intrusive → x ∉ items q) →
    ∃ q', pushFront q x = some q' ∧ items q' = x ::ₘ items q
  pop_spec : ∀ q, items q ≠ 0 → ∃ x q', pop q = some (x, q') ∧ items q = x ::ₘ items q'
  top_spec : hasTop → ∀ q, items q ≠ 0 → ∃ x ∈ items q, top q = some x

variable {T : Type}

/-- `STLQueue`: a `std::queue`. -/
def stlQueue (T : Type) : QueueOps T where
  Q := List T
  new := []
  items q := q
  intrusive := false
  hasPushFront := false
  hasTop := true
  push q x := some (q ++ [x])
  pushFront _ _ := none
  pop
    | [] => none
    | x :: q => some (x, q)
  top q := q.head?
  items_new := rfl
  push_spec q x _ := ⟨_, rfl, Multiset.coe_eq_coe.mpr (List.perm_append_singleton x q)⟩
  pushFront_spec h := nomatch h
  pop_spec
    | [], h => absurd rfl h
    | x :: q, _ => ⟨x, q, rfl, rfl⟩
  top_spec
    | _, [], h => absurd rfl h
    | _, x :: _, _ => ⟨x, List.mem_cons_self, rfl⟩

/-- `STLDeque`: a `std::deque`. -/
def stlDeque (T : Type) : QueueOps T :=
  { stlQueue T with
    hasPushFront := true
    pushFront := fun q x => some (x :: q)
    pushFront_spec := fun _ _ _ _ => ⟨_, rfl, rfl⟩ }

/-- `STLPriorityQueue`: a `std::priority_queue`. -/
def stlPriorityQueue {less : T → T → Prop} (P : PriorityQueue T less) : QueueOps T where
  Q := P.Q
  new := P.new
  items := P.items
  intrusive := false
  hasPushFront := false
  hasTop := true
  push q x := some (P.push x q)
  pushFront _ _ := none
  pop q := if P.isEmpty q then none else (P.top q).map fun x => (x, P.pop q)
  top q := if P.isEmpty q then none else P.top q
  items_new := P.items_new
  push_spec q x _ := ⟨_, rfl, P.items_push x q⟩
  pushFront_spec h := nomatch h
  pop_spec q h := by
    obtain ⟨x, htop, hpop⟩ := P.items_pop q h
    refine ⟨x, P.pop q, ?_, hpop⟩
    rw [if_neg (fun he => h ((P.isEmpty_iff q).mp he)), htop]
    rfl
  top_spec _ q h := by
    obtain ⟨x, htop, hpop⟩ := P.items_pop q h
    refine ⟨x, hpop ▸ Multiset.mem_cons_self x _, ?_⟩
    rw [if_neg (fun he => h ((P.isEmpty_iff q).mp he)), htop]

/-- A queue whose items are linked through fields of their own: the pointers, when they hold a
sequence, and what the operations do to it. -/
structure Intrusive (T : Type) where
  Pointers : Type
  Represents : Pointers → List T → Prop
  new : Pointers
  push : Pointers → T → Option Pointers
  pushFront : Pointers → T → Option Pointers
  pop : Pointers → Option (T × Pointers)
  represents_new : Represents new []
  represents_push : ∀ {p l x}, Represents p l → x ∉ l →
    ∃ p', push p x = some p' ∧ Represents p' (l ++ [x])
  represents_pushFront : ∀ {p l x}, Represents p l → x ∉ l →
    ∃ p', pushFront p x = some p' ∧ Represents p' (x :: l)
  represents_pop : ∀ {p l x}, Represents p (x :: l) → ∃ p', pop p = some (x, p') ∧ Represents p' l
  pop_nil : ∀ {p}, Represents p [] → pop p = none

namespace Intrusive

/-- The pointers with the sequence they hold. -/
structure Queue (c : Intrusive T) where
  pointers : c.Pointers
  items : List T
  represents : c.Represents pointers items

variable {c : Intrusive T} {q : c.Queue} {x : T} {p : c.Pointers}

theorem represents_of_push (hx : x ∉ q.items) (h : c.push q.pointers x = some p) :
    c.Represents p (q.items ++ [x]) := by
  obtain ⟨p', h', hr⟩ := c.represents_push q.represents hx
  rw [h] at h'
  cases h'
  exact hr

theorem represents_of_pushFront (hx : x ∉ q.items) (h : c.pushFront q.pointers x = some p) :
    c.Represents p (x :: q.items) := by
  obtain ⟨p', h', hr⟩ := c.represents_pushFront q.represents hx
  rw [h] at h'
  cases h'
  exact hr

theorem represents_of_pop (h : c.pop q.pointers = some (x, p)) :
    c.Represents p q.items.tail ∧ q.items = x :: q.items.tail := by
  have hr := q.represents
  cases hl : q.items with
  | nil =>
    rw [hl] at hr
    rw [c.pop_nil hr] at h
    cases h
  | cons y l =>
    rw [hl] at hr
    obtain ⟨p', h', hr'⟩ := c.represents_pop hr
    rw [h] at h'
    cases h'
    exact ⟨hr', rfl⟩

variable [DecidableEq T]

def Queue.push (q : c.Queue) (x : T) : Option c.Queue :=
  if hx : x ∈ q.items then none
  else match h : c.push q.pointers x with
    | none => none
    | some p => some ⟨p, q.items ++ [x], represents_of_push hx h⟩

def Queue.pushFront (q : c.Queue) (x : T) : Option c.Queue :=
  if hx : x ∈ q.items then none
  else match h : c.pushFront q.pointers x with
    | none => none
    | some p => some ⟨p, x :: q.items, represents_of_pushFront hx h⟩

def Queue.pop (q : c.Queue) : Option (T × c.Queue) :=
  match h : c.pop q.pointers with
  | none => none
  | some (x, p) => some (x, ⟨p, q.items.tail, (represents_of_pop h).1⟩)

theorem push_spec (hx : x ∉ q.items) : ∃ q', q.push x = some q' ∧ q'.items = q.items ++ [x] := by
  obtain ⟨p', h', -⟩ := c.represents_push q.represents hx
  rw [Queue.push, dif_neg hx]
  split
  · next h => rw [h'] at h; cases h
  · exact ⟨_, rfl, rfl⟩

theorem pushFront_spec (hx : x ∉ q.items) :
    ∃ q', q.pushFront x = some q' ∧ q'.items = x :: q.items := by
  obtain ⟨p', h', -⟩ := c.represents_pushFront q.represents hx
  rw [Queue.pushFront, dif_neg hx]
  split
  · next h => rw [h'] at h; cases h
  · exact ⟨_, rfl, rfl⟩

omit [DecidableEq T] in
theorem pop_spec (hq : q.items ≠ []) : ∃ x q', q.pop = some (x, q') ∧ q.items = x :: q'.items := by
  obtain ⟨x, l, hl⟩ := List.exists_cons_of_ne_nil hq
  obtain ⟨p', h', -⟩ := c.represents_pop (hl ▸ q.represents)
  unfold Queue.pop
  split
  · next h => rw [h'] at h; cases h
  · next y p h => exact ⟨y, _, rfl, (represents_of_pop h).2⟩

/-- The queue class of an intrusive queue. The source gives none of them a `top`. -/
def ops (c : Intrusive T) : QueueOps T where
  Q := c.Queue
  new := ⟨c.new, [], c.represents_new⟩
  items q := q.items
  intrusive := true
  hasPushFront := true
  hasTop := false
  push := Queue.push
  pushFront := Queue.pushFront
  pop := Queue.pop
  top _ := none
  items_new := rfl
  push_spec q x hx := by
    obtain ⟨q', h, hi⟩ := push_spec (hx rfl)
    exact ⟨q', h, Multiset.coe_eq_coe.mpr (hi ▸ List.perm_append_singleton x q.items)⟩
  pushFront_spec _ q x hx := by
    obtain ⟨q', h, hi⟩ := pushFront_spec (hx rfl)
    exact ⟨q', h, congrArg _ hi⟩
  pop_spec q hq := by
    obtain ⟨x, q', h, hi⟩ := pop_spec (q := q) fun hnil => hq (congrArg _ hnil)
    exact ⟨x, q', h, congrArg _ hi⟩
  top_spec h := nomatch h

end Intrusive

section Classes

variable [DecidableEq T]

/-- `SLinkedListQueue`: `head_` and `tail_` with the links of the items; `next` is what these hold
before. -/
def sLinkedListQueue (next : T → Option T) : Intrusive T where
  Pointers := SLinkedList T × (T → Option T)
  Represents p l := SLinkedList.Represents p.2 p.1 l
  new := (.new, next)
  push p x := p.1.push p.2 x
  pushFront p x := some (p.1.pushFront p.2 x)
  pop p := p.1.pop p.2
  represents_new := SLinkedList.represents_new next
  represents_push h hx := by
    obtain ⟨q', next', hq, hr, -⟩ := h.push hx
    exact ⟨(q', next'), hq, hr⟩
  represents_pushFront h hx := ⟨_, rfl, (h.pushFront hx).1⟩
  represents_pop h := by
    obtain ⟨q', next', hq, hr, -⟩ := h.pop
    exact ⟨(q', next'), hq, hr⟩
  pop_nil h := h.pop_nil

/-- `DLinkedListQueue`. -/
def dLinkedListQueue (next prev : T → Option T) : Intrusive T where
  Pointers := DLinkedList T
  Represents := DLinkedList.Represents
  new := .new next prev
  push := DLinkedList.push
  pushFront := DLinkedList.pushFront
  pop := DLinkedList.pop
  represents_new := DLinkedList.represents_new next prev
  represents_push h hx := h.push hx
  represents_pushFront h hx := h.pushFront hx
  represents_pop h := h.pop
  pop_nil h := by rw [DLinkedList.pop, h.head_eq]; rfl

/-- The queue classes of the source, with what the links of the items hold before they are pushed
and with the `std::priority_queue`. -/
inductive QueueClass (T : Type) where
  | sLinkedListQueue (next : T → Option T)
  | dLinkedListQueue (next prev : T → Option T)
  | stlQueue
  | stlDeque
  | stlPriorityQueue {less : T → T → Prop} (P : PriorityQueue T less)

def QueueClass.ops : QueueClass T → QueueOps T
  | .sLinkedListQueue next => (SyncedQueue.sLinkedListQueue next).ops
  | .dLinkedListQueue next prev => (SyncedQueue.dLinkedListQueue next prev).ops
  | .stlQueue => SyncedQueue.stlQueue T
  | .stlDeque => SyncedQueue.stlDeque T
  | .stlPriorityQueue P => SyncedQueue.stlPriorityQueue P

end Classes

/-! ## The calls -/

structure State (ops : QueueOps T) where
  queue : ops.Q
  cond : Cond

namespace State

variable {ops : QueueOps T}

def new (ops : QueueOps T) : State ops := ⟨ops.new, FutexCondition.State.new Unit 0⟩

/-- The items in `queue_`. -/
def items (s : State ops) : Multiset T := ops.items s.queue

end State

inductive Call (T : Type) where
  | push (x : T)
  | pushFront (x : T)
  /-- `dest` is false for a call with `NULL`, and `timed` is `wait_ms != -1`. -/
  | pop (dest timed : Bool)
  | top (dest timed : Bool)

/-- What becomes of a call: it returns, with an item in `*x`, it never comes back, or it does
something undefined to `queue_`. -/
inductive Outcome (ops : QueueOps T) where
  | returns (r : Bool) (v : Option T) (s : State ops)
  | blocks
  | fault

variable {ops : QueueOps T}

/-- `cond_.notify()` at the end of a call. -/
def notifyAndReturn (q : ops.Q) (c : Cond) (v : Option T) : Outcome ops :=
  match notify c with
  | none => .blocks
  | some c' => .returns true v ⟨q, c'⟩

/-- A call from the only thread, for which `lock_` is always free. -/
def call (s : State ops) : Call T → Outcome ops
  | .push x =>
    match ops.push s.queue x with
    | none => .fault
    | some q => notifyAndReturn q s.cond none
  | .pushFront x =>
    match ops.pushFront s.queue x with
    | none => .fault
    | some q => notifyAndReturn q s.cond none
  | .pop dest timed =>
    match wait s.cond timed with
    | none => .blocks
    | some (false, c) => .returns false none ⟨s.queue, c⟩
    | some (true, c) =>
      if dest then
        match ops.pop s.queue with
        | none => .fault
        | some (x, q) => .returns true (some x) ⟨q, c⟩
      else .returns true none ⟨s.queue, c⟩
  | .top dest timed =>
    match wait s.cond timed with
    | none => .blocks
    | some (false, c) => .returns false none ⟨s.queue, c⟩
    | some (true, c) =>
      if dest then
        match ops.top s.queue with
        | none => .fault
        | some x => notifyAndReturn s.queue c (some x)
      else notifyAndReturn s.queue c none

def callStep (s : State ops) (c : Call T) : Option (State ops) :=
  match call s c with
  | .returns _ _ s' => some s'
  | _ => none

/-- The class has the operation, and a linked item is not linked again. -/
def Legal (s : State ops) : Call T → Prop
  | .push x => ops.intrusive → x ∉ s.items
  | .pushFront x => ops.hasPushFront ∧ (ops.intrusive → x ∉ s.items)
  | .pop _ _ => True
  | .top _ _ => ops.hasTop

/-- What a call should do: after it there are as many tokens as items, a `pop` that returns true has
removed one item, nothing is asked of an empty `queue_`, and a call that never comes back is one
without a time limit that finds nothing. -/
def Matches (s : State ops) (c : Call T) : Prop :=
  match call s c with
  | .returns r _ s' => s'.cond.counter = s'.items.card ∧
      ∀ dest timed, c = .pop dest timed → r = true → ∃ x, s.items = x ::ₘ s'.items
  | .blocks => s.items = 0 ∧ ∃ dest, c = .pop dest false ∨ c = .top dest false
  | .fault => False

/-- A `pop(NULL)` finds nothing to pop, and a `push` does not make the counter overflow. -/
def NoDrift (s : State ops) : Call T → Prop
  | .push _ => s.items.card + 1 < 2 ^ 31
  | .pushFront _ => s.items.card + 1 < 2 ^ 31
  | .pop dest _ => dest = true ∨ s.items = 0
  | .top _ _ => True

/-! ## What a call does -/

/-- Outside of the calls, with as many tokens as items. -/
structure Sound (s : State ops) : Prop where
  idle : s.cond.pc () = .idle
  counter_eq : s.cond.counter = s.items.card
  length_lt : s.items.card < 2 ^ 31

theorem sound_new (ops : QueueOps T) : Sound (State.new ops) := by
  have hi : (State.new ops).items = 0 := ops.items_new
  refine ⟨rfl, ?_, ?_⟩
  · rw [hi]; rfl
  · rw [hi, Multiset.card_zero]; decide

/-- The effects of a call. -/
inductive Effect (s : State ops) : Call T → Outcome ops → Prop where
  | added {c : Call T} {x : T} {q : ops.Q} {cond : Cond} (hc : c = .push x ∨ c = .pushFront x)
      (hq : ops.items q = x ::ₘ s.items)
      (hcounter : cond.counter = FutexCondition.add32 s.items.card 1)
      (hidle : cond.pc () = .idle) : Effect s c (.returns true none ⟨q, cond⟩)
  | timeout {c : Call T} {dest : Bool} {cond : Cond} (hc : c = .pop dest true ∨ c = .top dest true)
      (hs : s.items = 0) (hcounter : cond.counter = 0) (hidle : cond.pc () = .idle) :
      Effect s c (.returns false none ⟨s.queue, cond⟩)
  | blocks {c : Call T} {dest : Bool} (hc : c = .pop dest false ∨ c = .top dest false)
      (hs : s.items = 0) : Effect s c .blocks
  | popped {timed : Bool} {x : T} {q : ops.Q} {cond : Cond} (hq : s.items = x ::ₘ ops.items q)
      (hcounter : cond.counter = s.items.card - 1) (hidle : cond.pc () = .idle) :
      Effect s (.pop true timed) (.returns true (some x) ⟨q, cond⟩)
  | skipped {timed : Bool} {cond : Cond} (hs : s.items ≠ 0)
      (hcounter : cond.counter = s.items.card - 1) (hidle : cond.pc () = .idle) :
      Effect s (.pop false timed) (.returns true none ⟨s.queue, cond⟩)
  | topped {dest timed : Bool} {v : Option T} {cond : Cond} (hs : s.items ≠ 0)
      (hcounter : cond.counter = s.items.card) (hidle : cond.pc () = .idle) :
      Effect s (.top dest timed) (.returns true v ⟨s.queue, cond⟩)

variable {s s' : State ops}

theorem notifyAndReturn_of_nonneg {c : Cond} (hp : c.pc () = .idle) (hc : 0 ≤ c.counter)
    (q : ops.Q) (v : Option T) :
    ∃ c', notifyAndReturn q c v = .returns true v ⟨q, c'⟩ ∧
      c'.counter = FutexCondition.add32 c.counter 1 ∧ c'.pc () = .idle := by
  obtain ⟨c', h, h'⟩ := notify_of_nonneg hp hc
  exact ⟨c', by rw [notifyAndReturn, h], h'⟩

theorem Sound.wait_cases (hs : Sound s) (timed : Bool) :
    (s.items ≠ 0 ∧ ∃ c, wait s.cond timed = some (true, c) ∧
      c.counter = s.items.card - 1 ∧ c.pc () = .idle) ∨
    (s.items = 0 ∧ timed = true ∧ ∃ c, wait s.cond timed = some (false, c) ∧ c.counter = 0 ∧
      c.pc () = .idle) ∨
    (s.items = 0 ∧ timed = false ∧ wait s.cond timed = none) := by
  obtain ⟨hp, hc, hlt⟩ := hs
  by_cases hi : s.items = 0
  · have hz : s.cond.counter = 0 := by rw [hc, hi]; rfl
    cases timed with
    | false => exact .inr (.inr ⟨hi, rfl, wait_for_ever (by omega)⟩)
    | true => exact .inr (.inl ⟨hi, rfl, wait_timeout hp hz⟩)
  · have hpos := Multiset.card_pos.mpr hi
    obtain ⟨c, h₁, h₂, h₃⟩ := wait_of_pos hp (by omega) (by omega) timed
    exact .inl ⟨hi, c, h₁, h₂.trans (by rw [hc]), h₃⟩

/-- **One call.** -/
theorem call_effect (hs : Sound s) {c : Call T} (hl : Legal s c) : Effect s c (call s c) := by
  have hnn : 0 ≤ s.cond.counter := by rw [hs.counter_eq]; exact Int.natCast_nonneg _
  cases c with
  | push x =>
    obtain ⟨q, hq, hperm⟩ := ops.push_spec s.queue x hl
    obtain ⟨c', h, hc', hp'⟩ := notifyAndReturn_of_nonneg hs.idle hnn q none
    rw [hs.counter_eq] at hc'
    simp only [call, hq, h]
    exact .added (.inl rfl) hperm hc' hp'
  | pushFront x =>
    obtain ⟨q, hq, hperm⟩ := ops.pushFront_spec hl.1 s.queue x hl.2
    obtain ⟨c', h, hc', hp'⟩ := notifyAndReturn_of_nonneg hs.idle hnn q none
    rw [hs.counter_eq] at hc'
    simp only [call, hq, h]
    exact .added (.inr rfl) hperm hc' hp'
  | pop dest timed =>
    rcases hs.wait_cases timed with
      ⟨hi, c, hw, hc, hp⟩ | ⟨hi, rfl, c, hw, hc, hp⟩ | ⟨hi, rfl, hw⟩
    · cases dest with
      | false =>
        simp only [call, hw]
        exact .skipped hi hc hp
      | true =>
        obtain ⟨x, q, hq, hperm⟩ := ops.pop_spec s.queue hi
        simp only [call, hw, hq]
        exact .popped hperm hc hp
    · simp only [call, hw]
      exact .timeout (.inl rfl) hi hc hp
    · simp only [call, hw]
      exact .blocks (.inl rfl) hi
  | top dest timed =>
    rcases hs.wait_cases timed with
      ⟨hi, c, hw, hc, hp⟩ | ⟨hi, rfl, c, hw, hc, hp⟩ | ⟨hi, rfl, hw⟩
    · have hpos := Multiset.card_pos.mpr hi
      have hlt := hs.length_lt
      have hback : FutexCondition.add32 c.counter 1 = s.items.card := by
        rw [add32_of_mem (by omega) (by omega)]
        omega
      cases dest with
      | false =>
        obtain ⟨c', h, hc', hp'⟩ := notifyAndReturn_of_nonneg hp (by omega) s.queue none
        simp only [call, hw, h]
        exact .topped hi (hc'.trans hback) hp'
      | true =>
        obtain ⟨x, -, hx⟩ := ops.top_spec hl s.queue hi
        obtain ⟨c', h, hc', hp'⟩ := notifyAndReturn_of_nonneg hp (by omega) s.queue (some x)
        simp only [call, hw, hx, h]
        exact .topped hi (hc'.trans hback) hp'
    · simp only [call, hw]
      exact .timeout (.inr rfl) hi hc hp
    · simp only [call, hw]
      exact .blocks (.inr rfl) hi

/-- One more than `2 ^ 31 - 1` tokens are less than none. -/
theorem add32_one_eq_iff {n : ℕ} (hn : n < 2 ^ 31) :
    FutexCondition.add32 n 1 = (n + 1 : ℕ) ↔ n + 1 < 2 ^ 31 := by
  rw [FutexCondition.add32, Int.bmod_def]
  split_ifs <;> omega

/-- **One call** keeps the tokens and the items together exactly when it does not drift. -/
theorem matches_iff (hs : Sound s) {c : Call T} (hl : Legal s c) : NoDrift s c ↔ Matches s c := by
  have heff := call_effect hs hl
  have hlt := hs.length_lt
  unfold Matches
  generalize call s c = o at heff ⊢
  cases heff with
  | @added c x q cond hc hq hcounter hidle =>
    have hlen : (ops.items q).card = s.items.card + 1 := by rw [hq, Multiset.card_cons]
    have hdrift : NoDrift s c ↔ s.items.card + 1 < 2 ^ 31 := by
      rcases hc with rfl | rfl <;> exact Iff.rfl
    have hpop : ∀ dest timed, c ≠ .pop dest timed := by
      rcases hc with rfl | rfl <;> exact nofun
    rw [hdrift, ← add32_one_eq_iff hlt, ← hcounter, ← hlen]
    exact ⟨fun h => ⟨h, fun dest timed h' => absurd h' (hpop dest timed)⟩, fun h => h.1⟩
  | @timeout c dest cond hc hi hcounter hidle =>
    refine iff_of_true ?_ ⟨?_, fun _ _ _ => nofun⟩
    · rcases hc with rfl | rfl
      · exact .inr hi
      · trivial
    · rw [hcounter, show (State.mk s.queue cond : State ops).items = 0 from hi]
      rfl
  | @blocks c dest hc hi =>
    refine iff_of_true ?_ ⟨hi, dest, hc⟩
    rcases hc with rfl | rfl
    · exact .inr hi
    · trivial
  | @popped timed x q cond hq hcounter hidle =>
    refine iff_of_true (.inl rfl) ⟨?_, fun _ _ _ _ => ⟨x, hq⟩⟩
    have hlen := congrArg Multiset.card hq
    rw [Multiset.card_cons] at hlen
    change cond.counter = (ops.items q).card
    omega
  | @skipped timed cond hi hcounter hidle =>
    refine iff_of_false (fun h => h.elim nofun hi) fun h => ?_
    have : cond.counter = s.items.card := h.1
    omega
  | @topped dest timed v cond hi hcounter hidle =>
    exact iff_of_true trivial ⟨hcounter, fun _ _ => nofun⟩

theorem sound_step (hs : Sound s) {c : Call T} (hl : Legal s c) (hd : NoDrift s c)
    (h : callStep s c = some s') : Sound s' := by
  have hm := (matches_iff hs hl).mp hd
  have heff := call_effect hs hl
  have hlt := hs.length_lt
  unfold Matches at hm
  unfold callStep at h
  generalize call s c = o at heff hm h
  cases heff with
  | @added c x q cond hc hq hcounter hidle =>
    cases h
    have hlen : (ops.items q).card = s.items.card + 1 := by rw [hq, Multiset.card_cons]
    refine ⟨hidle, hm.1, ?_⟩
    change (ops.items q).card < 2 ^ 31
    rw [hlen]
    rcases hc with rfl | rfl <;> exact hd
  | blocks => cases h
  | @popped timed x q cond hq hcounter hidle =>
    cases h
    have hlen := congrArg Multiset.card hq
    rw [Multiset.card_cons] at hlen
    refine ⟨hidle, hm.1, ?_⟩
    change (ops.items q).card < 2 ^ 31
    omega
  | timeout _ _ _ hidle => cases h; exact ⟨hidle, hm.1, hlt⟩
  | skipped _ _ hidle => cases h; exact ⟨hidle, hm.1, hlt⟩
  | topped _ _ hidle => cases h; exact ⟨hidle, hm.1, hlt⟩

/-- **The tokens match the items** through every call of a run exactly when no `pop(NULL)` leaves an
item behind and no `push` makes the counter overflow, for each of the queue classes. -/
theorem tokens_match_iff [DecidableEq T] (k : QueueClass T) (calls : List (Call T))
    (hleg : Guarded callStep Legal (State.new k.ops) calls) :
    Guarded callStep Matches (State.new k.ops) calls ↔
      Guarded callStep NoDrift (State.new k.ops) calls :=
  (guarded_iff_guarded (I := Sound) (fun _ _ hs hl => matches_iff hs hl)
    (fun _ _ _ hs hl => sound_step hs hl) (sound_new k.ops) hleg).symm

instance [DecidableEq T] (s : State ops) (c : Call T) : Decidable (Legal s c) := by
  cases c <;> unfold Legal <;> infer_instance

instance [DecidableEq T] (s : State ops) (c : Call T) : Decidable (NoDrift s c) := by
  cases c <;> unfold NoDrift <;> infer_instance

/-- Two items go in at both ends, a `pop` takes one, and a `pop(NULL)` that finds nothing times
out. -/
theorem tokens_match_pushFront :
    Guarded callStep Matches (State.new (QueueClass.sLinkedListQueue fun _ : ℕ => none).ops)
      [.push 1, .pushFront 2, .pop true false, .pop true true, .pop false true] :=
  (tokens_match_iff _ _ (by decide)).mpr (by decide)

/-- An item is pushed and popped with `NULL`: it is still there, without a token. -/
theorem pop_null_leaves_item :
    Guarded callStep Legal (State.new (QueueClass.stlQueue (T := ℕ)).ops)
        [.push 1, .pop false true] ∧
      ¬ Guarded callStep Matches (State.new (QueueClass.stlQueue (T := ℕ)).ops)
          [.push 1, .pop false true] := by
  refine ⟨by decide, fun h => ?_⟩
  have htokens : (0 : ℤ) = (([1] : List ℕ) : Multiset ℕ).card := h.2.1.1
  exact absurd htokens (by decide)

end Sperm.SyncedQueue
