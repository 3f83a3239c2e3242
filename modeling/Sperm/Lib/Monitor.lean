import Sperm.Lib.Pool
import Sperm.Lib.Run

/-!
# Monitors

Data behind one mutex, with condition variables. A call takes the mutex and, as long as the data is
not ready for it, sleeps on its condition variable; when it is ready it changes the data, notifies
at most one condition variable and returns. A critical section, from taking the mutex to sleeping or
returning, is one step. `notify` moves one arbitrary sleeper, if there is one, to the awake threads;
sleepers may also wake up for no reason, and a call with a time-out may give up while it sleeps.

* `Monitor`, `State`, `Act`, `step`; `log` lists the calls that returned, in the order of their last
  critical sections.
* `step_cases`: what a step can do.
* **`step_effect`**: only a call that succeeds changes the data; `replays_of_run` explains the data
  and the results by the successful calls alone.
* `Credit`: while somebody sleeps on a condition variable, what is available is covered by threads
  that were notified and have not looked yet; **`credit_step`** is the rule, `not_stranded` what it
  gives.
-/

namespace Monitor

open ThreadPool StepRun

/-- The calls of a monitor: the condition variable a call sleeps on, if it ever does, and what it
does when the data is ready for it: the new data, what it returns and whom it notifies. -/
structure Spec (σ Call Ret Cv : Type) where
  waitsOn : Call → Option Cv
  attempt : Call → σ → Option (σ × Ret × Option Cv)

/-- Where a thread stands. `timed` calls may give up. -/
inductive Pc (Call : Type) where
  | idle
  | asleep (op : Call) (timed : Bool)
  /-- About to take the mutex again; `notified` unless it woke up for no reason. -/
  | awake (op : Call) (timed : Bool) (notified : Bool)
  /-- About to take the mutex again and return false. -/
  | expired (op : Call)
  deriving DecidableEq

structure State (Tid σ Call Ret : Type) where
  data : σ
  pc : Tid → Pc Call
  log : List (Tid × Call × Option Ret)

inductive Act (Tid Call : Type) where
  /-- A call and its first critical section; a `notify` in it wakes `w`. -/
  | call (t : Tid) (op : Call) (timed : Bool) (w : Option Tid)
  /-- The critical section of an awake thread. -/
  | resume (t : Tid) (w : Option Tid)
  | spurious (t : Tid)
  | timeout (t : Tid)
  | expire (t : Tid)

variable {Tid σ Call Ret Cv : Type} [DecidableEq Tid] [Fintype Tid] [DecidableEq Cv]
  {M : Spec σ Call Ret Cv}

/-- All threads are outside. -/
def State.new (Tid Call Ret : Type) (d : σ) : State Tid σ Call Ret := ⟨d, fun _ => .idle, []⟩

def State.goto (s : State Tid σ Call Ret) (t : Tid) (p : Pc Call) : State Tid σ Call Ret :=
  { s with pc := Function.update s.pc t p }

/-- Does the thread sleep on `c`, in a call of the kind `W`? -/
def Pc.sleepsOn (M : Spec σ Call Ret Cv) (c : Cv) (W : Call → Bool) : Pc Call → Bool
  | .asleep op _ => decide (M.waitsOn op = some c) && W op
  | _ => false

/-- `notify` of `n`, which wakes `w`. -/
def wake (M : Spec σ Call Ret Cv) (n : Option Cv) (w : Option Tid) (s : State Tid σ Call Ret) :
    Option (State Tid σ Call Ret) :=
  match n, w with
  | none, none => some s
  | none, some _ => none
  | some c, none =>
    if ∀ u, (s.pc u).sleepsOn M c (fun _ => true) = false then some s else none
  | some c, some u =>
    match s.pc u with
    | .asleep op timed =>
      if M.waitsOn op = some c then some (s.goto u (.awake op timed true)) else none
    | _ => none

/-- A critical section of `op` by thread `t`. -/
def enter (M : Spec σ Call Ret Cv) (s : State Tid σ Call Ret) (t : Tid) (op : Call) (timed : Bool)
    (w : Option Tid) : Option (State Tid σ Call Ret) :=
  match M.attempt op s.data with
  | none => if w = none then some (s.goto t (.asleep op timed)) else none
  | some (d, r, n) => wake M n w { s with data := d, log := s.log ++ [(t, op, some r)] }

def step (M : Spec σ Call Ret Cv) (s : State Tid σ Call Ret) :
    Act Tid Call → Option (State Tid σ Call Ret)
  | .call t op timed w =>
    match s.pc t with
    | .idle => enter M s t op timed w
    | _ => none
  | .resume t w =>
    match s.pc t with
    | .awake op timed _ => enter M (s.goto t .idle) t op timed w
    | _ => none
  | .spurious t =>
    match s.pc t with
    | .asleep op timed => some (s.goto t (.awake op timed false))
    | _ => none
  | .timeout t =>
    match s.pc t with
    | .asleep op true => some (s.goto t (.expired op))
    | _ => none
  | .expire t =>
    match s.pc t with
    | .expired op => some ({ s with log := s.log ++ [(t, op, none)] }.goto t .idle)
    | _ => none

/-! ## What a step does -/

/-- The outcomes of `wake`. -/
inductive Wake (M : Spec σ Call Ret Cv) (s : State Tid σ Call Ret) :
    Option Cv → State Tid σ Call Ret → Prop where
  | silent : Wake M s none s
  | nobody {c : Cv} (h : ∀ u, (s.pc u).sleepsOn M c (fun _ => true) = false) : Wake M s (some c) s
  | one {c : Cv} {u : Tid} {op : Call} {timed : Bool} (h : s.pc u = .asleep op timed)
      (hc : M.waitsOn op = some c) : Wake M s (some c) (s.goto u (.awake op timed true))

theorem wake_cases {s s' : State Tid σ Call Ret} {n : Option Cv} {w : Option Tid}
    (h : wake M n w s = some s') : Wake M s n s' := by
  unfold wake at h
  split at h
  · cases h; exact .silent
  · cases h
  · next c =>
    split_ifs at h with hno
    cases h
    exact .nobody hno
  · next c u =>
    split at h
    · next op timed hp =>
      split_ifs at h with hc
      cases h
      exact .one hp hc
    · cases h

/-- The outcomes of a critical section. -/
inductive Enter (M : Spec σ Call Ret Cv) (s : State Tid σ Call Ret) (t : Tid) (op : Call)
    (timed : Bool) : State Tid σ Call Ret → Prop where
  | sleep (h : M.attempt op s.data = none) : Enter M s t op timed (s.goto t (.asleep op timed))
  | done {d : σ} {r : Ret} {n : Option Cv} {s' : State Tid σ Call Ret}
      (h : M.attempt op s.data = some (d, r, n))
      (hw : Wake M { s with data := d, log := s.log ++ [(t, op, some r)] } n s') :
      Enter M s t op timed s'

/-- The steps with their guards. -/
inductive Step (M : Spec σ Call Ret Cv) (s : State Tid σ Call Ret) :
    Act Tid Call → State Tid σ Call Ret → Prop where
  | call {t : Tid} {op : Call} {timed : Bool} {w : Option Tid} {s' : State Tid σ Call Ret}
      (hp : s.pc t = .idle) (he : Enter M s t op timed s') : Step M s (.call t op timed w) s'
  | resume {t : Tid} {op : Call} {timed notified : Bool} {w : Option Tid}
      {s' : State Tid σ Call Ret} (hp : s.pc t = .awake op timed notified)
      (he : Enter M (s.goto t .idle) t op timed s') : Step M s (.resume t w) s'
  | spurious {t : Tid} {op : Call} {timed : Bool} (hp : s.pc t = .asleep op timed) :
      Step M s (.spurious t) (s.goto t (.awake op timed false))
  | timeout {t : Tid} {op : Call} (hp : s.pc t = .asleep op true) :
      Step M s (.timeout t) (s.goto t (.expired op))
  | expire {t : Tid} {op : Call} (hp : s.pc t = .expired op) :
      Step M s (.expire t) ({ s with log := s.log ++ [(t, op, none)] }.goto t .idle)

theorem enter_cases {s s' : State Tid σ Call Ret} {t : Tid} {op : Call} {timed : Bool}
    {w : Option Tid} (h : enter M s t op timed w = some s') : Enter M s t op timed s' := by
  unfold enter at h
  split at h
  · next hnone =>
    split_ifs at h
    cases h
    exact .sleep hnone
  · next hsome => exact .done hsome (wake_cases h)

theorem step_cases {s s' : State Tid σ Call Ret} {a : Act Tid Call} (h : step M s a = some s') :
    Step M s a s' := by
  cases a with
  | call t op timed w =>
    rw [step] at h
    split at h
    · next hp => exact .call hp (enter_cases h)
    · cases h
  | resume t w =>
    rw [step] at h
    split at h
    · next hp => exact .resume hp (enter_cases h)
    · cases h
  | spurious t =>
    rw [step] at h
    split at h
    · next hp => cases h; exact .spurious hp
    · cases h
  | timeout t =>
    rw [step] at h
    split at h
    · next hp => cases h; exact .timeout hp
    · cases h
  | expire t =>
    rw [step] at h
    split at h
    · next hp => cases h; exact .expire hp
    · cases h

/-! ## The data -/

/-- A critical section returned: the data and the log grow by one successful call. -/
def Succeeds (M : Spec σ Call Ret Cv) (s s' : State Tid σ Call Ret) : Prop :=
  ∃ t op r n, M.attempt op s.data = some (s'.data, r, n) ∧ s'.log = s.log ++ [(t, op, some r)]

/-- Nothing happened to the data: no call returned, or one returned false. -/
def Idles (s s' : State Tid σ Call Ret) : Prop :=
  s'.data = s.data ∧ (s'.log = s.log ∨ ∃ t op, s'.log = s.log ++ [(t, op, none)])

omit [Fintype Tid] in
theorem wake_data {s s' : State Tid σ Call Ret} {n : Option Cv} (h : Wake M s n s') :
    s'.data = s.data ∧ s'.log = s.log := by
  cases h <;> exact ⟨rfl, rfl⟩

omit [Fintype Tid] in
theorem enter_effect {s s' : State Tid σ Call Ret} {t : Tid} {op : Call} {timed : Bool}
    (h : Enter M s t op timed s') : Succeeds M s s' ∨ Idles s s' := by
  cases h with
  | sleep => exact .inr ⟨rfl, .inl rfl⟩
  | @done d r n _ h hw =>
    obtain ⟨hd, hl⟩ := wake_data hw
    exact .inl ⟨t, op, r, n, by rw [hd]; exact h, hl⟩

/-- **Only a call that succeeds changes the data.** -/
theorem step_effect {s s' : State Tid σ Call Ret} {a : Act Tid Call} (h : step M s a = some s') :
    Succeeds M s s' ∨ Idles s s' := by
  cases step_cases h with
  | call _ he => exact enter_effect he
  | resume _ he =>
    have h := enter_effect he
    exact h
  | spurious => exact .inr ⟨rfl, .inl rfl⟩
  | timeout => exact .inr ⟨rfl, .inl rfl⟩
  | @expire t op => exact .inr ⟨rfl, .inr ⟨t, op, rfl⟩⟩

theorem data_step {I : σ → Prop}
    (hI : ∀ op d d' r n, I d → M.attempt op d = some (d', r, n) → I d')
    {s s' : State Tid σ Call Ret} {a : Act Tid Call} (h : I s.data) (hs : step M s a = some s') :
    I s'.data := by
  rcases step_effect hs with ⟨t, op, r, n, ha, -⟩ | ⟨hd, -⟩
  · exact hI op _ _ r n h ha
  · rwa [hd]

/-- The successful calls of a log, one after the other on a sequential object, take `d` to `e` and
return what the log says. -/
def Replays {τ : Type} (seq : Call → τ → Option (τ × Ret)) :
    τ → List (Tid × Call × Option Ret) → τ → Prop
  | d, [], e => d = e
  | d, (_, _, none) :: log, e => Replays seq d log e
  | d, (_, op, some r) :: log, e => ∃ d', seq op d = some (d', r) ∧ Replays seq d' log e

omit [DecidableEq Tid] [Fintype Tid] in
theorem replays_append {τ : Type} {seq : Call → τ → Option (τ × Ret)} {d e f : τ}
    {log log' : List (Tid × Call × Option Ret)} (h : Replays seq d log e)
    (h' : Replays seq e log' f) : Replays seq d (log ++ log') f := by
  induction log generalizing d with
  | nil => exact (show d = e from h) ▸ h'
  | cons entry log ih =>
    obtain ⟨t, op, _ | r⟩ := entry
    · exact ih h
    · obtain ⟨d', hd, h⟩ := h
      exact ⟨d', hd, ih h⟩

/-- **The order of critical sections explains the data**: the successful calls alone, one after the
other on a sequential object that allows them, give the same results and the same data. -/
theorem replays_of_run {seq : Call → σ → Option (σ × Ret)}
    (hseq : ∀ op d d' r n, M.attempt op d = some (d', r, n) → seq op d = some (d', r)) {d : σ}
    {s : State Tid σ Call Ret} {as : List (Act Tid Call)}
    (hrun : run (step M) (.new Tid Call Ret d) as = some s) : Replays seq d s.log s.data := by
  refine invariant_of_run (I := fun s : State Tid σ Call Ret => Replays seq d s.log s.data)
    (fun s a s' h hs => ?_) hrun (show d = d from rfl)
  rcases step_effect hs with ⟨t, op, r, n, ha, hl⟩ | ⟨hd, hl | ⟨t, op, hl⟩⟩
  · rw [hl]
    exact replays_append h ⟨s'.data, hseq op _ _ r n ha, rfl⟩
  · rw [hl, hd]
    exact h
  · rw [hl, hd]
    exact replays_append h rfl

/-! ## Nobody is stranded -/

/-- A thread that was notified on `c` and has not looked at the data yet. -/
def notifiedOn (M : Spec σ Call Ret Cv) (c : Cv) : Pc Call → ℕ
  | .awake op _ true => if M.waitsOn op = some c then 1 else 0
  | _ => 0

/-- While a call of the kind `W` sleeps on `c`, what is available is covered by threads that were
notified and have not looked yet. -/
def Credit (M : Spec σ Call Ret Cv) (c : Cv) (W : Call → Bool) (avail : σ → ℕ)
    (s : State Tid σ Call Ret) : Prop :=
  (∃ t, (s.pc t).sleepsOn M c W = true) → avail s.data ≤ tally (notifiedOn M c) s.pc

/-- What a notified thread that does not go back to sleep has to do: take what it was notified of,
unless nobody of the kind `W` sleeps. -/
def Pays (M : Spec σ Call Ret Cv) (c : Cv) (W : Call → Bool) (avail : σ → ℕ)
    (s : State Tid σ Call Ret) : Act Tid Call → Prop
  | .resume t _ => ∀ op timed, s.pc t = .awake op timed true → M.waitsOn op = some c →
      ∀ d r n, M.attempt op s.data = some (d, r, n) →
        avail d + 1 ≤ avail s.data + (if n = some c then 1 else 0) ∨
          ∀ u, (s.pc u).sleepsOn M c W = false
  | _ => True

omit [Fintype Tid] in
/-- Where a thread does not sleep, somebody else does. -/
theorem sleeping_goto {c : Cv} {W : Call → Bool} {s : State Tid σ Call Ret} {t : Tid} {p : Pc Call}
    (hp : p.sleepsOn M c W = false) (h : ∃ u, ((s.goto t p).pc u).sleepsOn M c W = true) :
    ∃ u, (s.pc u).sleepsOn M c W = true := by
  obtain ⟨u, hu⟩ := h
  refine ⟨u, ?_⟩
  by_cases hut : u = t
  · subst hut
    simp [State.goto, hp] at hu
  · simpa [State.goto, hut] using hu

theorem tally_goto (c : Cv) (s : State Tid σ Call Ret) (t : Tid) (p : Pc Call) :
    tally (notifiedOn M c) (s.goto t p).pc + notifiedOn M c (s.pc t) =
      tally (notifiedOn M c) s.pc + notifiedOn M c p :=
  tally_update (notifiedOn M c) s.pc t p

theorem credit_wake {c : Cv} {W : Call → Bool} {avail : σ → ℕ} {s s' : State Tid σ Call Ret}
    {n : Option Cv} (hw : Wake M s n s')
    (h : (∃ t, (s.pc t).sleepsOn M c W = true) →
      avail s.data ≤ tally (notifiedOn M c) s.pc + if n = some c then 1 else 0) :
    Credit M c W avail s' := by
  intro hs
  cases hw with
  | silent => simpa using h hs
  | @nobody c' hno =>
    by_cases hc : c' = c
    · subst hc
      obtain ⟨u, hu⟩ := hs
      have := hno u
      revert hu this
      cases s.pc u <;> simp [Pc.sleepsOn]
      tauto
    · simpa [hc] using h hs
  | @one c' u op timed hp hc =>
    have ht := tally_goto (M := M) c s u (.awake op timed true)
    have hle := h (sleeping_goto rfl hs)
    rw [hp] at ht
    simp only [notifiedOn, hc] at ht
    change avail s.data ≤ _
    omega

/-- A thread that loses no notification moves. -/
theorem credit_goto {c : Cv} {W : Call → Bool} {avail : σ → ℕ} {s : State Tid σ Call Ret}
    {t : Tid} {p : Pc Call} (h : Credit M c W avail s) (hp : p.sleepsOn M c W = false)
    (hn : notifiedOn M c (s.pc t) ≤ notifiedOn M c p) : Credit M c W avail (s.goto t p) := by
  intro hs
  have hle := h (sleeping_goto hp hs)
  have ht := tally_goto (M := M) c s t p
  change avail s.data ≤ _
  omega

theorem credit_enter {c : Cv} {W : Call → Bool} {avail : σ → ℕ}
    (hsleep : ∀ op d, M.waitsOn op = some c → M.attempt op d = none → avail d = 0)
    (hdone : ∀ op d d' r n, M.attempt op d = some (d', r, n) →
      avail d' ≤ avail d + if n = some c then 1 else 0)
    {s s' : State Tid σ Call Ret} {t : Tid} {op : Call} {timed : Bool}
    (h : Credit M c W avail s) (ht : notifiedOn M c (s.pc t) = 0)
    (he : Enter M s t op timed s') : Credit M c W avail s' := by
  cases he with
  | sleep hnone =>
    by_cases hc : M.waitsOn op = some c
    · intro _
      change avail s.data ≤ _
      rw [hsleep op _ hc hnone]
      exact Nat.zero_le _
    · exact credit_goto h (by simp [Pc.sleepsOn, hc]) (by rw [ht]; exact Nat.zero_le _)
  | @done d r n _ hsome hw =>
    refine credit_wake hw fun hsl => ?_
    have hle := hdone op _ _ r n hsome
    have hcr := h hsl
    change avail d ≤ tally (notifiedOn M c) s.pc + _
    omega

/-- **The rule of credit.** Let calls sleep on `c` only when nothing is available, let a call make
at most one more available than it was, and one more only when it notifies `c`. Then a step in which
notified threads pay keeps the credit. -/
theorem credit_step {c : Cv} {W : Call → Bool} {avail : σ → ℕ}
    (hsleep : ∀ op d, M.waitsOn op = some c → M.attempt op d = none → avail d = 0)
    (hdone : ∀ op d d' r n, M.attempt op d = some (d', r, n) →
      avail d' ≤ avail d + if n = some c then 1 else 0)
    {s s' : State Tid σ Call Ret} {a : Act Tid Call} (hG : Pays M c W avail s a)
    (h : Credit M c W avail s) (hs : step M s a = some s') : Credit M c W avail s' := by
  cases step_cases hs with
  | @call t op timed w _ hp he => exact credit_enter hsleep hdone h (by rw [hp]; rfl) he
  | @resume t op timed notified w _ hp he =>
    by_cases hpaid : notified = true ∧ M.waitsOn op = some c
    · obtain ⟨rfl, hc⟩ := hpaid
      -- the thread hands its notification in, and takes what it was notified of
      have ht := tally_goto (M := M) c s t .idle
      simp only [hp, notifiedOn, hc, if_true] at ht
      cases he with
      | sleep hnone =>
        have h0 : avail s.data = 0 := hsleep op _ hc hnone
        intro _
        change avail s.data ≤ _
        rw [h0]
        exact Nat.zero_le _
      | @done d r n _ hsome hw =>
        refine credit_wake hw fun hsl => ?_
        have hsl' := sleeping_goto (t := t) (p := .idle) rfl hsl
        have hcr := h hsl'
        change avail d ≤ tally (notifiedOn M c) (s.goto t .idle).pc + _
        rcases hG op timed hp hc d r n hsome with hle | hnone
        · omega
        · obtain ⟨u, hu⟩ := hsl'
          rw [hnone u] at hu
          cases hu
    · have hn : notifiedOn M c (s.pc t) = 0 := by
        rw [hp]
        cases notified with
        | false => rfl
        | true => exact if_neg fun hc => hpaid ⟨rfl, hc⟩
      exact credit_enter hsleep hdone (credit_goto h rfl (by rw [hn]; exact Nat.zero_le _))
        (by simp [State.goto, notifiedOn]) he
  | spurious hp => exact credit_goto h rfl (by rw [hp]; exact Nat.zero_le _)
  | timeout hp => exact credit_goto h rfl (by rw [hp]; exact Nat.zero_le _)
  | @expire t op hp =>
    exact credit_goto (s := { s with log := s.log ++ [(t, op, none)] }) h rfl
      (by rw [show _ = Pc.expired op from hp]; exact Nat.zero_le _)

/-- A thread asleep in a call of the kind `W` on `c`, with something available, and nobody awakened
from `c` who has yet to look. -/
def Stranded (M : Spec σ Call Ret Cv) (c : Cv) (W : Call → Bool) (avail : σ → ℕ)
    (s : State Tid σ Call Ret) : Prop :=
  0 < avail s.data ∧ (∃ t, (s.pc t).sleepsOn M c W = true) ∧
    ∀ t op timed notified, s.pc t = .awake op timed notified → M.waitsOn op ≠ some c

omit [DecidableEq Tid] in
/-- **With credit nobody is stranded.** -/
theorem not_stranded {c : Cv} {W : Call → Bool} {avail : σ → ℕ} {s : State Tid σ Call Ret}
    (h : Credit M c W avail s) : ¬ Stranded M c W avail s := by
  rintro ⟨hpos, hsl, hno⟩
  have hle := h hsl
  obtain ⟨t, ht⟩ := tally_pos_iff.mp (lt_of_lt_of_le hpos hle)
  cases hp : s.pc t with
  | awake op timed notified =>
    rw [hp] at ht
    cases notified with
    | false => cases ht
    | true =>
      rw [notifiedOn, if_neg (hno t op timed true hp)] at ht
      cases ht
  | _ => rw [hp] at ht; cases ht

end Monitor
