import Mathlib.Tactic.Common
import Sperm.Lib.Pool
import Sperm.Lib.Run

/-!
# `SQLInjector` (`mysql/SQLInjector.java`)

`feed` puts the lines of a file into a bounded queue, sets `exit` and waits until `refCount` is `0`;
every `Injector` thread polls the queue, and when a poll comes back empty it looks at `exit`.

* `State`, `Act`, `step`: `feed` and the threads, one atomic step at a time.
* `Delivered`: every line was taken by one worker and executed by it, and the queue is empty.
* `DrainedByLast`: the last worker to see `exit` sees it with an empty queue.
* **`delivered_iff_drainedByLast`**: when `feed` returns, no line is lost exactly when the run was
  like that.
-/

namespace Sperm.SQLInjector

open StepRun ThreadPool

variable {Tid α : Type}

/-- Where an `Injector` stands in `run`. -/
inductive Pc (α : Type) where
  | polling
  | executing (sql : α)
  /-- The poll returned `null`. -/
  | checking
  /-- `exit` was true; `refCount.decrementAndGet()` is next. -/
  | leaving
  | left
  /-- An exception ended the thread, and `refCount` was not decremented. -/
  | dead
  deriving DecidableEq

/-- Has the thread seen `exit`? -/
def Pc.isGone : Pc α → Bool
  | .leaving => true
  | .left => true
  | _ => false

/-- What a thread still has to execute. -/
def Pc.pending : Pc α → List α
  | .executing sql => [sql]
  | _ => []

/-- The queue with its capacity, `feed` (`lines` are those it has not put yet) and the threads;
`taken` and `executed` are kept for the statements only. -/
structure State (Tid α : Type) where
  lines : List α
  exit : Bool
  returned : Bool
  queue : List α
  capacity : ℕ
  refCount : ℤ
  pc : Tid → Pc α
  taken : List (Tid × α)
  executed : Tid → List α

inductive Act (Tid : Type) where
  /-- `queue.put(sql)`. -/
  | put
  /-- `exit = true`. -/
  | setExit
  /-- `refCount.get() == 0`. -/
  | checkRefCount
  /-- `queue.poll(...)`. -/
  | poll (t : Tid)
  /-- `queue.poll(...)` throws `InterruptedException`. -/
  | interrupt (t : Tid)
  /-- `exec(sql)`; it may end the thread with an unchecked exception. -/
  | exec (t : Tid) (throws : Bool)
  /-- `if (injector.exit)`. -/
  | readExit (t : Tid)
  /-- `refCount.decrementAndGet()`. -/
  | decrement (t : Tid)

/-- `SQLInjector(threadNumber, blockQueueSize, ...)` and `start`, before `feed`. -/
def State.new [Fintype Tid] (capacity : ℕ) (file : List α) : State Tid α :=
  ⟨file, false, false, [], capacity, Fintype.card Tid, fun _ => .polling, [], fun _ => []⟩

variable [DecidableEq Tid]

/-- Thread `t` moves to `p`. -/
def State.goto (s : State Tid α) (t : Tid) (p : Pc α) : State Tid α :=
  { s with pc := Function.update s.pc t p }

@[simp] theorem goto_pc_self (s : State Tid α) (t : Tid) (p : Pc α) : (s.goto t p).pc t = p := by
  simp [State.goto]

@[simp] theorem goto_pc_of_ne (s : State Tid α) {t u : Tid} (p : Pc α) (h : u ≠ t) :
    (s.goto t p).pc u = s.pc u := by
  simp [State.goto, h]

def step (s : State Tid α) : Act Tid → Option (State Tid α)
  | .put =>
    match s.lines with
    | [] => none
    | sql :: lines =>
      if s.queue.length < s.capacity then
        some { s with lines := lines, queue := s.queue ++ [sql] }
      else none
  | .setExit =>
    match s.lines with
    | [] => if s.exit then none else some { s with exit := true }
    | _ :: _ => none
  | .checkRefCount =>
    if s.exit = true ∧ s.returned = false then some { s with returned := s.refCount = 0 } else none
  | .poll t =>
    match s.pc t, s.queue with
    | .polling, [] => some (s.goto t .checking)
    | .polling, sql :: queue =>
      some ({ s with queue := queue, taken := s.taken ++ [(t, sql)] }.goto t (.executing sql))
    | _, _ => none
  | .interrupt t =>
    match s.pc t with
    | .polling => some (s.goto t .dead)
    | _ => none
  | .exec t throws =>
    match s.pc t with
    | .executing sql =>
      some ({ s with executed := Function.update s.executed t (s.executed t ++ [sql]) }.goto t
        (if throws then .dead else .polling))
    | _ => none
  | .readExit t =>
    match s.pc t with
    | .checking => some (s.goto t (if s.exit then .leaving else .polling))
    | _ => none
  | .decrement t =>
    match s.pc t with
    | .leaving => some ({ s with refCount := s.refCount - 1 }.goto t .left)
    | _ => none

/-- **No statement is lost**: the file's lines were taken in order, each by one worker, each worker
executed what it took, and nothing is left. -/
def Delivered (file : List α) (s : State Tid α) : Prop :=
  s.taken.map Prod.snd = file ∧
    (∀ t, s.executed t = (s.taken.filter fun p => p.1 = t).map Prod.snd) ∧ s.queue = []

/-- A worker that reads `exit` as true when all the others already have finds an empty queue. -/
def DrainedByLast (s : State Tid α) : Act Tid → Prop
  | .readExit t => s.exit = true → (∀ u, u ≠ t → (s.pc u).isGone = true) → s.queue = []
  | _ => True

/-! ## What a step does -/

/-- The steps with their guards. -/
inductive Step (s : State Tid α) : Act Tid → State Tid α → Prop where
  | put {sql : α} {lines : List α} (hl : s.lines = sql :: lines)
      (hq : s.queue.length < s.capacity) :
      Step s .put { s with lines := lines, queue := s.queue ++ [sql] }
  | setExit (hl : s.lines = []) (he : s.exit = false) : Step s .setExit { s with exit := true }
  | checkRefCount (he : s.exit = true) (hr : s.returned = false) :
      Step s .checkRefCount { s with returned := s.refCount = 0 }
  | pollNull {t : Tid} (hp : s.pc t = .polling) (hq : s.queue = []) :
      Step s (.poll t) (s.goto t .checking)
  | poll {t : Tid} {sql : α} {queue : List α} (hp : s.pc t = .polling)
      (hq : s.queue = sql :: queue) :
      Step s (.poll t)
        ({ s with queue := queue, taken := s.taken ++ [(t, sql)] }.goto t (.executing sql))
  | interrupt {t : Tid} (hp : s.pc t = .polling) : Step s (.interrupt t) (s.goto t .dead)
  | exec {t : Tid} {throws : Bool} {sql : α} (hp : s.pc t = .executing sql) :
      Step s (.exec t throws)
        ({ s with executed := Function.update s.executed t (s.executed t ++ [sql]) }.goto t
          (if throws then .dead else .polling))
  | stay {t : Tid} (hp : s.pc t = .checking) (he : s.exit = false) :
      Step s (.readExit t) (s.goto t .polling)
  | leave {t : Tid} (hp : s.pc t = .checking) (he : s.exit = true) :
      Step s (.readExit t) (s.goto t .leaving)
  | decrement {t : Tid} (hp : s.pc t = .leaving) :
      Step s (.decrement t) ({ s with refCount := s.refCount - 1 }.goto t .left)

theorem step_cases {s s' : State Tid α} {a : Act Tid} (h : step s a = some s') : Step s a s' := by
  cases a with
  | put =>
    rw [step] at h
    split at h
    · cases h
    · next hl =>
      split_ifs at h with hq
      cases h
      exact .put hl hq
  | setExit =>
    rw [step] at h
    split at h
    · next hl =>
      split_ifs at h with he
      cases h
      exact .setExit hl (Bool.not_eq_true _ ▸ he)
    · cases h
  | checkRefCount =>
    rw [step] at h
    split_ifs at h with hc
    cases h
    exact .checkRefCount hc.1 hc.2
  | poll t =>
    rw [step] at h
    split at h
    · next hp hq => cases h; exact .pollNull hp hq
    · next hp hq => cases h; exact .poll hp hq
    · cases h
  | interrupt t =>
    rw [step] at h
    split at h
    · next hp => cases h; exact .interrupt hp
    · cases h
  | exec t throws =>
    rw [step] at h
    split at h
    · next hp => cases h; exact .exec hp
    · cases h
  | readExit t =>
    rw [step] at h
    split at h
    · next hp =>
      cases h
      cases he : s.exit with
      | false => exact .stay hp he
      | true => exact .leave hp he
    · cases h
  | decrement t =>
    rw [step] at h
    split at h
    · next hp => cases h; exact .decrement hp
    · cases h

/-! ## The last worker -/

/-- All workers have seen `exit`. -/
def AllGone (s : State Tid α) : Prop := ∀ t, (s.pc t).isGone = true

/-- A last worker that sees `exit` too early leaves the queue behind. -/
theorem lost_of_not_drainedByLast {s s' : State Tid α} {a : Act Tid} (hG : ¬ DrainedByLast s a)
    (hs : Step s a s') : AllGone s' ∧ s'.queue ≠ [] := by
  cases hs with
  | @stay t hp he => exact absurd (fun hx => by rw [he] at hx; cases hx) hG
  | @leave t hp he =>
    simp only [DrainedByLast, Classical.not_imp] at hG
    obtain ⟨-, hothers, hq⟩ := hG
    refine ⟨fun u => ?_, hq⟩
    by_cases hu : u = t
    · rw [hu, goto_pc_self]; rfl
    · rw [goto_pc_of_ne _ _ hu]; exact hothers u hu
  | _ => exact absurd trivial hG

/-! ## What every run keeps -/

/-- Every line is taken, queued or not yet put, and `exit` is set behind the last one. -/
def LinesInv (file : List α) (s : State Tid α) : Prop :=
  s.taken.map Prod.snd ++ s.queue ++ s.lines = file ∧ (s.exit = true → s.lines = [])

/-- A worker has executed what it took, up to the statement it is at. -/
def ExecInv (s : State Tid α) : Prop :=
  ∀ t, s.executed t ++ (s.pc t).pending = (s.taken.filter fun p => p.1 = t).map Prod.snd

theorem linesInv_step {file : List α} {s s' : State Tid α} {a : Act Tid} (h : LinesInv file s)
    (hs : Step s a s') : LinesInv file s' := by
  obtain ⟨hf, he⟩ := h
  cases hs with
  | put hl hq =>
    refine ⟨?_, fun hx => ?_⟩
    · rw [← hf, hl]
      simp
    · rw [he hx] at hl
      cases hl
  | setExit hl _ => exact ⟨hf, fun _ => hl⟩
  | poll hp hq =>
    refine ⟨?_, he⟩
    rw [← hf, hq]
    simp [State.goto]
  | _ => exact ⟨hf, he⟩

theorem execInv_goto {s : State Tid α} (h : ExecInv s) {t : Tid} {p : Pc α}
    (hp : p.pending = (s.pc t).pending) : ExecInv (s.goto t p) := by
  intro u
  by_cases hu : u = t
  · subst hu
    simpa [State.goto, hp] using h u
  · simpa [State.goto, hu] using h u

theorem execInv_step {s s' : State Tid α} {a : Act Tid} (h : ExecInv s) (hs : Step s a s') :
    ExecInv s' := by
  cases hs with
  | put => exact h
  | setExit => exact h
  | checkRefCount => exact h
  | pollNull hp _ => exact execInv_goto h (by rw [hp]; rfl)
  | @poll t sql queue hp _ =>
    intro u
    have hu := h u
    by_cases hut : u = t
    · subst hut
      rw [hp] at hu
      simp only [Pc.pending, List.append_nil] at hu
      simp [State.goto, Pc.pending, hu]
    · simpa [State.goto, hut, Ne.symm hut] using hu
  | interrupt hp => exact execInv_goto h (by rw [hp]; rfl)
  | @exec t throws sql hp =>
    intro u
    have hu := h u
    by_cases hut : u = t
    · subst hut
      rw [hp] at hu
      cases throws <;> simpa [State.goto, Pc.pending] using hu
    · simpa [State.goto, hut] using hu
  | stay hp _ => exact execInv_goto h (by rw [hp]; rfl)
  | leave hp _ => exact execInv_goto h (by rw [hp]; rfl)
  | decrement hp => exact execInv_goto h (by rw [hp]; rfl)

variable [Fintype Tid]

/-- A thread that `refCount` still counts. -/
def counted : Pc α → ℕ
  | .left => 0
  | _ => 1

/-- Threads leave after `exit`, and `feed` returns after the last one. -/
structure ThreadInv (s : State Tid α) : Prop where
  gone_exit : ∀ t, (s.pc t).isGone = true → s.exit = true
  count_eq : s.refCount = (tally counted s.pc : ℕ)
  returned_left : s.returned = true → s.exit = true ∧ ∀ t, s.pc t = .left

theorem threadInv_goto {s : State Tid α} (h : ThreadInv s) {t : Tid} {p : Pc α}
    (hleft : s.pc t ≠ .left) (hgone : p.isGone = true → s.exit = true) {r : ℤ}
    (hr : r + counted (s.pc t) = s.refCount + counted p) :
    ThreadInv ({ s with refCount := r }.goto t p) where
  gone_exit u := by
    by_cases hu : u = t
    · subst hu
      simpa [State.goto] using hgone
    · simpa [State.goto, hu] using h.gone_exit u
  count_eq := by
    have h₁ := tally_update counted s.pc t p
    have h₂ := h.count_eq
    change r = (tally counted (Function.update s.pc t p) : ℕ)
    omega
  returned_left hr := absurd ((h.returned_left hr).2 t) hleft

theorem threadInv_step {s s' : State Tid α} {a : Act Tid} (h : ThreadInv s) (hs : Step s a s') :
    ThreadInv s' := by
  cases hs with
  | put => exact ⟨h.gone_exit, h.count_eq, h.returned_left⟩
  | setExit => exact ⟨fun _ _ => rfl, h.count_eq, fun hr => ⟨rfl, (h.returned_left hr).2⟩⟩
  | checkRefCount he hr =>
    refine ⟨h.gone_exit, h.count_eq, fun hret => ⟨he, fun t => ?_⟩⟩
    have hzero : tally counted s.pc = 0 := by
      have := h.count_eq
      have := of_decide_eq_true hret
      omega
    have ht := tally_eq_zero_iff.mp hzero t
    revert ht
    cases s.pc t <;> simp [counted]
  | pollNull hp _ =>
    exact threadInv_goto h (p := .checking) (by rw [hp]; nofun) nofun (by rw [hp]; rfl)
  | @poll t sql queue hp _ =>
    have := threadInv_goto h (t := t) (p := .executing sql) (r := s.refCount) (by rw [hp]; nofun)
      nofun (by rw [hp]; rfl)
    exact ⟨this.gone_exit, this.count_eq, this.returned_left⟩
  | interrupt hp =>
    exact threadInv_goto h (p := .dead) (by rw [hp]; nofun) nofun (by rw [hp]; rfl)
  | @exec t throws sql hp =>
    have := threadInv_goto h (t := t) (p := if throws then .dead else .polling) (r := s.refCount)
      (by rw [hp]; nofun) (by cases throws <;> nofun) (by rw [hp]; cases throws <;> rfl)
    exact ⟨this.gone_exit, this.count_eq, this.returned_left⟩
  | stay hp _ =>
    exact threadInv_goto h (p := .polling) (by rw [hp]; nofun) nofun (by rw [hp]; rfl)
  | leave hp he => exact threadInv_goto h (by rw [hp]; nofun) (fun _ => he) (by rw [hp]; rfl)
  | @decrement t hp =>
    exact threadInv_goto h (by rw [hp]; nofun) (fun _ => h.gone_exit t (by rw [hp]; rfl))
      (by rw [hp]; simp [counted])

/-- The bookkeeping of lines, statements and threads. -/
def Inv (file : List α) (s : State Tid α) : Prop := LinesInv file s ∧ ExecInv s ∧ ThreadInv s

theorem inv_step {file : List α} (s : State Tid α) (a : Act Tid) (s' : State Tid α)
    (h : Inv file s) (hs : step s a = some s') : Inv file s' :=
  ⟨linesInv_step h.1 (step_cases hs), execInv_step h.2.1 (step_cases hs),
    threadInv_step h.2.2 (step_cases hs)⟩

theorem inv_new (capacity : ℕ) (file : List α) :
    Inv file (State.new capacity file : State Tid α) := by
  refine ⟨⟨rfl, nofun⟩, fun _ => rfl, nofun, ?_, nofun⟩
  simp [State.new, tally, counted]

/-! ## After the last worker -/

theorem allGone_step {s s' : State Tid α} {a : Act Tid} [Nonempty Tid] {file : List α}
    (hinv : Inv file s) (h : AllGone s) (hs : Step s a s') : AllGone s' ∧ s'.queue = s.queue := by
  have hlines : s.lines = [] :=
    hinv.1.2 (hinv.2.2.gone_exit (Classical.arbitrary Tid) (h _))
  have hgone : ∀ {t : Tid} {p : Pc α}, s.pc t = p → p.isGone = true := fun hp => hp ▸ h _
  cases hs with
  | put hl _ => rw [hlines] at hl; cases hl
  | setExit => exact ⟨h, rfl⟩
  | checkRefCount => exact ⟨h, rfl⟩
  | decrement hp =>
    refine ⟨fun u => ?_, rfl⟩
    simp only [State.goto, Function.update_apply]
    split_ifs
    · rfl
    · exact h u
  | pollNull hp _ => cases hgone hp
  | poll hp _ => cases hgone hp
  | interrupt hp => cases hgone hp
  | exec hp => cases hgone hp
  | stay hp _ => cases hgone hp
  | leave hp _ => cases hgone hp

/-- The workers did not leave the queue behind. -/
def Drained (s : State Tid α) : Prop := AllGone s → s.queue = []

theorem drained_step {s s' : State Tid α} {a : Act Tid} [Nonempty Tid] {file : List α}
    (hinv : Inv file s) (hG : DrainedByLast s a) (h : Drained s) (hs : Step s a s') :
    Drained s' := by
  by_cases hall : AllGone s
  · obtain ⟨-, hq⟩ := allGone_step hinv hall hs
    exact fun _ => hq.trans (h hall)
  · intro hall'
    -- a step that makes the last worker gone is its read of `exit`
    cases hs with
    | put => exact absurd hall' hall
    | setExit => exact absurd hall' hall
    | checkRefCount => exact absurd hall' hall
    | @leave t hp he =>
      refine hG he fun u hu => ?_
      have := hall' u
      rwa [goto_pc_of_ne _ _ hu] at this
    | @decrement t hp =>
      refine absurd (fun u => ?_) hall
      by_cases hu : u = t
      · rw [hu, hp]; rfl
      · have := hall' u
        rwa [goto_pc_of_ne _ _ hu] at this
    | @pollNull t hp hq => exact hq
    | @poll t => have := hall' t; simp [Pc.isGone] at this
    | @interrupt t => have := hall' t; simp [Pc.isGone] at this
    | @exec t throws =>
      have := hall' t
      cases throws <;> simp [Pc.isGone] at this
    | @stay t => have := hall' t; simp [Pc.isGone] at this

/-! ## Delivery -/

theorem delivered_iff_queue_nil {file : List α} {s : State Tid α} (h : Inv file s)
    (hret : s.returned = true) : Delivered file s ↔ s.queue = [] := by
  obtain ⟨⟨hf, hl⟩, hx, ht⟩ := h
  obtain ⟨he, hleft⟩ := ht.returned_left hret
  refine ⟨fun hd => hd.2.2, fun hq => ⟨?_, fun t => ?_, hq⟩⟩
  · rw [hq, hl he, List.append_nil, List.append_nil] at hf
    exact hf
  · have := hx t
    rw [hleft t] at this
    simpa [Pc.pending] using this

/-- **`SQLInjector` loses no statement exactly when the last worker to see `exit` sees an empty
queue**: for every file, every number of workers (`ThreadPoolExecutor` refuses a pool of none),
every capacity and every interleaving at whose end `feed` has returned. -/
theorem delivered_iff_drainedByLast [Nonempty Tid] {capacity : ℕ} {file : List α}
    {as : List (Act Tid)} {s : State Tid α} (hrun : run step (.new capacity file) as = some s)
    (hret : s.returned = true) :
    Delivered file s ↔ Guarded step DrainedByLast (.new capacity file) as := by
  have hinv := invariant_of_run inv_step hrun (inv_new capacity file)
  rw [delivered_iff_queue_nil hinv hret]
  constructor
  · intro hq
    by_contra hG
    obtain ⟨as₁, a, as₂, s₁, s₂, -, hrun₁, -, hbad, hstep, hrun₂⟩ := exists_first_refused hrun hG
    have hinv₁ := invariant_of_run inv_step hrun₁ (inv_new capacity file)
    have hinv₂ := inv_step _ _ _ hinv₁ hstep
    -- from here on all workers are gone and the queue does not change
    have hlost := lost_of_not_drainedByLast hbad (step_cases hstep)
    have hend : Inv file s ∧ AllGone s ∧ s.queue ≠ [] :=
      invariant_of_run (I := fun s => Inv file s ∧ AllGone s ∧ s.queue ≠ [])
        (fun s a s' h hs => by
          obtain ⟨hall, hq⟩ := allGone_step h.1 h.2.1 (step_cases hs)
          exact ⟨inv_step _ _ _ h.1 hs, hall, hq ▸ h.2.2⟩) hrun₂ ⟨hinv₂, hlost⟩
    exact hend.2.2 hq
  · intro hG
    have hend : Inv file s ∧ Drained s :=
      invariant_of_guarded (I := fun s => Inv file s ∧ Drained s)
        (fun s a s' hg h hs => ⟨inv_step _ _ _ h.1 hs, drained_step h.1 hg h.2 (step_cases hs)⟩)
        hrun hG ⟨inv_new capacity file, fun h => rfl⟩
    refine hend.2 fun t => ?_
    rw [(hinv.2.2.returned_left hret).2 t]
    rfl

instance (s : State Tid α) [DecidableEq α] (a : Act Tid) : Decidable (DrainedByLast s a) := by
  cases a <;> unfold DrainedByLast <;> infer_instance

/-- One worker, one line: the worker polls again before it looks at `exit`. -/
def orderlyRun : List (Act Unit) :=
  [.poll (), .put, .readExit (), .poll (), .setExit, .exec () false, .poll (), .readExit (),
    .decrement (), .checkRefCount]

theorem delivered_orderlyRun : ∃ s, run step (.new 1 [7]) orderlyRun = some s ∧
    s.returned = true ∧ Guarded step DrainedByLast (.new 1 [7]) orderlyRun ∧
      Delivered [7] s := by
  have h : ((run step (.new 1 [7]) orderlyRun).any fun s => s.returned) = true := by decide
  obtain ⟨s, hs, hret⟩ := (Option.any_eq_true _ _).mp h
  have hG : Guarded step DrainedByLast (.new 1 [7]) orderlyRun := by decide
  exact ⟨s, hs, hret, hG, (delivered_iff_drainedByLast hs hret).mpr hG⟩

/-- One worker, one line: the poll comes back empty, then `feed` puts the line and sets `exit`, then
the worker looks at `exit`. -/
def racingRun : List (Act Unit) :=
  [.poll (), .put, .setExit, .readExit (), .decrement (), .checkRefCount]

/-- The line that was put between an empty poll and the look at `exit` is lost. -/
theorem racing_exit_loses_line : ∃ s, run step (.new 1 [7]) racingRun = some s ∧
    s.returned = true ∧ s.queue = [7] ∧ s.taken = [] ∧ ¬ Delivered [7] s := by
  have h : ((run step (.new 1 [7]) racingRun).any fun s =>
      decide (s.returned = true ∧ s.queue = [7] ∧ s.taken = [])) = true := by decide
  obtain ⟨s, hs, hp⟩ := (Option.any_eq_true _ _).mp h
  obtain ⟨hret, hq, ht⟩ := of_decide_eq_true hp
  refine ⟨s, hs, hret, hq, ht, fun hd => ?_⟩
  rw [hd.2.2] at hq
  cases hq

end Sperm.SQLInjector
