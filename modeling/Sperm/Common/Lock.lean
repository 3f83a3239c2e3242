import Mathlib.Data.Fintype.Basic
import Mathlib.Tactic.Common
import Sperm.Lib.Run

/-!
# `MutexLock` and `SpinLock` (`common/lock.h`, `common/lock.cc`)

A pthread lock and a field `holder_` with the id of the thread that has it. `lock` writes `holder_`
after it has the lock, `unlock` clears it after it has given the lock back, and neither `trylock`
nor the re-acquisition inside `Condition::wait` writes it. The pthread operation and the write are
two steps; a thread id is never `0`, so that `holder_` is an `Option` of the thread.

* `State`, `Act`, `step`; `isLockedByThisThread`.
* `Truthful`: who has the lock is told so, and nobody else is.
* `Sound`: the steps after which `holder_` is right.
* **`truthful_iff_sound`**: `isLockedByThisThread` tells the truth all along a run exactly when its
  steps are sound.
-/

namespace Sperm.Lock

open StepRun

/-- The two classes; only a `MutexLock` has a `Condition`. -/
inductive LockClass where
  | mutexLock
  | spinLock
  deriving DecidableEq

/-- Where a thread stands. -/
inductive Pc where
  | idle
  /-- `lock` has the pthread lock; `holder_ = get_tid()` is next. -/
  | locked
  /-- After `lock`, a successful `trylock` or `wait`, and before the next `unlock` or `wait`. -/
  | holding
  /-- `unlock` has given the pthread lock back; `holder_ = 0` is next. -/
  | unlocked
  /-- Inside `pthread_cond_wait`, which has given the pthread lock back. -/
  | waiting
  deriving DecidableEq

structure State (Tid : Type) where
  owner : Option Tid
  holder : Option Tid
  pc : Tid → Pc

/-- A new lock, with every thread outside. -/
def State.new (Tid : Type) : State Tid := ⟨none, none, fun _ => .idle⟩

inductive Act (Tid : Type) where
  | pthreadLock (t : Tid)
  /-- `holder_ = get_tid()`. -/
  | setHolder (t : Tid)
  | pthreadUnlock (t : Tid)
  /-- `holder_ = 0`. -/
  | clearHolder (t : Tid)
  | pthreadTrylock (t : Tid)
  /-- `Condition::wait` or `timedWait` gives the lock back. -/
  | waitRelease (t : Tid)
  /-- It has the lock again and returns. -/
  | waitReturn (t : Tid)

variable {Tid : Type} [DecidableEq Tid]

/-- `isLockedByThisThread()`, called by thread `t`. -/
def isLockedByThisThread (s : State Tid) (t : Tid) : Bool := s.holder = some t

/-- Thread `t` moves to `p`. -/
def State.goto (s : State Tid) (t : Tid) (p : Pc) : State Tid :=
  { s with pc := Function.update s.pc t p }

@[simp] theorem goto_pc_self (s : State Tid) (t : Tid) (p : Pc) : (s.goto t p).pc t = p := by
  simp [State.goto]

@[simp] theorem goto_pc_of_ne (s : State Tid) {t u : Tid} (p : Pc) (h : u ≠ t) :
    (s.goto t p).pc u = s.pc u := by
  simp [State.goto, h]

def step (k : LockClass) (s : State Tid) : Act Tid → Option (State Tid)
  | .pthreadLock t =>
    if s.pc t = .idle ∧ s.owner = none then some ({ s with owner := some t }.goto t .locked)
    else none
  | .setHolder t =>
    if s.pc t = .locked then some ({ s with holder := some t }.goto t .holding) else none
  | .pthreadUnlock t =>
    if s.pc t = .holding then some ({ s with owner := none }.goto t .unlocked) else none
  | .clearHolder t =>
    if s.pc t = .unlocked then some ({ s with holder := none }.goto t .idle) else none
  | .pthreadTrylock t =>
    if s.pc t = .idle ∨ s.pc t = .holding then
      if s.owner = none then some ({ s with owner := some t }.goto t .holding)
      -- `EBUSY`
      else some s
    else none
  | .waitRelease t =>
    if k = .mutexLock ∧ s.pc t = .holding then some ({ s with owner := none }.goto t .waiting)
    else none
  | .waitReturn t =>
    if s.pc t = .waiting ∧ s.owner = none then some ({ s with owner := some t }.goto t .holding)
    else none

/-- **The truth**: `isLockedByThisThread()` is true for a thread that has the lock and false for
every other. -/
def Truthful (s : State Tid) : Prop :=
  ∀ t, s.pc t = .holding → isLockedByThisThread s t = true ∧
    ∀ u, u ≠ t → isLockedByThisThread s u = false

/-- The steps after which `holder_` is right: no `trylock` succeeds, `holder_` is cleared while no
thread is between its `lock` and its `unlock`, and `wait` returns to the `holder_` it left. -/
def Sound (s : State Tid) : Act Tid → Prop
  | .pthreadTrylock _ => s.owner ≠ none
  | .clearHolder _ => ∀ u, s.pc u ≠ .holding
  | .waitReturn t => s.holder = some t
  | _ => True

instance [Fintype Tid] (s : State Tid) (a : Act Tid) : Decidable (Sound s a) := by
  cases a <;> unfold Sound <;> infer_instance

/-! ## What a step does -/

/-- The steps with their guards. -/
inductive Step (k : LockClass) (s : State Tid) : Act Tid → State Tid → Prop where
  | pthreadLock {t : Tid} (hp : s.pc t = .idle) (ho : s.owner = none) :
      Step k s (.pthreadLock t) ({ s with owner := some t }.goto t .locked)
  | setHolder {t : Tid} (hp : s.pc t = .locked) :
      Step k s (.setHolder t) ({ s with holder := some t }.goto t .holding)
  | pthreadUnlock {t : Tid} (hp : s.pc t = .holding) :
      Step k s (.pthreadUnlock t) ({ s with owner := none }.goto t .unlocked)
  | clearHolder {t : Tid} (hp : s.pc t = .unlocked) :
      Step k s (.clearHolder t) ({ s with holder := none }.goto t .idle)
  | trylock {t : Tid} (hp : s.pc t = .idle ∨ s.pc t = .holding) (ho : s.owner = none) :
      Step k s (.pthreadTrylock t) ({ s with owner := some t }.goto t .holding)
  | busy {t : Tid} (ho : s.owner ≠ none) : Step k s (.pthreadTrylock t) s
  | waitRelease {t : Tid} (hp : s.pc t = .holding) :
      Step k s (.waitRelease t) ({ s with owner := none }.goto t .waiting)
  | waitReturn {t : Tid} (hp : s.pc t = .waiting) (ho : s.owner = none) :
      Step k s (.waitReturn t) ({ s with owner := some t }.goto t .holding)

theorem step_cases {k : LockClass} {s s' : State Tid} {a : Act Tid} (h : step k s a = some s') :
    Step k s a s' := by
  cases a with
  | pthreadLock t =>
    rw [step] at h
    split_ifs at h with hp
    cases h
    exact .pthreadLock hp.1 hp.2
  | setHolder t =>
    rw [step] at h
    split_ifs at h with hp
    cases h
    exact .setHolder hp
  | pthreadUnlock t =>
    rw [step] at h
    split_ifs at h with hp
    cases h
    exact .pthreadUnlock hp
  | clearHolder t =>
    rw [step] at h
    split_ifs at h with hp
    cases h
    exact .clearHolder hp
  | pthreadTrylock t =>
    rw [step] at h
    split_ifs at h with hp ho
    · cases h
      exact .trylock hp ho
    · cases h
      exact .busy ho
  | waitRelease t =>
    rw [step] at h
    split_ifs at h with hp
    cases h
    exact .waitRelease hp.2
  | waitReturn t =>
    rw [step] at h
    split_ifs at h with hp
    cases h
    exact .waitReturn hp.1 hp.2

/-! ## What every run keeps -/

/-- Does a thread there have the pthread lock? -/
def Pc.owns : Pc → Bool
  | .locked => true
  | .holding => true
  | _ => false

/-- May `holder_` still be the id of a thread there? -/
def Pc.marked : Pc → Bool
  | .holding => true
  | .unlocked => true
  | .waiting => true
  | _ => false

/-- The pthread lock has one owner, and `holder_` is somebody who has written it. -/
structure Inv (s : State Tid) : Prop where
  owner_iff : ∀ t, s.owner = some t ↔ (s.pc t).owns = true
  marked_of_holder : ∀ t, s.holder = some t → (s.pc t).marked = true

omit [DecidableEq Tid] in
theorem inv_new : Inv (State.new Tid) := ⟨by simp [State.new, Pc.owns], by simp [State.new]⟩

theorem Inv.goto {s : State Tid} (h : Inv s) {t : Tid} {p : Pc} {o ho : Option Tid}
    (ht : o = some t ↔ p.owns = true) (hu : ∀ u, u ≠ t → (o = some u ↔ s.owner = some u))
    (hm : ho = some t → p.marked = true) (hm' : ∀ u, u ≠ t → ho = some u → s.holder = some u) :
    Inv (({ s with owner := o, holder := ho } : State Tid).goto t p) where
  owner_iff u := by
    by_cases hut : u = t
    · subst hut
      rw [goto_pc_self]
      exact ht
    · rw [goto_pc_of_ne _ _ hut]
      exact (hu u hut).trans (h.owner_iff u)
  marked_of_holder u hh := by
    by_cases hut : u = t
    · subst hut
      rw [goto_pc_self]
      exact hm hh
    · rw [goto_pc_of_ne _ _ hut]
      exact h.marked_of_holder u (hm' u hut hh)

theorem inv_step (k : LockClass) (s : State Tid) (a : Act Tid) (s' : State Tid) (h : Inv s)
    (hs : step k s a = some s') : Inv s' := by
  have hown : ∀ {t : Tid} {p : Pc}, s.pc t = p → (s.owner = some t ↔ p.owns = true) :=
    fun hp => hp ▸ h.owner_iff _
  have hmark : ∀ {t : Tid} {p : Pc}, s.pc t = p → s.holder = some t → p.marked = true :=
    fun hp => hp ▸ h.marked_of_holder _
  -- a thread that gives the lock back was its only owner
  have hgive : ∀ {t : Tid} {p : Pc}, s.pc t = p → p.owns = true →
      ∀ u, u ≠ t → (none = some u ↔ s.owner = some u) := by
    intro t p hp ho u hu
    rw [(hown hp).mpr ho]
    simp [Ne.symm hu]
  have htake : ∀ {t : Tid}, s.owner = none → ∀ u, u ≠ t → (some t = some u ↔ s.owner = some u) := by
    intro t ho u hu
    rw [ho]
    simp [Ne.symm hu]
  cases step_cases hs with
  | pthreadLock hp ho =>
    exact h.goto (by simp [Pc.owns]) (htake ho) (fun hh => nomatch hmark hp hh) fun _ _ hh => hh
  | @setHolder t hp =>
    exact h.goto (by rw [hown hp]; rfl) (fun _ _ => Iff.rfl) (fun _ => rfl)
      fun u hu hh => absurd (Option.some.inj hh).symm hu
  | pthreadUnlock hp =>
    exact h.goto (by simp [Pc.owns]) (hgive hp rfl) (fun _ => rfl) fun _ _ hh => hh
  | clearHolder hp =>
    exact h.goto (by rw [hown hp]; rfl) (fun _ _ => Iff.rfl) nofun nofun
  | trylock hp ho =>
    exact h.goto (by simp [Pc.owns]) (htake ho) (fun _ => rfl) fun _ _ hh => hh
  | busy => exact h
  | waitRelease hp =>
    exact h.goto (by simp [Pc.owns]) (hgive hp rfl) (fun _ => rfl) fun _ _ hh => hh
  | waitReturn hp ho =>
    exact h.goto (by simp [Pc.owns]) (htake ho) (fun _ => rfl) fun _ _ hh => hh

/-! ## The truth -/

omit [DecidableEq Tid] in
theorem Inv.unique {s : State Tid} (h : Inv s) {t u : Tid} (ht : (s.pc t).owns = true)
    (hu : (s.pc u).owns = true) : u = t := by
  have := ((h.owner_iff u).mpr hu).symm.trans ((h.owner_iff t).mpr ht)
  exact Option.some.inj this

theorem truthful_iff {s : State Tid} :
    Truthful s ↔ ∀ t, s.pc t = .holding → s.holder = some t := by
  refine forall₂_congr fun t _ => ?_
  simp only [isLockedByThisThread, decide_eq_true_eq, decide_eq_false_iff_not]
  refine ⟨And.left, fun h => ⟨h, fun u hu hh => ?_⟩⟩
  exact hu (Option.some.inj (hh.symm.trans h))

theorem truthful_step {k : LockClass} {s s' : State Tid} {a : Act Tid} (hG : Sound s a)
    (h : Inv s) (hT : Truthful s) (hs : step k s a = some s') : Truthful s' := by
  rw [truthful_iff] at hT ⊢
  -- a thread that moves out of the lock leaves the others where they are
  have hout : ∀ {t : Tid} {p : Pc} {o : Option Tid}, p ≠ .holding →
      ∀ u, (({ s with owner := o } : State Tid).goto t p).pc u = .holding → s.holder = some u := by
    intro t p o hp u hu
    by_cases hut : u = t
    · subst hut
      rw [goto_pc_self] at hu
      exact absurd hu hp
    · rw [goto_pc_of_ne _ _ hut] at hu
      exact hT u hu
  cases step_cases hs with
  | pthreadLock hp ho => exact hout (by nofun)
  | @setHolder t hp =>
    intro u hu
    by_cases hut : u = t
    · rw [hut]; rfl
    · rw [goto_pc_of_ne _ _ hut] at hu
      exact absurd (h.unique (t := t) (by rw [hp]; rfl) (show (s.pc u).owns = true by
        rw [show s.pc u = .holding from hu]; rfl)) hut
  | pthreadUnlock hp => exact hout (by nofun)
  | @clearHolder t hp =>
    intro u hu
    by_cases hut : u = t
    · subst hut
      rw [goto_pc_self] at hu
      cases hu
    · rw [goto_pc_of_ne _ _ hut] at hu
      exact absurd hu (hG u)
  | trylock hp ho => exact absurd ho hG
  | busy => exact hT
  | waitRelease hp => exact hout (by nofun)
  | @waitReturn t hp ho =>
    intro u hu
    by_cases hut : u = t
    · rw [hut]
      exact hG
    · rw [goto_pc_of_ne _ _ hut] at hu
      exact hT u hu

theorem not_truthful_of_not_sound {k : LockClass} {s s' : State Tid} {a : Act Tid}
    (hG : ¬ Sound s a) (h : Inv s) (hs : step k s a = some s') : ¬ Truthful s' := by
  rw [truthful_iff]
  intro hT
  cases step_cases hs with
  | @clearHolder t hp =>
    simp only [Sound, ne_eq, not_forall, not_not] at hG
    obtain ⟨u, hu⟩ := hG
    have hut : u ≠ t := by
      rintro rfl
      rw [hp] at hu
      cases hu
    cases hT u (by rw [goto_pc_of_ne _ _ hut]; exact hu)
  | @trylock t hp ho =>
    rcases hp with hp | hp
    · have := h.marked_of_holder t (hT t (by simp))
      rw [hp] at this
      cases this
    · have := (h.owner_iff t).mpr (by rw [hp]; rfl)
      rw [ho] at this
      cases this
  | busy ho => exact hG ho
  | @waitReturn t hp ho => exact hG (hT t (by simp))
  | _ => exact hG trivial

/-- **`isLockedByThisThread` tells the truth** in every state of a run, of any number of threads and
in any interleaving, exactly when no `trylock` succeeds, no `unlock` clears `holder_` when another
thread has already completed its acquisition, and every `wait` returns to the `holder_` it left. -/
theorem truthful_iff_sound {k : LockClass} {as : List (Act Tid)} {s : State Tid}
    (hrun : run (step k) (.new Tid) as = some s) :
    Always (step k) Truthful (.new Tid) as ↔ Guarded (step k) Sound (.new Tid) as :=
  always_iff_guarded (inv_step k) (fun _ _ _ hG h hT hs => truthful_step hG h hT hs)
    (fun _ _ _ hG h hs => not_truthful_of_not_sound hG h hs) hrun inv_new nofun

/-- Two threads take the lock one after the other, a `trylock` comes too late, and a `wait` returns
before anybody else has had the lock. -/
def orderlyRun : List (Act Bool) :=
  [.pthreadLock true, .setHolder true, .pthreadTrylock false, .waitRelease true, .waitReturn true,
    .pthreadUnlock true, .clearHolder true, .pthreadLock false, .setHolder false]

theorem truthful_orderlyRun : ∃ s, run (step .mutexLock) (.new Bool) orderlyRun = some s ∧
    s.holder = some false ∧ Always (step .mutexLock) Truthful (.new Bool) orderlyRun := by
  have h : ((run (step .mutexLock) (.new Bool) orderlyRun).any fun s =>
      s.holder = some false) = true := by decide
  obtain ⟨s, hs, hp⟩ := (Option.any_eq_true _ _).mp h
  exact ⟨s, hs, of_decide_eq_true hp, (truthful_iff_sound hs).mpr (by decide)⟩

/-- `unlock` clears `holder_` after the other thread's `lock` has written it. -/
def lateClear : List (Act Bool) :=
  [.pthreadLock true, .setHolder true, .pthreadUnlock true, .pthreadLock false, .setHolder false,
    .clearHolder true]

/-- `wait` returns after another thread has had the lock. -/
def staleWait : List (Act Bool) :=
  [.pthreadLock true, .setHolder true, .waitRelease true, .pthreadLock false, .setHolder false,
    .pthreadUnlock false, .clearHolder false, .waitReturn true]

/-- A thread that has the lock is told that it has not: after another thread's late `unlock`, after
a successful `trylock` of either class, and after a `wait`. -/
theorem holder_not_recognized :
    (∀ k, ∃ s, run (step k) (.new Bool) lateClear = some s ∧ s.pc false = .holding ∧
      isLockedByThisThread s false = false) ∧
    (∀ k, ∃ s, run (step k) (.new Bool) [.pthreadTrylock true] = some s ∧ s.pc true = .holding ∧
      isLockedByThisThread s true = false) ∧
    ∃ s, run (step .mutexLock) (.new Bool) staleWait = some s ∧ s.pc true = .holding ∧
      isLockedByThisThread s true = false := by
  refine ⟨fun k => ?_, fun k => ?_, ?_⟩
  · cases k <;> exact ⟨_, rfl, rfl, rfl⟩
  · cases k <;> exact ⟨_, rfl, rfl, rfl⟩
  · exact ⟨_, rfl, rfl, rfl⟩

end Sperm.Lock
