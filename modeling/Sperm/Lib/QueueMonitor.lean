import Mathlib.Tactic.Common
import Sperm.Lib.Monitor

/-!
# Queues behind a mutex

* `entering`: the call whose critical section a step is. `Matches`, `Alike`, **`run_simulates`**: a
  monitor whose critical sections come to the same as those of another one runs like it.
* `QueueImpl`: a queue, its operations and the sequence it represents. `QueueImpl.monitor`: the
  queue behind a mutex, where `pop` waits for an item; `QueueImpl.sequence`: so the sequence.
* `QueueImpl.contents`: what the calls that returned leave in the queue; `QueueImpl.LegalCall`.
* **`QueueImpl.linearizable_not_stranded`**: through legal calls the queue represents its contents,
  every call returned what it returns on the sequence, and no `pop` sleeps before an item.
-/

namespace Monitor

open StepRun ThreadPool

section Simulation

variable {Tid σ σ₁ σ₂ Call Ret Cv : Type}

/-- The call whose critical section the step is. -/
def entering (s : State Tid σ Call Ret) : Act Tid Call → Option Call
  | .call _ op _ _ => some op
  | .resume t _ =>
    match s.pc t with
    | .awake op _ _ => some op
    | _ => none
  | _ => none

/-- Both critical sections end asleep, or both return the same and notify the same. -/
inductive Matches (R : σ₁ → σ₂ → Prop) :
    Option (σ₁ × Ret × Option Cv) → Option (σ₂ × Ret × Option Cv) → Prop where
  | sleep : Matches R none none
  | done {d₁ : σ₁} {d₂ : σ₂} {r : Ret} {n : Option Cv} (h : R d₁ d₂) :
      Matches R (some (d₁, r, n)) (some (d₂, r, n))

/-- Related data, and the same threads and calls. -/
structure Alike (R : σ₁ → σ₂ → Prop) (s₁ : State Tid σ₁ Call Ret) (s₂ : State Tid σ₂ Call Ret) :
    Prop where
  data : R s₁.data s₂.data
  pc : s₁.pc = s₂.pc
  log : s₁.log = s₂.log

variable [DecidableEq Tid] [DecidableEq Cv] {M₁ : Spec σ₁ Call Ret Cv} {M₂ : Spec σ₂ Call Ret Cv}
  {R : σ₁ → σ₂ → Prop} {s₁ s₁' : State Tid σ₁ Call Ret} {s₂ : State Tid σ₂ Call Ret}

omit [DecidableEq Tid] in
theorem sleepsOn_congr (hwait : M₁.waitsOn = M₂.waitsOn) (c : Cv) (W : Call → Bool)
    (p : Pc Call) : p.sleepsOn M₁ c W = p.sleepsOn M₂ c W := by
  cases p <;> simp only [Pc.sleepsOn, hwait]

omit [DecidableEq Cv] in
theorem Alike.goto (h : Alike R s₁ s₂) (t : Tid) (p : Pc Call) :
    Alike R (s₁.goto t p) (s₂.goto t p) :=
  ⟨h.data, by rw [State.goto, State.goto, h.pc], h.log⟩

variable [Fintype Tid]

theorem wake_alike (hwait : M₁.waitsOn = M₂.waitsOn) {n : Option Cv} {w : Option Tid}
    (h : Alike R s₁ s₂) (hw : wake M₁ n w s₁ = some s₁') :
    ∃ s₂', wake M₂ n w s₂ = some s₂' ∧ Alike R s₁' s₂' := by
  unfold wake at hw ⊢
  split at hw
  · cases hw
    exact ⟨s₂, rfl, h⟩
  · cases hw
  · split_ifs at hw with hno
    cases hw
    refine ⟨s₂, if_pos fun u => ?_, h⟩
    rw [← hno u, ← h.pc, sleepsOn_congr hwait]
  · next c u =>
    split at hw
    · next op timed hp =>
      split_ifs at hw with hc
      cases hw
      refine ⟨s₂.goto u (.awake op timed true), ?_, h.goto _ _⟩
      simp only [← h.pc, hp, ← hwait, if_pos hc]
    · cases hw

theorem enter_alike (hwait : M₁.waitsOn = M₂.waitsOn) {t : Tid} {op : Call} {timed : Bool}
    {w : Option Tid} (h : Alike R s₁ s₂)
    (hm : Matches R (M₁.attempt op s₁.data) (M₂.attempt op s₂.data))
    (hs : enter M₁ s₁ t op timed w = some s₁') :
    ∃ s₂', enter M₂ s₂ t op timed w = some s₂' ∧ Alike R s₁' s₂' := by
  unfold enter at hs ⊢
  generalize M₁.attempt op s₁.data = o₁ at hm hs
  generalize M₂.attempt op s₂.data = o₂ at hm
  cases hm with
  | sleep =>
    dsimp only at hs ⊢
    split_ifs at hs with hw
    cases hs
    exact ⟨_, if_pos hw, h.goto _ _⟩
  | done hR =>
    dsimp only at hs ⊢
    refine wake_alike hwait ?_ hs
    exact ⟨hR, h.pc, by rw [h.log]⟩

/-- **Simulation**, step by step. -/
theorem step_alike (hwait : M₁.waitsOn = M₂.waitsOn) {a : Act Tid Call} (h : Alike R s₁ s₂)
    (hm : ∀ op, entering s₁ a = some op →
      Matches R (M₁.attempt op s₁.data) (M₂.attempt op s₂.data))
    (hs : step M₁ s₁ a = some s₁') : ∃ s₂', step M₂ s₂ a = some s₂' ∧ Alike R s₁' s₂' := by
  cases a with
  | call t op timed w =>
    simp only [step, ← h.pc] at hs ⊢
    split at hs
    · exact enter_alike hwait h (hm op rfl) hs
    · cases hs
  | resume t w =>
    simp only [step, ← h.pc] at hs ⊢
    split at hs
    · next op timed notified hp =>
      exact enter_alike hwait (h.goto t .idle) (hm op (by simp only [entering, hp])) hs
    · cases hs
  | spurious t =>
    simp only [step, ← h.pc] at hs ⊢
    split at hs
    · cases hs
      exact ⟨_, rfl, h.goto _ _⟩
    · cases hs
  | timeout t =>
    simp only [step, ← h.pc] at hs ⊢
    split at hs
    · cases hs
      exact ⟨_, rfl, h.goto _ _⟩
    · cases hs
  | expire t =>
    simp only [step, ← h.pc] at hs ⊢
    split at hs
    · cases hs
      exact ⟨_, rfl, h.data, rfl, by simp only [State.goto, h.log]⟩
    · cases hs

/-- **Simulation**, through a run in which `G` allows every step; `I` is an invariant of the monitor
that is run beside it. -/
theorem run_simulates {G : State Tid σ₁ Call Ret → Act Tid Call → Prop}
    {I : State Tid σ₂ Call Ret → Prop} (hwait : M₁.waitsOn = M₂.waitsOn)
    (hI : ∀ s a s', I s → step M₂ s a = some s' → I s')
    (hsim : ∀ s₁ s₂ a op, Alike R s₁ s₂ → I s₂ → G s₁ a → entering s₁ a = some op →
      Matches R (M₁.attempt op s₁.data) (M₂.attempt op s₂.data)) {as : List (Act Tid Call)}
    (hrun : run (step M₁) s₁ as = some s₁') (hG : Guarded (step M₁) G s₁ as)
    (h : Alike R s₁ s₂) (h₂ : I s₂) : ∃ s₂', I s₂' ∧ Alike R s₁' s₂' := by
  induction as generalizing s₁ s₂ with
  | nil =>
    rw [run_nil, Option.some.injEq] at hrun
    exact ⟨s₂, h₂, hrun ▸ h⟩
  | cons a as ih =>
    obtain ⟨t₁, hs₁, hrun⟩ := run_cons_some.mp hrun
    obtain ⟨ha, hG⟩ := (guarded_cons_of_step hs₁).mp hG
    obtain ⟨t₂, hs₂, ht⟩ := step_alike hwait h (fun op hop => hsim s₁ s₂ a op h h₂ ha hop) hs₁
    exact ih hrun hG ht (hI s₂ a t₂ h₂ hs₂)

end Simulation

/-! ## Queues -/

/-- The one condition variable of a queue without a bound. -/
inductive QueueCv where
  | notEmpty
  deriving DecidableEq

/-- A queue: its operations, what they do to a sequence, and which sequence a queue represents. -/
structure QueueImpl (α Op : Type) where
  Q : Type
  isEmpty : Q → Bool
  /-- An operation on the queue, with what it gives out, or `none` when the queue breaks. -/
  apply : Q → Op → Option (Option α × Q)
  isPop : Op → Bool
  /-- Does the operation notify? -/
  notifies : Op → Bool
  spec : List α → Op → Option α × List α
  Legal : List α → Op → Prop
  Represents : Q → List α → Prop
  isEmpty_iff : ∀ {q l}, Represents q l → (isEmpty q = true ↔ l = [])
  apply_spec : ∀ {q l op}, Represents q l → Legal l op → (isPop op = true → l ≠ []) →
    ∃ q', apply q op = some ((spec l op).1, q') ∧ Represents q' (spec l op).2
  length_pop : ∀ {l op}, isPop op = true → l ≠ [] → (spec l op).2.length + 1 = l.length
  length_le : ∀ {l op}, isPop op = false →
    (spec l op).2.length ≤ l.length + if notifies op = true then 1 else 0

namespace QueueImpl

variable {α Op Tid : Type} (I : QueueImpl α Op)

/-- What an operation notifies. -/
def notified (op : Op) : Option QueueCv := if I.notifies op = true then some .notEmpty else none

/-- The queue behind a mutex. `none` is a queue that is broken; nobody comes back from there. -/
def monitor : Spec (Option I.Q) Op (Option α) QueueCv where
  waitsOn op := if I.isPop op = true then some .notEmpty else none
  attempt
    | _, none => none
    | op, some q =>
      if I.isPop op = true ∧ I.isEmpty q = true then none
      else
        match I.apply q op with
        | none => some (none, none, none)
        | some (r, q') => some (some q', r, I.notified op)

/-- The sequence behind a mutex. -/
def sequence : Spec (List α) Op (Option α) QueueCv where
  waitsOn op := if I.isPop op = true then some .notEmpty else none
  attempt op l :=
    if I.isPop op = true ∧ l = [] then none
    else some ((I.spec l op).2, (I.spec l op).1, I.notified op)

/-- The operations one after the other, where a `pop` needs an item. -/
def seq (op : Op) (l : List α) : Option (List α × Option α) :=
  if I.isPop op = true ∧ l = [] then none else some ((I.spec l op).2, (I.spec l op).1)

/-- What the calls that returned leave in the queue. -/
def contents (log : List (Tid × Op × Option (Option α))) : List α :=
  log.foldl (fun l e => match e with
    | (_, op, some _) => (I.spec l op).2
    | (_, _, none) => l) []

/-- A critical section finds contents for which its operation is legal. -/
def LegalCall (s : State Tid (Option I.Q) Op (Option α)) (a : Act Tid Op) : Prop :=
  match entering s a with
  | some op => I.Legal (I.contents s.log) op
  | none => True

instance decidableLegalCall [∀ l op, Decidable (I.Legal l op)]
    (s : State Tid (Option I.Q) Op (Option α)) (a : Act Tid Op) : Decidable (I.LegalCall s a) :=
  match h : entering s a with
  | some op => decidable_of_iff (I.Legal (I.contents s.log) op) (by rw [LegalCall, h])
  | none => isTrue (by rw [LegalCall, h]; trivial)

/-- Is there an item? -/
def hasItem : Option I.Q → ℕ
  | some q => if I.isEmpty q = true then 0 else 1
  | none => 0

/-- A queue that represents the sequence. -/
def Holds (d : Option I.Q) (l : List α) : Prop := ∃ q, d = some q ∧ I.Represents q l

variable {I}

theorem Holds.hasItem_eq {d : Option I.Q} {l : List α} (h : I.Holds d l) :
    0 < I.hasItem d ↔ 0 < l.length := by
  obtain ⟨q, rfl, hq⟩ := h
  rw [hasItem, List.length_pos_iff, ← not_iff_not, not_lt, not_not, ← I.isEmpty_iff hq]
  split_ifs with he <;> simp [he]

theorem Holds.matches {d : Option I.Q} {l : List α} {op : Op} (h : I.Holds d l)
    (hleg : I.Legal l op) :
    Matches I.Holds (I.monitor.attempt op d) (I.sequence.attempt op l) := by
  obtain ⟨q, rfl, hq⟩ := h
  have hempty := I.isEmpty_iff hq
  by_cases hwait : I.isPop op = true ∧ l = []
  · rw [show I.sequence.attempt op l = none from if_pos hwait,
      show I.monitor.attempt op (some q) = none from if_pos ⟨hwait.1, hempty.mpr hwait.2⟩]
    exact .sleep
  · obtain ⟨q', happly, hq'⟩ := I.apply_spec hq hleg fun hp hl => hwait ⟨hp, hl⟩
    have hattempt : I.monitor.attempt op (some q) =
        some (some q', (I.spec l op).1, I.notified op) :=
      (if_neg fun hc => hwait ⟨hc.1, hempty.mp hc.2⟩).trans (by rw [happly])
    rw [show I.sequence.attempt op l = _ from if_neg hwait, hattempt]
    exact .done ⟨q', rfl, hq'⟩

theorem contents_of_replays {log : List (Tid × Op × Option (Option α))} {l l' : List α}
    (h : Replays I.seq l log l') :
    log.foldl (fun l e => match e with
      | (_, op, some _) => (I.spec l op).2
      | (_, _, none) => l) l = l' := by
  induction log generalizing l with
  | nil => exact h
  | cons e log ih =>
    obtain ⟨t, op, _ | r⟩ := e
    · exact ih h
    · obtain ⟨l₁, hop, h⟩ := h
      rw [seq] at hop
      split_ifs at hop
      cases hop
      exact ih h

theorem attempt_sequence {op : Op} {l l' : List α} {r : Option α} {n : Option QueueCv}
    (h : I.sequence.attempt op l = some (l', r, n)) :
    ¬ (I.isPop op = true ∧ l = []) ∧ l' = (I.spec l op).2 ∧ r = (I.spec l op).1 ∧
      n = I.notified op := by
  unfold sequence at h
  dsimp only at h
  split_ifs at h with hwait
  cases h
  exact ⟨hwait, rfl, rfl, rfl⟩

variable [DecidableEq Tid] [Fintype Tid]

theorem credit_sequence {s s' : State Tid (List α) Op (Option α)} {a : Act Tid Op}
    (h : Credit I.sequence .notEmpty (fun _ => true) List.length s)
    (hs : step I.sequence s a = some s') :
    Credit I.sequence .notEmpty (fun _ => true) List.length s' := by
  refine credit_step (fun op l _ ha => ?_) (fun op l l' r n ha => ?_) ?_ h hs
  · unfold sequence at ha
    dsimp only at ha
    split_ifs at ha with hwait
    rw [hwait.2]
    rfl
  · obtain ⟨hwait, rfl, -, rfl⟩ := attempt_sequence ha
    cases hpop : I.isPop op with
    | true =>
      have := I.length_pop hpop fun hl => hwait ⟨hpop, hl⟩
      omega
    | false =>
      have hle := I.length_le (l := l) hpop
      rw [notified]
      split_ifs at hle ⊢ <;> simp_all
  · cases a with
    | resume t w =>
      intro op timed _ hop l' r n ha
      obtain ⟨hwait, rfl, -, rfl⟩ := attempt_sequence ha
      have hpop : I.isPop op = true := by
        unfold sequence at hop
        dsimp only at hop
        split_ifs at hop with hpop
        exact hpop
      have := I.length_pop hpop fun hl => hwait ⟨hpop, hl⟩
      exact .inl (by omega)
    | _ => trivial

/-- The sequence at the end of a run. -/
structure Reached (I : QueueImpl α Op) (s : State Tid (List α) Op (Option α)) : Prop where
  replays : Replays I.seq [] s.log s.data
  credit : Credit I.sequence .notEmpty (fun _ => true) List.length s

theorem reached_step (s : State Tid (List α) Op (Option α)) (a : Act Tid Op)
    (s' : State Tid (List α) Op (Option α)) (h : Reached I s)
    (hs : step I.sequence s a = some s') : Reached I s' where
  replays := by
    rcases step_effect hs with ⟨t, op, r, n, ha, hl⟩ | ⟨hd, hl | ⟨t, op, hl⟩⟩
    · obtain ⟨hwait, hd, rfl, -⟩ := attempt_sequence ha
      rw [hl]
      exact replays_append h.replays ⟨_, if_neg hwait, hd.symm⟩
    · rw [hl, hd]
      exact h.replays
    · rw [hl, hd]
      exact replays_append h.replays rfl
  credit := credit_sequence h.credit hs

/-- **A queue behind a mutex is a sequence.** For any number of threads in any interleaving whose
calls are legal for the contents they find: the queue is never broken and represents its contents;
the calls that returned, in the order of their critical sections, are calls on a sequence with the
same results; and nobody sleeps before an item, unless somebody awakened has yet to look. -/
theorem linearizable_not_stranded {q : I.Q} (hq : I.Represents q []) {as : List (Act Tid Op)}
    {s : State Tid (Option I.Q) Op (Option α)}
    (hrun : run (step I.monitor) (.new Tid _ _ (some q)) as = some s)
    (hG : Guarded (step I.monitor) I.LegalCall (.new Tid _ _ (some q)) as) :
    I.Holds s.data (I.contents s.log) ∧ Replays I.seq [] s.log (I.contents s.log) ∧
      ¬ Stranded I.monitor .notEmpty (fun _ => true) I.hasItem s := by
  obtain ⟨s₂, h₂, h⟩ : ∃ s₂, Reached I s₂ ∧ Alike I.Holds s s₂ := by
    have hnew : Alike I.Holds (State.new Tid Op (Option α) (some q)) (State.new Tid _ _ []) :=
      ⟨⟨q, rfl, hq⟩, rfl, rfl⟩
    refine run_simulates rfl reached_step (fun s₁ s₂ a op h h₂ hleg hop => ?_) hrun hG hnew
      ⟨rfl, nofun⟩
    rw [LegalCall, hop, contents, contents_of_replays (h.log ▸ h₂.replays)] at hleg
    exact h.data.matches hleg
  have hcontents : I.contents s.log = s₂.data := contents_of_replays (h.log ▸ h₂.replays)
  rw [hcontents]
  refine ⟨h.data, h.log ▸ h₂.replays, fun ⟨hpos, ⟨t, ht⟩, hno⟩ => not_stranded h₂.credit ?_⟩
  refine ⟨h.data.hasItem_eq.mp hpos, ⟨t, ?_⟩, fun u op timed notified hu => ?_⟩
  · rwa [← h.pc, sleepsOn_congr rfl]
  · exact hno u op timed notified (h.pc ▸ hu)

end QueueImpl

end Monitor
