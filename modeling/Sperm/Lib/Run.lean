import Mathlib.Data.List.Basic

/-!
# Runs of a partial step function

A system is a step function `step : σ → ι → Option σ`: `step s a` is the state after action `a`, or
`none` when `a` is not enabled in `s`. Every choice the environment makes is part of the action, so
that a run is a list of actions and can be evaluated.

* `run`: the state after a list of actions; `run_cons_some`.
* `Guarded G`: every action of the run is taken in a state where `G` allows it.
* **`invariant_of_guarded`**: what every allowed step keeps holds after every guarded run.
* **`guarded_iff_guarded`**: two guards that agree along an invariant guard the same runs.
* `exists_first_refused`: a run that is not guarded has a first action that `G` refuses.
* `Always P`: `P` holds in every state of the run; `invariant_of_always`. **`always_iff_guarded`**:
  a guard that every allowed step needs and no other step can do without says exactly when.
* `CanReach`: some run leads there. `CanReach.lift`: a run inside a larger system;
  **`CanReach.forall_done`**: parts that can be brought to their ends one by one.
* `countSteps`: how many steps of a run are of a kind. **`countSteps_le_of_potential`**: the
  potential method, for steps of one kind that are paid for by steps of another.
-/

namespace StepRun

variable {σ ι : Type} {step : σ → ι → Option σ} {G : σ → ι → Prop}

/-- The state after the actions, or `none` when one of them is not enabled. -/
def run (step : σ → ι → Option σ) : σ → List ι → Option σ
  | s, [] => some s
  | s, a :: l => (step s a).bind fun s' => run step s' l

/-- Every action is taken in a state where `G` allows it. -/
def Guarded (step : σ → ι → Option σ) (G : σ → ι → Prop) : σ → List ι → Prop
  | _, [] => True
  | s, a :: l => G s a ∧
      match step s a with
      | none => True
      | some s' => Guarded step G s' l

instance decidableGuarded [∀ s a, Decidable (G s a)] :
    ∀ s l, Decidable (Guarded step G s l)
  | _, [] => isTrue trivial
  | s, a :: l =>
    haveI : Decidable (match step s a with
        | none => True
        | some s' => Guarded step G s' l) :=
      match step s a with
      | none => isTrue trivial
      | some s' => decidableGuarded s' l
    inferInstanceAs (Decidable (_ ∧ _))

@[simp] theorem run_nil (s : σ) : run step s [] = some s := rfl

theorem run_cons_some {s s' : σ} {a : ι} {l : List ι} :
    run step s (a :: l) = some s' ↔ ∃ s₁, step s a = some s₁ ∧ run step s₁ l = some s' := by
  rw [run, Option.bind_eq_some_iff]

theorem guarded_cons_of_step {s s' : σ} {a : ι} {l : List ι} (h : step s a = some s') :
    Guarded step G s (a :: l) ↔ G s a ∧ Guarded step G s' l := by
  rw [Guarded, h]

theorem guarded_congr {G' : σ → ι → Prop} (h : ∀ s a, G s a ↔ G' s a) (s : σ) (l : List ι) :
    Guarded step G s l ↔ Guarded step G' s l := by
  rw [show G = G' from funext₂ fun s a => propext (h s a)]

/-- **The invariant rule.** What every allowed step keeps holds at the end of a guarded run. -/
theorem invariant_of_guarded {I : σ → Prop}
    (hstep : ∀ s a s', G s a → I s → step s a = some s' → I s') {s s' : σ} {l : List ι}
    (hrun : run step s l = some s') (hG : Guarded step G s l) (hI : I s) : I s' := by
  induction l generalizing s with
  | nil => rw [run_nil, Option.some.injEq] at hrun; exact hrun ▸ hI
  | cons a l ih =>
    obtain ⟨s₁, h₁, h₂⟩ := run_cons_some.mp hrun
    obtain ⟨hG₁, hG₂⟩ := (guarded_cons_of_step h₁).mp hG
    exact ih h₂ hG₂ (hstep s a s₁ hG₁ hI h₁)

/-- **Equivalent guards along an invariant.** Two guards that agree wherever `I` holds and `F`
allows the action guard the same runs among those that `F` allows, if `I` survives what `G`
allows. -/
theorem guarded_iff_guarded {I : σ → Prop} {F G' : σ → ι → Prop}
    (hiff : ∀ s a, I s → F s a → (G s a ↔ G' s a))
    (hstep : ∀ s a s', I s → F s a → G s a → step s a = some s' → I s') {s : σ} {l : List ι}
    (hI : I s) (hF : Guarded step F s l) : Guarded step G s l ↔ Guarded step G' s l := by
  induction l generalizing s with
  | nil => exact Iff.rfl
  | cons a l ih =>
    have ha := hiff s a hI hF.1
    cases hs : step s a with
    | none => simp only [Guarded, hs, ha]
    | some s' =>
      have hF' := ((guarded_cons_of_step hs).mp hF).2
      rw [guarded_cons_of_step hs, guarded_cons_of_step hs, ← ha]
      exact and_congr_right fun hG => ih (hstep s a s' hI hF.1 hG hs) hF'

theorem guarded_of_forall (h : ∀ s a, G s a) (s : σ) (l : List ι) : Guarded step G s l := by
  induction l generalizing s with
  | nil => trivial
  | cons a l ih =>
    refine ⟨h s a, ?_⟩
    cases step s a with
    | none => trivial
    | some s' => exact ih s'

/-- The invariant rule for steps that need no guard. -/
theorem invariant_of_run {I : σ → Prop} (hstep : ∀ s a s', I s → step s a = some s' → I s')
    {s s' : σ} {l : List ι} (hrun : run step s l = some s') (hI : I s) : I s' :=
  invariant_of_guarded (G := fun _ _ => True) (fun s a s' _ => hstep s a s') hrun
    (guarded_of_forall (fun _ _ => trivial) s l) hI

/-- **The first refused action.** A run that is not guarded is guarded up to some action that `G`
refuses. -/
theorem exists_first_refused {s s' : σ} {l : List ι} (hrun : run step s l = some s')
    (hG : ¬ Guarded step G s l) :
    ∃ l₁ a l₂ s₁ s₂, l = l₁ ++ a :: l₂ ∧ run step s l₁ = some s₁ ∧ Guarded step G s l₁ ∧
      ¬ G s₁ a ∧ step s₁ a = some s₂ ∧ run step s₂ l₂ = some s' := by
  induction l generalizing s with
  | nil => exact absurd trivial hG
  | cons a l ih =>
    obtain ⟨s₁, h₁, h₂⟩ := run_cons_some.mp hrun
    by_cases ha : G s a
    · have hl : ¬ Guarded step G s₁ l := fun h => hG ((guarded_cons_of_step h₁).mpr ⟨ha, h⟩)
      obtain ⟨l₁, b, l₂, t₁, t₂, rfl, hr, hg, hb, hs, hr'⟩ := ih h₂ hl
      exact ⟨a :: l₁, b, l₂, t₁, t₂, rfl, run_cons_some.mpr ⟨s₁, h₁, hr⟩,
        (guarded_cons_of_step h₁).mpr ⟨ha, hg⟩, hb, hs, hr'⟩
    · exact ⟨[], a, l, s, s₁, rfl, rfl, trivial, ha, h₁, h₂⟩

/-- `P` holds in every state of the run. -/
def Always (step : σ → ι → Option σ) (P : σ → Prop) : σ → List ι → Prop
  | s, [] => P s
  | s, a :: l => P s ∧
      match step s a with
      | none => True
      | some s' => Always step P s' l

theorem always_cons_of_step {P : σ → Prop} {s s' : σ} {a : ι} {l : List ι}
    (h : step s a = some s') : Always step P s (a :: l) ↔ P s ∧ Always step P s' l := by
  rw [Always, h]

instance decidableAlways {P : σ → Prop} [∀ s, Decidable (P s)] :
    ∀ s l, Decidable (Always step P s l)
  | s, [] => inferInstanceAs (Decidable (P s))
  | s, a :: l =>
    haveI : Decidable (match step s a with
        | none => True
        | some s' => Always step P s' l) :=
      match step s a with
      | none => isTrue trivial
      | some s' => decidableAlways s' l
    inferInstanceAs (Decidable (_ ∧ _))

theorem Always.mono {P Q : σ → Prop} (hPQ : ∀ s, P s → Q s) {s : σ} {l : List ι}
    (h : Always step P s l) : Always step Q s l := by
  induction l generalizing s with
  | nil => exact hPQ s h
  | cons a l ih =>
    rw [Always] at h ⊢
    refine ⟨hPQ s h.1, ?_⟩
    cases hs : step s a with
    | none => trivial
    | some s' =>
      rw [hs] at h
      exact ih h.2

theorem Always.first {P : σ → Prop} {s : σ} {l : List ι} (h : Always step P s l) : P s := by
  cases l with
  | nil => exact h
  | cons a l => exact h.1

theorem Always.last {P : σ → Prop} {s s' : σ} {l : List ι} (h : Always step P s l)
    (hrun : run step s l = some s') : P s' := by
  induction l generalizing s with
  | nil =>
    rw [run_nil, Option.some.injEq] at hrun
    exact hrun ▸ h
  | cons a l ih =>
    obtain ⟨s₁, h₁, h₂⟩ := run_cons_some.mp hrun
    exact ih ((always_cons_of_step h₁).mp h).2 h₂

/-- The invariant rule where every state is known to be in `P`. -/
theorem invariant_of_always {I P : σ → Prop}
    (hstep : ∀ s a s', P s → I s → step s a = some s' → I s') {s s' : σ} {l : List ι}
    (hrun : run step s l = some s') (hP : Always step P s l) (hI : I s) : I s' := by
  induction l generalizing s with
  | nil =>
    rw [run_nil, Option.some.injEq] at hrun
    exact hrun ▸ hI
  | cons a l ih =>
    obtain ⟨s₁, h₁, h₂⟩ := run_cons_some.mp hrun
    obtain ⟨hs, hl⟩ := (always_cons_of_step h₁).mp hP
    exact ih h₂ hl (hstep s a s₁ hs hI h₁)

/-- **The exact guard.** Let every step keep `I`, let the steps that `G` allows keep `P`, and let
the others break it. Then `P` holds in every state of a run exactly when `G` allows all of its
steps. -/
theorem always_iff_guarded {I P : σ → Prop} (hI : ∀ s a s', I s → step s a = some s' → I s')
    (hkeep : ∀ s a s', G s a → I s → P s → step s a = some s' → P s')
    (hbreak : ∀ s a s', ¬ G s a → I s → step s a = some s' → ¬ P s') {s s' : σ} {l : List ι}
    (hrun : run step s l = some s') (h₀ : I s) (hP : P s) :
    Always step P s l ↔ Guarded step G s l := by
  induction l generalizing s with
  | nil => exact ⟨fun _ => trivial, fun _ => hP⟩
  | cons a l ih =>
    obtain ⟨s₁, h₁, h₂⟩ := run_cons_some.mp hrun
    rw [always_cons_of_step h₁, guarded_cons_of_step h₁]
    by_cases ha : G s a
    · have hP₁ := hkeep s a s₁ ha h₀ hP h₁
      rw [ih h₂ (hI s a s₁ h₀ h₁) hP₁]
      exact ⟨fun h => ⟨ha, h.2⟩, fun h => ⟨hP, h.2⟩⟩
    · constructor
      · intro h
        exact absurd h.2.first (hbreak s a s₁ ha h₀ h₁)
      · intro h
        exact absurd h.1 ha

/-! ## What some run can do -/

/-- Some run leads from the one state to the other. -/
def CanReach (step : σ → ι → Option σ) (s s' : σ) : Prop := ∃ l, run step s l = some s'

theorem run_append {s s' : σ} {l₁ l₂ : List ι} :
    run step s (l₁ ++ l₂) = some s' ↔ ∃ s₁, run step s l₁ = some s₁ ∧ run step s₁ l₂ = some s' := by
  induction l₁ generalizing s with
  | nil => simp
  | cons a l₁ ih =>
    rw [List.cons_append, run_cons_some]
    simp only [ih, run_cons_some]
    constructor
    · rintro ⟨s₁, h₁, s₂, h₂, h₃⟩
      exact ⟨s₂, ⟨s₁, h₁, h₂⟩, h₃⟩
    · rintro ⟨s₂, ⟨s₁, h₁, h₂⟩, h₃⟩
      exact ⟨s₁, h₁, s₂, h₂, h₃⟩

namespace CanReach

variable {s s₁ s' : σ} {a : ι}

theorem refl (s : σ) : CanReach step s s := ⟨[], rfl⟩

theorem trans (h : CanReach step s s₁) (h' : CanReach step s₁ s') : CanReach step s s' := by
  obtain ⟨l, hl⟩ := h
  obtain ⟨l', hl'⟩ := h'
  exact ⟨l ++ l', run_append.mpr ⟨s₁, hl, hl'⟩⟩

theorem head (h : step s a = some s₁) (h' : CanReach step s₁ s') : CanReach step s s' := by
  obtain ⟨l, hl⟩ := h'
  exact ⟨a :: l, run_cons_some.mpr ⟨s₁, h, hl⟩⟩

theorem invariant {I : σ → Prop} (hstep : ∀ s a s', I s → step s a = some s' → I s')
    (h : CanReach step s s') (hI : I s) : I s' := by
  obtain ⟨l, hl⟩ := h
  exact invariant_of_run hstep hl hI

/-- A run of a part is a run of the whole, as long as each of its steps is one. -/
theorem lift {τ κ : Type} {step' : τ → κ → Option τ} {I : σ → Prop} (f : σ → τ)
    (hstep : ∀ s a s', I s → step s a = some s' → I s' ∧ ∃ b, step' (f s) b = some (f s'))
    (h : CanReach step s s') (hI : I s) : CanReach step' (f s) (f s') := by
  obtain ⟨l, hl⟩ := h
  induction l generalizing s with
  | nil =>
    rw [run_nil, Option.some.injEq] at hl
    exact hl ▸ refl _
  | cons a l ih =>
    obtain ⟨s₁, h₁, h₂⟩ := run_cons_some.mp hl
    obtain ⟨hI₁, b, hb⟩ := hstep s a s₁ hI h₁
    exact head hb (ih hI₁ h₂)

/-- **One by one**: when every part can be brought to its end, with the others left there if they
are at theirs, some run brings all of them there. -/
theorem forall_done {τ : Type} {I : σ → Prop} {Done : τ → σ → Prop}
    (hone : ∀ s i, I s → ∃ s', CanReach step s s' ∧ I s' ∧ Done i s' ∧
      ∀ j, j ≠ i → Done j s → Done j s') (l : List τ) (hI : I s) :
    ∃ s', CanReach step s s' ∧ I s' ∧ ∀ i ∈ l, Done i s' := by
  induction l with
  | nil => exact ⟨s, refl s, hI, nofun⟩
  | cons i l ih =>
    obtain ⟨s₁, hreach, hI₁, hdone⟩ := ih
    obtain ⟨s₂, hreach', hI₂, hi, hother⟩ := hone s₁ i hI₁
    refine ⟨s₂, hreach.trans hreach', hI₂, fun j hj => ?_⟩
    by_cases hji : j = i
    · exact hji ▸ hi
    · exact hother j hji (hdone j ((List.mem_cons.mp hj).resolve_left hji))

end CanReach

/-! ## Counting steps -/

/-- The number of steps of the run of which `p` is true. -/
def countSteps (step : σ → ι → Option σ) (p : σ → ι → Bool) : σ → List ι → ℕ
  | _, [] => 0
  | s, a :: l =>
    match step s a with
    | none => 0
    | some s' => (p s a).toNat + countSteps step p s' l

theorem countSteps_cons_of_step {p : σ → ι → Bool} {s s' : σ} {a : ι} {l : List ι}
    (h : step s a = some s') :
    countSteps step p s (a :: l) = (p s a).toNat + countSteps step p s' l := by
  rw [countSteps, h]

/-- **The potential method.** When a step of kind `p` takes `1` off the potential, a step of kind
`q` adds at most `k`, and no other step adds anything, then there are at most `k` steps of kind `p`
for each of kind `q`, and as many more as the potential was at first. -/
theorem countSteps_le_of_potential {p q : σ → ι → Bool} (potential : σ → ℕ) {k : ℕ}
    (hstep : ∀ s a s', step s a = some s' →
      potential s' + (p s a).toNat ≤ potential s + k * (q s a).toNat) {s s' : σ} {l : List ι}
    (hrun : run step s l = some s') :
    potential s' + countSteps step p s l ≤ potential s + k * countSteps step q s l := by
  induction l generalizing s with
  | nil =>
    rw [run_nil, Option.some.injEq] at hrun
    exact hrun ▸ Nat.le_refl _
  | cons a l ih =>
    obtain ⟨s₁, h₁, h₂⟩ := run_cons_some.mp hrun
    have hhead := hstep s a s₁ h₁
    have htail := ih h₂
    rw [countSteps_cons_of_step h₁, countSteps_cons_of_step h₁, Nat.mul_add]
    omega

end StepRun
