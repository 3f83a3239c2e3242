import Sperm.Itachi.Delivery

/-!
# The reference counts of contexts

A launch acquires the context. The reference goes with it from the poll queue to libev and to the
cpu queue, and the cpu thread releases it behind `onComplete`, which may have launched the context
again.

* `owes`: a cpu thread has completed a context and not released it yet.
* `RefInv`: the count is one more than the launches that are not released, the one under way
  included, and what was completed is released or owed by a thread.
* **`refCount_eq`**: this holds in every reachable state, so the count never gets to `0`.
-/

namespace Sperm.Itachi

open ThreadPool

variable {Ctx : Type} [DecidableEq Ctx] {n m : ℕ}

/-- The thread is between the start of `onComplete(c)` and its release. -/
def owes (c : Ctx) : CpuPc Ctx → ℕ
  | .complete d _ | .release d _ => if d = c then 1 else 0
  | _ => 0

/-- A launch that has acquired the context and not come back. -/
def underWay (s : State Ctx n m) (c : Ctx) : ℤ := if s.launchPc c = none then 0 else 1

structure RefInv (s : State Ctx n m) : Prop where
  refCount : ∀ c, s.refCount c = 1 + (s.accepted c - s.released c) + underWay s c
  owed : ∀ c, s.completed c = s.released c + tally (owes c) s.cpuPc
  alive : ∀ c, s.deleted c = false

variable {s s' : State Ctx n m} {c : Ctx}

theorem refInv_new (ctx : Ctx → Context) (mine : Ctx → Bool) : RefInv (.new n m ctx mine) where
  refCount _ := rfl
  owed c := by
    have h : tally (owes c) (fun _ : Fin n => CpuPc.top) = 0 := tally_const _ rfl
    exact h.symm.trans (Nat.zero_add _).symm
  alive _ := rfl

theorem RefInv.cpuGoto (h : RefInv s) {i : Fin n} {pc : CpuPc Ctx}
    (hpc : ∀ c, owes c pc = owes c (s.cpuPc i)) : RefInv (s.cpuGoto i pc) where
  refCount := h.refCount
  owed c := by
    have h₁ := tally_update (owes c) s.cpuPc i pc
    have h₂ := h.owed c
    rw [hpc] at h₁
    change s.completed c = s.released c + tally (owes c) (Function.update s.cpuPc i pc)
    omega
  alive := h.alive

theorem RefInv.push [NeZero n] [NeZero m] (h : RefInv s) (hs : s.push c = some s') :
    RefInv s' ∧ s'.launchPc = s.launchPc := by
  obtain ⟨next, cpuQueue, pollQueue, rfl⟩ := State.push_cases hs
  exact ⟨⟨h.refCount, h.owed, h.alive⟩, rfl⟩

theorem RefInv.released_le (h : RefInv s) (c : Ctx) : s.released c ≤ s.completed c := by
  have := h.owed c
  omega

theorem release_alive (h : RefInv s) (hc : 2 ≤ s.refCount c) (d : Ctx) :
    (s.release c).deleted d = false ∧
      (s.release c).refCount d = s.refCount d - if d = c then 1 else 0 := by
  have hne : s.refCount c - 1 ≠ 0 := by omega
  refine ⟨?_, ?_⟩
  · simp only [State.release, if_neg hne]
    exact h.alive d
  · simp only [State.release, Function.update_apply]
    split_ifs with hd
    · rw [hd]
    · omega

theorem underWay_launchGoto (s : State Ctx n m) (c d : Ctx) (pc : Option LaunchPc) :
    underWay (s.launchGoto c pc) d =
      if d = c then (if pc = none then 0 else 1) else underWay s d := by
  simp only [underWay, State.launchGoto, Function.update_apply]
  split_ifs <;> rfl

theorem RefInv.acquire (h : RefInv s) (hc : s.launchPc c = none) :
    RefInv ((s.acquire c).launchGoto c (some .acquired)) := by
  refine ⟨fun d => ?_, h.owed, h.alive⟩
  have hd := h.refCount d
  rw [underWay_launchGoto]
  change Function.update s.refCount c (s.refCount c + 1) d =
    1 + (s.accepted d - s.released d) + if d = c then 1 else underWay s d
  by_cases hdc : d = c
  · subst hdc
    rw [underWay, if_pos hc] at hd
    rw [Function.update_self, if_pos rfl]
    omega
  · rw [Function.update_of_ne hdc, if_neg hdc, hd]

theorem RefInv.dispatch (h : RefInv s) (hc : s.launchPc c = some .acquired) (pc : LaunchPc) :
    RefInv (s.launchGoto c (some pc)) := by
  refine ⟨fun d => ?_, h.owed, h.alive⟩
  have hd := h.refCount d
  rw [underWay_launchGoto]
  change s.refCount d = 1 + (s.accepted d - s.released d) + if d = c then 1 else underWay s d
  split_ifs with hdc
  · subst hdc
    rw [hd, underWay, if_neg (by rw [hc]; nofun)]
  · exact hd

/-- The reference of a launch that was accepted is from now on that of the handlers. -/
theorem RefInv.accept (h : RefInv s) (hc : s.launchPc c = some .push) : RefInv (s.accept c) := by
  refine ⟨fun d => ?_, h.owed, h.alive⟩
  have hd := h.refCount d
  rw [State.accept, underWay_launchGoto]
  change s.refCount d = 1 + ((Function.update s.accepted c (s.accepted c + 1) d : ℕ) -
    s.released d) + if d = c then 0 else underWay s d
  by_cases hdc : d = c
  · subst hdc
    rw [underWay, if_neg (by simp [hc])] at hd
    rw [Function.update_self, if_pos rfl]
    omega
  · rw [Function.update_of_ne hdc, if_neg hdc, hd]

theorem RefInv.rollback (h : RefInv s) (hle : s.released c ≤ s.accepted c)
    (hc : s.launchPc c = some .rollback) : RefInv ((s.release c).launchGoto c none) := by
  have href := h.refCount c
  rw [underWay, if_neg (by rw [hc]; nofun)] at href
  have hrel := release_alive h (c := c) (by omega)
  refine ⟨fun d => ?_, h.owed, fun d => (hrel d).1⟩
  have hd := h.refCount d
  rw [underWay_launchGoto]
  change (s.release c).refCount d =
    1 + (s.accepted d - s.released d) + if d = c then 0 else underWay s d
  rw [(hrel d).2]
  split_ifs with hdc
  · subst hdc
    omega
  · omega

theorem RefInv.onComplete (h : RefInv s) {i : Fin n} {k : After Ctx} (hi : s.cpuPc i = .hand c k) :
    RefInv ({ s with completed := Function.update s.completed c (s.completed c + 1) }.cpuGoto i
      (.complete c k)) := by
  refine ⟨h.refCount, fun d => ?_, h.alive⟩
  have h₁ := tally_update (owes d) s.cpuPc i (.complete c k)
  have h₂ := h.owed d
  rw [hi] at h₁
  change Function.update s.completed c (s.completed c + 1) d =
    s.released d + tally (owes d) (Function.update s.cpuPc i (.complete c k))
  rw [Function.update_apply]
  simp only [owes] at h₁
  split_ifs at h₁ ⊢ with h₃ h₄ h₄
  · subst h₃
    omega
  · exact absurd h₃.symm h₄
  · exact absurd h₄.symm h₃
  · omega

theorem RefInv.release (h : RefInv s) (hle : s.completed c ≤ s.accepted c) {i : Fin n}
    {k : After Ctx} (hi : s.cpuPc i = .release c k) :
    RefInv ({ s.release c with
      released := Function.update s.released c (s.released c + 1) }.cpuGoto i k.pc) := by
  have hpc : ∀ d, owes d k.pc = 0 := fun d => by cases k <;> rfl
  -- the thread itself owes the release, so the count is at least two
  have howed := h.owed c
  have hpos : 0 < tally (owes c) s.cpuPc :=
    tally_pos_iff.mpr ⟨i, by rw [hi, owes, if_pos rfl]; omega⟩
  have href := h.refCount c
  have hway : 0 ≤ underWay s c := by unfold underWay; split_ifs <;> omega
  have hrel := release_alive h (c := c) (by omega)
  refine ⟨fun d => ?_, fun d => ?_, fun d => (hrel d).1⟩
  · have hd := h.refCount d
    change (s.release c).refCount d = 1 + (s.accepted d -
      (Function.update s.released c (s.released c + 1) d : ℕ)) + underWay s d
    rw [(hrel d).2, Function.update_apply]
    split_ifs with hdc
    · subst hdc
      omega
    · omega
  · have h₁ := tally_update (owes d) s.cpuPc i k.pc
    have h₂ := h.owed d
    rw [hi, hpc] at h₁
    change s.completed d = Function.update s.released c (s.released c + 1) d +
      tally (owes d) (Function.update s.cpuPc i k.pc)
    rw [Function.update_apply]
    simp only [owes] at h₁
    split_ifs at h₁ ⊢ with h₃ h₄ h₄
    · subst h₃
      omega
    · exact absurd h₃.symm h₄
    · exact absurd h₄.symm h₃
    · omega

theorem CpuPc.Free.owes_eq {pc : CpuPc Ctx} (h : pc.Free) (c : Ctx) : owes c pc = 0 := by
  rcases h with rfl | rfl | rfl | rfl <;> rfl

variable [NeZero n] [NeZero m]

theorem refInv_step (hs : Step s s') (hle : ∀ c, s.completed c ≤ s.accepted c) (h : RefInv s) :
    RefInv s' := by
  cases hs with
  | acquire hc => exact h.acquire hc.2
  | dispatch hc pc => exact h.dispatch hc pc
  | launched hc hpush =>
    obtain ⟨h', heq⟩ := h.push hpush
    exact h'.accept (by rw [heq, hc])
  | rollback hc => exact h.rollback ((h.released_le _).trans (hle _)) hc
  | cpuFree hi hp => exact h.cpuGoto fun c => by rw [hi.owes_eq, hp.owes_eq]
  | pop hi hq =>
    refine RefInv.cpuGoto ?_ fun c => ?_
    · exact ⟨h.refCount, h.owed, h.alive⟩
    · dsimp only
      rw [hi]
      rfl
  | onComplete hi => exact h.onComplete hi
  | completed hi => exact h.cpuGoto fun c => by rw [hi]; rfl
  | release hi => exact h.release (hle _) hi
  | cpuClear hi =>
    refine RefInv.cpuGoto ?_ fun c => ?_
    · exact ⟨h.refCount, h.owed, h.alive⟩
    · dsimp only
      rw [hi]
      rfl
  | fetch hi => exact h.cpuGoto fun c => by rw [hi]; rfl
  | pollPush hi hpush =>
    obtain ⟨⟨q, next⟩, -, rfl⟩ := Option.map_eq_some_iff.mp hpush
    exact ⟨h.refCount, h.owed, h.alive⟩
  | _ => exact ⟨h.refCount, h.owed, h.alive⟩

/-- **Reference counts follow the launches**: in every reachable state the count of a context is `1`
plus the launches that were accepted and not released yet, plus one for a launch under way. So it is
at least `1` and no context is ever deleted; it stays far below the range of an `int32_t`. A launch
that is refused leaves the state as it was, or takes back what it acquired. -/
theorem refCount_eq {ctx : Ctx → Context} {mine : Ctx → Bool} {as : List (Act Ctx n m)}
    (hrun : StepRun.run step (.new n m ctx mine) as = some s) :
    (∀ c, s.released c ≤ s.accepted c ∧
      s.refCount c = 1 + (s.accepted c - s.released c) + (if s.launchPc c = none then 0 else 1) ∧
        1 ≤ s.refCount c ∧ s.refCount c ≤ n + 2 ∧ s.deleted c = false) ∧
      (∀ c s', s.mine c = false → step s (.launch c) = some s' → s' = s) ∧
        ∀ c s', s.launchPc c = some .rollback → step s (.launchStep c) = some s' →
          s'.refCount c = s.refCount c - 1 ∧ s'.accepted = s.accepted ∧ s'.deleted c = false := by
  have hinv : (∃ lists, Inv s lists) ∧ RefInv s := by
    refine StepRun.invariant_of_run (I := fun s => (∃ lists, Inv s lists) ∧ RefInv s)
      (fun s _ s' h hs => ?_) hrun ⟨⟨_, inv_new ctx mine⟩, refInv_new ctx mine⟩
    obtain ⟨⟨lists, hl⟩, hr⟩ := h
    obtain ⟨lists', hl', -⟩ := inv_step (step_cases hs) hl
    exact ⟨⟨lists', hl'⟩, refInv_step (step_cases hs) hl.completed_le hr⟩
  obtain ⟨⟨lists, hl⟩, hr⟩ := hinv
  have hle := hl.completed_le
  refine ⟨fun c => ?_, fun c s' hm hs => ?_, fun c s' hc hs => ?_⟩
  · have hcount := hl.count c
    have honce := hl.tidy.once c
    have hlaunch := hl.tidy.launching c
    have howed := hr.owed c
    have href := hr.refCount c
    have hcard : tally (owes c) s.cpuPc ≤ n := by
      refine (tally_le_card fun pc => ?_).trans (Fintype.card_fin n).le
      cases pc <;> simp only [owes] <;> first | omega | split_ifs <;> omega
    unfold underWay at href
    refine ⟨by omega, href, ?_, ?_, hr.alive c⟩
    · split_ifs at href <;> omega
    · split_ifs at href with hn
      · omega
      · have := hlaunch hn
        omega
  · simp only [step, hm, Bool.false_eq_true, if_false] at hs
    split_ifs at hs
    exact (Option.some.inj hs).symm
  · have halive := (refInv_step (step_cases hs) hle hr).alive c
    simp only [step, State.launchStep, hc] at hs
    split_ifs at hs
    cases hs
    exact ⟨Function.update_self _ _ _, rfl, halive⟩

/-- A context for the cpu. -/
def cpuContext : Context := ⟨.cpu, 1, false, 0, false, false, false⟩

/-- A context is launched and completed, and launched again from its `onComplete` before the first
launch is released; a launch after `stop` is taken back. -/
def relaunching : List (Act Bool 1 1) :=
  [.launch true, .launchStep true, .launchStep true, .cpu only false, .cpu only false,
    .cpu only false, .launch true, .launchStep true, .launchStep true, .stop, .launch false,
    .launchStep false, .launchStep false]

theorem refCount_relaunching : ∃ s,
    StepRun.run step (.new 1 1 (fun _ => cpuContext) fun _ => true) relaunching = some s ∧
      s.cpuPc 0 = .complete true .popped ∧ s.refCount true = 3 ∧ s.refCount false = 1 ∧
        ∀ c, s.deleted c = false := by
  have h : ((StepRun.run step (.new 1 1 (fun _ => cpuContext) fun _ => true) relaunching).any
      fun s => decide (s.cpuPc 0 = .complete true .popped ∧ s.refCount true = 3 ∧
        s.refCount false = 1)) = true := by
    decide +kernel
  obtain ⟨s, hs, hp⟩ := (Option.any_eq_true _ _).mp h
  obtain ⟨hpc, htrue, hfalse⟩ := of_decide_eq_true hp
  exact ⟨s, hs, hpc, htrue, hfalse, fun c => ((refCount_eq hs).1 c).2.2.2.2⟩

end Sperm.Itachi
