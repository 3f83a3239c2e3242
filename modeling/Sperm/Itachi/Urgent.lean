import Sperm.Itachi.Delivery

/-!
# Urgent contexts (`CpuHandler::push`, `CpuHandler::thread_function` in `itachi/handler.cc`)

An urgent context is put at the front of the queue of its cpu thread. What the thread has already
taken out of the queue, by `pop` or by `clear`, is out of its reach.

* `PushesUrgent`: the push of an urgent context, at the end of its `launch`.
* `Advance.behind`: one context stays behind another until that one is completed.
* **`urgent_before_queued`**: no context that was in the queue is started before an urgent one that
  was put in front of it.
* `drained_before_urgent`: a context of the drained chain is.
-/

namespace Sperm.Itachi

open StepRun

variable {Ctx : Type} [DecidableEq Ctx] {n m : ℕ} [NeZero n] [NeZero m]
  {s s₀ s' : State Ctx n m} {u w : Ctx} {i : Fin n}

/-- From `s₀` to `s`, `CpuHandler::push` puts the urgent context `u` into the queue of its
thread. -/
structure PushesUrgent (s₀ s : State Ctx n m) (u : Ctx) : Prop where
  launching : s₀.launchPc u = some .push
  type_eq : (s₀.ctx u).type = .cpu
  urgent : (s₀.ctx u).urgent = true
  step_eq : step s₀ (.launchStep u) = some s

/-- The context waits for cpu thread `i`: it was pushed, and its `onComplete` has not started. -/
def WaitsFor (s : State Ctx n m) (i : Fin n) (c : Ctx) : Prop :=
  At s (.cpuQueue i) c ∨ At s (.cpuChain i) c

/-- Between `s` and `s'`, the `onComplete` of `w` starts only when that of `u` has started. -/
def StartsAfter (s s' : State Ctx n m) (u w : Ctx) : Prop :=
  s.completed w < s'.completed w → s.completed u < s'.completed u

theorem PushesUrgent.head_eq (h : PushesUrgent s₀ s u) :
    (s.cpuQueue (s₀.cpuId u)).head = some u := by
  have hstep := h.step_eq
  unfold step at hstep
  split_ifs at hstep
  simp only [State.launchStep, h.launching, State.push, h.type_eq, State.cpuPush, h.urgent, if_true,
    Option.map_some, Option.some.injEq] at hstep
  subst hstep
  simp only [State.accept, State.launchGoto, Function.update_self, SLinkedList.pushFront]
  split_ifs <;> rfl

omit [NeZero n] [NeZero m] in
/-- The contexts behind `u` stay behind it until `u` is completed. -/
theorem Advance.behind {l l' : List Ctx} (h : Advance s s' l l') (hnd : l.Nodup)
    (hl : List.Sublist [u, w] l) :
    s'.completed u = s.completed u + 1 ∨
      (s'.completed w = s.completed w ∧ List.Sublist [u, w] l') := by
  have hw : w ∈ l := hl.subset (List.mem_cons_of_mem _ List.mem_cons_self)
  cases h with
  | same hc => exact .inr ⟨by rw [hc], hl⟩
  | insert hc =>
    refine .inr ⟨by rw [hc], hl.trans ?_⟩
    exact (List.sublist_cons_self _ _).append_left _
  | @first c l' hc =>
    by_cases hcu : u = c
    · subst hcu
      exact .inl (by rw [hc, Function.update_self])
    · -- `u` is not the first, so both are behind it
      have hl' : List.Sublist [u, w] l' := by
        cases hl with
        | cons _ h => exact h
        | cons_cons _ _ => exact absurd rfl hcu
      have hwc : w ≠ c := by
        rintro rfl
        exact (List.nodup_cons.mp hnd).1 (hl'.subset (List.mem_cons_of_mem _ List.mem_cons_self))
      exact .inr ⟨by rw [hc, Function.update_of_ne hwc], hl'⟩
  | other hnot hc =>
    have hwc := ne_of_mem_of_not_mem hw hnot
    exact .inr ⟨by rw [hc, Function.update_of_ne hwc], hl⟩

omit [NeZero n] [NeZero m] in
theorem Advance.completed_le {l l' : List Ctx} (h : Advance s s' l l') (c : Ctx) :
    s.completed c ≤ s'.completed c := by
  cases h with
  | same hc | insert hc => rw [hc]
  | first hc | other _ hc =>
    rw [hc, Function.update_apply]
    split_ifs with hcd
    · rw [hcd]
      exact Nat.le_succ _
    · exact le_rfl

theorem Inv.nodup_order {lists : Place n m → List Ctx} (h : Inv s lists) (i : Fin n) :
    (order lists i).Nodup := by
  rw [List.nodup_iff_count_le_one]
  intro c
  rw [order, List.count_append]
  exact (ThreadPool.add_le_tally (List.count c) lists (by simp)).trans (h.tally_le c)

/-- What holds of the states `t` of a run from `s` on: `u` is completed, or `w` is not and still
behind `u`. -/
def Behind (s : State Ctx n m) (u w : Ctx) (i : Fin n) (t : State Ctx n m) : Prop :=
  ∃ lists, Inv t lists ∧ s.completed u ≤ t.completed u ∧ (s.completed u < t.completed u ∨
    (t.completed w = s.completed w ∧ List.Sublist [u, w] (order lists i)))

theorem behind_step {t t' : State Ctx n m} (h : Behind s u w i t) (hs : Step t t') :
    Behind s u w i t' := by
  obtain ⟨lists, hinv, hle, h⟩ := h
  obtain ⟨lists', hinv', hadv⟩ := inv_step hs hinv
  have hle' := (hadv i).completed_le u
  refine ⟨lists', hinv', hle.trans hle', ?_⟩
  rcases h with h | ⟨hw, hl⟩
  · exact .inl (h.trans_le hle')
  · rcases (hadv i).behind (hinv.nodup_order i) hl with hu | ⟨hw', hl'⟩
    · exact .inl (by omega)
    · exact .inr ⟨hw'.trans hw, hl'⟩

theorem PushesUrgent.behind {lists : Place n m → List Ctx} (h : PushesUrgent s₀ s u)
    (hinv : Inv s lists) (hw : At s (.cpuQueue (s₀.cpuId u)) w) (hne : w ≠ u) :
    Behind s u w (s₀.cpuId u) s := by
  refine ⟨lists, hinv, le_rfl, .inr ⟨rfl, ?_⟩⟩
  have hmem := hinv.at_iff.mp hw
  have hhead := (holds_queueView.mp (hinv.holds (.cpuQueue (s₀.cpuId u)))).links.head?_eq
  rw [h.head_eq] at hhead
  obtain ⟨l, hl⟩ := List.head?_eq_some_iff.mp hhead.symm
  rw [hl, List.mem_cons] at hmem
  rw [order, hl]
  refine List.sublist_append_of_sublist_right (List.Sublist.cons_cons u ?_)
  exact List.singleton_sublist.mpr (hmem.resolve_left hne)

/-- **An urgent context overtakes what is in the queue**: whatever the interleaving, once its push
has returned, no context that is still in the queue of its thread has its `onComplete` started
before the urgent one's. -/
theorem urgent_before_queued {ctx : Ctx → Context} {mine : Ctx → Bool} {as bs : List (Act Ctx n m)}
    (hrun : run step (.new n m ctx mine) as = some s₀) (hpush : PushesUrgent s₀ s u)
    (hw : At s (.cpuQueue (s₀.cpuId u)) w) (hne : w ≠ u) (hrun' : run step s bs = some s') :
    StartsAfter s s' u w := by
  obtain ⟨lists₀, hinv₀⟩ := exists_inv_of_run hrun
  obtain ⟨lists, hinv, -⟩ := inv_step (step_cases hpush.step_eq) hinv₀
  obtain ⟨_, -, -, h⟩ := invariant_of_run (I := Behind s u w (s₀.cpuId u))
    (fun _ _ _ ht hs => behind_step ht (step_cases hs)) hrun' (hpush.behind hinv hw hne)
  intro hlt
  rcases h with h | ⟨h, -⟩
  · exact h
  · omega

inductive Trio where
  | first
  | second
  | urgent
  deriving DecidableEq

/-- Three contexts for the cpu, the last of them urgent. -/
def lastUrgent (c : Trio) : Context := ⟨.cpu, 1, c = .urgent, 0, false, false, false⟩

/-- The calls and the steps of a `launch`, up to its push. -/
def launchActs (c : Trio) : List (Act Trio 1 1) := [.launch c, .launchStep c]

/-- The next `k` steps of the cpu thread. -/
def cpuActs (k : ℕ) : List (Act Trio 1 1) := List.replicate k (.cpu only false)

/-- A context is launched, and then the urgent one up to its push. -/
def urgentBehindQueued : List (Act Trio 1 1) :=
  launchActs .second ++ [.launchStep .second] ++ launchActs .urgent

/-- The cpu thread pops a context, completes it, and drains another one into its chain. Then the
urgent one is launched up to its push. -/
def urgentBehindDrained : List (Act Trio 1 1) :=
  launchActs .first ++ [.launchStep .first] ++ cpuActs 2 ++ launchActs .second ++
    [.launchStep .second] ++ cpuActs 4 ++ launchActs .urgent

/-- After `as` comes the push of the urgent context, and then `bs`: `P` holds of the states behind
the push and at the end. -/
def checkUrgent (as bs : List (Act Trio 1 1)) (P : State Trio 1 1 → State Trio 1 1 → Bool) :
    Bool :=
  (run step (.new 1 1 lastUrgent fun _ => true) as).any fun s₀ =>
    decide (s₀.launchPc .urgent = some .push ∧ (s₀.ctx .urgent).type = .cpu ∧
      (s₀.ctx .urgent).urgent = true) &&
      (step s₀ (.launchStep .urgent)).any fun s => (run step s bs).any fun s' => P s s'

theorem exists_of_checkUrgent {as bs : List (Act Trio 1 1)}
    {P : State Trio 1 1 → State Trio 1 1 → Bool} (h : checkUrgent as bs P = true) :
    ∃ s₀ s s', run step (.new 1 1 lastUrgent fun _ => true) as = some s₀ ∧
      PushesUrgent s₀ s .urgent ∧ run step s bs = some s' ∧ P s s' = true := by
  obtain ⟨s₀, hs₀, h⟩ := (Option.any_eq_true _ _).mp h
  rw [Bool.and_eq_true] at h
  obtain ⟨hpc, hty, hurg⟩ := of_decide_eq_true h.1
  obtain ⟨s, hs, h⟩ := (Option.any_eq_true _ _).mp h.2
  obtain ⟨s', hs', h⟩ := (Option.any_eq_true _ _).mp h
  exact ⟨s₀, s, s', hs₀, ⟨hpc, hty, hurg, hs⟩, hs', h⟩

/-- Both contexts are completed, the urgent one first. -/
theorem urgent_before_queued_one : ∃ s₀ s s' : State Trio 1 1,
    run step (.new 1 1 lastUrgent fun _ => true) urgentBehindQueued = some s₀ ∧
      PushesUrgent s₀ s .urgent ∧ At s (.cpuQueue only) .second ∧
        run step s (cpuActs 8) = some s' ∧ s.completed .second < s'.completed .second ∧
          s.completed .urgent < s'.completed .urgent := by
  have h : checkUrgent urgentBehindQueued (cpuActs 8) (fun s s' =>
      decide ((s.cpuQueue only).head = some .urgent ∧ s.next .urgent = some .second ∧
        s.completed .second < s'.completed .second)) = true := by
    decide +kernel
  obtain ⟨s₀, s, s', hs₀, hpush, hs', h⟩ := exists_of_checkUrgent h
  obtain ⟨hhead, hnext, hlt⟩ := of_decide_eq_true h
  have hat : At s (.cpuQueue only) .second := .inr ⟨.urgent, hhead, .single hnext⟩
  have hid : s₀.cpuId .urgent = only := Subsingleton.elim _ _
  refine ⟨s₀, s, s', hs₀, hpush, hat, hs', hlt, ?_⟩
  exact urgent_before_queued hs₀ hpush (hid ▸ hat) (by decide) hs' hlt

/-- A context that was pushed earlier is in the drained chain when the urgent one is pushed, and is
completed first. -/
theorem drained_before_urgent : ∃ s₀ s s' : State Trio 1 1,
    run step (.new 1 1 lastUrgent fun _ => true) urgentBehindDrained = some s₀ ∧
      PushesUrgent s₀ s .urgent ∧ (s.ctx .second).urgent = false ∧ WaitsFor s only .second ∧
        run step s (cpuActs 2) = some s' ∧ ¬ StartsAfter s s' .urgent .second := by
  have h : checkUrgent urgentBehindDrained (cpuActs 2) (fun s s' =>
      decide ((s.ctx .second).urgent = false ∧ s.cpuPc only = .walk (some .second) ∧
        s.completed .second < s'.completed .second ∧ s.completed .urgent = s'.completed .urgent)) =
          true := by
    decide +kernel
  obtain ⟨s₀, s, s', hs₀, hpush, hs', h⟩ := exists_of_checkUrgent h
  obtain ⟨hurg, hpc, hlt, heq⟩ := of_decide_eq_true h
  have hat : At s (.cpuChain only) .second := by
    refine .inr ⟨.second, ?_, .refl⟩
    rw [view, hpc]
    rfl
  refine ⟨s₀, s, s', hs₀, hpush, hurg, .inr hat, hs', fun hstarts => ?_⟩
  exact absurd (hstarts hlt) (by omega)

end Sperm.Itachi
