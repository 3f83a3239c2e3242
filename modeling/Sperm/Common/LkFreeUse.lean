import Mathlib.Data.Fintype.Card
import Mathlib.Data.Fintype.Pi
import Sperm.Common.LkFree

/-!
# Using `SampleMemoryAllcator`

* `OneAllocator`: no `alloc` begins while another one is under way; `free` is not restricted.
* `Shared`: the free list and the entries in hand are the whole arena, and the `alloc` that is under
  way has read an entry of the free list and the `next` that is there.
* **`safe_of_oneAllocator`**: such a use is safe and loses no entry.
* `Stale`: a thread whose compare-and-swap is bound to fail. **`lost_le_won`**: in every run, safe
  or not, a compare-and-swap that fails is paid for by one that succeeds.
-/

namespace Sperm.LkFree

open StepRun Chain

/-- Is the thread inside `alloc`? -/
def Pc.allocating : Pc → Bool
  | .allocLoop => true
  | .allocNext _ => true
  | .allocCas _ _ => true
  | _ => false

variable {Tid : Type}

/-- An `alloc` begins only while no other one is under way. -/
def OneAllocator (s : State Tid) : Act Tid → Prop
  | .callAlloc _ => ∀ u, (s.pc u).allocating = false
  | _ => True

instance [Fintype Tid] (s : State Tid) (a : Act Tid) : Decidable (OneAllocator s a) :=
  match a with
  | .callAlloc _ => inferInstanceAs (Decidable (∀ u, (s.pc u).allocating = false))
  | .callFree _ _ | .readHead _ | .readNext _ | .writeNext _ | .cas _ => .isTrue trivial

/-! ## One `alloc` at a time -/

/-- What a thread inside `alloc` has read is what the free list `l` says. -/
def Pc.Reads (next : ℕ → Option ℕ) (l : List ℕ) : Pc → Prop
  | .allocNext x => x ∈ l
  | .allocCas x n => x ∈ l ∧ next x = n
  | _ => True

/-- The arena is shared between the free list and the threads. -/
structure Shared (number : ℕ) (l : List ℕ) (s : State Tid) : Prop extends Inv number l s where
  covers : ∀ x < number, x ∈ l ∨ ∃ t, x ∈ s.held t
  alone : ∀ t u, (s.pc t).allocating = true → (s.pc u).allocating = true → t = u
  reads : ∀ t, (s.pc t).Reads s.next l

theorem shared_new {number : ℕ} (hn : 0 < number) :
    Shared number (List.range' 0 number) (State.new Tid number) where
  toInv := inv_new hn
  covers x hx := .inl (List.mem_range'_1.mpr ⟨Nat.zero_le _, by omega⟩)
  alone _ _ ht _ := by cases ht
  reads _ := trivial

theorem Pc.reads_of_not_allocating {next : ℕ → Option ℕ} {l : List ℕ} {p : Pc}
    (h : p.allocating = false) : p.Reads next l := by
  cases p with
  | allocLoop => trivial
  | allocNext x => cases h
  | allocCas x n => cases h
  | _ => trivial

theorem Pc.Reads.mono {next next' : ℕ → Option ℕ} {l l' : List ℕ} {p : Pc} (h : p.Reads next l)
    (hl : ∀ x ∈ l, x ∈ l' ∧ next' x = next x) : p.Reads next' l' := by
  cases p with
  | allocNext x => exact (hl x h).1
  | allocCas x n => exact ⟨(hl x h.1).1, (hl x h.1).2.trans h.2⟩
  | _ => trivial

variable {number : ℕ} {l : List ℕ} {s s' : State Tid} {t : Tid}

/-- Nobody but the thread itself is inside `alloc`. -/
theorem Shared.alone_of (h : Shared number l s) (ht : (s.pc t).allocating = true) :
    ∀ u, (s.pc u).allocating = true → u = t := fun u hu => h.alone u t hu ht

theorem Shared.head_mem (h : Shared number l s) {x : ℕ} (hh : s.head = some x) : x ∈ l := by
  have hc := h.chain
  rw [hh] at hc
  cases l with
  | nil => cases hc
  | cons y l =>
    obtain ⟨hy, -⟩ := hc
    cases hy
    exact List.mem_cons_self

variable [DecidableEq Tid]

theorem forall_update {P : Tid → Pc → Prop} {pc : Tid → Pc} {p : Pc} (h : ∀ u, u ≠ t → P u (pc u))
    (hp : P t p) (u : Tid) : P u (Function.update pc t p u) := by
  by_cases hu : u = t
  · subst hu
    rwa [Function.update_self]
  · rw [Function.update_of_ne hu]
    exact h u hu

/-- A thread that moves does not begin an `alloc` beside another one. -/
theorem alone_update {pc : Tid → Pc} {p : Pc}
    (h : ∀ t u, (pc t).allocating = true → (pc u).allocating = true → t = u)
    (hp : p.allocating = false ∨ ∀ u, (pc u).allocating = true → u = t) (u v : Tid)
    (hu : (Function.update pc t p u).allocating = true)
    (hv : (Function.update pc t p v).allocating = true) : u = v := by
  have hone : ∀ w, w ≠ t → (Function.update pc t p w).allocating = true →
      (pc w).allocating = true := fun w hw h => by rwa [Function.update_of_ne hw] at h
  have hself : (Function.update pc t p t).allocating = true →
      ∀ u, (pc u).allocating = true → u = t := by
    intro ht
    rw [Function.update_self] at ht
    exact hp.resolve_left (by rw [ht]; exact Bool.true_eq_false.mp)
  by_cases hut : u = t <;> by_cases hvt : v = t
  · rw [hut, hvt]
  · exact absurd (hself (hut ▸ hu) v (hone v hvt hv)) hvt
  · exact absurd (hself (hvt ▸ hv) u (hone u hut hu)) hut
  · exact h u v (hone u hut hu) (hone v hvt hv)

theorem Shared.goto (h : Shared number l s) {p : Pc} (hok : p.Ok s.next (s.held t))
    (halone : p.allocating = false ∨ ∀ u, (s.pc u).allocating = true → u = t)
    (hreads : p.Reads s.next l) : Shared number l (s.goto t p) where
  toInv := h.toInv.goto hok
  covers := h.covers
  alone := alone_update h.alone halone
  reads := forall_update (fun u _ => h.reads u) hreads

theorem Shared.writeNext (h : Shared number l s) {e : ℕ} {x : Option ℕ}
    (hp : s.pc t = .freeNext e x) :
    Shared number l ({ s with next := Function.update s.next e x }.goto t (.freeCas e x)) where
  toInv := h.toInv.writeNext hp
  covers := h.covers
  alone := alone_update h.alone (.inl rfl)
  reads := by
    have he : e ∈ s.held t := by
      have := h.pc_ok t
      rwa [hp] at this
    -- what is written is not in the free list
    have hne : ∀ y ∈ l, y ≠ e := fun y hy heq => h.held_not_free t e he (heq ▸ hy)
    exact forall_update (fun u _ => (h.reads u).mono fun y hy =>
      ⟨hy, Function.update_of_ne (hne y hy) _ _⟩) trivial

theorem Shared.alloc (h : Shared number l s) {x : ℕ} {n : Option ℕ} (hp : s.pc t = .allocCas x n)
    (hh : s.head = some x) :
    ∃ l', Shared number l' (({ s with head := n }.hold t (x :: s.held t)).goto t .idle) := by
  obtain ⟨-, rfl⟩ : x ∈ l ∧ s.next x = n := by
    have := h.reads t
    rwa [hp] at this
  obtain ⟨l', h'⟩ := h.toInv.alloc hp hh
  have hl : l = x :: l' := by
    refine h.chain.unique ?_
    rw [hh]
    exact ⟨rfl, h'.chain⟩
  refine ⟨l', h', fun y hy => ?_, alone_update h.alone (.inl rfl), ?_⟩
  · rcases h.covers y hy with hfree | ⟨u, hu⟩
    · rcases List.mem_cons.mp (hl ▸ hfree) with rfl | hfree
      · exact .inr ⟨t, by simp [State.goto, State.hold]⟩
      · exact .inl hfree
    · refine .inr ⟨u, ?_⟩
      by_cases hut : u = t
      · subst hut
        simp [State.goto, State.hold, hu]
      · simpa [State.goto, State.hold, hut] using hu
  · refine forall_update (fun u hu => Pc.reads_of_not_allocating ?_) trivial
    rw [← Bool.not_eq_true]
    exact fun hua => hu (h.alone_of (by rw [hp]; rfl) u hua)

theorem Shared.free (h : Shared number l s) {e : ℕ} {x : Option ℕ} (hp : s.pc t = .freeCas e x)
    (hh : s.head = x) :
    Shared number (e :: l)
      (({ s with head := some e }.hold t ((s.held t).erase e)).goto t .idle) where
  toInv := h.toInv.free hp hh
  covers y hy := by
    by_cases hye : y = e
    · exact .inl (hye ▸ List.mem_cons_self)
    rcases h.covers y hy with hfree | ⟨u, hu⟩
    · exact .inl (List.mem_cons_of_mem _ hfree)
    · refine .inr ⟨u, ?_⟩
      by_cases hut : u = t
      · subst hut
        simpa [State.goto, State.hold] using (List.mem_erase_of_ne hye).mpr hu
      · simpa [State.goto, State.hold, hut] using hu
  alone := alone_update h.alone (.inl rfl)
  reads := forall_update (fun u _ => (h.reads u).mono fun _ hx =>
    ⟨List.mem_cons_of_mem _ hx, rfl⟩) trivial

theorem shared_step {a : Act Tid} (h : Shared number l s) (hG : OneAllocator s a)
    (hs : Step s a s') : ∃ l', Shared number l' s' := by
  have hok : ∀ {t : Tid} {p : Pc}, s.pc t = p → p.Ok s.next (s.held t) := fun hp => hp ▸ h.pc_ok _
  have halone : ∀ {t : Tid} {p q : Pc}, s.pc t = p → p.allocating = true →
      q.allocating = false ∨ ∀ u, (s.pc u).allocating = true → u = t :=
    fun hp ht => .inr (h.alone_of (hp ▸ ht))
  cases hs with
  | callAlloc =>
    refine ⟨l, h.goto trivial (.inr fun u hu => ?_) trivial⟩
    rw [hG u] at hu
    cases hu
  | callFree _ he => exact ⟨l, h.goto he (.inl rfl) trivial⟩
  | spin => exact ⟨l, h⟩
  | allocHead hp hh => exact ⟨l, h.goto trivial (halone hp rfl) (h.head_mem hh)⟩
  | @freeHead t e hp =>
    exact ⟨l, h.goto (p := .freeNext e s.head) (hok hp : e ∈ s.held t) (.inl rfl) trivial⟩
  | @readNext t x hp =>
    have hx : x ∈ l := by
      have := h.reads t
      rwa [hp] at this
    exact ⟨l, h.goto trivial (halone hp rfl) ⟨hx, rfl⟩⟩
  | writeNext hp => exact ⟨l, h.writeNext hp⟩
  | alloc hp hh => exact h.alloc hp hh
  | allocAgain hp => exact ⟨l, h.goto trivial (halone hp rfl) trivial⟩
  | free hp hh => exact ⟨_, h.free hp hh⟩
  | freeAgain hp => exact ⟨l, h.goto (hok hp).1 (.inl rfl) trivial⟩

/-- **One `alloc` at a time is safe**: with any number of threads that free whatever they hold at
any time, and no `alloc` that begins while another is under way, no entry is handed out twice and
none is lost. -/
theorem safe_of_oneAllocator (hn : 0 < number) {as : List (Act Tid)}
    (hrun : run step (.new Tid number) as = some s)
    (hG : Guarded step OneAllocator (.new Tid number) as) :
    Safe number s ∧ ∀ x < number, Reaches s.next s.head x ∨ ∃ t, x ∈ s.held t := by
  obtain ⟨l, h⟩ : ∃ l, Shared number l s :=
    invariant_of_guarded (I := fun s => ∃ l, Shared number l s)
      (fun s a s' hG ⟨l, h⟩ hs => shared_step h hG (step_cases hs)) hrun hG ⟨_, shared_new hn⟩
  refine ⟨h.safe, fun x hx => ?_⟩
  rw [reaches_iff_mem h.chain]
  exact h.covers x hx

/-- While `true` is between its reads and its compare-and-swap, `false` gives an entry back; `true`
has to begin again. -/
def freeDuringAlloc : List (Act Bool) :=
  [.callAlloc false, .readHead false, .readNext false, .cas false,
    .callAlloc true, .readHead true, .readNext true,
    .callFree false 0, .readHead false, .writeNext false, .cas false,
    .cas true, .readHead true, .readNext true, .cas true]

theorem safe_freeDuringAlloc : ∃ s, run step (.new Bool 3) freeDuringAlloc = some s ∧
    s.held true = [0] ∧ Safe 3 s ∧ ∀ x < 3, Reaches s.next s.head x ∨ ∃ t, x ∈ s.held t := by
  have h : ((run step (.new Bool 3) freeDuringAlloc).any fun s => s.held true = [0]) = true := by
    decide
  obtain ⟨s, hs, hp⟩ := (Option.any_eq_true _ _).mp h
  exact ⟨s, hs, of_decide_eq_true hp, safe_of_oneAllocator (by decide) hs (by decide)⟩

/-! ## Compare-and-swaps that fail -/

/-- What a thread has read from `head_`, for its compare-and-swap. -/
def Pc.read : Pc → Option (Option ℕ)
  | .allocNext x => some (some x)
  | .allocCas x _ => some (some x)
  | .freeNext _ x => some x
  | .freeCas _ x => some x
  | _ => none

/-- A compare-and-swap that finds `head_` as it was read. -/
def won (s : State Tid) : Act Tid → Bool
  | .cas t => (s.pc t).read = some s.head
  | _ => false

/-- A compare-and-swap that finds something else there. -/
def lost (s : State Tid) : Act Tid → Bool
  | .cas t => (s.pc t).read ≠ some s.head
  | _ => false

/-- `head_` has changed since the thread read it. -/
def Pc.Stale (head : Option ℕ) (p : Pc) : Prop := p.read ≠ none ∧ p.read ≠ some head

instance (head : Option ℕ) (p : Pc) : Decidable (p.Stale head) :=
  inferInstanceAs (Decidable (_ ∧ _))

section

variable [Fintype Tid]

/-- The threads that will fail if nothing else happens. -/
def stale (s : State Tid) : Finset Tid := Finset.univ.filter fun t => (s.pc t).Stale s.head

omit [DecidableEq Tid] in
theorem mem_stale {s : State Tid} {t : Tid} : t ∈ stale s ↔ (s.pc t).Stale s.head := by
  simp [stale]

omit [Fintype Tid] in
theorem goto_pc (s : State Tid) (t : Tid) (p : Pc) (u : Tid) :
    (s.goto t p).pc u = if u = t then p else s.pc u := Function.update_apply _ _ _ _

theorem stale_goto_subset {p : Pc} (hp : p.Stale s.head → (s.pc t).Stale s.head) :
    stale (s.goto t p) ⊆ stale s := by
  intro u hu
  rw [mem_stale, goto_pc] at hu
  rw [mem_stale]
  split_ifs at hu with hut
  · subst hut
    exact hp hu
  · exact hu

theorem card_stale_lt {p : Pc} (hp : p.read = none) (ht : (s.pc t).Stale s.head) :
    (stale (s.goto t p)).card < (stale s).card := by
  refine Finset.card_lt_card (Finset.ssubset_iff_subset_ne.mpr
    ⟨stale_goto_subset fun h => absurd hp h.1, fun heq => ?_⟩)
  have hmem : t ∈ stale (s.goto t p) := heq ▸ mem_stale.mpr ht
  rw [mem_stale, goto_pc, if_pos rfl] at hmem
  exact hmem.1 hp

theorem card_stale_idle (s : State Tid) (t : Tid) :
    (stale (s.goto t .idle)).card ≤ Fintype.card Tid - 1 := by
  have hsub : stale (s.goto t .idle) ⊆ Finset.univ.erase t := by
    intro u hu
    refine Finset.mem_erase.mpr ⟨fun hut => ?_, Finset.mem_univ u⟩
    rw [mem_stale, goto_pc, if_pos hut] at hu
    exact hu.1 rfl
  have hle := Finset.card_le_card hsub
  rwa [Finset.card_erase_of_mem (Finset.mem_univ t), Finset.card_univ] at hle

theorem card_stale_le {p : Pc} (hp : p.Stale s.head → (s.pc t).Stale s.head) :
    (stale (s.goto t p)).card ≤ (stale s).card := Finset.card_le_card (stale_goto_subset hp)

/-- A compare-and-swap that fails takes one away. -/
theorem card_stale_again {p : Pc} (hp : p.read = none) (ht : (s.pc t).read ≠ none) :
    (stale (s.goto t p)).card + (lost s (.cas t)).toNat ≤ (stale s).card := by
  by_cases hread : (s.pc t).read = some s.head
  · have hle := card_stale_le (s := s) (t := t) fun h : p.Stale s.head => absurd hp h.1
    simpa [lost, hread] using hle
  · have hlt := card_stale_lt hp ⟨ht, hread⟩
    simp only [lost, hread, ne_eq, not_false_eq_true, decide_true, Bool.toNat_true]
    omega

/-- A compare-and-swap that succeeds makes at most all the others stale. -/
theorem card_stale_won (s₁ : State Tid) (hread : (s.pc t).read = some s.head) :
    (stale (s₁.goto t .idle)).card + (lost s (.cas t)).toNat ≤
      (stale s).card + (Fintype.card Tid - 1) * (won s (.cas t)).toNat := by
  have hle := card_stale_idle s₁ t
  have hwon : (won s (.cas t)).toNat = 1 := by simp [won, hread]
  have hlost : (lost s (.cas t)).toNat = 0 := by simp [lost, hread]
  rw [hwon, hlost, Nat.mul_one]
  omega

theorem stale_step {a : Act Tid} (hs : Step s a s') :
    (stale s').card + (lost s a).toNat ≤
      (stale s).card + (Fintype.card Tid - 1) * (won s a).toNat := by
  cases hs with
  | callAlloc => exact card_stale_le fun h => absurd rfl h.1
  | callFree => exact card_stale_le fun h => absurd rfl h.1
  | spin => exact Nat.le_refl _
  | allocHead _ hh => exact card_stale_le fun h => absurd (congrArg some hh.symm) h.2
  | freeHead => exact card_stale_le fun h => absurd rfl h.2
  | readNext hp => exact card_stale_le fun h => hp ▸ h
  | writeNext hp => exact card_stale_le fun h => hp ▸ h
  | alloc hp hh => exact card_stale_won _ (by rw [hp, hh]; rfl)
  | allocAgain hp =>
    exact (card_stale_again rfl (by simp [hp, Pc.read])).trans (Nat.le_add_right _ _)
  | free hp hh => exact card_stale_won _ (by rw [hp, hh]; rfl)
  | freeAgain hp =>
    exact (card_stale_again rfl (by simp [hp, Pc.read])).trans (Nat.le_add_right _ _)

/-- **Somebody always gets on**: in every run of any number of threads, whatever they do, there are
for each compare-and-swap that succeeds at most as many that fail as there are other threads. -/
theorem lost_le_won {as : List (Act Tid)} (hrun : run step (.new Tid number) as = some s) :
    countSteps step lost (.new Tid number) as ≤
      (Fintype.card Tid - 1) * countSteps step won (.new Tid number) as := by
  have hnew : (stale (.new Tid number)).card = 0 := by
    refine Finset.card_eq_zero.mpr (Finset.eq_empty_of_forall_notMem fun t ht => ?_)
    exact absurd rfl (mem_stale.mp ht).1
  have hle := countSteps_le_of_potential (fun s => (stale s).card)
    (fun s a s' hs => stale_step (step_cases hs)) hrun
  rw [hnew, Nat.zero_add] at hle
  exact (Nat.le_add_left _ _).trans hle

theorem lost_freeDuringAlloc : countSteps step lost (.new Bool 3) freeDuringAlloc = 1 ∧
    countSteps step won (.new Bool 3) freeDuringAlloc = 3 ∧
      countSteps step lost (.new Bool 3) freeDuringAlloc ≤
        (Fintype.card Bool - 1) * countSteps step won (.new Bool 3) freeDuringAlloc := by
  have h : ((run step (.new Bool 3) freeDuringAlloc).any fun _ => true) = true := by decide
  obtain ⟨s, hs, -⟩ := (Option.any_eq_true _ _).mp h
  exact ⟨by decide, by decide, lost_le_won hs⟩

end

end Sperm.LkFree
