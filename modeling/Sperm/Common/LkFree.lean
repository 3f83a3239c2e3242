import Sperm.Lib.Chain
import Sperm.Lib.Run

/-!
# `SampleMemoryAllcator` (`common/lkfree.h`)

A lock-free free list: `alloc` takes the entry at `head_`, `free` puts one there, and both end with
a compare-and-swap on `head_`. An `Entry*` is an index into the arena, or `none` for `0`. Entries in
a thread's hand are those `alloc` returned and `free` has not yet given back.

* `State`, `Act`, `step`: every read, write and compare-and-swap of every thread is one step.
* `Safe`: held entries are not free, no entry is held twice, and the free list has no cycle and
  stays inside the arena.
* `NextUnchanged`: an `alloc` whose compare-and-swap succeeds has read the `next` that is there.
* **`safe_of_nextUnchanged`**: a run of such steps is safe.
* `stale_next_hands_out_twice`: with a stale `next` the same entry is handed out twice.
-/

namespace Sperm.LkFree

open StepRun Chain

/-- Where a thread stands in `alloc` or `free`. -/
inductive Pc where
  | idle
  | allocLoop
  /-- `t` was read from `head_`. -/
  | allocNext (t : ℕ)
  /-- `n` was read from `t->next`. -/
  | allocCas (t : ℕ) (n : Option ℕ)
  | freeLoop (e : ℕ)
  /-- `t` was read from `head_`. -/
  | freeNext (e : ℕ) (t : Option ℕ)
  /-- `t` was written to `e->next`. -/
  | freeCas (e : ℕ) (t : Option ℕ)
  deriving DecidableEq

structure State (Tid : Type) where
  head : Option ℕ
  next : ℕ → Option ℕ
  pc : Tid → Pc
  held : Tid → List ℕ

/-- `SampleMemoryAllcator<T, number>()`. -/
def State.new (Tid : Type) (number : ℕ) : State Tid :=
  ⟨some 0, fun i => if i + 1 < number then some (i + 1) else none, fun _ => .idle, fun _ => []⟩

inductive Act (Tid : Type) where
  | callAlloc (t : Tid)
  /-- `free(e)` of an entry that the thread holds. -/
  | callFree (t : Tid) (e : ℕ)
  /-- `AtomicGetValue(head_)`. -/
  | readHead (t : Tid)
  /-- `t->next`. -/
  | readNext (t : Tid)
  /-- `e->next = t`. -/
  | writeNext (t : Tid)
  /-- `CompareAndSwapPointer(head_, ...)`. -/
  | cas (t : Tid)

variable {Tid : Type}

/-- What the allocator promises in a state. -/
structure Safe (number : ℕ) (s : State Tid) : Prop where
  held_not_free : ∀ t, ∀ x ∈ s.held t, ¬ Reaches s.next s.head x
  held_once : ∀ t u x, x ∈ s.held t → x ∈ s.held u → t = u
  held_nodup : ∀ t, (s.held t).Nodup
  acyclic : ∀ x, Reaches s.next s.head x →
    ¬ Relation.TransGen (fun a b => s.next a = some b) x x
  inside : ∀ x, Reaches s.next s.head x → x < number

variable [DecidableEq Tid]

/-- Thread `t` moves to `p`. -/
def State.goto (s : State Tid) (t : Tid) (p : Pc) : State Tid :=
  { s with pc := Function.update s.pc t p }

/-- Thread `t` now holds `es`. -/
def State.hold (s : State Tid) (t : Tid) (es : List ℕ) : State Tid :=
  { s with held := Function.update s.held t es }

def step (s : State Tid) : Act Tid → Option (State Tid)
  | .callAlloc t => if s.pc t = .idle then some (s.goto t .allocLoop) else none
  | .callFree t e =>
    if s.pc t = .idle ∧ e ∈ s.held t then some (s.goto t (.freeLoop e)) else none
  | .readHead t =>
    match s.pc t with
    | .allocLoop =>
      match s.head with
      | none => some s
      | some x => some (s.goto t (.allocNext x))
    | .freeLoop e => some (s.goto t (.freeNext e s.head))
    | _ => none
  | .readNext t =>
    match s.pc t with
    | .allocNext x => some (s.goto t (.allocCas x (s.next x)))
    | _ => none
  | .writeNext t =>
    match s.pc t with
    | .freeNext e x => some ({ s with next := Function.update s.next e x }.goto t (.freeCas e x))
    | _ => none
  | .cas t =>
    match s.pc t with
    | .allocCas x n =>
      if s.head = some x then some (({ s with head := n }.hold t (x :: s.held t)).goto t .idle)
      else some (s.goto t .allocLoop)
    | .freeCas e x =>
      if s.head = x then
        some (({ s with head := some e }.hold t ((s.held t).erase e)).goto t .idle)
      else some (s.goto t (.freeLoop e))
    | _ => none

/-- A compare-and-swap of `alloc` that succeeds puts the current `next` into `head_`. -/
def Pc.Fresh (head : Option ℕ) (next : ℕ → Option ℕ) : Pc → Prop
  | .allocCas x n => head = some x → next x = n
  | _ => True

instance (head : Option ℕ) (next : ℕ → Option ℕ) (p : Pc) : Decidable (p.Fresh head next) := by
  cases p <;> unfold Pc.Fresh <;> infer_instance

/-- An `alloc` that succeeds has read the `next` that is still there. -/
def NextUnchanged (s : State Tid) : Act Tid → Prop
  | .cas t => (s.pc t).Fresh s.head s.next
  | _ => True

instance (s : State Tid) (a : Act Tid) : Decidable (NextUnchanged s a) := by
  cases a <;> unfold NextUnchanged <;> infer_instance

/-! ## What a step does -/

/-- The steps with their guards. -/
inductive Step (s : State Tid) : Act Tid → State Tid → Prop where
  | callAlloc {t : Tid} (hp : s.pc t = .idle) : Step s (.callAlloc t) (s.goto t .allocLoop)
  | callFree {t : Tid} {e : ℕ} (hp : s.pc t = .idle) (he : e ∈ s.held t) :
      Step s (.callFree t e) (s.goto t (.freeLoop e))
  | spin {t : Tid} (hp : s.pc t = .allocLoop) (hh : s.head = none) : Step s (.readHead t) s
  | allocHead {t : Tid} {x : ℕ} (hp : s.pc t = .allocLoop) (hh : s.head = some x) :
      Step s (.readHead t) (s.goto t (.allocNext x))
  | freeHead {t : Tid} {e : ℕ} (hp : s.pc t = .freeLoop e) :
      Step s (.readHead t) (s.goto t (.freeNext e s.head))
  | readNext {t : Tid} {x : ℕ} (hp : s.pc t = .allocNext x) :
      Step s (.readNext t) (s.goto t (.allocCas x (s.next x)))
  | writeNext {t : Tid} {e : ℕ} {x : Option ℕ} (hp : s.pc t = .freeNext e x) :
      Step s (.writeNext t)
        ({ s with next := Function.update s.next e x }.goto t (.freeCas e x))
  | alloc {t : Tid} {x : ℕ} {n : Option ℕ} (hp : s.pc t = .allocCas x n) (hh : s.head = some x) :
      Step s (.cas t) (({ s with head := n }.hold t (x :: s.held t)).goto t .idle)
  | allocAgain {t : Tid} {x : ℕ} {n : Option ℕ} (hp : s.pc t = .allocCas x n) :
      Step s (.cas t) (s.goto t .allocLoop)
  | free {t : Tid} {e : ℕ} {x : Option ℕ} (hp : s.pc t = .freeCas e x) (hh : s.head = x) :
      Step s (.cas t) (({ s with head := some e }.hold t ((s.held t).erase e)).goto t .idle)
  | freeAgain {t : Tid} {e : ℕ} {x : Option ℕ} (hp : s.pc t = .freeCas e x) :
      Step s (.cas t) (s.goto t (.freeLoop e))

theorem step_cases {s s' : State Tid} {a : Act Tid} (h : step s a = some s') : Step s a s' := by
  cases a with
  | callAlloc t =>
    rw [step] at h
    split_ifs at h with hp
    cases h
    exact .callAlloc hp
  | callFree t e =>
    rw [step] at h
    split_ifs at h with hp
    cases h
    exact .callFree hp.1 hp.2
  | readHead t =>
    rw [step] at h
    split at h
    · next hp =>
      split at h
      · next hh => cases h; exact .spin hp hh
      · next hh => cases h; exact .allocHead hp hh
    · next hp => cases h; exact .freeHead hp
    · cases h
  | readNext t =>
    rw [step] at h
    split at h
    · next hp => cases h; exact .readNext hp
    · cases h
  | writeNext t =>
    rw [step] at h
    split at h
    · next hp => cases h; exact .writeNext hp
    · cases h
  | cas t =>
    rw [step] at h
    split at h
    · next hp =>
      split_ifs at h with hh
      · cases h; exact .alloc hp hh
      · cases h; exact .allocAgain hp
    · next hp =>
      split_ifs at h with hh
      · cases h; exact .free hp hh
      · cases h; exact .freeAgain hp
    · cases h

/-! ## The invariant -/

section

omit [DecidableEq Tid]

/-- What a thread inside `free` relies on: the entry is its own, and nobody else writes its
`next`. -/
def Pc.Ok (next : ℕ → Option ℕ) (es : List ℕ) : Pc → Prop
  | .freeLoop e => e ∈ es
  | .freeNext e _ => e ∈ es
  | .freeCas e x => e ∈ es ∧ next e = x
  | _ => True

/-- The free list is the chain `l`, apart from the entries in the threads' hands. -/
structure Inv (number : ℕ) (l : List ℕ) (s : State Tid) : Prop where
  chain : Seg s.next s.head l none
  inside : ∀ x ∈ l, x < number
  held_not_free : ∀ t, ∀ x ∈ s.held t, x ∉ l
  held_once : ∀ t u x, x ∈ s.held t → x ∈ s.held u → t = u
  held_nodup : ∀ t, (s.held t).Nodup
  held_inside : ∀ t, ∀ x ∈ s.held t, x < number
  pc_ok : ∀ t, (s.pc t).Ok s.next (s.held t)

theorem Inv.safe {number : ℕ} {l : List ℕ} {s : State Tid} (h : Inv number l s) :
    Safe number s where
  held_not_free t x hx hr := h.held_not_free t x hx ((reaches_iff_mem h.chain).mp hr)
  held_once := h.held_once
  held_nodup := h.held_nodup
  acyclic _ hr := not_cyclic_of_seg h.chain hr
  inside x hr := h.inside x ((reaches_iff_mem h.chain).mp hr)

theorem seg_initial (number : ℕ) {k n : ℕ} (h : k + n = number) (hn : 0 < n) :
    Seg (fun i => if i + 1 < number then some (i + 1) else none) (some k) (List.range' k n)
      none := by
  induction n generalizing k with
  | zero => omega
  | succ n ih =>
    rw [List.range'_succ]
    refine ⟨rfl, ?_⟩
    cases n with
    | zero => exact if_neg (by omega)
    | succ n =>
      simp only [if_pos (show k + 1 < number by omega)]
      exact ih (by omega) (by omega)

theorem inv_new {number : ℕ} (hn : 0 < number) :
    Inv number (List.range' 0 number) (State.new Tid number) where
  chain := seg_initial number (Nat.zero_add _) hn
  inside x hx := by
    rw [List.mem_range'_1] at hx
    omega
  held_not_free _ _ := nofun
  held_once _ _ _ := nofun
  held_nodup _ := List.nodup_nil
  held_inside _ _ := nofun
  pc_ok _ := trivial

end

theorem Inv.goto {number : ℕ} {l : List ℕ} {s : State Tid} (h : Inv number l s) {t : Tid} {p : Pc}
    (hp : p.Ok s.next (s.held t)) : Inv number l (s.goto t p) where
  chain := h.chain
  inside := h.inside
  held_not_free := h.held_not_free
  held_once := h.held_once
  held_nodup := h.held_nodup
  held_inside := h.held_inside
  pc_ok u := by
    by_cases hu : u = t
    · subst hu
      simpa [State.goto] using hp
    · simpa [State.goto, hu] using h.pc_ok u

/-- `e->next` of an entry in hand is written: neither the free list nor what another thread is
freeing changes. -/
theorem Inv.writeNext {number : ℕ} {l : List ℕ} {s : State Tid} (h : Inv number l s) {t : Tid}
    {e : ℕ} {x : Option ℕ} (hp : s.pc t = .freeNext e x) :
    Inv number l ({ s with next := Function.update s.next e x }.goto t (.freeCas e x)) := by
  have he : e ∈ s.held t := by
    have := h.pc_ok t
    rwa [hp] at this
  refine ⟨(seg_update (h.held_not_free t e he)).mpr h.chain, h.inside, h.held_not_free, h.held_once,
    h.held_nodup, h.held_inside, fun u => ?_⟩
  by_cases hu : u = t
  · subst hu
    simp [State.goto, Pc.Ok, he]
  · have hok := h.pc_ok u
    simp only [State.goto, Function.update_of_ne hu]
    revert hok
    cases hpu : s.pc u with
    | freeCas e' x' =>
      rintro ⟨he', hx'⟩
      have hne : e' ≠ e := fun heq => hu (h.held_once u t e' he' (heq ▸ he))
      exact ⟨he', by rwa [Function.update_of_ne hne]⟩
    | _ => exact id

theorem Inv.alloc {number : ℕ} {l : List ℕ} {s : State Tid} (h : Inv number l s) {t : Tid} {x : ℕ}
    (hp : s.pc t = .allocCas x (s.next x)) (hh : s.head = some x) :
    ∃ l', Inv number l' (({ s with head := s.next x }.hold t (x :: s.held t)).goto t .idle) := by
  have hnd := h.chain.nodup
  have hc := h.chain
  rw [hh] at hc
  cases l with
  | nil => cases hc
  | cons y l =>
    obtain ⟨hy, hc⟩ := hc
    cases hy
    have hfree : ∀ u, x ∉ s.held u := fun u hu => h.held_not_free u x hu List.mem_cons_self
    -- who holds what afterwards
    have hheld : ∀ u z, z ∈ Function.update s.held t (x :: s.held t) u →
        u = t ∧ z = x ∨ z ∈ s.held u := by
      intro u z hz
      by_cases hu : u = t
      · subst hu
        rw [Function.update_self, List.mem_cons] at hz
        exact hz.imp_left fun hzx => ⟨rfl, hzx⟩
      · rw [Function.update_of_ne hu] at hz
        exact .inr hz
    refine ⟨l, hc, fun z hz => h.inside z (List.mem_cons_of_mem _ hz), ?_, ?_, ?_, ?_, ?_⟩
    · intro u z hz
      rcases hheld u z hz with ⟨-, rfl⟩ | hz
      · exact (List.nodup_cons.mp hnd).1
      · exact fun hl => h.held_not_free u z hz (List.mem_cons_of_mem _ hl)
    · intro u v z hu hv
      rcases hheld u z hu with ⟨hut, hzx⟩ | hzu <;> rcases hheld v z hv with ⟨hvt, hzx'⟩ | hzv
      · rw [hut, hvt]
      · exact absurd (hzx ▸ hzv) (hfree v)
      · exact absurd (hzx' ▸ hzu) (hfree u)
      · exact h.held_once u v z hzu hzv
    · intro u
      by_cases hu : u = t
      · subst hu
        simp [State.goto, State.hold, h.held_nodup u, hfree u]
      · simpa [State.goto, State.hold, hu] using h.held_nodup u
    · intro u z hz
      rcases hheld u z hz with ⟨-, rfl⟩ | hz
      · exact h.inside _ List.mem_cons_self
      · exact h.held_inside u z hz
    · intro u
      by_cases hu : u = t
      · subst hu
        simp [State.goto, Pc.Ok]
      · simpa [State.goto, State.hold, hu] using h.pc_ok u

theorem Inv.free {number : ℕ} {l : List ℕ} {s : State Tid} (h : Inv number l s) {t : Tid} {e : ℕ}
    {x : Option ℕ} (hp : s.pc t = .freeCas e x) (hh : s.head = x) :
    Inv number (e :: l)
      (({ s with head := some e }.hold t ((s.held t).erase e)).goto t .idle) := by
  obtain ⟨he, hx⟩ : e ∈ s.held t ∧ s.next e = x := by
    have := h.pc_ok t
    rwa [hp] at this
  have hheld : ∀ u z, z ∈ Function.update s.held t ((s.held t).erase e) u →
      z ∈ s.held u ∧ z ≠ e := by
    intro u z hz
    by_cases hu : u = t
    · subst hu
      rw [Function.update_self, (h.held_nodup u).mem_erase_iff] at hz
      exact ⟨hz.2, hz.1⟩
    · rw [Function.update_of_ne hu] at hz
      exact ⟨hz, fun heq => hu (h.held_once u t z hz (heq ▸ he))⟩
  refine ⟨⟨rfl, ?_⟩, ?_, ?_, ?_, ?_, ?_, ?_⟩
  · change Seg s.next (s.next e) l none
    rw [hx, ← hh]
    exact h.chain
  · intro z hz
    rcases List.mem_cons.mp hz with rfl | hz
    · exact h.held_inside t z he
    · exact h.inside z hz
  · intro u z hz
    obtain ⟨hz, hne⟩ := hheld u z hz
    rw [List.mem_cons, not_or]
    exact ⟨hne, h.held_not_free u z hz⟩
  · exact fun u v z hu hv => h.held_once u v z (hheld u z hu).1 (hheld v z hv).1
  · intro u
    by_cases hu : u = t
    · subst hu
      simpa [State.goto, State.hold] using (h.held_nodup u).erase e
    · simpa [State.goto, State.hold, hu] using h.held_nodup u
  · exact fun u z hz => h.held_inside u z (hheld u z hz).1
  · intro u
    by_cases hu : u = t
    · subst hu
      simp [State.goto, Pc.Ok]
    · simpa [State.goto, State.hold, hu] using h.pc_ok u

theorem inv_step {number : ℕ} {l : List ℕ} {s s' : State Tid} {a : Act Tid} (h : Inv number l s)
    (hG : NextUnchanged s a) (hs : Step s a s') : ∃ l', Inv number l' s' := by
  have hok : ∀ {t : Tid} {p : Pc}, s.pc t = p → p.Ok s.next (s.held t) := fun hp => hp ▸ h.pc_ok _
  cases hs with
  | callAlloc => exact ⟨l, h.goto trivial⟩
  | callFree _ he => exact ⟨l, h.goto he⟩
  | spin => exact ⟨l, h⟩
  | allocHead => exact ⟨l, h.goto trivial⟩
  | @freeHead t e hp => exact ⟨l, h.goto (p := .freeNext e s.head) (hok hp : e ∈ s.held t)⟩
  | readNext => exact ⟨l, h.goto trivial⟩
  | writeNext hp => exact ⟨l, h.writeNext hp⟩
  | @alloc t x n hp hh =>
    have hn : s.next x = n := by
      rw [NextUnchanged, hp] at hG
      exact hG hh
    subst hn
    exact h.alloc hp hh
  | allocAgain => exact ⟨l, h.goto trivial⟩
  | free hp hh => exact ⟨_, h.free hp hh⟩
  | freeAgain hp => exact ⟨l, h.goto (hok hp).1⟩

/-- **The allocator hands out no entry twice** in any run, of any number of threads and in any
interleaving, in which every `alloc` that succeeds has read the `next` that is still there. -/
theorem safe_of_nextUnchanged {number : ℕ} (hn : 0 < number) {as : List (Act Tid)} {s : State Tid}
    (hrun : run step (.new Tid number) as = some s)
    (hG : Guarded step NextUnchanged (.new Tid number) as) : Safe number s := by
  obtain ⟨l, h⟩ : ∃ l, Inv number l s :=
    invariant_of_guarded (I := fun s => ∃ l, Inv number l s)
      (fun s a s' hG ⟨l, h⟩ hs => inv_step h hG (step_cases hs)) hrun hG ⟨_, inv_new hn⟩
  exact h.safe

/-- Two threads take and give back in turns. -/
def turnsRun : List (Act Bool) :=
  [.callAlloc true, .readHead true, .readNext true, .cas true,
    .callAlloc false, .readHead false, .readNext false, .cas false,
    .callFree true 0, .readHead true, .writeNext true, .cas true]

theorem safe_turnsRun : ∃ s, run step (.new Bool 3) turnsRun = some s ∧ s.held false = [1] ∧
    Safe 3 s := by
  have h : ((run step (.new Bool 3) turnsRun).any fun s => s.held false = [1]) = true := by decide
  obtain ⟨s, hs, hp⟩ := (Option.any_eq_true _ _).mp h
  exact ⟨s, hs, of_decide_eq_true hp, safe_of_nextUnchanged (by decide) hs (by decide)⟩

/-- `true` has read `head_` and `next` of entry `0`; before its compare-and-swap, `false` takes `0`
and `1` and gives `0` back. -/
def staleRun : List (Act Bool) :=
  [.callAlloc true, .readHead true, .readNext true,
    .callAlloc false, .readHead false, .readNext false, .cas false,
    .callAlloc false, .readHead false, .readNext false, .cas false,
    .callFree false 0, .readHead false, .writeNext false, .cas false,
    .cas true]

/-- With a stale `next`, `head_` points to an entry that is in use, and the next `alloc` hands it
out again. -/
theorem stale_next_hands_out_twice : (∃ s, run step (.new Bool 3) staleRun = some s ∧
      s.head = some 1 ∧ 1 ∈ s.held false ∧ ¬ Safe 3 s) ∧
    ∃ s, run step (.new Bool 3) (staleRun ++
      [.callAlloc true, .readHead true, .readNext true, .cas true]) = some s ∧
        1 ∈ s.held true ∧ 1 ∈ s.held false := by
  constructor
  · have h : ((run step (.new Bool 3) staleRun).any fun s =>
        decide (s.head = some 1 ∧ 1 ∈ s.held false)) = true := by decide
    obtain ⟨s, hs, hp⟩ := (Option.any_eq_true _ _).mp h
    obtain ⟨hh, hheld⟩ := of_decide_eq_true hp
    exact ⟨s, hs, hh, hheld, fun hsafe => hsafe.held_not_free _ _ hheld ⟨1, hh, .refl⟩⟩
  · have h : ((run step (.new Bool 3) (staleRun ++
        [.callAlloc true, .readHead true, .readNext true, .cas true])).any fun s =>
          decide (1 ∈ s.held true ∧ 1 ∈ s.held false)) = true := by decide
    obtain ⟨s, hs, hp⟩ := (Option.any_eq_true _ _).mp h
    exact ⟨s, hs, of_decide_eq_true hp⟩

end Sperm.LkFree
