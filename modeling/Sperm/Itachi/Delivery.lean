import Mathlib.Data.Fintype.Sum
import Mathlib.Tactic.DeriveFintype
import Sperm.Itachi.Handler
import Sperm.Lib.Pool

/-!
# Where a launched context is

* `Place`: the queues, the drained chains and the libev loops. `view`: what a place consists of, a
  chain of links and contexts that a thread or libev holds; `At`: a context is at a place.
* `View.Holds`: the contexts of a place as a list. `Inv`: the lists of all places, with each
  launched context in one of them, once.
* `view_cpuGoto`, `view_setPoll`, `view_cpuQueue`, `view_pollQueue`, `view_next`: the places that
  the parts of a step change; `Inv.change`, `Inv.move`: the lists after a step that changes one
  place or two.
* `order`: what waits for a cpu thread, in the order in which it is taken; `Advance`: what a step
  does to it. **`inv_step`**: the lists and the orders after a step.
* **`launched_at_one_place`**: a launched context is at one place until it is completed.
-/

namespace Sperm.Itachi

open Chain ThreadPool

variable {Ctx : Type} {n m : ℕ}

/-- The places of a launched context. A cpu thread holds the chain it drained, or the context it
popped; libev holds a context until its callback has passed it on. -/
inductive Place (n m : ℕ) where
  | cpuQueue (i : Fin n)
  | cpuChain (i : Fin n)
  | pollQueue (i : Fin m)
  | pollChain (i : Fin m)
  | libev (i : Fin m)
  deriving DecidableEq, Fintype

/-- What a place consists of: contexts that are held, and a chain, which in a queue has a tail. -/
structure View (Ctx : Type) where
  held : List Ctx
  head : Option Ctx
  tail : Option (Option Ctx)

def After.next : After Ctx → Option Ctx
  | .popped => none
  | .chain next => next

def CpuPc.view : CpuPc Ctx → View Ctx
  | .hand c k => ⟨[c], k.next, none⟩
  | .complete _ k | .release _ k => ⟨[], k.next, none⟩
  | .walk p => ⟨[], p, none⟩
  | _ => ⟨[], none, none⟩

/-- The chain that a poll thread still has to register. -/
def PollPc.rest (next : Ctx → Option Ctx) : PollPc Ctx → Option Ctx
  | .walk p => p
  | .registered c => next c
  | _ => none

def PollPc.held : PollPc Ctx → List Ctx
  | .callback c _ | .push c => [c]
  | _ => []

def queueView (q : SLinkedList Ctx) : View Ctx := ⟨[], q.head, some q.tail⟩

def view (s : State Ctx n m) : Place n m → View Ctx
  | .cpuQueue i => queueView (s.cpuQueue i)
  | .cpuChain i => (s.cpuPc i).view
  | .pollQueue i => queueView (s.pollQueue i)
  | .pollChain i => ⟨[], (s.pollPc i).rest s.next, none⟩
  | .libev i => ⟨(s.pollPc i).held ++ s.loop i, none, none⟩

/-- The context is at the place: it is held there, or following the links leads to it. -/
def At (s : State Ctx n m) (p : Place n m) (c : Ctx) : Prop :=
  c ∈ (view s p).held ∨ Reaches s.next (view s p).head c

/-- A place with the contexts `l`. -/
def View.Holds (next : Ctx → Option Ctx) (v : View Ctx) (l : List Ctx) : Prop :=
  ∃ l', l = v.held ++ l' ∧ Seg next v.head l' none ∧ ∀ t, v.tail = some t → t = l'.getLast?

theorem View.Holds.congr {next next' : Ctx → Option Ctx} {v : View Ctx} {l : List Ctx}
    (h : v.Holds next l) (hn : ∀ c ∈ l, next' c = next c) : v.Holds next' l := by
  obtain ⟨l', rfl, hseg, htail⟩ := h
  exact ⟨l', rfl, (seg_congr fun c hc => hn c (List.mem_append_right _ hc)).mpr hseg, htail⟩

theorem holds_queueView {next : Ctx → Option Ctx} {q : SLinkedList Ctx} {l : List Ctx} :
    (queueView q).Holds next l ↔ q.Represents next l := by
  constructor
  · rintro ⟨l', rfl, hseg, htail⟩
    exact ⟨hseg, htail _ rfl⟩
  · rintro ⟨hseg, htail⟩
    exact ⟨l, rfl, hseg, fun t ht => by cases ht; exact htail⟩

theorem holds_chain {next : Ctx → Option Ctx} {held : List Ctx} {head : Option Ctx} {l : List Ctx} :
    View.Holds next ⟨held, head, none⟩ l ↔ ∃ l', l = held ++ l' ∧ Seg next head l' none := by
  constructor
  · rintro ⟨l', hl, hseg, -⟩
    exact ⟨l', hl, hseg⟩
  · rintro ⟨l', hl, hseg⟩
    exact ⟨l', hl, hseg, nofun⟩

theorem holds_held {next : Ctx → Option Ctx} {held l : List Ctx} :
    View.Holds next ⟨held, none, none⟩ l ↔ l = held := by
  rw [holds_chain]
  constructor
  · rintro ⟨l', rfl, hseg⟩
    cases l' with
    | nil => exact List.append_nil _
    | cons c l' => cases hseg.1
  · rintro rfl
    exact ⟨[], (List.append_nil _).symm, rfl⟩

section

variable [NeZero n] [NeZero m]

/-- The places where a context should be, by its type and its `thread_hint`. -/
def Routed (x : Context) : Place n m → Prop
  | .cpuQueue i | .cpuChain i => x.type = .cpu ∧ i = Fin.ofNat n x.threadHint.toNat
  | .pollQueue i | .pollChain i => x.type = .net ∧ i = Fin.ofNat m x.threadHint.toNat
  | .libev i => i = Fin.ofNat m x.threadHint.toNat

variable [DecidableEq Ctx]

/-- What does not depend on where the contexts are. -/
structure Tidy (s : State Ctx n m) : Prop where
  once : ∀ c, s.accepted c ≤ s.completed c + 1
  launching : ∀ c, s.launchPc c ≠ none → s.accepted c = s.completed c
  registered : ∀ i c, s.pollPc i = .registered c → c ∈ s.loop i
  pushing : ∀ i c, s.pollPc i = .push c → (s.ctx c).type = .cpu

/-- The contexts of every place, each launched context once. -/
structure Inv (s : State Ctx n m) (lists : Place n m → List Ctx) : Prop where
  holds : ∀ p, (view s p).Holds s.next (lists p)
  count : ∀ c, tally (List.count c) lists + s.completed c = s.accepted c
  routed : ∀ p, ∀ c ∈ lists p, Routed (s.ctx c) p
  tidy : Tidy s

/-- The contexts that wait for a cpu thread, in the order in which it takes them: what it has taken
from its queue, and then the queue. -/
def order (lists : Place n m → List Ctx) (i : Fin n) : List Ctx :=
  lists (.cpuChain i) ++ lists (.cpuQueue i)

/-- What a step does to the contexts that wait for a cpu thread: nothing, it puts one between them,
it starts `onComplete` for the first, or another thread does so for some other context. -/
inductive Advance (s s' : State Ctx n m) : List Ctx → List Ctx → Prop where
  | same {l : List Ctx} (hc : s'.completed = s.completed) : Advance s s' l l
  | insert {a b : List Ctx} {c : Ctx} (hc : s'.completed = s.completed) :
      Advance s s' (a ++ b) (a ++ c :: b)
  | first {c : Ctx} {l : List Ctx}
      (hc : s'.completed = Function.update s.completed c (s.completed c + 1)) :
      Advance s s' (c :: l) l
  | other {c : Ctx} {l : List Ctx} (hl : c ∉ l)
      (hc : s'.completed = Function.update s.completed c (s.completed c + 1)) : Advance s s' l l

/-- The step to `s'` has lists of its own, and every cpu thread's order has advanced. -/
def Follows (s : State Ctx n m) (lists : Place n m → List Ctx) (s' : State Ctx n m) : Prop :=
  ∃ lists', Inv s' lists' ∧ ∀ i, Advance s s' (order lists i) (order lists' i)

variable {s s' : State Ctx n m} {lists : Place n m → List Ctx} {p q : Place n m} {c : Ctx}

theorem follows_of_order_eq (lists' : Place n m → List Ctx) (h : Inv s' lists')
    (hc : s'.completed = s.completed) (ho : ∀ i, order lists' i = order lists i) :
    Follows s lists s' :=
  ⟨lists', h, fun i => ho i ▸ .same hc⟩

theorem follows_of_inv (hc : s'.completed = s.completed) (h : Inv s' lists) : Follows s lists s' :=
  follows_of_order_eq lists h hc fun _ => rfl

theorem Inv.completed_le (h : Inv s lists) (c : Ctx) : s.completed c ≤ s.accepted c := by
  have := h.count c
  omega

theorem Inv.tally_le (h : Inv s lists) (c : Ctx) : tally (List.count c) lists ≤ 1 := by
  have := h.count c
  have := h.tidy.once c
  omega

theorem Inv.unique (h : Inv s lists) (hp : c ∈ lists p) (hq : c ∈ lists q) : p = q := by
  by_contra hpq
  have hle := add_le_tally (List.count c) lists hpq
  have h₁ := List.count_pos_iff.mpr hp
  have h₂ := List.count_pos_iff.mpr hq
  have := h.tally_le c
  omega

theorem Inv.launched (h : Inv s lists) (hp : c ∈ lists p) : s.accepted c = s.completed c + 1 := by
  have hpos := tally_pos_iff.mpr ⟨p, List.count_pos_iff.mpr hp⟩
  have := h.count c
  have := h.tidy.once c
  omega

theorem Inv.not_mem (h : Inv s lists) (hc : s.accepted c = s.completed c) (p : Place n m) :
    c ∉ lists p := by
  intro hp
  have := h.launched hp
  omega

theorem Inv.libev (h : Inv s lists) (i : Fin m) :
    lists (.libev i) = (s.pollPc i).held ++ s.loop i := holds_held.mp (h.holds (.libev i))

/-! ## Changing the views -/

section

omit [NeZero n] [NeZero m] [DecidableEq Ctx]

theorem view_cpuGoto (s : State Ctx n m) (i : Fin n) (pc : CpuPc Ctx) :
    view (s.cpuGoto i pc) = Function.update (view s) (.cpuChain i) pc.view := by
  funext r
  cases r with
  | cpuChain j =>
    by_cases hj : j = i
    · subst hj
      simp [view, State.cpuGoto]
    · simp [view, State.cpuGoto, hj]
  | _ => simp [view, State.cpuGoto]

theorem view_setPoll (s : State Ctx n m) (i : Fin m) (loop : List Ctx) (pc : PollPc Ctx) :
    view ({ s with loop := Function.update s.loop i loop }.pollGoto i pc) =
      Function.update (Function.update (view s) (.pollChain i) ⟨[], pc.rest s.next, none⟩)
        (.libev i) ⟨pc.held ++ loop, none, none⟩ := by
  funext r
  cases r with
  | pollChain j =>
    by_cases hj : j = i
    · subst hj
      simp [view, State.pollGoto]
    · simp [view, State.pollGoto, hj]
  | libev j =>
    by_cases hj : j = i
    · subst hj
      simp [view, State.pollGoto]
    · simp [view, State.pollGoto, hj]
  | _ => simp [view, State.pollGoto]

theorem view_pollGoto (s : State Ctx n m) (i : Fin m) (pc : PollPc Ctx) :
    view (s.pollGoto i pc) =
      Function.update (Function.update (view s) (.pollChain i) ⟨[], pc.rest s.next, none⟩)
        (.libev i) ⟨pc.held ++ s.loop i, none, none⟩ := by
  have h := view_setPoll s i (s.loop i) pc
  rwa [Function.update_eq_self] at h

theorem update_pollChain {i : Fin m} {head : Option Ctx} (h : head = (s.pollPc i).rest s.next) :
    Function.update (view s) (.pollChain i) ⟨[], head, none⟩ = view s := by
  rw [h]
  exact Function.update_eq_self (.pollChain i) (view s)

theorem update_libev {i : Fin m} {held : List Ctx} (h : held = (s.pollPc i).held ++ s.loop i) :
    Function.update (view s) (.libev i) ⟨held, none, none⟩ = view s := by
  rw [h]
  exact Function.update_eq_self (.libev i) (view s)

theorem view_cpuQueue (s : State Ctx n m) (i : Fin n) (q : SLinkedList Ctx) :
    view { s with cpuQueue := Function.update s.cpuQueue i q } =
      Function.update (view s) (.cpuQueue i) (queueView q) := by
  funext r
  cases r with
  | cpuQueue j =>
    by_cases hj : j = i
    · subst hj
      simp [view]
    · simp [view, hj]
  | _ => simp [view]

theorem view_pollQueue (s : State Ctx n m) (i : Fin m) (q : SLinkedList Ctx) :
    view { s with pollQueue := Function.update s.pollQueue i q } =
      Function.update (view s) (.pollQueue i) (queueView q) := by
  funext r
  cases r with
  | pollQueue j =>
    by_cases hj : j = i
    · subst hj
      simp [view]
    · simp [view, hj]
  | _ => simp [view]

/-- The links of the contexts that are being registered are the only ones in a view. -/
theorem view_next {next : Ctx → Option Ctx}
    (hn : ∀ i c, s.pollPc i = .registered c → next c = s.next c) :
    view { s with next := next } = view s := by
  funext r
  cases r with
  | pollChain i =>
    cases hi : s.pollPc i with
    | registered c => simp [view, hi, PollPc.rest, hn i c hi]
    | _ => simp [view, hi, PollPc.rest]
  | _ => rfl

end

/-! ## Changing the lists -/

theorem Inv.keep (h : Inv s lists) (htidy : Tidy s') (hview : view s' = view s)
    (hnext : s'.next = s.next) (hacc : s'.accepted = s.accepted)
    (hcomp : s'.completed = s.completed) (hroute : ∀ p, ∀ c ∈ lists p, Routed (s'.ctx c) p) :
    Inv s' lists where
  holds p := by
    rw [hview, hnext]
    exact h.holds p
  count c := by
    rw [hacc, hcomp]
    exact h.count c
  routed := hroute
  tidy := htidy

theorem Inv.change {l : List Ctx} {v : View Ctx} (h : Inv s lists) (htidy : Tidy s')
    (hctx : s'.ctx = s.ctx)
    (hview : view s' = Function.update (view s) p v) (hp : v.Holds s'.next l)
    (hroute : ∀ c ∈ l, Routed (s.ctx c) p)
    (hnext : ∀ r, r ≠ p → ∀ c ∈ lists r, s'.next c = s.next c)
    (hcount : ∀ c, l.count c + s'.completed c + s.accepted c =
      (lists p).count c + s.completed c + s'.accepted c) :
    Inv s' (Function.update lists p l) where
  holds r := by
    rw [hview]
    by_cases hr : r = p
    · subst hr
      rw [Function.update_self, Function.update_self]
      exact hp
    · rw [Function.update_of_ne hr, Function.update_of_ne hr]
      exact (h.holds r).congr (hnext r hr)
  count c := by
    have h₁ := tally_update (List.count c) lists p l
    have h₂ := h.count c
    have h₃ := hcount c
    omega
  routed r c hc := by
    rw [hctx]
    by_cases hr : r = p
    · subst hr
      rw [Function.update_self] at hc
      exact hroute c hc
    · rw [Function.update_of_ne hr] at hc
      exact h.routed r c hc
  tidy := htidy

theorem Inv.move {l₁ l₂ : List Ctx} {v₁ v₂ : View Ctx} (h : Inv s lists) (htidy : Tidy s')
    (hsame : s'.ctx = s.ctx ∧ s'.accepted = s.accepted ∧ s'.completed = s.completed) (hpq : p ≠ q)
    (hview : view s' = Function.update (Function.update (view s) p v₁) q v₂)
    (hp : v₁.Holds s'.next l₁) (hq : v₂.Holds s'.next l₂)
    (hroute₁ : ∀ c ∈ l₁, Routed (s.ctx c) p) (hroute₂ : ∀ c ∈ l₂, Routed (s.ctx c) q)
    (hnext : ∀ r, r ≠ p → r ≠ q → ∀ c ∈ lists r, s'.next c = s.next c)
    (hcount : ∀ c, l₁.count c + l₂.count c = (lists p).count c + (lists q).count c) :
    Inv s' (Function.update (Function.update lists p l₁) q l₂) where
  holds r := by
    rw [hview]
    by_cases hrq : r = q
    · subst hrq
      rw [Function.update_self, Function.update_self]
      exact hq
    · rw [Function.update_of_ne hrq, Function.update_of_ne hrq]
      by_cases hrp : r = p
      · subst hrp
        rw [Function.update_self, Function.update_self]
        exact hp
      · rw [Function.update_of_ne hrp, Function.update_of_ne hrp]
        exact (h.holds r).congr (hnext r hrp hrq)
  count c := by
    have h₁ := tally_update_update (List.count c) lists hpq l₁ l₂
    have h₂ := h.count c
    have h₃ := hcount c
    rw [hsame.2.1, hsame.2.2]
    omega
  routed r c hc := by
    rw [hsame.1]
    by_cases hrq : r = q
    · subst hrq
      rw [Function.update_self] at hc
      exact hroute₂ c hc
    · rw [Function.update_of_ne hrq] at hc
      by_cases hrp : r = p
      · subst hrp
        rw [Function.update_self] at hc
        exact hroute₁ c hc
      · rw [Function.update_of_ne hrp] at hc
        exact h.routed r c hc
  tidy := htidy

/-! ## The pushes -/

section

omit [NeZero n] [NeZero m] [DecidableEq Ctx]

theorem perm_of_insert {l l' : List Ctx} (h : ∃ a b, l = a ++ b ∧ l' = a ++ c :: b) :
    l'.Perm (c :: l) := by
  obtain ⟨a, b, rfl, rfl⟩ := h
  exact List.perm_middle

end

omit [NeZero n] [NeZero m] in
/-- A push to the queue of thread `i` puts a context between those that wait for it. -/
theorem advance_of_insert {lists' : Place n m → List Ctx} {i : Fin n} {l' : List Ctx}
    (hins : ∃ a b, lists (.cpuQueue i) = a ++ b ∧ l' = a ++ c :: b)
    (hq : lists' (.cpuQueue i) = l') (hchain : ∀ j, lists' (.cpuChain j) = lists (.cpuChain j))
    (hother : ∀ j, j ≠ i → lists' (.cpuQueue j) = lists (.cpuQueue j))
    (hc : s'.completed = s.completed) (j : Fin n) :
    Advance s s' (order lists j) (order lists' j) := by
  by_cases hj : j = i
  · subst hj
    obtain ⟨a, b, h₁, h₂⟩ := hins
    rw [order, order, hchain, hq, h₁, h₂, ← List.append_assoc, ← List.append_assoc]
    exact .insert hc
  · rw [order, order, hchain, hother j hj]
    exact .same hc

omit [NeZero m] in
theorem cpuPush_spec (hs : s.cpuPush c = some s') {l : List Ctx}
    (hl : (s.cpuQueue (s.cpuId c)).Represents s.next l) (hc : c ∉ l) :
    ∃ q next l', s' = { s with
        next := next, cpuQueue := Function.update s.cpuQueue (s.cpuId c) q } ∧
      SLinkedList.Represents next q l' ∧ (∃ a b, l = a ++ b ∧ l' = a ++ c :: b) ∧
        ∀ y, y ≠ c → y ∉ l → next y = s.next y := by
  obtain ⟨⟨q, next⟩, hq, rfl⟩ := Option.map_eq_some_iff.mp hs
  split_ifs at hq
  · obtain ⟨hrep, hframe⟩ := hl.pushFront hc
    rw [Option.some.injEq] at hq
    rw [hq] at hrep hframe
    exact ⟨q, next, _, rfl, hrep, ⟨[], l, rfl, rfl⟩, fun y hy _ => hframe y hy⟩
  · obtain ⟨q', next', hpush, hrep, hframe⟩ := hl.push hc
    rw [hpush, Option.some.injEq, Prod.mk.injEq] at hq
    obtain ⟨rfl, rfl⟩ := hq
    exact ⟨q', next', _, rfl, hrep, ⟨l, [], (List.append_nil l).symm, rfl⟩, hframe⟩

omit [NeZero n] in
theorem pollPush_spec (hs : s.pollPush c = some s') {l : List Ctx}
    (hl : (s.pollQueue (s.pollId c)).Represents s.next l) (hc : c ∉ l) :
    ∃ q next, s' = { s with
        next := next, pollQueue := Function.update s.pollQueue (s.pollId c) q } ∧
      SLinkedList.Represents next q (l ++ [c]) ∧ ∀ y, y ≠ c → y ∉ l → next y = s.next y := by
  obtain ⟨⟨q, next⟩, hq, rfl⟩ := Option.map_eq_some_iff.mp hs
  obtain ⟨q', next', hpush, hrep, hframe⟩ := hl.push hc
  rw [hpush, Option.some.injEq, Prod.mk.injEq] at hq
  obtain ⟨rfl, rfl⟩ := hq
  exact ⟨q', next', rfl, hrep, hframe⟩

/-! ## The steps -/

theorem Inv.mem_libev (h : Inv s lists) {i : Fin m} (hi : s.pollPc i = .registered c) :
    c ∈ lists (.libev i) := by
  rw [h.libev]
  exact List.mem_append_right _ (h.tidy.registered i c hi)

theorem Inv.cpuChain_eq_nil (h : Inv s lists) {i : Fin n}
    (hi : (s.cpuPc i).view = ⟨[], none, none⟩) : lists (.cpuChain i) = [] := by
  have hold := h.holds (.cpuChain i)
  rw [view, hi] at hold
  exact holds_held.mp hold

theorem Inv.pollChain_eq_nil (h : Inv s lists) {i : Fin m}
    (hi : (s.pollPc i).rest s.next = none) : lists (.pollChain i) = [] := by
  have hold := h.holds (.pollChain i)
  rw [view, hi] at hold
  exact holds_held.mp hold

omit [NeZero n] [NeZero m] [DecidableEq Ctx] in
theorem Tidy.setPoll (h : Tidy s) (i : Fin m) (loop : List Ctx) {pc : PollPc Ctx}
    (hreg : ∀ c, pc = .registered c → c ∈ loop)
    (hpush : ∀ c, pc = .push c → (s.ctx c).type = .cpu) :
    Tidy ({ s with loop := Function.update s.loop i loop }.pollGoto i pc) where
  once := h.once
  launching := h.launching
  registered j c hc := by
    simp only [State.pollGoto] at hc ⊢
    by_cases hj : j = i
    · subst hj
      rw [Function.update_self] at hc ⊢
      exact hreg c hc
    · rw [Function.update_of_ne hj] at hc ⊢
      exact h.registered j c hc
  pushing j c hc := by
    simp only [State.pollGoto] at hc
    by_cases hj : j = i
    · subst hj
      rw [Function.update_self] at hc
      exact hpush c hc
    · rw [Function.update_of_ne hj] at hc
      exact h.pushing j c hc

omit [NeZero n] [NeZero m] [DecidableEq Ctx] in
theorem Tidy.pollGoto (h : Tidy s) {i : Fin m} {pc : PollPc Ctx}
    (hreg : ∀ c, pc = .registered c → c ∈ s.loop i)
    (hpush : ∀ c, pc = .push c → (s.ctx c).type = .cpu) : Tidy (s.pollGoto i pc) := by
  have := h.setPoll i (s.loop i) hreg hpush
  rwa [Function.update_eq_self] at this

theorem Inv.pop (h : Inv s lists) {i : Fin n} {q : SLinkedList Ctx} {next : Ctx → Option Ctx}
    (hi : s.cpuPc i = .pop) (hq : (s.cpuQueue i).pop s.next = some (c, q, next)) :
    Follows s lists ({ s with
      next := next, cpuQueue := Function.update s.cpuQueue i q }.cpuGoto i (.hand c .popped)) := by
  have hrep := holds_queueView.mp (h.holds (.cpuQueue i))
  cases hl : lists (.cpuQueue i) with
  | nil =>
    rw [hl] at hrep
    rw [hrep.pop_nil] at hq
    cases hq
  | cons d l =>
    rw [hl] at hrep
    obtain ⟨q', next', hpop, hrep', hd, hframe⟩ := hrep.pop
    rw [hpop, Option.some.injEq, Prod.mk.injEq, Prod.mk.injEq] at hq
    obtain ⟨rfl, rfl, rfl⟩ := hq
    have hmem : d ∈ lists (.cpuQueue i) := by rw [hl]; exact List.mem_cons_self
    have hnext : ∀ r, r ≠ .cpuQueue i → ∀ c ∈ lists r, next' c = s.next c := fun r hr c hc =>
      hframe c fun hcd => hr (h.unique (hcd ▸ hc) hmem)
    have hnil : lists (.cpuChain i) = [] := h.cpuChain_eq_nil (by rw [hi]; rfl)
    have hview : view ({ s with
        next := next', cpuQueue := Function.update s.cpuQueue i q' }.cpuGoto i (.hand d .popped)) =
          Function.update (Function.update (view s) (.cpuQueue i) (queueView q')) (.cpuChain i)
            ⟨[d], none, none⟩ := by
      rw [view_cpuGoto, view_cpuQueue { s with next := next' },
        view_next fun j c hj => hnext (.libev j) nofun c (h.mem_libev hj)]
      rfl
    refine follows_of_order_eq (Function.update (Function.update lists (.cpuQueue i) l)
      (.cpuChain i) [d]) ?_ rfl fun j => ?_
    swap
    · by_cases hj : j = i
      · subst hj
        simp [order, hl, hnil]
      · simp [order, hj]
    refine h.move ?_ ?_ nofun hview (holds_queueView.mpr hrep') (holds_held.mpr rfl) ?_ ?_ ?_ ?_
    · exact ⟨h.tidy.once, h.tidy.launching, h.tidy.registered, h.tidy.pushing⟩
    · exact ⟨rfl, rfl, rfl⟩
    · intro c hc
      exact h.routed (.cpuQueue i) c (by rw [hl]; exact List.mem_cons_of_mem _ hc)
    · intro c hc
      rw [List.mem_singleton] at hc
      exact h.routed (.cpuQueue i) c (hc ▸ hmem)
    · intro r hr₁ hr₂ c hc
      exact hnext r hr₁ c hc
    · intro c
      rw [hl, hnil, List.count_cons, List.count_cons]
      simp

theorem Inv.counters (h : Inv s lists) (stop aborted : Bool) (refCount : Ctx → ℤ)
    (deleted : Ctx → Bool) (released : Ctx → ℕ) :
    Inv { s with
      stop := stop, aborted := aborted, refCount := refCount, deleted := deleted
      released := released } lists where
  holds := h.holds
  count := h.count
  routed := h.routed
  tidy := ⟨h.tidy.once, h.tidy.launching, h.tidy.registered, h.tidy.pushing⟩

theorem Inv.launchGoto (h : Inv s lists) {pc : Option LaunchPc}
    (hc : pc ≠ none → s.accepted c = s.completed c) : Inv (s.launchGoto c pc) lists where
  holds := h.holds
  count := h.count
  routed := h.routed
  tidy := by
    refine ⟨h.tidy.once, fun d hd => ?_, h.tidy.registered, h.tidy.pushing⟩
    by_cases hdc : d = c
    · subst hdc
      exact hc (by simpa [State.launchGoto] using hd)
    · exact h.tidy.launching d (by simpa [State.launchGoto, hdc] using hd)

theorem Inv.cpuGoto (h : Inv s lists) {i : Fin n} {pc : CpuPc Ctx}
    (hpc : pc.view = (s.cpuPc i).view) : Inv (s.cpuGoto i pc) lists := by
  refine h.keep ?_ ?_ rfl rfl rfl h.routed
  · exact ⟨h.tidy.once, h.tidy.launching, h.tidy.registered, h.tidy.pushing⟩
  · rw [view_cpuGoto, hpc]
    exact Function.update_eq_self (.cpuChain i) (view s)

theorem Inv.pollGoto (h : Inv s lists) {i : Fin m} {pc : PollPc Ctx}
    (hrest : pc.rest s.next = (s.pollPc i).rest s.next) (hheld : pc.held = (s.pollPc i).held)
    (htidy : Tidy (s.pollGoto i pc)) : Inv (s.pollGoto i pc) lists := by
  refine h.keep htidy ?_ rfl rfl rfl h.routed
  rw [view_pollGoto, update_pollChain hrest, update_libev (by rw [hheld])]

/-- A context that is nowhere, or is on its way to a cpu queue, may change. -/
theorem Inv.setCtx (h : Inv s lists) {x : Context}
    (hroute : ∀ p, c ∈ lists p → Routed x p)
    (hpush : ∀ i, s.pollPc i = .push c → x.type = .cpu) :
    Inv { s with ctx := Function.update s.ctx c x } lists := by
  refine h.keep ⟨h.tidy.once, h.tidy.launching, h.tidy.registered, fun i d hd => ?_⟩
    rfl rfl rfl rfl fun p d hd => ?_
  · by_cases hdc : d = c
    · subst hdc
      simpa using hpush i hd
    · simpa [hdc] using h.tidy.pushing i d hd
  · by_cases hdc : d = c
    · subst hdc
      simpa using hroute p hd
    · simpa [hdc] using h.routed p d hd

/-- The first context of a cpu thread's chain is completed. It is at no other place, so that the
orders of the other threads stay. -/
theorem Inv.advance_of_first (h : Inv s lists) {i : Fin n} {l : List Ctx}
    (hl : lists (.cpuChain i) = c :: l)
    (hc : s'.completed = Function.update s.completed c (s.completed c + 1)) (j : Fin n) :
    Advance s s' (order lists j) (order (Function.update lists (.cpuChain i) l) j) := by
  have hmem : c ∈ lists (.cpuChain i) := by rw [hl]; exact List.mem_cons_self
  by_cases hj : j = i
  · subst hj
    have ho : order lists j = c :: order (Function.update lists (.cpuChain j) l) j := by
      simp [order, hl]
    rw [ho]
    exact .first hc
  · have ho : order (Function.update lists (.cpuChain i) l) j = order lists j := by
      simp [order, hj]
    rw [ho]
    refine .other (fun hd => ?_) hc
    rcases List.mem_append.mp hd with hd | hd
    · exact hj (by cases h.unique hd hmem; rfl)
    · cases h.unique hd hmem

omit [NeZero n] [NeZero m] in
theorem Tidy.complete (h : Tidy s) (hacc : s.accepted c = s.completed c + 1) :
    Tidy { s with completed := Function.update s.completed c (s.completed c + 1) } := by
  refine ⟨fun d => ?_, fun d hd => ?_, h.registered, h.pushing⟩
  · have := h.once d
    simp only [Function.update_apply]
    split_ifs with hdc
    · subst hdc
      omega
    · exact this
  · have hne : d ≠ c := by
      rintro rfl
      have := h.launching d hd
      omega
    simpa [hne] using h.launching d hd

theorem Inv.onComplete (h : Inv s lists) {i : Fin n} {k : After Ctx} (hi : s.cpuPc i = .hand c k) :
    Follows s lists ({ s with
      completed := Function.update s.completed c (s.completed c + 1) }.cpuGoto i
        (.complete c k)) := by
  have hold := h.holds (.cpuChain i)
  rw [view, hi] at hold
  obtain ⟨l, hl, hseg⟩ := holds_chain.mp hold
  have hmem : c ∈ lists (.cpuChain i) := by rw [hl]; exact List.mem_cons_self
  have htidy := h.tidy.complete (h.launched hmem)
  refine ⟨Function.update lists (.cpuChain i) l, ?_, h.advance_of_first hl rfl⟩
  refine h.change ?_ rfl (view_cpuGoto _ i _) (holds_chain.mpr ⟨l, rfl, hseg⟩) ?_ ?_ ?_
  · exact ⟨htidy.once, htidy.launching, htidy.registered, htidy.pushing⟩
  · intro d hd
    exact h.routed _ d (by rw [hl]; exact List.mem_cons_of_mem _ hd)
  · exact fun _ _ _ _ => rfl
  · intro d
    rw [hl]
    simp only [State.cpuGoto, Function.update_apply, List.cons_append, List.nil_append,
      List.count_cons, beq_iff_eq, eq_comm (a := c)]
    split_ifs with hdc
    · subst hdc
      omega
    · omega

theorem Inv.cpuClear (h : Inv s lists) {i : Fin n} (hi : s.cpuPc i = .clear) :
    Follows s lists ({ s with cpuQueue := Function.update s.cpuQueue i .new }.cpuGoto i
      (.walk (s.cpuQueue i).head)) := by
  have hrep := holds_queueView.mp (h.holds (.cpuQueue i))
  have hnil : lists (.cpuChain i) = [] := h.cpuChain_eq_nil (by rw [hi]; rfl)
  have hview : view ({ s with cpuQueue := Function.update s.cpuQueue i .new }.cpuGoto i
      (.walk (s.cpuQueue i).head)) =
        Function.update (Function.update (view s) (.cpuQueue i) (queueView .new)) (.cpuChain i)
          ⟨[], (s.cpuQueue i).head, none⟩ := by
    rw [view_cpuGoto, view_cpuQueue]
    rfl
  refine follows_of_order_eq (Function.update (Function.update lists (.cpuQueue i) [])
    (.cpuChain i) (lists (.cpuQueue i))) ?_ rfl fun j => ?_
  swap
  · by_cases hj : j = i
    · subst hj
      simp [order, hnil]
    · simp [order, hj]
  refine h.move ?_ ?_ nofun hview (holds_queueView.mpr (SLinkedList.represents_new _))
    (holds_chain.mpr ⟨_, rfl, hrep.links⟩) nofun (h.routed (.cpuQueue i)) ?_ ?_
  · exact ⟨h.tidy.once, h.tidy.launching, h.tidy.registered, h.tidy.pushing⟩
  · exact ⟨rfl, rfl, rfl⟩
  · exact fun _ _ _ _ _ => rfl
  · intro c
    rw [hnil, Nat.add_comm]

theorem Inv.fetch (h : Inv s lists) {i : Fin n} (hi : s.cpuPc i = .walk (some c)) :
    Follows s lists (s.cpuGoto i (.hand c (.chain (s.next c)))) := by
  have hold := h.holds (.cpuChain i)
  rw [view, hi] at hold
  obtain ⟨l, hl, hseg⟩ := holds_chain.mp hold
  cases l with
  | nil => cases hseg
  | cons d l =>
    obtain ⟨hd, hseg⟩ := hseg
    cases hd
    refine follows_of_order_eq (Function.update lists (.cpuChain i) (c :: l)) ?_ rfl
      fun j => ?_
    swap
    · rw [show c :: l = lists (.cpuChain i) from hl.symm, Function.update_eq_self]
    refine h.change ?_ rfl (view_cpuGoto s i _) (holds_chain.mpr ⟨l, rfl, hseg⟩) ?_ ?_ ?_
    · exact ⟨h.tidy.once, h.tidy.launching, h.tidy.registered, h.tidy.pushing⟩
    · intro d hd
      exact h.routed _ d (by rw [hl]; exact hd)
    · exact fun _ _ _ _ => rfl
    · intro d
      rw [hl]
      rfl

theorem Inv.fire (h : Inv s lists) {i : Fin m} (revents : Revents) (hi : s.pollPc i = .run)
    (hc : c ∈ s.loop i) :
    Follows s lists
      ({ s with loop := Function.update s.loop i ((s.loop i).erase c) }.pollGoto i
        (.callback c revents)) := by
  have hl := h.libev i
  rw [hi] at hl
  have hperm := List.perm_cons_erase hc
  refine follows_of_order_eq (Function.update lists (.libev i)
    (c :: (s.loop i).erase c)) ?_ rfl fun j => by simp [order]
  have hview : view ({ s with loop := Function.update s.loop i ((s.loop i).erase c) }.pollGoto i
      (.callback c revents)) =
        Function.update (view s) (.libev i) ⟨c :: (s.loop i).erase c, none, none⟩ := by
    rw [view_setPoll, update_pollChain (by rw [hi]; rfl)]
    rfl
  refine h.change ?_ rfl hview (holds_held.mpr rfl) ?_ ?_ ?_
  · exact h.tidy.setPoll i _ nofun nofun
  · intro d hd
    refine h.routed _ d ?_
    rw [hl]
    exact hperm.mem_iff.mpr hd
  · exact fun _ _ _ _ => rfl
  · intro d
    rw [hl, ← hperm.count_eq]
    rfl

theorem Inv.pollClear (h : Inv s lists) {i : Fin m} (hi : s.pollPc i = .run) :
    Follows s lists ({ s with pollQueue := Function.update s.pollQueue i .new }.pollGoto i
      (.walk (s.pollQueue i).head)) := by
  have hrep := holds_queueView.mp (h.holds (.pollQueue i))
  have hnil : lists (.pollChain i) = [] := h.pollChain_eq_nil (by rw [hi]; rfl)
  have hview : view ({ s with pollQueue := Function.update s.pollQueue i .new }.pollGoto i
      (.walk (s.pollQueue i).head)) =
        Function.update (Function.update (view s) (.pollQueue i) (queueView .new)) (.pollChain i)
          ⟨[], (s.pollQueue i).head, none⟩ := by
    rw [view_pollGoto, Function.update_comm (by nofun), update_libev (by dsimp only; rw [hi]; rfl),
      view_pollQueue]
    rfl
  refine follows_of_order_eq (Function.update (Function.update lists (.pollQueue i) [])
    (.pollChain i) (lists (.pollQueue i))) ?_ rfl fun j => by simp [order]
  refine h.move ?_ ?_ nofun hview (holds_queueView.mpr (SLinkedList.represents_new _))
    (holds_chain.mpr ⟨_, rfl, hrep.links⟩) nofun (h.routed (.pollQueue i)) ?_ ?_
  · have htidy : Tidy { s with pollQueue := Function.update s.pollQueue i .new } :=
      ⟨h.tidy.once, h.tidy.launching, h.tidy.registered, h.tidy.pushing⟩
    exact htidy.pollGoto nofun nofun
  · exact ⟨rfl, rfl, rfl⟩
  · exact fun _ _ _ _ _ => rfl
  · intro c
    rw [hnil, Nat.add_comm]

theorem Inv.evOnce (h : Inv s lists) {i : Fin m} (hi : s.pollPc i = .walk (some c)) :
    Follows s lists ({ s with loop := Function.update s.loop i (s.loop i ++ [c]) }.pollGoto i
      (.registered c)) := by
  have hold := h.holds (.pollChain i)
  rw [view, hi] at hold
  obtain ⟨l, hl, hseg⟩ := holds_chain.mp hold
  have hlibev := h.libev i
  rw [hi] at hlibev
  cases l with
  | nil => cases hseg
  | cons d l =>
    obtain ⟨hd, hseg⟩ := hseg
    cases hd
    rw [List.nil_append] at hl
    refine follows_of_order_eq (Function.update (Function.update lists (.pollChain i) l)
      (.libev i) (s.loop i ++ [c])) ?_ rfl fun j => by simp [order]
    refine h.move ?_ ?_ nofun (view_setPoll s i _ _) (holds_chain.mpr ⟨l, rfl, hseg⟩)
      (holds_held.mpr rfl) ?_ ?_ ?_ ?_
    · refine h.tidy.setPoll i _ (fun d hd => ?_) nofun
      cases hd
      exact List.mem_append_right _ (List.mem_singleton_self _)
    · exact ⟨rfl, rfl, rfl⟩
    · intro d hd
      exact h.routed _ d (by rw [hl]; exact List.mem_cons_of_mem _ hd)
    · intro d hd
      rcases List.mem_append.mp hd with hd | hd
      · exact h.routed (.libev i) d (by rw [hlibev]; exact hd)
      · obtain rfl := List.mem_singleton.mp hd
        exact (h.routed (.pollChain i) d (by rw [hl]; exact List.mem_cons_self)).2
    · exact fun _ _ _ _ _ => rfl
    · intro d
      rw [hl, hlibev, List.count_append, List.count_singleton, List.count_cons]
      simp only [PollPc.held, List.nil_append]
      omega

theorem Inv.pollPush (h : Inv s lists) {i : Fin m} (hi : s.pollPc i = .push c)
    (hs : s.cpuPush c = some s') : Follows s lists (s'.pollGoto i .run) := by
  have hlibev := h.libev i
  rw [hi] at hlibev
  have hmem : c ∈ lists (.libev i) := by rw [hlibev]; exact List.mem_cons_self
  have hrep := holds_queueView.mp (h.holds (.cpuQueue (s.cpuId c)))
  obtain ⟨q, next, l', rfl, hrep', hins, hframe⟩ := cpuPush_spec hs hrep fun hc =>
    nomatch h.unique hmem hc
  have hperm := perm_of_insert hins
  have hnext : ∀ r, r ≠ .libev i → r ≠ .cpuQueue (s.cpuId c) → ∀ d ∈ lists r,
      next d = s.next d := fun r hr₁ hr₂ d hd =>
    hframe d (fun hdc => hr₁ (h.unique (hdc ▸ hd) hmem)) fun hd' => hr₂ (h.unique hd hd')
  refine ⟨Function.update (Function.update lists (.libev i) (s.loop i)) (.cpuQueue (s.cpuId c)) l',
    ?_, advance_of_insert hins (Function.update_self _ _ _) (fun j => ?_) (fun j hj => ?_) rfl⟩
  rotate_left
  · simp
  · simp [hj]
  have hview : view ({ s with
      next := next, cpuQueue := Function.update s.cpuQueue (s.cpuId c) q }.pollGoto i .run) =
        Function.update (Function.update (view s) (.libev i) ⟨s.loop i, none, none⟩)
          (.cpuQueue (s.cpuId c)) (queueView q) := by
    have hreg : ∀ j d, s.pollPc j = .registered d → next d = s.next d := by
      intro j d hj
      refine hnext (.libev j) ?_ nofun d (h.mem_libev hj)
      rintro ⟨⟩
      rw [hi] at hj
      cases hj
    rw [view_pollGoto, update_pollChain (by dsimp only; rw [hi]; rfl),
      view_cpuQueue { s with next := next }, view_next hreg, Function.update_comm (by nofun)]
    rfl
  refine h.move ?_ ?_ nofun hview (holds_held.mpr rfl) (holds_queueView.mpr hrep') ?_ ?_ hnext ?_
  · refine Tidy.pollGoto ?_ nofun nofun
    exact ⟨h.tidy.once, h.tidy.launching, h.tidy.registered, h.tidy.pushing⟩
  · exact ⟨rfl, rfl, rfl⟩
  · intro d hd
    exact h.routed _ d (by rw [hlibev]; exact List.mem_cons_of_mem _ hd)
  · intro d hd
    rcases List.mem_cons.mp (hperm.mem_iff.mp hd) with rfl | hd
    · exact ⟨h.tidy.pushing i d hi, rfl⟩
    · exact h.routed _ d hd
  · intro d
    rw [hperm.count_eq, hlibev, List.count_cons]
    simp only [PollPc.held, List.singleton_append, List.count_cons]
    omega

omit [NeZero n] [NeZero m] in
theorem accepted_accept (s : State Ctx n m) (c d : Ctx) :
    (s.accept c).accepted d = s.accepted d + if c = d then 1 else 0 := by
  simp only [State.accept, State.launchGoto, Function.update_apply]
  split_ifs with h₁ h₂ h₂
  · rw [h₁]
  · exact absurd h₁.symm h₂
  · exact absurd h₂.symm h₁
  · rfl

omit [NeZero n] [NeZero m] in
theorem Tidy.accept (h : Tidy s) (hc : s.accepted c = s.completed c) : Tidy (s.accept c) where
  once d := by
    rw [accepted_accept]
    have := h.once d
    change _ ≤ s.completed d + 1
    split_ifs with hcd
    · subst hcd
      omega
    · exact this
  launching d hd := by
    rw [accepted_accept]
    change _ = s.completed d
    by_cases hcd : c = d
    · subst hcd
      simp [State.accept, State.launchGoto] at hd
    · rw [if_neg hcd]
      exact h.launching d (by simpa [State.accept, State.launchGoto, Ne.symm hcd] using hd)
  registered := h.registered
  pushing := h.pushing

theorem Inv.accept {l : List Ctx} {v : View Ctx} (h : Inv s lists)
    (hc : s.accepted c = s.completed c) (htidy : Tidy s')
    (hsame : s'.ctx = s.ctx ∧ s'.accepted = s.accepted ∧ s'.completed = s.completed)
    (hview : view s' = Function.update (view s) p v) (hp : v.Holds s'.next l)
    (hperm : l.Perm (c :: lists p)) (hroute : Routed (s.ctx c) p)
    (hnext : ∀ r, r ≠ p → ∀ c ∈ lists r, s'.next c = s.next c) :
    Inv (s'.accept c) (Function.update lists p l) := by
  refine h.change ?_ hsame.1 hview hp ?_ hnext ?_
  · refine htidy.accept ?_
    rw [hsame.2.1, hsame.2.2]
    exact hc
  · intro d hd
    rcases List.mem_cons.mp (hperm.mem_iff.mp hd) with rfl | hd
    · exact hroute
    · exact h.routed p d hd
  · intro d
    rw [accepted_accept, hperm.count_eq, List.count_cons, hsame.2.1]
    change _ + s'.completed d + _ = _
    rw [hsame.2.2]
    simp only [beq_iff_eq]
    omega

theorem Inv.push (h : Inv s lists) (hc : s.launchPc c = some .push) (hs : s.push c = some s') :
    Follows s lists (s'.accept c) := by
  have hidle := h.tidy.launching c (by rw [hc]; nofun)
  have hnot := h.not_mem hidle
  have hne : ∀ r, ∀ d ∈ lists r, d ≠ c := fun r d hd hdc => hnot r (hdc ▸ hd)
  unfold State.push at hs
  split at hs
  · next hty =>
    have hrep := holds_queueView.mp (h.holds (.cpuQueue (s.cpuId c)))
    obtain ⟨q, next, l', rfl, hrep', hins, hframe⟩ := cpuPush_spec hs hrep (hnot _)
    have hperm := perm_of_insert hins
    have hnext : ∀ r, r ≠ .cpuQueue (s.cpuId c) → ∀ d ∈ lists r, next d = s.next d :=
      fun r hr d hd => hframe d (hne r d hd) fun hd' => hr (h.unique hd hd')
    refine ⟨Function.update lists (.cpuQueue (s.cpuId c)) l', h.accept hidle ?_ ⟨rfl, rfl, rfl⟩
      ?_ (holds_queueView.mpr hrep') hperm ⟨hty, rfl⟩ hnext,
      advance_of_insert hins (Function.update_self _ _ _) (fun j => ?_) (fun j hj => ?_) rfl⟩
    · exact ⟨h.tidy.once, h.tidy.launching, h.tidy.registered, h.tidy.pushing⟩
    · rw [view_cpuQueue { s with next := next },
        view_next fun j d hj => hnext (.libev j) nofun d (h.mem_libev hj)]
    · simp
    · simp [hj]
  · next hty =>
    have hrep := holds_queueView.mp (h.holds (.pollQueue (s.pollId c)))
    obtain ⟨q, next, rfl, hrep', hframe⟩ := pollPush_spec hs hrep (hnot _)
    have hnext : ∀ r, r ≠ .pollQueue (s.pollId c) → ∀ d ∈ lists r, next d = s.next d :=
      fun r hr d hd => hframe d (hne r d hd) fun hd' => hr (h.unique hd hd')
    refine follows_of_order_eq (Function.update lists (.pollQueue (s.pollId c))
      (lists (.pollQueue (s.pollId c)) ++ [c])) (h.accept hidle ?_ ⟨rfl, rfl, rfl⟩ ?_
      (holds_queueView.mpr hrep') (List.perm_append_singleton c _) ⟨hty, rfl⟩ hnext) rfl
      fun j => by simp [order]
    · exact ⟨h.tidy.once, h.tidy.launching, h.tidy.registered, h.tidy.pushing⟩
    · rw [view_pollQueue { s with next := next },
        view_next fun j d hj => hnext (.libev j) nofun d (h.mem_libev hj)]
  · cases hs

omit [NeZero n] [NeZero m] [DecidableEq Ctx] in
theorem CpuPc.Free.view_eq {pc : CpuPc Ctx} (h : pc.Free) : pc.view = ⟨[], none, none⟩ := by
  rcases h with rfl | rfl | rfl | rfl <;> rfl

omit [NeZero n] [NeZero m] [DecidableEq Ctx] in
theorem PollPc.Free.rest_eq {pc : PollPc Ctx} (h : pc.Free) (next : Ctx → Option Ctx) :
    pc.rest next = none ∧ pc.held = [] := by
  rcases h with rfl | rfl | rfl | rfl <;> exact ⟨rfl, rfl⟩

theorem Inv.pollFree (h : Inv s lists) {i : Fin m} {pc : PollPc Ctx} (hi : (s.pollPc i).Free)
    (hpc : pc.Free) : Inv (s.pollGoto i pc) lists := by
  obtain ⟨hrest, hheld⟩ := hi.rest_eq s.next
  obtain ⟨hrest', hheld'⟩ := hpc.rest_eq s.next
  refine h.pollGoto (by rw [hrest, hrest']) (by rw [hheld, hheld']) (h.tidy.pollGoto ?_ ?_)
  · rintro d rfl
    rcases hpc with hpc | hpc | hpc | hpc <;> cases hpc
  · rintro d rfl
    cases hheld'

theorem Inv.netCallback (h : Inv s lists) {i : Fin m} {revents : Revents}
    (hi : s.pollPc i = .callback c revents) :
    Inv { s with ctx := Function.update s.ctx c ((s.ctx c).netCallback revents) } lists := by
  have hmem : c ∈ lists (.libev i) := by
    rw [h.libev, hi]
    exact List.mem_cons_self
  refine h.setCtx (fun p hp => ?_) fun _ _ => rfl
  obtain rfl := h.unique hp hmem
  exact h.routed (.libev i) c hmem

/-- **One step**: the lists after it, and what becomes of the order of each cpu thread. -/
theorem inv_step (hs : Step s s') (h : Inv s lists) : Follows s lists s' := by
  cases hs with
  | init x hc =>
    refine follows_of_inv rfl (h.setCtx (fun p hp => absurd hp (h.not_mem hc.1 p)) fun i hi => ?_)
    refine absurd ?_ (h.not_mem hc.1 (.libev i))
    rw [h.libev, hi]
    exact List.mem_cons_self
  | foreign => exact follows_of_inv rfl h
  | acquire hc => exact follows_of_inv rfl ((h.counters _ _ _ _ _).launchGoto fun _ => hc.1)
  | dispatch hc pc =>
    exact follows_of_inv rfl (h.launchGoto fun _ => h.tidy.launching _ (by rw [hc]; nofun))
  | launched hc hpush => exact h.push hc hpush
  | rollback hc => exact follows_of_inv rfl ((h.counters _ _ _ _ _).launchGoto (absurd rfl))
  | stop => exact follows_of_inv rfl (h.counters _ _ _ _ _)
  | cpuFree hi hp => exact follows_of_inv rfl (h.cpuGoto (by rw [hi.view_eq, hp.view_eq]))
  | pop hi hq => exact h.pop hi hq
  | onComplete hi => exact h.onComplete hi
  | completed hi => exact follows_of_inv rfl (h.cpuGoto (by rw [hi]; rfl))
  | @release i c k hi =>
    refine follows_of_inv rfl ((h.counters _ _ _ _ _).cpuGoto ?_)
    dsimp only
    rw [hi]
    cases k <;> rfl
  | cpuClear hi => exact h.cpuClear hi
  | fetch hi => exact h.fetch hi
  | pollFree hi hp => exact follows_of_inv rfl (h.pollFree hi hp)
  | fire revents hi hc => exact h.fire revents hi hc
  | pollClear hi => exact h.pollClear hi
  | @callback i c revents hi =>
    have h' := h.netCallback hi
    refine follows_of_inv rfl (h'.pollGoto (by dsimp only; rw [hi]; rfl)
      (by dsimp only; rw [hi]; rfl) (h'.tidy.pollGoto nofun ?_))
    rintro d ⟨⟩
    simp [Context.netCallback, Context.initCpuEvent]
  | pollPush hi hpush => exact h.pollPush hi hpush
  | evOnce hi => exact h.evOnce hi
  | advance hi =>
    exact follows_of_inv rfl (h.pollGoto (by rw [hi]; rfl) (by rw [hi]; rfl)
      (h.tidy.pollGoto nofun nofun))
  | abort => exact follows_of_inv rfl (h.counters _ _ _ _ _)
  | callbackAbort hi => exact follows_of_inv rfl ((h.netCallback hi).counters _ _ _ _ _)

theorem inv_new (ctx : Ctx → Context) (mine : Ctx → Bool) :
    Inv (.new n m ctx mine) fun _ => [] where
  holds p := by cases p <;> exact ⟨[], rfl, rfl, fun _ ht => by cases ht <;> rfl⟩
  count c := by rw [tally_const _ List.count_nil]; rfl
  routed := nofun
  tidy := ⟨fun _ => Nat.zero_le _, fun _ _ => rfl, nofun, nofun⟩

/-- The lists of a state that is reached. -/
theorem exists_inv_of_run {ctx : Ctx → Context} {mine : Ctx → Bool} {as : List (Act Ctx n m)}
    (hrun : StepRun.run step (.new n m ctx mine) as = some s) : ∃ lists, Inv s lists := by
  refine StepRun.invariant_of_run (I := fun t => ∃ lists, Inv t lists) (fun t a t' ht hs => ?_) hrun
    ⟨_, inv_new ctx mine⟩
  obtain ⟨lists, h⟩ := ht
  obtain ⟨lists', h', -⟩ := inv_step (step_cases hs) h
  exact ⟨lists', h'⟩

/-! ## One place for each launched context -/

theorem Inv.at_iff (h : Inv s lists) : At s p c ↔ c ∈ lists p := by
  obtain ⟨l, hl, hseg, -⟩ := h.holds p
  rw [At, hl, List.mem_append, reaches_iff_mem hseg]

omit [NeZero n] [NeZero m] [DecidableEq Ctx] in
/-- A launch of the context was accepted and has not been completed. -/
def Launched (s : State Ctx n m) (c : Ctx) : Prop := s.completed c < s.accepted c

/-- **Each launched context is at one place, and completed once**: whatever the interleaving, a
launched context that is not completed yet is in exactly one queue, drained chain or libev loop, the
one that its type and its `thread_hint` name, every other context is in none, no list has a cycle,
and every launch is followed by at most one `onComplete` before the next one. -/
theorem launched_at_one_place {ctx : Ctx → Context} {mine : Ctx → Bool}
    {as : List (Act Ctx n m)} (hrun : StepRun.run step (.new n m ctx mine) as = some s) :
    (∀ c, (Launched s c → ∃! p, At s p c) ∧ (¬ Launched s c → ∀ p, ¬ At s p c)) ∧
      (∀ p c, At s p c → Routed (s.ctx c) p) ∧
      (∀ p c, Reaches s.next (view s p).head c →
        ¬ Relation.TransGen (fun a b => s.next a = some b) c c) ∧
      ∀ c, s.completed c ≤ s.accepted c ∧ s.accepted c ≤ s.completed c + 1 := by
  obtain ⟨lists, h⟩ := exists_inv_of_run hrun
  refine ⟨fun c => ⟨fun hc => ?_, fun hc p hp => hc ?_⟩, fun p c hp => ?_, fun p c hc => ?_,
    fun c => ?_⟩
  · have hpos : 0 < tally (List.count c) lists := by
      have := h.count c
      unfold Launched at hc
      omega
    obtain ⟨p, hp⟩ := tally_pos_iff.mp hpos
    have hmem := List.count_pos_iff.mp hp
    exact ⟨p, h.at_iff.mpr hmem, fun q hq => h.unique (h.at_iff.mp hq) hmem⟩
  · have := h.launched (h.at_iff.mp hp)
    unfold Launched
    omega
  · exact h.routed p c (h.at_iff.mp hp)
  · obtain ⟨l, -, hseg, -⟩ := h.holds p
    exact not_cyclic_of_seg hseg hc
  · exact ⟨h.completed_le c, h.tidy.once c⟩

end

/-- A context for the net and one for the cpu. -/
def netAndCpu : Bool → Context
  | false => ⟨.net, 2, false, 0, false, false, false⟩
  | true => ⟨.cpu, 1, false, 0, false, false, false⟩

/-- Both are launched. The first goes through the poll queue, its chain and libev to the cpu queue;
there the cpu thread pops the second. -/
def passingOn : List (Act Bool 1 1) :=
  [.launch false, .launchStep false, .launchStep false, .poll only none, .poll only none,
    .poll only none, .poll only none, .poll only none, .launch true, .launchStep true,
    .launchStep true, .poll only none, .poll only (some (false, ⟨false, true, false, false⟩)),
    .poll only none, .poll only none, .cpu only false, .cpu only false]

theorem launched_passingOn : ∃ s, StepRun.run step (.new 1 1 netAndCpu fun _ => true) passingOn =
    some s ∧ (∀ c, Launched s c) ∧ s.cpuPc 0 = .hand true .popped ∧
      (s.cpuQueue 0).head = some false ∧ ∀ c, ∃! p, At s p c := by
  have h : ((StepRun.run step (.new 1 1 netAndCpu fun _ => true) passingOn).any fun s =>
      decide ((∀ c, s.completed c < s.accepted c) ∧ s.cpuPc 0 = .hand true .popped ∧
        (s.cpuQueue 0).head = some false)) = true := by
    decide +kernel
  obtain ⟨s, hs, hp⟩ := (Option.any_eq_true _ _).mp h
  obtain ⟨hl, hpc, hq⟩ := of_decide_eq_true hp
  exact ⟨s, hs, hl, hpc, hq, fun c => ((launched_at_one_place hs).1 c).1 (hl c)⟩

end Sperm.Itachi
