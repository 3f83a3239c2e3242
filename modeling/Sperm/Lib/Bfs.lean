import Mathlib.Data.Fintype.Card
import Sperm.Lib.Walks

/-!
# Breadth-first search

A queue holds places with their distances. The places beside the first of them that are not marked
yet are marked and put at the end, one step further away, until the target is the first.

* `scan`, `bfs`: the search, with the marks as a set.
* `Inv`: what holds of the marks and the queue; **`Inv.step`**: one pass keeps it.
* **`bfs_eq_some_iff`**: the search finds the distance among the places that are not marked at
  first.
-/

namespace Bfs

variable {V : Type} {next : V → List V} {src target n u v : V}
  {vis₀ vis : Finset V} {Q : List (V × ℕ)} {d : ℕ}

/-- One step to a place that is not marked at first. -/
def Step (next : V → List V) (vis₀ : Finset V) (u v : V) : Prop := v ∈ next u ∧ v ∉ vis₀

/-- The marks and the queue, some places having been done with. -/
structure Inv (next : V → List V) (src target : V) (vis₀ vis : Finset V) (Q : List (V × ℕ)) :
    Prop where
  sub : vis₀ ⊆ vis
  marked : src ∈ vis
  dist : ∀ x ∈ Q, IsDist (Step next vis₀) src x.1 x.2
  sorted : Q.Pairwise fun x y => x.2 ≤ y.2 ∧ y.2 ≤ x.2 + 1
  seen : ∀ v ∈ vis, v ∉ vis₀ ∨ v = src →
    (v ≠ target ∧ ∀ w ∈ next v, w ∈ vis) ∨ ∃ d, (v, d) ∈ Q

namespace Inv

theorem start (h : src ∈ vis₀) : Inv next src target vis₀ vis₀ [(src, 0)] where
  sub := Finset.Subset.refl vis₀
  marked := h
  dist := by simp [IsDist.zero_iff]
  sorted := List.pairwise_singleton _ _
  seen := by
    rintro v hv (hnot | rfl)
    · exact absurd hv hnot
    · exact .inr ⟨0, List.mem_singleton_self _⟩

theorem done_or_queued (h : Inv next src target vis₀ vis Q)
    (hw : Walk (Step next vis₀) d src v) (hv : v ∈ vis) :
    (v ≠ target ∧ ∀ w ∈ next v, w ∈ vis) ∨ ∃ d, (v, d) ∈ Q := by
  refine h.seen v hv ?_
  cases d with
  | zero => exact .inr hw.symm
  | succ d =>
    obtain ⟨u, -, -, hfresh⟩ := hw
    exact .inl hfresh

/-- What is no further away than the first in the queue is marked. -/
theorem early (h : Inv next src target vis₀ vis ((n, d) :: Q)) {k : ℕ} (hk : k ≤ d)
    (hw : Walk (Step next vis₀) k src v) : v ∈ vis := by
  induction k generalizing v with
  | zero =>
    obtain rfl : src = v := hw
    exact h.marked
  | succ k ih =>
    obtain ⟨u, hu, hstep, -⟩ := hw
    rcases h.done_or_queued hu (ih (by omega) hu) with ⟨-, hnext⟩ | ⟨e, he⟩
    · exact hnext v hstep
    · -- `u` would be nearer than the first
      have hle : e ≤ k := (h.dist _ he).2 k hu
      rcases List.mem_cons.mp he with heq | he
      · obtain ⟨-, rfl⟩ := Prod.mk.inj heq
        omega
      · have hfirst := (List.pairwise_cons.mp h.sorted).1 _ he
        omega

end Inv

variable [DecidableEq V]

/-- The places `ns` beside one at distance `d`. -/
def scan (d : ℕ) : List V → Finset V × List (V × ℕ) → Finset V × List (V × ℕ)
  | [], x => x
  | v :: ns, x => scan d ns (if v ∈ x.1 then x else (insert v x.1, x.2 ++ [(v, d + 1)]))

theorem mem_scan_fst {ns : List V} {x : Finset V × List (V × ℕ)} :
    v ∈ (scan d ns x).1 ↔ v ∈ x.1 ∨ v ∈ ns := by
  induction ns generalizing x with
  | nil => simp [scan]
  | cons w ns ih =>
    rw [scan, ih]
    split_ifs with hw
    · rw [List.mem_cons]
      constructor
      · exact Or.imp_right .inr
      · rintro (h | rfl | h)
        · exact .inl h
        · exact .inl hw
        · exact .inr h
    · simp only [Finset.mem_insert, List.mem_cons]
      rw [or_comm (a := v = w), or_assoc]

theorem exists_scan_snd (ns : List V) (x : Finset V × List (V × ℕ)) :
    ∃ new : List V, (scan d ns x).2 = x.2 ++ new.map (·, d + 1) ∧
      ∀ v, v ∈ new ↔ v ∈ ns ∧ v ∉ x.1 := by
  induction ns generalizing x with
  | nil => exact ⟨[], by simp [scan], by simp⟩
  | cons w ns ih =>
    rw [scan]
    split_ifs with hw
    · obtain ⟨new, hQ, hnew⟩ := ih x
      refine ⟨new, hQ, fun v => ?_⟩
      rw [hnew, List.mem_cons]
      constructor
      · exact fun h => ⟨.inr h.1, h.2⟩
      · rintro ⟨rfl | h, hv⟩
        · exact absurd hw hv
        · exact ⟨h, hv⟩
    · obtain ⟨new, hQ, hnew⟩ := ih (insert w x.1, x.2 ++ [(w, d + 1)])
      refine ⟨w :: new, by simp [hQ], fun v => ?_⟩
      rw [List.mem_cons, hnew, List.mem_cons, Finset.mem_insert, not_or]
      constructor
      · rintro (rfl | ⟨h, hv⟩)
        · exact ⟨.inl rfl, hw⟩
        · exact ⟨.inr h, hv.2⟩
      · rintro ⟨rfl | h, hv⟩
        · exact .inl rfl
        · by_cases hvw : v = w
          · exact .inl hvw
          · exact .inr ⟨h, hvw, hv⟩

theorem scan_card_le [Fintype V] (ns : List V) (x : Finset V × List (V × ℕ)) :
    2 * (scan d ns x).1ᶜ.card + (scan d ns x).2.length ≤ 2 * x.1ᶜ.card + x.2.length := by
  induction ns generalizing x with
  | nil => exact le_rfl
  | cons v ns ih =>
    refine (ih _).trans ?_
    split_ifs with hv
    · exact le_rfl
    · have hcard : (insert v x.1)ᶜ.card + 1 = x.1ᶜ.card := by
        rw [Finset.compl_insert, Finset.card_erase_add_one (Finset.mem_compl.mpr hv)]
      simp only [List.length_append, List.length_singleton]
      omega

def bfs [Fintype V] (next : V → List V) (target : V) (vis : Finset V) : List (V × ℕ) → Option ℕ
  | [] => none
  | (n, d) :: Q =>
    if n = target then some d
    else bfs next target (scan d (next n) (vis, Q)).1 (scan d (next n) (vis, Q)).2
termination_by Q => 2 * visᶜ.card + Q.length
decreasing_by
  have hle := scan_card_le (d := d) (next n) (vis, Q)
  simp only [List.length_cons]
  exact Nat.lt_succ_of_le hle

/-- **One pass** keeps the invariant. -/
theorem Inv.step (h : Inv next src target vis₀ vis ((n, d) :: Q)) (hn : n ≠ target) :
    Inv next src target vis₀ (scan d (next n) (vis, Q)).1 (scan d (next n) (vis, Q)).2 := by
  obtain ⟨new, hQ, hnew⟩ := exists_scan_snd (d := d) (next n) (vis, Q)
  obtain ⟨hfirst, hsorted⟩ := List.pairwise_cons.mp h.sorted
  have hdist : IsDist (Step next vis₀) src n d := h.dist _ List.mem_cons_self
  rw [hQ]
  refine ⟨?_, ?_, ?_, ?_, ?_⟩
  · intro v hv
    exact mem_scan_fst.mpr (.inl (h.sub hv))
  · exact mem_scan_fst.mpr (.inl h.marked)
  · intro x hx
    rcases List.mem_append.mp hx with hx | hx
    · exact h.dist x (List.mem_cons_of_mem _ hx)
    · obtain ⟨v, hv, rfl⟩ := List.mem_map.mp hx
      obtain ⟨hbeside, hfresh⟩ := (hnew v).mp hv
      refine ⟨⟨n, hdist.1, hbeside, fun h₀ => hfresh (h.sub h₀)⟩, fun e he => ?_⟩
      by_contra hlt
      exact hfresh (h.early (by omega) he)
  · refine List.pairwise_append.mpr ⟨hsorted, ?_, ?_⟩
    · exact List.pairwise_map.mpr (List.pairwise_of_forall fun _ _ => by simp)
    · intro x hx y hy
      obtain ⟨v, -, rfl⟩ := List.mem_map.mp hy
      have hle := hfirst x hx
      dsimp only at hle ⊢
      omega
  · intro v hv hfresh
    by_cases hold : v ∈ vis
    · rcases h.seen v hold hfresh with ⟨hne, hnext⟩ | ⟨e, he⟩
      · exact .inl ⟨hne, fun w hw => mem_scan_fst.mpr (.inl (hnext w hw))⟩
      · rcases List.mem_cons.mp he with heq | he
        · obtain ⟨rfl, -⟩ := Prod.mk.inj heq
          exact .inl ⟨hn, fun w hw => mem_scan_fst.mpr (.inr hw)⟩
        · exact .inr ⟨e, List.mem_append.mpr (.inl he)⟩
    · have hbeside := (mem_scan_fst.mp hv).resolve_left hold
      refine .inr ⟨d + 1, List.mem_append.mpr (.inr ?_)⟩
      exact List.mem_map.mpr ⟨v, (hnew v).mpr ⟨hbeside, hold⟩, rfl⟩

theorem bfs_eq_some_iff_of_inv [Fintype V] (h : Inv next src target vis₀ vis Q) (e : ℕ) :
    bfs next target vis Q = some e ↔ IsDist (Step next vis₀) src target e := by
  fun_induction bfs next target vis Q with
  | case1 vis =>
    -- all that can be reached has been done with, and the target has not
    have hdone : ∀ k v, Walk (Step next vis₀) k src v → v ∈ vis ∧ v ≠ target ∧
        ∀ w ∈ next v, w ∈ vis := by
      intro k
      induction k with
      | zero =>
        intro v hv
        obtain rfl : src = v := hv
        exact ⟨h.marked, (h.done_or_queued (d := 0) rfl h.marked).resolve_right (by simp)⟩
      | succ k ih =>
        intro v hv
        obtain ⟨u, hu, hstep⟩ := id hv
        have hmem : v ∈ vis := (ih u hu).2.2 v hstep.1
        exact ⟨hmem, (h.done_or_queued hv hmem).resolve_right (by simp)⟩
    refine iff_of_false nofun fun hdist => ?_
    exact (hdone e target hdist.1).2.1 rfl
  | case2 vis d Q =>
    have hdist : IsDist (Step next vis₀) src target d := h.dist _ List.mem_cons_self
    rw [Option.some.injEq]
    exact ⟨fun heq => heq ▸ hdist, hdist.unique⟩
  | case3 vis n d Q hn ih => exact ih (h.step hn)

/-- **The search** finds the distance among the places that are not marked at first. -/
theorem bfs_eq_some_iff [Fintype V] (h : src ∈ vis₀) (e : ℕ) :
    bfs next target vis₀ [(src, 0)] = some e ↔ IsDist (Step next vis₀) src target e :=
  bfs_eq_some_iff_of_inv (.start h) e

end Bfs
