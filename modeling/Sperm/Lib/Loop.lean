import Mathlib.Data.List.Basic
import Mathlib.Tactic.Common

/-!
# Counting loops

A loop over `i` is a fold over the values of `i`. `P i s` says what is known of the state `s` before
the pass for `i`.

* **`foldl_range`**, `foldl_range'`: loops from `0` and from `a`.
* **`foldlM_range`**: a loop whose passes can fail, and do not; `foldlM_eq_none`, a pass that fails.
-/

namespace Loop

variable {σ ι : Type} {P : ℕ → σ → Prop} {s : σ} {n : ℕ}

theorem foldl_range {f : σ → ℕ → σ} (h0 : P 0 s) (hs : ∀ i < n, ∀ s, P i s → P (i + 1) (f s i)) :
    P n ((List.range n).foldl f s) := by
  induction n with
  | zero => exact h0
  | succ n ih =>
    rw [List.range_succ, List.foldl_append]
    exact hs n n.lt_succ_self _ (ih fun i hi => hs i (Nat.lt_succ_of_lt hi))

theorem foldl_range' {a : ℕ} {f : σ → ℕ → σ} (h0 : P 0 s)
    (hs : ∀ i < n, ∀ s, P i s → P (i + 1) (f s (i + a))) : P n ((List.range' a n).foldl f s) := by
  induction n with
  | zero => exact h0
  | succ n ih =>
    rw [List.range'_1_concat, List.foldl_append, Nat.add_comm a n]
    exact hs n n.lt_succ_self _ (ih fun i hi => hs i (Nat.lt_succ_of_lt hi))

/-- **A loop without failures**: each pass has a result that keeps what is known. -/
theorem foldlM_range {f : σ → ℕ → Option σ} (h0 : P 0 s)
    (hs : ∀ i < n, ∀ s, P i s → ∃ s', f s i = some s' ∧ P (i + 1) s') :
    ∃ s', (List.range n).foldlM f s = some s' ∧ P n s' := by
  induction n with
  | zero => exact ⟨s, rfl, h0⟩
  | succ n ih =>
    obtain ⟨s', hloop, hP⟩ := ih fun i hi => hs i (Nat.lt_succ_of_lt hi)
    obtain ⟨s'', hstep, hP'⟩ := hs n n.lt_succ_self s' hP
    refine ⟨s'', ?_, hP'⟩
    rw [List.range_succ, List.foldlM_append, hloop, Option.bind_eq_bind, Option.bind_some,
      List.foldlM_cons, hstep]
    rfl

theorem foldlM_eq_none {f : σ → ι → Option σ} {l : List ι} {i : ι} (hi : i ∈ l)
    (hnone : ∀ s, f s i = none) : l.foldlM f s = none := by
  induction l generalizing s with
  | nil => cases hi
  | cons j l ih =>
    rw [List.foldlM_cons]
    rcases List.mem_cons.mp hi with rfl | hi
    · rw [hnone]
      rfl
    · cases f s j with
      | none => rfl
      | some s' => exact ih hi

end Loop
