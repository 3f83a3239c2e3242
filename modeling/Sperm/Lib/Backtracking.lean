import Mathlib.Data.List.Nodup
import Mathlib.Tactic.Common

/-!
# Backtracking

A search puts what it tries behind a buffer, which it gives back as it was, and adds to the results.

* `Enumerates P ws`: the list `ws` has what `P` holds of, each once; how such lists are put
  together.
* `Adds F P v res r`: a call with the buffer `v` and the results `res`, which has the outcome `r`,
  adds `F (v ++ w)` for every `w` with `P w`.
* **`Adds.trans`**, **`Adds.push`**: one call after the other, and a call with a longer buffer.
* **`Adds.enumerates`**: the results of a whole search.
-/

namespace Backtracking

variable {α β γ : Type} {P Q : α → Prop} {ws ws' : List α} {x : α}

/-- The list `ws` has what `P` holds of, each once. -/
structure Enumerates (P : α → Prop) (ws : List α) : Prop where
  nodup : ws.Nodup
  mem_iff : ∀ w, w ∈ ws ↔ P w

theorem Enumerates.congr (h : Enumerates P ws) (hPQ : ∀ w, P w ↔ Q w) : Enumerates Q ws :=
  ⟨h.nodup, fun w => (h.mem_iff w).trans (hPQ w)⟩

theorem enumerates_nil (h : ∀ w, ¬ P w) : Enumerates P [] :=
  ⟨List.nodup_nil, fun w => iff_of_false List.not_mem_nil (h w)⟩

theorem enumerates_singleton (h : ∀ w, P w ↔ w = x) : Enumerates P [x] :=
  ⟨List.nodup_singleton x, fun w => List.mem_singleton.trans (h w).symm⟩

theorem Enumerates.append (h : Enumerates P ws) (h' : Enumerates Q ws')
    (hapart : ∀ w, P w → ¬ Q w) : Enumerates (fun w => P w ∨ Q w) (ws ++ ws') := by
  constructor
  · refine List.nodup_append.mpr ⟨h.nodup, h'.nodup, fun w hw w' hw' heq => ?_⟩
    rw [h.mem_iff] at hw
    rw [h'.mem_iff, ← heq] at hw'
    exact hapart w hw hw'
  · intro w
    rw [List.mem_append, h.mem_iff, h'.mem_iff]

theorem Enumerates.map (h : Enumerates P ws) {f : α → β}
    (hf : ∀ w w', P w → P w' → f w = f w' → w = w') :
    Enumerates (fun y => ∃ w, P w ∧ f w = y) (ws.map f) := by
  constructor
  · refine (List.nodup_map_iff_inj_on h.nodup).mpr fun w hw w' hw' => ?_
    exact hf w w' ((h.mem_iff w).mp hw) ((h.mem_iff w').mp hw')
  · intro y
    rw [List.mem_map]
    exact exists_congr fun w => and_congr_left' (h.mem_iff w)

/-! ## A buffer and results -/

/-- The outcome `r` has the buffer `v` again, and `F (v ++ w)` in addition to the results `res`,
once for every `w` with `P w`. -/
def Adds (F : List β → γ) (P : List β → Prop) (v : List β) (res : List γ) (r : List β × List γ) :
    Prop :=
  ∃ ws, r = (v, res ++ ws.map fun w => F (v ++ w)) ∧ Enumerates P ws

section Adds

variable {F : List β → γ} {P Q : List β → Prop} {u v w : List β} {res res' : List γ}
  {r r' : List β × List γ}

theorem Adds.fst_eq (h : Adds F P v res r) : r.1 = v := by
  obtain ⟨ws, rfl, -⟩ := h
  rfl

theorem Adds.congr (h : Adds F P v res r) (hPQ : ∀ w, P w ↔ Q w) : Adds F Q v res r := by
  obtain ⟨ws, hr, hws⟩ := h
  exact ⟨ws, hr, hws.congr hPQ⟩

theorem adds_nothing (h : ∀ w, ¬ P w) : Adds F P v res (v, res) :=
  ⟨[], by simp, enumerates_nil h⟩

theorem adds_buffer (h : ∀ w, P w ↔ w = []) : Adds F P v res (v, res ++ [F v]) :=
  ⟨[[]], by simp, enumerates_singleton h⟩

/-- **One call after the other.** -/
theorem Adds.trans (h : Adds F P v res r) (h' : Adds F Q v r.2 r') (hapart : ∀ w, P w → ¬ Q w) :
    Adds F (fun w => P w ∨ Q w) v res r' := by
  obtain ⟨ws, rfl, hws⟩ := h
  obtain ⟨ws', rfl, hws'⟩ := h'
  refine ⟨ws ++ ws', ?_, hws.append hws' hapart⟩
  rw [List.map_append, List.append_assoc]

/-- **A call** with `u` behind the buffer, which is taken away again. -/
theorem Adds.push (h : Adds F P (v ++ u) res r) :
    Adds F (fun w => ∃ w', P w' ∧ u ++ w' = w) v res (v, r.2) := by
  obtain ⟨ws, rfl, hws⟩ := h
  refine ⟨ws.map (u ++ ·), ?_, hws.map fun w w' _ _ hww => List.append_cancel_left hww⟩
  simp [Function.comp_def]

/-- **The results** of a search that starts with nothing, if `F` keeps them apart. -/
theorem Adds.enumerates (h : Adds F P [] [] r)
    (hF : ∀ w w', P w → P w' → F w = F w' → w = w') :
    Enumerates (fun y => ∃ w, P w ∧ F w = y) r.2 := by
  obtain ⟨ws, rfl, hws⟩ := h
  exact hws.map hF

theorem Adds.enumerates_id {r : List β × List (List β)} (h : Adds id P [] [] r) :
    Enumerates P r.2 :=
  (h.enumerates fun _ _ _ _ heq => heq).congr fun w => by simp

end Adds

end Backtracking
