import Mathlib.Data.List.Nodup
import Mathlib.Logic.Function.Basic
import Mathlib.Logic.Relation
import Mathlib.Tactic.Common

/-!
# Chains of links in memory

A link field is a map `f : α → Option α` from cells to the cell they point to, with `none` for a
null pointer, and writing the field of one cell is `Function.update`.

* `Seg f p l q`: following `f` from `p` visits exactly the cells `l` and arrives at `q`.
* `seg_append`, `seg_through`: composition; `seg_update`, `seg_congr`: the frame rule;
  `Seg.redirect`, `Seg.extend`: writes to the last cell.
* **`Seg.nodup`**: a chain that ends visits no cell twice.
* `reaches_iff_mem`, `not_cyclic_of_seg`: a chain that ends, in terms of reachability.
-/

namespace Chain

variable {α : Type} {f : α → Option α} {p q : Option α} {x y : α} {l l₁ l₂ : List α}

/-- Following `f` from `p` visits `l` and arrives at `q`. -/
def Seg (f : α → Option α) : Option α → List α → Option α → Prop
  | p, [], q => p = q
  | p, x :: l, q => p = some x ∧ Seg f (f x) l q

@[simp] theorem seg_nil : Seg f p [] q ↔ p = q := Iff.rfl

@[simp] theorem seg_cons : Seg f p (x :: l) q ↔ p = some x ∧ Seg f (f x) l q := Iff.rfl

theorem seg_append : Seg f p (l₁ ++ l₂) q ↔ ∃ r, Seg f p l₁ r ∧ Seg f r l₂ q := by
  induction l₁ generalizing p with
  | nil => simp
  | cons x l₁ ih => simp only [List.cons_append, seg_cons, ih, and_assoc, exists_and_left]

theorem seg_through :
    Seg f p (l₁ ++ x :: l₂) q ↔ Seg f p l₁ (some x) ∧ Seg f (f x) l₂ q := by
  rw [seg_append]
  constructor
  · rintro ⟨r, hl, rfl, hx⟩
    exact ⟨hl, hx⟩
  · rintro ⟨hl, hx⟩
    exact ⟨some x, hl, rfl, hx⟩

theorem seg_snoc : Seg f p (l ++ [x]) q ↔ Seg f p l (some x) ∧ f x = q := seg_through

/-- **The frame rule**: a write to a cell outside a chain does not change it. -/
theorem seg_update [DecidableEq α] {v : Option α} (h : x ∉ l) :
    Seg (Function.update f x v) p l q ↔ Seg f p l q := by
  induction l generalizing p with
  | nil => rfl
  | cons y l ih =>
    rw [List.mem_cons, not_or] at h
    rw [seg_cons, seg_cons, ih h.2, Function.update_of_ne (Ne.symm h.1)]

theorem Seg.redirect [DecidableEq α] {q' : Option α} (h : Seg f p l q) (hnodup : l.Nodup)
    (hx : l.getLast? = some x) : Seg (Function.update f x q') p l q' := by
  obtain ⟨l₁, rfl⟩ := List.getLast?_eq_some_iff.mp hx
  have hfresh : x ∉ l₁ := fun hmem =>
    (List.nodup_append.mp hnodup).2.2 x hmem x (List.mem_singleton_self x) rfl
  rw [seg_snoc] at h ⊢
  exact ⟨(seg_update hfresh).mpr h.1, Function.update_self _ _ _⟩

theorem seg_congr {g : α → Option α} (h : ∀ y ∈ l, g y = f y) : Seg g p l q ↔ Seg f p l q := by
  induction l generalizing p with
  | nil => rfl
  | cons y l ih =>
    rw [seg_cons, seg_cons, h y List.mem_cons_self,
      ih fun z hz => h z (List.mem_cons_of_mem _ hz)]

theorem Seg.head?_eq (h : Seg f p l none) : p = l.head? := by
  cases l with
  | nil => exact h
  | cons x l => exact h.1

theorem Seg.unique (h₁ : Seg f p l₁ none) (h₂ : Seg f p l₂ none) : l₁ = l₂ := by
  induction l₁ generalizing p l₂ with
  | nil =>
    cases l₂ with
    | nil => rfl
    | cons y l₂ => rw [seg_nil.mp h₁] at h₂; cases h₂.1
  | cons x l₁ ih =>
    cases l₂ with
    | nil => rw [seg_nil.mp h₂] at h₁; cases h₁.1
    | cons y l₂ =>
      obtain ⟨rfl, h₁⟩ := h₁
      obtain ⟨hxy, h₂⟩ := h₂
      cases hxy
      rw [ih h₁ h₂]

theorem Seg.extend [DecidableEq α] (h : Seg f p l none) (hnodup : l.Nodup) (hx : x ∉ l)
    (hy : l.getLast? = some y) :
    Seg (Function.update (Function.update f y (some x)) x none) p (l ++ [x]) none :=
  seg_snoc.mpr ⟨(seg_update hx).mpr (h.redirect hnodup hy), Function.update_self _ _ _⟩

theorem Seg.getElem? (h : Seg f p l none) {i : ℕ} (hx : l[i]? = some x) : f x = l[i + 1]? := by
  obtain ⟨hi, rfl⟩ := List.getElem?_eq_some_iff.mp hx
  have hsplit : l.take i ++ l[i] :: l.drop (i + 1) = l := by simp
  rw [← hsplit] at h
  have hhead := (seg_through.mp h).2.head?_eq
  rwa [List.head?_drop] at hhead

theorem Seg.right (h : Seg f p (l₁ ++ x :: l₂) q) : Seg f (f x) l₂ q := (seg_through.mp h).2

/-- **A chain that ends visits no cell twice.** -/
theorem Seg.nodup (h : Seg f p l none) : l.Nodup := by
  induction l generalizing p with
  | nil => exact List.nodup_nil
  | cons x l ih =>
    refine List.nodup_cons.mpr ⟨fun hx => ?_, ih h.2⟩
    -- a second visit to `x` would be followed by the same cells again
    obtain ⟨l₁, l₂, rfl⟩ := List.append_of_mem hx
    have hlen := congrArg List.length (h.2.unique (Seg.right h.2))
    rw [List.length_append, List.length_cons] at hlen
    omega

/-! ## Reachability -/

/-- Following `f` from `p` gets to `x`. -/
def Reaches (f : α → Option α) (p : Option α) (x : α) : Prop :=
  ∃ y, p = some y ∧ Relation.ReflTransGen (fun a b => f a = some b) y x

theorem mem_of_reflTransGen (h : Seg f (some x) l none)
    (hr : Relation.ReflTransGen (fun a b => f a = some b) x y) : y ∈ l := by
  induction hr using Relation.ReflTransGen.head_induction_on generalizing l with
  | refl =>
    cases l with
    | nil => cases h
    | cons z l => cases h.1; exact List.mem_cons_self
  | head hab _ ih =>
    cases l with
    | nil => cases h
    | cons z l =>
      obtain ⟨hz, h⟩ := h
      cases hz
      exact List.mem_cons_of_mem _ (ih (hab ▸ h))

theorem reaches_of_mem (h : Seg f p l q) (hx : x ∈ l) : Reaches f p x := by
  induction l generalizing p with
  | nil => cases hx
  | cons y l ih =>
    obtain ⟨rfl, h⟩ := h
    rcases List.mem_cons.mp hx with rfl | hx
    · exact ⟨x, rfl, .refl⟩
    · obtain ⟨z, hz, hr⟩ := ih h hx
      exact ⟨y, rfl, .head hz hr⟩

theorem reaches_iff_mem (h : Seg f p l none) : Reaches f p x ↔ x ∈ l := by
  refine ⟨?_, reaches_of_mem h⟩
  rintro ⟨y, rfl, hr⟩
  exact mem_of_reflTransGen h hr

/-- **No cycle** can be reached on a chain that ends. -/
theorem not_cyclic_of_seg (h : Seg f p l none) (hx : Reaches f p x) :
    ¬ Relation.TransGen (fun a b => f a = some b) x x := by
  intro hc
  obtain ⟨l₁, l₂, rfl⟩ := List.append_of_mem ((reaches_iff_mem h).mp hx)
  obtain ⟨z, hz, hr⟩ := Relation.TransGen.head'_iff.mp hc
  have hmem : x ∈ l₂ := mem_of_reflTransGen (hz ▸ Seg.right h) hr
  have hnd := (List.nodup_append.mp h.nodup).2.1
  exact (List.nodup_cons.mp hnd).1 hmem

end Chain
