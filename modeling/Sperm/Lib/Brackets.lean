import Mathlib.Data.List.Basic
import Mathlib.Tactic.Common

/-!
# Brackets

* `Brackets α`: which elements of `α` open a bracket, and what closes them.
* `Balanced`: the words of the grammar `B ::= empty | B B | a B b` for matching `a` and `b`.
* `accepts st w`: a stack machine that has read the brackets `st` that are still open.
* `Closes st w`: `w` closes the brackets `st`, with balanced words between them.
* **`accepts_iff_closes`**, **`accepts_iff_balanced`**: what the machine accepts.
-/

/-- Matching brackets, where nothing both opens and closes one. -/
structure Brackets (α : Type) where
  opens : α → Bool
  pair : α → α → Bool
  opens_of_pair : ∀ {a b}, pair a b = true → opens a = true
  not_opens_of_pair : ∀ {a b}, pair a b = true → opens b = false

namespace Brackets

variable {α : Type} {B : Brackets α} {a b : α} {st u v w : List α}

/-- The words in which all brackets match. -/
inductive Balanced (B : Brackets α) : List α → Prop
  | nil : Balanced B []
  | append {u v : List α} : Balanced B u → Balanced B v → Balanced B (u ++ v)
  | wrap {a b : α} {u : List α} : B.pair a b = true → Balanced B u → Balanced B (a :: u ++ [b])

/-- Read `w` with the open brackets `st`, the last one first. -/
def accepts (B : Brackets α) : List α → List α → Bool
  | st, [] => st.isEmpty
  | st, c :: w =>
    if B.opens c then accepts B (c :: st) w
    else
      match st with
      | [] => false
      | x :: st => B.pair x c && accepts B st w

/-- `w` closes the brackets `st`, the first one of the list first. -/
inductive Closes (B : Brackets α) : List α → List α → Prop
  | nil {u : List α} : Balanced B u → Closes B [] u
  | cons {a b : α} {st u w : List α} : B.pair a b = true → Balanced B u → Closes B st w →
      Closes B (a :: st) (u ++ b :: w)

theorem accepts_nil_iff : B.accepts st [] = true ↔ st = [] := List.isEmpty_iff

theorem accepts_open (ha : B.opens a = true) : B.accepts st (a :: w) = B.accepts (a :: st) w := by
  rw [accepts.eq_def]
  exact if_pos ha

theorem accepts_close_nil (hb : B.opens b = false) : B.accepts [] (b :: w) = false := by
  simp [accepts, hb]

theorem accepts_close_cons (hb : B.opens b = false) :
    B.accepts (a :: st) (b :: w) = (B.pair a b && B.accepts st w) := by
  simp [accepts, hb]

theorem accepts_close (hb : B.opens b = false) :
    B.accepts st (b :: w) = true ↔ ∃ a st', st = a :: st' ∧ B.pair a b = true ∧
      B.accepts st' w = true := by
  cases st with
  | nil => simp [accepts_close_nil hb]
  | cons x st => simp [accepts_close_cons hb]

theorem closes_nil_iff : Closes B [] w ↔ Balanced B w := by
  constructor
  · rintro ⟨hw⟩
    exact hw
  · exact Closes.nil

theorem Closes.append (hu : Balanced B u) (h : Closes B st w) : Closes B st (u ++ w) := by
  cases h with
  | nil hw => exact .nil (hu.append hw)
  | cons hab hv hw =>
    rw [← List.append_assoc]
    exact .cons hab (hu.append hv) hw

/-- The machine gets through a balanced word with the same brackets open. -/
theorem Balanced.accepts_append (h : Balanced B u) :
    ∀ st w, B.accepts st (u ++ w) = B.accepts st w := by
  induction h with
  | nil => exact fun _ _ => rfl
  | append _ _ ihu ihv =>
    intro st w
    rw [List.append_assoc, ihu, ihv]
  | wrap hab _ ih =>
    intro st w
    rw [List.append_assoc, List.cons_append, accepts_open (B.opens_of_pair hab), ih,
      List.singleton_append, Bool.eq_iff_iff, accepts_close (B.not_opens_of_pair hab)]
    constructor
    · rintro ⟨a', st', hst, -, hw⟩
      rwa [(List.cons.inj hst).2]
    · exact fun hw => ⟨_, _, rfl, hab, hw⟩

/-- **The machine** accepts what closes the open brackets. -/
theorem accepts_iff_closes : B.accepts st w = true ↔ Closes B st w := by
  constructor
  · intro h
    induction w generalizing st with
    | nil =>
      obtain rfl := accepts_nil_iff.mp h
      exact .nil .nil
    | cons c w ih =>
      cases hc : B.opens c with
      | true =>
        rw [accepts_open hc] at h
        -- the bracket that is opened here is closed somewhere in `w`
        obtain ⟨u, b, v, hcb, hu, hv, rfl⟩ : ∃ u b v, B.pair c b = true ∧ Balanced B u ∧
            Closes B st v ∧ w = u ++ b :: v := by
          cases ih h with
          | cons hcb hu hv => exact ⟨_, _, _, hcb, hu, hv, rfl⟩
        have hwrap := hv.append (.wrap hcb hu)
        rwa [List.append_assoc, List.cons_append, List.singleton_append] at hwrap
      | false =>
        obtain ⟨a, st', rfl, hac, hw⟩ := (accepts_close hc).mp h
        exact .cons hac .nil (ih hw)
  · intro h
    induction h with
    | nil hu =>
      have hread := hu.accepts_append [] []
      rw [List.append_nil] at hread
      rw [hread]
      rfl
    | cons hab hu _ ih =>
      rw [hu.accepts_append, accepts_close (B.not_opens_of_pair hab)]
      exact ⟨_, _, rfl, hab, ih⟩

/-- **With nothing open** these are the balanced words. -/
theorem accepts_iff_balanced : B.accepts [] w = true ↔ Balanced B w := by
  rw [accepts_iff_closes, closes_nil_iff]

end Brackets
