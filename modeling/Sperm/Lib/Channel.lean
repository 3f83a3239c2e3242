import Mathlib.Data.List.Nodup
import Mathlib.Data.Set.Function

/-!
# Channels

A channel may delay, reorder and lose messages, but it makes none up and delivers none twice. What
arrives is a partial function on one set of places, what was sent is one on another, and `source`
says where each message that arrives comes from.

* `Carries arrived sent source`: such a channel. `Carries.map`: a part of each message.
* **`Carries.comp`**: a channel behind a channel.
* `CarriesOn`, `CarriesOn.carries`: what is to be looked at if there are finitely many places.
-/

namespace Channel

open Set

variable {α β γ M N : Type} {arrived : α → Option M} {sent middle : β → Option M}
  {source : α → β}

structure Carries (arrived : α → Option M) (sent : β → Option M) (source : α → β) : Prop where
  sent_of_arrived : ∀ a m, arrived a = some m → sent (source a) = some m
  once : InjOn source {a | arrived a ≠ none}

theorem Carries.sent_ne_none (h : Carries arrived sent source) {a : α} (ha : arrived a ≠ none) :
    sent (source a) ≠ none := by
  obtain ⟨m, hm⟩ := Option.ne_none_iff_exists'.mp ha
  rw [h.sent_of_arrived a m hm]
  exact Option.some_ne_none m

theorem Carries.map (h : Carries arrived sent source) (f : M → N) :
    Carries (fun a => (arrived a).map f) (fun b => (sent b).map f) source where
  sent_of_arrived a n hn := by
    obtain ⟨m, hm, rfl⟩ := Option.map_eq_some_iff.mp hn
    rw [h.sent_of_arrived a m hm]
    rfl
  once a ha b hb hab := by
    rw [mem_ofPred_eq, ne_eq, Option.map_eq_none_iff] at ha hb
    exact h.once ha hb hab

/-- **A channel behind a channel**: whatever the later one was given has come out of the earlier
one. -/
theorem Carries.comp {sent' : γ → Option M} {source' : β → γ}
    (h : Carries arrived sent source) (h' : Carries middle sent' source')
    (hmiddle : ∀ b m, sent b = some m → middle b = some m) :
    Carries arrived sent' (source' ∘ source) where
  sent_of_arrived a m ha := h'.sent_of_arrived _ _ (hmiddle _ _ (h.sent_of_arrived a m ha))
  once := by
    refine h'.once.comp h.once fun a ha => ?_
    obtain ⟨m, hm⟩ := Option.ne_none_iff_exists'.mp (h.sent_ne_none ha)
    rw [mem_ofPred_eq, hmiddle _ m hm]
    exact Option.some_ne_none m

/-- What has arrived at some places was sent, and it was sent at different places. -/
def CarriesOn [DecidableEq M] (arrived : α → Option M) (sent : β → Option M) (source : α → β)
    (places : List α) : Prop :=
  (∀ a ∈ places, arrived a = none ∨ sent (source a) = arrived a) ∧
    ((places.filter fun a => (arrived a).isSome).map source).Nodup

instance [DecidableEq M] [DecidableEq β] (places : List α) :
    Decidable (CarriesOn arrived sent source places) :=
  inferInstanceAs (Decidable (_ ∧ _))

theorem CarriesOn.carries [DecidableEq M] {places : List α}
    (h : CarriesOn arrived sent source places) (hplaces : ∀ a, arrived a ≠ none → a ∈ places) :
    Carries arrived sent source where
  sent_of_arrived a m ha := by
    have hne : arrived a ≠ none := by
      rw [ha]
      exact Option.some_ne_none m
    exact ((h.1 a (hplaces a hne)).resolve_left hne).trans ha
  once a ha b hb hab := by
    have hmem : ∀ a, arrived a ≠ none → a ∈ places.filter fun a => (arrived a).isSome :=
      fun a ha => List.mem_filter.mpr ⟨hplaces a ha, Option.isSome_iff_ne_none.mpr ha⟩
    exact List.inj_on_of_nodup_map h.2 (hmem a ha) (hmem b hb) hab

end Channel
