import Mathlib.Data.List.Chain
import Mathlib.Data.Nat.Find
import Mathlib.Tactic.Common

/-!
# Walks and distances

* `Walk r d u v`: `d` steps of the relation `r` lead from `u` to `v`.
* `IsDist r u v d`: and no fewer do.
* `Shortest r t u l`: from `u` through the places `l` to `t`, one nearer with every step;
  **`Shortest.of_chain`**: the walks of the least length are these.
* `Via r P d u v`: the same, where the places between `u` and `v` have the property `P`.
* `Via.append`, **`Via.split`**: with one more place allowed, a walk that needs it is cut there in
  two.
-/

variable {V : Type} {r r' : V → V → Prop} {P Q : V → Prop} {d e : ℕ} {u v w : V}

/-! ## Walks -/

def Walk (r : V → V → Prop) : ℕ → V → V → Prop
  | 0, u, v => u = v
  | d + 1, u, w => ∃ v, Walk r d u v ∧ r v w

/-- The length of a shortest walk. -/
def IsDist (r : V → V → Prop) (u v : V) (d : ℕ) : Prop :=
  Walk r d u v ∧ ∀ e, Walk r e u v → d ≤ e

namespace Walk

theorem mono (h : ∀ u v, r u v → r' u v) (hw : Walk r d u v) : Walk r' d u v := by
  induction d generalizing v with
  | zero => exact hw
  | succ d ih =>
    obtain ⟨x, hx, hxv⟩ := hw
    exact ⟨x, ih hx, h x v hxv⟩

theorem append (h : Walk r d u v) (h' : Walk r e v w) : Walk r (d + e) u w := by
  induction e generalizing w with
  | zero =>
    obtain rfl : v = w := h'
    exact h
  | succ e ih =>
    obtain ⟨x, hx, hxw⟩ := h'
    exact ⟨x, ih hx, hxw⟩

theorem single (h : r u v) : Walk r 1 u v := ⟨u, rfl, h⟩

theorem cons (h : r u v) (h' : Walk r d v w) : Walk r (d + 1) u w := by
  rw [Nat.add_comm]
  exact (single h).append h'

theorem succ_iff : Walk r (d + 1) u w ↔ ∃ v, r u v ∧ Walk r d v w := by
  constructor
  · intro h
    induction d generalizing w with
    | zero =>
      obtain ⟨v, rfl, hvw⟩ := h
      exact ⟨w, hvw, rfl⟩
    | succ d ih =>
      obtain ⟨x, hx, hxw⟩ := h
      obtain ⟨v, huv, hvx⟩ := ih hx
      exact ⟨v, huv, x, hvx, hxw⟩
  · rintro ⟨v, huv, hvw⟩
    exact hvw.cons huv

end Walk

namespace IsDist

theorem unique (h : IsDist r u v d) (h' : IsDist r u v e) : d = e :=
  Nat.le_antisymm (h.2 e h'.1) (h'.2 d h.1)

theorem exists_of_walk (h : Walk r d u v) : ∃ e, IsDist r u v e := by
  classical
  have hex : ∃ e, Walk r e u v := ⟨d, h⟩
  exact ⟨Nat.find hex, Nat.find_spec hex, fun e he => Nat.find_min' hex he⟩

theorem zero_iff : IsDist r u v 0 ↔ u = v :=
  ⟨And.left, fun h => ⟨h, fun _ _ => Nat.zero_le _⟩⟩

theorem one_iff : IsDist r u v 1 ↔ u ≠ v ∧ r u v := by
  constructor
  · rintro ⟨⟨_, rfl, huv⟩, hmin⟩
    refine ⟨?_, huv⟩
    rintro rfl
    exact absurd (hmin 0 rfl) (by omega)
  · rintro ⟨hne, huv⟩
    refine ⟨.single huv, fun e he => Nat.pos_of_ne_zero ?_⟩
    rintro rfl
    exact hne he

theorem exists_step (h : IsDist r u w (d + 1)) : ∃ v, r u v ∧ IsDist r v w d := by
  obtain ⟨v, huv, hvw⟩ := Walk.succ_iff.mp h.1
  refine ⟨v, huv, hvw, fun e he => ?_⟩
  exact Nat.le_of_succ_le_succ (h.2 (e + 1) (he.cons huv))

end IsDist

/-! ## Shortest walks by their places -/

theorem walk_of_chain {l : List V} (h : (u :: l).IsChain r) (hlast : (u :: l).getLast? = some v) :
    Walk r l.length u v := by
  induction l generalizing u with
  | nil =>
    have heq : u = v := by simpa using hlast
    exact heq
  | cons x l ih =>
    obtain ⟨hux, hl⟩ := List.isChain_cons_cons.mp h
    exact (ih hl (by simpa using hlast)).cons hux

theorem exists_chain_of_walk (h : Walk r d u v) :
    ∃ l : List V, l.length = d ∧ (u :: l).IsChain r ∧ (u :: l).getLast? = some v := by
  induction d generalizing u with
  | zero =>
    obtain rfl : u = v := h
    exact ⟨[], rfl, List.isChain_singleton u, rfl⟩
  | succ d ih =>
    obtain ⟨x, hux, hxv⟩ := Walk.succ_iff.mp h
    obtain ⟨l, rfl, hl, hlast⟩ := ih hxv
    exact ⟨x :: l, rfl, List.isChain_cons_cons.mpr ⟨hux, hl⟩, by simpa using hlast⟩

theorem exists_step_of_chain {l : List V} (h : (u :: l).IsChain r) (hv : v ∈ l) : ∃ x, r x v := by
  induction l generalizing u with
  | nil => simp at hv
  | cons x l ih =>
    obtain ⟨hux, hl⟩ := List.isChain_cons_cons.mp h
    rcases List.mem_cons.mp hv with rfl | hv
    · exact ⟨u, hux⟩
    · exact ih hl hv

/-- From `u` through the places `l` to `t`, one nearer with every step. -/
def Shortest (r : V → V → Prop) (t : V) : V → List V → Prop
  | u, [] => u = t
  | u, v :: l => r u v ∧ IsDist r u t (l.length + 1) ∧ Shortest r t v l

namespace Shortest

variable {t : V} {l : List V}

theorem isDist (h : Shortest r t u l) : IsDist r u t l.length := by
  cases l with
  | nil => exact IsDist.zero_iff.mpr h
  | cons v l => exact h.2.1

theorem chain (h : Shortest r t u l) : (u :: l).IsChain r := by
  induction l generalizing u with
  | nil => exact List.isChain_singleton u
  | cons v l ih => exact List.isChain_cons_cons.mpr ⟨h.1, ih h.2.2⟩

theorem of_chain (hd : IsDist r u t l.length) (h : (u :: l).IsChain r)
    (hlast : (u :: l).getLast? = some t) : Shortest r t u l := by
  induction l generalizing u with
  | nil => exact IsDist.zero_iff.mp hd
  | cons v l ih =>
    obtain ⟨huv, hl⟩ := List.isChain_cons_cons.mp h
    have hlast' : (v :: l).getLast? = some t := by simpa using hlast
    refine ⟨huv, hd, ih ⟨walk_of_chain hl hlast', fun e he => ?_⟩ hl hlast'⟩
    exact Nat.le_of_succ_le_succ (hd.2 (e + 1) (he.cons huv))

theorem exists_of_isDist (h : IsDist r u t d) : ∃ l, Shortest r t u l ∧ l.length = d := by
  obtain ⟨l, rfl, hl, hlast⟩ := exists_chain_of_walk h.1
  exact ⟨l, .of_chain h hl hlast, rfl⟩

/-- The last place is `t`, the others are nearer to it than `u` and not there yet. -/
theorem exists_mid (h : Shortest r t u l) (hne : l ≠ []) :
    ∃ mid, l = mid ++ [t] ∧ ∀ v ∈ mid, ∃ k, 0 < k ∧ k < l.length ∧ IsDist r v t k := by
  induction l generalizing u with
  | nil => exact absurd rfl hne
  | cons v l ih =>
    by_cases hnil : l = []
    · subst hnil
      obtain rfl : v = t := h.2.2
      exact ⟨[], rfl, by simp⟩
    · obtain ⟨mid, hl, hmid⟩ := ih h.2.2 hnil
      refine ⟨v :: mid, by rw [hl, List.cons_append], ?_⟩
      intro x hx
      rcases List.mem_cons.mp hx with rfl | hx
      · exact ⟨l.length, List.length_pos_iff.mpr hnil, by simp, h.2.2.isDist⟩
      · obtain ⟨k, hpos, hlt, hk⟩ := hmid x hx
        exact ⟨k, hpos, by simp; omega, hk⟩

end Shortest

/-! ## Walks through some places -/

def Via (r : V → V → Prop) (P : V → Prop) : ℕ → V → V → Prop
  | 0, u, v => u = v
  | d + 1, u, w => ∃ v, Via r P d u v ∧ r v w ∧ (d = 0 ∨ P v)

theorem Via.mono (h : ∀ v, P v → Q v) (hw : Via r P d u v) : Via r Q d u v := by
  induction d generalizing v with
  | zero => exact hw
  | succ d ih =>
    obtain ⟨x, hx, hxv, hP⟩ := hw
    exact ⟨x, ih hx, hxv, hP.imp_right (h x)⟩

theorem Via.single (h : r u v) : Via r P 1 u v := ⟨u, rfl, h, .inl rfl⟩

theorem via_top (h : ∀ v, P v) : Via r P d u v ↔ Walk r d u v := by
  induction d generalizing v with
  | zero => exact Iff.rfl
  | succ d ih => simp [Via, Walk, ih, h]

theorem Via.append {k : V} (h : Via r P d u k) (h' : Via r P e k v) :
    Via r (fun x => P x ∨ x = k) (d + e) u v := by
  induction e generalizing v with
  | zero =>
    obtain rfl : k = v := h'
    exact h.mono fun _ => .inl
  | succ e ih =>
    obtain ⟨x, hx, hxv, hP⟩ := h'
    refine ⟨x, ih hx, hxv, .inr ?_⟩
    rcases hP with rfl | hP
    · exact .inr hx.symm
    · exact .inl hP

/-- A walk that may pass `k` does not need it, or leads there and on. -/
theorem Via.split {k : V} (h : Via r (fun x => P x ∨ x = k) d u v) :
    Via r P d u v ∨ ∃ a b, a + b ≤ d ∧ Via r P a u k ∧ Via r P b k v := by
  induction d generalizing v with
  | zero => exact .inl h
  | succ d ih =>
    obtain ⟨x, hx, hxv, hP⟩ := h
    by_cases hxk : x = k
    · subst hxk
      rcases ih hx with hx | ⟨a, b, hab, ha, -⟩
      · exact .inr ⟨d, 1, le_rfl, hx, .single hxv⟩
      · exact .inr ⟨a, 1, by omega, ha, .single hxv⟩
    · have hP' : d = 0 ∨ P x := hP.imp_right fun h => h.resolve_right hxk
      rcases ih hx with hx | ⟨a, b, hab, ha, hb⟩
      · exact .inl ⟨x, hx, hxv, hP'⟩
      · refine .inr ⟨a, b + 1, by omega, ha, x, hb, hxv, ?_⟩
        exact hP'.imp_left fun h => by omega
