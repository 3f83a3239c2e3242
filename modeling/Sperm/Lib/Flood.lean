import Mathlib.Data.Finset.Card
import Mathlib.Logic.Relation
import Mathlib.Tactic.Common

/-!
# Flood fill

A place is looked at: looking fails, or the place is blocked, or it has a key. If the key is not
marked yet it is marked, and the places beside are filled in turn.

* `flood`: the recursion, with a bound on its depth.
* `Filled`: what filling from some places does to the marks; `Filled.trans`, **`flood_filled`**.
* **`Filled.mem_iff`**: from nothing marked, filling marks the keys of the places that are reached,
  if these have keys of their own.
* `Touch`, **`flood_ok_or_error`**: with a bound above the number of keys left, filling ends, or
  fails where looking fails at a place that is reached or beside one.
-/

namespace Flood

variable {P Q ι ε : Type}

section Model

variable [DecidableEq ι] (timeout : ε) (look : P → Except ε (Option ι)) (next : P → List P)

def flood : ℕ → P → Finset ι → Except ε (Finset ι)
  | 0, _, _ => .error timeout
  | fuel + 1, p, m =>
    match look p with
    | .error e => .error e
    | .ok none => .ok m
    | .ok (some k) =>
      if k ∈ m then .ok m else (next p).foldlM (fun m q => flood fuel q m) (insert k m)

end Model

variable {timeout : ε} {look : P → Except ε (Option ι)} {next : P → List P} {fuel : ℕ} {p q r : P}
  {m m₁ m₂ m' : Finset ι} {k : ι} {S S₁ S₂ : P → Prop}

/-- One step to a place that is not blocked. -/
def Step (look : P → Except ε (Option ι)) (next : P → List P) (p q : P) : Prop :=
  q ∈ next p ∧ ∃ k, look q = .ok (some k)

/-- The places reached from `p`, which is not blocked. -/
def Reach (look : P → Except ε (Option ι)) (next : P → List P) (p q : P) : Prop :=
  (∃ k, look p = .ok (some k)) ∧ Relation.ReflTransGen (Step look next) p q

/-- `q` is `p`, or beside a place that is reached from it. -/
def Touch (look : P → Except ε (Option ι)) (next : P → List P) (p q : P) : Prop :=
  q = p ∨ ∃ r, Reach look next p r ∧ q ∈ next r

theorem Touch.cons (h : Touch look next q r) (hp : look p = .ok (some k)) (hq : q ∈ next p) :
    Touch look next p r := by
  rcases h with rfl | ⟨s, ⟨hl, hqs⟩, hr⟩
  · exact .inr ⟨p, ⟨⟨k, hp⟩, .refl⟩, hq⟩
  · exact .inr ⟨s, ⟨⟨k, hp⟩, .head ⟨hq, hl⟩ hqs⟩, hr⟩

/-- Looking at `p` does not fail, and its key is marked if it has one. -/
def Done (look : P → Except ε (Option ι)) (m : Finset ι) (p : P) : Prop :=
  ∃ o, look p = .ok o ∧ ∀ k ∈ o, k ∈ m

theorem Done.mem (h : Done look m p) (hk : look p = .ok (some k)) : k ∈ m := by
  obtain ⟨o, ho, hm⟩ := h
  obtain rfl : o = some k := Except.ok.inj (ho.symm.trans hk)
  exact hm k rfl

theorem Done.of_mem (hk : look p = .ok (some k)) (h : k ∈ m) : Done look m p := by
  refine ⟨some k, hk, fun l hl => ?_⟩
  obtain rfl : k = l := Option.some.inj hl
  exact h

theorem Done.mono (h : Done look m p) (hsub : m ⊆ m') : Done look m' p := by
  obtain ⟨o, ho, hm⟩ := h
  exact ⟨o, ho, fun k hk => hsub (hm k hk)⟩

/-- The marks `m'` that filling from the places `S` makes of `m`: the places beside some place with
a new key have been filled, too. -/
structure Filled (look : P → Except ε (Option ι)) (next : P → List P) (S : P → Prop)
    (m m' : Finset ι) : Prop where
  sub : m ⊆ m'
  started : ∀ p, S p → Done look m' p
  reached : ∀ k ∈ m', k ∉ m → ∃ p q, S p ∧ Reach look next p q ∧ look q = .ok (some k)
  closed : ∀ k ∈ m', k ∉ m → ∃ q, look q = .ok (some k) ∧ ∀ r ∈ next q, Done look m' r

namespace Filled

theorem rfl_of (h : ∀ p, S p → Done look m p) : Filled look next S m m where
  sub := Finset.Subset.refl m
  started := h
  reached := fun _ hk hnot => absurd hk hnot
  closed := fun _ hk hnot => absurd hk hnot

theorem trans (h₁ : Filled look next S₁ m m₁) (h₂ : Filled look next S₂ m₁ m₂) :
    Filled look next (fun p => S₁ p ∨ S₂ p) m m₂ where
  sub := h₁.sub.trans h₂.sub
  started := by
    rintro p (hp | hp)
    · exact (h₁.started p hp).mono h₂.sub
    · exact h₂.started p hp
  reached := by
    intro k hk hnot
    by_cases hmid : k ∈ m₁
    · obtain ⟨p, q, hp, hpq, hq⟩ := h₁.reached k hmid hnot
      exact ⟨p, q, .inl hp, hpq, hq⟩
    · obtain ⟨p, q, hp, hpq, hq⟩ := h₂.reached k hk hmid
      exact ⟨p, q, .inr hp, hpq, hq⟩
  closed := by
    intro k hk hnot
    by_cases hmid : k ∈ m₁
    · obtain ⟨q, hq, hbeside⟩ := h₁.closed k hmid hnot
      exact ⟨q, hq, fun r hr => (hbeside r hr).mono h₂.sub⟩
    · exact h₂.closed k hk hmid

theorem congr (h : Filled look next S₁ m m') (hS : ∀ p, S₁ p ↔ S₂ p) :
    Filled look next S₂ m m' := by
  obtain rfl : S₁ = S₂ := funext fun p => propext (hS p)
  exact h

theorem foldlM {f : Finset ι → Q → Except ε (Finset ι)} {T : Q → P → Prop} {l : List Q}
    (hf : ∀ m x m', x ∈ l → f m x = .ok m' → Filled look next (T x) m m')
    (h : l.foldlM f m = .ok m') : Filled look next (fun p => ∃ x ∈ l, T x p) m m' := by
  induction l generalizing m with
  | nil =>
    obtain rfl : m = m' := Except.ok.inj h
    exact rfl_of (by simp)
  | cons x l ih =>
    rw [List.foldlM_cons] at h
    cases hx : f m x with
    | error e =>
      rw [hx] at h
      cases h
    | ok m₁ =>
      rw [hx] at h
      have hhead := hf m x m₁ List.mem_cons_self hx
      have htail := ih (fun m y m' hy => hf m y m' (List.mem_cons_of_mem x hy)) h
      exact (hhead.trans htail).congr fun p => by simp

theorem insert [DecidableEq ι] (hp : look p = .ok (some k))
    (h : Filled look next (· ∈ next p) (insert k m) m') : Filled look next (· = p) m m' where
  sub := (Finset.subset_insert k m).trans h.sub
  started := by
    rintro _ rfl
    exact .of_mem hp (h.sub (Finset.mem_insert_self k m))
  reached := by
    intro l hl hnot
    by_cases hkl : l = k
    · subst hkl
      exact ⟨p, p, rfl, ⟨⟨l, hp⟩, .refl⟩, hp⟩
    · obtain ⟨q, r, hq, ⟨⟨j, hj⟩, hqr⟩, hr⟩ := h.reached l hl (by simp [hkl, hnot])
      exact ⟨p, r, rfl, ⟨⟨k, hp⟩, .head ⟨hq, j, hj⟩ hqr⟩, hr⟩
  closed := by
    intro l hl hnot
    by_cases hkl : l = k
    · subst hkl
      exact ⟨p, hp, h.started⟩
    · exact h.closed l hl (by simp [hkl, hnot])

/-- From nothing marked, the keys of the places reached are marked, if no other place has the key
of one of them. -/
theorem mem_iff (hinj : ∀ p q r k, S p → Reach look next p q → look q = .ok (some k) →
    look r = .ok (some k) → q = r) (h : Filled look next S ∅ m') :
    k ∈ m' ↔ ∃ p q, S p ∧ Reach look next p q ∧ look q = .ok (some k) := by
  constructor
  · intro hk
    exact h.reached k hk (Finset.notMem_empty k)
  · rintro ⟨p, q, hp, ⟨⟨l, hl⟩, hpq⟩, hq⟩
    have hmarked : ∃ k, look q = .ok (some k) ∧ k ∈ m' := by
      clear hq
      induction hpq with
      | refl => exact ⟨l, hl, (h.started p hp).mem hl⟩
      | @tail r s hpr hstep ih =>
        obtain ⟨j, hj, hmem⟩ := ih
        obtain ⟨hbeside, i, hi⟩ := hstep
        obtain ⟨r', hr', hclosed⟩ := h.closed j hmem (Finset.notMem_empty j)
        obtain rfl := hinj p r r' j hp ⟨⟨l, hl⟩, hpr⟩ hj hr'
        exact ⟨i, hi, (hclosed s hbeside).mem hi⟩
    obtain ⟨j, hj, hmem⟩ := hmarked
    obtain rfl : j = k := by simpa [hj] using hq
    exact hmem

end Filled

/-- A loop of which no pass ends for want of depth. -/
theorem foldlM_ok_or_error {f : Finset ι → Q → Except ε (Finset ι)} {E : ε → Prop} {l : List Q}
    (hf : ∀ m₁ x, m ⊆ m₁ → x ∈ l →
      (∃ m', f m₁ x = .ok m' ∧ m₁ ⊆ m') ∨ ∃ e, E e ∧ f m₁ x = .error e) :
    (∃ m', l.foldlM f m = .ok m' ∧ m ⊆ m') ∨ ∃ e, E e ∧ l.foldlM f m = .error e := by
  induction l generalizing m with
  | nil => exact .inl ⟨m, rfl, Finset.Subset.refl m⟩
  | cons x l ih =>
    rw [List.foldlM_cons]
    rcases hf m x (Finset.Subset.refl m) List.mem_cons_self with ⟨m₁, hx, hsub⟩ | ⟨e, he, hx⟩
    · rw [hx]
      have htail := ih fun m₂ y h₂ hy => hf m₂ y (hsub.trans h₂) (List.mem_cons_of_mem x hy)
      rcases htail with ⟨m', hm', hsub'⟩ | ⟨e, he, herr⟩
      · exact .inl ⟨m', hm', hsub.trans hsub'⟩
      · exact .inr ⟨e, he, herr⟩
    · rw [hx]
      exact .inr ⟨e, he, rfl⟩

variable [DecidableEq ι]

theorem flood_blocked (h : look p = .ok none) :
    flood timeout look next (fuel + 1) p m = .ok m := by
  rw [flood, h]

theorem flood_marked (h : look p = .ok (some k)) (hk : k ∈ m) :
    flood timeout look next (fuel + 1) p m = .ok m := by
  simp [flood, h, hk]

theorem foldlM_blocked {l : List P} (h : ∀ q ∈ l, look q = .ok none) :
    l.foldlM (fun m q => flood timeout look next (fuel + 1) q m) m = .ok m := by
  induction l with
  | nil => rfl
  | cons q l ih =>
    obtain ⟨hq, hl⟩ := List.forall_mem_cons.mp h
    rw [List.foldlM_cons, flood_blocked hq]
    exact ih hl

theorem flood_isolated (h : look p = .ok (some k)) (hk : k ∉ m)
    (hnext : ∀ q ∈ next p, look q = .ok none) :
    flood timeout look next (fuel + 2) p m = .ok (insert k m) := by
  rw [flood, h]
  simp only [hk, if_false]
  exact foldlM_blocked hnext

/-- **One call** fills from one place. -/
theorem flood_filled (h : flood timeout look next fuel p m = .ok m') :
    Filled look next (· = p) m m' := by
  induction fuel generalizing p m m' with
  | zero => cases h
  | succ fuel ih =>
    rw [flood] at h
    split at h
    · cases h
    · rename_i hlook
      obtain rfl : m = m' := Except.ok.inj h
      refine .rfl_of ?_
      rintro _ rfl
      exact ⟨none, hlook, by simp⟩
    · rename_i k hlook
      split_ifs at h with hmem
      · obtain rfl : m = m' := Except.ok.inj h
        refine .rfl_of ?_
        rintro _ rfl
        exact .of_mem hlook hmem
      · refine .insert hlook ?_
        refine (Filled.foldlM (T := fun q p => p = q) (fun m q m' _ => ih) h).congr fun q => ?_
        simp

/-- **The depth** is at most the number of keys that are left. -/
theorem flood_ok_or_error {U : Finset ι} (hU : ∀ p k, look p = .ok (some k) → k ∈ U)
    (hfuel : (U \ m).card < fuel) :
    (∃ m', flood timeout look next fuel p m = .ok m' ∧ m ⊆ m') ∨
      ∃ e, (∃ q, Touch look next p q ∧ look q = .error e) ∧
        flood timeout look next fuel p m = .error e := by
  induction fuel generalizing p m with
  | zero => exact absurd hfuel (Nat.not_lt_zero _)
  | succ fuel ih =>
    rw [flood]
    split
    · rename_i e hlook
      exact .inr ⟨e, ⟨p, .inl rfl, hlook⟩, rfl⟩
    · exact .inl ⟨m, rfl, Finset.Subset.refl m⟩
    · rename_i k hlook
      split_ifs with hmem
      · exact .inl ⟨m, rfl, Finset.Subset.refl m⟩
      · have hless : (U \ insert k m).card < (U \ m).card := by
          refine Finset.card_lt_card (Finset.ssubset_iff_of_subset ?_ |>.mpr ⟨k, ?_, ?_⟩)
          · exact Finset.sdiff_subset_sdiff (Finset.Subset.refl U) (Finset.subset_insert k m)
          · exact Finset.mem_sdiff.mpr ⟨hU p k hlook, hmem⟩
          · simp
        have hpass : ∀ m₁, insert k m ⊆ m₁ → (U \ m₁).card < fuel := by
          intro m₁ hsub
          have hle := Finset.card_le_card (Finset.sdiff_subset_sdiff (Finset.Subset.refl U) hsub)
          omega
        have hbeside : ∀ m₁ q, insert k m ⊆ m₁ → q ∈ next p →
            (∃ m', flood timeout look next fuel q m₁ = .ok m' ∧ m₁ ⊆ m') ∨
              ∃ e, (∃ r, Touch look next p r ∧ look r = .error e) ∧
                flood timeout look next fuel q m₁ = .error e := by
          intro m₁ q hsub hq
          refine (ih (hpass m₁ hsub)).imp_right ?_
          rintro ⟨e, ⟨r, hr, herr⟩, hflood⟩
          exact ⟨e, ⟨r, hr.cons hlook hq, herr⟩, hflood⟩
        rcases foldlM_ok_or_error hbeside with ⟨m', hm', hsub⟩ | herr
        · exact .inl ⟨m', hm', (Finset.subset_insert k m).trans hsub⟩
        · exact .inr herr

end Flood
