import Mathlib.Computability.Language

/-!
# Patterns and the longest match

A lexer is a list of patterns, each with the kind of token it stands for. At every place of the text
it takes the longest non-empty piece that some pattern matches and, among the patterns that match
this piece, the first.

* `Pattern`, `Pattern.language`: patterns over sets of characters, and the words they match.
* `Pattern.deriv`, **`Pattern.mem_deriv`**: what is left of a pattern after one character.
* `Lexeme`: the longest match, stated about languages; `munch`: one pass over the text.
* **`munch_eq_some`**, `munch_eq_none`: the pass finds the longest match, if there is one.
* `munch_catchAll`: a last pattern that takes one character whatever it is.
-/

open Computability

/-- Regular expressions in which a letter is a set of characters. -/
inductive Pattern (α : Type) where
  | empty
  | eps
  | set (p : α → Bool)
  | seq (P Q : Pattern α)
  | alt (P Q : Pattern α)
  | star (P : Pattern α)

namespace Pattern

variable {α κ : Type} {P Q : Pattern α} {p : α → Bool} {a : α} {w t r : List α} {k : κ}
  {rs : List (κ × Pattern α)}

/-! ## Languages -/

def language : Pattern α → Language α
  | empty => 0
  | eps => 1
  | set p => {w | ∃ a, p a = true ∧ w = [a]}
  | seq P Q => P.language * Q.language
  | alt P Q => P.language + Q.language
  | star P => P.language∗

@[simp] theorem not_mem_empty : w ∉ (empty : Pattern α).language := id

@[simp] theorem mem_eps : w ∈ (eps : Pattern α).language ↔ w = [] := Iff.rfl

@[simp] theorem mem_set : w ∈ (set p).language ↔ ∃ a, p a = true ∧ w = [a] := Iff.rfl

@[simp] theorem mem_seq :
    w ∈ (seq P Q).language ↔ ∃ u ∈ P.language, ∃ v ∈ Q.language, u ++ v = w := Language.mem_mul

@[simp] theorem mem_alt : w ∈ (alt P Q).language ↔ w ∈ P.language ∨ w ∈ Q.language := Iff.rfl

theorem nil_mem_star : [] ∈ (star P).language := Language.nil_mem_kstar _

/-- A word of `P*` is empty or starts with a non-empty word of `P`. -/
theorem cons_mem_star :
    a :: w ∈ (star P).language ↔
      ∃ u v, a :: u ∈ P.language ∧ v ∈ (star P).language ∧ u ++ v = w := by
  constructor
  · intro h
    obtain ⟨L, hL, hmem⟩ := Language.mem_kstar_iff_exists_nonempty.mp h
    cases L with
    | nil => simp at hL
    | cons u L =>
      obtain ⟨hu, hne⟩ := hmem u List.mem_cons_self
      obtain ⟨b, u, rfl⟩ := List.exists_cons_of_ne_nil hne
      rw [List.flatten_cons, List.cons_append, List.cons.injEq] at hL
      obtain ⟨rfl, rfl⟩ := hL
      exact ⟨u, L.flatten, hu,
        Language.join_mem_kstar fun y hy => (hmem y (List.mem_cons_of_mem _ hy)).1, rfl⟩
  · rintro ⟨u, v, hu, hv, rfl⟩
    obtain ⟨L, rfl, hL⟩ := Language.mem_kstar.mp hv
    refine Language.mem_kstar.mpr ⟨(a :: u) :: L, rfl, ?_⟩
    intro y hy
    rcases List.mem_cons.mp hy with rfl | hy
    · exact hu
    · exact hL y hy

theorem mem_star_of_letters {s : α → Prop} (hP : ∀ u, u ∈ P.language ↔ ∃ a, s a ∧ u = [a]) :
    w ∈ (star P).language ↔ ∀ a ∈ w, s a := by
  induction w with
  | nil => simp [nil_mem_star]
  | cons a w ih => simp [cons_mem_star, hP, ih]

/-! ## Derivatives -/

def nullable : Pattern α → Bool
  | empty => false
  | eps => true
  | set _ => false
  | seq P Q => P.nullable && Q.nullable
  | alt P Q => P.nullable || Q.nullable
  | star _ => true

theorem nullable_iff : P.nullable = true ↔ [] ∈ P.language := by
  induction P with
  | empty => simp [nullable]
  | eps => simp [nullable]
  | set p => simp [nullable]
  | seq P Q ihP ihQ => simp [nullable, ihP, ihQ]
  | alt P Q ihP ihQ => simp [nullable, ihP, ihQ]
  | star P => simp [nullable, nil_mem_star]

/-- What has to follow `a`. -/
def deriv (a : α) : Pattern α → Pattern α
  | empty => empty
  | eps => empty
  | set p => if p a then eps else empty
  | seq P Q => if P.nullable then alt (seq (deriv a P) Q) (deriv a Q) else seq (deriv a P) Q
  | alt P Q => alt (deriv a P) (deriv a Q)
  | star P => seq (deriv a P) (star P)

theorem cons_mem_seq :
    a :: w ∈ (seq P Q).language ↔
      (∃ u v, a :: u ∈ P.language ∧ v ∈ Q.language ∧ u ++ v = w) ∨
        [] ∈ P.language ∧ a :: w ∈ Q.language := by
  rw [mem_seq]
  constructor
  · rintro ⟨u, hu, v, hv, huv⟩
    cases u with
    | nil => exact .inr ⟨hu, huv ▸ hv⟩
    | cons b u =>
      rw [List.cons_append, List.cons.injEq] at huv
      obtain ⟨rfl, rfl⟩ := huv
      exact .inl ⟨u, v, hu, hv, rfl⟩
  · rintro (⟨u, v, hu, hv, rfl⟩ | ⟨hP, hQ⟩)
    · exact ⟨a :: u, hu, v, hv, rfl⟩
    · exact ⟨[], hP, a :: w, hQ, rfl⟩

/-- **The derivative** matches what may follow `a`. -/
theorem mem_deriv : w ∈ (P.deriv a).language ↔ a :: w ∈ P.language := by
  induction P generalizing w with
  | empty => simp [deriv]
  | eps => simp [deriv]
  | set p =>
    by_cases ha : p a = true
    · simp [deriv, ha]
    · simp [deriv, ha]
  | seq P Q ihP ihQ =>
    rw [cons_mem_seq, ← nullable_iff, deriv]
    by_cases hP : P.nullable = true
    · simp [hP, ihP, ihQ]
    · simp [hP, ihP]
  | alt P Q ihP ihQ => simp [deriv, ihP, ihQ]
  | star P ih => simp [deriv, cons_mem_star, ih]

end Pattern

/-! ## Rules -/

namespace Munch

open Pattern

variable {α κ : Type} {P : Pattern α} {p : α → Bool} {a : α} {w t r : List α} {k k' : κ}
  {rs : List (κ × Pattern α)}

/-- Some rule matches `t`. -/
def Matches (rs : List (κ × Pattern α)) (t : List α) : Prop := ∃ q ∈ rs, t ∈ q.2.language

/-- The first rule that matches `t` is one for `k`. -/
def First : List (κ × Pattern α) → List α → κ → Prop
  | [], _, _ => False
  | q :: rs, t, k => t ∈ q.2.language ∧ q.1 = k ∨ t ∉ q.2.language ∧ First rs t k

/-- The text `w` starts with the lexeme `t`, of kind `k`, and goes on with `r`. -/
structure Lexeme (rs : List (κ × Pattern α)) (w : List α) (k : κ) (t r : List α) : Prop where
  append_eq : t ++ r = w
  ne_nil : t ≠ []
  first : First rs t k
  longest : ∀ t' r', t' ++ r' = w → t.length < t'.length → ¬ Matches rs t'

theorem Lexeme.length_lt (h : Lexeme rs w k t r) : r.length < w.length := by
  have hpos := List.length_pos_iff.mpr h.ne_nil
  rw [← h.append_eq, List.length_append]
  omega

def derivs (a : α) (rs : List (κ × Pattern α)) : List (κ × Pattern α) :=
  rs.map fun q => (q.1, q.2.deriv a)

/-- The kind of the first rule that matches the empty word. -/
def accept : List (κ × Pattern α) → Option κ
  | [] => none
  | q :: rs => if q.2.nullable then some q.1 else accept rs

/-- One pass over the text with all rules at once. The last place at which a rule accepts wins. -/
def munch (rs : List (κ × Pattern α)) : List α → Option (κ × List α × List α)
  | [] => none
  | a :: w =>
    match munch (derivs a rs) w with
    | some (k, t, r) => some (k, a :: t, r)
    | none => (accept (derivs a rs)).map fun k => (k, [a], w)

@[simp] theorem not_matches_nil : ¬ Matches ([] : List (κ × Pattern α)) t := nofun

@[simp] theorem matches_cons {q : κ × Pattern α} :
    Matches (q :: rs) t ↔ t ∈ q.2.language ∨ Matches rs t := by
  simp [Matches]

theorem First.matches (h : First rs t k) : Matches rs t := by
  induction rs with
  | nil => exact h.elim
  | cons q rs ih =>
    rw [matches_cons]
    rcases h with h | h
    · exact .inl h.1
    · exact .inr (ih h.2)

theorem matches_derivs : Matches (derivs a rs) t ↔ Matches rs (a :: t) := by
  simp [Matches, derivs, mem_deriv]

theorem first_derivs : First (derivs a rs) t k ↔ First rs (a :: t) k := by
  induction rs with
  | nil => rfl
  | cons q rs ih =>
    rw [derivs, List.map_cons, ← derivs, First, First, ih, mem_deriv]

theorem accept_eq_some : accept rs = some k ↔ First rs [] k := by
  induction rs with
  | nil => simp [accept, First]
  | cons q rs ih =>
    rw [accept, First, ← nullable_iff]
    by_cases hq : q.2.nullable = true
    · simp [hq]
    · simp [hq, ih]

theorem first_singleton : First rs [a] k ↔ accept (derivs a rs) = some k := by
  rw [accept_eq_some, first_derivs]

theorem accept_eq_none : accept rs = none ↔ ¬ Matches rs [] := by
  induction rs with
  | nil => simp [accept]
  | cons q rs ih =>
    rw [accept, matches_cons, ← nullable_iff]
    by_cases hq : q.2.nullable = true
    · simp [hq]
    · simp [hq, ih]

/-! ## The longest match -/

theorem munch_eq_none : munch rs w = none ↔ ∀ t r, t ++ r = w → t ≠ [] → ¬ Matches rs t := by
  induction w generalizing rs with
  | nil =>
    refine iff_of_true rfl ?_
    intro t r htr hne
    exact absurd (List.append_eq_nil_iff.mp htr).1 hne
  | cons a w ih =>
    have hstep : munch rs (a :: w) = none ↔
        munch (derivs a rs) w = none ∧ accept (derivs a rs) = none := by
      rw [munch]
      cases munch (derivs a rs) w with
      | none => simp
      | some x => simp
    rw [hstep, ih, accept_eq_none, matches_derivs]
    constructor
    · rintro ⟨hlong, hone⟩ t r htr hne
      obtain ⟨b, t, rfl⟩ := List.exists_cons_of_ne_nil hne
      rw [List.cons_append, List.cons.injEq] at htr
      obtain ⟨rfl, rfl⟩ := htr
      cases t with
      | nil => exact hone
      | cons c t => exact matches_derivs.not.mp (hlong (c :: t) r rfl (List.cons_ne_nil _ _))
    · intro h
      refine ⟨fun t r htr _ => matches_derivs.not.mpr ?_, h [a] w rfl (List.cons_ne_nil _ _)⟩
      exact h (a :: t) r (by rw [List.cons_append, htr]) (List.cons_ne_nil _ _)

theorem lexeme_cons (ht : t ≠ []) :
    Lexeme rs (a :: w) k (a :: t) r ↔ Lexeme (derivs a rs) w k t r := by
  constructor
  · rintro ⟨happ, -, hfirst, hlong⟩
    refine ⟨List.cons.inj happ |>.2, ht, first_derivs.mpr hfirst, fun t' r' htr hlt => ?_⟩
    rw [matches_derivs]
    exact hlong (a :: t') r' (by rw [List.cons_append, htr]) (by simpa using hlt)
  · rintro ⟨happ, -, hfirst, hlong⟩
    refine ⟨by rw [List.cons_append, happ], List.cons_ne_nil _ _, first_derivs.mp hfirst, ?_⟩
    intro t' r' htr hlt
    cases t' with
    | nil => simp at hlt
    | cons b t' =>
      rw [List.cons_append, List.cons.injEq] at htr
      obtain ⟨rfl, rfl⟩ := htr
      rw [← matches_derivs]
      exact hlong t' r' rfl (by simpa using hlt)

/-- A lexeme of one character: no rule matches anything longer. -/
theorem lexeme_singleton :
    Lexeme rs (a :: w) k [a] r ↔
      r = w ∧ accept (derivs a rs) = some k ∧ munch (derivs a rs) w = none := by
  rw [munch_eq_none, ← first_singleton]
  constructor
  · rintro ⟨happ, -, hfirst, hlong⟩
    refine ⟨List.cons.inj happ |>.2, hfirst, fun t' r' htr hne => ?_⟩
    rw [matches_derivs]
    exact hlong (a :: t') r' (by rw [List.cons_append, htr])
      (by simpa using List.length_pos_iff.mpr hne)
  · rintro ⟨rfl, hfirst, hlong⟩
    refine ⟨rfl, List.cons_ne_nil _ _, hfirst, fun t' r' htr hlt => ?_⟩
    cases t' with
    | nil => simp at hlt
    | cons b t' =>
      rw [List.cons_append, List.cons.injEq] at htr
      obtain ⟨rfl, rfl⟩ := htr
      rw [← matches_derivs]
      exact hlong t' r' rfl (List.length_pos_iff.mp (by simpa using hlt))

/-- **The pass finds the longest match.** -/
theorem munch_eq_some : munch rs w = some (k, t, r) ↔ Lexeme rs w k t r := by
  induction w generalizing rs t with
  | nil =>
    refine iff_of_false nofun fun h => ?_
    exact h.ne_nil (List.append_eq_nil_iff.mp h.append_eq).1
  | cons a w ih =>
    rw [munch]
    constructor
    · intro h
      cases hm : munch (derivs a rs) w with
      | none =>
        rw [hm] at h
        obtain ⟨k', hk', heq⟩ := Option.map_eq_some_iff.mp h
        cases heq
        exact lexeme_singleton.mpr ⟨rfl, hk', hm⟩
      | some x =>
        obtain ⟨k', t', r'⟩ := x
        rw [hm] at h
        cases h
        have hlex := ih.mp hm
        exact (lexeme_cons hlex.ne_nil).mpr hlex
    · intro h
      obtain ⟨b, t, rfl⟩ := List.exists_cons_of_ne_nil h.ne_nil
      obtain rfl : b = a := (List.cons.inj h.append_eq).1
      cases t with
      | nil =>
        obtain ⟨rfl, hk, hm⟩ := lexeme_singleton.mp h
        rw [hm, hk]
        rfl
      | cons c t => rw [ih.mpr ((lexeme_cons (List.cons_ne_nil _ _)).mp h)]

/-! ## A catch-all rule -/

theorem accept_concat :
    accept (rs ++ [(k, P)]) = (accept rs).or (if P.nullable then some k else none) := by
  induction rs with
  | nil => simp [accept]
  | cons q rs ih =>
    rw [List.cons_append, accept, accept, ih]
    by_cases hq : q.2.nullable = true
    · simp [hq]
    · simp [hq]

theorem derivs_concat : derivs a (rs ++ [(k, P)]) = derivs a rs ++ [(k, P.deriv a)] := by
  simp [derivs]

/-- A rule that matches no character is never taken. -/
theorem munch_concat_of_forall_cons_not_mem (hP : ∀ a w, a :: w ∉ P.language) (w : List α) :
    munch (rs ++ [(k, P)]) w = munch rs w := by
  induction w generalizing rs P with
  | nil => rfl
  | cons a w ih =>
    have hderiv : ∀ v, v ∉ (P.deriv a).language := fun v => mem_deriv.not.mpr (hP a v)
    have hnull : (P.deriv a).nullable ≠ true := nullable_iff.not.mpr (hderiv [])
    rw [munch, munch, derivs_concat, ih fun b v => hderiv (b :: v), accept_concat, if_neg hnull,
      Option.or_none]

/-- **A last rule for single characters** is taken where no other rule matches. -/
theorem munch_catchAll (a : α) (w : List α) :
    munch (rs ++ [(k, set p)]) (a :: w) =
      (munch rs (a :: w)).or (if p a then some (k, [a], w) else none) := by
  have hderiv : ∀ b v, b :: v ∉ ((set p).deriv a).language := by
    intro b v
    simp [mem_deriv]
  have hnull : ((set p).deriv a).nullable = p a := by
    by_cases ha : p a = true
    · simp [Pattern.deriv, ha, nullable]
    · simp [Pattern.deriv, ha, nullable]
  rw [munch, munch, derivs_concat, munch_concat_of_forall_cons_not_mem hderiv, accept_concat, hnull]
  cases munch (derivs a rs) w with
  | some x => rfl
  | none =>
    cases accept (derivs a rs) with
    | some k' => rfl
    | none =>
      cases p a with
      | true => rfl
      | false => rfl

end Munch
