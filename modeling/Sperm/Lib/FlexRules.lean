import Sperm.Lib.Flex
import Sperm.Lib.Munch

/-!
# Rules of a flex scanner

flex cuts the bytes into classes that no rule tells apart, and gives each state what is left of the
rules after the words that lead to it. Over classes patterns can be compared, so a list of one word
for each state is enough to check the tables.

* `Regex`, `Regex.deriv`, **`Regex.mem_deriv`**: patterns over classes, with their derivatives.
* `munch_congr`: the longest match depends on the languages of the rules only.
* `Follows`: the tables go from word to word as the rules do.
* **`Follows.scan_eq_munch`**: a pass of such tables finds the longest match.
-/

namespace Flex

open Pattern Munch

/-- Patterns whose letters are sets of classes. -/
inductive Regex where
  | empty
  | eps
  | set (cs : List ℕ)
  | seq (P Q : Regex)
  | alt (P Q : Regex)
  | star (P : Regex)
  deriving DecidableEq

namespace Regex

/-- The pattern over the characters of these classes. -/
def pattern {α : Type} (cls : α → ℕ) : Regex → Pattern α
  | empty => .empty
  | eps => .eps
  | set cs => .set fun a => cs.contains (cls a)
  | seq P Q => .seq (P.pattern cls) (Q.pattern cls)
  | alt P Q => .alt (P.pattern cls) (Q.pattern cls)
  | star P => .star (P.pattern cls)

def nullable : Regex → Bool
  | empty => false
  | eps => true
  | set _ => false
  | seq P Q => P.nullable && Q.nullable
  | alt P Q => P.nullable || Q.nullable
  | star _ => true

/-- `seq` without the cases that change nothing. -/
def mkSeq (P Q : Regex) : Regex := if P = empty then empty else if P = eps then Q else seq P Q

/-- `alt` without the cases that change nothing. -/
def mkAlt (P Q : Regex) : Regex :=
  if P = empty then Q else if Q = empty ∨ P = Q then P else alt P Q

def deriv (c : ℕ) : Regex → Regex
  | empty => empty
  | eps => empty
  | set cs => if cs.contains c then eps else empty
  | seq P Q => if P.nullable then mkAlt (mkSeq (deriv c P) Q) (deriv c Q) else mkSeq (deriv c P) Q
  | alt P Q => mkAlt (deriv c P) (deriv c Q)
  | star P => mkSeq (deriv c P) (star P)

variable {α : Type} {cls : α → ℕ} {P Q R : Regex} {a : α} {w : List α}

@[simp] theorem pattern_seq :
    (seq P Q).pattern cls = .seq (P.pattern cls) (Q.pattern cls) := rfl

@[simp] theorem pattern_alt :
    (alt P Q).pattern cls = .alt (P.pattern cls) (Q.pattern cls) := rfl

@[simp] theorem pattern_star : (star P).pattern cls = .star (P.pattern cls) := rfl

theorem nullable_pattern : (R.pattern cls).nullable = R.nullable := by
  induction R with
  | empty => rfl
  | eps => rfl
  | set cs => rfl
  | seq P Q ihP ihQ => rw [pattern, Pattern.nullable, nullable, ihP, ihQ]
  | alt P Q ihP ihQ => rw [pattern, Pattern.nullable, nullable, ihP, ihQ]
  | star P => rfl

theorem mem_mkSeq :
    w ∈ ((mkSeq P Q).pattern cls).language ↔ w ∈ ((seq P Q).pattern cls).language := by
  rw [mkSeq]
  split_ifs with hempty heps
  · simp [hempty, pattern]
  · simp [heps, pattern]
  · rfl

theorem mem_mkAlt :
    w ∈ ((mkAlt P Q).pattern cls).language ↔ w ∈ ((alt P Q).pattern cls).language := by
  rw [mkAlt]
  split_ifs with hempty heq
  · simp [hempty, pattern]
  · rcases heq with rfl | rfl
    · simp [pattern]
    · simp [pattern]
  · rfl

/-- **The derivative by a class** is the derivative by each of its characters. -/
theorem mem_deriv :
    w ∈ ((R.deriv (cls a)).pattern cls).language ↔ w ∈ ((R.pattern cls).deriv a).language := by
  induction R generalizing w with
  | empty => rfl
  | eps => rfl
  | set cs =>
    rw [deriv, pattern, Pattern.deriv]
    split_ifs <;> rfl
  | seq P Q ihP ihQ =>
    rw [deriv, pattern, Pattern.deriv, nullable_pattern]
    split_ifs
    · simp only [mem_mkAlt, mem_mkSeq, pattern, mem_alt, mem_seq, ihP, ihQ]
    · simp only [mem_mkSeq, pattern, mem_seq, ihP]
  | alt P Q ihP ihQ => simp only [deriv, mem_mkAlt, pattern, Pattern.deriv, mem_alt, ihP, ihQ]
  | star P ih =>
    simp only [deriv, mem_mkSeq, pattern, Pattern.deriv, mem_seq, ih]

end Regex

variable {α κ : Type} {cls : α → ℕ} {w : List α}

/-! ## Rules over classes -/

/-- Rules of the same kinds, with the same languages. -/
def SameRules (rs rs' : List (κ × Pattern α)) : Prop :=
  List.Forall₂ (fun q q' => q.1 = q'.1 ∧ ∀ w, w ∈ q.2.language ↔ w ∈ q'.2.language) rs rs'

theorem SameRules.derivs {rs rs' : List (κ × Pattern α)} (h : SameRules rs rs') (a : α) :
    SameRules (derivs a rs) (derivs a rs') := by
  rw [SameRules, Munch.derivs, Munch.derivs, List.forall₂_map_left_iff, List.forall₂_map_right_iff]
  refine h.imp fun q q' hq => ⟨hq.1, fun w => ?_⟩
  rw [Pattern.mem_deriv, Pattern.mem_deriv, hq.2]

theorem SameRules.accept {rs rs' : List (κ × Pattern α)} (h : SameRules rs rs') :
    Munch.accept rs = Munch.accept rs' := by
  induction h with
  | nil => rfl
  | cons hq _ ih =>
    have hnull := Bool.eq_iff_iff.mpr ((nullable_iff.trans (hq.2 [])).trans nullable_iff.symm)
    rw [Munch.accept, Munch.accept, ih, hnull, hq.1]

/-- The longest match depends on the languages of the rules only. -/
theorem munch_congr {rs rs' : List (κ × Pattern α)} (h : SameRules rs rs') :
    munch rs w = munch rs' w := by
  induction w generalizing rs rs' with
  | nil => rfl
  | cons a w ih =>
    rw [munch, munch, ih (h.derivs a), (h.derivs a).accept]

/-- The rules over the characters of the classes. -/
def patterns (cls : α → ℕ) (rs : List (κ × Regex)) : List (κ × Pattern α) :=
  rs.map fun q => (q.1, q.2.pattern cls)

def derivs (c : ℕ) (rs : List (κ × Regex)) : List (κ × Regex) := rs.map fun q => (q.1, q.2.deriv c)

/-- What is left of the rules after a word. -/
def residual (rs : List (κ × Regex)) (word : List ℕ) : List (κ × Regex) :=
  word.foldl (fun rs c => derivs c rs) rs

def accept : List (κ × Regex) → Option κ
  | [] => none
  | q :: rs => if q.2.nullable then some q.1 else accept rs

theorem accept_patterns (rs : List (κ × Regex)) : Munch.accept (patterns cls rs) = accept rs := by
  induction rs with
  | nil => rfl
  | cons q rs ih =>
    rw [patterns, List.map_cons, ← patterns, Munch.accept, accept, ih, Regex.nullable_pattern]

theorem sameRules_derivs (rs : List (κ × Regex)) (a : α) :
    SameRules (patterns cls (derivs (cls a) rs)) (Munch.derivs a (patterns cls rs)) := by
  induction rs with
  | nil => exact .nil
  | cons q rs ih => exact .cons ⟨rfl, fun w => Regex.mem_deriv⟩ ih

/-! ## Tables that follow rules -/

/-- Each state of the tables stands for what is left of the rules after a word. -/
structure Follows (T : Tables) (eob numClasses : ℕ) (number : κ → ℕ) (rules : List (κ × Regex))
    (word : ℕ → List ℕ) : Prop where
  number_ne : ∀ k, number k ≠ 0
  word_start : word T.start = []
  next : ∀ s < T.templates, T.Ordinary eob s → ∀ c < numClasses, 0 < c →
    residual rules (word (T.next s c)) = derivs c (residual rules (word s))
  accept : ∀ s < T.templates, T.Ordinary eob s →
    T.accept s = ((accept (residual rules (word s))).map number).getD 0

variable {T : Tables} {eob m s : ℕ} {number : κ → ℕ} {rules : List (κ × Regex)}
  {word : ℕ → List ℕ} {w : List UInt8}

theorem Follows.scan_residual (h : Follows T eob m number rules word) (hT : Lawful T eob m)
    (hs : T.Ordinary eob s) :
    T.scan s w = (munch (patterns T.cls (residual rules (word s))) w).map fun x =>
      (number x.1, x.2) := by
  induction w generalizing s with
  | nil => rfl
  | cons b w ih =>
    have hs' := hT.ordinary_next (b := b) hs
    have hnext := h.next s hs.2.1 hs _ (hT.cls_lt (b := b)) hT.cls_pos
    have hsame : SameRules (patterns T.cls (derivs (T.cls b) (residual rules (word s))))
        (Munch.derivs b (patterns T.cls (residual rules (word s)))) := sameRules_derivs _ b
    have haccept : Munch.accept (patterns T.cls (derivs (T.cls b) (residual rules (word s)))) =
        Flex.accept (derivs (T.cls b) (residual rules (word s))) := accept_patterns _
    rw [Tables.scan, munch, ih hs', h.accept _ hs'.2.1 hs', hnext, munch_congr hsame,
      ← haccept, hsame.accept]
    cases munch (Munch.derivs b (patterns T.cls (residual rules (word s)))) w with
    | some x => rfl
    | none =>
      cases Munch.accept (Munch.derivs b (patterns T.cls (residual rules (word s)))) with
      | none => rfl
      | some k => exact if_neg (h.number_ne k)

/-- **The pass finds the longest match.** -/
theorem Follows.scan_eq_munch (h : Follows T eob m number rules word) (hT : Lawful T eob m)
    (w : List UInt8) :
    T.scan T.start w = (munch (patterns T.cls rules) w).map fun x => (number x.1, x.2) := by
  rw [h.scan_residual hT hT.start, h.word_start]
  rfl

end Flex
