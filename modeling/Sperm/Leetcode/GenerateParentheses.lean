import Mathlib.Data.Nat.Init
import Mathlib.Order.Basic
import Sperm.Lib.Backtracking
import Sperm.Leetcode.ValidParentheses

/-!
# All balanced strings (`generate-parentheses.cc`)

The string is built in a buffer, with `l` parentheses opened and `r` closed so far.

* `generateParenthesis` with `R`: the model.
* `parens`: one kind of brackets; `Completes n l r w`: `w` goes on where `l` have been opened and
  `r` closed.
* `completes_cons`, **`R_spec`**: what a call adds.
* **`generateParenthesis_spec`**: the balanced strings, each once.
-/

namespace Sperm.Leetcode.GenerateParentheses

open Backtracking ValidParentheses

/-- `R(n, l, r, s, rs)`: the buffer `s` and the results `rs` after the call. -/
def R (n l r : ℕ) (s : List UInt8) (rs : List (List UInt8)) : List UInt8 × List (List UInt8) :=
  if l = n ∧ r = n then (s, rs ++ [s])
  else
    let (s, rs) :=
      if l < n then
        let (s, rs) := R n (l + 1) r (s ++ [lparen]) rs
        (s.take (s.length - 1), rs)
      else (s, rs)
    if r < l then
      let (s, rs) := R n l (r + 1) (s ++ [rparen]) rs
      (s.take (s.length - 1), rs)
    else (s, rs)
termination_by 2 * (n - l) + (l - r)

/-- `generateParenthesis(n)`. -/
def generateParenthesis (n : ℕ) : List (List UInt8) := (R n 0 0 [] []).2

/-! ## What is left to write -/

/-- Round brackets only. -/
def parens : Brackets UInt8 where
  opens a := a = lparen
  pair a b := a = lparen ∧ b = rparen
  opens_of_pair h := by
    rw [(of_decide_eq_true h).1]
    rfl
  not_opens_of_pair h := by
    rw [(of_decide_eq_true h).2]
    rfl

/-- `w` goes on where `l` have been opened and `r` closed, up to `n` of each. -/
structure Completes (n l r : ℕ) (w : List UInt8) : Prop where
  opened : l + w.count lparen = n
  closed : r + w.count rparen = n
  accepted : parens.accepts (List.replicate (l - r) lparen) w = true

variable {n l r : ℕ} {w s : List UInt8} {rs : List (List UInt8)} {c : UInt8}

theorem completes_nil : Completes n l r [] ↔ l = n ∧ r = n := by
  constructor
  · exact fun h => ⟨h.opened, h.closed⟩
  · rintro ⟨rfl, rfl⟩
    refine ⟨rfl, rfl, ?_⟩
    rw [Nat.sub_self]
    rfl

theorem completes_open (hrl : r ≤ l) :
    Completes n l r (lparen :: w) ↔ Completes n (l + 1) r w := by
  have hopen : (lparen :: w).count lparen = w.count lparen + 1 := List.count_cons_self
  have hclose : (lparen :: w).count rparen = w.count rparen :=
    List.count_cons_of_ne (by decide)
  have hstack : l + 1 - r = (l - r) + 1 := by omega
  have haccepts : parens.accepts (List.replicate (l - r) lparen) (lparen :: w) =
      parens.accepts (List.replicate (l + 1 - r) lparen) w := by
    rw [hstack, List.replicate_succ]
    exact parens.accepts_open rfl
  constructor
  · rintro ⟨h1, h2, h3⟩
    exact ⟨by omega, by omega, haccepts ▸ h3⟩
  · rintro ⟨h1, h2, h3⟩
    exact ⟨by omega, by omega, haccepts ▸ h3⟩

theorem completes_close :
    Completes n l r (rparen :: w) ↔ r < l ∧ Completes n l (r + 1) w := by
  have hopen : (rparen :: w).count lparen = w.count lparen := List.count_cons_of_ne (by decide)
  have hclose : (rparen :: w).count rparen = w.count rparen + 1 := List.count_cons_self
  have hnot : parens.opens rparen = false := rfl
  by_cases hlt : r < l
  · have hstack : l - r = (l - (r + 1)) + 1 := by omega
    have haccepts : parens.accepts (List.replicate (l - r) lparen) (rparen :: w) =
        parens.accepts (List.replicate (l - (r + 1)) lparen) w := by
      rw [hstack, List.replicate_succ, parens.accepts_close_cons hnot]
      rfl
    constructor
    · rintro ⟨h1, h2, h3⟩
      exact ⟨hlt, by omega, by omega, haccepts ▸ h3⟩
    · rintro ⟨-, h1, h2, h3⟩
      exact ⟨by omega, by omega, haccepts ▸ h3⟩
  · refine iff_of_false (fun h => ?_) fun h => hlt h.1
    have haccepts := h.accepted
    rw [Nat.sub_eq_zero_of_le (Nat.not_lt.mp hlt), List.replicate_zero,
      parens.accepts_close_nil hnot] at haccepts
    cases haccepts

theorem Completes.head (h : Completes n l r (c :: w)) : c = lparen ∨ c = rparen := by
  by_contra hc
  rw [not_or] at hc
  have hnot : parens.opens c = false := decide_eq_false hc.1
  obtain ⟨a, st, -, hpair, -⟩ := (parens.accepts_close hnot).mp h.accepted
  exact hc.2 (of_decide_eq_true hpair).2

theorem completes_done : Completes n n n w ↔ w = [] := by
  constructor
  · intro h
    have hopened := h.opened
    have hclosed := h.closed
    cases w with
    | nil => rfl
    | cons c w =>
      rcases h.head with rfl | rfl
      · rw [List.count_cons_self] at hopened
        omega
      · rw [List.count_cons_self] at hclosed
        omega
  · rintro rfl
    exact completes_nil.mpr ⟨rfl, rfl⟩

/-- What is left to write starts with a parenthesis, if anything is left. -/
theorem completes_iff (hrl : r ≤ l) (hdone : ¬ (l = n ∧ r = n)) :
    Completes n l r w ↔ (∃ w', Completes n (l + 1) r w' ∧ [lparen] ++ w' = w) ∨
      ∃ w', (r < l ∧ Completes n l (r + 1) w') ∧ [rparen] ++ w' = w := by
  constructor
  · intro h
    cases w with
    | nil => exact absurd (completes_nil.mp h) hdone
    | cons c w =>
      rcases h.head with rfl | rfl
      · exact .inl ⟨w, (completes_open hrl).mp h, rfl⟩
      · exact .inr ⟨w, completes_close.mp h, rfl⟩
  · rintro (⟨w', h, rfl⟩ | ⟨w', h, rfl⟩)
    · exact (completes_open hrl).mpr h
    · exact completes_close.mpr h

/-! ## The recursion -/

theorem take_restored {t : List UInt8} (h : t = s ++ [c]) : t.take (t.length - 1) = s := by
  rw [h]
  simp

theorem adds_char {P : List UInt8 → Prop} {f : List UInt8 × List (List UInt8)}
    (h : Adds id P (s ++ [c]) rs f) :
    Adds id (fun w => ∃ w', P w' ∧ [c] ++ w' = w) s rs (f.1.take (f.1.length - 1), f.2) := by
  rw [take_restored h.fst_eq]
  exact h.push

theorem open_spec (s : List UInt8) (rs : List (List UInt8))
    (ih : l < n → Adds id (Completes n (l + 1) r) (s ++ [lparen]) rs
      (R n (l + 1) r (s ++ [lparen]) rs)) :
    Adds id (fun w => ∃ w', Completes n (l + 1) r w' ∧ [lparen] ++ w' = w) s rs
      (if l < n then
        let (s, rs) := R n (l + 1) r (s ++ [lparen]) rs
        (s.take (s.length - 1), rs)
      else (s, rs)) := by
  split_ifs with hln
  · exact adds_char (ih hln)
  · refine adds_nothing ?_
    rintro w ⟨w', h, -⟩
    have hopened := h.opened
    omega

theorem close_spec (s : List UInt8) (rs : List (List UInt8))
    (ih : r < l → Adds id (Completes n l (r + 1)) (s ++ [rparen]) rs
      (R n l (r + 1) (s ++ [rparen]) rs)) :
    Adds id (fun w => ∃ w', (r < l ∧ Completes n l (r + 1) w') ∧ [rparen] ++ w' = w) s rs
      (if r < l then
        let (s, rs) := R n l (r + 1) (s ++ [rparen]) rs
        (s.take (s.length - 1), rs)
      else (s, rs)) := by
  split_ifs with hrl
  · simp only [hrl, true_and]
    exact adds_char (ih hrl)
  · refine adds_nothing ?_
    rintro w ⟨w', h, -⟩
    exact hrl h.1

/-- **A call** adds what is left to write, behind the buffer. -/
theorem R_spec (n : ℕ) (s : List UInt8) (rs : List (List UInt8)) (hrl : r ≤ l) :
    Adds id (Completes n l r) s rs (R n l r s rs) := by
  induction hm : 2 * (n - l) + (l - r) using Nat.strong_induction_on generalizing l r s rs with
  | _ m ih =>
    by_cases hdone : l = n ∧ r = n
    · rw [R, if_pos hdone]
      obtain ⟨rfl, rfl⟩ := hdone
      exact adds_buffer fun w => completes_done
    · have hopen := open_spec s rs fun hln =>
        ih (2 * (n - (l + 1)) + (l + 1 - r)) (by omega) _ _ (Nat.le_succ_of_le hrl) rfl
      rw [R, if_neg hdone]
      generalize (if l < n then _ else (s, rs)) = st at hopen ⊢
      obtain ⟨s', rs'⟩ := st
      obtain rfl : s' = s := hopen.fst_eq
      have hclose := close_spec s' rs' fun hrl' =>
        ih (2 * (n - l) + (l - (r + 1))) (by omega) _ _ hrl' rfl
      refine (hopen.trans hclose ?_).congr fun w => (completes_iff hrl hdone).symm
      rintro w ⟨w', -, rfl⟩ ⟨w'', -, h⟩
      cases h

theorem open_fst {s₁ : List UInt8} {rs₁ : List (List UInt8)}
    (ih : l < n → (R n (l + 1) r (s ++ [lparen]) rs).1 = s ++ [lparen])
    (h : (if _ : l < n then
        let (s, rs) := R n (l + 1) r (s ++ [lparen]) rs
        (s.take (s.length - 1), rs)
      else (s, rs)) = (s₁, rs₁)) : s₁ = s := by
  refine (congrArg Prod.fst h).symm.trans ?_
  split_ifs with hln
  · exact take_restored (ih hln)
  · rfl

/-- Every call gives the buffer back. -/
theorem R_fst (n l r : ℕ) (s : List UInt8) (rs : List (List UInt8)) : (R n l r s rs).1 = s := by
  fun_induction R n l r s rs with
  | case1 => rfl
  | case2 l r s rs hdone s₁ rs₁ heq hrl s₂ rs₂ hsecond ih₁ ih₂ =>
    rw [hsecond] at ih₂
    exact (take_restored ih₂).trans (open_fst ih₁ heq)
  | case3 l r s rs hdone s₁ rs₁ heq hrl ih₁ => exact open_fst ih₁ heq

/-- **The balanced strings** are found once each, and every call gives the buffer back. -/
theorem generateParenthesis_spec (n : ℕ) :
    (generateParenthesis n).Nodup ∧
      (∀ t, t ∈ generateParenthesis n ↔
        t.count lparen = n ∧ t.count rparen = n ∧ parens.Balanced t) ∧
      ∀ l r s rs, (R n l r s rs).1 = s := by
  have hres := (R_spec n [] [] (Nat.le_refl 0)).enumerates_id
  refine ⟨hres.nodup, fun t => (hres.mem_iff t).trans ?_, R_fst n⟩
  rw [← Brackets.accepts_iff_balanced]
  constructor
  · rintro ⟨h1, h2, h3⟩
    exact ⟨by omega, by omega, h3⟩
  · rintro ⟨h1, h2, h3⟩
    exact ⟨by omega, by omega, h3⟩

end Sperm.Leetcode.GenerateParentheses
