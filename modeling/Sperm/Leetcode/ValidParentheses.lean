import Sperm.Lib.Brackets

/-!
# Matching parentheses (`valid-parentheses.cc`)

A stack has the brackets that are still open. Characters that are no brackets are passed over.

* `isValid` with `isOpening`, `isClosing`, `isPair` and `scan`: the model.
* `pairs`, `brackets`, `isBracket`: the six characters and how they match.
* `scan_eq`: the loop reads the brackets only.
* **`isValid_iff`**: the answer.

Positions are not cut to `int`.
-/

namespace Sperm.Leetcode.ValidParentheses

def lparen : UInt8 := 0x28

def rparen : UInt8 := 0x29

def lbracket : UInt8 := 0x5b

def rbracket : UInt8 := 0x5d

def lbrace : UInt8 := 0x7b

def rbrace : UInt8 := 0x7d

/-- `ch == '(' || ch == '{' || ch == '['`. -/
def isOpening (ch : UInt8) : Bool := ch = lparen || ch = lbrace || ch = lbracket

/-- `ch == ')' || ch == '}' || ch == ']'`. -/
def isClosing (ch : UInt8) : Bool := ch = rparen || ch = rbrace || ch = rbracket

/-- `ch` closes what `x` has opened. -/
def isPair (x ch : UInt8) : Bool :=
  (ch = rparen && x = lparen) || (ch = rbrace && x = lbrace) || (ch = rbracket && x = lbracket)

/-- The loop, with `st` and what is left of `s`. -/
def scan : List UInt8 → List UInt8 → Bool
  | st, [] => st.isEmpty
  | st, ch :: s =>
    if isOpening ch then scan (ch :: st) s
    else if isClosing ch then
      match st with
      | [] => false
      | x :: st => if !isPair x ch then false else scan st s
    else scan st s

/-- `isValid(s)`. -/
def isValid (s : List UInt8) : Bool := scan [] s

/-! ## The brackets of a string -/

/-- What opens a bracket, and what closes it. -/
def pairs : List (UInt8 × UInt8) := [(lparen, rparen), (lbracket, rbracket), (lbrace, rbrace)]

theorem mem_pairs_iff {x ch : UInt8} : (x, ch) ∈ pairs ↔
    (x = lparen ∧ ch = rparen) ∨ (x = lbracket ∧ ch = rbracket) ∨ (x = lbrace ∧ ch = rbrace) := by
  simp [pairs]

/-- The three kinds of brackets. -/
def brackets : Brackets UInt8 where
  opens := isOpening
  pair a b := (a, b) ∈ pairs
  opens_of_pair h := by
    rcases mem_pairs_iff.mp (of_decide_eq_true h) with ⟨rfl, -⟩ | ⟨rfl, -⟩ | ⟨rfl, -⟩ <;> decide
  not_opens_of_pair h := by
    rcases mem_pairs_iff.mp (of_decide_eq_true h) with ⟨-, rfl⟩ | ⟨-, rfl⟩ | ⟨-, rfl⟩ <;> decide

/-- One of the characters `()[]{}`. -/
def isBracket (ch : UInt8) : Bool := ch ∈ [lparen, rparen, lbracket, rbracket, lbrace, rbrace]

theorem isPair_eq (x ch : UInt8) : isPair x ch = brackets.pair x ch := by
  rw [Bool.eq_iff_iff]
  simp only [isPair, brackets, Bool.or_eq_true, Bool.and_eq_true, decide_eq_true_eq, mem_pairs_iff]
  tauto

theorem isBracket_eq (ch : UInt8) : isBracket ch = (isOpening ch || isClosing ch) := by
  rw [Bool.eq_iff_iff]
  simp only [isBracket, isOpening, isClosing, Bool.or_eq_true, decide_eq_true_eq, List.mem_cons,
    List.not_mem_nil, or_false]
  tauto

/-- **The loop** reads the brackets only. -/
theorem scan_eq (st s : List UInt8) : scan st s = brackets.accepts st (s.filter isBracket) := by
  induction s generalizing st with
  | nil => rfl
  | cons ch s ih =>
    cases hopen : isOpening ch with
    | true =>
      have hbracket : isBracket ch = true := by simp [isBracket_eq, hopen]
      rw [List.filter_cons_of_pos hbracket, brackets.accepts_open hopen, ← ih, scan.eq_def]
      exact if_pos hopen
    | false =>
      cases hclose : isClosing ch with
      | true =>
        have hbracket : isBracket ch = true := by simp [isBracket_eq, hclose]
        rw [List.filter_cons_of_pos hbracket]
        cases st with
        | nil =>
          rw [brackets.accepts_close_nil hopen]
          simp [scan, hopen, hclose]
        | cons x st =>
          rw [brackets.accepts_close_cons hopen, ← ih, ← isPair_eq]
          cases hpair : isPair x ch with
          | true => simp [scan, hopen, hclose, hpair]
          | false => simp [scan, hopen, hclose, hpair]
      | false =>
        have hbracket : ¬ isBracket ch = true := by simp [isBracket_eq, hopen, hclose]
        rw [List.filter_cons_of_neg hbracket, ← ih]
        simp [scan, hopen, hclose]

/-- **The answer**: whether the brackets of the string match. -/
theorem isValid_iff (s : List UInt8) :
    isValid s = true ↔ brackets.Balanced (s.filter isBracket) := by
  rw [isValid, scan_eq, Brackets.accepts_iff_balanced]

end Sperm.Leetcode.ValidParentheses
