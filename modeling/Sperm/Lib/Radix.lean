import Mathlib.Data.List.Palindrome
import Mathlib.Data.Nat.Digits.Lemmas
import Mathlib.Tactic.Common
import Mathlib.Tactic.Linarith

/-!
# Digits, the first one most significant

* `read b v l`: the number in base `b` that has the digits `l` behind those of `v`.
* `mul_pow_le_read`, `read_lt`: where it lies. **`read_lt_iff`**: numbers of the same length compare
  as their digits do.
* `read_digits`: the digits of a number, the last one first; **`read_digits_eq_self_iff`**: they
  give the number again if they are a palindrome.
-/

namespace Radix

variable {b v v' d n : ℕ} {l l' : List ℕ}

def read (b v : ℕ) (l : List ℕ) : ℕ := l.foldl (fun v d => v * b + d) v

@[simp] theorem read_nil : read b v [] = v := rfl

@[simp] theorem read_cons : read b v (d :: l) = read b (v * b + d) l := rfl

theorem mul_pow_le_read (b v : ℕ) (l : List ℕ) : v * b ^ l.length ≤ read b v l := by
  induction l generalizing v with
  | nil => simp
  | cons d l ih =>
    calc v * b ^ (d :: l).length = v * b * b ^ l.length := by
          rw [List.length_cons, pow_succ', mul_assoc]
      _ ≤ (v * b + d) * b ^ l.length := Nat.mul_le_mul_right _ (Nat.le_add_right _ d)
      _ ≤ read b v (d :: l) := ih (v * b + d)

theorem le_read (hb : 0 < b) (v : ℕ) (l : List ℕ) : v ≤ read b v l :=
  (Nat.le_mul_of_pos_right v (Nat.pow_pos hb)).trans (mul_pow_le_read b v l)

theorem read_lt (v : ℕ) (hl : ∀ d ∈ l, d < b) : read b v l < (v + 1) * b ^ l.length := by
  induction l generalizing v with
  | nil => simp
  | cons d l ih =>
    obtain ⟨hd, hl⟩ := List.forall_mem_cons.mp hl
    calc read b v (d :: l) < (v * b + d + 1) * b ^ l.length := ih (v * b + d) hl
      _ ≤ (v + 1) * b * b ^ l.length := by
          refine Nat.mul_le_mul_right _ ?_
          rw [Nat.succ_mul]
          omega
      _ = (v + 1) * b ^ (d :: l).length := by rw [List.length_cons, pow_succ', mul_assoc]

theorem read_lt_read (h : v < v') (hlen : l.length = l'.length) (hl : ∀ d ∈ l, d < b) :
    read b v l < read b v' l' :=
  calc read b v l < (v + 1) * b ^ l.length := read_lt v hl
    _ ≤ v' * b ^ l'.length := by
        rw [hlen]
        exact Nat.mul_le_mul_right _ h
    _ ≤ read b v' l' := mul_pow_le_read b v' l'

/-- **The order** is that of the digits, the first one that differs decides. -/
theorem read_lt_iff (v : ℕ) (hlen : l.length = l'.length) (hl : ∀ d ∈ l, d < b)
    (hl' : ∀ d ∈ l', d < b) : read b v l < read b v l' ↔ List.Lex (· < ·) l l' := by
  induction l generalizing v l' with
  | nil =>
    obtain rfl := List.length_eq_zero_iff.mp hlen.symm
    exact iff_of_false (lt_irrefl v) nofun
  | cons d l ih =>
    cases l' with
    | nil => cases hlen
    | cons d' l' =>
      obtain ⟨-, hds⟩ := List.forall_mem_cons.mp hl
      obtain ⟨-, hds'⟩ := List.forall_mem_cons.mp hl'
      have hrest : l.length = l'.length := Nat.succ_injective hlen
      rw [read_cons, read_cons, List.cons_lex_cons_iff]
      rcases lt_trichotomy d d' with hlt | rfl | hlt
      · exact iff_of_true (read_lt_read (by omega) hrest hds) (.inl hlt)
      · rw [ih _ hrest hds hds']
        simp
      · have hgt : read b (v * b + d') l' < read b (v * b + d) l :=
          read_lt_read (by omega) hrest.symm hds'
        refine iff_of_false hgt.not_gt ?_
        rintro (h | ⟨rfl, -⟩)
        · exact lt_asymm h hlt
        · exact lt_irrefl d hlt

theorem read_eq_zero_iff (hb : 0 < b) : read b v l = 0 ↔ v = 0 ∧ ∀ d ∈ l, d = 0 := by
  induction l generalizing v with
  | nil => simp
  | cons d l ih =>
    rw [read_cons, ih, List.forall_mem_cons, Nat.add_eq_zero_iff, Nat.mul_eq_zero, and_assoc,
      or_iff_left hb.ne']

/-! ## The digits of a number -/

theorem read_eq_ofDigits (b : ℕ) (l : List ℕ) : read b 0 l = Nat.ofDigits b l.reverse := by
  induction l using List.reverseRecOn with
  | nil => rfl
  | append_singleton l d ih =>
    have hsplit : read b 0 (l ++ [d]) = read b 0 l * b + d := List.foldl_append
    rw [hsplit, ih, List.reverse_append, List.reverse_singleton, List.singleton_append,
      Nat.ofDigits_cons, mul_comm, add_comm]

theorem read_digits (hb : 1 < b) (hn : n ≠ 0) (v : ℕ) :
    read b v (Nat.digits b n) = read b (v * b + n % b) (Nat.digits b (n / b)) := by
  rw [Nat.digits_eq_cons_digits_div hb hn, read_cons]

theorem read_digits_pos (hb : 0 < b) (hn : n ≠ 0) : 0 < read b 0 (Nat.digits b n) := by
  rw [Nat.pos_iff_ne_zero, Ne, read_eq_zero_iff hb]
  rintro ⟨-, hzero⟩
  have hdigits : Nat.digits b n = List.replicate (Nat.digits b n).length 0 :=
    List.eq_replicate_of_mem hzero
  rw [← Nat.ofDigits_digits b n, hdigits, Nat.ofDigits_replicate_zero] at hn
  exact hn rfl

/-- **The number again**, if it is the same from both sides. -/
theorem read_digits_eq_self_iff (hb : 1 < b) (n : ℕ) :
    read b 0 (Nat.digits b n) = n ↔ (Nat.digits b n).Palindrome := by
  have hdigits : ∀ d ∈ Nat.digits b n, d < b := fun d hd => Nat.digits_lt_base hb hd
  rw [read_eq_ofDigits, List.Palindrome.iff_reverse_eq]
  constructor
  · intro h
    refine Nat.ofDigits_inj_of_len_eq hb List.length_reverse ?_ hdigits ?_
    · exact fun d hd => hdigits d (List.mem_reverse.mp hd)
    · rw [h, Nat.ofDigits_digits]
  · intro h
    rw [h, Nat.ofDigits_digits]

end Radix
