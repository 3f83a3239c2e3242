import Mathlib.Data.List.GetD
import Sperm.Leetcode.Palindrome
import Sperm.Lib.Window

/-!
# The longest palindrome in a string (`longest-palindromic-substring.cc`)

A palindrome is found from its middle, which is at a character or between two of them. The loop over
the middles of the second kind ends at `s.size() - 1`, which is no small number for an empty string.

* `longestPalindrome` with `widen`, `expand`, `centres`: the model, where `none` stands for an
  access or a `substr` outside the string.
* `widen_spec`, **`expand_spec`**: the longest palindrome around a middle.
* **`centres_spec`**: the longest one around the middles of a loop.
* **`longestPalindrome_iff`**: a longest palindrome is found if the string is not empty.

Positions are not cut to `int`.
-/

namespace Sperm.Leetcode.LongestPalindrome

open Palindrome (Pal pal_iff pal_of_le)
open Window

/-- A number as a `size_t`: below `0` it wraps around. -/
def asSize (x : ℤ) : ℤ := if 0 ≤ x then x else x + 2 ^ 64

/-- `s[k]`. -/
def char (s : List UInt8) (k : ℤ) : Option UInt8 := if 0 ≤ k then s[k.toNat]? else none

/-- `s.substr(pos, n)`. -/
def substr (s : List UInt8) (pos n : ℤ) : Option (List UInt8) :=
  if asSize pos ≤ s.length then
    some ((s.drop (asSize pos).toNat).take (asSize n).toNat)
  else none

/-- The loop of `expand`, with `f` and `e`. -/
def widen (s : List UInt8) (f e : ℤ) : Option (ℤ × ℤ) :=
  if 0 ≤ f ∧ asSize e < s.length then do
    let a ← char s f
    let b ← char s e
    if a = b then widen s (f - 1) (e + 1) else some (f, e)
  else some (f, e)
termination_by (s.length - e).toNat
decreasing_by
  have hlt := And.right ‹_›
  unfold asSize at hlt
  split_ifs at hlt <;> omega

/-- `expand(s, f, e)`. -/
def expand (s : List UInt8) (f e : ℤ) : Option (List UInt8) := do
  let (f, e) ← widen s f e
  let f := f + 1
  let e := e - 1
  let e := if f > e then f else e
  substr s f (e - f + 1)

/-- The two loops of `longestPalindrome`, with `d` from the one end of a middle to the other. -/
def centres (s : List UInt8) (d limit : ℤ) (i : ℕ) (ln : List UInt8) : Option (List UInt8) :=
  if i < limit then do
    let x ← expand s i (i + d)
    centres s d limit (i + 1) (if x.length > ln.length then x else ln)
  else some ln
termination_by (limit - i).toNat

/-- `longestPalindrome(s)`. -/
def longestPalindrome (s : List UInt8) : Option (List UInt8) := do
  let ln ← centres s 0 s.length 0 []
  centres s 1 (asSize (s.length - 1)) 0 ln

variable {s ln : List UInt8} {f e limit : ℤ} {i a b d k l : ℕ}

theorem asSize_of_nonneg {x : ℤ} (h : 0 ≤ x) : asSize x = x := if_pos h

theorem char_eq (h : 0 ≤ f) (hlt : f < s.length) : char s f = some (s.getD f.toNat 0) := by
  have hn : f.toNat < s.length := by omega
  rw [char, if_pos h, List.getElem?_eq_getElem hn, List.getD_eq_getElem _ _ hn]

theorem pal_getD (h : Pal s a b) (hb : b < s.length) (hak : a ≤ k) (hkl : k ≤ l)
    (hsum : k + l = a + b) : s.getD k 0 = s.getD l 0 := by
  induction hn : k - a generalizing a b with
  | zero =>
    obtain rfl : a = k := by omega
    obtain rfl : l = b := by omega
    rcases hkl.eq_or_lt with rfl | hlt
    · rfl
    · exact ((pal_iff hlt hb).mp h).1
  | succ n ih =>
    have hinner := ((pal_iff (by omega) hb).mp h).2
    exact ih hinner (by omega) (by omega) (by omega) (by omega)

/-! ## Around one middle -/

/-- The loop stops at the longest palindrome. -/
theorem widen_spec (hf : -1 ≤ f) (hfe : f ≤ e) (h0 : 0 ≤ e) (he : e ≤ s.length)
    (hpal : Pal s (f + 1).toNat (e - 1).toNat) :
    ∃ f' e', widen s f e = some (f', e') ∧ -1 ≤ f' ∧ f' ≤ f ∧ e' ≤ s.length ∧ f' + e' = f + e ∧
      Pal s (f' + 1).toNat (e' - 1).toNat ∧
        (0 ≤ f' → e' < s.length → s.getD f'.toNat 0 ≠ s.getD e'.toNat 0) := by
  induction hn : (s.length - e).toNat generalizing f e with
  | zero =>
    refine ⟨f, e, ?_, hf, le_rfl, he, rfl, hpal, by omega⟩
    rw [widen, asSize_of_nonneg h0, if_neg (by omega)]
  | succ n ih =>
    rw [widen, asSize_of_nonneg h0]
    split_ifs with hin
    · rw [char_eq hin.1 (by omega), char_eq (by omega) hin.2]
      simp only [Option.bind_eq_bind, Option.bind_some]
      split_ifs with hchar
      · have hwider : Pal s (f - 1 + 1).toNat (e + 1 - 1).toNat := by
          rw [sub_add_cancel, add_sub_cancel_right]
          rcases hfe.eq_or_lt with rfl | hlt
          · exact pal_of_le le_rfl
          · rw [pal_iff (by omega) (by omega), show f.toNat + 1 = (f + 1).toNat by omega,
              show e.toNat - 1 = (e - 1).toNat by omega]
            exact ⟨hchar, hpal⟩
        obtain ⟨f', e', hwiden, hf', hle, he', hsum, hrest⟩ :=
          ih (by omega) (by omega) (by omega) (by omega) hwider (by omega)
        exact ⟨f', e', hwiden, hf', by omega, he', by omega, hrest⟩
      · exact ⟨f, e, rfl, hf, le_rfl, he, rfl, hpal, fun _ _ => hchar⟩
    · exact ⟨f, e, rfl, hf, le_rfl, he, rfl, hpal, fun h h' => absurd ⟨h, h'⟩ hin⟩

theorem substr_eq (s : List UInt8) (k : ℕ) (ha : a ≤ s.length) :
    substr s a k = some ((s.drop a).take k) := by
  rw [substr, asSize_of_nonneg (by omega), asSize_of_nonneg (by omega), if_pos (by omega)]
  rfl

/-- **The longest palindrome** around a middle. -/
theorem expand_spec (hd : d ≤ 1) (hi : i + d < s.length) :
    ∃ x, expand s i (i + d) = some x ∧ x <:+: s ∧ x.Palindrome ∧
      ∀ a b, a ≤ b → b < s.length → a + b = 2 * i + d → Pal s a b → b + 1 - a ≤ x.length := by
  have hinner : Pal s ((i : ℤ) + 1).toNat ((i : ℤ) + d - 1).toNat := pal_of_le (by omega)
  obtain ⟨f, e, hwiden, hf, hfi, he, hsum, hpal, hstop⟩ :=
    widen_spec (by omega) (by omega) (by omega) (by omega) hinner
  obtain ⟨a, ha⟩ : ∃ a : ℕ, f + 1 = a := ⟨(f + 1).toNat, by omega⟩
  obtain ⟨c, rfl⟩ : ∃ c : ℕ, e = c := ⟨e.toNat, by omega⟩
  -- between two characters that differ there is no palindrome, and the second one is taken
  obtain ⟨b, hb, hab, hbs, hcb, hpal⟩ : ∃ b : ℕ,
      (if (a : ℤ) > (c : ℤ) - 1 then (a : ℤ) else (c : ℤ) - 1) = b ∧ a ≤ b ∧ b < s.length ∧
        c ≤ b + 1 ∧ Pal s a b := by
    split_ifs with hempty
    · refine ⟨a, rfl, le_rfl, ?_, by omega, pal_of_le le_rfl⟩
      by_contra hend
      exact hstop (by omega) (by omega) (by congr 1; omega)
    · refine ⟨c - 1, by omega, by omega, by omega, by omega, ?_⟩
      rw [show a = (f + 1).toNat by omega, show c - 1 = ((c : ℤ) - 1).toNat by omega]
      exact hpal
  have hlen : (b : ℤ) - a + 1 = (b + 1 - a : ℕ) := by omega
  refine ⟨window s a (b + 1), ?_, window_infix s a _, hpal, ?_⟩
  · rw [expand, hwiden]
    simp only [Option.bind_eq_bind, Option.bind_some, ha]
    rw [hb, hlen, substr_eq s _ (by omega), window]
  · intro a' b' hab' hbs' hmiddle hpal'
    rw [length_window (by omega)]
    by_contra hlong
    have hsame := pal_getD hpal' hbs' (k := f.toNat) (l := c) (by omega) (by omega) (by omega)
    exact hstop (by omega) (by omega) hsame

/-! ## Around all middles -/

/-- A palindrome in `s` that is as long as each one around the first `i` middles. -/
structure LongestTo (s : List UInt8) (d i : ℕ) (ln : List UInt8) : Prop where
  part : ln <:+: s
  palindrome : ln.Palindrome
  longest : ∀ a b, a ≤ b → b < s.length → (a + b) % 2 = d → (a + b) / 2 < i → Pal s a b →
    b + 1 - a ≤ ln.length

/-- **A loop over middles** keeps a longest palindrome. -/
theorem centres_spec (hd : d ≤ 1) (hi : i ≤ k) (hk : k + d ≤ s.length)
    (h : LongestTo s d i ln) :
    ∃ ln', centres s d k i ln = some ln' ∧ LongestTo s d k ln' ∧ ln.length ≤ ln'.length := by
  induction hn : k - i generalizing i ln with
  | zero =>
    obtain rfl : i = k := by omega
    refine ⟨ln, ?_, h, le_rfl⟩
    rw [centres, if_neg (lt_irrefl _)]
  | succ n ih =>
    obtain ⟨x, hx, hpart, hpal, hlongest⟩ := expand_spec hd (s := s) (i := i) (by omega)
    have hmax : LongestTo s d (i + 1) (if x.length > ln.length then x else ln) := by
      obtain ⟨hpart', hpal', hlongest'⟩ := h
      have hge : x.length ≤ (if x.length > ln.length then x else ln).length ∧
          ln.length ≤ (if x.length > ln.length then x else ln).length := by
        split_ifs <;> omega
      refine ⟨by split_ifs <;> assumption, by split_ifs <;> assumption, ?_⟩
      intro a b hab hbs hodd hmiddle hp
      rcases Nat.lt_succ_iff_lt_or_eq.mp hmiddle with hlt | heq
      · exact (hlongest' a b hab hbs hodd hlt hp).trans hge.2
      · exact (hlongest a b hab hbs (by omega) hp).trans hge.1
    obtain ⟨ln', hrun, hln, hle⟩ := ih (by omega) hmax (by omega)
    refine ⟨ln', ?_, hln, ?_⟩
    · rw [centres, if_pos (by omega), hx]
      exact hrun
    · split_ifs at hle <;> omega

theorem longestPalindrome_nil : longestPalindrome [] = none := by
  have hexpand : expand [] 0 (0 + 1) = none := by
    rw [expand, widen, if_neg (by decide)]
    rfl
  rw [longestPalindrome, centres, if_neg (by decide), Option.bind_eq_bind, Option.bind_some,
    centres, if_pos (by decide)]
  exact congrArg (Option.bind · _) hexpand

/-- **A longest palindrome** is found exactly if the string is not empty. -/
theorem longestPalindrome_iff (s : List UInt8) :
    (∃ p, longestPalindrome s = some p ∧ p <:+: s ∧ p.Palindrome ∧
      ∀ q, q <:+: s → q.Palindrome → q.length ≤ p.length) ↔ s ≠ [] := by
  constructor
  · rintro ⟨p, hp, -⟩ rfl
    rw [longestPalindrome_nil] at hp
    cases hp
  · intro hne
    have hpos := List.length_pos_iff.mpr hne
    have hnil : LongestTo s 0 0 [] := ⟨List.nil_infix, .nil, by omega⟩
    obtain ⟨ln, hodd, hln, -⟩ :=
      centres_spec (Nat.zero_le 1) (Nat.zero_le s.length) le_rfl hnil
    have hstart : LongestTo s 1 0 ln := ⟨hln.part, hln.palindrome, by omega⟩
    obtain ⟨p, heven, hp, hle⟩ :=
      centres_spec le_rfl (Nat.zero_le (s.length - 1)) (by omega) hstart
    have hlimit : asSize (s.length - 1) = (s.length - 1 : ℕ) := by
      rw [asSize_of_nonneg (by omega)]
      omega
    refine ⟨p, ?_, hp.part, hp.palindrome, fun q hq hpal => ?_⟩
    · rw [longestPalindrome, hlimit]
      exact (congrArg (Option.bind · _) hodd).trans heven
    · obtain ⟨a, b, hab, hb, rfl⟩ := infix_iff_window.mp hq
      rcases hab.eq_or_lt with rfl | hlt
      · rw [window_of_le le_rfl]
        exact Nat.zero_le _
      · obtain ⟨c, rfl⟩ : ∃ c, b = c + 1 := ⟨b - 1, by omega⟩
        rw [length_window hb]
        rcases Nat.mod_two_eq_zero_or_one (a + c) with hmod | hmod
        · exact (hln.longest a c (by omega) hb hmod (by omega) hpal).trans hle
        · exact hp.longest a c (by omega) hb hmod (by omega) hpal

/-- The empty string is a palindrome in itself, but nothing is returned. -/
theorem not_longestPalindrome_empty : ¬ ∃ p, longestPalindrome [] = some p ∧ p <:+: [] ∧
    p.Palindrome ∧ ∀ q : List UInt8, q <:+: [] → q.Palindrome → q.length ≤ p.length := by
  rintro ⟨p, hp, -⟩
  rw [longestPalindrome_nil] at hp
  cases hp

end Sperm.Leetcode.LongestPalindrome
