import Mathlib.Data.List.GetD
import Sperm.Lib.Backtracking
import Sperm.Lib.Segmentation
import Sperm.Leetcode.Atoi

/-!
# IP addresses in a string of digits (`restore-ip-addresses.cc`)

The string is cut into parts from left to right. A part grows until its value is above 255, and one
that starts with a zero does not grow.

* `restoreIpAddresses` with `R`, `loop`: the model; the bound of the loop is cut to `int`.
* `Octet`: what a part has to be. `Splits s idx k m ws`: the parts `ws` go on from `idx` on, behind
  `k` others, and the first of them has more than `m` digits.
* `splits_iff`: the first part has one more digit, or more than that; **`loop_spec`**, **`R_spec`**:
  what a call adds.
* **`restoreIpAddresses_spec`**: the addresses, each once.

Positions and values stay small and are not cut.
-/

namespace Sperm.Leetcode.RestoreIp

open Backtracking
open ValidNumber (dot isdigit)
open Atoi (digit number)

def zero : UInt8 := 0x30

/-- `vs[0] + "." + vs[1] + "." + vs[2] + "." + vs[3]`. -/
def join (vs : List (List UInt8)) : List UInt8 :=
  vs.getD 0 [] ++ [dot] ++ vs.getD 1 [] ++ [dot] ++ vs.getD 2 [] ++ [dot] ++ vs.getD 3 []

/-- The bound `end` of the loop. -/
def bound (s : List UInt8) (idx : ℕ) : ℤ :=
  if s.getD idx 0 = zero then idx else ((s.length : ℤ) - 1).bmod (2 ^ 32)

theorem bound_lt {s : List UInt8} {idx i : ℕ} (hlt : idx < s.length) (hi : i ≤ bound s idx) :
    i < s.length := by
  unfold bound at hi
  split_ifs at hi
  · omega
  · rw [Int.bmod_def] at hi
    omega

mutual

/-- `R(s, idx, vs, res)`: the parts `vs` and the results `res` after the call. -/
def R (s : List UInt8) (idx : ℕ) (hidx : idx ≤ s.length) (vs res : List (List UInt8)) :
    List (List UInt8) × List (List UInt8) :=
  if hend : idx = s.length then
    if vs.length = 4 then (vs, res ++ [join vs]) else (vs, res)
  else if vs.length = 4 then (vs, res)
  else loop s idx (lt_of_le_of_ne hidx hend) idx le_rfl 0 vs res
termination_by (s.length - idx, s.length + 1)

/-- The loop of `R` from `i` on. -/
def loop (s : List UInt8) (idx : ℕ) (hlt : idx < s.length) (i : ℕ) (hi : idx ≤ i) (val : ℤ)
    (vs res : List (List UInt8)) : List (List UInt8) × List (List UInt8) :=
  if hnext : i ≤ bound s idx then
    let val := val * 10 + digit (s.getD i 0)
    if val > 255 then (vs, res)
    else
      let st := R s (i + 1) (bound_lt hlt hnext) (vs ++ [(s.drop idx).take (i - idx + 1)]) res
      loop s idx hlt (i + 1) (Nat.le_succ_of_le hi) val st.1.dropLast st.2
  else (vs, res)
termination_by (s.length - idx, s.length - i)
decreasing_by
  · have := bound_lt hlt hnext
    exact Prod.Lex.left _ _ (by omega)
  · have := bound_lt hlt hnext
    exact Prod.Lex.right _ (by omega)

end

/-- `restoreIpAddresses(s)`. -/
def restoreIpAddresses (s : List UInt8) : List (List UInt8) := (R s 0 (Nat.zero_le _) [] []).2

/-! ## The parts -/

/-- A number up to 255 with no zero in front. -/
structure Octet (x : List UInt8) : Prop where
  number_le : number x ≤ 255
  length_eq : x.head? = some zero → x.length = 1

/-- `ws` make four parts together with `k` others and cut the string from `idx` on; the first of
them has more than `m` digits. -/
structure Splits (s : List UInt8) (idx k m : ℕ) (ws : List (List UInt8)) : Prop where
  cuts : IsSegmentation Octet (s.drop idx) ws
  length_eq : k + ws.length = 4
  first : ∀ x ∈ ws.head?, m < x.length

variable {s : List UInt8} {idx i k m : ℕ} {ws vs res : List (List UInt8)} {x : List UInt8} {val : ℤ}

theorem number_pos {c : UInt8} (hdigit : isdigit c = true) (hc : c ≠ zero) : 1 ≤ number [c] := by
  have hbounds := Atoi.digit_bounds hdigit
  have hne : c.toNat ≠ 48 := fun h => hc (UInt8.toNat_inj.mp h)
  rw [number, List.reverse_singleton, List.map_singleton, Nat.ofDigits_singleton]
  unfold digit at hbounds
  omega

theorem octet_length_le (hx : Octet x) (hdigits : ∀ c ∈ x, isdigit c = true) : x.length ≤ 3 := by
  cases x with
  | nil => exact Nat.zero_le _
  | cons c ds =>
    by_cases hc : c = zero
    · have hlen := hx.length_eq (by rw [hc]; rfl)
      omega
    · by_contra hlen
      have hpos := number_pos (hdigits c List.mem_cons_self) hc
      have hpow : 10 ^ 3 ≤ 10 ^ ds.length :=
        Nat.pow_le_pow_right (by decide) (by rw [List.length_cons] at hlen; omega)
      have happend := Atoi.number_append [c] ds
      have hmul : 10 ^ ds.length ≤ number [c] * 10 ^ ds.length := Nat.le_mul_of_pos_left _ hpos
      have hle := hx.number_le
      rw [List.singleton_append] at happend
      omega

theorem Splits.mem {c : UInt8} (h : Splits s idx k m ws) (hx : x ∈ ws) (hc : c ∈ x) : c ∈ s := by
  have hmem := List.mem_flatten_of_mem hx hc
  rw [h.cuts.flatten_eq] at hmem
  exact List.mem_of_mem_drop hmem

theorem Splits.cons (hlt : idx < s.length) (h : Splits s idx k m ws) :
    ∃ x ws', ws = x :: ws' ∧ x <+: s.drop idx ∧ Octet x ∧ m < x.length ∧ k < 4 ∧
      IsSegmentation Octet (s.drop (idx + x.length)) ws' := by
  obtain ⟨hcuts, hlen, hfirst⟩ := h
  cases ws with
  | nil =>
    have hempty := congrArg List.length hcuts.flatten_eq
    rw [List.flatten_nil, List.length_nil, List.length_drop] at hempty
    omega
  | cons x ws =>
    obtain ⟨-, hx, v, hv, hcuts⟩ := isSegmentation_cons_iff.mp hcuts
    rw [List.length_cons] at hlen
    refine ⟨x, ws, rfl, ⟨v, hv.symm⟩, hx, hfirst x rfl, by omega, ?_⟩
    rw [← List.drop_drop, hv, List.drop_left]
    exact hcuts

theorem splits_end (hend : idx = s.length) : Splits s idx k 0 ws ↔ k = 4 ∧ ws = [] := by
  rw [hend]
  constructor
  · rintro ⟨hcuts, hlen, -⟩
    rw [List.drop_length, isSegmentation_nil_iff] at hcuts
    subst hcuts
    exact ⟨hlen, rfl⟩
  · rintro ⟨rfl, rfl⟩
    refine ⟨?_, rfl, nofun⟩
    rw [List.drop_length, isSegmentation_nil_iff]

theorem length_take_succ (hlt : idx + m < s.length) :
    ((s.drop idx).take (m + 1)).length = m + 1 := by
  rw [List.length_take, List.length_drop]
  omega

theorem take_prefix_eq (hx : x <+: s.drop idx) (hm : m < x.length) :
    (s.drop idx).take (m + 1) = x.take (m + 1) := by
  obtain ⟨v, hv⟩ := hx
  rw [← hv, List.take_append_of_le_length hm]

/-- No part starts with digits whose value is too large. -/
theorem not_splits_of_number (hlt : idx < s.length)
    (hval : 255 < number ((s.drop idx).take (m + 1))) : ¬ Splits s idx k m ws := by
  intro h
  obtain ⟨x, ws', -, hprefix, hx, hm, -⟩ := h.cons hlt
  have happend := Atoi.number_append (x.take (m + 1)) (x.drop (m + 1))
  have hmul : number (x.take (m + 1)) ≤
      number (x.take (m + 1)) * 10 ^ (x.drop (m + 1)).length :=
    Nat.le_mul_of_pos_right _ (by positivity)
  have hle := hx.number_le
  rw [List.take_append_drop] at happend
  rw [take_prefix_eq hprefix hm] at hval
  omega

/-- No part goes beyond the bound of the loop: it has a zero in front, or the string ends there, or
what is left is too long for four parts. -/
theorem not_splits_of_bound (hdigits : ∀ c ∈ s, isdigit c = true) (hlt : idx < s.length)
    (hidx : idx ≤ 3 * k) (hi : idx ≤ i) (hbound : ¬ (i : ℤ) ≤ bound s idx) :
    ¬ Splits s idx k (i - idx) ws := by
  intro h
  obtain ⟨x, ws', -, hprefix, hx, hm, hk, -⟩ := h.cons hlt
  unfold bound at hbound
  split_ifs at hbound with hzero
  · have hhead : x.head? = some zero := by
      obtain ⟨v, hv⟩ := hprefix
      cases x with
      | nil => cases hm
      | cons c x =>
        rw [List.drop_eq_getElem_cons hlt, List.cons_append, List.cons.injEq] at hv
        rw [List.head?_cons, hv.1, ← List.getD_eq_getElem s 0 hlt, hzero]
    have hlen := hx.length_eq hhead
    omega
  · have hlong : s.length - idx ≤ 3 * ws.length := by
      rw [← List.length_drop]
      exact h.cuts.length_le fun y hy hoctet =>
        octet_length_le hoctet fun c hc => hdigits c (h.mem hy hc)
    have hlen := hprefix.length_le
    have hcount := h.length_eq
    rw [List.length_drop] at hlen
    rw [Int.bmod_def] at hbound
    omega

theorem splits_iff (hlt : idx + m < s.length) (hx : Octet ((s.drop idx).take (m + 1))) :
    Splits s idx k m ws ↔
      (∃ ws', Splits s (idx + m + 1) (k + 1) 0 ws' ∧ [(s.drop idx).take (m + 1)] ++ ws' = ws) ∨
        Splits s idx k (m + 1) ws := by
  have hlength := length_take_succ hlt
  constructor
  · intro h
    obtain ⟨x, ws', rfl, hprefix, -, hm, -, hcuts⟩ := h.cons (by omega)
    rcases Nat.lt_or_eq_of_le hm with hm' | hm'
    · refine .inr ⟨h.cuts, h.length_eq, fun y hy => ?_⟩
      obtain rfl := Option.some.inj hy
      exact hm'
    · have htake := take_prefix_eq hprefix hm
      have hlen := h.length_eq
      rw [List.take_of_length_le hm'.ge] at htake
      rw [← hm'] at hcuts
      rw [List.length_cons] at hlen
      refine .inl ⟨ws', ⟨hcuts, by omega, fun y hy => ?_⟩, by rw [htake]; rfl⟩
      exact List.length_pos_iff.mpr (hcuts.ne_nil y (List.mem_of_mem_head? hy))
  · rintro (⟨ws', ⟨hcuts, hlen, -⟩, rfl⟩ | h)
    · refine ⟨isSegmentation_cons_iff.mpr ⟨?_, hx, s.drop (idx + m + 1), ?_, hcuts⟩, ?_, ?_⟩
      · exact List.ne_nil_of_length_pos (by omega)
      · rw [Nat.add_assoc, ← List.drop_drop, List.take_append_drop]
      · rw [List.length_append, List.length_singleton]
        omega
      · intro y hy
        obtain rfl := Option.some.inj hy
        omega
    · exact ⟨h.cuts, h.length_eq, fun y hy => Nat.lt_of_succ_lt (h.first y hy)⟩

/-- The digits up to the bound of the loop are a part, if their value is small. -/
theorem octet_of_le_bound (hlt : idx < s.length) (hi : idx ≤ i) (hbound : i ≤ bound s idx)
    (hval : number ((s.drop idx).take (i - idx + 1)) ≤ 255) :
    Octet ((s.drop idx).take (i - idx + 1)) := by
  refine ⟨hval, fun hhead => ?_⟩
  rw [List.drop_eq_getElem_cons hlt, List.take_succ_cons, List.head?_cons,
    Option.some.injEq, ← List.getD_eq_getElem s 0 hlt] at hhead
  rw [bound, if_pos hhead] at hbound
  rw [List.length_take, List.length_drop]
  omega

theorem number_take_succ (hdigits : ∀ c ∈ s, isdigit c = true) (hi : idx ≤ i)
    (hlt : i < s.length) : (number ((s.drop idx).take (i - idx + 1)) : ℤ) =
      number ((s.drop idx).take (i - idx)) * 10 + digit (s.getD i 0) := by
  have hpos : i - idx < (s.drop idx).length := by
    rw [List.length_drop]
    omega
  have hget : (s.drop idx)[i - idx] = s.getD i 0 := by
    rw [List.getElem_drop, List.getD_eq_getElem s 0 hlt]
    simp only [Nat.add_sub_cancel' hi]
  have hmem : s.getD i 0 ∈ s := by
    rw [List.getD_eq_getElem s 0 hlt]
    exact List.getElem_mem hlt
  rw [List.take_succ_eq_append_getElem hpos, hget, Atoi.number_concat (hdigits _ hmem)]

/-! ## The recursion -/

/-- What a call at a later position adds. -/
def CallsAdd (s : List UInt8) (idx : ℕ) : Prop :=
  ∀ j hj vs res, idx < j → vs.length ≤ 4 → j ≤ 3 * vs.length →
    Adds join (Splits s j vs.length 0) vs res (R s j hj vs res)

/-- **The loop** adds the parts whose first has the digit `s[i]` and maybe more. -/
theorem loop_spec (vs res : List (List UInt8)) (hdigits : ∀ c ∈ s, isdigit c = true)
    (hlt : idx < s.length) (hi : idx ≤ i) (hvs : vs.length < 4) (hidx : idx ≤ 3 * vs.length)
    (hval : val = number ((s.drop idx).take (i - idx))) (hcalls : CallsAdd s idx) :
    Adds join (Splits s idx vs.length (i - idx)) vs res (loop s idx hlt i hi val vs res) := by
  induction hn : s.length - i using Nat.strong_induction_on generalizing i val res with
  | _ n ih =>
    rw [loop]
    split_ifs with hnext
    · have hilt := bound_lt hlt hnext
      have hvalue := number_take_succ hdigits hi hilt
      rw [← hval] at hvalue
      dsimp only
      split_ifs with hlarge
      · exact adds_nothing fun ws => not_splits_of_number hlt (by omega)
      · have hx := octet_of_le_bound hlt hi hnext (by omega)
        have hlength : ((s.drop idx).take (i - idx + 1)).length = i - idx + 1 :=
          length_take_succ (by omega)
        have hshort := octet_length_le hx fun c hc =>
          hdigits c (List.mem_of_mem_drop (List.mem_of_mem_take hc))
        have hcall := hcalls (i + 1) hilt (vs ++ [(s.drop idx).take (i - idx + 1)]) res (by omega)
          (by rw [List.length_append, List.length_singleton]; omega)
          (by rw [List.length_append, List.length_singleton]; omega)
        rw [hcall.fst_eq, List.dropLast_concat]
        have hrest : ∀ rs, Adds join (Splits s idx vs.length (i + 1 - idx)) vs rs
            (loop s idx hlt (i + 1) (Nat.le_succ_of_le hi) (val * 10 + digit (s.getD i 0)) vs rs) :=
          fun rs => ih (s.length - (i + 1)) (by omega) rs (i := i + 1) (Nat.le_succ_of_le hi)
            (hvalue.symm.trans (by rw [Nat.succ_sub hi])) rfl
        refine (hcall.push.trans (hrest _) ?_).congr fun ws => ?_
        · rintro ws ⟨ws', -, rfl⟩ h
          have hmore := h.first _ rfl
          omega
        · rw [splits_iff (by omega) hx, Nat.add_sub_cancel' hi, Nat.succ_sub hi,
            List.length_append, List.length_singleton]
    · exact adds_nothing fun ws => not_splits_of_bound hdigits hlt hidx hi hnext

/-- **A call** adds the parts that go on from `idx` on. -/
theorem R_spec (vs res : List (List UInt8)) (hdigits : ∀ c ∈ s, isdigit c = true)
    (hidx : idx ≤ s.length) (hvs : vs.length ≤ 4) (hshort : idx ≤ 3 * vs.length) :
    Adds join (Splits s idx vs.length 0) vs res (R s idx hidx vs res) := by
  induction hm : s.length - idx using Nat.strong_induction_on generalizing idx vs res with
  | _ m ih =>
    rw [R]
    split_ifs with hend hfour hfour
    · refine adds_buffer fun ws => ?_
      rw [splits_end hend, and_iff_right hfour]
    · exact adds_nothing fun ws h => hfour ((splits_end hend).mp h).1
    · refine adds_nothing fun ws h => ?_
      obtain ⟨-, -, -, -, -, -, hk, -⟩ := h.cons (lt_of_le_of_ne hidx hend)
      omega
    · have hcalls : CallsAdd s idx := fun j hj vs' res' hlt hvs' hshort' =>
        ih (s.length - j) (by omega) vs' res' hj hvs' hshort' rfl
      have hzero : (0 : ℤ) = number ((s.drop idx).take (idx - idx)) := by
        rw [Nat.sub_self]
        rfl
      have hloop := loop_spec vs res hdigits (lt_of_le_of_ne hidx hend) le_rfl
        (lt_of_le_of_ne hvs hfour) hshort hzero hcalls
      rwa [Nat.sub_self] at hloop

/-! ## The addresses -/

theorem join_eq_intercalate (hws : ws.length = 4) : join ws = [dot].intercalate ws := by
  obtain ⟨a, b, c, d, rfl⟩ := List.length_eq_four.mp hws
  simp [join, List.intercalate]

theorem dot_notMem (hdigits : ∀ c ∈ s, isdigit c = true) (h : Splits s 0 0 0 ws)
    (hx : x ∈ ws) : dot ∉ x := by
  intro hdot
  cases hdigits dot (h.mem hx hdot)

/-- The dots tell the parts. -/
theorem splitOn_join (hdigits : ∀ c ∈ s, isdigit c = true) (h : Splits s 0 0 0 ws) :
    (join ws).splitOn dot = ws := by
  have hlen := h.length_eq
  rw [Nat.zero_add] at hlen
  rw [join_eq_intercalate hlen, List.splitOn_intercalate dot fun x hx => dot_notMem hdigits h hx]
  exact List.ne_nil_of_length_pos (by omega)

theorem splits_zero_iff : Splits s 0 0 0 ws ↔ ∃ a b c d, ws = [a, b, c, d] ∧
    s = a ++ b ++ c ++ d ∧ ∀ x ∈ [a, b, c, d], x ≠ [] ∧ Octet x := by
  constructor
  · rintro ⟨⟨hflatten, hne, hoctet⟩, hlen, -⟩
    rw [Nat.zero_add] at hlen
    obtain ⟨a, b, c, d, rfl⟩ := List.length_eq_four.mp hlen
    refine ⟨a, b, c, d, rfl, ?_, fun x hx => ⟨hne x hx, hoctet x hx⟩⟩
    rw [List.drop_zero] at hflatten
    simp [← hflatten]
  · rintro ⟨a, b, c, d, rfl, rfl, hparts⟩
    refine ⟨⟨by simp, fun x hx => (hparts x hx).1, fun x hx => (hparts x hx).2⟩, rfl, ?_⟩
    intro x hx
    exact List.length_pos_iff.mpr (hparts x (List.mem_of_mem_head? hx)).1

/-- **The addresses** are listed once each: all ways to put three dots between the digits that leave
four non-empty parts, each a number up to 255 with no zero in front. -/
theorem restoreIpAddresses_spec (s : List UInt8) (hdigits : ∀ c ∈ s, isdigit c = true) :
    (restoreIpAddresses s).Nodup ∧
      ∀ t, t ∈ restoreIpAddresses s ↔ ∃ a b c d, s = a ++ b ++ c ++ d ∧
        (∀ x ∈ [a, b, c, d], x ≠ [] ∧ Octet x) ∧
        t = a ++ [dot] ++ b ++ [dot] ++ c ++ [dot] ++ d := by
  have hcall := R_spec [] [] hdigits (Nat.zero_le _) (Nat.zero_le _) le_rfl
  have hres := hcall.enumerates fun w w' hw hw' heq => by
    rw [← splitOn_join hdigits hw, heq, splitOn_join hdigits hw']
  refine ⟨hres.nodup, fun t => (hres.mem_iff t).trans ?_⟩
  constructor
  · rintro ⟨w, hw, rfl⟩
    obtain ⟨a, b, c, d, rfl, hs, hparts⟩ := splits_zero_iff.mp hw
    exact ⟨a, b, c, d, hs, hparts, rfl⟩
  · rintro ⟨a, b, c, d, hs, hparts, rfl⟩
    exact ⟨[a, b, c, d], splits_zero_iff.mpr ⟨a, b, c, d, rfl, hs, hparts⟩, rfl⟩

/-- The string `1111`. -/
theorem restoreIpAddresses_ones :
    (restoreIpAddresses (List.replicate 4 0x31)).Nodup ∧
      ∀ t, t ∈ restoreIpAddresses (List.replicate 4 0x31) ↔
        ∃ a b c d, List.replicate 4 0x31 = a ++ b ++ c ++ d ∧
          (∀ x ∈ [a, b, c, d], x ≠ [] ∧ Octet x) ∧
          t = a ++ [dot] ++ b ++ [dot] ++ c ++ [dot] ++ d :=
  restoreIpAddresses_spec _ (List.forall_mem_replicate.mpr (.inr rfl))

end Sperm.Leetcode.RestoreIp
