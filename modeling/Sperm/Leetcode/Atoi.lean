import Mathlib.Data.Nat.Digits.Defs
import Sperm.Lib.Checked
import Sperm.Leetcode.ValidNumber

/-!
# Integers in a text (`string-to-integer-atoi.cc`)

`atol` adds digit after digit to a `long long` and stops as soon as the value is at one of the
limits of `int` or beyond it.

* `atoi` with `atol`, `digitLoop`: the model; `trim` is that of `valid-number.cc`.
* `Longest`, `Denotes`: the integer that a text starts with.
* `clamp`: the nearest `int`; **`digitLoop_spec`**: stopping early does not change it.
* **`atoi_spec`**: the integer that the text starts with, behind its spaces, cut to the limits.

Lengths are not cut to `int`.
-/

namespace Sperm.Leetcode.Atoi

open ValidNumber (space plus minus isdigit isSign trim)

def INT_MAX : ℤ := 2 ^ 31 - 1

def INT_MIN : ℤ := -2 ^ 31

/-- `s[i] - '0'`. -/
def digit (c : UInt8) : ℤ := c.toNat - 48

def signed (neg : Bool) (x : ℤ) : ℤ := if neg then -x else x

/-- The loop over the digits from `s[i]` on, with its `res`. -/
def digitLoop (neg : Bool) : List UInt8 → ℤ → Option ℤ
  | [], res => some res
  | c :: cs, res =>
    if isdigit c then do
      let res ← Checked.signed 64 (res * 10)
      let res ← Checked.signed 64 (res + digit c)
      let t := signed neg res
      if t ≥ INT_MAX ∨ t ≤ INT_MIN then some res else digitLoop neg cs res
    else some res

/-- `atol(s)`. -/
def atol (s : List UInt8) : Option ℤ :=
  match s with
  | [] => some 0
  | c :: cs => do
    let neg := c = minus
    let f := if c = minus then 1 else if c = plus then 1 else 0
    let res ← digitLoop neg ((c :: cs).drop f) 0
    let res := signed neg res
    some (if res ≥ INT_MAX then INT_MAX else if res ≤ INT_MIN then INT_MIN else res)

/-- `atoi(str)`. -/
def atoi (str : List UInt8) : Option Int32 := (atol (trim str)).map Int32.ofInt

/-! ## What a text denotes -/

/-- The number that some digits denote. -/
def number (ds : List UInt8) : ℕ := Nat.ofDigits 10 (ds.reverse.map fun c => c.toNat - 48)

/-- The integer that a word `[sign] digits` denotes. -/
def integer : List UInt8 → ℤ
  | [] => 0
  | c :: ds => if c = minus then -number ds else if c = plus then number ds else number (c :: ds)

/-- The longest part of the form `[sign] digits` that `w` starts with. -/
def Longest (w p : List UInt8) : Prop :=
  (p <+: w ∧ p ∈ ValidNumber.int.language) ∧
    ∀ q, q <+: w → q ∈ ValidNumber.int.language → q.length ≤ p.length

/-- The integer that a text starts with is `v`, which is `0` if there is none. -/
def Denotes (w : List UInt8) (v : ℤ) : Prop :=
  (∃ p, Longest w p ∧ v = integer p) ∨
    (∀ p, p <+: w → p ∉ ValidNumber.int.language) ∧ v = 0

/-- The nearest value of the type `int`. -/
def clamp (v : ℤ) : ℤ := max INT_MIN (min INT_MAX v)

/-! ## The digits -/

variable {w p q ds cs pre : List UInt8} {c : UInt8} {r v : ℤ} {neg : Bool}

theorem digit_bounds (h : isdigit c = true) : 0 ≤ digit c ∧ digit c ≤ 9 := by
  simp only [isdigit, Bool.and_eq_true, decide_eq_true_eq, UInt8.le_iff_toNat_le] at h
  obtain ⟨h1, h2⟩ := h
  have h1' : 48 ≤ c.toNat := h1
  have h2' : c.toNat ≤ 57 := h2
  unfold digit
  omega

/-- `r` followed by the digits that come next. -/
def run (r : ℤ) (cs : List UInt8) : ℤ :=
  (cs.takeWhile isdigit).foldl (fun n c => n * 10 + digit c) r

theorem run_cons (h : isdigit c = true) : run r (c :: cs) = run (r * 10 + digit c) cs := by
  rw [run, List.takeWhile_cons_of_pos h, List.foldl_cons, run]

theorem run_cons_of_not (h : isdigit c = false) : run r (c :: cs) = r := by
  rw [run, List.takeWhile_cons_of_neg (by simp [h]), List.foldl_nil]

theorem le_run (hr : 0 ≤ r) (cs : List UInt8) : r ≤ run r cs := by
  induction cs generalizing r with
  | nil => exact le_rfl
  | cons c cs ih =>
    by_cases hc : isdigit c = true
    · have hbounds := digit_bounds hc
      have hle := ih (r := r * 10 + digit c) (by omega)
      rw [run_cons hc]
      omega
    · rw [run_cons_of_not (by simpa using hc)]

theorem run_append_spaces (cs : List UInt8) (j : ℕ) :
    run r (cs ++ List.replicate j space) = run r cs := by
  have hstop : (List.replicate j space).takeWhile isdigit = [] := by
    cases j with
    | zero => rfl
    | succ j => rfl
  rw [run, run, List.takeWhile_append]
  split_ifs with hall
  · rw [hstop, List.append_nil, List.takeWhile_eq_self_iff.mpr]
    intro c hc
    rw [← (List.takeWhile_prefix isdigit).eq_of_length hall] at hc
    exact List.mem_takeWhile_imp hc
  · rfl

theorem number_append (ds cs : List UInt8) :
    number (ds ++ cs) = number ds * 10 ^ cs.length + number cs := by
  rw [number, List.reverse_append, List.map_append, Nat.ofDigits_append, List.length_map,
    List.length_reverse, mul_comm, add_comm]
  rfl

theorem number_concat (hc : isdigit c = true) :
    (number (ds ++ [c]) : ℤ) = number ds * 10 + digit c := by
  have hbounds := digit_bounds hc
  have hone : number [c] = c.toNat - 48 := Nat.ofDigits_singleton
  unfold digit at *
  rw [number_append, hone, List.length_singleton, pow_one]
  omega

theorem run_zero (cs : List UInt8) : run 0 cs = number (cs.takeWhile isdigit) := by
  have hdigits : ∀ ds : List UInt8, (∀ c ∈ ds, isdigit c = true) →
      ds.foldl (fun n c => n * 10 + digit c) 0 = number ds := by
    intro ds
    induction ds using List.reverseRecOn with
    | nil => exact fun _ => rfl
    | append_singleton ds c ih =>
      intro hds
      rw [List.foldl_append, ih fun b hb => hds b (List.mem_append_left _ hb),
        number_concat (hds c (by simp))]
      rfl
  exact hdigits _ fun c hc => List.mem_takeWhile_imp hc

theorem clamp_of_le (h : INT_MAX ≤ v) : clamp v = INT_MAX := by
  unfold clamp INT_MAX INT_MIN at *
  omega

theorem clamp_of_ge (h : v ≤ INT_MIN) : clamp v = INT_MIN := by
  unfold clamp INT_MAX INT_MIN at *
  omega

/-- **Stopping early** makes no difference to the nearest `int`, and nothing overflows. -/
theorem digitLoop_spec (neg : Bool) (cs : List UInt8) (hr : 0 ≤ r) (hlt : r < 2 ^ 31) :
    ∃ r', digitLoop neg cs r = some r' ∧ clamp (signed neg r') = clamp (signed neg (run r cs)) := by
  induction cs generalizing r with
  | nil => exact ⟨r, rfl, rfl⟩
  | cons c cs ih =>
    by_cases hc : isdigit c = true
    · have hbounds := digit_bounds hc
      rw [digitLoop, if_pos hc, run_cons hc, Checked.signed_eq (by omega) (by omega),
        Option.bind_eq_bind, Option.bind_some, Checked.signed_eq (by omega) (by omega)]
      simp only [Option.bind_some]
      have hle := le_run (r := r * 10 + digit c) (by omega) cs
      split_ifs with hstop
      · refine ⟨_, rfl, ?_⟩
        rcases hstop with hstop | hstop
        · have hpos : neg = false := by
            cases neg with
            | false => rfl
            | true =>
              simp only [signed, if_true, INT_MAX] at hstop
              omega
          subst hpos
          rw [clamp_of_le hstop]
          exact (clamp_of_le (hstop.le.trans hle)).symm
        · have hneg : neg = true := by
            cases neg with
            | true => rfl
            | false =>
              simp only [signed, Bool.false_eq_true, if_false, INT_MIN] at hstop
              omega
          subst hneg
          rw [clamp_of_ge hstop]
          refine (clamp_of_ge (le_trans ?_ hstop)).symm
          simpa [signed] using hle
      · refine ih (by omega) ?_
        rw [not_or] at hstop
        unfold signed INT_MAX INT_MIN at hstop
        split_ifs at hstop
        · omega
        · omega
    · have hc' : isdigit c = false := by simpa using hc
      exact ⟨r, by rw [digitLoop, if_neg hc], by rw [run_cons_of_not hc']⟩

/-! ## The integer at the front -/

/-- The integer that a text starts with. -/
def leading : List UInt8 → ℤ
  | [] => 0
  | c :: cs => if c = minus then -run 0 cs else if c = plus then run 0 cs else run 0 (c :: cs)

theorem atol_eq (s : List UInt8) : atol s = some (clamp (leading s)) := by
  cases s with
  | nil => rfl
  | cons c cs =>
    have hclamp : ∀ x, (if x ≥ INT_MAX then INT_MAX else if x ≤ INT_MIN then INT_MIN else x) =
        clamp x := by
      intro x
      unfold clamp INT_MAX INT_MIN
      split_ifs <;> omega
    simp only [atol, hclamp]
    have hzero : (0 : ℤ) < 2 ^ 31 := by norm_num
    by_cases hminus : c = minus
    · obtain ⟨r, hr, heq⟩ := digitLoop_spec true cs le_rfl hzero
      simp only [leading, hminus, decide_true, if_true, List.drop_succ_cons, List.drop_zero, hr]
      exact congrArg some heq
    · by_cases hplus : c = plus
      · obtain ⟨r, hr, heq⟩ := digitLoop_spec false cs le_rfl hzero
        subst hplus
        simp only [leading, hminus, decide_false, if_false, if_true, List.drop_succ_cons,
          List.drop_zero, hr]
        exact congrArg some heq
      · obtain ⟨r, hr, heq⟩ := digitLoop_spec false (c :: cs) le_rfl hzero
        simp only [leading, hminus, hplus, decide_false, if_false, List.drop_zero, hr]
        exact congrArg some heq

theorem leading_append_spaces (w : List UInt8) (j : ℕ) :
    leading (w ++ List.replicate j space) = leading w := by
  cases w with
  | nil =>
    cases j with
    | zero => rfl
    | succ j => rfl
  | cons c cs =>
    rw [List.cons_append, leading, leading, run_append_spaces, ← List.cons_append,
      run_append_spaces]

theorem int_prefix_iff (hpre : pre ∈ (ValidNumber.opt ValidNumber.sign).language)
    (hcs : pre = [] → ∀ c ∈ cs.head?, isSign c = false) :
    (q <+: pre ++ cs ∧ q ∈ ValidNumber.int.language) ↔
      ∃ ds, q = pre ++ ds ∧ ds <+: cs.takeWhile isdigit ∧ ds ≠ [] := by
  have hdigits : ∀ ds, ds <+: cs → (∀ c ∈ ds, isdigit c = true) → ds <+: cs.takeWhile isdigit := by
    rintro ds ⟨t, rfl⟩ hds
    rw [List.takeWhile_append_of_pos hds]
    exact List.prefix_append _ _
  constructor
  · rintro ⟨hq, u, hu, ds, hds, rfl⟩
    obtain ⟨hne, hall⟩ := ValidNumber.mem_digits.mp hds
    rcases hpre with rfl | ⟨b, hb, rfl⟩
    · rcases hu with rfl | ⟨c, hc, rfl⟩
      · exact ⟨ds, rfl, hdigits ds hq hall, hne⟩
      · -- the text has no sign
        obtain ⟨t, ht⟩ := hq
        have hnot := hcs rfl c (by rw [← List.nil_append cs, ← ht]; rfl)
        rw [hc] at hnot
        cases hnot
    · rcases hu with rfl | ⟨c, -, rfl⟩
      · obtain ⟨d, ds, rfl⟩ := List.exists_cons_of_ne_nil hne
        obtain ⟨rfl, -⟩ := List.cons_prefix_cons.mp hq
        have hnot := ValidNumber.not_isdigit_of_isSign hb
        rw [hall d List.mem_cons_self] at hnot
        cases hnot
      · obtain ⟨rfl, htail⟩ := List.cons_prefix_cons.mp hq
        exact ⟨ds, rfl, hdigits ds htail hall, hne⟩
  · rintro ⟨ds, rfl, hds, hne⟩
    refine ⟨(List.prefix_append_right_inj pre).mpr (hds.trans (List.takeWhile_prefix _)), ?_⟩
    refine ⟨pre, hpre, ds, ValidNumber.mem_digits.mpr ⟨hne, fun c hc => ?_⟩, rfl⟩
    exact List.mem_takeWhile_imp (hds.subset hc)

theorem denotes_takeWhile (pre cs : List UInt8)
    (hpre : pre ∈ (ValidNumber.opt ValidNumber.sign).language)
    (hcs : pre = [] → ∀ c ∈ cs.head?, isSign c = false) :
    Denotes (pre ++ cs)
      (if cs.takeWhile isdigit = [] then 0 else integer (pre ++ cs.takeWhile isdigit)) := by
  split_ifs with hnil
  · refine .inr ⟨fun p hp hint => ?_, rfl⟩
    obtain ⟨ds, -, hds, hne⟩ := (int_prefix_iff hpre hcs).mp ⟨hp, hint⟩
    rw [hnil] at hds
    exact hne (List.prefix_nil.mp hds)
  · refine .inl ⟨_, ⟨(int_prefix_iff hpre hcs).mpr ⟨_, rfl, List.prefix_rfl, hnil⟩, ?_⟩, rfl⟩
    intro q hq hint
    obtain ⟨ds, rfl, hds, -⟩ := (int_prefix_iff hpre hcs).mp ⟨hq, hint⟩
    rw [List.length_append, List.length_append]
    exact Nat.add_le_add_left hds.length_le _

theorem denotes_leading (w : List UInt8) : Denotes w (leading w) := by
  have hempty : ∀ ds : List UInt8, ds = [] → number ds = 0 := by
    rintro ds rfl
    rfl
  cases w with
  | nil => exact denotes_takeWhile [] [] (.inl rfl) (by simp)
  | cons c cs =>
    by_cases hsign : c = minus ∨ c = plus
    · have hc : isSign c = true := by simpa [isSign] using hsign
      have hpre : [c] ∈ (ValidNumber.opt ValidNumber.sign).language := .inr ⟨c, hc, rfl⟩
      have hval : leading (c :: cs) = if cs.takeWhile isdigit = [] then 0
          else integer ([c] ++ cs.takeWhile isdigit) := by
        rw [leading, run_zero, List.singleton_append, integer]
        by_cases hnil : cs.takeWhile isdigit = []
        · rw [if_pos hnil, hempty _ hnil]
          split_ifs with hm hp
          · rfl
          · rfl
          · exact absurd hsign (not_or.mpr ⟨hm, hp⟩)
        · rw [if_neg hnil]
          split_ifs with hm hp
          · rfl
          · rfl
          · exact absurd hsign (not_or.mpr ⟨hm, hp⟩)
      rw [hval]
      exact denotes_takeWhile [c] cs hpre (by simp)
    · rw [not_or] at hsign
      have hc : isSign c = false := by simpa [isSign] using hsign
      have hval : leading (c :: cs) = if (c :: cs).takeWhile isdigit = [] then 0
          else integer ([] ++ (c :: cs).takeWhile isdigit) := by
        rw [leading, if_neg hsign.1, if_neg hsign.2, run_zero]
        split_ifs with hnil
        · rw [hempty _ hnil]
          rfl
        · by_cases hd : isdigit c = true
          · rw [List.takeWhile_cons_of_pos hd, List.nil_append, integer, if_neg hsign.1,
              if_neg hsign.2]
          · exact absurd (List.takeWhile_cons_of_neg hd) hnil
      rw [hval]
      exact denotes_takeWhile [] (c :: cs) (.inl rfl) (by simpa using hc)

theorem Denotes.unique {v' : ℤ} (h : Denotes w v) (h' : Denotes w v') : v = v' := by
  rcases h with ⟨p, ⟨⟨hp, hint⟩, hlong⟩, rfl⟩ | ⟨hnone, rfl⟩
  · rcases h' with ⟨q, ⟨⟨hq, hint'⟩, hlong'⟩, rfl⟩ | ⟨hnone, -⟩
    · have hlen : p.length = q.length := le_antisymm (hlong' p hp hint) (hlong q hq hint')
      rw [(List.prefix_of_prefix_length_le hp hq hlen.le).eq_of_length hlen]
    · exact absurd hint (hnone p hp)
  · rcases h' with ⟨q, ⟨⟨hq, hint'⟩, -⟩, -⟩ | ⟨-, rfl⟩
    · exact absurd hint' (hnone q hq)
    · rfl

end Sperm.Leetcode.Atoi
