import Mathlib.Data.List.TakeWhile
import Mathlib.Tactic.Common
import Sperm.Lib.Munch

/-!
# Wildcard matching (`wildcard-matching.cc`)

A pattern is cut at its first run of literals. Every occurrence of the run in the text is tried, the
wildcards before it and the rest of the pattern have to match what stands before and behind the
occurrence. A piece that has only wildcards is decided by the number of its `?`.

* `isMatch` with `simplify`, `findx`, `baseMatch`: the model.
* `glob`: what a pattern stands for, and `glob plus`, the same with one or more characters for `?`.
* **`isMatch_eq_loose`**: the code decides `glob plus`, not `glob any`.
* `StarredRuns`: there is a `*` among any wildcards that stand together.
* **`isMatch_correct_iff`**: the patterns, and the texts, on which the code is right.

Indices are not cut to `int`.
-/

namespace Sperm.Leetcode.WildcardMatching

open Pattern

def question : UInt8 := 0x3f

def asterisk : UInt8 := 0x2a

def isWild (c : UInt8) : Bool := c = question || c = asterisk

/-- The loop of `simplify` with its `last`. -/
def simplifyLoop (last : UInt8) : List UInt8 → List UInt8
  | [] => []
  | c :: p => if last = asterisk ∧ c = asterisk then simplifyLoop last p else c :: simplifyLoop c p

/-- `simplify(p)`. -/
def simplify (p : List UInt8) : List UInt8 := simplifyLoop 0 p

/-- `baseMatch(s, p)`. -/
def baseMatch (s p : List UInt8) : Bool := p.count question ≤ s.length

/-- `findx(s, &len)`, the position and the length of the first run of literals. -/
def findx (s : List UInt8) : Option (ℕ × ℕ) :=
  let p := (s.takeWhile isWild).length
  if p = s.length then none
  else some (p, ((s.drop p).takeWhile fun c => !isWild c).length)

/-- `s.find(xs, pos)`. -/
def find (s xs : List UInt8) (pos : ℕ) : Option ℕ :=
  (List.range' pos (s.length + 1 - pos)).find? fun i => xs.isPrefixOf (s.drop i)

variable {s u v w xs p r : List UInt8} {i pos : ℕ}

theorem find_eq_some : find s xs pos = some i ↔
    xs <+: s.drop i ∧ (pos ≤ i ∧ i ≤ s.length) ∧ ∀ j, pos ≤ j → j < i → ¬ xs <+: s.drop j := by
  rw [find, List.find?_range'_eq_some]
  simp only [List.isPrefixOf_iff_prefix, List.mem_range'_1, Bool.not_eq_true',
    ← Bool.not_eq_true]
  constructor
  · rintro ⟨h, hi, hj⟩
    exact ⟨h, by omega, hj⟩
  · rintro ⟨h, hi, hj⟩
    exact ⟨h, by omega, hj⟩

/-- The loop over the occurrences of `xs`; `ok` stands for the matches of the two sides. -/
def tryFrom (s xs : List UInt8) (ok : ℕ → Bool) (pos : ℕ) : Bool :=
  match h : find s xs pos with
  | none => false
  | some i => if ok i then true else tryFrom s xs ok (pos + 1)
termination_by s.length + 1 - pos
decreasing_by
  have := (find_eq_some.mp h).2.1
  omega

theorem findx_eq_none (h : findx p = none) : ∀ c ∈ p, isWild c = true := by
  by_contra hne
  have hlen : (p.takeWhile isWild).length ≠ p.length := by
    intro hlen
    have heq := (List.takeWhile_prefix isWild).eq_of_length hlen
    exact hne (List.takeWhile_eq_self_iff.mp heq)
  simp [findx, hlen] at h

theorem findx_eq_some {x len : ℕ} (h : findx p = some (x, len)) :
    (∀ c ∈ p.take x, isWild c = true) ∧ (∀ c ∈ (p.drop x).take len, isWild c = false) ∧
      0 < len ∧ x + len ≤ p.length := by
  have htake : p.take (p.takeWhile isWild).length = p.takeWhile isWild :=
    (List.prefix_iff_eq_take.mp (List.takeWhile_prefix _)).symm
  have hdrop : p.drop (p.takeWhile isWild).length = p.dropWhile isWild := by
    have hcut := (List.take_append_drop (p.takeWhile isWild).length p).trans
      (List.takeWhile_append_dropWhile (p := isWild) (l := p)).symm
    rw [htake] at hcut
    exact List.append_cancel_left hcut
  rw [findx, hdrop] at h
  by_cases hall : (p.takeWhile isWild).length = p.length
  · simp [hall] at h
  obtain ⟨rfl, rfl⟩ : (p.takeWhile isWild).length = x ∧
      ((p.dropWhile isWild).takeWhile fun c => !isWild c).length = len := by
    simpa [hall] using h
  have hrun : (p.dropWhile isWild).take ((p.dropWhile isWild).takeWhile fun c => !isWild c).length =
      (p.dropWhile isWild).takeWhile fun c => !isWild c :=
    (List.prefix_iff_eq_take.mp (List.takeWhile_prefix _)).symm
  rw [htake, hdrop, hrun]
  refine ⟨fun c hc => List.mem_takeWhile_imp hc, fun c hc => ?_, ?_, ?_⟩
  · simpa using List.mem_takeWhile_imp hc
  · have hne : p.dropWhile isWild ≠ [] := by
      intro hnil
      rw [List.dropWhile_eq_nil_iff, ← List.takeWhile_eq_self_iff] at hnil
      exact hall (congrArg List.length hnil)
    have hhead := List.head_dropWhile_not isWild hne
    obtain ⟨c, q, hq⟩ := List.exists_cons_of_ne_nil hne
    simp only [hq, List.head_cons] at hhead
    simp [hq, hhead]
  · calc _ ≤ (p.takeWhile isWild).length + (p.dropWhile isWild).length :=
        Nat.add_le_add_left (List.takeWhile_prefix _).length_le _
      _ = p.length := by rw [← List.length_append, List.takeWhile_append_dropWhile]

/-- `isMatch(s, p)` on strings. -/
def isMatchString (s p : List UInt8) : Bool :=
  if p = [] then s = []
  else
    match _h : findx p with
    | none => baseMatch s p
    | some (x, len) =>
      let xs := (p.drop x).take len
      let pu := p.take x
      let pv := p.drop (x + len)
      tryFrom s xs
        (fun i => isMatchString (s.take i) pu && isMatchString (s.drop (i + len)) pv) 0
termination_by p.length
decreasing_by
  · obtain ⟨-, -, hlen, hle⟩ := findx_eq_some _h
    rw [List.length_take]
    omega
  · obtain ⟨-, -, hlen, hle⟩ := findx_eq_some _h
    rw [List.length_drop]
    omega

/-- `isMatch(s, p)`. -/
def isMatch (s p : List UInt8) : Bool := isMatchString s (simplify p)

/-! ## What a pattern stands for -/

/-- One character. -/
def any : Pattern UInt8 := set fun _ => true

/-- One character or more. -/
def plus : Pattern UInt8 := seq any (star any)

/-- What a character of a pattern is replaced with, if `?` is replaced with `Q`. -/
def replacement (Q : Pattern UInt8) (c : UInt8) : Pattern UInt8 :=
  if c = question then Q else if c = asterisk then star any else set fun b => b = c

def glob (Q : Pattern UInt8) : List UInt8 → Pattern UInt8
  | [] => eps
  | c :: p => seq (replacement Q c) (glob Q p)

variable {Q : Pattern UInt8} {c : UInt8}

@[simp] theorem mem_any : w ∈ any.language ↔ w.length = 1 := by
  simp [any, List.length_eq_one_iff]

theorem mem_star_any : w ∈ (star any).language :=
  (mem_star_of_letters (s := fun _ => True) (by simp [any])).mpr fun _ _ => trivial

@[simp] theorem mem_plus : w ∈ plus.language ↔ 1 ≤ w.length := by
  cases w with
  | nil => simp [plus]
  | cons c w =>
    refine iff_of_true (mem_seq.mpr ⟨[c], ?_, w, mem_star_any, rfl⟩) (by simp)
    simp

theorem mem_glob_append {q : List UInt8} :
    w ∈ (glob Q (p ++ q)).language ↔
      ∃ u ∈ (glob Q p).language, ∃ v ∈ (glob Q q).language, u ++ v = w := by
  induction p generalizing w with
  | nil => simp [glob]
  | cons c p ih =>
    simp only [List.cons_append, glob, mem_seq, ih]
    constructor
    · rintro ⟨x, hx, _, ⟨y, hy, z, hz, rfl⟩, rfl⟩
      exact ⟨x ++ y, ⟨x, hx, y, hy, rfl⟩, z, hz, List.append_assoc x y z⟩
    · rintro ⟨_, ⟨x, hx, y, hy, rfl⟩, z, hz, rfl⟩
      exact ⟨x, hx, y ++ z, ⟨y, hy, z, hz, rfl⟩, (List.append_assoc x y z).symm⟩

theorem replacement_question : replacement Q question = Q := if_pos rfl

theorem singleton_mem_question (b : UInt8) : [b] ∈ (replacement any question).language := by
  rw [replacement_question]
  simp

theorem replacement_asterisk : replacement Q asterisk = star any := rfl

theorem mem_replacement_literal (hc : isWild c = false) :
    w ∈ (replacement Q c).language ↔ w = [c] := by
  simp only [isWild, Bool.or_eq_false_iff, decide_eq_false_iff_not] at hc
  simp [replacement, hc.1, hc.2]

theorem mem_glob_literals (hxs : ∀ c ∈ xs, isWild c = false) :
    w ∈ (glob Q xs).language ↔ w = xs := by
  induction xs generalizing w with
  | nil => exact Iff.rfl
  | cons c xs ih =>
    obtain ⟨hc, hxs⟩ := List.forall_mem_cons.mp hxs
    simp only [glob, mem_seq, mem_replacement_literal hc, ih hxs]
    constructor
    · rintro ⟨_, rfl, _, rfl, rfl⟩
      rfl
    · rintro rfl
      exact ⟨[c], rfl, xs, rfl, rfl⟩

theorem isWild_cases (h : isWild c = true) : c = question ∨ c = asterisk := by
  simpa [isWild] using h

/-- Wildcards, with one character or more for `?`: only the number of the `?` counts. -/
theorem mem_glob_plus_wild (hr : ∀ c ∈ r, isWild c = true) (hne : r ≠ []) :
    w ∈ (glob plus r).language ↔ r.count question ≤ w.length := by
  induction r generalizing w with
  | nil => exact absurd rfl hne
  | cons c r ih =>
    obtain ⟨hc, hr⟩ := List.forall_mem_cons.mp hr
    have hrepl : ∀ u, u ∈ (replacement plus c).language ↔ [c].count question ≤ u.length := by
      intro u
      rcases isWild_cases hc with rfl | rfl
      · rw [replacement_question, mem_plus]
        rfl
      · rw [replacement_asterisk]
        exact iff_of_true mem_star_any (Nat.zero_le _)
    have hcount : (c :: r).count question = [c].count question + r.count question := by
      rw [← List.count_append, List.singleton_append]
    rw [glob, mem_seq, hcount]
    by_cases hnil : r = []
    · subst hnil
      simp [glob, hrepl]
    · constructor
      · rintro ⟨u, hu, v, hv, rfl⟩
        rw [List.length_append]
        exact Nat.add_le_add ((hrepl u).mp hu) ((ih hr hnil).mp hv)
      · intro h
        refine ⟨w.take ([c].count question), (hrepl _).mpr ?_, w.drop ([c].count question),
          (ih hr hnil).mpr ?_, List.take_append_drop _ w⟩
        · rw [List.length_take]
          omega
        · rw [List.length_drop]
          omega

/-! ## What the code decides -/

/-- The loop tries every occurrence from `pos` on, some of them several times. -/
theorem tryFrom_iff (ok : ℕ → Bool) :
    tryFrom s xs ok pos = true ↔ ∃ i, pos ≤ i ∧ i ≤ s.length ∧ xs <+: s.drop i ∧ ok i = true := by
  fun_induction tryFrom s xs ok pos with
  | case1 pos h =>
    simp only [Bool.false_eq_true, false_iff]
    rintro ⟨i, hpos, hi, hxs, -⟩
    rw [find, List.find?_eq_none] at h
    refine h i (List.mem_range'_1.mpr ?_) (List.isPrefixOf_iff_prefix.mpr hxs)
    omega
  | case2 pos i h hok =>
    obtain ⟨hxs, ⟨hpos, hi⟩, -⟩ := find_eq_some.mp h
    exact iff_of_true rfl ⟨i, hpos, hi, hxs, hok⟩
  | case3 pos i h hok ih =>
    rw [ih]
    constructor
    · rintro ⟨j, hj, hrest⟩
      exact ⟨j, by omega, hrest⟩
    · rintro ⟨j, hj, hle, hxs, hokj⟩
      refine ⟨j, Nat.lt_of_le_of_ne hj ?_, hle, hxs, hokj⟩
      -- an occurrence at `pos` is the one that was found
      rintro rfl
      obtain ⟨-, ⟨hpos, -⟩, hfirst⟩ := find_eq_some.mp h
      rcases hpos.eq_or_lt with rfl | hlt
      · exact hok hokj
      · exact hfirst pos le_rfl hlt hxs

theorem isMatchString_iff : isMatchString s p = true ↔ s ∈ (glob plus p).language := by
  fun_induction isMatchString s p with
  | case1 s => simp [glob]
  | case2 s p hne h =>
    rw [mem_glob_plus_wild (findx_eq_none h) hne]
    simp [baseMatch]
  | case3 s p hne x len h xs pu pv ihu ihv =>
    obtain ⟨-, hxs, -, hle⟩ := findx_eq_some h
    have hp : p = p.take x ++ ((p.drop x).take len ++ p.drop (x + len)) := by
      rw [← List.drop_drop, List.take_append_drop, List.take_append_drop]
    have hlen : xs.length = len := by
      rw [List.length_take, List.length_drop]
      omega
    change p = pu ++ (xs ++ pv) at hp
    change ∀ c ∈ xs, isWild c = false at hxs
    rw [tryFrom_iff, hp, mem_glob_append]
    simp only [mem_glob_append, mem_glob_literals hxs, Bool.and_eq_true, ihu, ihv]
    constructor
    · rintro ⟨i, -, hi, ⟨t, ht⟩, hu, hv⟩
      have hdrop : s.drop (i + len) = t := by
        rw [← List.drop_drop, ← ht, ← hlen, List.drop_left]
      refine ⟨s.take i, hu, xs ++ t, ⟨xs, rfl, t, hdrop ▸ hv, rfl⟩, ?_⟩
      rw [ht, List.take_append_drop]
    · rintro ⟨u, hu, _, ⟨_, rfl, v, hv, rfl⟩, rfl⟩
      refine ⟨u.length, Nat.zero_le _, by simp, by simp, by simpa using hu, ?_⟩
      have hdrop : (u ++ (xs ++ v)).drop (u.length + len) = v := by
        rw [← hlen, ← List.drop_drop, List.drop_left, List.drop_left]
      rwa [hdrop]

theorem mem_glob_asterisks :
    w ∈ (glob Q (asterisk :: asterisk :: p)).language ↔
      w ∈ (glob Q (asterisk :: p)).language := by
  simp only [glob, replacement_asterisk, mem_seq]
  constructor
  · rintro ⟨x, -, _, ⟨y, -, z, hz, rfl⟩, rfl⟩
    exact ⟨x ++ y, mem_star_any, z, hz, List.append_assoc x y z⟩
  · rintro ⟨x, hx, z, hz, rfl⟩
    exact ⟨x, hx, z, ⟨[], nil_mem_star, z, hz, rfl⟩, rfl⟩

theorem mem_glob_cons_congr {q : List UInt8}
    (h : ∀ w, w ∈ (glob Q p).language ↔ w ∈ (glob Q q).language) :
    w ∈ (glob Q (c :: p)).language ↔ w ∈ (glob Q (c :: q)).language := by
  simp only [glob, mem_seq, h]

theorem mem_glob_simplifyLoop (last : UInt8) :
    (∀ w, w ∈ (glob Q (last :: simplifyLoop last p)).language ↔
      w ∈ (glob Q (last :: p)).language) ∧
    (last ≠ asterisk → ∀ w, w ∈ (glob Q (simplifyLoop last p)).language ↔
      w ∈ (glob Q p).language) := by
  induction p generalizing last with
  | nil => exact ⟨fun _ => Iff.rfl, fun _ _ => Iff.rfl⟩
  | cons c p ih =>
    by_cases hskip : last = asterisk ∧ c = asterisk
    · obtain ⟨rfl, rfl⟩ := hskip
      refine ⟨fun w => ?_, fun h => absurd rfl h⟩
      rw [simplifyLoop, if_pos ⟨rfl, rfl⟩, (ih asterisk).1, mem_glob_asterisks]
    · rw [simplifyLoop, if_neg hskip]
      exact ⟨fun w => mem_glob_cons_congr (ih c).1, fun _ => (ih c).1⟩

/-- **The code replaces** every `?` with one character or more. -/
theorem isMatch_eq_loose : isMatch s p = true ↔ s ∈ (glob plus p).language := by
  rw [isMatch, isMatchString_iff, simplify]
  exact (mem_glob_simplifyLoop 0).2 (by decide) s

/-! ## Wildcards without a `*` -/

/-- Wildcards that stand together, with no other wildcard beside them, have a `*` among them. -/
def StarredRuns (p : List UInt8) : Prop :=
  ∀ a r b, p = a ++ (r ++ b) → r ≠ [] → (∀ c ∈ r, isWild c = true) →
    (∀ c ∈ a.getLast?, isWild c = false) → (∀ c ∈ b.head?, isWild c = false) → asterisk ∈ r

theorem mem_glob_plus_of_any (h : w ∈ (glob any p).language) : w ∈ (glob plus p).language := by
  induction p generalizing w with
  | nil => exact h
  | cons c p ih =>
    obtain ⟨u, hu, v, hv, rfl⟩ := mem_seq.mp h
    refine mem_seq.mpr ⟨u, ?_, v, ih hv, rfl⟩
    by_cases hc : c = question
    · subst hc
      rw [replacement_question, mem_any] at hu
      rw [replacement_question, mem_plus, hu]
    · rw [replacement, if_neg hc] at hu ⊢
      exact hu

theorem mem_glob_any_of_length_eq (hr : ∀ c ∈ r, isWild c = true)
    (hw : w.length = r.count question) : w ∈ (glob any r).language := by
  induction r generalizing w with
  | nil => exact List.length_eq_zero_iff.mp hw
  | cons c r ih =>
    obtain ⟨hc, htail⟩ := List.forall_mem_cons.mp hr
    rcases isWild_cases hc with rfl | rfl
    · rw [List.count_cons_self] at hw
      obtain ⟨b, w, rfl⟩ := List.exists_cons_of_length_eq_add_one hw
      exact mem_seq.mpr ⟨[b], singleton_mem_question b, w, ih htail (by simpa using hw), rfl⟩
    · rw [List.count_cons_of_ne (by decide)] at hw
      exact mem_seq.mpr ⟨[], nil_mem_star, w, ih htail hw, rfl⟩

theorem mem_glob_any_of_asterisk (hr : ∀ c ∈ r, isWild c = true) (hstar : asterisk ∈ r)
    (hw : r.count question ≤ w.length) : w ∈ (glob any r).language := by
  induction r generalizing w with
  | nil => simp at hstar
  | cons c r ih =>
    obtain ⟨hc, htail⟩ := List.forall_mem_cons.mp hr
    rcases isWild_cases hc with rfl | rfl
    · rw [List.count_cons_self] at hw
      cases w with
      | nil => simp at hw
      | cons b w =>
        have hmem : asterisk ∈ r := by simpa [question, asterisk] using hstar
        refine mem_seq.mpr ⟨[b], singleton_mem_question b, w, ih htail hmem ?_, rfl⟩
        simpa using hw
    · rw [List.count_cons_of_ne (by decide)] at hw
      refine mem_seq.mpr ⟨w.take (w.length - r.count question), mem_star_any,
        w.drop (w.length - r.count question), mem_glob_any_of_length_eq htail ?_,
        List.take_append_drop _ w⟩
      rw [List.length_drop]
      omega

theorem front_wild (p : List UInt8) :
    ∃ r b, p = r ++ b ∧ (∀ c ∈ r, isWild c = true) ∧ ∀ c ∈ b.head?, isWild c = false := by
  refine ⟨p.takeWhile isWild, p.dropWhile isWild, List.takeWhile_append_dropWhile.symm,
    fun c hc => List.mem_takeWhile_imp hc, fun c hc => ?_⟩
  have hnot := List.head?_dropWhile_not isWild p
  rw [Option.mem_def.mp hc] at hnot
  simpa using hnot

theorem StarredRuns.behind {a q : List UInt8} (h : StarredRuns (a ++ c :: q))
    (hc : isWild c = false) : StarredRuns q := by
  intro x r y hxy hne hr hx hy
  refine h (a ++ c :: x) r y (by simp [hxy]) hne hr ?_ hy
  intro d hd
  rw [List.getLast?_append, List.getLast?_cons] at hd
  cases hlast : x.getLast? with
  | none =>
    obtain rfl : c = d := by simpa [hlast] using hd
    exact hc
  | some e =>
    obtain rfl : e = d := by simpa [hlast] using hd
    exact hx e hlast

theorem StarredRuns.front {b : List UInt8} (h : StarredRuns (r ++ b))
    (hr : ∀ c ∈ r, isWild c = true) (hb : ∀ c ∈ b.head?, isWild c = false)
    (hw : w ∈ (glob plus r).language) : w ∈ (glob any r).language := by
  by_cases hne : r = []
  · subst hne
    exact hw
  · have hstar : asterisk ∈ r := h [] r b rfl hne hr (by simp) hb
    exact mem_glob_any_of_asterisk hr hstar ((mem_glob_plus_wild hr hne).mp hw)

/-- With a `*` beside every `?`, more characters for `?` make no difference. -/
theorem StarredRuns.mem_any (h : StarredRuns p) (hw : w ∈ (glob plus p).language) :
    w ∈ (glob any p).language := by
  induction hn : p.length using Nat.strong_induction_on generalizing p w with
  | _ n ih =>
    obtain ⟨r, b, rfl, hr, hb⟩ := front_wild p
    obtain ⟨u, hu, v, hv, rfl⟩ := mem_glob_append.mp hw
    refine mem_glob_append.mpr ⟨u, h.front hr hb hu, v, ?_, rfl⟩
    cases b with
    | nil => exact hv
    | cons c q =>
      have hc : isWild c = false := hb c rfl
      obtain ⟨x, hx, y, hy, rfl⟩ := mem_seq.mp hv
      rw [mem_replacement_literal hc] at hx
      refine mem_seq.mpr ⟨x, (mem_replacement_literal hc).mpr hx, y, ?_, rfl⟩
      refine ih q.length ?_ (h.behind hc) hy rfl
      rw [← hn, List.length_append, List.length_cons]
      omega

/-! ## A text with one character too many -/

/-- The shortest text of a pattern, with `?` for itself. -/
def shortest (p : List UInt8) : List UInt8 := p.filter (· ≠ asterisk)

theorem shortest_mem_glob (p : List UInt8) : shortest p ∈ (glob any p).language := by
  induction p with
  | nil => rfl
  | cons c p ih =>
    by_cases hstar : c = asterisk
    · subst hstar
      exact mem_seq.mpr ⟨[], nil_mem_star, shortest p, ih, rfl⟩
    · refine mem_seq.mpr ⟨[c], ?_, shortest p, ih, by simp [shortest, hstar]⟩
      by_cases hq : c = question
      · subst hq
        exact singleton_mem_question question
      · rw [mem_replacement_literal (by simp [isWild, hq, hstar])]

/-- The characters other than `?`. -/
def literals (w : List UInt8) : ℕ := w.countP (· ≠ question)

theorem literals_append (u v : List UInt8) : literals (u ++ v) = literals u + literals v :=
  List.countP_append

theorem literals_shortest_le (h : w ∈ (glob any p).language) :
    literals (shortest p) ≤ literals w := by
  induction p generalizing w with
  | nil => exact Nat.zero_le _
  | cons c p ih =>
    obtain ⟨u, hu, v, hv, rfl⟩ := mem_seq.mp h
    have hrest := ih hv
    rw [literals_append]
    by_cases hwild : isWild c = true
    · have hskip : literals (shortest (c :: p)) = literals (shortest p) := by
        rcases isWild_cases hwild with rfl | rfl
        · simp [shortest, literals, question, asterisk]
        · simp [shortest]
      omega
    · rw [Bool.not_eq_true] at hwild
      rw [mem_replacement_literal hwild] at hu
      have hcut : shortest (c :: p) = [c] ++ shortest p := by
        simp only [isWild, Bool.or_eq_false_iff, decide_eq_false_iff_not] at hwild
        simp [shortest, hwild.2]
      rw [hcut, literals_append, hu]
      omega

theorem ne_question_of_literal (hc : isWild c = false) : c ≠ question := by
  rintro rfl
  exact absurd hc (by decide)

theorem getLast?_ne_question (h : w ∈ (glob any p).language)
    (hp : ∀ c ∈ p.getLast?, isWild c = false) : ∀ c ∈ w.getLast?, c ≠ question := by
  cases p using List.reverseRecOn with
  | nil =>
    obtain rfl : w = [] := h
    simp
  | append_singleton p c _ =>
    have hc : isWild c = false := hp c (by simp)
    obtain ⟨u, -, v, hv, rfl⟩ := mem_glob_append.mp h
    rw [mem_glob_literals (by simpa using hc)] at hv
    subst hv
    simpa using ne_question_of_literal hc

theorem head?_ne_question (h : w ∈ (glob any p).language)
    (hp : ∀ c ∈ p.head?, isWild c = false) : ∀ c ∈ w.head?, c ≠ question := by
  cases p with
  | nil =>
    obtain rfl : w = [] := h
    simp
  | cons c p =>
    have hc : isWild c = false := hp c rfl
    obtain ⟨u, hu, v, -, rfl⟩ := mem_seq.mp h
    rw [mem_replacement_literal hc] at hu
    subst hu
    simpa using ne_question_of_literal hc

theorem length_of_mem_glob_questions (hr : ∀ c ∈ r, c = question)
    (h : w ∈ (glob any r).language) : w.length = r.length := by
  induction r generalizing w with
  | nil =>
    obtain rfl : w = [] := h
    rfl
  | cons c r ih =>
    obtain ⟨rfl, htail⟩ := List.forall_mem_cons.mp hr
    obtain ⟨u, hu, v, hv, rfl⟩ := mem_seq.mp h
    rw [replacement_question, mem_any] at hu
    rw [List.length_append, hu, ih htail hv, List.length_cons, Nat.add_comm]

theorem eq_nil_of_literals {d : List UInt8} (hlast : ∀ c ∈ (u ++ d).getLast?, c ≠ question)
    (hd : literals (u ++ d) = literals u) : d = [] := by
  cases d using List.reverseRecOn with
  | nil => rfl
  | append_singleton d c _ =>
    have hc : c ≠ question := hlast c (by simp)
    have hone : literals [c] = 1 := by simp [literals, hc]
    simp only [literals_append, hone] at hd
    omega

/-- Two front pieces of one text with as many literals, the last character being one. -/
theorem front_unique {u' v' : List UInt8} (h : u ++ v = u' ++ v')
    (hcount : literals u = literals u') (hu : ∀ c ∈ u.getLast?, c ≠ question)
    (hu' : ∀ c ∈ u'.getLast?, c ≠ question) : u = u' := by
  rcases List.append_eq_append_iff.mp h with ⟨d, rfl, -⟩ | ⟨d, rfl, -⟩
  · rw [eq_nil_of_literals hu' hcount.symm, List.append_nil]
  · rw [eq_nil_of_literals hu hcount, List.append_nil]

/-- Some `?` without a `*` beside them take one character too many. -/
theorem exists_mem_plus_not_any {a b : List UInt8} (hne : r ≠ []) (hr : ∀ c ∈ r, isWild c = true)
    (ha : ∀ c ∈ a.getLast?, isWild c = false) (hb : ∀ c ∈ b.head?, isWild c = false)
    (hstar : asterisk ∉ r) :
    ∃ s, s ∈ (glob plus (a ++ (r ++ b))).language ∧ s ∉ (glob any (a ++ (r ++ b))).language := by
  have hquestion : ∀ c ∈ r, c = question := by
    intro c hc
    rcases isWild_cases (hr c hc) with rfl | rfl
    · rfl
    · exact absurd hc hstar
  have hzero : literals r = 0 := List.countP_eq_zero.mpr fun c hc => by simp [hquestion c hc]
  refine ⟨shortest a ++ (r ++ ([question] ++ shortest b)), ?_, ?_⟩
  · have hrun : r ++ [question] ∈ (glob plus r).language := by
      rw [mem_glob_plus_wild hr hne, List.length_append]
      exact Nat.le_add_right_of_le List.count_le_length
    refine mem_glob_append.mpr ⟨_, mem_glob_plus_of_any (shortest_mem_glob a), _, ?_, rfl⟩
    refine mem_glob_append.mpr ⟨_, hrun, _, mem_glob_plus_of_any (shortest_mem_glob b), ?_⟩
    rw [List.append_assoc]
  · intro h
    obtain ⟨x, hx, _, hrest, heq⟩ := mem_glob_append.mp h
    obtain ⟨m, hm, y, hy, rfl⟩ := mem_glob_append.mp hrest
    have hcount : literals x = literals (shortest a) := by
      have htotal := congrArg literals heq
      simp only [literals_append, hzero] at htotal
      have hlex := literals_shortest_le hx
      have hley := literals_shortest_le hy
      have hone : literals [question] = 0 := rfl
      omega
    obtain rfl := front_unique heq hcount (getLast?_ne_question hx ha)
      (getLast?_ne_question (shortest_mem_glob a) ha)
    obtain ⟨-, rfl⟩ := List.append_inj (List.append_cancel_left heq)
      (length_of_mem_glob_questions hquestion hm)
    exact head?_ne_question hy hb question rfl rfl

/-- **Where the code is right.** A pattern is matched rightly with every text exactly when there is
a `*` among any wildcards that stand together; a text is matched rightly with a pattern exactly when
more than one character for `?` makes no difference. -/
theorem isMatch_correct_iff (p : List UInt8) :
    ((∀ s, (isMatch s p = true ↔ s ∈ (glob any p).language)) ↔ StarredRuns p) ∧
      ∀ s, (isMatch s p = true ↔ s ∈ (glob any p).language) ↔
        (s ∈ (glob plus p).language → s ∈ (glob any p).language) := by
  constructor
  · constructor
    · intro h a r b hp hne hr ha hb
      by_contra hstar
      obtain ⟨s, hs, hnot⟩ := exists_mem_plus_not_any hne hr ha hb hstar
      rw [← hp, ← isMatch_eq_loose] at hs
      rw [← hp] at hnot
      exact hnot ((h s).mp hs)
    · intro h s
      rw [isMatch_eq_loose]
      exact ⟨h.mem_any, mem_glob_plus_of_any⟩
  · intro s
    rw [isMatch_eq_loose]
    exact ⟨Iff.mp, fun h => ⟨h, mem_glob_plus_of_any⟩⟩

/-- The text `aa` and the pattern `?`. -/
theorem isMatch_two_letters :
    ¬ (isMatch [0x61, 0x61] [question] = true ↔
      [0x61, 0x61] ∈ (glob any [question]).language) := by
  have hwild : ∀ c ∈ [question], isWild c = true := List.forall_mem_singleton.mpr rfl
  have hquestion : ∀ c ∈ [question], c = question := List.forall_mem_singleton.mpr rfl
  rw [isMatch_eq_loose, mem_glob_plus_wild hwild (by decide)]
  intro h
  have hlen := length_of_mem_glob_questions hquestion (h.mp (by decide))
  exact absurd hlen (by decide)

end Sperm.Leetcode.WildcardMatching
