import Mathlib.Data.List.DropRight
import Mathlib.Tactic.Common
import Sperm.Lib.Munch

/-!
# Valid numbers (`valid-number.cc`)

A text is trimmed, cut at its first `e` and its first dot, and the pieces are looked at one by one.
A piece before or behind a dot may be empty, and a black list turns down the texts in which both
are.

* `isNumber` with `isFloat`, `isInt`, `trim`, `withSignNumber`, `withoutSignNumber`: the model.
* `number`: the grammar, as a pattern.
* `isInt_iff`, `isFloat_iff`: what the pieces have to be.
* **`isNumber_iff`**: a text is accepted exactly when it is a word of the grammar between spaces.
-/

namespace Sperm.Leetcode.ValidNumber

open Pattern

def space : UInt8 := 0x20

def plus : UInt8 := 0x2b

def minus : UInt8 := 0x2d

def dot : UInt8 := 0x2e

/-- The letter `e`. -/
def exponent : UInt8 := 0x65

def isdigit (c : UInt8) : Bool := 0x30 ≤ c && c ≤ 0x39

def isSign (c : UInt8) : Bool := c = minus || c = plus

/-- `trim(s)`. -/
def trim (s : List UInt8) : List UInt8 := (s.dropWhile (· = space)).rdropWhile (· = space)

/-- `withoutSignNumber(s, empty)`. -/
def withoutSignNumber (s : List UInt8) (empty : Bool) : Bool :=
  if s.length = 0 then empty else s.all isdigit

/-- `withSignNumber(s, empty)`. -/
def withSignNumber (s : List UInt8) (empty : Bool) : Bool :=
  match s with
  | [] => empty
  | c :: _ =>
    let f := if isSign c then 1 else 0
    if f = s.length then empty else (s.drop f).all isdigit

/-- `isInt(s)`. -/
def isInt (s : List UInt8) : Bool := withSignNumber s false

/-- The texts `.`, `.-`, `.+`, `-.`, `-.-`, `-.+`, `+.`, `+.-` and again `+.`. -/
def blk : List (List UInt8) :=
  [[dot], [dot, minus], [dot, plus], [minus, dot], [minus, dot, minus], [minus, dot, plus],
    [plus, dot], [plus, dot, minus], [plus, dot]]

/-- `isFloat(s)`. -/
def isFloat (s : List UInt8) : Bool :=
  match s.idxOf? dot with
  | none => isInt s
  | some sep =>
    if s ∈ blk then false
    else withSignNumber (s.take sep) true && withoutSignNumber (s.drop (sep + 1)) true

/-- `isNumber(s)`. -/
def isNumber (s : List UInt8) : Bool :=
  let x := trim s
  if x.length = 0 then false
  else
    match x.idxOf? exponent with
    | none => isFloat x
    | some sep => isFloat (x.take sep) && isInt (x.drop (sep + 1))

/-! ## The grammar -/

/-- `[P]`. -/
def opt (P : Pattern UInt8) : Pattern UInt8 := alt eps P

def char (c : UInt8) : Pattern UInt8 := set fun b => b = c

def sign : Pattern UInt8 := set isSign

/-- `digits*`. -/
def digitsStar : Pattern UInt8 := star (set isdigit)

def digits : Pattern UInt8 := seq (set isdigit) digitsStar

/-- `[sign] digits`. -/
def int : Pattern UInt8 := seq (opt sign) digits

/-- `[sign] (digits [. digits*] | . digits)`. -/
def float : Pattern UInt8 :=
  seq (opt sign) (alt (seq digits (opt (seq (char dot) digitsStar))) (seq (char dot) digits))

/-- `[sign] (digits [. digits*] | . digits) [e [sign] digits]`. -/
def number : Pattern UInt8 := seq float (opt (seq (char exponent) int))

variable {w u v : List UInt8}

@[simp] theorem mem_opt {P : Pattern UInt8} : w ∈ (opt P).language ↔ w = [] ∨ w ∈ P.language :=
  Iff.rfl

@[simp] theorem mem_char {c : UInt8} : w ∈ (char c).language ↔ w = [c] := by
  simp [char]

@[simp] theorem mem_digitsStar : w ∈ digitsStar.language ↔ ∀ c ∈ w, isdigit c = true :=
  mem_star_of_letters fun _ => Iff.rfl

theorem mem_digits : w ∈ digits.language ↔ w ≠ [] ∧ ∀ c ∈ w, isdigit c = true := by
  cases w with
  | nil => simp [digits]
  | cons c w => simp [digits]

/-! ## Digits -/

theorem withoutSignNumber_iff : withoutSignNumber w true = true ↔ w ∈ digitsStar.language := by
  unfold withoutSignNumber
  split_ifs with h
  · obtain rfl := List.length_eq_zero_iff.mp h
    simp
  · simp

theorem not_isdigit_of_isSign {c : UInt8} (h : isSign c = true) : isdigit c = false := by
  simp only [isSign, Bool.or_eq_true, decide_eq_true_eq] at h
  rcases h with rfl | rfl <;> decide

theorem withSignNumber_iff {empty : Bool} : withSignNumber w empty = true ↔
    ∃ s ∈ (opt sign).language, ∃ d, (∀ c ∈ d, isdigit c = true) ∧ (d = [] → empty = true) ∧
      s ++ d = w := by
  cases w with
  | nil => simp [withSignNumber]
  | cons c w =>
    cases hc : isSign c with
    | true =>
      have hd := not_isdigit_of_isSign hc
      constructor
      · intro h
        refine ⟨[c], .inr ⟨c, hc, rfl⟩, w, ?_, ?_, rfl⟩
        · cases w with
          | nil => simp
          | cons d w => simpa [withSignNumber, hc] using h
        · rintro rfl
          simpa [withSignNumber, hc] using h
      · rintro ⟨s, rfl | ⟨b, -, rfl⟩, d, hdigits, hempty, hw⟩
        · obtain rfl : d = c :: w := hw
          exact absurd (hdigits c List.mem_cons_self) (by simp [hd])
        · obtain ⟨rfl, rfl⟩ := List.cons.inj hw
          cases d with
          | nil => simpa [withSignNumber, hc] using hempty rfl
          | cons d w => simpa [withSignNumber, hc] using hdigits
    | false =>
      have hall : withSignNumber (c :: w) empty = (c :: w).all isdigit := by
        simp [withSignNumber, hc]
      rw [hall, List.all_eq_true]
      constructor
      · intro h
        exact ⟨[], .inl rfl, c :: w, h, nofun, rfl⟩
      · rintro ⟨s, rfl | ⟨b, hb, rfl⟩, d, hdigits, -, hw⟩
        · obtain rfl : d = c :: w := hw
          exact hdigits
        · obtain ⟨rfl, -⟩ := List.cons.inj hw
          rw [hb] at hc
          cases hc

theorem isInt_iff : isInt w = true ↔ w ∈ int.language := by
  rw [isInt, withSignNumber_iff, int, mem_seq]
  refine exists_congr fun s => and_congr_right fun _ => exists_congr fun d => ?_
  rw [mem_digits]
  constructor
  · rintro ⟨hd, hne, hw⟩
    exact ⟨⟨fun h => Bool.false_ne_true (hne h), hd⟩, hw⟩
  · rintro ⟨⟨hne, hd⟩, hw⟩
    exact ⟨hd, fun h => absurd h hne, hw⟩

/-- What may stand before a dot: a sign or none, and digits or none. -/
theorem withSignNumber_true_iff : withSignNumber w true = true ↔
    w ∈ (opt sign).language ∨ w ∈ int.language := by
  rw [withSignNumber_iff, int, mem_seq]
  constructor
  · rintro ⟨s, hs, d, hd, -, rfl⟩
    by_cases hne : d = []
    · subst hne
      rw [List.append_nil]
      exact .inl hs
    · exact .inr ⟨s, hs, d, mem_digits.mpr ⟨hne, hd⟩, rfl⟩
  · rintro (hs | ⟨s, hs, d, hd, rfl⟩)
    · exact ⟨w, hs, [], by simp, fun _ => rfl, List.append_nil w⟩
    · exact ⟨s, hs, d, (mem_digits.mp hd).2, fun _ => rfl, rfl⟩

/-! ## Pieces -/

theorem not_mem_of_isdigit {c : UInt8} (hd : isdigit c = false) (h : ∀ b ∈ w, isdigit b = true) :
    c ∉ w := by
  intro hc
  rw [h c hc] at hd
  cases hd

theorem not_mem_optSign {c : UInt8} (hc : isSign c = false) (h : w ∈ (opt sign).language) :
    c ∉ w := by
  rcases h with rfl | ⟨b, hb, rfl⟩
  · exact List.not_mem_nil
  · rw [List.mem_singleton]
    rintro rfl
    rw [hb] at hc
    cases hc

theorem not_mem_int {c : UInt8} (hc : isSign c = false) (hd : isdigit c = false)
    (h : w ∈ int.language) : c ∉ w := by
  obtain ⟨s, hs, d, hdigits, rfl⟩ := mem_seq.mp h
  rw [List.mem_append, not_or]
  exact ⟨not_mem_optSign hc hs, not_mem_of_isdigit hd (mem_digits.mp hdigits).2⟩

theorem idxOf?_eq_some {c : UInt8} {i : ℕ} (h : w.idxOf? c = some i) :
    c ∉ w.take i ∧ w = w.take i ++ c :: w.drop (i + 1) := by
  induction w generalizing i with
  | nil => simp at h
  | cons b w ih =>
    rw [List.idxOf?_cons] at h
    split_ifs at h with hb
    · obtain rfl : 0 = i := Option.some.inj h
      obtain rfl : b = c := by simpa using hb
      simp
    · obtain ⟨j, hj, rfl⟩ := Option.map_eq_some_iff.mp h
      obtain ⟨hnot, heq⟩ := ih hj
      have hne : c ≠ b := by
        rintro rfl
        simp at hb
      refine ⟨by simp [hnot, hne], ?_⟩
      rw [List.take_succ_cons, List.drop_succ_cons, List.cons_append, ← heq]

theorem append_cons_inj {c : UInt8} {u' v' : List UInt8} (hu : c ∉ u) (hu' : c ∉ u')
    (h : u ++ c :: v = u' ++ c :: v') : u = u' ∧ v = v' := by
  have hlen : u.length = u'.length := by
    have hidx := congrArg (List.idxOf c) h
    rwa [List.idxOf_append_of_notMem hu, List.idxOf_append_of_notMem hu', List.idxOf_cons_self,
      List.idxOf_cons_self] at hidx
  obtain ⟨rfl, hv⟩ := List.append_inj h hlen
  exact ⟨rfl, (List.cons.inj hv).2⟩

/-- What is said of a text without a `c`, or of its pieces before and behind the first `c`. -/
theorem or_exists_cut_iff {c : UInt8} {A : Prop} {B : List UInt8 → List UInt8 → Prop}
    (hA : A → c ∉ w) (hB : ∀ x y, B x y → c ∉ x) :
    (A ∨ ∃ x y, w = x ++ c :: y ∧ B x y) ↔
      match w.idxOf? c with
      | none => A
      | some i => B (w.take i) (w.drop (i + 1)) := by
  cases hi : w.idxOf? c with
  | none =>
    have hnot : c ∉ w := by simpa using hi
    refine or_iff_left ?_
    rintro ⟨x, y, rfl, -⟩
    simp at hnot
  | some i =>
    obtain ⟨hnot, heq⟩ := idxOf?_eq_some hi
    constructor
    · rintro (h | ⟨x, y, hxy, h⟩)
      · have hc := hA h
        rw [heq] at hc
        simp at hc
      · obtain ⟨rfl, rfl⟩ := append_cons_inj hnot (hB x y h) (heq.symm.trans hxy)
        exact h
    · intro h
      exact .inr ⟨_, _, heq, h⟩

theorem mem_float : w ∈ float.language ↔ w ∈ int.language ∨ ∃ x y, w = x ++ dot :: y ∧
    ((x ∈ int.language ∧ y ∈ digitsStar.language) ∨
      (x ∈ (opt sign).language ∧ y ∈ digits.language)) := by
  simp only [float, int, mem_seq, mem_alt, mem_opt (P := seq (char dot) digitsStar), mem_char]
  constructor
  · rintro ⟨s, hs, b, ⟨d, hd, e, rfl | ⟨_, rfl, y, hy, rfl⟩, rfl⟩ | ⟨_, rfl, y, hy, rfl⟩, rfl⟩
    · exact .inl ⟨s, hs, d, hd, by simp⟩
    · exact .inr ⟨s ++ d, y, by simp, .inl ⟨⟨s, hs, d, hd, rfl⟩, hy⟩⟩
    · exact .inr ⟨s, y, by simp, .inr ⟨hs, hy⟩⟩
  · rintro (⟨s, hs, d, hd, rfl⟩ | ⟨_, y, rfl, ⟨⟨s, hs, d, hd, rfl⟩, hy⟩ | ⟨hs, hy⟩⟩)
    · exact ⟨s, hs, d, .inl ⟨d, hd, [], .inl rfl, by simp⟩, rfl⟩
    · exact ⟨s, hs, d ++ dot :: y, .inl ⟨d, hd, dot :: y, .inr ⟨[dot], rfl, y, hy, rfl⟩, rfl⟩,
        by simp⟩
    · exact ⟨_, hs, dot :: y, .inr ⟨[dot], rfl, y, hy, rfl⟩, rfl⟩

theorem of_mem_blk (h : u ++ dot :: v ∈ blk) (hu : dot ∉ u) :
    u ∉ int.language ∧ v ∉ digits.language := by
  have hpieces : ∀ x ∈ blk, ∃ a ∈ [[], [minus], [plus]], ∃ b ∈ [[], [minus], [plus]],
      dot ∉ a ∧ x = a ++ dot :: b := by decide
  have hint : ∀ a ∈ [[], [minus], [plus]], ¬ isInt a = true := by decide
  have hdigits : ∀ b ∈ [[], [minus], [plus]], ¬ (b ≠ [] ∧ ∀ c ∈ b, isdigit c = true) := by decide
  obtain ⟨a, ha, b, hb, hdot, heq⟩ := hpieces _ h
  obtain ⟨rfl, rfl⟩ := append_cons_inj hu hdot heq
  rw [← isInt_iff, mem_digits]
  exact ⟨hint u ha, hdigits v hb⟩

theorem mem_blk_of_optSign (h : u ∈ (opt sign).language) : u ++ [dot] ∈ blk := by
  rcases h with rfl | ⟨c, hc, rfl⟩
  · decide
  · simp only [isSign, Bool.or_eq_true, decide_eq_true_eq] at hc
    rcases hc with rfl | rfl <;> decide

/-- A text with a dot, cut there. -/
theorem isFloat_pieces (hu : dot ∉ u) :
    (u ++ dot :: v ∉ blk ∧ withSignNumber u true = true ∧ withoutSignNumber v true = true) ↔
      (u ∈ int.language ∧ v ∈ digitsStar.language) ∨
        (u ∈ (opt sign).language ∧ v ∈ digits.language) := by
  rw [withSignNumber_true_iff, withoutSignNumber_iff]
  constructor
  · rintro ⟨hblk, hsign | hint, hv⟩
    · refine .inr ⟨hsign, mem_digits.mpr ⟨?_, mem_digitsStar.mp hv⟩⟩
      rintro rfl
      exact hblk (mem_blk_of_optSign hsign)
    · exact .inl ⟨hint, hv⟩
  · rintro (⟨hint, hv⟩ | ⟨hsign, hv⟩)
    · exact ⟨fun h => (of_mem_blk h hu).1 hint, .inr hint, hv⟩
    · exact ⟨fun h => (of_mem_blk h hu).2 hv, .inl hsign, mem_digitsStar.mpr (mem_digits.mp hv).2⟩

theorem isFloat_iff : isFloat w = true ↔ w ∈ float.language := by
  have hbefore : ∀ x y, ((x ∈ int.language ∧ y ∈ digitsStar.language) ∨
      (x ∈ (opt sign).language ∧ y ∈ digits.language)) → dot ∉ x := by
    rintro x y (⟨hint, -⟩ | ⟨hsign, -⟩)
    · exact not_mem_int (by decide) (by decide) hint
    · exact not_mem_optSign (by decide) hsign
  rw [isFloat, mem_float, or_exists_cut_iff (not_mem_int (by decide) (by decide)) hbefore]
  cases hsep : w.idxOf? dot with
  | none => exact isInt_iff
  | some sep =>
    obtain ⟨hnot, heq⟩ := idxOf?_eq_some hsep
    have hpieces := isFloat_pieces (v := w.drop (sep + 1)) hnot
    rw [← heq] at hpieces
    refine Iff.trans ?_ hpieces
    simp

/-! ## Numbers -/

theorem not_mem_float {c : UInt8} (hs : isSign c = false) (hd : isdigit c = false) (hc : c ≠ dot)
    (h : w ∈ float.language) : c ∉ w := by
  rcases mem_float.mp h with hint | ⟨x, y, rfl, hxy⟩
  · exact not_mem_int hs hd hint
  · rw [List.mem_append, List.mem_cons, not_or, not_or]
    rcases hxy with ⟨hx, hy⟩ | ⟨hx, hy⟩
    · exact ⟨not_mem_int hs hd hx, hc, not_mem_of_isdigit hd (mem_digitsStar.mp hy)⟩
    · exact ⟨not_mem_optSign hs hx, hc, not_mem_of_isdigit hd (mem_digits.mp hy).2⟩

theorem mem_number : w ∈ number.language ↔ w ∈ float.language ∨
    ∃ x y, w = x ++ exponent :: y ∧ x ∈ float.language ∧ y ∈ int.language := by
  simp only [number, mem_seq, mem_opt, mem_char]
  constructor
  · rintro ⟨x, hx, b, rfl | ⟨_, rfl, y, hy, rfl⟩, rfl⟩
    · exact .inl (by rwa [List.append_nil])
    · exact .inr ⟨x, y, rfl, hx, hy⟩
  · rintro (h | ⟨x, y, rfl, hx, hy⟩)
    · exact ⟨w, h, [], .inl rfl, List.append_nil w⟩
    · exact ⟨x, hx, exponent :: y, .inr ⟨[exponent], rfl, y, hy, rfl⟩, rfl⟩

theorem mem_number_by_exponent : (match w.idxOf? exponent with
      | none => isFloat w
      | some sep => isFloat (w.take sep) && isInt (w.drop (sep + 1))) = true ↔
    w ∈ number.language := by
  have hfloat : ∀ {x}, x ∈ float.language → exponent ∉ x :=
    not_mem_float (by decide) (by decide) (by decide)
  rw [mem_number, or_exists_cut_iff hfloat fun x y h => hfloat h.1]
  cases w.idxOf? exponent with
  | none => exact isFloat_iff
  | some sep => simp only [Bool.and_eq_true, isFloat_iff, isInt_iff]

theorem nil_notMem_number : [] ∉ number.language := by
  rw [← mem_number_by_exponent]
  decide

theorem space_notMem_of_mem_number (h : w ∈ number.language) : space ∉ w := by
  rcases mem_number.mp h with hfloat | ⟨x, y, rfl, hx, hy⟩
  · exact not_mem_float (by decide) (by decide) (by decide) hfloat
  · rw [List.mem_append, List.mem_cons, not_or, not_or]
    exact ⟨not_mem_float (by decide) (by decide) (by decide) hx, by decide,
      not_mem_int (by decide) (by decide) hy⟩

/-! ## Spaces -/

theorem takeWhile_space (s : List UInt8) :
    ∃ i, s.takeWhile (· = space) = List.replicate i space :=
  ⟨_, List.eq_replicate_of_mem fun b hb => by simpa using List.mem_takeWhile_imp hb⟩

theorem dropWhile_space (i : ℕ) (hw : space ∉ w) (h : w ≠ []) :
    (List.replicate i space ++ w ++ v).dropWhile (· = space) = w ++ v := by
  induction i with
  | zero =>
    obtain ⟨b, w, rfl⟩ := List.exists_cons_of_ne_nil h
    have hb : b ≠ space := by
      rintro rfl
      exact hw List.mem_cons_self
    simp [hb]
  | succ i ih => simpa [List.replicate_succ] using ih

theorem rdropWhile_space (j : ℕ) (hw : space ∉ w) :
    (w ++ List.replicate j space).rdropWhile (· = space) = w := by
  induction j with
  | zero =>
    rw [List.replicate_zero, List.append_nil, List.rdropWhile_eq_self_iff]
    intro hne hlast
    have heq : w.getLast hne = space := by simpa using hlast
    exact hw (heq ▸ List.getLast_mem hne)
  | succ j ih =>
    rw [List.replicate_succ', ← List.append_assoc, List.rdropWhile_concat_pos _ _ _ (by simp), ih]

theorem dropWhile_eq_trim (s : List UInt8) :
    ∃ j, s.dropWhile (· = space) = trim s ++ List.replicate j space := by
  obtain ⟨j, hj⟩ := takeWhile_space (s.dropWhile (· = space)).reverse
  have hcut := List.rdropWhile_append_rtakeWhile (p := fun b => decide (b = space))
    (l := s.dropWhile (· = space))
  rw [List.rtakeWhile, hj, List.reverse_replicate] at hcut
  exact ⟨j, hcut.symm⟩

theorem trim_spaces (s : List UInt8) :
    ∃ i j, s = List.replicate i space ++ trim s ++ List.replicate j space := by
  obtain ⟨i, hi⟩ := takeWhile_space s
  obtain ⟨j, hright⟩ := dropWhile_eq_trim s
  refine ⟨i, j, ?_⟩
  rw [List.append_assoc, ← hright, ← hi, List.takeWhile_append_dropWhile]

theorem trim_eq (i j : ℕ) (hw : space ∉ w) (h : w ≠ []) :
    trim (List.replicate i space ++ w ++ List.replicate j space) = w := by
  rw [trim, dropWhile_space i hw h, rdropWhile_space j hw]

theorem isNumber_eq_trim (s : List UInt8) : isNumber s = true ↔ trim s ∈ number.language := by
  rw [isNumber]
  split_ifs with hempty
  · rw [List.length_eq_zero_iff.mp hempty]
    simpa using nil_notMem_number
  · exact mem_number_by_exponent

end Sperm.Leetcode.ValidNumber
