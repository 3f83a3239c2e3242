import Mathlib.Data.List.GetD
import Mathlib.Data.List.Palindrome
import Mathlib.Order.Bounds.Basic
import Sperm.Lib.IntervalTable
import Sperm.Lib.Segmentation
import Sperm.Lib.Window

/-!
# Palindrome partitioning (`palindrom-partitioning.cc`, `palindrom-partitioning-2.cc`)

Both programs fill a table of the intervals that are palindromes, also for those that end before
they start. The first lists the ways to cut the string into palindromes, the second counts the cuts
of a shortest one. The table has `size * size` entries, a product of two `int`s: where it overflows,
or the length itself is no `int`, there is no result, and where it does not, every index fits as
well.

* `preCalculatePalindrome` and `fill`; `isPalindrome_iff`: what the filled table says.
* `partition`, by `partitionWithCache`, with every list of pieces built back to front.
* `minCut`, by `minCutWithCache`, with a second table.
* **`partition_minCut_iff`**: `partition` lists every way once, and `minCut` is the least number of
  cuts among them, exactly if the size of the table does not overflow.
-/

namespace Sperm.Leetcode.Palindrome

open IntervalTable (Table cell Sound)
open Window

variable (str : List UInt8)

/-! ## The table of palindromes -/

/-- `preCalculatePalindrome(str, s, e, cache)`: its result and the table after it. -/
def preCalculatePalindrome (s e : ℕ) (cache : Table) : Bool × Table :=
  if cache (cell str.length s e) ≠ -1 then (cache (cell str.length s e) == 1, cache)
  else
    let v :=
      if s < e then
        if str.getD s 0 ≠ str.getD e 0 then (false, cache)
        else preCalculatePalindrome (s + 1) (e - 1) cache
      else (true, cache)
    (v.1, Function.update v.2 (cell str.length s e) (if v.1 then 1 else 0))
termination_by e - s

/-- The two loops that fill the table. -/
def fill : Table :=
  (List.range str.length).foldl (fun cache i =>
    (List.range str.length).foldl (fun cache j => (preCalculatePalindrome str i j cache).2) cache)
    IntervalTable.empty

/-- `isPalindrome(str, s, e, pcache)`. -/
def isPalindrome (s e : ℕ) (pcache : Table) : Bool := pcache (cell str.length s e) != 0

/-! ## The partitions -/

mutual

/-- `partitionWithCache(s, offset, pcache)`. -/
def partitionWithCache (pcache : Table) (offset : ℕ) : List (List (List UInt8)) :=
  let vvs := if isPalindrome str offset (str.length - 1) pcache then [[str.drop offset]] else []
  partitionLoop pcache offset (offset + 1) (Nat.lt_succ_self offset) vvs
termination_by (str.length - offset, str.length + 1)

/-- Its loop from `i` on. -/
def partitionLoop (pcache : Table) (offset i : ℕ) (hi : offset < i)
    (vvs : List (List (List UInt8))) : List (List (List UInt8)) :=
  if i < str.length then
    let vvs :=
      if isPalindrome str offset (i - 1) pcache then
        let sub := (str.drop offset).take (i - offset)
        vvs ++ (partitionWithCache pcache i).map (· ++ [sub])
      else vvs
    partitionLoop pcache offset (i + 1) (Nat.lt_succ_of_lt hi) vvs
  else vvs
termination_by (str.length - offset, str.length - i)

end

/-- `partition(s)`. -/
def partition : Option (List (List (List UInt8))) :=
  if 2 ^ 31 ≤ str.length * str.length then none
  else some ((partitionWithCache str (fill str) 0).map List.reverse)

/-! ## The cuts -/

mutual

/-- `minCutWithCache(str, offset, cache, pcache)`, for a string that is not empty. -/
def minCutWithCache (pcache : Table) (offset : ℕ) (cache : Table) : ℤ × Table :=
  if offset ≥ str.length - 1 then (0, cache)
  else if cache offset ≠ -1 then (cache offset, cache)
  else if isPalindrome str offset (str.length - 1) pcache then (0, cache)
  else
    let r := minCutLoop pcache offset (offset + 1) (Nat.lt_succ_self offset) str.length cache
    (r.1, Function.update r.2 offset r.1)
termination_by (str.length - offset, str.length + 1)

/-- Its loop from `i` on. -/
def minCutLoop (pcache : Table) (offset i : ℕ) (hi : offset < i) (minValue : ℤ) (cache : Table) :
    ℤ × Table :=
  if i < str.length then
    if isPalindrome str offset (i - 1) pcache then
      let r := minCutWithCache pcache i cache
      let v := 1 + r.1
      minCutLoop pcache offset (i + 1) (Nat.lt_succ_of_lt hi) (if v < minValue then v else minValue)
        r.2
    else minCutLoop pcache offset (i + 1) (Nat.lt_succ_of_lt hi) minValue cache
  else (minValue, cache)
termination_by (str.length - offset, str.length - i)

end

/-- `minCut(s)`. -/
def minCut : Option ℤ :=
  if 2 ^ 31 ≤ str.length * str.length then none
  else some (minCutWithCache str (fill str) 0 IntervalTable.empty).1

/-! ## What the table says -/

/-- The interval from `s` to `e` is a palindrome; it is empty if it ends before it starts. -/
def Pal (s e : ℕ) : Prop := ((str.drop s).take (e + 1 - s)).Palindrome

/-- A call has answered for its interval, and it has forgotten no answer. -/
structure Answers (s e : ℕ) (cache : Table) (r : Bool × Table) : Prop where
  iff_pal : r.1 = true ↔ Pal str s e
  sound : Sound (Pal str) str.length r.2
  known : r.2 (cell str.length s e) ≠ -1
  keeps : ∀ k, cache k ≠ -1 → r.2 k ≠ -1

variable {str}

theorem palindrome_cons_concat_iff {a b : UInt8} {l : List UInt8} :
    (a :: (l ++ [b])).Palindrome ↔ a = b ∧ l.Palindrome := by
  constructor
  · intro h
    have hrev := h.reverse_eq
    rw [List.reverse_cons, List.reverse_append, List.reverse_singleton, List.singleton_append,
      List.cons_append, List.cons.injEq] at hrev
    exact ⟨hrev.1.symm, .of_reverse_eq (List.append_inj_left' hrev.2 rfl)⟩
  · rintro ⟨rfl, h⟩
    exact .cons_concat a h

/-- An interval is its first element, its inner interval and its last element. -/
theorem interval_eq {s e : ℕ} (hs : s < e) (he : e < str.length) :
    (str.drop s).take (e + 1 - s) =
      str.getD s 0 :: ((str.drop (s + 1)).take (e - 1 + 1 - (s + 1)) ++ [str.getD e 0]) := by
  have hpred : e - 1 + 1 = e := Nat.sub_add_cancel (by omega)
  have hfirst := window_cons (Nat.lt_succ_of_lt hs) (hs.trans he)
  rw [window_concat hs he] at hfirst
  rw [hpred, List.getD_eq_getElem _ _ he, List.getD_eq_getElem _ _ (hs.trans he)]
  exact hfirst

theorem pal_of_le {s e : ℕ} (h : e ≤ s) : Pal str s e := by
  have hlen : ((str.drop s).take (e + 1 - s)).length ≤ 1 := by
    rw [List.length_take]
    omega
  rw [Pal]
  match (str.drop s).take (e + 1 - s), hlen with
  | [], _ => exact .nil
  | [a], _ => exact .singleton a

theorem pal_iff {s e : ℕ} (hs : s < e) (he : e < str.length) :
    Pal str s e ↔ str.getD s 0 = str.getD e 0 ∧ Pal str (s + 1) (e - 1) := by
  rw [Pal, interval_eq hs he, palindrome_cons_concat_iff, Pal]

theorem answers_store {s e : ℕ} (he : e < str.length) {cache : Table} {r : Bool × Table}
    (hiff : r.1 = true ↔ Pal str s e) (hr : Sound (Pal str) str.length r.2)
    (hk : ∀ k, cache k ≠ -1 → r.2 k ≠ -1) :
    Answers str s e cache
      (r.1, Function.update r.2 (cell str.length s e) (if r.1 then 1 else 0)) := by
  have hne : (if r.1 then 1 else 0 : ℤ) ≠ -1 := by split_ifs <;> decide
  refine ⟨hiff, IntervalTable.sound_update hr he hiff, ?_, fun k hck => ?_⟩ <;> simp only
  · rw [Function.update_self]
    exact hne
  · by_cases h : k = cell str.length s e
    · rw [h, Function.update_self]
      exact hne
    · rw [Function.update_of_ne h]
      exact hk k hck

theorem preCalculatePalindrome_spec {s e : ℕ} (he : e < str.length) {cache : Table}
    (hc : Sound (Pal str) str.length cache) :
    Answers str s e cache (preCalculatePalindrome str s e cache) := by
  induction hn : e - s using Nat.strong_induction_on generalizing s e with
  | _ n ih =>
    rw [preCalculatePalindrome]
    split_ifs with hne hse hch
    · exact ⟨beq_iff_eq.trans (hc.eq_one_iff he hne), hc, hne, fun _ h => h⟩
    · refine answers_store he (iff_of_false nofun ?_) hc fun _ h => h
      rw [pal_iff hse he]
      exact fun h => hch h.1
    · have hin := ih (e - 1 - (s + 1)) (by omega) (by omega) rfl
      refine answers_store he ?_ hin.sound hin.keeps
      rw [hin.iff_pal, pal_iff hse he]
      exact (and_iff_right (not_not.mp hch)).symm
    · exact answers_store he (iff_of_true rfl (pal_of_le (not_lt.mp hse))) hc fun _ h => h

/-- No answer was forgotten. -/
def Keeps (c c' : Table) : Prop := ∀ k, c k ≠ -1 → c' k ≠ -1

/-- A loop of calls keeps the table sound and leaves behind what every call `K` leaves behind. -/
theorem foldl_spec {g : Table → ℕ → Table} {K : ℕ → Table → Prop} {l : List ℕ}
    (hK : ∀ {a c c'}, K a c → Keeps c c' → K a c')
    (hg : ∀ a ∈ l, ∀ c, Sound (Pal str) str.length c →
      Sound (Pal str) str.length (g c a) ∧ Keeps c (g c a) ∧ K a (g c a))
    {c : Table} (hc : Sound (Pal str) str.length c) :
    Sound (Pal str) str.length (l.foldl g c) ∧ Keeps c (l.foldl g c) ∧
      ∀ a ∈ l, K a (l.foldl g c) := by
  induction l generalizing c with
  | nil => exact ⟨hc, fun _ h => h, by simp⟩
  | cons a l ih =>
    obtain ⟨hsound, hkeeps, ha⟩ := hg a List.mem_cons_self c hc
    obtain ⟨hsound', hkeeps', hl⟩ := ih (fun b hb => hg b (List.mem_cons_of_mem _ hb)) hsound
    refine ⟨hsound', fun k hk => hkeeps' k (hkeeps k hk), ?_⟩
    exact List.forall_mem_cons.mpr ⟨hK ha hkeeps', hl⟩

theorem fill_spec : Sound (Pal str) str.length (fill str) ∧
    ∀ i < str.length, ∀ j < str.length, fill str (cell str.length i j) ≠ -1 := by
  have hrow : ∀ i ∈ List.range str.length, ∀ c, Sound (Pal str) str.length c →
      Sound (Pal str) str.length ((List.range str.length).foldl
        (fun cache j => (preCalculatePalindrome str i j cache).2) c) ∧
      Keeps c ((List.range str.length).foldl
        (fun cache j => (preCalculatePalindrome str i j cache).2) c) ∧
      ∀ j ∈ List.range str.length, (List.range str.length).foldl
        (fun cache j => (preCalculatePalindrome str i j cache).2) c (cell str.length i j) ≠ -1 := by
    intro i _ c hc
    refine foldl_spec (K := fun j c => c (cell str.length i j) ≠ -1) (fun h hk => hk _ h) ?_ hc
    intro j hj c hc
    have h := preCalculatePalindrome_spec (s := i) (List.mem_range.mp hj) hc
    exact ⟨h.sound, h.keeps, h.known⟩
  obtain ⟨hsound, -, hknown⟩ := foldl_spec
    (K := fun i c => ∀ j ∈ List.range str.length, c (cell str.length i j) ≠ -1)
    (fun h hk j hj => hk _ (h j hj)) hrow IntervalTable.sound_empty
  exact ⟨hsound, fun i hi j hj => hknown i (List.mem_range.mpr hi) j (List.mem_range.mpr hj)⟩

/-- **The filled table answers for every interval.** -/
theorem isPalindrome_iff {s e : ℕ} (hs : s < str.length) (he : e < str.length) :
    isPalindrome str s e (fill str) = true ↔ Pal str s e := by
  rw [isPalindrome, bne_iff_ne]
  exact fill_spec.1.ne_zero_iff he (fill_spec.2 s hs e he)

theorem isPalindrome_take {offset i : ℕ} (hi : offset < i) (hin : i < str.length) :
    isPalindrome str offset (i - 1) (fill str) = true ↔
      ((str.drop offset).take (i - offset)).Palindrome := by
  rw [isPalindrome_iff (by omega) (by omega), Pal, show i - 1 + 1 - offset = i - offset by omega]

theorem isPalindrome_drop {offset : ℕ} (ho : offset < str.length) :
    isPalindrome str offset (str.length - 1) (fill str) = true ↔
      (str.drop offset).Palindrome := by
  rw [isPalindrome_iff ho (by omega), Pal,
    List.take_of_length_le (by rw [List.length_drop]; omega)]

theorem drop_ne_nil {offset : ℕ} (ho : offset < str.length) : str.drop offset ≠ [] := by
  rw [Ne, List.drop_eq_nil_iff]
  omega

/-! ## What the partitions are -/

/-- The partitions of what is left, front to back. -/
def Lists (str : List UInt8) (offset : ℕ) (vvs : List (List (List UInt8))) : Prop :=
  (vvs.map List.reverse).Perm (segmentations List.Palindrome (str.drop offset))

theorem partitionLoop_spec {offset : ℕ}
    (ih : ∀ i, offset < i → i < str.length → Lists str i (partitionWithCache str (fill str) i))
    {i : ℕ} (hi : offset < i) (hin : i ≤ str.length) (vvs : List (List (List UInt8))) :
    ((partitionLoop str (fill str) offset i hi vvs).map List.reverse).Perm
      (vvs.map List.reverse ++ segmentationsFrom List.Palindrome (str.drop offset)
        (i - offset - 1) (str.length - offset - 1)) := by
  induction hn : str.length - i generalizing i vvs with
  | zero =>
    obtain rfl : i = str.length := by omega
    rw [partitionLoop, if_neg (by omega), segmentationsFrom_self, List.append_nil]
  | succ n ihn =>
    rw [partitionLoop, if_pos (by omega)]
    refine (ihn (i := i + 1) _ (by omega) _ (by omega)).trans ?_
    rw [segmentationsFrom_cons _ (show i - offset - 1 < str.length - offset - 1 by omega),
      show i - offset - 1 + 1 = i - offset by omega, show i + 1 - offset - 1 = i - offset by omega,
      List.drop_drop, show offset + (i - offset) = i by omega, ← List.append_assoc]
    refine List.Perm.append_right _ ?_
    rw [startingWith, show i - offset - 1 + 1 = i - offset by omega]
    have hpal := isPalindrome_take hi (show i < str.length by omega)
    split_ifs with h₁ h₂ h₂
    · rw [List.map_append, List.map_map]
      refine List.Perm.append_left _ ?_
      have hrev : List.reverse ∘ (· ++ [(str.drop offset).take (i - offset)]) =
          (fun ws => (str.drop offset).take (i - offset) :: ws) ∘ List.reverse := by
        funext ws
        simp
      rw [hrev, ← List.map_map]
      exact (ih i hi (by omega)).map _
    · exact absurd (hpal.mp h₁) h₂
    · exact absurd (hpal.mpr h₂) h₁
    · rw [List.append_nil]

theorem startingWith_all {w : List UInt8} (hw : w ≠ []) :
    startingWith List.Palindrome w (segmentations List.Palindrome (w.drop (w.length - 1 + 1)))
      (w.length - 1) = if w.Palindrome then [[w]] else [] := by
  have hpos := List.length_pos_iff.mpr hw
  rw [startingWith, show w.length - 1 + 1 = w.length by omega, List.take_length, List.drop_length,
    segmentations_nil, List.map_singleton]

theorem partitionWithCache_spec {offset : ℕ} (ho : offset < str.length) :
    Lists str offset (partitionWithCache str (fill str) offset) := by
  induction hn : str.length - offset using Nat.strong_induction_on generalizing offset with
  | _ n ih =>
    have hcalls : ∀ i, offset < i → i < str.length →
        Lists str i (partitionWithCache str (fill str) i) :=
      fun i hi hin => ih _ (by omega) hin rfl
    have hw := drop_ne_nil ho
    have hlen : (str.drop offset).length = str.length - offset - 1 + 1 := by
      rw [List.length_drop]
      omega
    rw [Lists, partitionWithCache, segmentations_of_ne hw, hlen,
      segmentationsFrom_concat _ (Nat.zero_le _),
      show str.length - offset - 1 = (str.drop offset).length - 1 by omega, startingWith_all hw]
    refine (partitionLoop_spec hcalls _ (by omega) _).trans ?_
    rw [show offset + 1 - offset - 1 = 0 by omega,
      show str.length - offset - 1 = (str.drop offset).length - 1 by omega]
    refine List.perm_append_comm.trans (List.Perm.append_left _ (List.Perm.of_eq ?_))
    have hpal := isPalindrome_drop ho
    split_ifs with h₁ h₂ h₂
    · rfl
    · exact absurd (hpal.mp h₁) h₂
    · exact absurd (hpal.mpr h₂) h₁
    · rfl

/-- **The partitions are all there, each once.** -/
theorem partition_perm (h : str ≠ []) (hint : str.length * str.length < 2 ^ 31) :
    ∃ vvs, partition str = some vvs ∧ vvs.Perm (segmentations List.Palindrome str) := by
  rw [partition, if_neg (not_le.mpr hint)]
  exact ⟨_, rfl, partitionWithCache_spec (List.length_pos_iff.mpr h)⟩

/-! ## What the cuts are -/

/-- The numbers of cuts of the partitions of `w`. -/
def Cuts (w : List UInt8) : Set ℤ :=
  {c | ∃ ws, IsSegmentation List.Palindrome w ws ∧ c = ws.length - 1}

/-- The numbers of cuts of what is left at `offset`, with the first of them at `i` or later. -/
def LaterCuts (str : List UInt8) (offset i : ℕ) : Set ℤ :=
  {c | ∃ j, i ≤ j ∧ j < str.length ∧ ((str.drop offset).take (j - offset)).Palindrome ∧
    c - 1 ∈ Cuts (str.drop j)}

theorem zero_mem_cuts {w : List UInt8} (hw : w ≠ []) (hp : w.Palindrome) : 0 ∈ Cuts w :=
  ⟨[w], isSegmentation_singleton hw hp, by simp⟩

theorem nonneg_of_mem_cuts {w : List UInt8} (hw : w ≠ []) {c : ℤ} (hc : c ∈ Cuts w) : 0 ≤ c := by
  obtain ⟨ws, hws, rfl⟩ := hc
  cases ws with
  | nil => exact absurd hws.flatten_eq.symm hw
  | cons x ws =>
    rw [List.length_cons]
    omega

theorem isLeast_cuts_of_palindrome {w : List UInt8} (hw : w ≠ []) (hp : w.Palindrome) :
    IsLeast (Cuts w) 0 :=
  ⟨zero_mem_cuts hw hp, fun _ hc => nonneg_of_mem_cuts hw hc⟩

theorem length_sub_one_mem_cuts (w : List UInt8) : (w.length : ℤ) - 1 ∈ Cuts w := by
  refine ⟨w.map fun c => [c], ⟨?_, ?_, ?_⟩, by rw [List.length_map]⟩
  · induction w with
    | nil => rfl
    | cons c w ih => rw [List.map_cons, List.flatten_cons, ih, List.singleton_append]
  · simp
  · intro x hx
    obtain ⟨c, -, rfl⟩ := List.mem_map.mp hx
    exact .singleton c

/-- What is no palindrome has a first cut. -/
theorem cuts_eq_laterCuts {offset : ℕ} (ho : offset < str.length)
    (hp : ¬ (str.drop offset).Palindrome) :
    Cuts (str.drop offset) = LaterCuts str offset (offset + 1) := by
  ext c
  constructor
  · rintro ⟨ws, hws, rfl⟩
    cases ws with
    | nil => exact absurd hws.flatten_eq.symm (drop_ne_nil ho)
    | cons x ws =>
      obtain ⟨hx, hpx, v, hv, hws⟩ := isSegmentation_cons_iff.mp hws
      have hx' := List.length_pos_iff.mpr hx
      have hl := congrArg List.length hv
      rw [List.length_drop, List.length_append] at hl
      have hne : v ≠ [] := by
        rintro rfl
        rw [List.append_nil] at hv
        exact hp (hv ▸ hpx)
      have hv' := List.length_pos_iff.mpr hne
      refine ⟨offset + x.length, by omega, by omega, ?_, ws, ?_, ?_⟩
      · rw [Nat.add_sub_cancel_left, hv, List.take_left]
        exact hpx
      · rw [← List.drop_drop, hv, List.drop_left]
        exact hws
      · rw [List.length_cons]
        omega
  · rintro ⟨j, hoj, hjn, hpj, ws, hws, hc⟩
    refine ⟨(str.drop offset).take (j - offset) :: ws, isSegmentation_cons_iff.mpr
      ⟨?_, hpj, str.drop j, ?_, hws⟩, ?_⟩
    · apply List.ne_nil_of_length_pos
      rw [List.length_take, List.length_drop]
      omega
    · rw [show str.drop j = (str.drop offset).drop (j - offset) by
        rw [List.drop_drop, show offset + (j - offset) = j by omega], List.take_append_drop]
    · rw [List.length_cons]
      omega

/-- Every number in the table of cuts is the least one. -/
def CutsSound (str : List UInt8) (cache : Table) : Prop :=
  ∀ offset < str.length, cache offset ≠ -1 → IsLeast (Cuts (str.drop offset)) (cache offset)

/-- A call has found the least number of cuts. -/
def FindsCuts (str : List UInt8) (offset : ℕ) (r : ℤ × Table) : Prop :=
  IsLeast (Cuts (str.drop offset)) r.1 ∧ CutsSound str r.2

theorem cutsSound_update {cache : Table} (hc : CutsSound str cache) {offset : ℕ} {v : ℤ}
    (hv : IsLeast (Cuts (str.drop offset)) v) :
    CutsSound str (Function.update cache offset v) := by
  intro o ho hne
  by_cases he : o = offset
  · subst he
    rw [Function.update_self]
    exact hv
  · rw [Function.update_of_ne he] at hne ⊢
    exact hc o ho hne

theorem mem_laterCuts_iff {offset i : ℕ} (hin : i < str.length) {c : ℤ} :
    c ∈ LaterCuts str offset i ↔
      (((str.drop offset).take (i - offset)).Palindrome ∧ c - 1 ∈ Cuts (str.drop i)) ∨
        c ∈ LaterCuts str offset (i + 1) := by
  constructor
  · rintro ⟨j, hij, hjn, hj⟩
    rcases hij.eq_or_lt with rfl | hlt
    · exact .inl hj
    · exact .inr ⟨j, hlt, hjn, hj⟩
  · rintro (hi | ⟨j, hij, hj⟩)
    · exact ⟨i, le_rfl, hin, hi⟩
    · exact ⟨j, by omega, hj⟩

theorem isLeast_insert_min {offset i : ℕ} (hin : i < str.length)
    (hp : ((str.drop offset).take (i - offset)).Palindrome) {v minValue m : ℤ}
    (hv : IsLeast (Cuts (str.drop i)) v)
    (hm : IsLeast (insert (if 1 + v < minValue then 1 + v else minValue)
      (LaterCuts str offset (i + 1))) m) :
    IsLeast (insert minValue (LaterCuts str offset i)) m := by
  have hle := hm.2 (Set.mem_insert _ _)
  have hmin : (if 1 + v < minValue then 1 + v else minValue) ≤ minValue ∧
      (if 1 + v < minValue then 1 + v else minValue) ≤ 1 + v := by
    split_ifs <;> omega
  constructor
  · rcases hm.1 with h | h
    · split_ifs at h
      · refine .inr ((mem_laterCuts_iff hin).mpr (.inl ⟨hp, ?_⟩))
        rw [h, add_sub_cancel_left]
        exact hv.1
      · exact .inl h
    · exact .inr ((mem_laterCuts_iff hin).mpr (.inr h))
  · rintro c (rfl | hc)
    · exact hle.trans hmin.1
    · rcases (mem_laterCuts_iff hin).mp hc with ⟨-, hc⟩ | hc
      · have := hv.2 hc
        omega
      · exact hm.2 (Set.mem_insert_of_mem _ hc)

theorem laterCuts_succ {offset i : ℕ} (hin : i < str.length)
    (hp : ¬ ((str.drop offset).take (i - offset)).Palindrome) :
    LaterCuts str offset (i + 1) = LaterCuts str offset i := by
  ext c
  rw [mem_laterCuts_iff hin]
  exact (or_iff_right fun h => hp h.1).symm

theorem minCutLoop_spec {offset : ℕ}
    (ih : ∀ i cache, offset < i → i < str.length → CutsSound str cache →
      FindsCuts str i (minCutWithCache str (fill str) i cache))
    {i : ℕ} (hi : offset < i) (minValue : ℤ) {cache : Table} (hin : i ≤ str.length)
    (hc : CutsSound str cache) :
    IsLeast (insert minValue (LaterCuts str offset i))
      (minCutLoop str (fill str) offset i hi minValue cache).1 ∧
        CutsSound str (minCutLoop str (fill str) offset i hi minValue cache).2 := by
  induction hn : str.length - i generalizing i minValue cache with
  | zero =>
    rw [minCutLoop, if_neg (by omega)]
    refine ⟨⟨.inl rfl, ?_⟩, hc⟩
    rintro c (rfl | ⟨j, hij, hjn, -⟩)
    · exact le_rfl
    · omega
  | succ n ihn =>
    have hlt : i < str.length := by omega
    rw [minCutLoop, if_pos hlt]
    split_ifs with hp
    · rw [isPalindrome_take hi hlt] at hp
      obtain ⟨hv, hc'⟩ := ih i cache hi hlt hc
      obtain ⟨hm, hc''⟩ := ihn (Nat.lt_succ_of_lt hi) _ (by omega) hc' (by omega)
      exact ⟨isLeast_insert_min hlt hp hv hm, hc''⟩
    · rw [isPalindrome_take hi hlt] at hp
      rw [← laterCuts_succ hlt hp]
      exact ihn (Nat.lt_succ_of_lt hi) minValue (by omega) hc (by omega)

/-- The start value of the loop is never the least: cutting everywhere takes fewer cuts. -/
theorem isLeast_of_insert_length {offset : ℕ} (ho : offset < str.length)
    {m : ℤ} (hm : IsLeast (insert (str.length : ℤ) (Cuts (str.drop offset))) m) :
    IsLeast (Cuts (str.drop offset)) m := by
  have hall := hm.2 (Set.mem_insert_of_mem _ (length_sub_one_mem_cuts (str.drop offset)))
  rw [List.length_drop] at hall
  refine ⟨hm.1.resolve_left (by omega), fun c hc => hm.2 (Set.mem_insert_of_mem _ hc)⟩

theorem minCutWithCache_spec {offset : ℕ} (ho : offset < str.length) {cache : Table}
    (hc : CutsSound str cache) :
    FindsCuts str offset (minCutWithCache str (fill str) offset cache) := by
  induction hn : str.length - offset using Nat.strong_induction_on
    generalizing offset cache with
  | _ n ih =>
    rw [minCutWithCache]
    split_ifs with hlast hmemo hpal
    · refine ⟨isLeast_cuts_of_palindrome (drop_ne_nil ho) ?_, hc⟩
      obtain ⟨a, ha⟩ := List.length_eq_one_iff.mp
        (show (str.drop offset).length = 1 by rw [List.length_drop]; omega)
      rw [ha]
      exact .singleton a
    · exact ⟨hc offset ho hmemo, hc⟩
    · exact ⟨isLeast_cuts_of_palindrome (drop_ne_nil ho) ((isPalindrome_drop ho).mp hpal), hc⟩
    · rw [isPalindrome_drop ho] at hpal
      obtain ⟨hm, hc'⟩ := minCutLoop_spec
        (fun i cache hi hin hc => ih _ (by omega) hin hc rfl) (Nat.lt_succ_self offset)
        (str.length : ℤ) (by omega) hc
      rw [← cuts_eq_laterCuts ho hpal] at hm
      have hleast := isLeast_of_insert_length ho hm
      exact ⟨hleast, cutsSound_update hc' hleast⟩

/-- **The number of cuts is the least.** -/
theorem isLeast_minCut (h : str ≠ []) (hint : str.length * str.length < 2 ^ 31) :
    ∃ m, minCut str = some m ∧ IsLeast (Cuts str) m := by
  have hmin := (minCutWithCache_spec (List.length_pos_iff.mpr h)
    (fun _ _ hne => absurd rfl hne : CutsSound str IntervalTable.empty)).1
  rw [List.drop_zero] at hmin
  rw [minCut, if_neg (not_le.mpr hint)]
  exact ⟨_, rfl, hmin⟩

/-! ## The strings whose table has a size -/

/-- `partition` lists every way to cut the string into palindromes once, and `minCut` is the least
number of cuts among them. -/
def Complete (str : List UInt8) : Prop :=
  ∃ vvs m, partition str = some vvs ∧ minCut str = some m ∧ vvs.Nodup ∧
    (∀ ws, ws ∈ vvs ↔ IsSegmentation List.Palindrome str ws) ∧
      IsLeast {c : ℤ | ∃ ws ∈ vvs, c = ws.length - 1} m

theorem complete_of_lt (h : str ≠ []) (hint : str.length * str.length < 2 ^ 31) :
    Complete str := by
  obtain ⟨vvs, hvvs, hperm⟩ := partition_perm h hint
  obtain ⟨m, hm, hleast⟩ := isLeast_minCut h hint
  have hmem : ∀ ws, ws ∈ vvs ↔ IsSegmentation List.Palindrome str ws := fun ws =>
    hperm.mem_iff.trans mem_segmentations
  refine ⟨vvs, m, hvvs, hm, hperm.nodup_iff.mpr (nodup_segmentations str), hmem, ?_⟩
  have hcuts : {c : ℤ | ∃ ws ∈ vvs, c = ws.length - 1} = Cuts str := by
    ext c
    exact exists_congr fun ws => and_congr_left fun _ => hmem ws
  rw [hcuts]
  exact hleast

theorem lt_of_complete (h : Complete str) : str.length * str.length < 2 ^ 31 := by
  obtain ⟨_, _, hpart, -⟩ := h
  by_contra hge
  rw [partition, if_pos (not_lt.mp hge)] at hpart
  cases hpart

/-- **The partitions and the cuts are right exactly if the size of the table fits in an `int`.** -/
theorem partition_minCut_iff (str : List UInt8) (h : str ≠ []) :
    Complete str ↔ str.length * str.length < 2 ^ 31 :=
  ⟨lt_of_complete, complete_of_lt h⟩

theorem partition_minCut_aab : ([97, 97, 98] : List UInt8) ≠ [] ∧ Complete [97, 97, 98] :=
  ⟨nofun, (partition_minCut_iff [97, 97, 98] nofun).mpr (by decide)⟩

/-- A string of 46341 letters `a`. -/
theorem not_complete_replicate : ¬ ∀ str, str ≠ [] → Complete str := by
  intro h
  have hne : List.replicate 46341 (97 : UInt8) ≠ [] := by
    rw [Ne, List.replicate_eq_nil_iff]
    omega
  have hlt := lt_of_complete (h _ hne)
  rw [List.length_replicate] at hlt
  omega

end Sperm.Leetcode.Palindrome
