import Mathlib.Algebra.Order.Ring.Int
import Mathlib.Data.List.FinRange
import Sperm.Lib.Walks

/-!
# All distances in a table of `char` (`word-ladder-2.cc`)

`calcFloyd` goes over the upper triangle of the table, in place, and copies what it finds to the
lower one. An entry is a `char`, with `-1` for no walk, so that a length above `127` is stored as a
negative number.

* `calcFloyd` with `relax`, `row`, `stage`: the model.
* **`stage_eq`**: one pass of the outer loop, entry by entry.
* `Agrees`: the table holds the lengths of the shortest walks through the first `k` places.
* `Fits`: these lengths are at most `127`; `Bad`: the table has an entry below `-1`.
* `Inv`, `Inv.stage`, **`calcFloyd_inv`**: the lengths fit at every stage and the table is right, or
  it is bad.
-/

namespace Sperm.Leetcode.Floyd

variable {n : ℕ}

abbrev Table (n : ℕ) := Fin n → Fin n → Int8

def set (dist : Table n) (i j : Fin n) (x : Int8) : Table n :=
  Function.update dist i (Function.update (dist i) j x)

/-- The body of the inner loop. -/
def relax (k i : Fin n) (dist : Table n) (j : Fin n) : Table n :=
  if dist k j = -1 then dist
  else
    let d : ℤ := (dist i k).toInt + (dist k j).toInt
    let dist :=
      if dist i j = -1 ∨ d < (dist i j).toInt then set dist i j (Int8.ofInt d) else dist
    set dist j i (dist i j)

/-- The pass of the middle loop at `i`. -/
def row (k : Fin n) (dist : Table n) (i : Fin n) : Table n :=
  if dist i k = -1 then dist
  else ((List.finRange n).filter (i < ·)).foldl (relax k i) dist

/-- The pass of the outer loop at `k`. -/
def stage (dist : Table n) (k : Fin n) : Table n := (List.finRange n).foldl (row k) dist

/-- `calcFloyd()`. -/
def calcFloyd (dist : Table n) : Table n := (List.finRange n).foldl stage dist

/-! ## One stage -/

/-- What becomes of the entry `c` by a walk of the lengths `a` and `b`. -/
def entry (a b c : Int8) : Int8 :=
  if a = -1 ∨ b = -1 then c
  else if c = -1 ∨ a.toInt + b.toInt < c.toInt then Int8.ofInt (a.toInt + b.toInt)
  else c

theorem entry_comm (a b c : Int8) : entry a b c = entry b a c := by
  unfold entry
  rw [Int.add_comm b.toInt]
  simp only [or_comm (a := b = -1)]

theorem entry_zero_left (c : Int8) : entry 0 c c = c := by
  have hzero : (0 : Int8).toInt = 0 := rfl
  unfold entry
  split_ifs with h1 h2
  · rfl
  · rw [hzero, Int.zero_add] at h2
    rcases h2 with h2 | h2
    · exact absurd (.inr h2) h1
    · exact absurd h2 (lt_irrefl _)
  · rfl

/-- A table of lengths in both directions. -/
structure Proper (dist : Table n) : Prop where
  symm : ∀ i j, dist i j = dist j i
  diag : ∀ i, dist i i = 0

/-- The table with the pairs `l` done. -/
def partly (dist : Table n) (k : Fin n) (l : List (Fin n × Fin n)) : Table n := fun i j =>
  if (i, j) ∈ l ∨ (j, i) ∈ l then entry (dist i k) (dist k j) (dist i j) else dist i j

section Stage

variable {dist : Table n} {k i j : Fin n} {l : List (Fin n × Fin n)}

theorem partly_col (h : Proper dist) : partly dist k l i k = dist i k := by
  unfold partly
  split_ifs
  · rw [h.diag k, entry_comm, entry_zero_left]
  · rfl

theorem partly_row (h : Proper dist) : partly dist k l k j = dist k j := by
  unfold partly
  split_ifs
  · rw [h.diag k, entry_zero_left]
  · rfl

theorem set_apply (dist : Table n) (i j : Fin n) (x : Int8) (a b : Fin n) :
    set dist i j x a b = if a = i ∧ b = j then x else dist a b := by
  unfold set
  by_cases ha : a = i
  · subst ha
    by_cases hb : b = j
    · subst hb
      simp
    · simp [hb]
  · simp [ha]

theorem partly_concat (h : Proper dist) (a b : Fin n) :
    partly dist k (l ++ [(i, j)]) a b =
      if (a = i ∧ b = j) ∨ (a = j ∧ b = i) then entry (dist i k) (dist k j) (dist i j)
      else partly dist k l a b := by
  by_cases hij : (a = i ∧ b = j) ∨ (a = j ∧ b = i)
  · rw [if_pos hij, partly, if_pos (by rcases hij with ⟨rfl, rfl⟩ | ⟨rfl, rfl⟩ <;> simp)]
    rcases hij with ⟨rfl, rfl⟩ | ⟨rfl, rfl⟩
    · rfl
    · rw [h.symm a b, h.symm a k, h.symm k b, entry_comm]
  · rw [if_neg hij]
    have hmem : ((a, b) ∈ l ++ [(i, j)] ∨ (b, a) ∈ l ++ [(i, j)]) ↔ ((a, b) ∈ l ∨ (b, a) ∈ l) := by
      rw [not_or] at hij
      simp only [List.mem_append, List.mem_singleton, Prod.mk.injEq, hij.1, or_false]
      rw [and_comm (a := b = i)]
      simp only [hij.2, or_false]
    unfold partly
    simp only [hmem]

theorem partly_of_notMem (h : (i, j) ∉ l) (h' : (j, i) ∉ l) :
    partly dist k l i j = dist i j := if_neg (not_or.mpr ⟨h, h'⟩)

theorem relax_partly (h : Proper dist) (hij : i < j) (hl : ∀ p ∈ l, p.1 < p.2) (hnew : (i, j) ∉ l)
    (hik : dist i k ≠ -1) : relax k i (partly dist k l) j = partly dist k (l ++ [(i, j)]) := by
  have hback : (j, i) ∉ l := fun hmem => absurd (hl _ hmem) (not_lt.mpr hij.le)
  have hold : partly dist k l i j = dist i j := partly_of_notMem hnew hback
  have hold' : partly dist k l j i = dist i j := by rw [partly_of_notMem hback hnew, h.symm]
  funext a b
  rw [partly_concat h, relax, partly_row h, partly_col h]
  by_cases hkj : dist k j = -1
  · rw [if_pos hkj]
    have hentry : entry (dist i k) (dist k j) (dist i j) = dist i j := if_pos (.inr hkj)
    split_ifs with hab
    · rcases hab with ⟨rfl, rfl⟩ | ⟨rfl, rfl⟩
      · rw [hentry, hold]
      · rw [hentry, hold']
    · rfl
  · rw [if_neg hkj]
    have hentry : (if partly dist k l i j = -1 ∨
          (dist i k).toInt + (dist k j).toInt < (partly dist k l i j).toInt then
          set (partly dist k l) i j (Int8.ofInt ((dist i k).toInt + (dist k j).toInt))
        else partly dist k l) = set (partly dist k l) i j
          (entry (dist i k) (dist k j) (dist i j)) := by
      rw [hold, entry, if_neg (not_or.mpr ⟨hik, hkj⟩)]
      split_ifs
      · rfl
      · funext a b
        rw [set_apply]
        split_ifs with hab
        · obtain ⟨rfl, rfl⟩ := hab
          exact hold
        · rfl
    simp only [hentry, set_apply, and_self, if_true]
    by_cases h1 : a = j ∧ b = i
    · simp [h1]
    · by_cases h2 : a = i ∧ b = j
      · simp [h2]
      · simp [h1, h2]

/-- Where there is no walk to `k`, nothing is to be done. -/
theorem partly_append_of_none (h : Proper dist) (hik : dist i k = -1) (js : List (Fin n)) :
    partly dist k (l ++ js.map (i, ·)) = partly dist k l := by
  induction js using List.reverseRecOn with
  | nil => simp
  | append_singleton js j ih =>
    rw [List.map_append, ← List.append_assoc]
    funext a b
    rw [List.map_singleton, partly_concat h, ih]
    have hentry : entry (dist i k) (dist k j) (dist i j) = dist i j := if_pos (.inl hik)
    have hentry' : entry (dist j k) (dist k i) (dist j i) = dist j i :=
      if_pos (.inr (by rw [h.symm, hik]))
    split_ifs with hab
    · rw [hentry]
      rcases hab with ⟨rfl, rfl⟩ | ⟨rfl, rfl⟩
      · unfold partly
        rw [hentry, ite_self]
      · unfold partly
        rw [hentry', ite_self, h.symm]
    · rfl

/-- The pairs of `i` in the upper triangle. -/
def upper (i : Fin n) : List (Fin n × Fin n) := ((List.finRange n).filter (i < ·)).map (i, ·)

theorem mem_upper {a b : Fin n} : (a, b) ∈ upper i ↔ a = i ∧ a < b := by
  simp only [upper, List.mem_map, List.mem_filter, List.mem_finRange, true_and, Prod.mk.injEq,
    decide_eq_true_eq]
  constructor
  · rintro ⟨x, hx, rfl, rfl⟩
    exact ⟨rfl, hx⟩
  · rintro ⟨rfl, hab⟩
    exact ⟨b, hab, rfl, rfl⟩

theorem row_partly (h : Proper dist) (hl : ∀ p ∈ l, p.1 < p.2) (hnew : ∀ p ∈ l, p.1 ≠ i) :
    row k (partly dist k l) i = partly dist k (l ++ upper i) := by
  rw [row, partly_col h, upper]
  split_ifs with hik
  · rw [partly_append_of_none h hik]
  · have hloop : ∀ js : List (Fin n), js.Nodup → (∀ j ∈ js, i < j) →
        js.foldl (relax k i) (partly dist k l) = partly dist k (l ++ js.map (i, ·)) := by
      intro js
      induction js using List.reverseRecOn with
      | nil => simp
      | append_singleton js j ih =>
        intro hnodup hlt
        rw [List.foldl_append, ih (List.nodup_append.mp hnodup).1
          fun x hx => hlt x (List.mem_append_left _ hx)]
        rw [List.map_append, ← List.append_assoc]
        refine relax_partly h (hlt j (by simp)) ?_ ?_ hik
        · intro p hp
          rcases List.mem_append.mp hp with hp | hp
          · exact hl p hp
          · obtain ⟨x, hx, rfl⟩ := List.mem_map.mp hp
            exact hlt x (List.mem_append_left _ hx)
        · intro hmem
          rcases List.mem_append.mp hmem with hmem | hmem
          · exact hnew _ hmem rfl
          · obtain ⟨x, hx, heq⟩ := List.mem_map.mp hmem
            obtain rfl : x = j := (Prod.mk.inj heq).2
            exact (List.nodup_append.mp hnodup).2.2 x hx x (by simp) rfl
    exact hloop _ ((List.nodup_finRange n).filter _) (by simp)

/-- **One stage**: all entries but those of the diagonal. -/
theorem stage_eq (h : Proper dist) :
    stage dist k = fun i j => if i = j then 0 else entry (dist i k) (dist k j) (dist i j) := by
  have hloop : ∀ is : List (Fin n), is.Nodup →
      is.foldl (row k) dist = partly dist k (is.flatMap upper) := by
    intro is
    induction is using List.reverseRecOn with
    | nil =>
      intro _
      funext i j
      simp [partly]
    | append_singleton is i ih =>
      intro hnodup
      obtain ⟨his, -, hdisj⟩ := List.nodup_append.mp hnodup
      rw [List.foldl_append, ih his, List.flatMap_append]
      refine (row_partly h ?_ ?_).trans (by simp)
      · rintro ⟨a, b⟩ hp
        obtain ⟨x, -, hp⟩ := List.mem_flatMap.mp hp
        exact (mem_upper.mp hp).2
      · rintro ⟨a, b⟩ hp
        obtain ⟨x, hx, hp⟩ := List.mem_flatMap.mp hp
        obtain ⟨rfl, -⟩ := mem_upper.mp hp
        exact hdisj a hx i (by simp)
  have hmem : ∀ a b : Fin n, (a, b) ∈ (List.finRange n).flatMap upper ↔ a < b := by
    intro a b
    simp [mem_upper]
  rw [stage, hloop _ (List.nodup_finRange n)]
  funext i j
  by_cases hij : i = j
  · subst hij
    have hnot : (i, i) ∉ (List.finRange n).flatMap upper := (hmem i i).not.mpr (lt_irrefl i)
    rw [if_pos rfl, partly_of_notMem hnot hnot, h.diag]
  · rw [if_neg hij, partly, if_pos]
    exact (lt_or_gt_of_ne hij).imp (hmem i j).mpr (hmem j i).mpr

end Stage

theorem Proper.stage {dist : Table n} (h : Proper dist) (k : Fin n) : Proper (stage dist k) := by
  rw [stage_eq h]
  refine ⟨fun i j => ?_, fun i => if_pos rfl⟩
  by_cases hij : i = j
  · subst hij
    rfl
  · rw [if_neg hij, if_neg (Ne.symm hij), h.symm i j, h.symm i k, h.symm k j, entry_comm]

/-! ## Lengths -/

section Lengths

variable {r : Fin n → Fin n → Prop} {dist : Table n} {k i j : Fin n} {a b c d : ℕ}

/-- The first `k` places. -/
def Below (k : ℕ) (v : Fin n) : Prop := v.val < k

/-- The length of a shortest walk through the first `k` places. -/
def IsLength (r : Fin n → Fin n → Prop) (k : ℕ) (i j : Fin n) (d : ℕ) : Prop :=
  Via r (Below k) d i j ∧ ∀ e, Via r (Below k) e i j → d ≤ e

/-- The lengths through the first `k` places are at most `127`. -/
def Fits (r : Fin n → Fin n → Prop) (k : ℕ) : Prop := ∀ i j d, IsLength r k i j d → d ≤ 127

/-- The table holds the lengths through the first `k` places. -/
def Agrees (r : Fin n → Fin n → Prop) (k : ℕ) (dist : Table n) : Prop :=
  ∀ i j, (∃ d, IsLength r k i j d ∧ (dist i j).toInt = d) ∨
    (∀ d, ¬ Via r (Below k) d i j) ∧ dist i j = -1

theorem IsLength.unique {l : ℕ} (h : IsLength r l i j d) (h' : IsLength r l i j c) : d = c :=
  Nat.le_antisymm (h.2 c h'.1) (h'.2 d h.1)

theorem below_succ (k : Fin n) :
    (Below (k.val + 1) : Fin n → Prop) = fun v => Below k.val v ∨ v = k := by
  funext v
  rw [Below, Below, Fin.ext_iff, eq_iff_iff]
  omega

/-- Without a walk to `k` and on, the place `k` makes no difference. -/
theorem via_succ_of_none (h : ∀ a b, Via r (Below k.val) a i k → ¬ Via r (Below k.val) b k j) :
    Via r (Below (k.val + 1)) d i j ↔ Via r (Below k.val) d i j := by
  rw [below_succ]
  constructor
  · intro hd
    refine hd.split.resolve_right ?_
    rintro ⟨a, b, -, ha, hb⟩
    exact h a b ha hb
  · exact Via.mono fun _ => .inl

theorem isLength_succ_of_none (ha : IsLength r k.val i k a) (hb : IsLength r k.val k j b)
    (hc : ∀ d, ¬ Via r (Below k.val) d i j) : IsLength r (k.val + 1) i j (a + b) := by
  rw [IsLength, below_succ]
  refine ⟨ha.1.append hb.1, fun e he => ?_⟩
  obtain ⟨a', b', hle, ha', hb'⟩ := he.split.resolve_left (hc e)
  have h1 := ha.2 a' ha'
  have h2 := hb.2 b' hb'
  omega

theorem isLength_succ (ha : IsLength r k.val i k a) (hb : IsLength r k.val k j b)
    (hc : IsLength r k.val i j c) : IsLength r (k.val + 1) i j (min c (a + b)) := by
  rw [IsLength, below_succ]
  constructor
  · rcases min_choice c (a + b) with h | h
    · rw [h]
      exact hc.1.mono fun _ => .inl
    · rw [h]
      exact ha.1.append hb.1
  · intro e he
    rcases he.split with he | ⟨a', b', hle, ha', hb'⟩
    · exact (min_le_left _ _).trans (hc.2 e he)
    · have h1 := ha.2 a' ha'
      have h2 := hb.2 b' hb'
      exact (min_le_right _ _).trans (by omega)

theorem toInt_ofInt_of_le {s : ℕ} (h : s ≤ 127) : (Int8.ofInt s).toInt = s := by
  rw [Int8.toInt_ofInt, Int8.size, Int.bmod]
  omega

theorem toInt_ofInt_of_lt {s : ℕ} (h : 127 < s) (h' : s ≤ 254) :
    (Int8.ofInt s).toInt ≤ -2 := by
  rw [Int8.toInt_ofInt, Int8.size, Int.bmod]
  omega

theorem le_of_toInt_eq {x : Int8} (h : x.toInt = d) : d ≤ 127 := by
  have hlt := x.toInt_lt
  omega

theorem ne_neg_one_of_toInt {x : Int8} (h : x.toInt = d) : x ≠ -1 := by
  rintro rfl
  have hneg : (-1 : Int8).toInt = -1 := rfl
  omega

/-- One entry after one stage: the right length, or none, or one that is too long for it. -/
theorem entry_cases (h : Agrees r k.val dist) (i j : Fin n) :
    (∃ d ≤ 127, IsLength r (k.val + 1) i j d ∧
        (entry (dist i k) (dist k j) (dist i j)).toInt = d) ∨
      ((∀ d, ¬ Via r (Below (k.val + 1)) d i j) ∧
        entry (dist i k) (dist k j) (dist i j) = -1) ∨
      ∃ d, 127 < d ∧ IsLength r (k.val + 1) i j d ∧
        (entry (dist i k) (dist k j) (dist i j)).toInt ≤ -2 := by
  -- without a walk to `k` and on, the entry stays
  have hstays : (∀ a b, Via r (Below k.val) a i k → ¬ Via r (Below k.val) b k j) →
      entry (dist i k) (dist k j) (dist i j) = dist i j →
      (∃ d ≤ 127, IsLength r (k.val + 1) i j d ∧
        (entry (dist i k) (dist k j) (dist i j)).toInt = d) ∨
      ((∀ d, ¬ Via r (Below (k.val + 1)) d i j) ∧
        entry (dist i k) (dist k j) (dist i j) = -1) := by
    intro hnone hentry
    simp only [hentry, IsLength, via_succ_of_none hnone]
    rcases h i j with ⟨d, hd, hval⟩ | hno
    · exact .inl ⟨d, le_of_toInt_eq hval, hd, hval⟩
    · exact .inr hno
  rcases h i k with ⟨a, ha, hva⟩ | ⟨hno, hva⟩
  · rcases h k j with ⟨b, hb, hvb⟩ | ⟨hno, hvb⟩
    · have hentry : entry (dist i k) (dist k j) (dist i j) =
          if dist i j = -1 ∨ ((a + b : ℕ) : ℤ) < (dist i j).toInt then
            Int8.ofInt ((a + b : ℕ) : ℤ) else dist i j := by
        rw [entry, if_neg (not_or.mpr ⟨ne_neg_one_of_toInt hva, ne_neg_one_of_toInt hvb⟩), hva,
          hvb, Nat.cast_add]
      have hla := le_of_toInt_eq hva
      have hlb := le_of_toInt_eq hvb
      rcases h i j with ⟨c, hc, hvc⟩ | ⟨hno, hvc⟩
      · have hlc := le_of_toInt_eq hvc
        refine .inl ⟨min c (a + b), by omega, isLength_succ ha hb hc, ?_⟩
        rw [hentry, hvc]
        split_ifs with hlt
        · have hless := hlt.resolve_left (ne_neg_one_of_toInt hvc)
          rw [toInt_ofInt_of_le (by omega)]
          omega
        · rw [hvc]
          omega
      · have hlength := isLength_succ_of_none ha hb hno
        rw [hentry, if_pos (.inl hvc)]
        by_cases hfit : a + b ≤ 127
        · exact .inl ⟨a + b, hfit, hlength, toInt_ofInt_of_le hfit⟩
        · exact .inr (.inr ⟨a + b, by omega, hlength, toInt_ofInt_of_lt (by omega) (by omega)⟩)
    · exact (hstays (fun _ b _ => hno b) (if_pos (.inr hvb))).imp_right .inl
  · exact (hstays (fun a _ ha => absurd ha (hno a)) (if_pos (.inl hva))).imp_right .inl

theorem isLength_self (r : Fin n → Fin n → Prop) (l : ℕ) (i : Fin n) : IsLength r l i i 0 :=
  ⟨rfl, fun _ _ => Nat.zero_le _⟩

/-- **A stage that fits** makes the table right for one more place. -/
theorem Agrees.stage (h : Agrees r k.val dist) (hproper : Proper dist)
    (hfits : Fits r (k.val + 1)) : Agrees r (k.val + 1) (stage dist k) := by
  intro i j
  rw [stage_eq hproper]
  by_cases hij : i = j
  · subst hij
    exact .inl ⟨0, isLength_self r _ i, by simp⟩
  · simp only [hij, if_false]
    rcases entry_cases h i j with ⟨d, -, hd, hval⟩ | hno | ⟨d, hlt, hd, -⟩
    · exact .inl ⟨d, hd, hval⟩
    · exact .inr hno
    · exact absurd (hfits i j d hd) (not_le.mpr hlt)

/-! ## Lengths that do not fit -/

variable {E : Fin n → Fin n → Prop}

/-- Between two places that `E` does not join, the entry is below `-1`. -/
def Bad (E : Fin n → Fin n → Prop) (dist : Table n) : Prop :=
  ∃ i j, ¬ E i j ∧ (dist i j).toInt ≤ -2

theorem Agrees.bad_stage (h : Agrees r k.val dist) (hproper : Proper dist)
    (hE : ∀ i j, E i j → i = j ∨ r i j) (hfits : ¬ Fits r (k.val + 1)) :
    Bad E (Floyd.stage dist k) := by
  unfold Fits at hfits
  push Not at hfits
  obtain ⟨i, j, d, hd, hlt⟩ := hfits
  have hij : i ≠ j := by
    rintro rfl
    have hzero := hd.unique (isLength_self r _ i)
    omega
  refine ⟨i, j, fun hEij => ?_, ?_⟩
  · have hone := hd.2 1 (.single ((hE i j hEij).resolve_left hij))
    omega
  · rw [stage_eq hproper]
    simp only [hij, if_false]
    rcases entry_cases h i j with ⟨c, hle, hc, -⟩ | ⟨hno, -⟩ | ⟨c, -, -, hval⟩
    · have heq := hd.unique hc
      omega
    · exact absurd hd.1 (hno d)
    · exact hval

theorem toInt_ofInt_of_neg {s : ℤ} (h : -128 ≤ s) (h' : s < 0) : (Int8.ofInt s).toInt = s := by
  rw [Int8.toInt_ofInt, Int8.size, Int.bmod]
  omega

/-- **A bad table stays bad**: an entry is raised only by two others below `-1`, which stay as they
are in this stage. -/
theorem Bad.stage (h : Bad E dist) (hproper : Proper dist)
    (htrans : ∀ i j k, E i k → E k j → E i j) (k : Fin n) : Bad E (Floyd.stage dist k) := by
  obtain ⟨i, j, hEij, hval⟩ := h
  have hzero : (0 : Int8).toInt = 0 := rfl
  have hdiag : ∀ a b, (dist a b).toInt ≤ -2 → a ≠ b := by
    rintro a b hab rfl
    rw [hproper.diag, hzero] at hab
    omega
  have hkeeps : ∀ a, (dist a k).toInt ≤ -2 → (Floyd.stage dist k a k).toInt ≤ -2 := by
    intro a ha
    rw [stage_eq hproper]
    simp only [hdiag a k ha, if_false]
    rwa [hproper.diag, entry_comm, entry_zero_left]
  by_cases hstays : (Floyd.stage dist k i j).toInt ≤ -2
  · exact ⟨i, j, hEij, hstays⟩
  · -- the entry is raised by the entries at `k`
    have hboth : (dist i k).toInt ≤ -2 ∧ (dist k j).toInt ≤ -2 := by
      rw [stage_eq hproper] at hstays
      simp only [hdiag i j hval, if_false] at hstays
      unfold entry at hstays
      split_ifs at hstays with hnone hless
      · omega
      · rw [not_or] at hnone
        have hne : dist i j ≠ -1 := by
          intro heq
          have hneg : (-1 : Int8).toInt = -1 := rfl
          rw [heq, hneg] at hval
          omega
        have hlt := hless.resolve_left hne
        have hwrap : ¬ -128 ≤ (dist i k).toInt + (dist k j).toInt := by
          intro hge
          rw [toInt_ofInt_of_neg hge (by omega)] at hstays
          omega
        have h1 := (dist i k).le_toInt
        have h2 := (dist k j).le_toInt
        have h3 : (dist i k).toInt ≠ -1 := fun heq => hnone.1 (Int8.toInt_inj.mp heq)
        have h4 : (dist k j).toInt ≠ -1 := fun heq => hnone.2 (Int8.toInt_inj.mp heq)
        omega
      · omega
    by_cases hEik : E i k
    · refine ⟨k, j, fun hEkj => hEij (htrans i j k hEik hEkj), ?_⟩
      rw [(hproper.stage k).symm]
      exact hkeeps j (by rw [hproper.symm]; exact hboth.2)
    · exact ⟨i, k, hEik, hkeeps i hboth.1⟩

/-- Entries other than `-1` are between places with a walk. -/
def Connected (r : Fin n → Fin n → Prop) (dist : Table n) : Prop :=
  ∀ i j, dist i j ≠ -1 → ∃ d, Walk r d i j

theorem Connected.stage (h : Connected r dist) (hproper : Proper dist) (k : Fin n) :
    Connected r (Floyd.stage dist k) := by
  intro i j hne
  rw [stage_eq hproper] at hne
  by_cases hij : i = j
  · exact ⟨0, hij⟩
  · simp only [hij, if_false] at hne
    unfold entry at hne
    split_ifs at hne with hnone hless
    · exact h i j hne
    · rw [not_or] at hnone
      obtain ⟨a, ha⟩ := h i k hnone.1
      obtain ⟨b, hb⟩ := h k j hnone.2
      exact ⟨a + b, ha.append hb⟩
    · exact h i j hne

theorem via_zero : Via r (Below 0) d i j ↔ (d = 0 ∧ i = j) ∨ (d = 1 ∧ r i j) := by
  match d with
  | 0 => simp [Via]
  | 1 => simp [Via]
  | d + 2 => simp [Via, Below]

theorem agrees_zero (hdiag : ∀ i, dist i i = 0)
    (h : ∀ i j, i ≠ j → (r i j ∧ dist i j = 1) ∨ (¬ r i j ∧ dist i j = -1)) :
    Agrees r 0 dist := by
  intro i j
  by_cases hij : i = j
  · subst hij
    exact .inl ⟨0, isLength_self r _ i, by rw [hdiag]; rfl⟩
  · rcases h i j hij with ⟨hadj, hval⟩ | ⟨hadj, hval⟩
    · refine .inl ⟨1, ⟨.single hadj, fun e he => ?_⟩, by rw [hval]; rfl⟩
      rcases via_zero.mp he with ⟨-, heq⟩ | ⟨rfl, -⟩
      · exact absurd heq hij
      · exact le_rfl
    · refine .inr ⟨fun d hd => ?_, hval⟩
      rcases via_zero.mp hd with ⟨-, heq⟩ | ⟨-, h'⟩
      · exact hij heq
      · exact hadj h'

/-- What holds before the stage `l`. -/
structure Inv (r E : Fin n → Fin n → Prop) (l : ℕ) (dist : Table n) : Prop where
  proper : Proper dist
  connected : Connected r dist
  cases : ((∀ k ≤ l, Fits r k) ∧ Agrees r l dist) ∨ (∃ k ≤ l, ¬ Fits r k) ∧ Bad E dist

theorem Inv.zero (hproper : Proper dist) (hagrees : Agrees r 0 dist) (hconn : Connected r dist) :
    Inv r E 0 dist := by
  refine ⟨hproper, hconn, .inl ⟨fun k hk i j d hd => ?_, hagrees⟩⟩
  obtain rfl := Nat.le_zero.mp hk
  rcases via_zero.mp hd.1 with ⟨rfl, -⟩ | ⟨rfl, -⟩
  · exact Nat.zero_le _
  · decide

theorem Inv.stage (h : Inv r E k.val dist) (hE : ∀ i j, E i j → i = j ∨ r i j)
    (htrans : ∀ i j k, E i k → E k j → E i j) : Inv r E (k.val + 1) (Floyd.stage dist k) := by
  refine ⟨h.proper.stage k, h.connected.stage h.proper k, ?_⟩
  rcases h.cases with ⟨hfits, hagrees⟩ | ⟨⟨l, hl, hnot⟩, hbad⟩
  · by_cases hnext : Fits r (k.val + 1)
    · refine .inl ⟨fun l hl => ?_, hagrees.stage h.proper hnext⟩
      rcases Nat.le_succ_iff.mp hl with hl | rfl
      · exact hfits l hl
      · exact hnext
    · exact .inr ⟨⟨k.val + 1, le_rfl, hnext⟩, hagrees.bad_stage h.proper hE hnext⟩
  · exact .inr ⟨⟨l, by omega, hnot⟩, hbad.stage h.proper htrans k⟩

/-- **All stages**: the lengths fit at each of them and the table is right, or it is bad. -/
theorem calcFloyd_inv (h : Inv r E 0 dist) (hE : ∀ i j, E i j → i = j ∨ r i j)
    (htrans : ∀ i j k, E i k → E k j → E i j) : Inv r E n (calcFloyd dist) := by
  have hstages : ∀ l ≤ n, Inv r E l (((List.finRange n).take l).foldl Floyd.stage dist) := by
    intro l
    induction l with
    | zero => exact fun _ => h
    | succ l ih =>
      intro hl
      have htake : (List.finRange n).take (l + 1) = (List.finRange n).take l ++ [⟨l, hl⟩] := by
        have hlt : l < (List.finRange n).length := by
          rw [List.length_finRange]
          omega
        rw [List.take_add_one, List.getElem?_eq_getElem hlt, List.getElem_finRange]
        rfl
      rw [htake, List.foldl_append]
      exact Inv.stage (k := ⟨l, hl⟩) (ih (by omega)) hE htrans
  have hall := hstages n le_rfl
  rwa [List.take_of_length_le (by simp)] at hall

theorem Agrees.toInt_eq_iff (h : Agrees r n dist) : (dist i j).toInt = d ↔ IsDist r i j d := by
  have hall : ∀ v : Fin n, Below n v := fun v => v.isLt
  have hdist : ∀ e, IsLength r n i j e ↔ IsDist r i j e := by
    intro e
    simp only [IsLength, IsDist, via_top hall]
  rcases h i j with ⟨e, he, hval⟩ | ⟨hno, hval⟩
  · rw [hdist] at he
    rw [hval, Nat.cast_inj]
    constructor
    · rintro rfl
      exact he
    · exact he.unique
  · constructor
    · intro heq
      exact absurd hval (ne_neg_one_of_toInt heq)
    · intro hd
      exact absurd ((hdist d).mpr hd).1 (hno d)

end Lengths

end Sperm.Leetcode.Floyd
