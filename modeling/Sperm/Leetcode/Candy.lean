import Mathlib.Algebra.Order.BigOperators.Group.List
import Mathlib.Data.List.Chain
import Mathlib.Data.List.Forall2
import Mathlib.Tactic.Linarith
import Sperm.Lib.Checked

/-!
# Candies by ratings (`candy.cc`)

One pass from the left and one from the right give a child one candy more than the neighbour it
is rated higher than; the larger of the two numbers is what the child gets.

* `candy` with `L`, `R`: the model; `none` stands for a sum that is no `int`.
* `Fair`: an assignment as it is asked for.
* `passFrom_step`: what a pass writes; `passFrom_le`: it is below every fair assignment.
* `fair_max`: the larger numbers are fair.
* **`candy_iff`**: the sum is the least one, exactly if the least one is an `int`.
-/

namespace Sperm.Leetcode.Candy

/-- `dp[i]` in the loop of `L`, for a child rated `r'` behind one rated `r` with `dp[i - 1] = d`. -/
def next (r d r' : ℤ) : Option ℤ := if r' > r then Checked.signed 32 (d + 1) else some 1

/-- The entries of `dp` from there on. -/
def passFrom (r d : ℤ) : List ℤ → Option (List ℤ)
  | [] => some []
  | r' :: rs => do
    let d' ← next r d r'
    let ds ← passFrom r' d' rs
    some (d' :: ds)

/-- `L(ratings, dp)`. -/
def L : List ℤ → Option (List ℤ)
  | [] => some []
  | r :: rs => (passFrom r 1 rs).map (1 :: ·)

/-- `R(ratings, dp)`, the same loop from the last child to the first. -/
def R (ratings : List ℤ) : Option (List ℤ) := (L ratings.reverse).map List.reverse

/-- `candy(ratings)`. -/
def candy (ratings : List ℤ) : Option ℤ :=
  if ratings.length = 0 then some 0
  else do
    let l ← L ratings
    let r ← R ratings
    Checked.sumFrom 32 0 (List.zipWith max l r)

/-! ## Assignments -/

/-- A child, with its rating and its candies, that has more than the one before it if it is rated
higher. -/
def More (a b : ℤ × ℤ) : Prop := a.1 < b.1 → a.2 < b.2

/-- At least one candy for each child, and more than an adjacent one for a child rated higher. -/
structure Fair (ratings c : List ℤ) : Prop where
  length_eq : c.length = ratings.length
  one_le : ∀ x ∈ c, 1 ≤ x
  more : (ratings.zip c).IsChain fun a b => More a b ∧ More b a

/-- What a pass gives to the next child. -/
def Step (a b : ℤ × ℤ) : Prop := b.2 = if a.1 < b.1 then a.2 + 1 else 1

variable {ratings rs c cs ds l : List ℤ} {r d x : ℤ}

theorem Step.more {a b : ℤ × ℤ} (h : Step a b) : More a b := by
  intro hlt
  rw [Step, if_pos hlt] at h
  omega

theorem isChain_zip_cons_cons {S : ℤ × ℤ → ℤ × ℤ → Prop} {r' d' : ℤ} :
    ((r, d) :: (r' :: rs).zip (d' :: ds)).IsChain S ↔
      S (r, d) (r', d') ∧ ((r', d') :: rs.zip ds).IsChain S := by
  rw [List.zip_cons_cons, List.isChain_cons_cons]

/-! ## One pass -/

theorem passFrom_step (h : passFrom r d rs = some ds) (hd : 1 ≤ d) :
    ds.length = rs.length ∧ (∀ x ∈ ds, 1 ≤ x) ∧ ((r, d) :: rs.zip ds).IsChain Step := by
  induction rs generalizing r d ds with
  | nil =>
    obtain rfl : [] = ds := Option.some_inj.mp h
    exact ⟨rfl, by simp, List.isChain_singleton _⟩
  | cons r' rs ih =>
    simp only [passFrom, Option.bind_eq_bind, Option.bind_eq_some_iff] at h
    obtain ⟨d', hd', ds', hds', heq⟩ := h
    obtain rfl : d' :: ds' = ds := Option.some_inj.mp heq
    have hstep : d' = if r < r' then d + 1 else 1 := by
      unfold next at hd'
      split_ifs at hd' ⊢ with hlt
      · exact (Checked.signed_eq_some_iff.mp hd').2.symm
      · exact (Option.some_inj.mp hd').symm
    have hone : 1 ≤ d' := by
      rw [hstep]
      split_ifs <;> omega
    obtain ⟨hlen, hall, hchain⟩ := ih hds' hone
    refine ⟨by simp [hlen], List.forall_mem_cons.mpr ⟨hone, hall⟩, ?_⟩
    exact isChain_zip_cons_cons.mpr ⟨hstep, hchain⟩

/-- **A pass is below** every assignment that gives more to the child rated higher than the one
before it, and its numbers are in range if those of the assignment are. -/
theorem passFrom_le (hlen : cs.length = rs.length) (hone : ∀ y ∈ cs, 1 ≤ y)
    (hsmall : ∀ y ∈ cs, y < 2 ^ 31) (hmore : ((r, x) :: rs.zip cs).IsChain More)
    (hd : 0 ≤ d) (hdx : d ≤ x) : ∃ ds, passFrom r d rs = some ds ∧ List.Forall₂ (· ≤ ·) ds cs := by
  induction rs generalizing r d x cs with
  | nil =>
    obtain rfl := List.length_eq_zero_iff.mp hlen
    exact ⟨[], rfl, .nil⟩
  | cons r' rs ih =>
    obtain ⟨y, cs, rfl⟩ := List.exists_cons_of_length_eq_add_one hlen
    obtain ⟨hrel, hchain⟩ := isChain_zip_cons_cons.mp hmore
    obtain ⟨hy, hone⟩ := List.forall_mem_cons.mp hone
    obtain ⟨hy', hsmall⟩ := List.forall_mem_cons.mp hsmall
    have hrest : ∀ d', 0 ≤ d' → d' ≤ y → next r d r' = some d' →
        ∃ ds, passFrom r d (r' :: rs) = some ds ∧ List.Forall₂ (· ≤ ·) ds (y :: cs) := by
      intro d' hpos hle hd'
      obtain ⟨ds, hds, hforall⟩ := ih (by simpa using hlen) hone hsmall hchain hpos hle
      refine ⟨d' :: ds, ?_, .cons hle hforall⟩
      simp [passFrom, hd', hds]
    by_cases hlt : r < r'
    · have hxy : x < y := hrel hlt
      refine hrest (d + 1) (by omega) (by omega) ?_
      rw [next, if_pos hlt, Checked.signed_eq (by omega) (by omega)]
    · exact hrest 1 (by omega) hy (if_neg hlt)

theorem L_step (h : L ratings = some l) :
    l.length = ratings.length ∧ (∀ x ∈ l, 1 ≤ x) ∧ (ratings.zip l).IsChain Step := by
  cases ratings with
  | nil =>
    obtain rfl : [] = l := Option.some_inj.mp h
    simp
  | cons r rs =>
    obtain ⟨ds, hds, rfl⟩ := Option.map_eq_some_iff.mp h
    obtain ⟨hlen, hone, hchain⟩ := passFrom_step hds le_rfl
    exact ⟨by simp [hlen], List.forall_mem_cons.mpr ⟨le_rfl, hone⟩, hchain⟩

theorem L_le (hlen : c.length = ratings.length) (hone : ∀ y ∈ c, 1 ≤ y)
    (hsmall : ∀ y ∈ c, y < 2 ^ 31) (hmore : (ratings.zip c).IsChain More) :
    ∃ l, L ratings = some l ∧ List.Forall₂ (· ≤ ·) l c := by
  cases ratings with
  | nil =>
    obtain rfl := List.length_eq_zero_iff.mp hlen
    exact ⟨[], rfl, .nil⟩
  | cons r rs =>
    obtain ⟨x, cs, rfl⟩ := List.exists_cons_of_length_eq_add_one hlen
    obtain ⟨hx, hone⟩ := List.forall_mem_cons.mp hone
    obtain ⟨-, hsmall⟩ := List.forall_mem_cons.mp hsmall
    obtain ⟨ds, hds, hforall⟩ :=
      passFrom_le (by simpa using hlen) hone hsmall hmore (by norm_num) hx
    exact ⟨1 :: ds, by rw [L, hds, Option.map_some], .cons hx hforall⟩

/-! ## Both passes -/

theorem reverse_zip (h : c.length = ratings.length) :
    ratings.reverse.zip c.reverse = (ratings.zip c).reverse :=
  (List.reverse_zipWith h.symm).symm

theorem R_step (h : R ratings = some l) :
    l.length = ratings.length ∧ (∀ x ∈ l, 1 ≤ x) ∧
      (ratings.zip l).IsChain fun a b => Step b a := by
  obtain ⟨l, hl, rfl⟩ := Option.map_eq_some_iff.mp h
  obtain ⟨hlen, hone, hchain⟩ := L_step hl
  have hlen' : l.reverse.length = ratings.length := by simpa using hlen
  refine ⟨hlen', fun x hx => hone x (List.mem_reverse.mp hx), ?_⟩
  rwa [← List.isChain_reverse, ← reverse_zip hlen', List.reverse_reverse]

theorem Fair.reverse (h : Fair ratings c) : Fair ratings.reverse c.reverse where
  length_eq := by simpa using h.length_eq
  one_le := fun x hx => h.one_le x (List.mem_reverse.mp hx)
  more := by
    rw [reverse_zip h.length_eq, List.isChain_reverse]
    exact h.more.imp fun _ _ hab => hab.symm

theorem isChain_max {l r : List ℤ} (hl : (ratings.zip l).IsChain Step)
    (hr : (ratings.zip r).IsChain fun a b => Step b a) (hl1 : ∀ x ∈ l, 1 ≤ x)
    (hr1 : ∀ x ∈ r, 1 ≤ x) :
    (ratings.zip (List.zipWith max l r)).IsChain fun a b => More a b ∧ More b a := by
  induction ratings generalizing l r with
  | nil => exact List.isChain_nil
  | cons a ratings ih =>
    match l, r, ratings with
    | [], _, _ => exact List.isChain_nil
    | _ :: _, [], _ => exact List.isChain_nil
    | x :: l, y :: r, [] => exact List.isChain_singleton _
    | [x], y :: r, b :: ratings => exact List.isChain_singleton _
    | x :: x' :: l, [y], b :: ratings => exact List.isChain_singleton _
    | x :: x' :: l, y :: y' :: r, b :: ratings =>
      obtain ⟨hstep, hl⟩ := isChain_zip_cons_cons.mp hl
      obtain ⟨hstep', hr⟩ := isChain_zip_cons_cons.mp hr
      obtain ⟨hx, hl1⟩ := List.forall_mem_cons.mp hl1
      obtain ⟨hy, hr1⟩ := List.forall_mem_cons.mp hr1
      refine isChain_zip_cons_cons.mpr ⟨?_, ih (l := x' :: l) (r := y' :: r) hl hr hl1 hr1⟩
      have hx' := hl1 x' List.mem_cons_self
      have hy' := hr1 y' List.mem_cons_self
      simp only [Step] at hstep hstep'
      simp only [More]
      -- the pass in the other direction gives one candy to the child rated lower
      split_ifs at hstep hstep' <;> omega

theorem fair_max {l r : List ℤ} (hl : L ratings = some l) (hr : R ratings = some r) :
    Fair ratings (List.zipWith max l r) := by
  obtain ⟨hlen, hone, hchain⟩ := L_step hl
  obtain ⟨hlen', hone', hchain'⟩ := R_step hr
  refine ⟨by simp [hlen, hlen'], fun x hx => ?_, isChain_max hchain hchain' hone hone'⟩
  obtain ⟨i, hi, rfl⟩ := List.mem_iff_getElem.mp hx
  rw [List.getElem_zipWith]
  exact le_max_of_le_left (hone _ (List.getElem_mem _))

theorem Fair.lt_of_sum (h : Fair ratings c) {b : ℤ} (hsum : c.sum < b) : ∀ y ∈ c, y < b := by
  intro y hy
  have hle : y ≤ c.sum := List.single_le_sum (fun x hx => zero_le_one.trans (h.one_le x hx)) y hy
  exact hle.trans_lt hsum

theorem forall₂_max {l r : List ℤ} (hl : List.Forall₂ (· ≤ ·) l c)
    (hr : List.Forall₂ (· ≤ ·) r c) : List.Forall₂ (· ≤ ·) (List.zipWith max l r) c := by
  induction hl generalizing r with
  | nil => exact .nil
  | cons hx _ ih =>
    cases hr with
    | cons hy hr => exact .cons (max_le hx hy) (ih hr)

/-- Both passes are in range if the assignment is, and the larger numbers are below it. -/
theorem Fair.exists_max (h : Fair ratings c) (hsum : c.sum < 2 ^ 31) :
    ∃ l r, L ratings = some l ∧ R ratings = some r ∧ (List.zipWith max l r).sum ≤ c.sum := by
  have hsmall := h.lt_of_sum hsum
  obtain ⟨l, hl, hle⟩ := L_le h.length_eq h.one_le hsmall (h.more.imp fun _ _ hab => hab.1)
  have hrev := h.reverse
  obtain ⟨r, hr, hle'⟩ := L_le hrev.length_eq hrev.one_le
    (fun y hy => hsmall y (List.mem_reverse.mp hy)) (hrev.more.imp fun _ _ hab => hab.1)
  refine ⟨l, r.reverse, hl, by rw [R, hr, Option.map_some], ?_⟩
  have hle'' : List.Forall₂ (· ≤ ·) r.reverse c :=
    List.forall₂_reverse_iff.mp (by rwa [List.reverse_reverse])
  exact (forall₂_max hle hle'').sum_le_sum

theorem candy_eq (ratings : List ℤ) : candy ratings =
    (L ratings).bind fun l => (R ratings).bind fun r =>
      Checked.sumFrom 32 0 (List.zipWith max l r) := by
  cases ratings with
  | nil => rfl
  | cons r rs => rfl

theorem candy_eq_some_iff {s : ℤ} : candy ratings = some s ↔
    ∃ l r, L ratings = some l ∧ R ratings = some r ∧ (List.zipWith max l r).sum < 2 ^ 31 ∧
      (List.zipWith max l r).sum = s := by
  have hsum : ∀ {l r}, L ratings = some l → R ratings = some r →
      (Checked.sumFrom 32 0 (List.zipWith max l r) = some s ↔
        (List.zipWith max l r).sum < 2 ^ 31 ∧ (List.zipWith max l r).sum = s) := by
    intro l r hl hr
    have hpos := fun x hx => zero_le_one.trans ((fair_max hl hr).one_le x hx)
    have hzero : (0 : ℤ) < 2 ^ (32 - 1) := by norm_num
    simpa using Checked.sumFrom_eq_some_iff le_rfl hzero hpos
  rw [candy_eq]
  simp only [Option.bind_eq_some_iff]
  constructor
  · rintro ⟨l, hl, r, hr, h⟩
    exact ⟨l, r, hl, hr, (hsum hl hr).mp h⟩
  · rintro ⟨l, r, hl, hr, h⟩
    exact ⟨l, hl, r, hr, (hsum hl hr).mpr h⟩

theorem lt_of_candy_eq {s : ℤ} (h : candy ratings = some s) : s < 2 ^ 31 := by
  obtain ⟨l, r, -, -, hlt, rfl⟩ := candy_eq_some_iff.mp h
  exact hlt

/-- **The sum is the least one** exactly if some assignment needs no more candies than an `int`
can count. -/
theorem candy_iff (ratings : List ℤ) :
    (∃ c, candy ratings = some c.sum ∧ Fair ratings c ∧
        ∀ c', Fair ratings c' → c.sum ≤ c'.sum) ↔
      ∃ c, Fair ratings c ∧ c.sum < 2 ^ 31 := by
  constructor
  · rintro ⟨c, hcandy, hfair, -⟩
    exact ⟨c, hfair, lt_of_candy_eq hcandy⟩
  · rintro ⟨c, hfair, hsum⟩
    obtain ⟨l, r, hl, hr, hle⟩ := hfair.exists_max hsum
    refine ⟨_, candy_eq_some_iff.mpr ⟨l, r, hl, hr, by omega, rfl⟩, fair_max hl hr, ?_⟩
    intro c' hfair'
    by_cases hsum' : c'.sum < 2 ^ 31
    · obtain ⟨l', r', hl', hr', hle'⟩ := hfair'.exists_max hsum'
      obtain rfl := Option.some_inj.mp (hl.symm.trans hl')
      obtain rfl := Option.some_inj.mp (hr.symm.trans hr')
      exact hle'
    · omega

theorem Fair.increasing (h : Fair ratings c) (hlt : ratings.IsChain (· < ·)) :
    (ratings.length : ℤ) * (ratings.length + 1) ≤ 2 * c.sum := by
  have hrun : ∀ {rs cs : List ℤ} {r x : ℤ}, cs.length = rs.length → (r :: rs).IsChain (· < ·) →
      ((r, x) :: rs.zip cs).IsChain More →
      (rs.length : ℤ) * (2 * x + rs.length + 1) ≤ 2 * cs.sum := by
    intro rs
    induction rs with
    | nil =>
      intro cs r x hlen _ _
      obtain rfl := List.length_eq_zero_iff.mp hlen
      simp
    | cons r' rs ih =>
      intro cs r x hlen hlt hmore
      obtain ⟨y, cs, rfl⟩ := List.exists_cons_of_length_eq_add_one hlen
      obtain ⟨hr, hlt⟩ := List.isChain_cons_cons.mp hlt
      obtain ⟨hrel, hmore⟩ := isChain_zip_cons_cons.mp hmore
      have hxy : x < y := hrel hr
      have hrest := ih (by simpa using hlen) hlt hmore
      rw [List.sum_cons, List.length_cons]
      push_cast
      nlinarith
  cases ratings with
  | nil =>
    obtain rfl := List.length_eq_zero_iff.mp h.length_eq
    simp
  | cons r rs =>
    obtain ⟨x, cs, rfl⟩ := List.exists_cons_of_length_eq_add_one h.length_eq
    have hx := h.one_le x List.mem_cons_self
    have hrest := hrun (by simpa using h.length_eq) hlt (h.more.imp fun _ _ hab => hab.1)
    rw [List.sum_cons, List.length_cons]
    push_cast
    nlinarith

/-- The ratings `0` to `65535` need more candies than an `int` can count. -/
theorem candy_overflow : ¬ ∃ c, candy ((List.range 65536).map Int.ofNat) = some c.sum ∧
    Fair ((List.range 65536).map Int.ofNat) c ∧
    ∀ c', Fair ((List.range 65536).map Int.ofNat) c' → c.sum ≤ c'.sum := by
  rintro ⟨c, hcandy, hfair, -⟩
  have hlt := lt_of_candy_eq hcandy
  have hchain : ((List.range 65536).map Int.ofNat).IsChain (· < ·) := by
    rw [List.isChain_map]
    exact (List.pairwise_lt_range.imp fun h => Int.ofNat_lt.mpr h).isChain
  have hmany := hfair.increasing hchain
  rw [List.length_map, List.length_range] at hmany
  norm_num at hmany
  omega

end Sperm.Leetcode.Candy
