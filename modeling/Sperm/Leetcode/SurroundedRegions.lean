import Mathlib.Algebra.Order.Ring.Int
import Mathlib.Data.Finset.Card
import Mathlib.Data.List.FinRange
import Mathlib.Tactic.Linarith
import Mathlib.Tactic.Ring
import Sperm.Lib.Flood

/-!
# Surrounded regions (`surrounded-regions.cc`)

From every `O` on the border the cells beside are marked, one after the other, and every `O` that is
not marked becomes an `X`. The marks are kept in one array, and the place of a cell in it is
computed with the number of rows where the number of columns belongs.

* `solve` with `solveWithMark`, `getIndex`, `flipWithMark`: the model; an access outside the array
  and a size that is no `int` are faults.
* `solve_ne_depth`: the recursion ends.
* `BorderConnected`, `Captured`: the cells that stay; the code is right on a board.
* `Clear`, `Safe`: no two cells get in each other's way.
* **`captured_boards`**: the code is right on boards that are safe, and when it is only on these.
-/

namespace Sperm.Leetcode.SurroundedRegions

open Flood

inductive Cell where
  | X
  | O
deriving DecidableEq

/-- A board with `N` rows and `M` columns. -/
abbrev Board (N M : ℕ) := Fin N × Fin M → Cell

inductive Fault where
  /-- An access outside the array `mark`. -/
  | bounds
  /-- `N * M` is no `int`. -/
  | overflow
  /-- The recursion is deeper than the model allows. -/
  | depth
deriving DecidableEq

variable {N M : ℕ}

/-- The cells in the order of the loops. -/
def cells (N M : ℕ) : List (Fin N × Fin M) :=
  (List.finRange N).flatMap fun i => (List.finRange M).map fun j => (i, j)

/-- `board[i][j]`, if the cell is on the board. -/
def get? (board : Board N M) (i j : ℤ) : Option Cell :=
  if h : (0 ≤ i ∧ i < N) ∧ 0 ≤ j ∧ j < M then
    some (board (⟨i.toNat, by omega⟩, ⟨j.toNat, by omega⟩))
  else none

/-- `getIndex(i, j)`. -/
def getIndex (N : ℕ) (i j : ℤ) : ℤ := i * N + j

/-- The entries of `mark`. -/
def entries (N M : ℕ) : Finset ℤ :=
  (Finset.range (N * M)).map ⟨Int.ofNat, fun _ _ => Int.ofNat.inj⟩

/-- `solveWithMark(board, i, j, mark)`; `mark` holds the indices marked `NOT_SUR`. -/
def solveWithMark (board : Board N M) : ℕ → ℤ → ℤ → Finset ℤ → Except Fault (Finset ℤ)
  | 0, _, _, _ => .error .depth
  | fuel + 1, i, j, mark =>
    match get? board i j with
    | none => .ok mark
    | some c =>
      let index := getIndex N i j
      if index ∉ entries N M then .error .bounds
      else if index ∈ mark ∨ c = .X then .ok mark
      else do
        let mark := insert index mark
        let mark ← solveWithMark board fuel (i - 1) j mark
        let mark ← solveWithMark board fuel (i + 1) j mark
        let mark ← solveWithMark board fuel i (j - 1) mark
        solveWithMark board fuel i (j + 1) mark

/-- The pass of the loop in `flipWithMark` at the cell `p`. -/
def flipCell (mark : Finset ℤ) (board : Board N M) (p : Fin N × Fin M) : Except Fault (Board N M) :=
  let index := getIndex N p.1 p.2
  if board p = .O then
    if index ∈ entries N M then
      .ok (if index ∈ mark then board else Function.update board p .X)
    else .error .bounds
  else .ok board

/-- `flipWithMark(board, mark)`. -/
def flipWithMark (board : Board N M) (mark : Finset ℤ) : Except Fault (Board N M) :=
  (cells N M).foldlM (flipCell mark) board

def Border (p : Fin N × Fin M) : Prop :=
  p.1.val = 0 ∨ p.2.val = 0 ∨ p.1.val = N - 1 ∨ p.2.val = M - 1

instance (p : Fin N × Fin M) : Decidable (Border p) :=
  inferInstanceAs (Decidable (_ ∨ _))

/-- The pass of the first loop in `solve` at the cell `p`. -/
def visit (board : Board N M) (mark : Finset ℤ) (p : Fin N × Fin M) : Except Fault (Finset ℤ) :=
  if Border p ∧ board p = .O then solveWithMark board (N * M + 1) p.1 p.2 mark else .ok mark

/-- `solve(board)`. -/
def solve (board : Board N M) : Except Fault (Board N M) :=
  if N = 0 then .ok board
  else if M = 0 then .ok board
  else if 2 ^ 31 ≤ N * M then .error .overflow
  else do
    let mark ← (cells N M).foldlM (visit board) ∅
    flipWithMark board mark

/-! ## The cells that stay -/

/-- Horizontally or vertically adjacent. -/
def Adjacent (p q : Fin N × Fin M) : Prop :=
  (p.1 = q.1 ∧ (p.2.val + 1 = q.2.val ∨ q.2.val + 1 = p.2.val)) ∨
    (p.2 = q.2 ∧ (p.1.val + 1 = q.1.val ∨ q.1.val + 1 = p.1.val))

/-- From an `O` on the border through adjacent `O`s to `p`. -/
def BorderConnected (board : Board N M) (p : Fin N × Fin M) : Prop :=
  ∃ b, Border b ∧ board b = .O ∧
    Relation.ReflTransGen (fun q r => Adjacent q r ∧ board r = .O) b p

/-- The code captures the board as it should. -/
def Captured (board : Board N M) : Prop :=
  ∃ board', solve board = .ok board' ∧ ∀ p, board' p = .O ↔ BorderConnected board p

def index (p : Fin N × Fin M) : ℤ := getIndex N p.1 p.2

/-- The places in `mark` of the cells that are looked at are inside it, and an `O` that stays has
one of its own. -/
structure Clear (board : Board N M) : Prop where
  inside : ∀ p, board p = .O ∨ (∃ q, BorderConnected board q ∧ Adjacent q p) → index p ∈ entries N M
  apart : ∀ p q, BorderConnected board p → board q = .O → index p = index q → p = q

/-- The board is empty; or its cells can be counted in an `int` and it has one or two rows and no
fewer columns, or is clear. -/
def Safe (board : Board N M) : Prop :=
  N = 0 ∨ M = 0 ∨ (N * M < 2 ^ 31 ∧ ((N ≤ 2 ∧ N ≤ M) ∨ Clear board))

/-! ## The recursion as a flood fill -/

/-- What `solveWithMark` finds at a place: nothing, or an `O` and its index. -/
def look (board : Board N M) (p : ℤ × ℤ) : Except Fault (Option ℤ) :=
  match get? board p.1 p.2 with
  | none => .ok none
  | some c =>
    if getIndex N p.1 p.2 ∈ entries N M then
      .ok (if c = .X then none else some (getIndex N p.1 p.2))
    else .error .bounds

def next (p : ℤ × ℤ) : List (ℤ × ℤ) :=
  [(p.1 - 1, p.2), (p.1 + 1, p.2), (p.1, p.2 - 1), (p.1, p.2 + 1)]

variable {board : Board N M} {mark mark' : Finset ℤ} {p q : Fin N × Fin M} {k : ℤ}

theorem solveWithMark_eq_flood (fuel : ℕ) (i j : ℤ) :
    solveWithMark board fuel i j mark = flood .depth (look board) next fuel (i, j) mark := by
  induction fuel generalizing i j mark with
  | zero => rfl
  | succ fuel ih =>
    rw [solveWithMark, flood, look]
    cases hget : get? board i j with
    | none => simp
    | some c =>
      by_cases hbounds : getIndex N i j ∈ entries N M
      · cases c with
        | X => simp [hbounds]
        | O =>
          by_cases hmark : getIndex N i j ∈ mark
          · simp [hbounds, hmark]
          · simp [hbounds, hmark, ih, next]
      · simp [hbounds]

/-- The place of a cell. -/
def pos (p : Fin N × Fin M) : ℤ × ℤ := (p.1, p.2)

theorem get?_pos (p : Fin N × Fin M) : get? board p.1 p.2 = some (board p) := by
  have h1 := p.1.isLt
  have h2 := p.2.isLt
  rw [get?, dif_pos (by omega)]
  simp

theorem eq_pos_of_get? {i j : ℤ} {c : Cell} (h : get? board i j = some c) :
    ∃ p : Fin N × Fin M, (i, j) = pos p ∧ board p = c := by
  rw [get?] at h
  split_ifs at h with hin
  refine ⟨(⟨i.toNat, by omega⟩, ⟨j.toNat, by omega⟩), ?_, Option.some.inj h⟩
  simp only [pos, Prod.mk.injEq]
  omega

theorem mem_entries_of_look {x : ℤ × ℤ} (h : look board x = .ok (some k)) : k ∈ entries N M := by
  unfold look at h
  split at h
  · cases h
  · split_ifs at h with hbounds hX
    · simp at h
    · obtain rfl : getIndex N x.1 x.2 = k := by simpa using h
      exact hbounds

theorem look_ne_depth (x : ℤ × ℤ) : look board x ≠ .error .depth := by
  unfold look
  split
  · simp
  · split_ifs <;> simp

theorem mem_entries {k : ℤ} : k ∈ entries N M ↔ 0 ≤ k ∧ k < N * M := by
  simp only [entries, Finset.mem_map, Finset.mem_range]
  constructor
  · rintro ⟨a, ha, rfl⟩
    have hlt : (a : ℤ) < N * M := by exact_mod_cast ha
    exact ⟨Int.natCast_nonneg a, hlt⟩
  · rintro ⟨h0, hlt⟩
    lift k to ℕ using h0
    exact ⟨k, by exact_mod_cast hlt, rfl⟩

theorem card_entries (N M : ℕ) : (entries N M).card = N * M := by
  rw [entries, Finset.card_map, Finset.card_range]

/-- At a place where the fill from an `O` on the border gets to, looking fails. -/
def Fails (board : Board N M) (e : Fault) : Prop :=
  ∃ p x, (Border p ∧ board p = .O) ∧ Touch (look board) next (pos p) x ∧ look board x = .error e

theorem visit_ok_or_fails :
    (∃ mark', visit board mark p = .ok mark' ∧ mark ⊆ mark') ∨
      ∃ e, Fails board e ∧ visit board mark p = .error e := by
  unfold visit
  split_ifs with hp
  · rw [solveWithMark_eq_flood]
    have hle := Finset.card_le_card (Finset.sdiff_subset (s := entries N M) (t := mark))
    rw [card_entries] at hle
    refine (flood_ok_or_error (fun _ _ => mem_entries_of_look) (by omega)).imp_right ?_
    rintro ⟨e, ⟨x, hx, herr⟩, hflood⟩
    exact ⟨e, ⟨p, x, hp, hx, herr⟩, hflood⟩
  · exact .inl ⟨mark, rfl, Finset.Subset.refl mark⟩

theorem foldlM_visit_ok_or_fails (board : Board N M) (l : List (Fin N × Fin M)) :
    (∃ mark, l.foldlM (visit board) ∅ = .ok mark) ∨
      ∃ e, Fails board e ∧ l.foldlM (visit board) ∅ = .error e := by
  have hloop := foldlM_ok_or_error (m := ∅) (l := l) (E := Fails board) (f := visit board)
    fun _ _ _ _ => visit_ok_or_fails
  refine hloop.imp_left ?_
  rintro ⟨mark, hmark, -⟩
  exact ⟨mark, hmark⟩

/-- One pass of the second loop: an `O` that is not marked becomes an `X`. -/
theorem flipCell_cases (mark : Finset ℤ) (board : Board N M) (p : Fin N × Fin M) :
    ((board p = .O → index p ∈ entries N M) ∧ flipCell mark board p =
        .ok (if board p = .O ∧ index p ∉ mark then Function.update board p .X else board)) ∨
      ((board p = .O ∧ index p ∉ entries N M) ∧ flipCell mark board p = .error .bounds) := by
  by_cases hO : board p = .O
  · by_cases hbounds : index p ∈ entries N M
    · refine .inl ⟨fun _ => hbounds, ?_⟩
      rw [index] at hbounds
      by_cases hmark : getIndex N p.1 p.2 ∈ mark
      · simp [flipCell, index, hO, hbounds, hmark]
      · simp [flipCell, index, hO, hbounds, hmark]
    · refine .inr ⟨⟨hO, hbounds⟩, ?_⟩
      rw [index] at hbounds
      simp [flipCell, hO, hbounds]
  · exact .inl ⟨fun h => absurd h hO, by simp [flipCell, hO]⟩

theorem foldlM_flipCell_ne_depth (l : List (Fin N × Fin M)) :
    l.foldlM (flipCell mark) board ≠ .error .depth := by
  induction l generalizing board with
  | nil => simp [pure, Except.pure]
  | cons p l ih =>
    rw [List.foldlM_cons]
    rcases flipCell_cases mark board p with ⟨-, hflip⟩ | ⟨-, hflip⟩
    · rw [hflip]
      exact ih
    · rw [hflip]
      simp [bind, Except.bind]

/-- **The recursion ends**: the bound on its depth is never reached. -/
theorem solve_ne_depth (board : Board N M) : solve board ≠ .error .depth := by
  unfold solve
  split_ifs
  · simp
  · simp
  · simp
  · rcases foldlM_visit_ok_or_fails board (cells N M) with
      ⟨mark, hmark⟩ | ⟨e, ⟨-, x, -, -, hx⟩, herr⟩
    · rw [hmark]
      exact foldlM_flipCell_ne_depth _
    · rw [herr]
      intro h
      obtain rfl : e = .depth := by simpa [bind, Except.bind] using h
      exact look_ne_depth x hx

/-! ## Both loops -/

theorem mem_cells (p : Fin N × Fin M) : p ∈ cells N M := by
  simp [cells]

theorem look_pos (h : index p ∈ entries N M) :
    look board (pos p) = .ok (if board p = .X then none else some (index p)) := by
  rw [index] at h
  simp [look, pos, get?_pos, h, index]

theorem look_pos_of_O (h : index p ∈ entries N M) (hp : board p = .O) :
    look board (pos p) = .ok (some (index p)) := by
  rw [look_pos h, hp]
  rfl

theorem index_mem_of_look {o : Option ℤ} (h : look board (pos p) = .ok o) :
    index p ∈ entries N M := by
  by_contra hnot
  rw [index] at hnot
  simp [look, pos, get?_pos, hnot] at h

theorem eq_pos_of_look {x : ℤ × ℤ} (h : look board x = .ok (some k)) :
    ∃ p : Fin N × Fin M, x = pos p ∧ board p = .O ∧ k = index p := by
  cases hget : get? board x.1 x.2 with
  | none => simp [look, hget] at h
  | some c =>
    obtain ⟨p, hp, hc⟩ := eq_pos_of_get? hget
    have hx : x = pos p := by rw [← hp]
    subst hx
    simp only [look, hget] at h
    split_ifs at h with hbounds hX
    · simp at h
    · refine ⟨p, rfl, ?_, ?_⟩
      · cases c with
        | X => exact absurd rfl hX
        | O => exact hc
      · simpa [index, pos] using h.symm

/-- One pass of the first loop fills from the cell if it is an `O` on the border. -/
theorem visit_filled (h : visit board mark p = .ok mark') :
    Filled (look board) next (fun x => (Border p ∧ board p = .O) ∧ x = pos p) mark mark' := by
  unfold visit at h
  split_ifs at h with hp
  · rw [solveWithMark_eq_flood] at h
    exact (flood_filled h).congr fun x => by simp [hp, pos]
  · obtain rfl : mark = mark' := Except.ok.inj h
    exact .rfl_of fun x hx => absurd hx.1 hp

theorem foldlM_visit_filled (h : (cells N M).foldlM (visit board) ∅ = .ok mark) :
    Filled (look board) next (fun x => ∃ p, (Border p ∧ board p = .O) ∧ x = pos p) ∅ mark := by
  refine (Filled.foldlM (fun m p m' _ => visit_filled) h).congr fun x => ?_
  simp [mem_cells]

theorem foldlM_flipCell (hin : ∀ p, board p = .O → index p ∈ entries N M)
    (l : List (Fin N × Fin M)) : l.foldlM (flipCell mark) board =
      .ok fun p => if p ∈ l ∧ board p = .O ∧ index p ∉ mark then .X else board p := by
  induction l generalizing board with
  | nil => simp [pure, Except.pure]
  | cons q l ih =>
    rw [List.foldlM_cons]
    rcases flipCell_cases mark board q with ⟨-, hflip⟩ | ⟨⟨hq, hbounds⟩, -⟩
    · rw [hflip]
      by_cases hq : board q = .O ∧ index q ∉ mark
      · rw [if_pos hq]
        have hkeeps : ∀ p, Function.update board q Cell.X p = .O → index p ∈ entries N M := by
          intro p hp
          apply hin p
          by_cases hpq : p = q
          · rw [hpq]
            exact hq.1
          · rwa [Function.update_of_ne hpq] at hp
        apply (ih hkeeps).trans
        congr 1
        funext p
        by_cases hpq : p = q
        · subst hpq
          simp [hq]
        · simp [hpq]
      · rw [if_neg hq]
        apply (ih hin).trans
        congr 1
        funext p
        by_cases hpq : p = q
        · subst hpq
          simp [hq]
        · simp [hpq]
    · exact absurd (hin q hq) hbounds

/-- The second loop reads the mark of every `O`. -/
theorem index_mem_of_foldlM {board' : Board N M} {l : List (Fin N × Fin M)}
    (h : l.foldlM (flipCell mark) board = .ok board') (hp : p ∈ l) (hO : board p = .O) :
    index p ∈ entries N M := by
  induction l generalizing board with
  | nil => simp at hp
  | cons q l ih =>
    rw [List.foldlM_cons] at h
    rcases flipCell_cases mark board q with ⟨hbounds, hflip⟩ | ⟨-, hflip⟩
    · by_cases hpq : p = q
      · subst hpq
        exact hbounds hO
      · rw [hflip] at h
        have hl : p ∈ l := by simpa [hpq] using hp
        refine ih h hl ?_
        split_ifs
        · rw [Function.update_of_ne hpq, hO]
        · exact hO
    · rw [hflip] at h
      cases h

/-! ## Paths on the board -/

theorem adjacent_iff_next : Adjacent p q ↔ pos q ∈ next (pos p) := by
  simp only [Adjacent, next, pos, List.mem_cons, Prod.mk.injEq, List.not_mem_nil, or_false,
    Fin.ext_iff]
  omega

theorem BorderConnected.isO (h : BorderConnected board p) : board p = .O := by
  obtain ⟨b, -, hb, hpath⟩ := h
  cases hpath with
  | refl => exact hb
  | tail _ hstep => exact hstep.2

/-- The fill reaches only cells that stay. -/
theorem borderConnected_of_reach {x : ℤ × ℤ} (hp : Border p ∧ board p = .O)
    (h : Reach (look board) next (pos p) x) : ∃ q, x = pos q ∧ BorderConnected board q := by
  obtain ⟨-, hpath⟩ := h
  induction hpath with
  | refl => exact ⟨p, rfl, p, hp.1, hp.2, .refl⟩
  | tail _ hstep ih =>
    obtain ⟨q, rfl, b, hborder, hb, hq⟩ := ih
    obtain ⟨hnext, k, hk⟩ := hstep
    obtain ⟨r, rfl, hr, -⟩ := eq_pos_of_look hk
    exact ⟨r, rfl, b, hborder, hb, hq.tail ⟨adjacent_iff_next.mpr hnext, hr⟩⟩

theorem BorderConnected.reach (h : BorderConnected board p)
    (hin : ∀ p, board p = .O → index p ∈ entries N M) :
    ∃ b, (Border b ∧ board b = .O) ∧ Reach (look board) next (pos b) (pos p) := by
  obtain ⟨b, hborder, hb, hpath⟩ := h
  refine ⟨b, ⟨hborder, hb⟩, ⟨_, look_pos_of_O (hin b hb) hb⟩, ?_⟩
  refine hpath.lift pos fun q r hqr => ?_
  exact ⟨adjacent_iff_next.mp hqr.1, _, look_pos_of_O (hin r hqr.2) hqr.2⟩

/-- The marks, if every `O` that stays has a place of its own. -/
theorem index_mem_mark_iff
    (hfilled : Filled (look board) next (fun x => ∃ p, (Border p ∧ board p = .O) ∧ x = pos p)
      ∅ mark)
    (hin : ∀ p, board p = .O → index p ∈ entries N M)
    (hapart : ∀ p q, BorderConnected board p → board q = .O → index p = index q → p = q)
    (hp : board p = .O) : index p ∈ mark ↔ BorderConnected board p := by
  have hinj : ∀ x y z k, (∃ p, (Border p ∧ board p = .O) ∧ x = pos p) →
      Reach (look board) next x y → look board y = .ok (some k) → look board z = .ok (some k) →
        y = z := by
    rintro _ y z k ⟨b, hb, rfl⟩ hreach hy hz
    obtain ⟨q, rfl, hq⟩ := borderConnected_of_reach hb hreach
    obtain ⟨r, rfl, hr, rfl⟩ := eq_pos_of_look hz
    rw [look_pos_of_O (hin q hq.isO) hq.isO] at hy
    have hqr : index q = index r := by simpa using hy
    rw [hapart q r hq hr hqr]
  rw [hfilled.mem_iff hinj]
  constructor
  · rintro ⟨_, y, ⟨b, hb, rfl⟩, hreach, hy⟩
    obtain ⟨q, rfl, hq⟩ := borderConnected_of_reach hb hreach
    rw [look_pos_of_O (hin q hq.isO) hq.isO] at hy
    have hqp : index q = index p := by simpa using hy
    rwa [← hapart q p hq hp hqp]
  · intro h
    obtain ⟨b, hb, hreach⟩ := h.reach hin
    exact ⟨pos b, pos p, ⟨b, hb, rfl⟩, hreach, look_pos_of_O (hin p hp) hp⟩

/-! ## Boards that are captured -/

theorem captured_iff (hmark : ∀ p, board p = .O → (index p ∈ mark ↔ BorderConnected board p)) :
    (if board p = .O ∧ index p ∉ mark then .X else board p) = Cell.O ↔ BorderConnected board p := by
  by_cases hp : board p = .O
  · rw [← hmark p hp]
    by_cases hmem : index p ∈ mark
    · simp [hp, hmem]
    · simp [hp, hmem]
  · simp only [hp, false_and, if_false, false_iff]
    exact fun h => hp h.isO

theorem look_of_touch {x : ℤ × ℤ}
    (hin : ∀ p, board p = .O ∨ (∃ q, BorderConnected board q ∧ Adjacent q p) →
      index p ∈ entries N M) (hp : Border p ∧ board p = .O)
    (h : Touch (look board) next (pos p) x) (e : Fault) : look board x ≠ .error e := by
  rcases h with rfl | ⟨y, hreach, hx⟩
  · rw [look_pos_of_O (hin p (.inl hp.2)) hp.2]
    simp
  · obtain ⟨q, rfl, hq⟩ := borderConnected_of_reach hp hreach
    cases hget : get? board x.1 x.2 with
    | none => simp [look, hget]
    | some c =>
      obtain ⟨r, hr, -⟩ := eq_pos_of_get? hget
      obtain rfl : x = pos r := hr
      rw [look_pos (hin r (.inr ⟨q, hq, adjacent_iff_next.mpr hx⟩))]
      simp

theorem solve_of_inside (board : Board N M) (hN : N ≠ 0) (hM : M ≠ 0) (hint : N * M < 2 ^ 31)
    (hin : ∀ p, board p = .O ∨ (∃ q, BorderConnected board q ∧ Adjacent q p) →
      index p ∈ entries N M) :
    ∃ mark, (cells N M).foldlM (visit board) ∅ = .ok mark ∧
      solve board = .ok fun p => if board p = .O ∧ index p ∉ mark then .X else board p := by
  have hloop : ∃ mark, (cells N M).foldlM (visit board) ∅ = .ok mark := by
    refine (foldlM_visit_ok_or_fails board (cells N M)).resolve_right ?_
    rintro ⟨e, ⟨q, x, hq, hx, herr⟩, -⟩
    exact look_of_touch hin hq hx e herr
  obtain ⟨mark, hmark⟩ := hloop
  refine ⟨mark, hmark, ?_⟩
  rw [solve, if_neg hN, if_neg hM, if_neg (by omega), hmark]
  apply (foldlM_flipCell (fun p hp => hin p (.inl hp)) (cells N M)).trans
  congr 1
  funext p
  simp [mem_cells]

theorem captured_of_clear (hN : N ≠ 0) (hM : M ≠ 0) (hint : N * M < 2 ^ 31) (h : Clear board) :
    Captured board := by
  obtain ⟨mark, hmark, hsolve⟩ := solve_of_inside board hN hM hint h.inside
  refine ⟨_, hsolve, fun p => captured_iff fun p hp => ?_⟩
  exact index_mem_mark_iff (foldlM_visit_filled hmark) (fun p hp => h.inside p (.inl hp)) h.apart hp

theorem index_mem_entries (hNM : N ≤ M) (p : Fin N × Fin M) : index p ∈ entries N M := by
  have h1 : (p.1 : ℤ) + 1 ≤ N := by exact_mod_cast p.1.isLt
  have h2 : (p.2 : ℤ) + 1 ≤ M := by exact_mod_cast p.2.isLt
  have hle : (N : ℤ) ≤ M := by exact_mod_cast hNM
  have h0 : (0 : ℤ) ≤ p.1 := Int.natCast_nonneg _
  have h3 : (0 : ℤ) ≤ p.2 := Int.natCast_nonneg _
  rw [mem_entries, index, getIndex]
  constructor
  · positivity
  · nlinarith

/-- With one or two rows every cell is on the border, so that each `O` is marked and stays. -/
theorem captured_of_two_rows (hN : N ≠ 0) (htwo : N ≤ 2) (hNM : N ≤ M) (hint : N * M < 2 ^ 31)
    (board : Board N M) : Captured board := by
  have hin : ∀ p : Fin N × Fin M, index p ∈ entries N M := index_mem_entries hNM
  obtain ⟨mark, hmark, hsolve⟩ := solve_of_inside board hN (by omega) hint fun p _ => hin p
  refine ⟨_, hsolve, fun p => captured_iff fun p hp => ?_⟩
  have hborder : Border p := by
    have hlt := p.1.isLt
    unfold Border
    omega
  refine iff_of_true ?_ ⟨p, hborder, hp, .refl⟩
  have hdone := (foldlM_visit_filled hmark).started (pos p) ⟨p, ⟨hborder, hp⟩, rfl⟩
  exact hdone.mem (look_pos_of_O (hin p) hp)

/-! ## No more columns than rows -/

theorem index_injective (hMN : M ≤ N) : Function.Injective (index : Fin N × Fin M → ℤ) := by
  intro p q h
  have hle : (M : ℤ) ≤ N := by exact_mod_cast hMN
  have hp : (p.2 : ℤ) < M := by exact_mod_cast p.2.isLt
  have hq : (q.2 : ℤ) < M := by exact_mod_cast q.2.isLt
  have hp0 : (0 : ℤ) ≤ p.2 := Int.natCast_nonneg _
  have hq0 : (0 : ℤ) ≤ q.2 := Int.natCast_nonneg _
  simp only [index, getIndex] at h
  have hrow : (p.1 : ℤ) = q.1 := by
    rcases lt_trichotomy (p.1 : ℤ) q.1 with hlt | heq | hlt
    · nlinarith
    · exact heq
    · nlinarith
  have hcol : (p.2 : ℤ) = q.2 := by
    rw [hrow] at h
    linarith
  exact Prod.ext (Fin.ext (by exact_mod_cast hrow)) (Fin.ext (by exact_mod_cast hcol))

theorem clear_of_solve (hN : N ≠ 0) (hM : M ≠ 0) (hMN : M ≤ N) {board' : Board N M}
    (h : solve board = .ok board') : Clear board := by
  have hapart : ∀ p q, BorderConnected board p → board q = .O → index p = index q → p = q :=
    fun p q _ _ heq => index_injective hMN heq
  rw [solve, if_neg hN, if_neg hM] at h
  split_ifs at h
  cases hmark : (cells N M).foldlM (visit board) ∅ with
  | error e =>
    rw [hmark] at h
    cases h
  | ok mark =>
    rw [hmark] at h
    have hin : ∀ p, board p = .O → index p ∈ entries N M :=
      fun p hp => index_mem_of_foldlM h (mem_cells p) hp
    refine ⟨?_, hapart⟩
    rintro p (hp | ⟨q, hq, hadj⟩)
    · exact hin p hp
    · have hfilled := foldlM_visit_filled hmark
      have hmem := (index_mem_mark_iff hfilled hin hapart hq.isO).mpr hq
      obtain ⟨x, hx, hbeside⟩ := hfilled.closed _ hmem (Finset.notMem_empty _)
      obtain ⟨r, rfl, -, hqr⟩ := eq_pos_of_look hx
      rw [← index_injective hMN hqr] at hbeside
      obtain ⟨o, ho, -⟩ := hbeside (pos p) (adjacent_iff_next.mp hadj)
      exact index_mem_of_look ho

/-- The last cell has no place in `mark`. -/
theorem not_captured_of_lt (hM : M ≠ 0) (hlt : M < N) :
    ¬ Captured (fun _ : Fin N × Fin M => Cell.O) := by
  rintro ⟨board', hsolve, -⟩
  have hclear := clear_of_solve (by omega) hM hlt.le hsolve
  have hmem := hclear.inside (⟨N - 1, by omega⟩, ⟨M - 1, by omega⟩) (.inl rfl)
  rw [mem_entries, index, getIndex] at hmem
  have hrow : ((N - 1 : ℕ) : ℤ) = N - 1 := by omega
  have hcol : ((M - 1 : ℕ) : ℤ) = M - 1 := by omega
  have hpos : (1 : ℤ) ≤ M := by omega
  have hlt' : (M : ℤ) + 1 ≤ N := by omega
  have hless := hmem.2
  rw [hrow, hcol] at hless
  nlinarith

/-! ## Three rows and more columns -/

/-- An `O` in the first row, and below it two more whose first has the same index. -/
def leak (N M : ℕ) : Board N M := fun p =>
  if (p.1.val = 0 ∧ p.2.val = N) ∨ (p.1.val = 1 ∧ p.2.val ≤ 1) then .O else .X

theorem leak_eq_O : leak N M p = .O ↔
    (p.1.val = 0 ∧ p.2.val = N) ∨ (p.1.val = 1 ∧ p.2.val ≤ 1) := by
  unfold leak
  split_ifs with h
  · exact iff_of_true rfl h
  · exact iff_of_false (by simp) h

theorem look_blocked (hNM : N ≤ M) {x : ℤ × ℤ} (h : ∀ p, x = pos p → board p ≠ .O) :
    look board x = .ok none := by
  cases hget : get? board x.1 x.2 with
  | none => simp [look, hget]
  | some c =>
    obtain ⟨p, hp, -⟩ := eq_pos_of_get? hget
    obtain rfl : x = pos p := hp
    have hX : board p = .X := by
      cases hc : board p with
      | X => rfl
      | O => exact absurd hc (h p rfl)
    rw [look_pos (index_mem_entries hNM p), if_pos hX]

theorem index_of_border (hN : 3 ≤ N) (hNM : N < M) (hp : Border p ∧ leak N M p = .O) :
    index p = N := by
  obtain ⟨hborder, hO⟩ := hp
  rw [leak_eq_O] at hO
  unfold Border at hborder
  rcases hO with ⟨hrow, hcol⟩ | ⟨hrow, hcol⟩
  · simp [index, getIndex, hrow, hcol]
  · have hzero : p.2.val = 0 := by omega
    simp [index, getIndex, hrow, hzero]

theorem visit_leak_marked (hN : 3 ≤ N) (hNM : N < M) :
    visit (leak N M) {(N : ℤ)} p = .ok {(N : ℤ)} := by
  unfold visit
  split_ifs with hp
  · rw [solveWithMark_eq_flood]
    refine flood_marked (look_pos_of_O (index_mem_entries hNM.le p) hp.2) ?_
    rw [index_of_border hN hNM hp]
    exact Finset.mem_singleton_self _
  · rfl

theorem visit_leak_first (hN : 3 ≤ N) (hNM : N < M) (hrow : p.1.val = 0) :
    visit (leak N M) ∅ p = .ok (if p.2.val = N then {(N : ℤ)} else ∅) := by
  unfold visit
  split_ifs with hp hcol hcol
  · have hbeside : ∀ x ∈ next (pos p), look (leak N M) x = .ok none := by
      intro x hx
      refine look_blocked hNM.le fun q hq => ?_
      subst hq
      rw [Ne, leak_eq_O]
      rw [← adjacent_iff_next] at hx
      unfold Adjacent at hx
      omega
    have hfuel : N * M + 1 = (N * M - 1) + 2 := by
      have hpos : 0 < N * M := Nat.mul_pos (by omega) (by omega)
      omega
    rw [solveWithMark_eq_flood, hfuel]
    have hlook := look_pos_of_O (index_mem_entries hNM.le p) hp.2
    refine (flood_isolated hlook (Finset.notMem_empty _) hbeside).trans ?_
    rw [index_of_border hN hNM hp]
    rfl
  · have hO := leak_eq_O.mp hp.2
    omega
  · exact absurd ⟨.inl hrow, leak_eq_O.mpr (.inl ⟨hrow, hcol⟩)⟩ hp
  · rfl

theorem foldlM_visit_marked (hN : 3 ≤ N) (hNM : N < M) (l : List (Fin N × Fin M)) :
    l.foldlM (visit (leak N M)) {(N : ℤ)} = .ok {(N : ℤ)} := by
  induction l with
  | nil => rfl
  | cons p l ih =>
    rw [List.foldlM_cons, visit_leak_marked hN hNM]
    exact ih

theorem foldlM_visit_first (hN : 3 ≤ N) (hNM : N < M) {l l' : List (Fin N × Fin M)}
    (hl : ∀ p ∈ l, p.1.val = 0) (hcol : ∃ p ∈ l, p.2.val = N) :
    (l ++ l').foldlM (visit (leak N M)) ∅ = .ok {(N : ℤ)} := by
  induction l with
  | nil => simp at hcol
  | cons p l ih =>
    obtain ⟨hp, hrest⟩ := List.forall_mem_cons.mp hl
    rw [List.cons_append, List.foldlM_cons, visit_leak_first hN hNM hp]
    by_cases hpcol : p.2.val = N
    · rw [if_pos hpcol]
      exact foldlM_visit_marked hN hNM _
    · rw [if_neg hpcol]
      refine ih hrest ?_
      simpa [hpcol] using hcol

theorem exists_first_row (hN : N ≠ 0) (j : Fin M) :
    ∃ l l', cells N M = l ++ l' ∧ (∀ p ∈ l, p.1.val = 0) ∧ ∃ p ∈ l, p.2 = j := by
  obtain ⟨n, rfl⟩ := Nat.exists_eq_succ_of_ne_zero hN
  rw [cells, List.finRange_succ, List.flatMap_cons]
  exact ⟨_, _, rfl, by simp, by simp⟩

/-- The second of the two cells below is captured, though the first is on the border. -/
theorem not_captured_leak (hN : 3 ≤ N) (hNM : N < M) : ¬ Captured (leak N M) := by
  rintro ⟨board', hsolve, hO⟩
  have hint : N * M < 2 ^ 31 := by
    by_contra hge
    rw [solve, if_neg (by omega), if_neg (by omega), if_pos (by omega)] at hsolve
    cases hsolve
  obtain ⟨mark, hmark, hresult⟩ := solve_of_inside (leak N M) (by omega) (by omega) hint
    fun p _ => index_mem_entries hNM.le p
  obtain ⟨l, l', hcells, hrow, p, hp, hpcol⟩ := exists_first_row (N := N) (by omega) ⟨N, hNM⟩
  obtain rfl : mark = {(N : ℤ)} := by
    rw [hcells, foldlM_visit_first hN hNM hrow ⟨p, hp, by rw [hpcol]⟩] at hmark
    exact (Except.ok.inj hmark).symm
  obtain rfl := Except.ok.inj (hsolve.symm.trans hresult)
  have hfirst : leak N M (⟨1, by omega⟩, ⟨0, by omega⟩) = .O := leak_eq_O.mpr (.inr (by simp))
  have hsecond : leak N M (⟨1, by omega⟩, ⟨1, by omega⟩) = .O := leak_eq_O.mpr (.inr (by simp))
  have hstays := (hO (⟨1, by omega⟩, ⟨1, by omega⟩)).mpr
    ⟨(⟨1, by omega⟩, ⟨0, by omega⟩), .inr (.inl rfl), hfirst,
      .single ⟨.inl ⟨rfl, .inl rfl⟩, hsecond⟩⟩
  simp [hsecond, index, getIndex] at hstays

/-! ## Safe boards -/

theorem lt_of_captured (hN : N ≠ 0) (hM : M ≠ 0) (h : Captured board) : N * M < 2 ^ 31 := by
  obtain ⟨board', hsolve, -⟩ := h
  rw [solve, if_neg hN, if_neg hM] at hsolve
  split_ifs at hsolve with hint
  exact not_le.mp hint

theorem captured_of_safe (h : Safe board) : Captured board := by
  by_cases hN : N = 0
  · subst hN
    exact ⟨board, rfl, fun p => p.1.elim0⟩
  by_cases hM : M = 0
  · subst hM
    refine ⟨board, ?_, fun p => p.2.elim0⟩
    rw [solve, if_neg hN, if_pos rfl]
  obtain ⟨hint, ⟨htwo, hNM⟩ | hclear⟩ := (h.resolve_left hN).resolve_left hM
  · exact captured_of_two_rows hN htwo hNM hint board
  · exact captured_of_clear hN hM hint hclear

theorem safe_of_captured (hMN : M ≤ N) (h : Captured board) : Safe board := by
  by_cases hN : N = 0
  · exact .inl hN
  by_cases hM : M = 0
  · exact .inr (.inl hM)
  obtain ⟨board', hsolve, -⟩ := id h
  exact .inr (.inr ⟨lt_of_captured hN hM h, .inr (clear_of_solve hN hM hMN hsolve)⟩)

theorem clear_of_square (board : Board N N) : Clear board where
  inside := fun p _ => index_mem_entries le_rfl p
  apart := fun _ _ _ _ heq => index_injective le_rfl heq

/-- **The code is right on a board** if it is safe. With no more columns than rows it is right on no
other board; and if it is right on all boards of a shape, this is one on which all boards are. -/
theorem captured_boards (N M : ℕ) :
    (∀ board : Board N M, Safe board → Captured board) ∧
      (M ≤ N → ∀ board : Board N M, Captured board → Safe board) ∧
      ((∀ board : Board N M, Captured board) ↔
        N = 0 ∨ M = 0 ∨ (N * M < 2 ^ 31 ∧ (N = M ∨ (N ≤ 2 ∧ N ≤ M)))) := by
  refine ⟨fun _ => captured_of_safe, fun hMN _ => safe_of_captured hMN, fun h => ?_, ?_⟩
  · by_cases hN : N = 0
    · exact .inl hN
    by_cases hM : M = 0
    · exact .inr (.inl hM)
    refine .inr (.inr ⟨lt_of_captured hN hM (h fun _ => .O), ?_⟩)
    by_contra hshape
    by_cases hlt : M < N
    · exact not_captured_of_lt hM hlt (h _)
    · exact not_captured_leak (by omega) (by omega) (h (leak N M))
  · rintro (hN | hM | ⟨hint, rfl | hrows⟩) board
    · exact captured_of_safe (.inl hN)
    · exact captured_of_safe (.inr (.inl hM))
    · exact captured_of_safe (.inr (.inr ⟨hint, .inr (clear_of_square board)⟩))
    · exact captured_of_safe (.inr (.inr ⟨hint, .inl hrows⟩))

/-- Three rows and columns of which only the middle one is enclosed. -/
theorem captured_square : Captured fun p : Fin 3 × Fin 3 => if p = (1, 1) then Cell.O else .X :=
  (captured_boards 3 3).1 _ (.inr (.inr ⟨by decide, .inr (clear_of_square _)⟩))

/-- With two rows of one column a mark behind the array is read; with three rows of four columns an
`O` beside one on the border is captured. -/
theorem oblong_boards :
    solve (fun _ : Fin 2 × Fin 1 => Cell.O) = .error .bounds ∧ ¬ Captured (leak 3 4) :=
  ⟨by rfl, not_captured_leak (by decide) (by decide)⟩

end Sperm.Leetcode.SurroundedRegions
