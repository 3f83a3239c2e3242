import Sperm.Leetcode.Floyd
import Sperm.Leetcode.WordGraph

/-!
# All shortest ladders (`word-ladder-2.cc`)

The distances between all words are put into a table of `char`, and the ladders are followed from
`start` to words that are one nearer to `end`. The table has `N * N` entries, a product of two
`int`s: where it overflows there is no result, and where it does not, every index fits as well.

* `findLadders` with `isAdjacent`, `calcDist`, `getDescription`: the model, without what is printed.
* `paths`, **`mem_paths`**: with the right distances the shortest walks are followed.
* `FindsAll`: the ladders and the distances are right.
* **`findLadders_iff`**: they are exactly when the size of the table does not overflow and the
  lengths fit at every stage of `calcFloyd`.
-/

namespace Sperm.Leetcode.WordLadder2

open WordGraph Floyd

variable {m : ℕ}

/-- `isAdjacent(i, j)`, on the words of `i` and `j`. -/
def isAdjacent (x y : Word m) : Bool :=
  let diff := (List.finRange m).countP fun i => x i ≠ y i
  diff ≤ 1

/-- `calcDist()`: the pass at `i ≤ j` sets both entries of the pair. -/
def calcDist (start finish : Word m) (dict : Dict m) : Table (dict.words.length + 2) := fun i j =>
  if i = j then 0
  else if isAdjacent (res start finish dict (min i j)) (res start finish dict (max i j)) then 1
  else -1

/-- `getDescription(f)`. -/
def getDescription (start finish : Word m) (dict : Dict m) (dist : Table (dict.words.length + 2))
    (f : Node dict) : List (List (Word m)) :=
  if f = last dict then [[res start finish dict f]]
  else (List.finRange _).flatMap fun i =>
    if dist f i = 1 ∧ (dist i (last dict)).toInt = (dist f (last dict)).toInt - 1 then
      (getDescription start finish dict dist i).map (res start finish dict f :: ·)
    else []
termination_by ((dist f (last dict)).toInt + 128).toNat
decreasing_by
  have := (dist i (last dict)).le_toInt
  omega

/-- `findLadders(start, end, dict)`. -/
def findLadders (start finish : Word m) (dict : Dict m) : Option (List (List (Word m))) :=
  let N := dict.words.length + 2
  if 2 ^ 31 ≤ N * N then none
  else some (getDescription start finish dict (calcFloyd (calcDist start finish dict)) (first dict))

/-! ## The table -/

variable {start finish : Word m} {dict : Dict m} {u v : Node dict}

theorem isAdjacent_iff (x y : Word m) : isAdjacent x y = true ↔ hammingDist x y ≤ 1 := by
  simp [isAdjacent, hammingDist_eq_countP]

theorem isAdjacent_min_max : isAdjacent (res start finish dict (min u v))
    (res start finish dict (max u v)) = true ↔
      hammingDist (res start finish dict u) (res start finish dict v) ≤ 1 := by
  rw [isAdjacent_iff]
  rcases le_total u v with h | h
  · rw [min_eq_left h, max_eq_right h]
  · rw [min_eq_right h, max_eq_left h, hammingDist_comm]

theorem calcDist_cases (hne : u ≠ v) :
    (Adj start finish dict u v ∧ calcDist start finish dict u v = 1) ∨
      (¬ Adj start finish dict u v ∧ calcDist start finish dict u v = -1) := by
  rw [calcDist, if_neg hne]
  split_ifs with h
  · exact .inl ⟨⟨hne, isAdjacent_min_max.mp h⟩, rfl⟩
  · exact .inr ⟨fun hadj => h (isAdjacent_min_max.mpr hadj.2), rfl⟩

theorem calcDist_proper : Proper (calcDist start finish dict) := by
  refine ⟨fun u v => ?_, fun u => if_pos rfl⟩
  rw [calcDist, calcDist, min_comm, max_comm]
  simp only [eq_comm]

theorem calcDist_inv :
    Inv (Adj start finish dict) (fun u v => res start finish dict u = res start finish dict v) 0
      (calcDist start finish dict) := by
  refine .zero calcDist_proper (agrees_zero calcDist_proper.diag fun u v => calcDist_cases) ?_
  intro u v hval
  by_cases huv : u = v
  · exact ⟨0, huv⟩
  · have hcases : (Adj start finish dict u v ∧ _) ∨ _ := calcDist_cases huv
    rcases hcases with ⟨hadj, -⟩ | ⟨-, hnone⟩
    · exact ⟨1, .single hadj⟩
    · exact absurd hnone hval

theorem table_inv :
    Inv (Adj start finish dict) (fun u v => res start finish dict u = res start finish dict v)
      (dict.words.length + 2) (calcFloyd (calcDist start finish dict)) := by
  refine calcFloyd_inv calcDist_inv (fun u v heq => ?_) fun _ _ _ => Eq.trans
  by_cases huv : u = v
  · exact .inl huv
  · refine .inr ⟨huv, ?_⟩
    rw [heq, hammingDist_self]
    exact Nat.zero_le 1

/-! ## Following the distances -/

section Paths

variable {n : ℕ} {r : Fin n → Fin n → Prop} {dist : Table n} {t f : Fin n} {l : List (Fin n)}

/-- The walks that `getDescription` follows, without the place where they begin. -/
def paths (dist : Table n) (t f : Fin n) : List (List (Fin n)) :=
  if f = t then [[]]
  else (List.finRange n).flatMap fun i =>
    if dist f i = 1 ∧ (dist i t).toInt = (dist f t).toInt - 1 then (paths dist t i).map (i :: ·)
    else []
termination_by ((dist f t).toInt + 128).toNat
decreasing_by
  have := (dist i t).le_toInt
  omega

theorem mem_paths_of_ne (hne : f ≠ t) : l ∈ paths dist t f ↔
    ∃ i l', (dist f i = 1 ∧ (dist i t).toInt = (dist f t).toInt - 1) ∧ l' ∈ paths dist t i ∧
      l = i :: l' := by
  rw [paths, if_neg hne, List.mem_flatMap]
  constructor
  · rintro ⟨i, -, hl⟩
    split_ifs at hl with hi
    · obtain ⟨l', hl', rfl⟩ := List.mem_map.mp hl
      exact ⟨i, l', hi, hl', rfl⟩
    · simp at hl
  · rintro ⟨i, l', hi, hl', rfl⟩
    refine ⟨i, List.mem_finRange i, ?_⟩
    rw [if_pos hi]
    exact List.mem_map_of_mem hl'

theorem eq_one_iff {u v : Fin n} (h : Agrees r n dist) (hirr : ∀ u, ¬ r u u) :
    dist u v = 1 ↔ r u v := by
  have hone : (1 : Int8).toInt = (1 : ℕ) := rfl
  rw [← Int8.toInt_inj, hone, h.toInt_eq_iff, IsDist.one_iff]
  constructor
  · exact And.right
  · intro huv
    refine ⟨?_, huv⟩
    rintro rfl
    exact hirr u huv

/-- **With the right distances** these are the shortest walks. -/
theorem mem_paths {d : ℕ} (h : Agrees r n dist) (hirr : ∀ u, ¬ r u u) (hd : IsDist r f t d) :
    l ∈ paths dist t f ↔ Shortest r t f l := by
  induction d generalizing f l with
  | zero =>
    obtain rfl := IsDist.zero_iff.mp hd
    rw [paths, if_pos rfl, List.mem_singleton]
    constructor
    · rintro rfl
      rfl
    · intro hl
      exact List.length_eq_zero_iff.mp (hl.isDist.unique hd)
  | succ d ih =>
    have hne : f ≠ t := by
      rintro rfl
      exact absurd (hd.unique (IsDist.zero_iff.mpr rfl)) (by omega)
    have hnear : ∀ i, (dist i t).toInt = (dist f t).toInt - 1 ↔ IsDist r i t d := by
      intro i
      rw [h.toInt_eq_iff.mpr hd, ← h.toInt_eq_iff]
      omega
    rw [mem_paths_of_ne hne]
    constructor
    · rintro ⟨i, l', ⟨hi, hval⟩, hl', rfl⟩
      have hrest := (ih ((hnear i).mp hval)).mp hl'
      have hlen := hrest.isDist.unique ((hnear i).mp hval)
      exact ⟨(eq_one_iff h hirr).mp hi, by rwa [hlen], hrest⟩
    · intro hl
      cases l with
      | nil => exact absurd hl hne
      | cons i l =>
        obtain ⟨hi, hdist, hrest⟩ := hl
        obtain rfl : l.length = d := Nat.succ.inj (hdist.unique hd)
        exact ⟨i, l, ⟨(eq_one_iff h hirr).mpr hi, (hnear i).mpr hrest.isDist⟩,
          (ih hrest.isDist).mpr hrest, rfl⟩

theorem toInt_of_mem_paths (hdiag : dist t t = 0) (hl : l ∈ paths dist t f) :
    (dist f t).toInt = l.length := by
  induction l generalizing f with
  | nil =>
    by_cases hft : f = t
    · subst hft
      rw [hdiag]
      rfl
    · obtain ⟨i, l', -, -, hnil⟩ := (mem_paths_of_ne hft).mp hl
      cases hnil
  | cons i l ih =>
    have hft : f ≠ t := by
      rintro rfl
      rw [paths, if_pos rfl] at hl
      simp at hl
    obtain ⟨_, _, ⟨-, hval⟩, hl', heq⟩ := (mem_paths_of_ne hft).mp hl
    obtain ⟨rfl, rfl⟩ := List.cons.inj heq
    have hrest := ih hl'
    rw [List.length_cons]
    omega

theorem nodup_paths (dist : Table n) (t f : Fin n) : (paths dist t f).Nodup := by
  induction f using paths.induct dist t with
  | case1 =>
    rw [paths, if_pos rfl]
    exact List.nodup_singleton []
  | case2 f hne ih =>
    rw [paths, if_neg hne, List.nodup_flatMap]
    constructor
    · intro i _
      split_ifs with hi
      · exact (ih i hi).map List.cons_injective
      · exact List.nodup_nil
    · refine (List.nodup_finRange n).imp fun {i j} hij => ?_
      -- the walks by `i` begin with `i`
      have hhead : ∀ i, ∀ l ∈ (if dist f i = 1 ∧ (dist i t).toInt = (dist f t).toInt - 1 then
          (paths dist t i).map (i :: ·) else []), l.head? = some i := by
        intro i l hl
        split_ifs at hl
        · obtain ⟨l', -, rfl⟩ := List.mem_map.mp hl
          rfl
        · simp at hl
      intro l hl hl'
      exact hij (Option.some.inj ((hhead i l hl).symm.trans (hhead j l hl')))

end Paths

theorem getDescription_eq (dist : Table (dict.words.length + 2)) (f : Node dict) :
    getDescription start finish dict dist f =
      (paths dist (last dict) f).map fun l => (f :: l).map (res start finish dict) := by
  induction f using paths.induct dist (last dict) with
  | case1 =>
    rw [getDescription, paths, if_pos rfl, if_pos rfl]
    rfl
  | case2 f hne ih =>
    rw [getDescription, paths, if_neg hne, if_neg hne, List.map_flatMap]
    congr 1
    funext i
    split_ifs with hi
    · rw [ih i hi, List.map_map, List.map_map]
      rfl
    · rfl

/-! ## The ladders -/

theorem getDescription_spec {dist : Table (dict.words.length + 2)} {k : ℕ}
    (h : Agrees (Adj start finish dict) (dict.words.length + 2) dist) (hne : start ≠ finish)
    (hk : IsDist (Adj start finish dict) (first dict) (last dict) k) :
    (∀ ws, ws ∈ getDescription start finish dict dist (first dict) ↔
        ShortestLadder start finish dict ws) ∧
      (getDescription start finish dict dist (first dict)).Nodup := by
  have hpaths : ∀ l, l ∈ paths dist (last dict) (first dict) ↔
      Shortest (Adj start finish dict) (last dict) (first dict) l :=
    fun l => mem_paths h (fun u hu => hu.1 rfl) hk
  rw [getDescription_eq]
  constructor
  · intro ws
    rw [List.mem_map, shortestLadder_iff hne]
    constructor
    · rintro ⟨l, hl, rfl⟩
      rw [hpaths] at hl
      obtain ⟨hladder, hnodes⟩ := ladder_of_shortest hne hl
      exact ⟨hladder, by rwa [← hnodes]⟩
    · rintro ⟨hladder, hshort⟩
      exact ⟨_, (hpaths _).mpr hshort, (chain_of_ladder hladder).1⟩
  · refine (nodup_paths dist (last dict) (first dict)).map_on ?_
    intro l hl l' hl' heq
    rw [(ladder_of_shortest hne ((hpaths l).mp hl)).2, heq]
    exact (ladder_of_shortest hne ((hpaths l').mp hl')).2.symm

/-- The ladders `vvs` are the shortest ones, each once, and the distances of all words that are
connected are right. -/
structure Finds (start finish : Word m) (dict : Dict m) (vvs : List (List (Word m))) : Prop where
  mem : ∀ ws, ws ∈ vvs ↔ ShortestLadder start finish dict ws
  nodup : vvs.Nodup
  dist : ∀ u v d, res start finish dict u ≠ res start finish dict v →
    IsDist (Change start finish dict) (res start finish dict u) (res start finish dict v) d →
    (calcFloyd (calcDist start finish dict) u v).toInt = d

/-- The code returns, with all of this. -/
def FindsAll (start finish : Word m) (dict : Dict m) : Prop :=
  ∃ vvs, findLadders start finish dict = some vvs ∧ Finds start finish dict vvs

theorem findLadders_eq_some_iff {vvs : List (List (Word m))} :
    findLadders start finish dict = some vvs ↔
      (dict.words.length + 2) * (dict.words.length + 2) < 2 ^ 31 ∧
        getDescription start finish dict (calcFloyd (calcDist start finish dict)) (first dict) =
          vvs := by
  simp only [findLadders]
  split_ifs with hint
  · exact iff_of_false (by simp) fun h => absurd h.1 (not_lt.mpr hint)
  · rw [Option.some_inj, and_iff_right (not_le.mp hint)]

theorem fits_of_finds {vvs : List (List (Word m))} (h : Finds start finish dict vvs) {k : ℕ}
    (hk : k ≤ dict.words.length + 2) : Floyd.Fits (Adj start finish dict) k := by
  have hinv : Inv (Adj start finish dict) _ _ (calcFloyd (calcDist start finish dict)) := table_inv
  rcases hinv.cases with ⟨hfits, -⟩ | ⟨-, u, v, huv, hval⟩
  · exact hfits k hk
  · -- a bad entry is between two words that are connected
    have hnone : calcFloyd (calcDist start finish dict) u v ≠ -1 := by
      intro heq
      have hneg : (-1 : Int8).toInt = -1 := rfl
      rw [heq, hneg] at hval
      omega
    obtain ⟨e, he⟩ := hinv.connected u v hnone
    obtain ⟨d, hd⟩ := IsDist.exists_of_walk he
    have heq := h.dist u v d huv ((isDist_change_iff huv).mpr hd)
    omega

theorem finds_of_fits (hne : start ≠ finish) (hreach : ∃ ws, Ladder start finish dict ws)
    (hfits : ∀ k ≤ dict.words.length + 2, Floyd.Fits (Adj start finish dict) k) :
    Finds start finish dict
      (getDescription start finish dict (calcFloyd (calcDist start finish dict)) (first dict)) := by
  have hagrees : Agrees (Adj start finish dict) (dict.words.length + 2)
      (calcFloyd (calcDist start finish dict)) := by
    rcases table_inv.cases with ⟨-, hagrees⟩ | ⟨⟨k, hk, hnot⟩, -⟩
    · exact hagrees
    · exact absurd (hfits k hk) hnot
  obtain ⟨ws, hws⟩ := hreach
  obtain ⟨k, hk⟩ := exists_dist hws
  obtain ⟨hmem, hnodup⟩ := getDescription_spec hagrees hne hk
  refine ⟨hmem, hnodup, fun u v d huv hd => ?_⟩
  exact hagrees.toInt_eq_iff.mpr ((isDist_change_iff huv).mp hd)

/-- **All shortest ladders** are found, with the distances, exactly when the size of the table fits
in an `int` and at every stage of `calcFloyd` the lengths are at most `127`. -/
theorem findLadders_iff (start finish : Word m) (dict : Dict m) (hne : start ≠ finish)
    (hreach : ∃ ws, Ladder start finish dict ws) :
    FindsAll start finish dict ↔
      (dict.words.length + 2) * (dict.words.length + 2) < 2 ^ 31 ∧
        ∀ k ≤ dict.words.length + 2, Floyd.Fits (Adj start finish dict) k := by
  constructor
  · rintro ⟨vvs, hvvs, hfinds⟩
    exact ⟨(findLadders_eq_some_iff.mp hvvs).1, fun k hk => fits_of_finds hfinds hk⟩
  · rintro ⟨hint, hfits⟩
    exact ⟨_, findLadders_eq_some_iff.mpr ⟨hint, rfl⟩, finds_of_fits hne hreach hfits⟩

/-! ## A long ladder -/

section Stairs

/-- The word of `k` letters `b` and then only `a`. -/
def stairs (p k : ℕ) : Word (p + 1) := fun i => if i.val < k then 0x62 else 0x61

theorem stairs_inj {p j k : ℕ} (hj : j ≤ p + 1) (hk : k ≤ p + 1) (h : stairs p j = stairs p k) :
    j = k := by
  have hlt : ∀ {j k}, k ≤ p + 1 → stairs p j = stairs p k → ¬ j < k := by
    intro j k hk h hjk
    have hat := congrFun h ⟨j, by omega⟩
    simp [stairs, hjk] at hat
  exact le_antisymm (not_lt.mp (hlt hj h.symm)) (not_lt.mp (hlt hk h))

/-- The words between the first and the last. -/
def climb (p : ℕ) : Dict (p + 1) where
  words := (List.range p).map fun k => stairs p (k + 1)
  nodup := by
    refine List.nodup_range.map_on fun j hj k hk h => ?_
    rw [List.mem_range] at hj hk
    exact Nat.succ.inj (stairs_inj (by omega) (by omega) h)

theorem hammingDist_stairs_succ {p k : ℕ} (hk : k < p + 1) :
    hammingDist (stairs p k) (stairs p (k + 1)) = 1 := by
  have hone : ∀ i, stairs p k i ≠ stairs p (k + 1) i ↔ i = ⟨k, hk⟩ := by
    intro i
    have hval : i = ⟨k, hk⟩ ↔ i.val = k := Fin.ext_iff
    rw [hval]
    unfold stairs
    split_ifs with h1 h2 h2
    · exact iff_of_false (fun h => h rfl) h1.ne
    · omega
    · exact iff_of_true (by decide) (by omega)
    · exact iff_of_false (fun h => h rfl) (by omega)
  simp [hammingDist, hone, Finset.filter_eq']

theorem hammingDist_stairs (p : ℕ) : hammingDist (stairs p 0) (stairs p (p + 1)) = p + 1 := by
  have hall : ∀ i, stairs p 0 i ≠ stairs p (p + 1) i := by
    intro i
    simp only [stairs, i.isLt, if_true, Nat.not_lt_zero, if_false]
    decide
  simp [hammingDist, hall]

theorem ladder_stairs (p : ℕ) :
    Ladder (stairs p 0) (stairs p (p + 1)) (climb p) ((List.range (p + 2)).map (stairs p)) := by
  refine ⟨(climb p).words, ?_, fun w hw => hw, ?_⟩
  · have hrange : List.range (p + 2) = 0 :: ((List.range p).map Nat.succ ++ [p + 1]) := by
      rw [List.range_succ_eq_map, List.range_succ, List.map_append]
      rfl
    rw [hrange]
    simp [climb]
  · rw [List.isChain_map]
    exact (List.isChain_range_succ _ _).mpr fun k hk => hammingDist_stairs_succ hk

theorem hammingDist_le_of_walk {d : ℕ} {x y : Word m} (h : Walk (Change start finish dict) d x y) :
    hammingDist x y ≤ d := by
  induction d generalizing y with
  | zero =>
    obtain rfl : x = y := h
    rw [hammingDist_self]
  | succ d ih =>
    obtain ⟨z, hz, hzy, -⟩ := h
    have htri := hammingDist_triangle x z y
    have hle := ih hz
    omega

variable {p : ℕ}

/-- Every letter takes a step. -/
theorem le_of_walk_stairs {e : ℕ}
    (h : Walk (Change (stairs p 0) (stairs p (p + 1)) (climb p)) e (stairs p 0)
      (stairs p (p + 1))) : p + 1 ≤ e := by
  rw [← hammingDist_stairs p]
  exact hammingDist_le_of_walk h

theorem shortestLadder_stairs (p : ℕ) :
    ShortestLadder (stairs p 0) (stairs p (p + 1)) (climb p)
      ((List.range (p + 2)).map (stairs p)) := by
  refine ⟨ladder_stairs p, fun ws h => ?_⟩
  have hwalk := walk_of_chain (chain_of_ladder h).2 (getLast?_nodes ws)
  obtain ⟨e, hle, he⟩ := walk_change_of_adj hwalk
  rw [res_first, res_last] at he
  have hge := le_of_walk_stairs he
  have hlen := length_nodes h
  simp only [List.length_map, List.length_range]
  omega

/-- Between `a` and `b`, with nothing in the dictionary, the lengths are at most `1`. -/
theorem findLadders_letters : FindsAll (stairs 0 0) (stairs 0 1) (climb 0) := by
  refine (findLadders_iff (stairs 0 0) (stairs 0 1) (climb 0) ?_ ⟨_, ladder_stairs 0⟩).mpr ?_
  · exact fun h => absurd (stairs_inj (by omega) (by omega) h) (by omega)
  · refine ⟨by decide, fun k _ u v d hd => ?_⟩
    by_cases huv : u = v
    · subst huv
      have hzero := hd.2 0 rfl
      omega
    · have hadj : Adj (stairs 0 0) (stairs 0 1) (climb 0) u v :=
        ⟨huv, hammingDist_le_card_fintype⟩
      have hone := hd.2 1 (.single hadj)
      omega

/-- From `128` letters `a` to `128` letters `b` the shortest ladder has `128` steps, and is not
found. -/
theorem findLadders_stairs :
    stairs 127 0 ≠ stairs 127 128 ∧
      ShortestLadder (stairs 127 0) (stairs 127 128) (climb 127)
        ((List.range 129).map (stairs 127)) ∧
      (∀ vvs, findLadders (stairs 127 0) (stairs 127 128) (climb 127) = some vvs →
        (List.range 129).map (stairs 127) ∉ vvs) ∧
      ¬ FindsAll (stairs 127 0) (stairs 127 128) (climb 127) := by
  have hmissed : ∀ vvs, findLadders (stairs 127 0) (stairs 127 128) (climb 127) = some vvs →
      (List.range 129).map (stairs 127) ∉ vvs := by
    intro vvs hvvs h
    rw [← (findLadders_eq_some_iff.mp hvvs).2, getDescription_eq, List.mem_map] at h
    obtain ⟨l, hl, hwords⟩ := h
    have hlen := congrArg List.length hwords
    simp only [List.length_map, List.length_cons, List.length_range] at hlen
    have hle := le_of_toInt_eq (toInt_of_mem_paths (table_inv.proper.diag _) hl)
    omega
  refine ⟨fun h => ?_, shortestLadder_stairs 127, hmissed, ?_⟩
  · exact absurd (stairs_inj (by omega) (by omega) h) (by omega)
  · rintro ⟨vvs, hvvs, hfinds⟩
    exact hmissed vvs hvvs ((hfinds.mem _).mpr (shortestLadder_stairs 127))

end Stairs

end Sperm.Leetcode.WordLadder2
