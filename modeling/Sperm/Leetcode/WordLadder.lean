import Sperm.Lib.Bfs
import Sperm.Leetcode.WordGraph

/-!
# The length of a shortest ladder (`word-ladder.cc`)

The graph of the words is searched breadth first. The marks of the numbers that have been seen are
in memory from `new`, of which only the mark of the first is set before the marks are read.

* `ladderLength` with `isAdjacent`, `makeGraph`, `getMinDist`: the model; `none` stands for the end
  of `getMinDist` without a `return`.
* `Fresh`: the marks of the words of a ladder are `0` in that memory.
* **`ladderLength_iff`**: the length is right exactly when some shortest ladder is fresh.
-/

namespace Sperm.Leetcode.WordLadder

open WordGraph

variable {m : ℕ}

/-- The loop of `isAdjacent` with its `diff`. -/
def isAdjacentFrom (x y : Word m) (diff : ℕ) : List (Fin m) → Bool
  | [] => true
  | i :: is =>
    if x i ≠ y i then
      if diff + 1 ≥ 2 then false else isAdjacentFrom x y (diff + 1) is
    else isAdjacentFrom x y diff is

/-- `isAdjacent(i, j)`, on the words of `i` and `j`. -/
def isAdjacent (x y : Word m) : Bool := isAdjacentFrom x y 0 (List.finRange m)

/-- `i` and `j > i` in the order of the loops. -/
def pairs (dict : Dict m) : List (Node dict × Node dict) :=
  (List.finRange _).flatMap fun i => ((List.finRange _).filter (i < ·)).map fun j => (i, j)

/-- `graph[i].push_back(j)`. -/
def push {dict : Dict m} (graph : Node dict → List (Node dict)) (i j : Node dict) :
    Node dict → List (Node dict) :=
  Function.update graph i (graph i ++ [j])

/-- `makeGraph()`. -/
def makeGraph (start finish : Word m) (dict : Dict m) : Node dict → List (Node dict) :=
  (pairs dict).foldl (fun graph p =>
    if isAdjacent (res start finish dict p.1) (res start finish dict p.2) then
      push (push graph p.2 p.1) p.1 p.2
    else graph) fun _ => []

/-- `getMinDist()`, with what `mask` holds at first. The queues `Q1` and `Q2`, which are pushed and
popped together, are one. -/
def getMinDist {dict : Dict m} (graph : Node dict → List (Node dict)) (mask : ℕ → UInt8) :
    Option ℕ :=
  let marked : Finset (Node dict) :=
    insert (first dict) (Finset.univ.filter fun v => mask v.val ≠ 0)
  (Bfs.bfs graph (last dict) marked [(first dict, 0)]).map (· + 1)

/-- `ladderLength(start, end, dict)`. -/
def ladderLength (start finish : Word m) (dict : Dict m) (mask : ℕ → UInt8) : Option ℕ :=
  getMinDist (makeGraph start finish dict) mask

/-! ## The graph -/

variable {start finish : Word m} {dict : Dict m} {u v : Node dict}

theorem isAdjacentFrom_iff (x y : Word m) {diff : ℕ} (h : diff ≤ 1) (is : List (Fin m)) :
    isAdjacentFrom x y diff is = true ↔ diff + is.countP (fun i => x i ≠ y i) ≤ 1 := by
  induction is generalizing diff with
  | nil => simpa [isAdjacentFrom] using h
  | cons i is ih =>
    by_cases hi : x i = y i
    · simp [isAdjacentFrom, hi, ih h]
    · by_cases hdiff : diff = 0
      · subst hdiff
        simp [isAdjacentFrom, hi, ih le_rfl, Nat.add_comm]
      · have hone : diff = 1 := by omega
        simp [isAdjacentFrom, hi, hone]

theorem isAdjacent_iff (x y : Word m) : isAdjacent x y = true ↔ hammingDist x y ≤ 1 := by
  rw [isAdjacent, isAdjacentFrom_iff x y (Nat.zero_le 1), hammingDist_eq_countP, Nat.zero_add]

theorem mem_push {graph : Node dict → List (Node dict)} {i j : Node dict} :
    v ∈ push graph i j u ↔ v ∈ graph u ∨ (u = i ∧ v = j) := by
  unfold push
  by_cases hu : u = i
  · subst hu
    simp
  · simp [hu]

theorem mem_pass {graph : Node dict → List (Node dict)} {i j : Node dict} :
    v ∈ (if isAdjacent (res start finish dict i) (res start finish dict j) then
        push (push graph j i) i j else graph) u ↔
      v ∈ graph u ∨ ((u = i ∧ v = j) ∨ (v = i ∧ u = j)) ∧
        hammingDist (res start finish dict u) (res start finish dict v) ≤ 1 := by
  have hdist : (u = i ∧ v = j) ∨ (v = i ∧ u = j) →
      (hammingDist (res start finish dict u) (res start finish dict v) ≤ 1 ↔
        isAdjacent (res start finish dict i) (res start finish dict j) = true) := by
    rw [isAdjacent_iff]
    rintro (⟨rfl, rfl⟩ | ⟨rfl, rfl⟩)
    · rfl
    · rw [hammingDist_comm]
  rw [and_congr_right hdist]
  split_ifs with hadj
  · rw [mem_push, mem_push, or_assoc, and_comm (a := u = j), or_comm (b := u = i ∧ v = j)]
    simp [hadj]
  · simp [hadj]

theorem mem_foldl_push (l : List (Node dict × Node dict)) (graph : Node dict → List (Node dict)) :
    v ∈ l.foldl (fun graph p =>
      if isAdjacent (res start finish dict p.1) (res start finish dict p.2) then
        push (push graph p.2 p.1) p.1 p.2
      else graph) graph u ↔
      v ∈ graph u ∨ ((u, v) ∈ l ∨ (v, u) ∈ l) ∧
        hammingDist (res start finish dict u) (res start finish dict v) ≤ 1 := by
  induction l generalizing graph with
  | nil => simp
  | cons p l ih =>
    obtain ⟨i, j⟩ := p
    have hmem : ((u, v) ∈ (i, j) :: l ∨ (v, u) ∈ (i, j) :: l) ↔
        ((u = i ∧ v = j) ∨ (v = i ∧ u = j)) ∨ ((u, v) ∈ l ∨ (v, u) ∈ l) := by
      simp only [List.mem_cons, Prod.mk.injEq]
      exact or_or_or_comm
    rw [List.foldl_cons, ih, mem_pass]
    simp only [hmem, or_and_right, or_assoc]

theorem mem_makeGraph : v ∈ makeGraph start finish dict u ↔ Adj start finish dict u v := by
  have hpairs : ∀ i j : Node dict, (i, j) ∈ pairs dict ↔ i < j := by
    intro i j
    simp [pairs]
  rw [makeGraph, mem_foldl_push, Adj, hpairs, hpairs, ← lt_or_lt_iff_ne]
  simp

/-! ## The length -/

/-- The marks of the words of a ladder, but for the first, are `0`. -/
def Fresh (dict : Dict m) (mask : ℕ → UInt8) (ws : List (Word m)) : Prop :=
  ∀ v ∈ nodes dict ws, mask v.val = 0

variable {mask : ℕ → UInt8} {ws : List (Word m)}

/-- The steps of the search: to numbers that are not marked at first. -/
abbrev Open (start finish : Word m) (dict : Dict m) (mask : ℕ → UInt8) :
    Node dict → Node dict → Prop :=
  Bfs.Step (makeGraph start finish dict)
    (insert (first dict) (Finset.univ.filter fun v => mask v.val ≠ 0))

theorem open_iff : Open start finish dict mask u v ↔
    Adj start finish dict u v ∧ v ≠ first dict ∧ mask v.val = 0 := by
  simp [Bfs.Step, mem_makeGraph]

theorem ladderLength_eq_some_iff {k : ℕ} : ladderLength start finish dict mask = some (k + 1) ↔
    IsDist (Open start finish dict mask) (first dict) (last dict) k := by
  rw [← Bfs.bfs_eq_some_iff (Finset.mem_insert_self _ _)]
  simp [ladderLength, getMinDist]

/-- The last number is found only if its mark is `0` at first. -/
theorem mask_last {k : ℕ} (h : ladderLength start finish dict mask = some (k + 1)) :
    mask (last dict).val = 0 := by
  have hwalk := (ladderLength_eq_some_iff.mp h).1
  cases k with
  | zero => exact absurd (congrArg Fin.val hwalk) (by simp [first, last])
  | succ k =>
    obtain ⟨u, -, hstep⟩ := hwalk
    exact (open_iff.mp hstep).2.2

theorem ne_first_of_mem_nodes (h : v ∈ nodes dict ws) : v ≠ first dict := by
  have hne : v.val ≠ 0 := by
    rcases List.mem_append.mp h with h | h
    · obtain ⟨w, -, rfl⟩ := List.mem_map.mp h
      exact Nat.succ_ne_zero _
    · obtain rfl := List.mem_singleton.mp h
      exact Nat.succ_ne_zero _
  exact fun heq => hne (congrArg Fin.val heq)

theorem isDist_open (hne : start ≠ finish) (h : ShortestLadder start finish dict ws)
    (hfresh : Fresh dict mask ws) :
    IsDist (Open start finish dict mask) (first dict) (last dict) (nodes dict ws).length := by
  obtain ⟨hladder, hshort⟩ := (shortestLadder_iff hne).mp h
  have hchain : (first dict :: nodes dict ws).IsChain (Open start finish dict mask) := by
    refine hshort.chain.imp_of_mem_tail_imp fun u v _ hv huv => ?_
    exact open_iff.mpr ⟨huv, ne_first_of_mem_nodes hv, hfresh v hv⟩
  refine ⟨walk_of_chain hchain (getLast?_nodes ws), fun e he => ?_⟩
  exact hshort.isDist.2 e (he.mono fun u v huv => (open_iff.mp huv).1)

/-- A walk of the search that is as short as any is a ladder that is fresh. -/
theorem exists_fresh (hne : start ≠ finish) {k : ℕ}
    (hopen : Walk (Open start finish dict mask) k (first dict) (last dict))
    (hdist : IsDist (Adj start finish dict) (first dict) (last dict) k) :
    ∃ ws, ShortestLadder start finish dict ws ∧ Fresh dict mask ws := by
  obtain ⟨l, rfl, hchain, hlast⟩ := exists_chain_of_walk hopen
  have hshort : Shortest (Adj start finish dict) (last dict) (first dict) l :=
    .of_chain hdist (hchain.imp fun u v huv => (open_iff.mp huv).1) hlast
  obtain ⟨hladder, hnodes⟩ := ladder_of_shortest hne hshort
  refine ⟨_, (shortestLadder_iff hne).mpr ⟨hladder, by rwa [← hnodes]⟩, ?_⟩
  intro v hv
  rw [← hnodes] at hv
  obtain ⟨x, hx⟩ := exists_step_of_chain hchain hv
  exact (open_iff.mp hx).2.2

/-- **The length is right** exactly when the marks of some shortest ladder are `0` in the memory
that `new` returns. -/
theorem ladderLength_iff (start finish : Word m) (dict : Dict m) (mask : ℕ → UInt8)
    (hne : start ≠ finish) :
    (∃ ws, ShortestLadder start finish dict ws ∧
        ladderLength start finish dict mask = some ws.length) ↔
      ∃ ws, ShortestLadder start finish dict ws ∧ Fresh dict mask ws := by
  constructor
  · rintro ⟨ws, hws, hlength⟩
    obtain ⟨hladder, hshort⟩ := (shortestLadder_iff hne).mp hws
    rw [← length_nodes hladder, ladderLength_eq_some_iff] at hlength
    exact exists_fresh hne hlength.1 hshort.isDist
  · rintro ⟨ws, hws, hfresh⟩
    refine ⟨ws, hws, ?_⟩
    rw [← length_nodes hws.1, ladderLength_eq_some_iff]
    exact isDist_open hne hws hfresh

/-- The word of one letter. -/
def letter (c : UInt8) : Word 1 := fun _ => c

theorem shortestLadder_letters :
    ShortestLadder (letter 0x61) (letter 0x62) ⟨[], List.nodup_nil⟩ [letter 0x61, letter 0x62] := by
  refine ⟨⟨[], rfl, by simp, List.isChain_cons_cons.mpr ⟨by decide, .singleton _⟩⟩, ?_⟩
  rintro _ ⟨mid, rfl, -⟩
  simp

/-- From `a` to `b` with nothing in the dictionary, in memory that is all `0`. -/
theorem ladderLength_letters :
    ∃ ws, ShortestLadder (letter 0x61) (letter 0x62) ⟨[], List.nodup_nil⟩ ws ∧
      ladderLength (letter 0x61) (letter 0x62) ⟨[], List.nodup_nil⟩ (fun _ => 0) =
        some ws.length := by
  refine (ladderLength_iff (letter 0x61) (letter 0x62) ⟨[], List.nodup_nil⟩ (fun _ => 0) ?_).mpr
    ⟨_, shortestLadder_letters, fun _ _ => rfl⟩
  exact fun h => absurd (congrFun h 0) (by decide)

/-- The same in memory that is all `1`: a ladder exists, and no length is returned. -/
theorem ladderLength_marked :
    Ladder (letter 0x61) (letter 0x62) ⟨[], List.nodup_nil⟩ [letter 0x61, letter 0x62] ∧
      ¬ ∃ ws, ShortestLadder (letter 0x61) (letter 0x62) ⟨[], List.nodup_nil⟩ ws ∧
        ladderLength (letter 0x61) (letter 0x62) ⟨[], List.nodup_nil⟩ (fun _ => 1) =
          some ws.length := by
  refine ⟨shortestLadder_letters.1, ?_⟩
  rintro ⟨ws, hws, h⟩
  rw [← length_nodes hws.1] at h
  exact absurd (mask_last h) (by decide)

end Sperm.Leetcode.WordLadder
