import Mathlib.InformationTheory.Hamming
import Sperm.Lib.Walks

/-!
# Ladders of words (`word-ladder.cc`, `word-ladder-2.cc`)

Both programs number the words `start`, those of the dictionary and `end`, and look for shortest
walks from the first number to the last in the graph where two numbers are joined if their words
differ in at most one letter. A word of the dictionary may be `start` or `end` again.

* `Word`, `Dict`, `res`: the words and their numbers.
* `Ladder`, `ShortestLadder`: what the programs are to find.
* `Adj`: the graph; `isDist_change_iff`: its distances are numbers of one-letter changes.
* **`shortestLadder_iff`**: the shortest ladders are the shortest walks through the numbers of their
  words; `ladder_of_shortest`: there are no others.
-/

namespace Sperm.Leetcode.WordGraph

/-- A word of `m` letters. -/
abbrev Word (m : ℕ) := Fin m → UInt8

/-- A set of words, in the order of its iterator. -/
structure Dict (m : ℕ) where
  words : List (Word m)
  nodup : words.Nodup

variable {m : ℕ}

/-- The numbers of the words. -/
abbrev Node (dict : Dict m) := Fin (dict.words.length + 2)

/-- The vector `res`. -/
def res (start finish : Word m) (dict : Dict m) (i : Node dict) : Word m :=
  (start :: (dict.words ++ [finish])).get (i.cast (by simp))

/-- One-letter changes from `start` to `finish` through words of the dictionary. -/
def Ladder (start finish : Word m) (dict : Dict m) (ws : List (Word m)) : Prop :=
  ∃ mid, ws = start :: (mid ++ [finish]) ∧ (∀ w ∈ mid, w ∈ dict.words) ∧
    ws.IsChain fun u v => hammingDist u v = 1

def ShortestLadder (start finish : Word m) (dict : Dict m) (ws : List (Word m)) : Prop :=
  Ladder start finish dict ws ∧ ∀ ws', Ladder start finish dict ws' → ws.length ≤ ws'.length

/-! ## Numbers -/

variable {start finish : Word m} {dict : Dict m} {u v : Node dict} {w : Word m}

def first (dict : Dict m) : Node dict := ⟨0, Nat.succ_pos _⟩

def last (dict : Dict m) : Node dict := Fin.last _

/-- The number of a word of the dictionary. -/
def node (dict : Dict m) (w : Word m) : Node dict :=
  ⟨dict.words.idxOf w + 1, by have := dict.words.idxOf_le_length (a := w); omega⟩

theorem res_first : res start finish dict (first dict) = start := rfl

theorem res_last : res start finish dict (last dict) = finish := by
  simp [res, last]

theorem res_node (h : w ∈ dict.words) : res start finish dict (node dict w) = w := by
  have hlt := List.idxOf_lt_length_of_mem h
  simp [res, node, hlt]

theorem node_res (hfirst : u ≠ first dict) (hlast : u ≠ last dict) :
    res start finish dict u ∈ dict.words ∧ node dict (res start finish dict u) = u := by
  obtain ⟨i, hi⟩ := u
  cases i with
  | zero => exact absurd rfl hfirst
  | succ i =>
    have hlt : i < dict.words.length := by
      have hne : i ≠ dict.words.length := by
        rintro rfl
        exact hlast rfl
      omega
    have hres : res start finish dict ⟨i + 1, hi⟩ = dict.words[i] := by
      simp [res, hlt]
    rw [hres]
    refine ⟨List.getElem_mem hlt, Fin.ext ?_⟩
    simp [node, List.Nodup.idxOf_getElem dict.nodup]

/-! ## The graph -/

theorem hammingDist_eq_countP (x y : Word m) :
    hammingDist x y = (List.finRange m).countP fun i => x i ≠ y i := by
  rw [hammingDist, Fin.univ_def, List.countP_eq_length_filter]
  rfl

/-- Two numbers whose words differ in at most one letter. -/
def Adj (start finish : Word m) (dict : Dict m) (u v : Node dict) : Prop :=
  u ≠ v ∧ hammingDist (res start finish dict u) (res start finish dict v) ≤ 1

theorem Adj.symm (h : Adj start finish dict u v) : Adj start finish dict v u :=
  ⟨h.1.symm, by rw [hammingDist_comm]; exact h.2⟩

/-- A one-letter change to one of the words. -/
def Change (start finish : Word m) (dict : Dict m) (x y : Word m) : Prop :=
  hammingDist x y = 1 ∧ ∃ v, res start finish dict v = y

theorem walk_adj_of_change {d : ℕ} {y : Word m}
    (h : Walk (Change start finish dict) (d + 1) (res start finish dict u) y)
    (hv : res start finish dict v = y) : Walk (Adj start finish dict) (d + 1) u v := by
  have hadj : ∀ {a b : Node dict},
      hammingDist (res start finish dict a) (res start finish dict b) = 1 →
        Adj start finish dict a b := by
    intro a b hab
    refine ⟨?_, hab.le⟩
    rintro rfl
    rw [hammingDist_self] at hab
    cases hab
  induction d generalizing v y with
  | zero =>
    obtain ⟨_, rfl, hchange, -⟩ := h
    rw [← hv] at hchange
    exact .single (hadj hchange)
  | succ d ih =>
    obtain ⟨x, hx, hchange, -⟩ := h
    obtain ⟨_, _, _, a, ha⟩ := id hx
    rw [← hv, ← ha] at hchange
    exact ⟨a, ih hx ha, hadj hchange⟩

theorem walk_change_of_adj {d : ℕ} (h : Walk (Adj start finish dict) d u v) :
    ∃ e ≤ d, Walk (Change start finish dict) e (res start finish dict u)
      (res start finish dict v) := by
  induction d generalizing v with
  | zero =>
    obtain rfl : u = v := h
    exact ⟨0, le_rfl, rfl⟩
  | succ d ih =>
    obtain ⟨x, hx, hxv⟩ := h
    obtain ⟨e, hle, he⟩ := ih hx
    by_cases heq : res start finish dict x = res start finish dict v
    · rw [heq] at he
      exact ⟨e, by omega, he⟩
    · refine ⟨e + 1, by omega, _, he, ?_, v, rfl⟩
      exact le_antisymm hxv.2 (hammingDist_pos.mpr heq)

theorem isDist_change_iff {d : ℕ} (hne : res start finish dict u ≠ res start finish dict v) :
    IsDist (Change start finish dict) (res start finish dict u) (res start finish dict v) d ↔
      IsDist (Adj start finish dict) u v d := by
  have hwalk : ∀ e, Walk (Change start finish dict) e (res start finish dict u)
      (res start finish dict v) → Walk (Adj start finish dict) e u v := by
    intro e he
    cases e with
    | zero => exact absurd he hne
    | succ e => exact walk_adj_of_change he rfl
  constructor
  · rintro ⟨hd, hmin⟩
    refine ⟨hwalk d hd, fun e he => ?_⟩
    obtain ⟨e', hle, he'⟩ := walk_change_of_adj he
    exact (hmin e' he').trans hle
  · rintro ⟨hd, hmin⟩
    obtain ⟨e, hle, he⟩ := walk_change_of_adj hd
    obtain rfl : e = d := le_antisymm hle (hmin e (hwalk e he))
    exact ⟨he, fun e' he' => hmin e' (hwalk e' he')⟩

/-- Numbers of one word are equally far from the last. -/
theorem dist_le_of_res_eq {d e : ℕ} (hres : res start finish dict u = res start finish dict v)
    (hv : v ≠ last dict) (hd : IsDist (Adj start finish dict) u (last dict) d)
    (he : IsDist (Adj start finish dict) v (last dict) e) : d ≤ e := by
  cases e with
  | zero => exact absurd (IsDist.zero_iff.mp he) hv
  | succ e =>
    obtain ⟨x, hvx, hx⟩ := he.exists_step
    by_cases hux : u = x
    · subst hux
      rw [hd.unique hx]
      exact Nat.le_succ e
    · exact hd.2 (e + 1) (hx.1.cons ⟨hux, by rw [hres]; exact hvx.2⟩)

variable {l : List (Node dict)}

theorem chain_words (h : Shortest (Adj start finish dict) (last dict) u l)
    (hu : res start finish dict u ≠ finish) :
    ((u :: l).map (res start finish dict)).IsChain fun x y => hammingDist x y = 1 := by
  induction l generalizing u with
  | nil => exact List.isChain_singleton _
  | cons v l ih =>
    obtain ⟨huv, hdist, hrest⟩ := h
    have hne : res start finish dict u ≠ res start finish dict v := by
      intro heq
      by_cases hv : v = last dict
      · rw [hv, res_last] at heq
        exact hu heq
      · have hle := dist_le_of_res_eq heq hv hdist hrest.isDist
        omega
    have hone : hammingDist (res start finish dict u) (res start finish dict v) = 1 :=
      le_antisymm huv.2 (hammingDist_pos.mpr hne)
    refine List.isChain_cons_cons.mpr ⟨hone, ?_⟩
    by_cases hl : l = []
    · subst hl
      exact List.isChain_singleton _
    · refine ih hrest fun heq => ?_
      -- from `u` the last number would be one step away
      have hpos := List.length_pos_iff.mpr hl
      have hul : u ≠ last dict := by
        rintro rfl
        exact hu res_last
      have hnear := huv.2
      rw [heq] at hnear
      have hadj : Adj start finish dict u (last dict) := ⟨hul, by rw [res_last]; exact hnear⟩
      have hle := hdist.2 1 (.single hadj)
      omega

/-- The numbers of the words of a ladder, behind the first. -/
def nodes (dict : Dict m) (ws : List (Word m)) : List (Node dict) :=
  ws.tail.dropLast.map (node dict) ++ [last dict]

/-- The words of a shortest walk are a ladder, and tell the numbers. -/
theorem ladder_of_shortest (hne : start ≠ finish)
    (h : Shortest (Adj start finish dict) (last dict) (first dict) l) :
    Ladder start finish dict ((first dict :: l).map (res start finish dict)) ∧
      l = nodes dict ((first dict :: l).map (res start finish dict)) := by
  have hl : l ≠ [] := by
    rintro rfl
    have heq : first dict = last dict := h
    exact absurd (congrArg Fin.val heq) (by simp [first, last])
  obtain ⟨mid, rfl, hmid⟩ := h.exists_mid hl
  have hbetween : ∀ v ∈ mid, v ≠ first dict ∧ v ≠ last dict := by
    intro v hv
    obtain ⟨k, hpos, hlt, hk⟩ := hmid v hv
    constructor
    · rintro rfl
      exact absurd (hk.unique h.isDist) (by omega)
    · rintro rfl
      exact absurd (hk.unique (IsDist.zero_iff.mpr rfl)) (by omega)
  have hwords : (first dict :: (mid ++ [last dict])).map (res start finish dict) =
      start :: (mid.map (res start finish dict) ++ [finish]) := by
    simp [res_first, res_last]
  have hchain := chain_words h (by rw [res_first]; exact hne)
  constructor
  · refine ⟨mid.map (res start finish dict), hwords, ?_, hchain⟩
    intro w hw
    obtain ⟨v, hv, rfl⟩ := List.mem_map.mp hw
    exact (node_res (hbetween v hv).1 (hbetween v hv).2).1
  · have hnodes : (mid.map (res start finish dict)).map (node dict) = mid := by
      rw [List.map_map]
      refine (List.map_congr_left fun v hv => ?_).trans (List.map_id mid)
      exact (node_res (hbetween v hv).1 (hbetween v hv).2).2
    rw [hwords, nodes, List.tail_cons, List.dropLast_concat, hnodes]

theorem chain_of_ladder {ws : List (Word m)} (h : Ladder start finish dict ws) :
    (first dict :: nodes dict ws).map (res start finish dict) = ws ∧
      (first dict :: nodes dict ws).IsChain (Adj start finish dict) := by
  obtain ⟨mid, rfl, hmid, hchain⟩ := h
  have hwords : (first dict :: nodes dict (start :: (mid ++ [finish]))).map
      (res start finish dict) = start :: (mid ++ [finish]) := by
    have hback : (mid.map (node dict)).map (res start finish dict) = mid := by
      rw [List.map_map]
      exact (List.map_congr_left fun w hw => res_node (hmid w hw)).trans (List.map_id mid)
    rw [nodes, List.tail_cons, List.dropLast_concat, List.map_cons, List.map_append, hback]
    simp [res_first, res_last]
  refine ⟨hwords, ?_⟩
  rw [← hwords, List.isChain_map] at hchain
  refine hchain.imp fun u v huv => ⟨?_, huv.le⟩
  rintro rfl
  rw [hammingDist_self] at huv
  cases huv

theorem getLast?_nodes (ws : List (Word m)) :
    (first dict :: nodes dict ws).getLast? = some (last dict) := by
  simp [nodes, List.getLast?_cons]

theorem length_nodes {ws : List (Word m)} (h : Ladder start finish dict ws) :
    (nodes dict ws).length + 1 = ws.length := by
  have hlen := congrArg List.length (chain_of_ladder h).1
  simpa using hlen

theorem exists_dist {ws : List (Word m)} (h : Ladder start finish dict ws) :
    ∃ k, IsDist (Adj start finish dict) (first dict) (last dict) k :=
  IsDist.exists_of_walk (walk_of_chain (chain_of_ladder h).2 (getLast?_nodes ws))

/-- **The shortest ladders** are the shortest walks through the numbers of their words. -/
theorem shortestLadder_iff {ws : List (Word m)} (hne : start ≠ finish) :
    ShortestLadder start finish dict ws ↔
      Ladder start finish dict ws ∧
        Shortest (Adj start finish dict) (last dict) (first dict) (nodes dict ws) := by
  constructor
  · rintro ⟨hladder, hmin⟩
    obtain ⟨hwords, hchain⟩ := chain_of_ladder hladder
    refine ⟨hladder, .of_chain ?_ hchain (getLast?_nodes ws)⟩
    refine ⟨walk_of_chain hchain (getLast?_nodes ws), fun e he => ?_⟩
    obtain ⟨k, hk⟩ := exists_dist hladder
    obtain ⟨l, hl, rfl⟩ := Shortest.exists_of_isDist hk
    have hle := hmin _ (ladder_of_shortest hne hl).1
    have hlen := length_nodes hladder
    have hke := hk.2 e he
    simp only [List.length_map, List.length_cons] at hle
    omega
  · rintro ⟨hladder, hshort⟩
    refine ⟨hladder, fun ws' h' => ?_⟩
    have hle := hshort.isDist.2 _ (walk_of_chain (chain_of_ladder h').2 (getLast?_nodes ws'))
    have hlen := length_nodes hladder
    have hlen' := length_nodes h'
    omega

end Sperm.Leetcode.WordGraph
