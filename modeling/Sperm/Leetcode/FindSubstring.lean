import Mathlib.Algebra.Order.Ring.Nat
import Mathlib.Data.List.Nodup
import Mathlib.Tactic.Linarith
import Mathlib.Tactic.Ring
import Sperm.Lib.Tally

/-!
# Concatenations of all words (`substring-with-concatenation-of-all-words.cc`)

A window as long as all words together is moved over the text, one word at a time, from each of the
first `m` places. The words in the window are counted by their numbers in the dictionary; a piece
that is no word is not counted.

* `findSubstring` with `addS`, `delS`, `okS`, `getIndex`: the model.
* `chunk`, `chunks`: the pieces of the text.
* **`slide_spec`**: the counts are those of the pieces in the window after every move.
* **`findSubstring_spec`**: the places found, each once.

Indices are not cut to `int`.
-/

namespace Sperm.Leetcode.FindSubstring

abbrev Dict := Finmap fun _ : List UInt8 => ℕ

/-- `add_s(s, idx)`. -/
def addS (s : Tally ℕ) (idx : ℕ) : Tally ℕ := s.add idx

/-- `del_s(s, idx)`. -/
def delS (s : Tally ℕ) (idx : ℕ) : Tally ℕ := s.del idx

/-- `ok_s(s, e)`. -/
def okS (s e : Tally ℕ) : Bool := s = e

/-- `getIndex(dict, s)`, with `none` for `-1`. -/
def getIndex (dict : Dict) (s : List UInt8) : Option ℕ := dict.lookup s

/-- The loop that numbers the words, a repeated word by its last occurrence. -/
def makeDict (L : List (List UInt8)) : Dict :=
  L.zipIdx.foldl (fun dict w => dict.insert w.1 w.2) ∅

/-- The loop that counts the words; `dict[L[i]]` is there. -/
def baseSt (dict : Dict) (L : List (List UInt8)) : Tally ℕ :=
  L.foldl (fun st w => st.add ((dict.lookup w).getD 0)) ∅

/-- `S.substr(j, m)`. -/
def substr (S : List UInt8) (j m : ℕ) : List UInt8 := (S.drop j).take m

/-- The word that leaves the window at `j`, if the window is full. -/
def evict (S : List UInt8) (dict : Dict) (n m : ℕ) (st : Tally ℕ) (j : ℕ) : Tally ℕ :=
  let ev : ℤ := j - n * m
  if 0 ≤ ev then
    match getIndex dict (substr S ev.toNat m) with
    | some idx => delS st idx
    | none => st
  else st

/-- The word that enters the window at `j`. -/
def enter (S : List UInt8) (dict : Dict) (m : ℕ) (st : Tally ℕ) (j : ℕ) : Tally ℕ :=
  match getIndex dict (substr S j m) with
  | some idx => addS st idx
  | none => st

/-- One pass of the inner loop, with `st` and `res`. -/
def slide (S : List UInt8) (dict : Dict) (base : Tally ℕ) (n m : ℕ) (x : Tally ℕ × List ℤ) (j : ℕ) :
    Tally ℕ × List ℤ :=
  let st := enter S dict m (evict S dict n m x.1 j) j
  if okS st base then (st, x.2 ++ [(j : ℤ) - (n - 1) * m]) else (st, x.2)

/-- `j = i, i + m, i + 2 * m, ...` below `len`. -/
def places (len m i : ℕ) : List ℕ := List.range' i ((len - i + (m - 1)) / m) m

/-- `findSubstring(S, L)`; `L[0]` is there. -/
def findSubstring (S : List UInt8) (L : List (List UInt8)) : List ℤ :=
  let n := L.length
  let m := (L.headD []).length
  let dict := makeDict L
  let base := baseSt dict L
  (List.range m).foldl
    (fun res i => ((places S.length m i).foldl (slide S dict base n m) (∅, res)).2) []

/-! ## The dictionary -/

variable {S : List UInt8} {L : List (List UInt8)} {w : List UInt8} {n m i j k : ℕ}

theorem lookup_foldl_insert (l : List (List UInt8 × ℕ)) (dict : Dict) :
    (l.foldl (fun dict w => dict.insert w.1 w.2) dict).lookup w =
      ((l.reverse.find? fun x => x.1 = w).map Prod.snd).or (dict.lookup w) := by
  induction l generalizing dict with
  | nil => simp
  | cons x l ih =>
    rw [List.foldl_cons, ih, List.reverse_cons, List.find?_append]
    by_cases hx : x.1 = w
    · subst hx
      cases hfind : l.reverse.find? fun y => y.1 = x.1 with
      | none => simp
      | some y => simp
    · have hne : w ≠ x.1 := Ne.symm hx
      cases hfind : l.reverse.find? fun y => y.1 = w with
      | none => simp [hx, Finmap.lookup_insert_of_ne _ hne]
      | some y => simp

theorem getElem_of_lookup (h : (makeDict L).lookup w = some k) : L[k]? = some w := by
  rw [makeDict, lookup_foldl_insert] at h
  simp only [Finmap.lookup_empty, Option.or_none] at h
  obtain ⟨⟨v, j⟩, hfind, rfl⟩ := Option.map_eq_some_iff.mp h
  have hmem := List.mem_of_find?_eq_some hfind
  have heq := List.find?_some hfind
  simp only [decide_eq_true_eq] at heq
  rw [List.mem_reverse, List.mem_zipIdx_iff_getElem?] at hmem
  rw [← heq]
  exact hmem

theorem exists_lookup (h : w ∈ L) : ∃ k, (makeDict L).lookup w = some k := by
  obtain ⟨k, hk, rfl⟩ := List.getElem_of_mem h
  rw [makeDict, lookup_foldl_insert]
  simp only [Finmap.lookup_empty, Option.or_none]
  cases hfind : L.zipIdx.reverse.find? fun x => x.1 = L[k] with
  | some y => exact ⟨y.2, rfl⟩
  | none =>
    have hmem : (L[k], k) ∈ L.zipIdx.reverse := by
      rw [List.mem_reverse, List.mem_zipIdx_iff_getElem?]
      exact List.getElem?_eq_getElem hk
    simpa using List.find?_eq_none.mp hfind _ hmem

/-- The numbers of the pieces that are words. -/
def numbers (L ws : List (List UInt8)) : List ℕ := ws.filterMap (getIndex (makeDict L))

theorem filterMap_getElem_numbers (ws : List (List UInt8)) :
    (numbers L ws).filterMap (L[·]?) = ws.filter fun w => (getIndex (makeDict L) w).isSome := by
  rw [numbers, List.filterMap_filterMap, ← List.filterMap_eq_filter]
  refine List.filterMap_congr fun w _ => ?_
  cases hw : getIndex (makeDict L) w with
  | none => simp [Option.guard, hw]
  | some k => simp [Option.guard, hw, getElem_of_lookup hw]

theorem filter_words : (L.filter fun w => (getIndex (makeDict L) w).isSome) = L := by
  refine List.filter_eq_self.mpr fun w hw => ?_
  obtain ⟨k, hk⟩ := exists_lookup hw
  rw [getIndex, hk]
  rfl

/-- No more pieces than words: the same numbers mean the same words. -/
theorem numbers_perm_iff {ws : List (List UInt8)} (hlen : ws.length ≤ L.length) :
    (numbers L ws).Perm (numbers L L) ↔ ws.Perm L := by
  constructor
  · intro h
    have hwords := h.filterMap (L[·]?)
    rw [filterMap_getElem_numbers, filterMap_getElem_numbers, filter_words] at hwords
    have hall : ws.filter (fun w => (getIndex (makeDict L) w).isSome) = ws := by
      refine List.filter_sublist.eq_of_length_le ?_
      rw [hwords.length_eq]
      exact hlen
    rwa [hall] at hwords
  · intro h
    exact h.filterMap _

theorem stands_baseSt : (baseSt (makeDict L) L).Stands (numbers L L) := by
  have hloop : ∀ (ws : List (List UInt8)) (st : Tally ℕ) (l : List ℕ), (∀ w ∈ ws, w ∈ L) →
      st.Stands l → (ws.foldl (fun st w => st.add (((makeDict L).lookup w).getD 0)) st).Stands
        (numbers L ws ++ l) := by
    intro ws
    induction ws with
    | nil => exact fun st l _ h => h
    | cons w ws ih =>
      intro st l hws hst
      obtain ⟨hw, hrest⟩ := List.forall_mem_cons.mp hws
      obtain ⟨k, hk⟩ := exists_lookup hw
      have hnumbers : numbers L (w :: ws) = k :: numbers L ws := by
        simp [numbers, getIndex, hk]
      rw [List.foldl_cons, hk, hnumbers]
      exact (ih _ _ hrest (hst.add k)).perm List.perm_middle
  have hall := hloop L ∅ [] (fun _ h => h) Tally.stands_empty
  rwa [List.append_nil] at hall

/-! ## The window -/

/-- `n` pieces from `s` on. -/
def chunks (S : List UInt8) (m s n : ℕ) : List (List UInt8) :=
  (List.range n).map fun r => substr S (s + r * m) m

/-- The last pieces before the `T`-th of those that start at `i`, at most `n` of them. -/
def window (S : List UInt8) (m n i T : ℕ) : List (List UInt8) :=
  chunks S m (i + (T - n) * m) (T - (T - n))

theorem chunks_succ (S : List UInt8) (m s n : ℕ) :
    chunks S m s (n + 1) = chunks S m s n ++ [substr S (s + n * m) m] := by
  simp [chunks, List.range_succ]

theorem chunks_cons (S : List UInt8) (m s n : ℕ) :
    chunks S m s (n + 1) = substr S s m :: chunks S m (s + m) n := by
  simp only [chunks, List.range_succ_eq_map, List.map_cons, List.map_map, Nat.zero_mul,
    Nat.add_zero, List.cons.injEq, true_and]
  refine List.map_congr_left fun r _ => ?_
  simp only [Function.comp_apply, Nat.succ_eq_add_one, Nat.add_mul, Nat.one_mul]
  congr 1
  omega

theorem numbers_append (L u v : List (List UInt8)) :
    numbers L (u ++ v) = numbers L u ++ numbers L v := List.filterMap_append

variable {st : Tally ℕ} {u : List (List UInt8)}

theorem stands_enter (h : st.Stands (numbers L u)) :
    (enter S (makeDict L) m st j).Stands (numbers L (u ++ [substr S j m])) := by
  rw [numbers_append, enter]
  cases hw : getIndex (makeDict L) (substr S j m) with
  | none =>
    have hnone : numbers L [substr S j m] = [] := by simp [numbers, hw]
    rw [hnone, List.append_nil]
    exact h
  | some idx =>
    have hsome : numbers L [substr S j m] = [idx] := by simp [numbers, hw]
    rw [hsome]
    exact (h.add idx).perm (List.perm_append_singleton idx _).symm

/-- What is left of the window when the next piece enters. -/
def rest (S : List UInt8) (m n i T : ℕ) : List (List UInt8) :=
  chunks S m (i + (T + 1 - n) * m) (T - (T + 1 - n))

theorem window_succ (hn : 0 < n) (T : ℕ) :
    window S m n i (T + 1) = rest S m n i T ++ [substr S (i + T * m) m] := by
  have hlen : T + 1 - (T + 1 - n) = T - (T + 1 - n) + 1 := by omega
  have hplace : i + (T + 1 - n) * m + (T - (T + 1 - n)) * m = i + T * m := by
    rw [Nat.add_assoc, ← Nat.add_mul]
    congr 2
    omega
  rw [window, hlen, chunks_succ, hplace, rest]

theorem window_full (hn : 0 < n) {T : ℕ} (hT : n ≤ T) :
    window S m n i T = substr S (i + (T - n) * m) m :: rest S m n i T := by
  have hlen : T - (T - n) = T - (T + 1 - n) + 1 := by omega
  have hplace : i + (T - n) * m + m = i + (T + 1 - n) * m := by
    have hsucc : T + 1 - n = T - n + 1 := by omega
    rw [hsucc, Nat.add_mul, Nat.one_mul, Nat.add_assoc]
  rw [window, hlen, chunks_cons, hplace, rest]

theorem window_short {T : ℕ} (hT : T < n) : window S m n i T = rest S m n i T := by
  have h0 : T - n = 0 := by omega
  have h1 : T + 1 - n = 0 := by omega
  rw [window, rest, h0, h1]

theorem evict_place (hi : i < m) (T : ℕ) :
    (n ≤ T → ((i + T * m : ℕ) : ℤ) - n * m = (i + (T - n) * m : ℕ)) ∧
      (T < n → ((i + T * m : ℕ) : ℤ) - n * m < 0) := by
  constructor
  · intro hT
    obtain ⟨r, rfl⟩ := Nat.exists_eq_add_of_le hT
    push_cast [Nat.add_sub_cancel_left]
    ring
  · intro hT
    have hmul : (T + 1) * m ≤ n * m := Nat.mul_le_mul_right m hT
    rw [Nat.add_mul] at hmul
    have hless : i + T * m < n * m := by omega
    have hcast : ((i + T * m : ℕ) : ℤ) < (n * m : ℕ) := by exact_mod_cast hless
    push_cast at hcast ⊢
    linarith

theorem stands_evict (hn : 0 < n) (hi : i < m) {T : ℕ}
    (h : st.Stands (numbers L (window S m n i T))) :
    (evict S (makeDict L) n m st (i + T * m)).Stands (numbers L (rest S m n i T)) := by
  unfold evict
  by_cases hT : n ≤ T
  · rw [window_full hn hT] at h
    rw [(evict_place hi T).1 hT]
    simp only [Int.natCast_nonneg, if_true, Int.toNat_natCast]
    cases hw : getIndex (makeDict L) (substr S (i + (T - n) * m) m) with
    | none => simpa [numbers, hw] using h
    | some idx =>
      refine Tally.Stands.del ?_
      simpa [numbers, hw] using h
  · have hneg := (evict_place (n := n) hi T).2 (by omega)
    rw [window_short (by omega)] at h
    simp only [not_le.mpr hneg, if_false]
    exact h

theorem length_window (S : List UInt8) (m n i T : ℕ) :
    (window S m n i T).length = T - (T - n) := by
  simp [window, chunks]

/-- The window holds the words of `L`. -/
def good (S : List UInt8) (L : List (List UInt8)) (m i t : ℕ) : Bool :=
  window S m L.length i (t + 1) |>.isPerm L

/-- **The window is moved**: the counts are those of its pieces, and the places are taken where it
holds the words. -/
theorem slide_spec (hn : 0 < L.length) (hi : i < m) (res : List ℤ) (T : ℕ) :
    ∃ st : Tally ℕ, st.Stands (numbers L (window S m L.length i T)) ∧
      ((List.range T).map fun t => i + t * m).foldl
        (slide S (makeDict L) (baseSt (makeDict L) L) L.length m) (∅, res) =
      (st, res ++ ((List.range T).filter (good S L m i)).map
        fun t => ((i + t * m : ℕ) : ℤ) - (L.length - 1) * m) := by
  induction T with
  | zero =>
    have hempty : numbers L (window S m L.length i 0) = [] := by simp [window, chunks, numbers]
    rw [hempty]
    exact ⟨∅, Tally.stands_empty, by simp⟩
  | succ T ih =>
    obtain ⟨st, hst, hfold⟩ := ih
    have hnext := stands_enter (j := i + T * m) (m := m) (S := S) (stands_evict hn hi hst)
    rw [← window_succ hn] at hnext
    have hok : okS (enter S (makeDict L) m (evict S (makeDict L) L.length m st (i + T * m))
        (i + T * m)) (baseSt (makeDict L) L) = good S L m i T := by
      rw [Bool.eq_iff_iff, okS, decide_eq_true_iff, hnext.eq_iff stands_baseSt,
        numbers_perm_iff (by rw [length_window]; omega), good, List.isPerm_iff]
    refine ⟨_, hnext, ?_⟩
    rw [List.range_succ, List.map_append, List.foldl_append, hfold, List.filter_append]
    simp only [List.map_cons, List.map_nil, List.foldl_cons, List.foldl_nil, slide, hok]
    cases hgood : good S L m i T with
    | true => simp [hgood]
    | false => simp [hgood]

/-! ## The places found -/

theorem lt_passes (hm : 0 < m) (len i t : ℕ) :
    t < (len - i + (m - 1)) / m ↔ i + t * m < len := by
  rw [Nat.lt_iff_add_one_le, Nat.le_div_iff_mul_le hm, Nat.add_mul, Nat.one_mul]
  omega

theorem places_eq (len m i : ℕ) :
    places len m i = (List.range ((len - i + (m - 1)) / m)).map fun t => i + t * m := by
  refine List.ext_getElem (by simp [places]) fun t h₁ h₂ => ?_
  simp [places, Nat.mul_comm]

/-- The places that are found from `i` on. -/
def found (S : List UInt8) (L : List (List UInt8)) (m i : ℕ) : List ℤ :=
  ((List.range ((S.length - i + (m - 1)) / m)).filter (good S L m i)).map
    fun t => ((i + t * m : ℕ) : ℤ) - (L.length - 1) * m

theorem foldl_found (hn : 0 < L.length) (l : List ℕ) (hl : ∀ i ∈ l, i < m) (res : List ℤ) :
    l.foldl (fun res i => ((places S.length m i).foldl
      (slide S (makeDict L) (baseSt (makeDict L) L) L.length m) (∅, res)).2) res =
      res ++ l.flatMap (found S L m) := by
  induction l generalizing res with
  | nil => simp
  | cons i l ih =>
    obtain ⟨hi, hrest⟩ := List.forall_mem_cons.mp hl
    obtain ⟨st, -, hfold⟩ := slide_spec (S := S) hn hi res ((S.length - i + (m - 1)) / m)
    rw [List.foldl_cons, places_eq, hfold, ih hrest, List.flatMap_cons, found, List.append_assoc]

theorem flatten_chunks (S : List UInt8) (m s n : ℕ) :
    (chunks S m s n).flatten = substr S s (n * m) := by
  induction n with
  | zero => simp [chunks, substr]
  | succ n ih =>
    rw [chunks_succ, List.flatten_append, ih, List.flatten_singleton]
    simp only [substr]
    rw [Nat.succ_mul, List.take_add, List.drop_drop]

/-- Words of one length are the pieces of their concatenation. -/
theorem chunks_eq_iff {s : ℕ} {l : List (List UInt8)} (hm : 0 < m) (hl : l ≠ [])
    (hlen : ∀ w ∈ l, w.length = m) :
    chunks S m s l.length = l ↔
      s + l.length * m ≤ S.length ∧ substr S s (l.length * m) = l.flatten := by
  have hpos : 0 < l.length * m := Nat.mul_pos (List.length_pos_iff.mpr hl) hm
  have hflat : l.flatten.length = l.length * m := by
    rw [List.length_flatten, List.map_congr_left hlen]
    simp
  constructor
  · intro h
    have heq : substr S s (l.length * m) = l.flatten := by rw [← flatten_chunks, h]
    refine ⟨?_, heq⟩
    have hsize := congrArg List.length heq
    rw [hflat, substr, List.length_take, List.length_drop] at hsize
    omega
  · rintro ⟨hle, heq⟩
    rw [List.eq_iff_flatten_eq, flatten_chunks]
    refine ⟨heq, ?_⟩
    have hchunk : ∀ r ∈ List.range l.length, (substr S (s + r * m) m).length = m := by
      intro r hr
      have hmul : (r + 1) * m ≤ l.length * m := Nat.mul_le_mul_right m (List.mem_range.mp hr)
      rw [Nat.add_mul] at hmul
      rw [substr, List.length_take, List.length_drop]
      omega
    rw [List.map_congr_left hlen, chunks, List.map_map]
    refine (List.map_congr_left hchunk).trans ?_
    simp

theorem mem_found (hm : 0 < m) {x : ℤ} : x ∈ found S L m i ↔
    ∃ t, i + t * m < S.length ∧ (window S m L.length i (t + 1)).Perm L ∧
      ((i + t * m : ℕ) : ℤ) - (L.length - 1) * m = x := by
  simp only [found, List.mem_map, List.mem_filter, List.mem_range, lt_passes hm, good,
    List.isPerm_iff, and_assoc]

/-- The window that holds the words starts `n` pieces before its end. -/
theorem good_place (hn : 0 < n) {t : ℕ} (ht : n ≤ t + 1) :
    ((i + t * m : ℕ) : ℤ) - (n - 1) * m = (i + (t + 1 - n) * m : ℕ) := by
  obtain ⟨r, hr⟩ := Nat.exists_eq_add_of_le ht
  obtain rfl : t = n + r - 1 := by omega
  have hsub : n + r - 1 + 1 - n = r := by omega
  have hcast : ((n + r - 1 : ℕ) : ℤ) = n + r - 1 := by omega
  rw [hsub]
  push_cast [hcast]
  ring

/-- A concatenation of the words stands at `s`. -/
def Concatenated (S : List UInt8) (L : List (List UInt8)) (m s : ℕ) : Prop :=
  s + L.length * m ≤ S.length ∧
    ∃ l : List (List UInt8), l.Perm L ∧ substr S s (L.length * m) = l.flatten

theorem concatenated_iff (hm : 0 < m) (hL : L ≠ []) (hlen : ∀ w ∈ L, w.length = m) {s : ℕ} :
    Concatenated S L m s ↔ (chunks S m s L.length).Perm L := by
  constructor
  · rintro ⟨hle, l, hl, heq⟩
    have hne : l ≠ [] := fun h => hL (List.nil_perm.mp (h ▸ hl))
    have hchunks := (chunks_eq_iff (S := S) (s := s) hm hne
      fun w hw => hlen w (hl.mem_iff.mp hw)).mpr
    rw [hl.length_eq] at hchunks
    rw [hchunks ⟨hle, heq⟩]
    exact hl
  · intro h
    have hne : chunks S m s L.length ≠ [] := fun hnil => hL (List.nil_perm.mp (hnil ▸ h))
    have hchunks := (chunks_eq_iff (S := S) (s := s) hm hne
      fun w hw => hlen w (h.mem_iff.mp hw)).mp
    rw [h.length_eq] at hchunks
    obtain ⟨hle, heq⟩ := hchunks rfl
    exact ⟨hle, _, h, heq⟩

theorem mem_found_iff (hm : 0 < m) (hL : L ≠ []) (hlen : ∀ w ∈ L, w.length = m) {x : ℤ} :
    (∃ i < m, x ∈ found S L m i) ↔ ∃ s : ℕ, x = s ∧ Concatenated S L m s := by
  have hn : 0 < L.length := List.length_pos_iff.mpr hL
  simp only [mem_found hm, concatenated_iff hm hL hlen]
  constructor
  · rintro ⟨i, hi, t, ht, hperm, rfl⟩
    have hfull : L.length ≤ t + 1 := by
      have hsize := hperm.length_eq
      rw [length_window] at hsize
      omega
    have hwindow : t + 1 - (t + 1 - L.length) = L.length := by omega
    refine ⟨_, good_place hn hfull, ?_⟩
    rwa [window, hwindow] at hperm
  · rintro ⟨s, rfl, hperm⟩
    obtain ⟨hle, -⟩ := (concatenated_iff hm hL hlen).mpr hperm
    obtain ⟨q, hplace⟩ : ∃ q, s % m + q * m = s := ⟨s / m, Nat.mod_add_div' s m⟩
    have hwindow : q + (L.length - 1) + 1 - L.length = q := by omega
    refine ⟨s % m, Nat.mod_lt s hm, q + (L.length - 1), ?_, ?_, ?_⟩
    · rw [Nat.add_mul, ← Nat.add_assoc, hplace]
      have hmul : (L.length - 1) * m + m = L.length * m := by
        rw [← Nat.succ_mul, Nat.succ_eq_add_one, Nat.sub_add_cancel hn]
      omega
    · have hcount : q + (L.length - 1) + 1 - q = L.length := by omega
      rw [window, hwindow, hcount, hplace]
      exact hperm
    · rw [good_place hn (by omega), hwindow, hplace]

theorem nodup_found (hm : 0 < m) : ((List.range m).flatMap (found S L m)).Nodup := by
  have hplace : ∀ i j t u, i < m → j < m →
      ((i + t * m : ℕ) : ℤ) - (L.length - 1) * m = ((j + u * m : ℕ) : ℤ) - (L.length - 1) * m →
      i = j ∧ t = u := by
    intro i j t u hi hj h
    have hsum : i + t * m = j + u * m := by omega
    have hmod := congrArg (· % m) hsum
    simp only [Nat.add_mul_mod_self_right, Nat.mod_eq_of_lt hi, Nat.mod_eq_of_lt hj] at hmod
    subst hmod
    exact ⟨rfl, Nat.eq_of_mul_eq_mul_right hm (Nat.add_left_cancel hsum)⟩
  rw [List.nodup_flatMap]
  constructor
  · intro i hi
    refine (List.nodup_range.filter _).map_on ?_
    intro t _ u _ h
    exact (hplace i i t u (List.mem_range.mp hi) (List.mem_range.mp hi) h).2
  · refine List.nodup_range.imp_of_mem ?_
    intro i j hi hj hne x hx hy
    obtain ⟨t, -, -, ht⟩ := (mem_found hm).mp hx
    obtain ⟨u, -, -, hu⟩ := (mem_found hm).mp hy
    exact hne (hplace i j t u (List.mem_range.mp hi) (List.mem_range.mp hj) (ht.trans hu.symm)).1

/-- **The places found** are those where a concatenation of the words stands, each once. -/
theorem findSubstring_spec (S : List UInt8) (L : List (List UInt8)) (m : ℕ) (hm : 0 < m)
    (hL : L ≠ []) (hlen : ∀ w ∈ L, w.length = m) :
    (findSubstring S L).Nodup ∧
      ∀ x, x ∈ findSubstring S L ↔ ∃ s : ℕ, x = s ∧ Concatenated S L m s := by
  have hn : 0 < L.length := List.length_pos_iff.mpr hL
  have hhead : (L.headD []).length = m := by
    obtain ⟨w, L, rfl⟩ := List.exists_cons_of_ne_nil hL
    exact hlen w List.mem_cons_self
  have hfound : findSubstring S L = (List.range m).flatMap (found S L m) := by
    simp only [findSubstring, hhead]
    rw [foldl_found hn _ fun i hi => List.mem_range.mp hi]
    rfl
  rw [hfound]
  refine ⟨nodup_found hm, fun x => ?_⟩
  rw [List.mem_flatMap]
  simp only [List.mem_range]
  exact mem_found_iff hm hL hlen

/-- The words `b` and `a` in the text `ab`. -/
theorem findSubstring_two_words : (0 : ℤ) ∈ findSubstring [0x61, 0x62] [[0x62], [0x61]] := by
  have hspec := findSubstring_spec [0x61, 0x62] [[0x62], [0x61]] 1 (by decide) (by decide)
    (by decide)
  refine (hspec.2 0).mpr ⟨0, rfl, by decide, [[0x61], [0x62]], ?_, rfl⟩
  exact List.Perm.swap _ _ _

end Sperm.Leetcode.FindSubstring
