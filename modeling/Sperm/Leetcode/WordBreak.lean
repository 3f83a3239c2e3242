import Sperm.Lib.IntervalTable
import Sperm.Lib.Segmentation

/-!
# Word break (`word-break.cc`, `word-break-2.cc`)

`Solution1` asks whether a string is a sequence of dictionary words: it cuts an interval anywhere
and keeps its answers in a table. `Solution` lists all such sequences: it walks down a trie from
every position at which a word has ended. The table has `n * n` entries, a product of two `int`s:
where it overflows, or the length itself is no `int`, there is no result, and where it does not,
every index fits as well.

* `Solution1.wb` with the table `dp`; `Breaks`, what its answers mean, and `wb_spec`.
* `Trie` with `buildTrie`; `eofAt`, what a word finds there.
* `matchTrie` on the trie, the stack of word ends and the sentences so far; `matchTrie_spec`.
* **`wordBreak_complete_iff`**: the sentences are those of all segmentations, each once, exactly if
  the size of the table does not overflow.
-/

namespace Sperm.Leetcode.WordBreak

open IntervalTable (Table cell Sound)

/-! ## The table -/

namespace Solution1

variable (s : List UInt8) (dict : List (List UInt8))

/-- `getIndex(i, j)`. -/
def getIndex (i j : ℕ) : ℕ := cell s.length i j

mutual

/-- `wb(s, f, e, dict)`: the answer for the interval from `f` to `e`, and the table after it. -/
def wb (f e : ℕ) (dp : Table) : Bool × Table :=
  if f > e then (true, dp)
  else if dp (getIndex s f e) ≠ -1 then (dp (getIndex s f e) == 1, dp)
  else
    let r := if (s.drop f).take (e - f + 1) ∈ dict then (true, dp) else
      wbLoop f e (f + 1) (Nat.lt_succ_self f) dp
    (r.1, Function.update r.2 (getIndex s f e) (if r.1 then 1 else 0))
termination_by (e + 1 - f, e + 1)

/-- The loop of `wb` from `i` on. -/
def wbLoop (f e i : ℕ) (hi : f < i) (dp : Table) : Bool × Table :=
  if i ≤ e then
    let b1 := wb f (i - 1) dp
    let b2 := wb i e b1.2
    if b1.1 && b2.1 then (true, b2.2) else wbLoop f e (i + 1) (Nat.lt_succ_of_lt hi) b2.2
  else (false, dp)
termination_by (e + 1 - f, e + 1 - i)

end

/-- `wordBreak(s, dict)`. -/
def wordBreak : Option Bool :=
  if s.length = 0 then some true
  else if 2 ^ 31 ≤ s.length * s.length then none
  else some (wb s dict 0 (s.length - 1) IntervalTable.empty).1

/-! ## What the answers mean -/

/-- The interval from `f` to `e` is a sequence of words. -/
def Breaks (f e : ℕ) : Prop := Segmentable (· ∈ dict) ((s.drop f).take (e + 1 - f))

/-- The answer for an interval is right, and so are those in the table after it. -/
def Answers (f e : ℕ) (r : Bool × Table) : Prop :=
  (r.1 = true ↔ Breaks s dict f e) ∧ Sound (Breaks s dict) s.length r.2

variable {s dict}

theorem take_drop_cut {f e j : ℕ} (hf : f ≤ j) (he : j ≤ e + 1) :
    (s.drop f).take (e + 1 - f) = (s.drop f).take (j - f) ++ (s.drop j).take (e + 1 - j) := by
  have hsum : e + 1 - f = (j - f) + (e + 1 - j) := by omega
  rw [hsum, List.take_add, List.drop_drop, show f + (j - f) = j by omega]

theorem length_interval {f e : ℕ} (he : e < s.length) :
    ((s.drop f).take (e + 1 - f)).length = e + 1 - f := by
  rw [List.length_take, List.length_drop]
  omega

/-- An interval is a word, or it is cut somewhere. -/
theorem breaks_iff {f e : ℕ} (hf : f ≤ e) (he : e < s.length) :
    Breaks s dict f e ↔ (s.drop f).take (e - f + 1) ∈ dict ∨
      ∃ j, f < j ∧ j ≤ e ∧ Breaks s dict f (j - 1) ∧ Breaks s dict j e := by
  have hlen := length_interval (f := f) he
  have hne : (s.drop f).take (e + 1 - f) ≠ [] := by
    apply List.ne_nil_of_length_pos
    omega
  rw [Breaks, segmentable_iff hne, show e + 1 - f = e - f + 1 by omega]
  refine or_congr_right ⟨?_, ?_⟩
  · rintro ⟨u, v, huv, hu, hv, hsu, hsv⟩
    have hu' := List.length_pos_iff.mpr hu
    have hv' := List.length_pos_iff.mpr hv
    rw [show e - f + 1 = e + 1 - f by omega] at huv
    have hl := congrArg List.length huv
    rw [hlen, List.length_append] at hl
    have hcut := take_drop_cut (s := s) (f := f) (e := e) (j := f + u.length) (by omega) (by omega)
    rw [huv] at hcut
    obtain ⟨h₁, h₂⟩ := List.append_inj hcut
      (by rw [List.length_take, List.length_drop]; omega)
    refine ⟨f + u.length, by omega, by omega, ?_, ?_⟩
    · rw [Breaks, show f + u.length - 1 + 1 - f = f + u.length - f by omega, ← h₁]
      exact hsu
    · rw [Breaks, ← h₂]
      exact hsv
  · rintro ⟨j, hfj, hje, h₁, h₂⟩
    rw [show e - f + 1 = e + 1 - f by omega]
    rw [Breaks, show j - 1 + 1 - f = j - f by omega] at h₁
    refine ⟨_, _, take_drop_cut hfj.le (by omega), ?_, ?_, h₁, h₂⟩ <;>
      apply List.ne_nil_of_length_pos <;> rw [List.length_take, List.length_drop] <;> omega

theorem wbLoop_spec {f e : ℕ} (he : e < s.length)
    (ih : ∀ f' e' dp, e' + 1 - f' < e + 1 - f → e' < s.length →
      Sound (Breaks s dict) s.length dp → Answers s dict f' e' (wb s dict f' e' dp))
    {i : ℕ} (hi : f < i) {dp : Table} (hdp : Sound (Breaks s dict) s.length dp) :
    ((wbLoop s dict f e i hi dp).1 = true ↔
      ∃ j, i ≤ j ∧ j ≤ e ∧ Breaks s dict f (j - 1) ∧ Breaks s dict j e) ∧
        Sound (Breaks s dict) s.length (wbLoop s dict f e i hi dp).2 := by
  induction hn : e + 1 - i generalizing i dp with
  | zero =>
    rw [wbLoop, if_neg (by omega)]
    refine ⟨iff_of_false nofun ?_, hdp⟩
    rintro ⟨j, hij, hje, -⟩
    omega
  | succ n ihn =>
    obtain ⟨h₁, hdp₁⟩ := ih f (i - 1) dp (by omega) (by omega) hdp
    obtain ⟨h₂, hdp₂⟩ := ih i e _ (by omega) he hdp₁
    rw [wbLoop, if_pos (by omega)]
    simp only
    split_ifs with hb
    · rw [Bool.and_eq_true, h₁, h₂] at hb
      exact ⟨iff_of_true rfl ⟨i, le_rfl, by omega, hb⟩, hdp₂⟩
    · rw [Bool.and_eq_true, h₁, h₂] at hb
      obtain ⟨hres, hsound⟩ := ihn (Nat.lt_succ_of_lt hi) hdp₂ (by omega)
      refine ⟨hres.trans ⟨?_, ?_⟩, hsound⟩
      · rintro ⟨j, hij, hj⟩
        exact ⟨j, by omega, hj⟩
      · rintro ⟨j, hij, hje, hj⟩
        have hne : i ≠ j := fun h => hb (h ▸ hj)
        exact ⟨j, by omega, hje, hj⟩

theorem answers_store {f e : ℕ} (he : e < s.length) {r : Bool × Table}
    (h : Answers s dict f e r) :
    Answers s dict f e (r.1, Function.update r.2 (getIndex s f e) (if r.1 then 1 else 0)) :=
  ⟨h.1, IntervalTable.sound_update h.2 he h.1⟩

theorem wb_spec {f e : ℕ} (he : e < s.length) {dp : Table}
    (hdp : Sound (Breaks s dict) s.length dp) : Answers s dict f e (wb s dict f e dp) := by
  induction hn : e + 1 - f using Nat.strong_induction_on generalizing f e dp with
  | _ n ih =>
    rw [wb]
    split_ifs with hfe hmemo hmem
    · refine ⟨iff_of_true rfl ?_, hdp⟩
      rw [Breaks, show e + 1 - f = 0 by omega, List.take_zero]
      exact segmentable_nil
    · exact ⟨beq_iff_eq.trans (hdp.eq_one_iff he hmemo), hdp⟩
    · apply answers_store he
      exact ⟨iff_of_true rfl ((breaks_iff (not_lt.mp hfe) he).mpr (.inl hmem)), hdp⟩
    · apply answers_store he
      obtain ⟨hres, hsound⟩ := wbLoop_spec he
        (fun f' e' dp' hlt he' hdp' => ih _ (by omega) he' hdp' rfl) (Nat.lt_succ_self f) hdp
      refine ⟨hres.trans ?_, hsound⟩
      rw [breaks_iff (not_lt.mp hfe) he, or_iff_right hmem]
      rfl

theorem wordBreak_of_overflow (h : 2 ^ 31 ≤ s.length * s.length) : wordBreak s dict = none := by
  have hne : s.length ≠ 0 := by
    intro hs
    rw [hs] at h
    omega
  rw [wordBreak, if_neg hne, if_pos h]

/-- **The table answers whether the string is a sequence of words.** -/
theorem wordBreak_of_lt (h : s.length * s.length < 2 ^ 31) :
    ∃ b, wordBreak s dict = some b ∧ (b = true ↔ Segmentable (· ∈ dict) s) := by
  rw [wordBreak, if_neg (not_le.mpr h)]
  split_ifs with hs
  · rw [List.length_eq_zero_iff] at hs
    subst hs
    exact ⟨true, rfl, iff_of_true rfl segmentable_nil⟩
  · have hwb : Answers s dict 0 (s.length - 1) _ := wb_spec (by omega) IntervalTable.sound_empty
    refine ⟨_, rfl, ?_⟩
    rw [hwb.1, Breaks, List.drop_zero, show s.length - 1 + 1 - 0 = s.length by omega,
      List.take_length]

end Solution1

/-- `Solution::wordBreak` of `word-break.cc`, which has the text of `Solution1` over again. -/
def wordBreakOne (s : List UInt8) (dict : List (List UInt8)) : Option Bool :=
  Solution1.wordBreak s dict

/-! ## The trie -/

/-- What a map `sub` holds for a character: no entry, a `NULL`, or a node. The root is a node. -/
inductive Trie where
  | missing
  | null
  | node (ch : UInt8) (eof : Bool) (sub : UInt8 → Trie)

namespace Trie

/-- `new Trie()` with its `ch`. -/
def new (ch : UInt8) : Trie := .node ch false fun _ => .missing

/-- `t == NULL`, for what `sub[ch]` gives. -/
def isNull : Trie → Bool
  | .node _ _ _ => false
  | _ => true

/-- `buildTrie(p, s, f)`, with what is left of the word. -/
def build : Trie → List UInt8 → Trie
  | .node ch _ sub, [] => .node ch true sub
  | .node ch eof sub, c :: w =>
    let t := if (sub c).isNull then new c else sub c
    .node ch eof (Function.update sub c (t.build w))
  | .missing, _ => .missing
  | .null, _ => .null

/-- `buildTrie(p, dict)`. -/
def buildTrie (p : Trie) (dict : List (List UInt8)) : Trie := dict.foldl build p

/-- `eof` of the node that a word leads to, if it leads to one. -/
def eofAt : Trie → List UInt8 → Option Bool
  | .node _ eof _, [] => some eof
  | .node _ _ sub, c :: w => (sub c).eofAt w
  | .missing, _ => none
  | .null, _ => none

/-- `p->sub[ch]` at the node that a word leads to: the map gets a `NULL` if it has no entry. -/
def touch : Trie → List UInt8 → UInt8 → Trie
  | .node ch eof sub, [], c =>
    match sub c with
    | .missing => .node ch eof (Function.update sub c .null)
    | _ => .node ch eof sub
  | .node ch eof sub, d :: w, c => .node ch eof (Function.update sub d ((sub d).touch w c))
  | .missing, _, _ => .missing
  | .null, _, _ => .null

theorem eofAt_touch (t : Trie) (path : List UInt8) (c : UInt8) (w : List UInt8) :
    (t.touch path c).eofAt w = t.eofAt w := by
  induction path generalizing t w with
  | nil =>
    cases t with
    | missing => rfl
    | null => rfl
    | node ch eof sub =>
      cases hc : sub c with
      | missing =>
        rw [touch, hc]
        cases w with
        | nil => rfl
        | cons d w =>
          by_cases hd : d = c
          · subst hd
            simp [eofAt, hc]
          · simp [eofAt, Function.update_of_ne hd]
      | null => rw [touch, hc]
      | node _ _ _ => rw [touch, hc]
  | cons d path ih =>
    cases t with
    | missing => rfl
    | null => rfl
    | node ch eof sub =>
      cases w with
      | nil => rfl
      | cons d' w =>
        by_cases hd : d' = d
        · subst hd
          simp [touch, eofAt, ih]
        · simp [touch, eofAt, Function.update_of_ne hd]

/-- A word that leads nowhere is the start of no word. -/
theorem eofAt_append {t : Trie} {w : List UInt8} (h : t.eofAt w = none) (v : List UInt8) :
    t.eofAt (w ++ v) = none := by
  induction w generalizing t with
  | nil =>
    cases t with
    | node _ _ _ => cases h
    | missing => cases v <;> rfl
    | null => cases v <;> rfl
  | cons c w ih =>
    cases t with
    | missing => rfl
    | null => rfl
    | node ch eof sub => exact ih h

/-- The words of a trie. -/
def Accepts (t : Trie) (w : List UInt8) : Prop := t.eofAt w = some true

theorem not_accepts_new (c : UInt8) (w : List UInt8) : ¬ (new c).Accepts w := by
  cases w <;> nofun

theorem isNull_build {t : Trie} (h : t.isNull = false) (w : List UInt8) :
    (t.build w).isNull = false := by
  cases t with
  | missing => cases h
  | null => cases h
  | node ch eof sub => cases w <;> rfl

theorem accepts_build {t : Trie} (h : t.isNull = false) (w v : List UInt8) :
    (t.build w).Accepts v ↔ v = w ∨ t.Accepts v := by
  induction w generalizing t v with
  | nil =>
    cases t with
    | missing => cases h
    | null => cases h
    | node ch eof sub => cases v <;> simp [build, Accepts, eofAt]
  | cons c w ih =>
    cases t with
    | missing => cases h
    | null => cases h
    | node ch eof sub =>
      cases v with
      | nil => simp [build, Accepts, eofAt]
      | cons d v =>
        by_cases hd : d = c
        · subst hd
          have hsub : (if (sub d).isNull then new d else sub d).Accepts v ↔ (sub d).Accepts v := by
            split_ifs with hn
            · refine iff_of_false (not_accepts_new d v) ?_
              cases hs : sub d with
              | missing => cases v <;> nofun
              | null => cases v <;> nofun
              | node _ _ _ => rw [hs] at hn; cases hn
            · rfl
          have hnode : (if (sub d).isNull then new d else sub d).isNull = false := by
            split_ifs with hn
            · rfl
            · simpa using hn
          have := ih hnode v
          rw [hsub] at this
          simpa [build, Accepts, eofAt] using this
        · simp [build, Accepts, eofAt, hd]

/-- **The trie of a dictionary accepts its words.** -/
theorem accepts_buildTrie {t : Trie} (h : t.isNull = false) (dict : List (List UInt8))
    (v : List UInt8) : (t.buildTrie dict).Accepts v ↔ v ∈ dict ∨ t.Accepts v := by
  induction dict generalizing t with
  | nil => simp [buildTrie]
  | cons w dict ih =>
    rw [buildTrie, List.foldl_cons]
    have := ih (isNull_build h w)
    rw [buildTrie] at this
    rw [this, accepts_build h, List.mem_cons, or_left_comm, or_assoc]

end Trie

/-! ## The sentences -/

/-- The loop over `idx` that puts a sentence together: `x` is where the last word ended. -/
def sentenceLoop (s : List UInt8) : ℕ → List ℕ → List UInt8 → List UInt8
  | _, [], xs => xs
  | x, y :: idx, xs =>
    let t := (s.drop x).take (y - x)
    let xs := if x ≠ 0 then xs ++ [32] else xs
    sentenceLoop s y idx (xs ++ t)

/-- What `matchTrie` works on: the trie, the ends of the words so far, and the sentences. -/
structure MatchState where
  trie : Trie
  idx : List ℕ
  vs : List (List UInt8)

mutual

/-- `matchTrie(p, s, f, idx, vs)` with `p` at the root. -/
def matchTrie (s : List UInt8) (f : ℕ) (st : MatchState) : MatchState :=
  let st := if f = s.length then { st with vs := st.vs ++ [sentenceLoop s 0 st.idx []] } else st
  matchLoop s f f st
termination_by 2 * (s.length - f) + 1

/-- The loop of `matchTrie` from `i` on: `p` is where the characters from `f` to `i` lead. -/
def matchLoop (s : List UInt8) (f i : ℕ) (st : MatchState) : MatchState :=
  if h : i < s.length then
    let p := (s.drop f).take (i - f)
    let st := { st with trie := st.trie.touch p s[i] }
    match st.trie.eofAt (p ++ [s[i]]) with
    | none => st
    | some false => matchLoop s f (i + 1) st
    | some true =>
      let st := matchTrie s (i + 1) { st with idx := st.idx ++ [i + 1] }
      matchLoop s f (i + 1) { st with idx := st.idx.dropLast }
  else st
termination_by 2 * (s.length - i)

end

/-- `wordBreak(s, dict)` of `word-break-2.cc`. -/
def wordBreak (s : List UInt8) (dict : List (List UInt8)) : Option (List (List UInt8)) := do
  if ← Solution1.wordBreak s dict then
    pure (matchTrie s 0 ⟨(Trie.new 0).buildTrie dict, [], []⟩).vs
  else pure []

/-! ## What the walk finds -/

/-- The ends of the words of a segmentation that starts at `x`. -/
def ends : ℕ → List (List UInt8) → List ℕ
  | _, [] => []
  | x, w :: ws => (x + w.length) :: ends (x + w.length) ws

/-- The words joined by single spaces. -/
def sentence (ws : List (List UInt8)) : List UInt8 := [32].intercalate ws

variable {s : List UInt8} {dict : List (List UInt8)}

/-- The trie still accepts the words of the dictionary, the stack is as it was, and the sentences of
`segs`, segmentations from `f` on, were added. -/
structure Adds (s : List UInt8) (dict : List (List UInt8)) (f : ℕ)
    (segs : List (List (List UInt8))) (st st' : MatchState) : Prop where
  accepts : ∀ w, st'.trie.Accepts w ↔ w ∈ dict
  idx_eq : st'.idx = st.idx
  vs_eq : st'.vs = st.vs ++ segs.map fun ws => sentenceLoop s 0 (st.idx ++ ends f ws) []

theorem Adds.trans {f : ℕ} {segs segs' : List (List (List UInt8))} {st st₁ st₂ : MatchState}
    (h₁ : Adds s dict f segs st st₁) (h₂ : Adds s dict f segs' st₁ st₂) :
    Adds s dict f (segs ++ segs') st st₂ := by
  refine ⟨h₂.accepts, h₂.idx_eq.trans h₁.idx_eq, ?_⟩
  rw [h₂.vs_eq, h₁.vs_eq, h₁.idx_eq, List.map_append, List.append_assoc]

theorem adds_nil {f : ℕ} {st st' : MatchState} (h : ∀ w, st'.trie.Accepts w ↔ w ∈ dict)
    (hidx : st'.idx = st.idx) (hvs : st'.vs = st.vs) : Adds s dict f [] st st' :=
  ⟨h, hidx, by rw [hvs, List.map_nil, List.append_nil]⟩

/-- The segmentations from `f` on whose first word ends behind `i` or later. -/
def segsFrom (s : List UInt8) (dict : List (List UInt8)) (f i : ℕ) : List (List (List UInt8)) :=
  segmentationsFrom (· ∈ dict) (s.drop f) (i - f) (s.length - f)

theorem segsFrom_succ {f i : ℕ} (hf : f ≤ i) (hi : i < s.length) :
    segsFrom s dict f i = startingWith (· ∈ dict) (s.drop f)
      (segmentations (· ∈ dict) (s.drop (i + 1))) (i - f) ++ segsFrom s dict f (i + 1) := by
  rw [segsFrom, segmentationsFrom_cons _ (by omega), List.drop_drop, segsFrom,
    show f + (i - f + 1) = i + 1 by omega, show i + 1 - f = i - f + 1 by omega]

theorem segsFrom_length (f : ℕ) : segsFrom s dict f s.length = [] := segmentationsFrom_self _ _

theorem segsFrom_self {f : ℕ} (hf : f < s.length) :
    segsFrom s dict f f = segmentations (· ∈ dict) (s.drop f) := by
  have hne : s.drop f ≠ [] := by
    rw [Ne, List.drop_eq_nil_iff]
    omega
  rw [segmentations_of_ne hne, segsFrom, Nat.sub_self, List.length_drop]

theorem take_succ_drop {f i : ℕ} (hf : f ≤ i) (hi : i < s.length) :
    (s.drop f).take (i - f + 1) = (s.drop f).take (i - f) ++ [s[i]] := by
  rw [List.take_succ_eq_append_getElem (by rw [List.length_drop]; omega), List.getElem_drop]
  simp only [show f + (i - f) = i by omega]

/-- Where the trie ends, no word goes on. -/
theorem segsFrom_of_eofAt {t : Trie} (ht : ∀ w, t.Accepts w ↔ w ∈ dict) {f i : ℕ} (hf : f ≤ i)
    (h : t.eofAt ((s.drop f).take (i - f + 1)) = none) : segsFrom s dict f i = [] := by
  rw [segsFrom, segmentationsFrom, List.flatMap_eq_nil_iff]
  intro k hk
  rw [List.mem_range'_1] at hk
  have hsplit : (s.drop f).take (k + 1) =
      (s.drop f).take (i - f + 1) ++ (s.drop (i + 1)).take (k - (i - f)) := by
    rw [show k + 1 = i - f + 1 + (k - (i - f)) by omega, List.take_add, List.drop_drop,
      show f + (i - f + 1) = i + 1 by omega]
  have hnot : (s.drop f).take (k + 1) ∉ dict := by
    rw [← ht, Trie.Accepts, hsplit, Trie.eofAt_append h]
    exact (Option.some_ne_none true).symm
  exact if_neg hnot

/-- A call behind a word that ends at `i` adds the segmentations that start with this word. -/
theorem adds_pop {f i : ℕ} (hf : f ≤ i) (hi : i < s.length) (st : MatchState) {st' : MatchState}
    (hw : (s.drop f).take (i - f + 1) ∈ dict)
    (h : Adds s dict (i + 1) (segmentations (· ∈ dict) (s.drop (i + 1)))
      { st with idx := st.idx ++ [i + 1] } st') :
    Adds s dict f (startingWith (· ∈ dict) (s.drop f)
      (segmentations (· ∈ dict) (s.drop (i + 1))) (i - f)) st
        { st' with idx := st'.idx.dropLast } := by
  refine ⟨h.accepts, ?_, ?_⟩
  · rw [h.idx_eq, List.dropLast_concat]
  · have hlen : ((s.drop f).take (i - f + 1)).length = i - f + 1 := by
      rw [List.length_take, List.length_drop]
      omega
    rw [h.vs_eq, startingWith, if_pos hw, List.map_map]
    congr 1
    apply List.map_congr_left
    intro ws _
    rw [Function.comp_apply, ends, hlen, show f + (i - f + 1) = i + 1 by omega, List.append_assoc,
      List.singleton_append]

theorem matchLoop_spec {f : ℕ}
    (ih : ∀ g st, f < g → g ≤ s.length → (∀ w, st.trie.Accepts w ↔ w ∈ dict) →
      Adds s dict g (segmentations (· ∈ dict) (s.drop g)) st (matchTrie s g st))
    {i : ℕ} (hf : f ≤ i) (hi : i ≤ s.length) {st : MatchState}
    (ht : ∀ w, st.trie.Accepts w ↔ w ∈ dict) :
    Adds s dict f (segsFrom s dict f i) st (matchLoop s f i st) := by
  induction hn : s.length - i generalizing i st with
  | zero =>
    obtain rfl : i = s.length := by omega
    rw [matchLoop, dif_neg (by omega), segsFrom_length]
    exact adds_nil ht rfl rfl
  | succ n ihn =>
    have hlt : i < s.length := by omega
    have ht' : ∀ w, (st.trie.touch ((s.drop f).take (i - f)) s[i]).Accepts w ↔ w ∈ dict := by
      intro w
      rw [Trie.Accepts, Trie.eofAt_touch]
      exact ht w
    have htouch : Adds s dict f [] st
        { st with trie := st.trie.touch ((s.drop f).take (i - f)) s[i] } := adds_nil ht' rfl rfl
    rw [matchLoop, dif_pos hlt]
    simp only
    rw [← take_succ_drop hf hlt]
    split
    · next hnone =>
      rw [segsFrom_of_eofAt ht' hf hnone]
      exact htouch
    · next hfalse =>
      have hnot : (s.drop f).take (i - f + 1) ∉ dict := by
        rw [← ht', Trie.Accepts, hfalse]
        nofun
      rw [segsFrom_succ hf hlt, startingWith, if_neg hnot]
      exact htouch.trans (ihn (i := i + 1) (by omega) (by omega) ht' (by omega))
    · next htrue =>
      have hcall := ih (i + 1)
        ⟨st.trie.touch ((s.drop f).take (i - f)) s[i], st.idx ++ [i + 1], st.vs⟩
        (by omega) (by omega) ht'
      have hpop := adds_pop hf hlt ⟨_, st.idx, st.vs⟩ ((ht' _).mp htrue) hcall
      have hrest := ihn (i := i + 1) (by omega) (by omega) hpop.accepts (by omega)
      rw [segsFrom_succ hf hlt]
      exact htouch.trans (hpop.trans hrest)

theorem matchTrie_spec {f : ℕ} (hf : f ≤ s.length) (st : MatchState)
    (ht : ∀ w, st.trie.Accepts w ↔ w ∈ dict) :
    Adds s dict f (segmentations (· ∈ dict) (s.drop f)) st (matchTrie s f st) := by
  induction hn : s.length - f using Nat.strong_induction_on generalizing f st with
  | _ n ih =>
    have hcalls : ∀ g st, f < g → g ≤ s.length → (∀ w, st.trie.Accepts w ↔ w ∈ dict) →
        Adds s dict g (segmentations (· ∈ dict) (s.drop g)) st (matchTrie s g st) :=
      fun g st hfg hg ht => ih _ (by omega) hg st ht rfl
    rw [matchTrie]
    split_ifs with hend
    · subst hend
      -- the sentence of the empty rest
      have hone : Adds s dict s.length [[]] st
          { st with vs := st.vs ++ [sentenceLoop s 0 st.idx []] } :=
        ⟨ht, rfl, by rw [List.map_singleton, ends, List.append_nil]⟩
      have hloop := hone.trans (matchLoop_spec hcalls le_rfl le_rfl hone.accepts)
      rw [segsFrom_length] at hloop
      rw [List.drop_length, segmentations_nil]
      exact hloop
    · have hloop := matchLoop_spec hcalls le_rfl hf ht
      rw [segsFrom_self (by omega)] at hloop
      exact hloop

/-! ## Sentences of segmentations -/

theorem sentence_cons (w : List UInt8) (ws : List (List UInt8)) :
    sentence (w :: ws) = w ++ ws.flatMap ([32] ++ ·) := by
  induction ws generalizing w with
  | nil => simp [sentence]
  | cons v ws ih =>
    rw [sentence, List.intercalate_cons_cons, ← sentence, ih, List.flatMap_cons]
    simp

/-- Behind the first word, every word comes with a space before it. -/
theorem sentenceLoop_ends {x : ℕ} (hx : 0 < x) {ws : List (List UInt8)}
    (h : ws.flatten <+: s.drop x) (xs : List UInt8) :
    sentenceLoop s x (ends x ws) xs = xs ++ ws.flatMap ([32] ++ ·) := by
  induction ws generalizing x xs with
  | nil => simp [ends, sentenceLoop]
  | cons w ws ih =>
    obtain ⟨rest, hrest⟩ := h
    rw [List.flatten_cons, List.append_assoc] at hrest
    have hw : (s.drop x).take (x + w.length - x) = w := by
      rw [← hrest, Nat.add_sub_cancel_left, List.take_left]
    have hws : ws.flatten <+: s.drop (x + w.length) := by
      rw [← List.drop_drop, ← hrest, List.drop_left]
      exact List.prefix_append _ _
    rw [ends, sentenceLoop, hw, if_pos (by omega), ih (by omega) hws, List.flatMap_cons]
    simp

theorem sentenceLoop_of_isSegmentation {ws : List (List UInt8)}
    (h : IsSegmentation (· ∈ dict) s ws) : sentenceLoop s 0 (ends 0 ws) [] = sentence ws := by
  cases ws with
  | nil => rfl
  | cons w ws =>
    obtain ⟨hw, -, v, rfl, hv⟩ := isSegmentation_cons_iff.mp h
    have hpos := List.length_pos_iff.mpr hw
    have hws : ws.flatten <+: (w ++ v).drop w.length := by
      simp [hv.flatten_eq]
    rw [ends, sentenceLoop, if_neg (by omega), zero_add, List.drop_zero, Nat.sub_zero,
      List.take_left, List.nil_append, sentenceLoop_ends hpos hws, sentence_cons]

theorem vs_matchTrie (s : List UInt8) (dict : List (List UInt8)) :
    (matchTrie s 0 ⟨(Trie.new 0).buildTrie dict, [], []⟩).vs =
      (segmentations (· ∈ dict) s).map sentence := by
  have hroot : ∀ w, ((Trie.new 0).buildTrie dict).Accepts w ↔ w ∈ dict := fun w => by
    rw [Trie.accepts_buildTrie rfl, or_iff_left (Trie.not_accepts_new 0 w)]
  have hvs := (matchTrie_spec (Nat.zero_le s.length) ⟨(Trie.new 0).buildTrie dict, [], []⟩
    hroot).vs_eq
  rw [List.drop_zero] at hvs
  rw [hvs]
  apply List.map_congr_left
  intro ws hws
  exact sentenceLoop_of_isSegmentation (mem_segmentations.mp hws)

theorem segmentations_ne_nil_iff :
    segmentations (· ∈ dict) s ≠ [] ↔ Segmentable (· ∈ dict) s := by
  constructor
  · intro hsegs
    obtain ⟨ws, hws⟩ := List.exists_mem_of_ne_nil _ hsegs
    exact ⟨ws, mem_segmentations.mp hws⟩
  · rintro ⟨ws, hws⟩
    exact List.ne_nil_of_mem (mem_segmentations.mpr hws)

theorem wordBreak_of_lt (h : s.length * s.length < 2 ^ 31) :
    wordBreak s dict = some ((segmentations (· ∈ dict) s).map sentence) := by
  obtain ⟨b, hb, hiff⟩ := @Solution1.wordBreak_of_lt s dict h
  rw [wordBreak, hb, Option.bind_eq_bind, Option.bind_some]
  split_ifs with htrue
  · rw [vs_matchTrie]
    rfl
  · -- without a segmentation there is no sentence to find
    rw [hiff, ← segmentations_ne_nil_iff, not_not] at htrue
    rw [htrue, List.map_nil]
    rfl

/-! ## The strings whose table has a size -/

/-- The sentences are those of all segmentations, each once, and there are some exactly when both
tables say so. -/
def Complete (s : List UInt8) (dict : List (List UInt8)) : Prop :=
  ∃ (segs : List (List (List UInt8))) (b : Bool),
    segs.Nodup ∧ (∀ ws, ws ∈ segs ↔ IsSegmentation (· ∈ dict) s ws) ∧
      wordBreak s dict = some (segs.map sentence) ∧ (s = [] → segs.map sentence = [[]]) ∧
        Solution1.wordBreak s dict = some b ∧ wordBreakOne s dict = some b ∧
          (segs.map sentence ≠ [] ↔ b = true)

theorem complete_of_lt (h : s.length * s.length < 2 ^ 31) : Complete s dict := by
  obtain ⟨b, hb, hiff⟩ := @Solution1.wordBreak_of_lt s dict h
  refine ⟨segmentations (· ∈ dict) s, b, nodup_segmentations s, fun ws => mem_segmentations,
    wordBreak_of_lt h, ?_, hb, hb, ?_⟩
  · rintro rfl
    rw [segmentations_nil]
    rfl
  · rw [Ne, List.map_eq_nil_iff, ← Ne, segmentations_ne_nil_iff, hiff]

theorem lt_of_complete (h : Complete s dict) : s.length * s.length < 2 ^ 31 := by
  obtain ⟨_, b, -, -, -, -, hb, -⟩ := h
  by_contra hge
  rw [Solution1.wordBreak_of_overflow (not_lt.mp hge)] at hb
  cases hb

/-- **The solvers agree, and the second lists every segmentation once, exactly if the size of the
table fits in an `int`.** -/
theorem wordBreak_complete_iff (s : List UInt8) (dict : List (List UInt8)) :
    Complete s dict ↔ s.length * s.length < 2 ^ 31 :=
  ⟨lt_of_complete, complete_of_lt⟩

/-- A string of 46341 letters `a`, and no word at all. -/
theorem not_complete_of_long : ¬ ∀ s dict, Complete s dict := by
  intro h
  have hlt := lt_of_complete (h (List.replicate 46341 97) [])
  rw [List.length_replicate] at hlt
  omega

end Sperm.Leetcode.WordBreak
