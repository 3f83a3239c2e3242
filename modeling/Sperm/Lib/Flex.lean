import Mathlib.Data.List.Basic
import Mathlib.Tactic.Common

/-!
# The scanner skeleton of flex

A scanner of flex runs compressed tables over a buffer that it refills from a file. The buffer ends
with two NUL bytes. A NUL sends every state to one that ends the match, and only then does the
scanner find out whether the byte was in the file, the buffer has to be refilled, or the file ends.
It remembers the last state that accepts and where, to back up to it.

* `Tables`, `Tables.next`: the tables, and how the skeleton looks a transition up.
* `Guts`, `Tables.matchLoop`, `Tables.getPreviousState`, `Tables.findAction`, `getNextBuffer`,
  **`Tables.yylex`**: the skeleton, from one action to the next.
* `Tables.scan`: the last accepting state of a pass over the whole text, with no buffer.
* `Lawful`: what the tables that flex writes satisfy.
* `findAction_foldl`: what the scanner remembers along a text is the result of `scan`.
* **`yylex_spec`**: however the file arrives, the skeleton finds what `scan` finds, and leaves what
  comes after it.
-/

namespace Flex

/-! ## Tables -/

structure Tables where
  yyAccept : List ℕ
  yyEc : List ℕ
  yyMeta : List ℕ
  yyBase : List ℕ
  yyDef : List ℕ
  yyNxt : List ℕ
  yyChk : List ℕ
  /-- `yy_start`. -/
  start : ℕ
  /-- The number of the first template. -/
  templates : ℕ
  jamState : ℕ
  /-- The base of the states that no byte leaves. -/
  jamBase : ℕ
  /-- `YY_END_OF_BUFFER`. -/
  endOfBuffer : ℕ

namespace Tables

variable (T : Tables)

def accept (state : ℕ) : ℕ := T.yyAccept.getD state 0

def base (state : ℕ) : ℕ := T.yyBase.getD state 0

/-- The class of a byte in the match loop, where a NUL has the class `0`. -/
def ec (b : UInt8) : ℕ := T.yyEc.getD b.toNat 0

/-- The class of a byte of the text, where a NUL is a byte as others are. -/
def cls (b : UInt8) : ℕ := if b = 0 then 1 else T.ec b

/-- As long as the entry belongs to another state, the default of the state stands for it. -/
def nextLoop : ℕ → ℕ → ℕ → Option ℕ
  | 0, _, _ => none
  | n + 1, state, c =>
    if T.yyChk.getD (T.base state + c) 0 = state then some (T.yyNxt.getD (T.base state + c) 0)
    else
      let state := T.yyDef.getD state 0
      nextLoop n state (if T.templates ≤ state then T.yyMeta.getD c 0 else c)

def next? (state c : ℕ) : Option ℕ := T.nextLoop T.yyDef.length state c

def next (state c : ℕ) : ℕ := (T.next? state c).getD T.jamState

end Tables

/-! ## The skeleton -/

/-- `yy_current_state` and `yy_cp`, with `yy_last_accepting_state` and `yy_last_accepting_cpos`. -/
structure Config where
  state : ℕ
  cp : ℕ
  last : ℕ × ℕ

/-- The scanner between two calls. The buffer has the `yy_n_chars` bytes before the two NULs, and
the file is cut into what the next reads return, none of which is empty before the end. -/
structure Guts where
  chBuf : List UInt8
  cBufP : ℕ
  last : ℕ × ℕ
  eofPending : Bool
  file : List {chunk : List UInt8 // chunk ≠ []}

/-- The buffer as the match loop sees it. -/
def Guts.chars (g : Guts) : List UInt8 := g.chBuf ++ [0, 0]

inductive EobAct where
  | continueScan
  | endOfFile
  | lastMatch

/-- `yy_get_next_buffer`: the bytes from `bp` on, without the NUL before `cp`, move to the front. -/
def getNextBuffer (bp cp : ℕ) (g : Guts) : EobAct × Guts :=
  let moved := (g.chBuf.drop bp).take (cp - bp - 1)
  match g.eofPending, g.file with
  | false, chunk :: file => (.continueScan, { g with chBuf := moved ++ chunk, file := file })
  | _, _ =>
    -- At the end of the file with nothing left `yyrestart` empties the buffer.
    if cp - bp - 1 = 0 then (.endOfFile, { g with chBuf := [], cBufP := 0, eofPending := false })
    else (.lastMatch, { g with chBuf := moved, eofPending := true })

inductive Error where
  /-- The message `fatal flex scanner internal error--end of buffer missed`. -/
  | endOfBufferMissed
  | outOfFuel
  deriving DecidableEq

/-- The labels of `yylex` to which it jumps. -/
inductive Label where
  | yyMatch
  | yyFindAction

namespace Tables

variable (T : Tables)

/-- One byte of the class `c`. -/
def advance (σ : Config) (c : ℕ) : Config where
  state := T.next σ.state c
  cp := σ.cp + 1
  last := if T.accept σ.state ≠ 0 then (σ.state, σ.cp) else σ.last

/-- The match loop, over the buffer from `yy_cp` on. -/
def matchLoop (σ : Config) : List UInt8 → Config
  | [] => σ
  | b :: w =>
    let σ' := T.advance σ (T.ec b)
    if T.base σ'.state ≠ T.jamBase then matchLoop σ' w else σ'

/-- `yy_get_previous_state`, over the text between `yytext_ptr` and `yy_c_buf_p`. -/
def getPreviousState (σ : Config) (text : List UInt8) : Config :=
  text.foldl (fun σ b => T.advance σ (T.cls b)) σ

/-- The action at `yy_find_action` with its place, backed up if the state does not accept. -/
def findAction (σ : Config) : ℕ × ℕ :=
  if T.accept σ.state = 0 then (T.accept σ.last.1, σ.last.2) else (T.accept σ.state, σ.cp)

/-- The loop up to an action that is not for the end of the buffer, which comes with its text, or
up to the end of the file. -/
def yylexLoop : ℕ → Label → Config → ℕ → Guts → Except Error (Option (ℕ × List UInt8) × Guts)
  | 0, _, _, _, _ => .error .outOfFuel
  | n + 1, .yyMatch, σ, bp, g =>
    yylexLoop n .yyFindAction (T.matchLoop σ (g.chars.drop σ.cp)) bp g
  | n + 1, .yyFindAction, σ, bp, g =>
    let act := (T.findAction σ).1
    let cp := (T.findAction σ).2
    if act ≠ T.endOfBuffer then
      .ok (some (act, (g.chars.take cp).drop bp), { g with cBufP := cp, last := σ.last })
    else if cp ≤ g.chBuf.length then
      -- This was really a NUL.
      let σ := T.getPreviousState ⟨T.start, bp, σ.last⟩ ((g.chBuf.drop bp).take (cp - bp - 1))
      let next := T.advance σ 1
      if next.state = T.jamState then
        yylexLoop n .yyFindAction { σ with last := next.last } bp g
      else yylexLoop n .yyMatch next bp g
    else if g.chBuf.length + 1 < cp then .error .endOfBufferMissed
    else
      match getNextBuffer bp cp g with
      | (.endOfFile, g) => .ok (none, { g with last := σ.last })
      | (.continueScan, g) =>
        yylexLoop n .yyMatch
          (T.getPreviousState ⟨T.start, 0, σ.last⟩ (g.chBuf.take (cp - bp - 1))) 0 g
      | (.lastMatch, g) =>
        yylexLoop n .yyFindAction (T.getPreviousState ⟨T.start, 0, σ.last⟩ g.chBuf) 0 g

end Tables

/-- What is left of the file. -/
def Guts.unread (g : Guts) : List UInt8 := g.file.flatMap Subtype.val

/-- The bytes that are still to be scanned. -/
def Guts.text (g : Guts) : List UInt8 := g.chBuf.drop g.cBufP ++ g.unread

/-- The scanner up to its next action. Each turn of the loop finds a NUL of the buffer, reads from
the file or is the last one. -/
def Tables.yylex (T : Tables) (g : Guts) : Except Error (Option (ℕ × List UInt8) × Guts) :=
  T.yylexLoop (2 * (g.text.length + g.file.length) + 3) .yyMatch ⟨T.start, g.cBufP, g.last⟩ g.cBufP
    g

/-! ## The pass without a buffer -/

/-- The last place of `w` after a byte at which the tables accept, with the action. -/
def Tables.scan (T : Tables) (state : ℕ) : List UInt8 → Option (ℕ × List UInt8 × List UInt8)
  | [] => none
  | b :: w =>
    match scan T (T.next state (T.cls b)) w with
    | some (act, t, r) => some (act, b :: t, r)
    | none =>
      if T.accept (T.next state (T.cls b)) = 0 then none
      else some (T.accept (T.next state (T.cls b)), [b], w)

/-- A state of the match loop other than the one for a NUL. -/
def Tables.Ordinary (T : Tables) (eob state : ℕ) : Prop :=
  0 < state ∧ state < T.templates ∧ state ≠ eob

instance (T : Tables) (eob state : ℕ) : Decidable (T.Ordinary eob state) :=
  inferInstanceAs (Decidable (_ ∧ _ ∧ _))

/-- Tables of flex with the classes below `numClasses`, where the state `eob` is for a NUL. -/
structure Lawful (T : Tables) (eob numClasses : ℕ) : Prop where
  ec_lt : ∀ b, T.ec b < numClasses
  ec_eq_zero : ∀ b, T.ec b = 0 ↔ b = 0
  one_lt : 1 < numClasses
  /-- The defaults of a state come to an end. -/
  next_isSome : ∀ s < T.templates, 0 < s → ∀ c < numClasses, (T.next? s c).isSome = true
  start : T.Ordinary eob T.start
  next : ∀ s < T.templates, T.Ordinary eob s → ∀ c < numClasses, 0 < c →
    T.Ordinary eob (T.next s c)
  next_zero : ∀ s < T.templates, T.Ordinary eob s → T.next s 0 = eob
  next_eob : ∀ c < numClasses, T.next eob c = T.jamState
  accept_eob : T.accept eob = T.endOfBuffer
  accept_ne : ∀ s < T.templates, T.Ordinary eob s → T.accept s ≠ T.endOfBuffer
  accept_jam : T.accept T.jamState = 0
  base_jam : T.base T.jamState = T.jamBase
  base_eob : T.base eob ≠ T.jamBase
  jam : T.Ordinary eob T.jamState
  next_of_base : ∀ s < T.templates, T.Ordinary eob s → T.base s = T.jamBase →
    ∀ c < numClasses, 0 < c → T.next s c = T.jamState
  /-- The rules leave no byte out. -/
  accept_next_start : ∀ c < numClasses, 0 < c → T.accept (T.next T.start c) ≠ 0
  endOfBuffer_ne : T.endOfBuffer ≠ 0

/-- The state after a text. -/
def Tables.after (T : Tables) (state : ℕ) (w : List UInt8) : ℕ :=
  w.foldl (fun s b => T.next s (T.cls b)) state

/-- The scanner points into its buffer, and it has read the whole file when it says so. -/
structure Guts.Valid (g : Guts) : Prop where
  le_length : g.cBufP ≤ g.chBuf.length
  file_eq_nil : g.eofPending = true → g.file = []

/-- The result `x` of `scan` is what the skeleton returns, and the rest of the text is left. -/
def Finds (res : Except Error (Option (ℕ × List UInt8) × Guts))
    (x : Option (ℕ × List UInt8 × List UInt8)) : Prop :=
  ∃ g : Guts, res = .ok (x.map fun x => (x.1, x.2.1), g) ∧ g.Valid ∧
    g.text = (x.map fun x => x.2.2).getD []

variable {T : Tables} {eob m : ℕ} {σ : Config} {s c bp : ℕ} {b : UInt8} {u v w t r : List UInt8}
  {g : Guts}

/-! ## What the scanner remembers -/

theorem findAction_advance :
    T.findAction (T.advance σ c) =
      if T.accept (T.next σ.state c) = 0 then T.findAction σ
      else (T.accept (T.next σ.state c), σ.cp + 1) := by
  by_cases hs : T.accept σ.state = 0
  · simp only [Tables.findAction, Tables.advance, hs, ne_eq, not_true_eq_false, if_false, if_true]
  · simp only [Tables.findAction, Tables.advance, hs, ne_eq, not_false_eq_true, if_true, if_false]

@[simp] theorem getPreviousState_nil : T.getPreviousState σ [] = σ := rfl

@[simp] theorem getPreviousState_cons :
    T.getPreviousState σ (b :: w) = T.getPreviousState (T.advance σ (T.cls b)) w := rfl

theorem getPreviousState_append :
    T.getPreviousState σ (u ++ v) = T.getPreviousState (T.getPreviousState σ u) v :=
  List.foldl_append

theorem cp_getPreviousState : (T.getPreviousState σ w).cp = σ.cp + w.length := by
  induction w generalizing σ with
  | nil => rfl
  | cons b w ih =>
    rw [getPreviousState_cons, ih, List.length_cons]
    simp only [Tables.advance]
    omega

theorem state_getPreviousState : (T.getPreviousState σ w).state = T.after σ.state w := by
  induction w generalizing σ with
  | nil => rfl
  | cons b w ih =>
    rw [getPreviousState_cons, ih]
    rfl

/-- **What the scanner remembers along a text** is the result of the pass, if there is one. -/
theorem findAction_getPreviousState :
    T.findAction (T.getPreviousState σ w) =
      ((T.scan σ.state w).map fun x => (x.1, σ.cp + x.2.1.length)).getD (T.findAction σ) := by
  induction w generalizing σ with
  | nil => rfl
  | cons b w ih =>
    rw [getPreviousState_cons, ih, findAction_advance, Tables.scan]
    simp only [Tables.advance]
    cases T.scan (T.next σ.state (T.cls b)) w with
    | some x =>
      obtain ⟨act, t, r⟩ := x
      simp only [Option.map_some, Option.getD_some, List.length_cons, Prod.mk.injEq, true_and]
      omega
    | none =>
      by_cases hacc : T.accept (T.next σ.state (T.cls b)) = 0
      · simp [hacc]
      · simp [hacc]

theorem scan_append_of_eq_none (h : T.scan (T.after s u) v = none) :
    T.scan s (u ++ v) = (T.scan s u).map fun x => (x.1, x.2.1, x.2.2 ++ v) := by
  induction u generalizing s with
  | nil => exact h
  | cons b u ih =>
    rw [List.cons_append, Tables.scan, Tables.scan, ih h]
    cases T.scan (T.next s (T.cls b)) u with
    | some x => rfl
    | none =>
      by_cases hacc : T.accept (T.next s (T.cls b)) = 0
      · simp [hacc]
      · simp [hacc]

theorem scan_eq_some {act : ℕ} (h : T.scan s w = some (act, t, r)) :
    t ++ r = w ∧ act = T.accept (T.after s t) := by
  induction w generalizing s t with
  | nil => cases h
  | cons b w ih =>
    rw [Tables.scan] at h
    cases hscan : T.scan (T.next s (T.cls b)) w with
    | some x =>
      obtain ⟨act', t', r'⟩ := x
      rw [hscan] at h
      cases h
      obtain ⟨happ, hacc⟩ := ih hscan
      exact ⟨congrArg (b :: ·) happ, hacc⟩
    | none =>
      rw [hscan] at h
      by_cases hacc : T.accept (T.next s (T.cls b)) = 0
      · rw [if_pos hacc] at h
        cases h
      · rw [if_neg hacc] at h
        cases h
        exact ⟨rfl, rfl⟩

theorem after_append : T.after s (u ++ v) = T.after (T.after s u) v := List.foldl_append

/-- `yy_get_next_buffer` when all of the token that is in the buffer was matched. -/
theorem getNextBuffer_cases {cp : ℕ} (hbuf : g.chBuf.drop bp = u) (hcp : cp - bp - 1 = u.length)
    (hfile : g.eofPending = true → g.file = []) :
    (∃ chunk g', getNextBuffer bp cp g = (.continueScan, g') ∧ g'.chBuf = u ++ chunk ∧
      g.unread = chunk ++ g'.unread ∧ g'.file.length < g.file.length ∧ g'.eofPending = false) ∨
    (∃ g', getNextBuffer bp cp g = (.endOfFile, g') ∧ u = [] ∧ g.unread = [] ∧ g'.Valid ∧
      g'.text = []) ∨
    (∃ g', getNextBuffer bp cp g = (.lastMatch, g') ∧ u ≠ [] ∧ g.unread = [] ∧ g'.chBuf = u ∧
      g'.file = []) := by
  have hend : g.file = [] → getNextBuffer bp cp g =
      if u.length = 0 then (.endOfFile, { g with chBuf := [], cBufP := 0, eofPending := false })
      else (.lastMatch, { g with chBuf := u, eofPending := true }) := by
    intro hnil
    rw [getNextBuffer, hbuf, hcp, List.take_length, hnil]
    cases g.eofPending with
    | false => rfl
    | true => rfl
  have hunread : g.file = [] → g.unread = [] := fun hnil => by rw [Guts.unread, hnil]; rfl
  cases hcases : g.file with
  | nil =>
    refine .inr ?_
    rw [hend hcases]
    by_cases hu : u = []
    · rw [if_pos (List.length_eq_zero_iff.mpr hu)]
      exact .inl ⟨_, rfl, hu, hunread hcases, ⟨Nat.le_refl 0, fun _ => hcases⟩, hunread hcases⟩
    · rw [if_neg (List.length_eq_zero_iff.not.mpr hu)]
      exact .inr ⟨_, rfl, hu, hunread hcases, rfl, hcases⟩
  | cons chunk file =>
    have hpending : g.eofPending = false :=
      Bool.eq_false_iff.mpr fun h => List.cons_ne_nil _ _ (hcases.symm.trans (hfile h))
    refine .inl ⟨chunk, { g with chBuf := u ++ chunk, file := file }, ?_, rfl, ?_, ?_, hpending⟩
    · rw [getNextBuffer, hbuf, hcp, List.take_length, hpending, hcases]
    · rw [Guts.unread, hcases]
      rfl
    · rw [List.length_cons]
      exact Nat.lt_succ_self _

/-! ## Lawful tables -/

namespace Lawful

variable (hT : Lawful T eob m)

include hT

theorem cls_lt : T.cls b < m := by
  rw [Tables.cls]
  split_ifs
  · exact hT.one_lt
  · exact hT.ec_lt b

theorem cls_pos : 0 < T.cls b := by
  rw [Tables.cls]
  split_ifs with hb
  · exact Nat.one_pos
  · exact Nat.pos_of_ne_zero ((hT.ec_eq_zero b).not.mpr hb)

theorem ordinary_next (hs : T.Ordinary eob s) : T.Ordinary eob (T.next s (T.cls b)) :=
  hT.next s hs.2.1 hs _ hT.cls_lt hT.cls_pos

theorem ordinary_after (hs : T.Ordinary eob s) : T.Ordinary eob (T.after s w) := by
  induction w generalizing s with
  | nil => exact hs
  | cons b w ih => exact ih (hT.ordinary_next hs)

theorem scan_of_base (hs : T.Ordinary eob s) (hbase : T.base s = T.jamBase) :
    T.scan s w = none := by
  induction w generalizing s with
  | nil => rfl
  | cons b w ih =>
    have hnext : T.next s (T.cls b) = T.jamState :=
      hT.next_of_base s hs.2.1 hs hbase _ hT.cls_lt hT.cls_pos
    rw [Tables.scan, hnext, ih hT.jam hT.base_jam]
    simp [hT.accept_jam]

theorem scan_jam : T.scan T.jamState w = none := hT.scan_of_base hT.jam hT.base_jam

theorem scan_start_isSome (hw : w ≠ []) : (T.scan T.start w).isSome = true := by
  obtain ⟨b, w, rfl⟩ := List.exists_cons_of_ne_nil hw
  rw [Tables.scan]
  cases T.scan (T.next T.start (T.cls b)) w with
  | some x => rfl
  | none => simp [hT.accept_next_start _ hT.cls_lt hT.cls_pos]

theorem start_ne_jam : T.next T.start (T.cls b) ≠ T.jamState := by
  intro h
  have := hT.accept_next_start (T.cls b) hT.cls_lt hT.cls_pos
  rw [h] at this
  exact this hT.accept_jam

/-! ## The match loop -/

/-- A NUL ends the match, whatever byte comes after it. -/
theorem findAction_matchLoop_nul (hs : T.Ordinary eob σ.state) :
    T.findAction (T.matchLoop σ (0 :: b :: w)) = (T.endOfBuffer, σ.cp + 1) := by
  have heob : (T.advance σ (T.ec 0)).state = eob := by
    rw [(hT.ec_eq_zero 0).mpr rfl]
    exact hT.next_zero _ hs.2.1 hs
  have hjam : (T.advance (T.advance σ (T.ec 0)) (T.ec b)).state = T.jamState := by
    rw [Tables.advance, heob]
    exact hT.next_eob _ (hT.ec_lt b)
  rw [Tables.matchLoop, heob, if_pos hT.base_eob, Tables.matchLoop, hjam]
  rw [if_neg (not_not.mpr hT.base_jam), findAction_advance, findAction_advance]
  rw [show T.next (T.advance σ (T.ec 0)).state (T.ec b) = T.jamState from hjam,
    if_pos hT.accept_jam, show T.next σ.state (T.ec 0) = eob from heob, hT.accept_eob,
    if_neg hT.endOfBuffer_ne]

/-- The match loop ends in a state that no byte leaves, or with a NUL: one of the text or the one
behind it. -/
theorem matchLoop_cases (hs : T.Ordinary eob σ.state) (v : List UInt8) :
    (∃ v₁ v₂, v = v₁ ++ v₂ ∧ v₁ ≠ [] ∧ T.matchLoop σ (v ++ [0, 0]) = T.getPreviousState σ v₁ ∧
      T.base (T.after σ.state v₁) = T.jamBase) ∨
    (∃ v₁, (v = v₁ ∨ ∃ v₂, v = v₁ ++ 0 :: v₂) ∧
      T.findAction (T.matchLoop σ (v ++ [0, 0])) = (T.endOfBuffer, σ.cp + v₁.length + 1)) := by
  induction v generalizing σ with
  | nil => exact .inr ⟨[], .inl rfl, hT.findAction_matchLoop_nul hs⟩
  | cons b v ih =>
    by_cases hb : b = 0
    · subst hb
      obtain ⟨x, w, hxw⟩ : ∃ x w, v ++ [0, 0] = x :: w :=
        List.exists_cons_of_ne_nil (by simp)
      refine .inr ⟨[], .inr ⟨v, rfl⟩, ?_⟩
      rw [List.cons_append, hxw]
      exact hT.findAction_matchLoop_nul hs
    · have hcls : T.ec b = T.cls b := by rw [Tables.cls, if_neg hb]
      by_cases hbase : T.base (T.next σ.state (T.cls b)) = T.jamBase
      · refine .inl ⟨[b], v, rfl, List.cons_ne_nil _ _, ?_, hbase⟩
        rw [List.cons_append, Tables.matchLoop, hcls]
        exact if_neg (not_not.mpr hbase)
      · have hloop : T.matchLoop σ (b :: v ++ [0, 0]) =
            T.matchLoop (T.advance σ (T.cls b)) (v ++ [0, 0]) := by
          rw [List.cons_append, Tables.matchLoop, hcls]
          exact if_pos hbase
        have hs' : T.Ordinary eob (T.advance σ (T.cls b)).state := hT.ordinary_next hs
        rw [hloop]
        rcases ih hs' with ⟨v₁, v₂, rfl, -, hv₁, hbase'⟩ | ⟨v₁, hv, hact⟩
        · exact .inl ⟨b :: v₁, v₂, rfl, List.cons_ne_nil _ _, hv₁, hbase'⟩
        · refine .inr ⟨b :: v₁, ?_, ?_⟩
          · rcases hv with rfl | ⟨v₂, rfl⟩
            · exact .inl rfl
            · exact .inr ⟨v₂, rfl⟩
          · rw [hact, List.length_cons, Tables.advance]
            simp only [Prod.mk.injEq, true_and]
            omega

/-! ## The loop -/

theorem finds_yyFindAction {n : ℕ} {l : ℕ × ℕ} (hbuf : g.chBuf.drop bp = u ++ v)
    (hbp : bp ≤ g.chBuf.length) (hfile : g.eofPending = true → g.file = []) (hu : u ≠ [])
    (hσ : T.findAction σ = T.findAction (T.getPreviousState ⟨T.start, bp, l⟩ u))
    (hnone : T.scan (T.after T.start u) (v ++ g.unread) = none) :
    Finds (T.yylexLoop (n + 1) .yyFindAction σ bp g) (T.scan T.start (u ++ (v ++ g.unread))) := by
  obtain ⟨⟨act, t, r⟩, hscan⟩ := Option.isSome_iff_exists.mp (hT.scan_start_isSome hu)
  obtain ⟨rfl, hacc⟩ := scan_eq_some hscan
  rw [findAction_getPreviousState, hscan, Option.map_some, Option.getD_some] at hσ
  have hordinary := hT.ordinary_after (w := t) hT.start
  have hne : act ≠ T.endOfBuffer := hacc ▸ hT.accept_ne _ hordinary.2.1 hordinary
  have htext : (g.chars.take (bp + t.length)).drop bp = t := by
    rw [List.drop_take, Guts.chars, List.drop_append_of_le_length hbp, hbuf,
      Nat.add_sub_cancel_left, List.append_assoc, List.append_assoc, List.take_left]
  rw [scan_append_of_eq_none hnone, hscan, Tables.yylexLoop, hσ]
  dsimp only
  rw [if_pos hne, htext]
  refine ⟨{ g with cBufP := bp + t.length, last := σ.last }, rfl, ⟨?_, hfile⟩, ?_⟩
  · have := congrArg List.length hbuf
    rw [List.length_drop, List.length_append, List.length_append] at this
    show bp + t.length ≤ g.chBuf.length
    omega
  · show g.chBuf.drop (bp + t.length) ++ g.unread = r ++ (v ++ g.unread)
    rw [← List.drop_drop, hbuf, List.append_assoc, List.drop_left, List.append_assoc]

/-- At `yy_find_action`, when a NUL comes next with which no match goes on. -/
theorem finds_yyFindAction_nul {n : ℕ} {l : ℕ × ℕ} (hbuf : g.chBuf.drop bp = u ++ 0 :: v)
    (hbp : bp ≤ g.chBuf.length) (hfile : g.eofPending = true → g.file = [])
    (hσ : T.getPreviousState ⟨T.start, bp, l⟩ u = σ)
    (hjam : (T.advance σ 1).state = T.jamState) :
    Finds (T.yylexLoop (n + 1) .yyFindAction { σ with last := (T.advance σ 1).last } bp g)
      (T.scan T.start (u ++ (0 :: v ++ g.unread))) := by
  have hstate : σ.state = T.after T.start u := by rw [← hσ, state_getPreviousState]
  have hnul : T.next σ.state (T.cls 0) = T.jamState := hjam
  refine hT.finds_yyFindAction (l := l) hbuf hbp hfile ?_ ?_ ?_
  · rintro rfl
    exact hT.start_ne_jam ((congrArg (T.next · (T.cls 0)) hstate).symm.trans hnul)
  · rw [hσ, Tables.findAction, Tables.findAction, Tables.advance]
    by_cases hacc : T.accept σ.state = 0
    · simp [hacc]
    · simp [hacc]
  · rw [← hstate, List.cons_append, Tables.scan, hnul, hT.scan_jam]
    simp [hT.accept_jam]

theorem finds_yyMatch {n : ℕ} {l : ℕ × ℕ} (hbuf : g.chBuf.drop bp = u ++ v)
    (hbp : bp ≤ g.chBuf.length) (hfile : g.eofPending = true → g.file = [])
    (hn : 2 * (v.length + g.unread.length + g.file.length) + 3 ≤ n) :
    Finds (T.yylexLoop n .yyMatch (T.getPreviousState ⟨T.start, bp, l⟩ u) bp g)
      (T.scan T.start (u ++ (v ++ g.unread))) := by
  induction n using Nat.strongRecOn generalizing bp u v g l with
  | ind n ih =>
    obtain ⟨n, rfl⟩ : ∃ k, n = k + 1 + 1 + 1 := ⟨n - 3, by omega⟩
    have hlen := congrArg List.length hbuf
    rw [List.length_drop, List.length_append] at hlen
    generalize hσ : T.getPreviousState ⟨T.start, bp, l⟩ u = σ
    have hcp : σ.cp = bp + u.length := by rw [← hσ, cp_getPreviousState]
    have hstate : σ.state = T.after T.start u := by rw [← hσ, state_getPreviousState]
    have hordinary : T.Ordinary eob σ.state := hstate ▸ hT.ordinary_after hT.start
    have hchars : g.chars.drop σ.cp = v ++ [0, 0] := by
      rw [hcp, Guts.chars, ← List.drop_drop, List.drop_append_of_le_length hbp, hbuf,
        List.append_assoc, List.drop_left]
    rw [Tables.yylexLoop, hchars]
    rcases hT.matchLoop_cases hordinary v with ⟨v₁, v₂, rfl, hne, hloop, hbase⟩ | ⟨v₁, hv, hact⟩
    · -- The match loop ended in a state that no byte leaves.
      rw [hloop, ← hσ, ← getPreviousState_append]
      rw [hstate, ← after_append] at hbase
      have hnone := hT.scan_of_base (w := v₂ ++ g.unread) (hT.ordinary_after hT.start) hbase
      rw [← List.append_assoc] at hbuf
      have := hT.finds_yyFindAction (n := n + 1) (l := l) hbuf hbp hfile (by simp [hne]) rfl
        hnone
      simpa only [List.append_assoc] using this
    · rw [Tables.yylexLoop, hact, hcp]
      dsimp only
      have hamount : bp + u.length + v₁.length + 1 - bp - 1 = (u ++ v₁).length := by
        rw [List.length_append]
        omega
      rw [if_neg (not_not.mpr rfl), hamount]
      rcases hv with rfl | ⟨v₂, rfl⟩
      · -- The buffer is at its end.
        rw [if_neg (by omega), if_neg (by omega)]
        rcases getNextBuffer_cases hbuf hamount hfile with
          ⟨chunk, g', hget, hchBuf, hunread, hlt, hpending⟩ |
          ⟨g', hget, hnil, hunread, hvalid, htext⟩ |
          ⟨g', hget, hne, hunread, hchBuf, hfile'⟩
        · rw [hget, hunread]
          dsimp only
          rw [hchBuf, List.take_left, ← List.append_assoc]
          refine ih _ (by omega) hchBuf (Nat.zero_le _) ?_ ?_
          · rw [hpending]
            exact nofun
          · rw [hunread, List.length_append] at hn
            omega
        · rw [hget, ← List.append_assoc, hnil, hunread]
          exact ⟨_, rfl, ⟨hvalid.le_length, hvalid.file_eq_nil⟩, htext⟩
        · have hunread' : g'.unread = [] := by rw [Guts.unread, hfile']; rfl
          rw [hget, hunread, List.append_nil]
          dsimp only
          have := hT.finds_yyFindAction (n := n) (v := [])
            (l := (T.matchLoop σ (v ++ [0, 0])).last) (by rw [List.append_nil]; exact hchBuf)
            (Nat.zero_le _) (fun _ => hfile') hne rfl (by rw [hunread']; rfl)
          simpa only [hchBuf, hunread', List.append_nil] using this
      · -- This was really a NUL.
        rw [if_pos (by rw [List.length_append, List.length_cons] at hlen; omega), hbuf,
          ← List.append_assoc, List.take_left]
        rw [← List.append_assoc] at hbuf
        generalize (T.matchLoop σ (v₁ ++ 0 :: v₂ ++ [0, 0])).last = l'
        generalize hσ' : T.getPreviousState ⟨T.start, bp, l'⟩ (u ++ v₁) = σ'
        by_cases hjam : (T.advance σ' 1).state = T.jamState
        · rw [if_pos hjam]
          have := hT.finds_yyFindAction_nul (n := n) hbuf hbp hfile hσ' hjam
          simpa only [List.append_assoc] using this
        · rw [if_neg hjam]
          have hnext : T.advance σ' 1 = T.getPreviousState ⟨T.start, bp, l'⟩ (u ++ v₁ ++ [0]) := by
            rw [getPreviousState_append, hσ']
            rfl
          have := ih (n + 1) (by omega) (v := v₂) (l := l')
            (hbuf.trans (List.append_cons _ _ _)) hbp hfile ?_
          · rw [hnext]
            simpa only [List.append_assoc, List.cons_append, List.nil_append] using this
          · rw [List.length_append, List.length_cons] at hn
            omega

/-- **The skeleton finds what the pass finds**, whatever the reads return. -/
theorem yylex_spec (hg : g.Valid) : Finds (T.yylex g) (T.scan T.start g.text) := by
  refine hT.finds_yyMatch (u := []) (l := g.last) rfl hg.le_length hg.file_eq_nil ?_
  have htext : g.text.length = (g.chBuf.drop g.cBufP).length + g.unread.length :=
    List.length_append
  omega

end Lawful

end Flex
