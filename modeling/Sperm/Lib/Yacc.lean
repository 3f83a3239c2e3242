import Mathlib.Data.Int.Notation
import Mathlib.Data.List.Basic
import Mathlib.Tactic.Common

/-!
# The parser skeleton of bison

The skeleton `yacc.c` of bison runs over compressed tables. It keeps a stack of states and a stack
of values, reads a token only when the state does not decide alone, and then shifts the token or
reduces by a rule.

* `Tables`, `Tables.move`, `Tables.goto`: the tables, and how the skeleton looks them up.
* `Machine`: tables with a scanner and the actions of the rules; `Config`, `Machine.step`,
  `Machine.run`: the loop of `yyparse`.
* `Machine.step_of_isDefault`, `Machine.step_of_yylex`, `Machine.reduce_eq`: one step, by what the
  tables say.
* **`Machine.run_add`**: runs compose.
* `Config.mapInput`, `Outcome.mapInput`, **`run_mapInput`**: a scanner whose input stands for that
  of another one, token by token, takes the parser through the same moves.
-/

namespace Yacc

/-! ## Tables -/

structure Tables where
  yypact : List ℤ
  yydefact : List ℕ
  yypgoto : List ℤ
  yydefgoto : List ℤ
  yytable : List ℤ
  yycheck : List ℤ
  yyr1 : List ℕ
  yyr2 : List ℕ
  yypactNinf : ℤ
  yylast : ℤ
  yyntokens : ℕ
  yyfinal : ℕ
  yymaxdepth : ℕ

inductive Move where
  | shift (state : ℕ)
  | reduce (rule : ℕ)
  | error
  deriving DecidableEq

namespace Tables

variable (T : Tables)

/-- The label `yydefault`. -/
def default (state : ℕ) : Move :=
  if T.yydefact.getD state 0 = 0 then .error else .reduce (T.yydefact.getD state 0)

/-- The state reduces without looking at a token. -/
def isDefault (state : ℕ) : Bool := T.yypact.getD state 0 = T.yypactNinf

/-- What to do on the token, in a state that looks at it. -/
def move (state token : ℕ) : Move :=
  let yyn := T.yypact.getD state 0 + token
  if yyn < 0 ∨ T.yylast < yyn ∨ T.yycheck.getD yyn.toNat 0 ≠ token then T.default state
  else if T.yytable.getD yyn.toNat 0 ≤ 0 then .reduce (-T.yytable.getD yyn.toNat 0).toNat
  else .shift (T.yytable.getD yyn.toNat 0).toNat

/-- The state after a reduction to the left side of `rule`, with `state` on top of the stack. -/
def goto (state rule : ℕ) : ℕ :=
  let lhs := T.yyr1.getD rule 0 - T.yyntokens
  let yyn := T.yypgoto.getD lhs 0 + state
  if 0 ≤ yyn ∧ yyn ≤ T.yylast ∧ T.yycheck.getD yyn.toNat 0 = state then
    (T.yytable.getD yyn.toNat 0).toNat
  else (T.yydefgoto.getD lhs 0).toNat

end Tables

/-! ## The loop -/

/-- A parser: tables, a scanner that returns the number of a token with its value, and the actions
of the rules, which read the values of the right side and may change what the parser belongs to. -/
structure Machine (V I P : Type) where
  tables : Tables
  yylex : I → (ℕ × V) × I
  action : ℕ → List V → P → V × P

/-- The variables of `yyparse`. The stacks have their top first, and `yychar` is the token that was
read and not shifted yet. -/
structure Config (V I P : Type) where
  yyss : List ℕ
  yyvs : List V
  yychar : Option (ℕ × V)
  input : I
  parser : P

/-- The messages of `yyerror`. -/
inductive Error where
  | syntaxError
  | memoryExhausted
  deriving DecidableEq

inductive Outcome (V I P : Type) where
  | next (c : Config V I P)
  | accept (parser : P)
  | error (e : Error)

/-- What becomes of an outcome when the loop goes on. -/
def Outcome.andThen {V I P : Type} (o : Outcome V I P) (f : Config V I P → Outcome V I P) :
    Outcome V I P :=
  match o with
  | .next c => f c
  | .accept parser => .accept parser
  | .error e => .error e

namespace Machine

variable {V I P : Type} (M : Machine V I P)

/-- The labels `yynewstate` and `yysetstate`. The stacks grow up to `YYMAXDEPTH`. -/
def enter (state : ℕ) (c : Config V I P) : Outcome V I P :=
  if M.tables.yymaxdepth ≤ c.yyss.length + 1 then .error .memoryExhausted
  else if state = M.tables.yyfinal then .accept c.parser
  else .next { c with yyss := state :: c.yyss }

/-- The label `yyreduce`. -/
def reduce (rule : ℕ) (c : Config V I P) : Outcome V I P :=
  let yylen := M.tables.yyr2.getD rule 0
  let yyval := M.action rule (c.yyvs.take yylen).reverse c.parser
  let yyss := c.yyss.drop yylen
  M.enter (M.tables.goto (yyss.headD 0) rule)
    { c with yyss := yyss, yyvs := yyval.1 :: c.yyvs.drop yylen, parser := yyval.2 }

/-- A move. Only a token that was read is shifted. -/
def perform (m : Move) (c : Config V I P) : Outcome V I P :=
  match m, c.yychar with
  | .shift state, some token =>
    M.enter state { c with yyvs := token.2 :: c.yyvs, yychar := none }
  | .shift _, none => .error .syntaxError
  | .reduce rule, _ => M.reduce rule c
  | .error, _ => .error .syntaxError

/-- The label `yybackup`. -/
def step (c : Config V I P) : Outcome V I P :=
  if M.tables.isDefault (c.yyss.headD 0) then M.perform (M.tables.default (c.yyss.headD 0)) c
  else
    match c.yychar with
    | some token => M.perform (M.tables.move (c.yyss.headD 0) token.1) c
    | none =>
      let read := M.yylex c.input
      M.perform (M.tables.move (c.yyss.headD 0) read.1.1)
        { c with yychar := some read.1, input := read.2 }

def run : ℕ → Config V I P → Outcome V I P
  | 0, c => .next c
  | n + 1, c => (M.step c).andThen (run n)

/-- The first configuration of `yyparse`. -/
def start (input : I) (parser : P) : Config V I P := ⟨[0], [], none, input, parser⟩

variable {M} {s s' rule : ℕ} {ss : List ℕ} {vs : List V} {token : ℕ × V} {la : Option (ℕ × V)}
  {i i' : I} {p : P} {c : Config V I P}

/-! ## One step -/

theorem step_of_isDefault (h : M.tables.isDefault s = true) :
    M.step ⟨s :: ss, vs, la, i, p⟩ = M.perform (M.tables.default s) ⟨s :: ss, vs, la, i, p⟩ := by
  rw [step, List.headD_cons, if_pos h]

theorem step_of_yylex (h : M.tables.isDefault s = false) (hlex : M.yylex i = (token, i')) :
    M.step ⟨s :: ss, vs, none, i, p⟩ =
      M.perform (M.tables.move s token.1) ⟨s :: ss, vs, some token, i', p⟩ := by
  rw [step, List.headD_cons, h]
  dsimp only
  rw [hlex]
  rfl

theorem enter_of_lt (h : c.yyss.length + 1 < M.tables.yymaxdepth) (hs : s ≠ M.tables.yyfinal) :
    M.enter s c = .next { c with yyss := s :: c.yyss } := by
  rw [enter, if_neg (by omega), if_neg hs]

theorem enter_of_le (h : M.tables.yymaxdepth ≤ c.yyss.length + 1) :
    M.enter s c = .error .memoryExhausted := by
  rw [enter, if_pos h]

theorem reduce_eq {n t : ℕ} {ss' : List ℕ} {v : V} {p' : P}
    (hlen : M.tables.yyr2.getD rule 0 = n) (hdrop : ss.drop n = s' :: ss')
    (hact : M.action rule (vs.take n).reverse p = (v, p')) (hgoto : M.tables.goto s' rule = t)
    (ht : t ≠ M.tables.yyfinal) (hfit : ss'.length + 2 < M.tables.yymaxdepth) :
    M.reduce rule ⟨ss, vs, la, i, p⟩ = .next ⟨t :: s' :: ss', v :: vs.drop n, la, i, p'⟩ := by
  rw [reduce, hlen]
  dsimp only
  rw [hdrop, hact, List.headD_cons, hgoto]
  exact enter_of_lt hfit ht

/-! ## Runs -/

theorem andThen_assoc (o : Outcome V I P) (f g : Config V I P → Outcome V I P) :
    (o.andThen f).andThen g = o.andThen fun c => (f c).andThen g := by
  cases o <;> rfl

/-- **Runs compose.** -/
theorem run_add (m n : ℕ) (c : Config V I P) : M.run (m + n) c = (M.run m c).andThen (M.run n) := by
  induction m generalizing c with
  | zero =>
    rw [Nat.zero_add]
    rfl
  | succ m ih =>
    rw [Nat.succ_add, run, run, andThen_assoc]
    exact congrArg _ (funext ih)

end Machine

/-! ## Scanners that stand for each other -/

section

variable {V I J P : Type}

def Config.mapInput (f : I → J) (c : Config V I P) : Config V J P :=
  { c with input := f c.input }

def Outcome.mapInput (f : I → J) : Outcome V I P → Outcome V J P
  | .next c => .next (c.mapInput f)
  | .accept parser => .accept parser
  | .error e => .error e

/-- The machine with another scanner. -/
def Machine.withScanner (M : Machine V J P) (yylex : I → (ℕ × V) × I) : Machine V I P :=
  { M with yylex := yylex }

variable {M : Machine V J P} {yylex : I → (ℕ × V) × I} {f : I → J}

@[simp] theorem withScanner_tables : (M.withScanner yylex).tables = M.tables := rfl

@[simp] theorem withScanner_yylex : (M.withScanner yylex).yylex = yylex := rfl

theorem enter_mapInput (s : ℕ) (c : Config V I P) :
    ((M.withScanner yylex).enter s c).mapInput f = M.enter s (c.mapInput f) := by
  unfold Machine.enter
  by_cases hmax : M.tables.yymaxdepth ≤ c.yyss.length + 1
  · rw [withScanner_tables, if_pos hmax]
    exact (if_pos hmax).symm
  · rw [withScanner_tables, if_neg hmax]
    by_cases hs : s = M.tables.yyfinal
    · rw [if_pos hs]
      exact ((if_neg hmax).trans (if_pos hs)).symm
    · rw [if_neg hs]
      exact ((if_neg hmax).trans (if_neg hs)).symm

theorem perform_mapInput (m : Move) (c : Config V I P) :
    ((M.withScanner yylex).perform m c).mapInput f = M.perform m (c.mapInput f) := by
  obtain ⟨ss, vs, la, i, p⟩ := c
  cases m with
  | shift s =>
    cases la with
    | none => rfl
    | some token => exact enter_mapInput s _
  | reduce rule => exact enter_mapInput _ _
  | error => rfl

theorem step_mapInput (hlex : ∀ i, M.yylex (f i) = ((yylex i).1, f (yylex i).2))
    (c : Config V I P) :
    ((M.withScanner yylex).step c).mapInput f = M.step (c.mapInput f) := by
  by_cases hdef : M.tables.isDefault (c.yyss.headD 0) = true
  · have hleft : (M.withScanner yylex).step c =
        (M.withScanner yylex).perform (M.tables.default (c.yyss.headD 0)) c := if_pos hdef
    have hright : M.step (c.mapInput f) =
        M.perform (M.tables.default (c.yyss.headD 0)) (c.mapInput f) := if_pos hdef
    rw [hleft, hright, perform_mapInput]
  · obtain ⟨ss, vs, la, i, p⟩ := c
    refine (congrArg _ (if_neg hdef)).trans (Eq.trans ?_ (if_neg hdef).symm)
    cases la with
    | some token => exact perform_mapInput _ _
    | none =>
      show ((M.withScanner yylex).perform _ ⟨ss, vs, some (yylex i).1, (yylex i).2, p⟩).mapInput f =
        M.perform (M.tables.move (ss.headD 0) (M.yylex (f i)).1.1)
          ⟨ss, vs, some (M.yylex (f i)).1, (M.yylex (f i)).2, p⟩
      rw [hlex]
      exact perform_mapInput _ _

/-- **The same moves**, whatever stands behind the scanner. -/
theorem run_mapInput (hlex : ∀ i, M.yylex (f i) = ((yylex i).1, f (yylex i).2)) (n : ℕ)
    (c : Config V I P) :
    ((M.withScanner yylex).run n c).mapInput f = M.run n (c.mapInput f) := by
  induction n generalizing c with
  | zero => rfl
  | succ n ih =>
    rw [Machine.run, Machine.run, ← step_mapInput hlex]
    cases (M.withScanner yylex).step c with
    | next c' => exact ih c'
    | accept parser => rfl
    | error e => rfl

end

end Yacc
