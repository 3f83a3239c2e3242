import Sperm.Common.ByteArray
import Sperm.Lib.Yacc
import Sperm.Nasty.Lexer

/-!
# The parser of nasty

`nasty.parser` is translated by bison into the tables of `nasty.y.cc`. Here the tables run over the
scanner of `nasty.lexer`, with the actions that build the tree. Lines and columns are left out.

* `Atom`, `Expr`, `tables`, `action`, `Parser.run`: the model.
* `Frames`: the expressions that are open after some tokens, as a list of unfinished lists;
  `Frames.yyss`, `Frames.yyvs`: the stacks of the parser for them.
* **`run_advance`**, `run_advance_none`, `run_end`: what the tables do with a token and at the end.
* **`Parser.run_eq`**: the parser, on every text, by its tokens alone.
-/

namespace Sperm.Nasty

open Yacc

/-! ## Trees -/

/-- An atom has a text, or it is an expression in braces (the type `EX`), with the atoms `as_`. -/
inductive Atom where
  | leaf (type : AtomType) (s : List UInt8)
  | ex (as : List Atom)

/-- An `Expr` is the list of its atoms. -/
abbrev Expr := List Atom

def Expr.appendAtom (e : Expr) (at_ : Atom) : Expr := e ++ [at_]

mutual

def Atom.decEq : (a b : Atom) → Decidable (a = b)
  | .leaf type s, .leaf type' s' => decidable_of_iff (type = type' ∧ s = s') (by simp)
  | .ex as, .ex bs =>
    match Expr.decEq as bs with
    | isTrue h => isTrue (congrArg Atom.ex h)
    | isFalse h => isFalse fun h' => h (Atom.ex.inj h')
  | .leaf _ _, .ex _ => isFalse nofun
  | .ex _, .leaf _ _ => isFalse nofun

def Expr.decEq : (as bs : List Atom) → Decidable (as = bs)
  | [], [] => isTrue rfl
  | a :: as, b :: bs =>
    match Atom.decEq a b, Expr.decEq as bs with
    | isTrue h, isTrue h' => isTrue (congrArg₂ List.cons h h')
    | isFalse h, _ => isFalse fun h' => h (List.cons.inj h').1
    | _, isFalse h => isFalse fun h' => h (List.cons.inj h').2
  | [], _ :: _ => isFalse nofun
  | _ :: _, [] => isFalse nofun

end

instance : DecidableEq Atom := Atom.decEq

/-! ## The tables of `nasty.y.cc` -/

def tables : Tables where
  yypact := [3, 3, -4, -4, -4, -4, 7, 3, -4, -3, -4, -4, -4]
  yydefact := [0, 0, 6, 7, 8, 9, 0, 2, 4, 0, 1, 3, 5]
  yypgoto := [-4, -4, 12, 5]
  yydefgoto := [-1, 6, 7, 8]
  yytable := [1, 12, 2, 3, 4, 5, 1, 10, 2, 3, 4, 5, 11, 9, 11]
  yycheck := [3, 4, 5, 6, 7, 8, 3, 0, 5, 6, 7, 8, 7, 1, 9]
  yyr1 := [0, 9, 10, 11, 11, 12, 12, 12, 12, 12]
  yyr2 := [0, 2, 1, 2, 1, 3, 1, 1, 1, 1]
  yypactNinf := -4
  yylast := 14
  yyntokens := 9
  yyfinal := 10
  yymaxdepth := 10000

/-- The union of `nasty.parser`. The braces leave `yylval` alone, and no action reads theirs. -/
inductive YYSTYPE where
  | none
  | atom (a : Atom)
  | expr (e : Expr)
  deriving DecidableEq

/-- The number of the token, as `YYTRANSLATE` gives it. -/
def Token.yytoken : Token → ℕ
  | .lbrace => 3
  | .rbrace => 4
  | .atom .id _ => 5
  | .atom .dbl _ => 6
  | .atom .int _ => 7
  | .atom .sr _ => 8

def Token.yylval : Token → YYSTYPE
  | .lbrace => .none
  | .rbrace => .none
  | .atom type text => .atom (.leaf type text)

/-- The actions of `nasty.parser`, by the number of the rule. The parser holds `ex_`. -/
def action : ℕ → List YYSTYPE → Option Expr → YYSTYPE × Option Expr
  | 2, [.expr e], _ => (.expr e, some e)
  | 3, [.expr e, .atom a], ex => (.expr (e.appendAtom a), ex)
  | 4, [.atom a], ex => (.expr (Expr.appendAtom [] a), ex)
  | 5, [_, .expr e, _], ex => (.atom (.ex e), ex)
  | _, v :: _, ex => (v, ex)
  | _, [], ex => (.none, ex)

def machine : Machine YYSTYPE (List UInt8) (Option Expr) where
  tables := tables
  yylex w :=
    match yylex w with
    | (some tok, r) => ((tok.yytoken, tok.yylval), r)
    | (none, r) => ((0, .none), r)
  action := action

/-- `Parser::run` on the contents of the file, `none` if it cannot be opened. `yyerror` is a fatal
error, so `yyparse` returns only if it accepts. It makes no more than three moves for a token. -/
def Parser.run : Option (List UInt8) → Except Fault (Option Expr)
  | none => .ok none
  | some w =>
    match machine.run (3 * w.length + 3) (Machine.start w none) with
    | .accept ex => .ok ex
    | .error _ => .error .fatal
    | .next _ => .error .diverge

/-! ## Open expressions -/

/-- The expressions that are open after some tokens: the atoms of the innermost one, and those of
the expressions around it before their last brace. -/
structure Frames where
  cur : Expr
  outer : List Expr

/-- The states of the parser for open expressions. An expression that has an atom has a state of its
own, `7` outside braces and `9` inside. -/
def yyss : Expr → List Expr → List ℕ
  | [], [] => [0]
  | _ :: _, [] => [7, 0]
  | [], as :: outer => 1 :: yyss as outer
  | _ :: _, as :: outer => 9 :: 1 :: yyss as outer

/-- The values next to these states. The bottom state has none. -/
def yyvs : Expr → List Expr → List YYSTYPE
  | [], [] => []
  | a :: as, [] => [.expr (a :: as)]
  | [], as :: outer => .none :: yyvs as outer
  | b :: bs, as :: outer => .expr (b :: bs) :: .none :: yyvs as outer

namespace Frames

/-- Before the first token. -/
def init : Frames := ⟨[], []⟩

def append (F : Frames) (a : Atom) : Frames := ⟨F.cur.appendAtom a, F.outer⟩

/-- The open expressions after one more token. -/
def shift (F : Frames) : Token → Option Frames
  | .atom type text => some (F.append (.leaf type text))
  | .lbrace => some ⟨[], F.cur :: F.outer⟩
  | .rbrace =>
    match F.outer with
    | [] => none
    | as :: outer => if F.cur = [] then none else some (append ⟨as, outer⟩ (.ex F.cur))

/-- The entries of the stack that an expression takes. -/
def entries (as : Expr) : ℕ := if as = [] then 1 else 2

def height (F : Frames) : ℕ := entries F.cur + (F.outer.map entries).sum

/-- The stack has room for one more token. -/
def Fits (F : Frames) : Prop := F.height + 1 < tables.yymaxdepth

instance (F : Frames) : Decidable F.Fits := inferInstanceAs (Decidable (_ < _))

/-- One more token, if the stack has room for it. -/
def advance (F : Frames) (tok : Token) : Option Frames := if F.Fits then F.shift tok else none

/-- The program that the open expressions and the rest of the tokens make up. -/
def parse (F : Frames) : List Token → Option Expr
  | [] => if F.outer = [] ∧ F.cur ≠ [] then some F.cur else none
  | tok :: toks => (F.advance tok).bind fun F' => F'.parse toks

/-- The parser when it is about to read a token. -/
def config (F : Frames) (w : List UInt8) (ex : Option Expr) :
    Config YYSTYPE (List UInt8) (Option Expr) :=
  ⟨yyss F.cur F.outer, yyvs F.cur F.outer, none, w, ex⟩

end Frames

theorem Frames.shift_cases {F F' : Frames} {tok : Token} (h : F.shift tok = some F') :
    (∃ type text, tok = .atom type text ∧ F' = F.append (.leaf type text)) ∨
      (tok = .lbrace ∧ F' = ⟨[], F.cur :: F.outer⟩) ∨
      ∃ a as bs outer, tok = .rbrace ∧ F = ⟨a :: as, bs :: outer⟩ ∧
        F' = append ⟨bs, outer⟩ (.ex (a :: as)) := by
  cases tok with
  | atom type text =>
    cases h
    exact .inl ⟨type, text, rfl, rfl⟩
  | lbrace =>
    cases h
    exact .inr (.inl ⟨rfl, rfl⟩)
  | rbrace =>
    obtain ⟨as, outer⟩ := F
    cases outer with
    | nil => cases h
    | cons bs outer =>
      cases as with
      | nil => cases h
      | cons a as =>
        cases h
        exact .inr (.inr ⟨a, as, bs, outer, rfl, rfl, rfl⟩)

theorem length_yyss (as : Expr) (outer : List Expr) :
    (yyss as outer).length = Frames.height ⟨as, outer⟩ := by
  induction outer generalizing as with
  | nil =>
    cases as with
    | nil => rfl
    | cons a as => rfl
  | cons bs outer ih =>
    cases as with
    | nil =>
      simp [yyss, ih, Frames.height, Frames.entries]
      omega
    | cons a as =>
      simp [yyss, ih, Frames.height, Frames.entries]
      omega

/-- The state of an atom: it is the first one of its expression, or not. -/
def atomState (as : Expr) : ℕ := if as = [] then 8 else 11

/-- The state on top: whether the innermost expression has an atom decides what comes next. -/
theorem yyss_cases (as : Expr) (outer : List Expr) :
    ∃ s ss, yyss as outer = s :: ss ∧
      (as = [] ∧ (s = 0 ∨ s = 1) ∨ as ≠ [] ∧ (s = 7 ∨ s = 9)) := by
  cases outer with
  | nil =>
    cases as with
    | nil => exact ⟨0, _, rfl, .inl ⟨rfl, .inl rfl⟩⟩
    | cons a as => exact ⟨7, _, rfl, .inr ⟨List.cons_ne_nil a as, .inl rfl⟩⟩
  | cons bs outer =>
    cases as with
    | nil => exact ⟨1, _, rfl, .inl ⟨rfl, .inr rfl⟩⟩
    | cons a as => exact ⟨9, _, rfl, .inr ⟨List.cons_ne_nil a as, .inr rfl⟩⟩

theorem isDefault_top (as : Expr) (outer : List Expr) :
    tables.isDefault ((yyss as outer).headD 0) = false := by
  obtain ⟨s, ss, hss, hs⟩ := yyss_cases as outer
  rw [hss, List.headD_cons]
  rcases hs with ⟨-, rfl | rfl⟩ | ⟨-, rfl | rfl⟩ <;> rfl

theorem goto_atom (as : Expr) (outer : List Expr) {rule : ℕ}
    (hr : tables.yyr1.getD rule 0 = 12) :
    tables.goto ((yyss as outer).headD 0) rule = atomState as := by
  obtain ⟨s, ss, hss, hs⟩ := yyss_cases as outer
  unfold Tables.goto atomState
  rw [hr, hss, List.headD_cons]
  rcases hs with ⟨has, rfl | rfl⟩ | ⟨has, rfl | rfl⟩
  · rw [if_pos has]
    rfl
  · rw [if_pos has]
    rfl
  · rw [if_neg has]
    rfl
  · rw [if_neg has]
    rfl

/-- The parser with an atom on top of the stacks. -/
def Frames.atomConfig (F : Frames) (a : Atom) (w : List UInt8) (ex : Option Expr) :
    Config YYSTYPE (List UInt8) (Option Expr) :=
  ⟨atomState F.cur :: yyss F.cur F.outer, .atom a :: yyvs F.cur F.outer, none, w, ex⟩

section

variable {F : Frames} {w : List UInt8} {ex : Option Expr} {a : Atom}

theorem step_atomState (hfit : F.Fits) :
    machine.step (F.atomConfig a w ex) = .next ((F.append a).config w ex) := by
  obtain ⟨as, outer⟩ := F
  have hdef : tables.isDefault (atomState as) = true := by
    cases as <;> rfl
  unfold Frames.Fits at hfit
  rw [← length_yyss] at hfit
  rw [Frames.atomConfig, Machine.step_of_isDefault hdef]
  cases as with
  | nil =>
    cases outer with
    | nil => exact Machine.reduce_eq rfl rfl rfl rfl (by decide) (by decide)
    | cons bs outer =>
      exact Machine.reduce_eq rfl rfl rfl rfl (by decide) hfit
  | cons b bs =>
    cases outer with
    | nil => exact Machine.reduce_eq rfl rfl rfl rfl (by decide) (by decide)
    | cons cs outer =>
      exact Machine.reduce_eq rfl rfl rfl rfl (by decide) (Nat.lt_of_succ_lt hfit)

theorem reduce_atom {rule : ℕ} (ss : List ℕ) (vs : List YYSTYPE) (hfit : F.Fits)
    (hlhs : tables.yyr1.getD rule 0 = 12) (hrhs : tables.yyr2.getD rule 0 = ss.length)
    (hvs : vs.length = ss.length) (hact : action rule vs.reverse ex = (.atom a, ex)) :
    machine.reduce rule ⟨ss ++ yyss F.cur F.outer, vs ++ yyvs F.cur F.outer, none, w, ex⟩ =
      .next (F.atomConfig a w ex) := by
  unfold Frames.Fits at hfit
  rw [← length_yyss] at hfit
  have hgoto := goto_atom F.cur F.outer hlhs
  obtain ⟨s, ss', hss, -⟩ := yyss_cases F.cur F.outer
  rw [hss, List.headD_cons] at hgoto
  rw [Frames.atomConfig, hss]
  rw [hss] at hfit
  have hstate : atomState F.cur ≠ machine.tables.yyfinal := by
    unfold atomState
    split_ifs <;> decide
  have hdrop : (vs ++ yyvs F.cur F.outer).drop ss.length = yyvs F.cur F.outer := by
    rw [← hvs, List.drop_left]
  have hact' : machine.action rule ((vs ++ yyvs F.cur F.outer).take ss.length).reverse ex =
      (.atom a, ex) := by
    rw [← hvs, List.take_left]
    exact hact
  rw [Machine.reduce_eq hrhs List.drop_left hact' hgoto hstate hfit, hdrop]

theorem yylex_of_some {tok : Token} {w' : List UInt8} (h : yylex w = (some tok, w')) :
    machine.yylex w = ((tok.yytoken, tok.yylval), w') := by
  simp only [machine, h]

theorem yylex_of_none (h : (yylex w).1 = none) :
    machine.yylex w = ((0, .none), (yylex w).2) := by
  have hw : yylex w = (none, (yylex w).2) := by rw [← h]
  simp only [machine]
  rw [hw]

theorem step_config {token : ℕ × YYSTYPE} {w' : List UInt8}
    (hlex : machine.yylex w = (token, w')) :
    machine.step (F.config w ex) =
      machine.perform (tables.move ((yyss F.cur F.outer).headD 0) token.1)
        ⟨yyss F.cur F.outer, yyvs F.cur F.outer, some token, w', ex⟩ := by
  have hdef := isDefault_top F.cur F.outer
  obtain ⟨s, ss, hss, -⟩ := yyss_cases F.cur F.outer
  unfold Frames.config
  rw [hss, List.headD_cons] at hdef
  rw [hss, List.headD_cons, Machine.step_of_yylex hdef hlex]
  rfl

theorem step_shift {tok : Token} {w' : List UInt8} {t : ℕ} (hlex : yylex w = (some tok, w'))
    (hmove : tables.move ((yyss F.cur F.outer).headD 0) tok.yytoken = .shift t) :
    machine.step (F.config w ex) =
      machine.enter t ⟨yyss F.cur F.outer, tok.yylval :: yyvs F.cur F.outer, none, w', ex⟩ := by
  rw [step_config (yylex_of_some hlex), hmove]
  rfl

theorem enter_eq {t : ℕ} {vs : List YYSTYPE} (ht : t ≠ tables.yyfinal) (hfit : F.Fits) :
    machine.enter t ⟨yyss F.cur F.outer, vs, none, w, ex⟩ =
      .next ⟨t :: yyss F.cur F.outer, vs, none, w, ex⟩ := by
  unfold Frames.Fits at hfit
  rw [← length_yyss] at hfit
  exact Machine.enter_of_lt hfit ht

theorem enter_exhausted {t : ℕ} {vs : List YYSTYPE} (hfit : ¬ F.Fits) :
    machine.enter t ⟨yyss F.cur F.outer, vs, none, w, ex⟩ = .error .memoryExhausted := by
  unfold Frames.Fits at hfit
  rw [← length_yyss, not_lt] at hfit
  exact Machine.enter_of_le hfit

/-- The state of a token that is an atom. -/
def leafState : AtomType → ℕ
  | .id => 2
  | .dbl => 3
  | .int => 4
  | .sr => 5

theorem move_leaf (as : Expr) (outer : List Expr) (type : AtomType) (text : List UInt8) :
    tables.move ((yyss as outer).headD 0) (Token.atom type text).yytoken =
      .shift (leafState type) := by
  obtain ⟨s, ss, hss, hs⟩ := yyss_cases as outer
  rw [hss, List.headD_cons]
  rcases hs with ⟨-, rfl | rfl⟩ | ⟨-, rfl | rfl⟩ <;> cases type <;> rfl

theorem move_lbrace (as : Expr) (outer : List Expr) :
    tables.move ((yyss as outer).headD 0) Token.lbrace.yytoken = .shift 1 := by
  obtain ⟨s, ss, hss, hs⟩ := yyss_cases as outer
  rw [hss, List.headD_cons]
  rcases hs with ⟨-, rfl | rfl⟩ | ⟨-, rfl | rfl⟩ <;> rfl

theorem run_leaf {type : AtomType} {text w' : List UInt8} (hfit : F.Fits)
    (hlex : yylex w = (some (.atom type text), w')) :
    machine.run 3 (F.config w ex) = .next ((F.append (.leaf type text)).config w' ex) := by
  have hfinal : leafState type ≠ tables.yyfinal := by cases type <;> decide
  have hdef : tables.isDefault (leafState type) = true := by cases type <;> rfl
  have hstep : machine.step ⟨leafState type :: yyss F.cur F.outer,
      (Token.atom type text).yylval :: yyvs F.cur F.outer, none, w', ex⟩ =
        .next (F.atomConfig (.leaf type text) w' ex) := by
    rw [Machine.step_of_isDefault hdef]
    cases type <;> exact reduce_atom [_] [_] hfit rfl rfl rfl rfl
  rw [Machine.run, step_shift hlex (move_leaf _ _ _ _), enter_eq hfinal hfit, Outcome.andThen,
    Machine.run, hstep, Outcome.andThen, Machine.run, step_atomState hfit]
  rfl

theorem run_lbrace {w' : List UInt8} (hfit : F.Fits) (hlex : yylex w = (some .lbrace, w')) :
    machine.run 1 (F.config w ex) = .next (Frames.config ⟨[], F.cur :: F.outer⟩ w' ex) := by
  rw [Machine.run, step_shift hlex (move_lbrace _ _), enter_eq (by decide) hfit]
  rfl

theorem run_rbrace {b : Atom} {as bs : Expr} {outer : List Expr} {w' : List UInt8}
    (hfit : Frames.Fits ⟨b :: bs, as :: outer⟩) (hlex : yylex w = (some .rbrace, w')) :
    machine.run 3 (Frames.config ⟨b :: bs, as :: outer⟩ w ex) =
      .next ((Frames.append ⟨as, outer⟩ (.ex (b :: bs))).config w' ex) := by
  have hfit' : Frames.Fits ⟨as, outer⟩ := by
    unfold Frames.Fits Frames.height at hfit ⊢
    rw [List.map_cons, List.sum_cons] at hfit
    dsimp only at hfit ⊢
    omega
  have hstep : machine.step ⟨12 :: 9 :: 1 :: yyss as outer,
      Token.rbrace.yylval :: .expr (b :: bs) :: .none :: yyvs as outer, none, w', ex⟩ =
        .next (Frames.atomConfig ⟨as, outer⟩ (.ex (b :: bs)) w' ex) := by
    rw [Machine.step_of_isDefault rfl]
    exact reduce_atom (F := ⟨as, outer⟩) [12, 9, 1] [.none, .expr (b :: bs), .none] hfit' rfl rfl
      rfl rfl
  rw [Machine.run, step_shift (t := 12) hlex rfl, enter_eq (by decide) hfit, Outcome.andThen,
    Machine.run]
  dsimp only [yyss, yyvs]
  rw [hstep, Outcome.andThen, Machine.run, step_atomState (F := ⟨as, outer⟩) hfit']
  rfl

/-- Without room, a token that would be shifted is an error. -/
theorem run_exhausted {tok : Token} {w' : List UInt8} {t : ℕ} (hfit : ¬ F.Fits)
    (hlex : yylex w = (some tok, w'))
    (hmove : tables.move ((yyss F.cur F.outer).headD 0) tok.yytoken = .shift t) :
    machine.run 1 (F.config w ex) = .error .memoryExhausted := by
  rw [Machine.run, step_shift hlex hmove, enter_exhausted hfit]
  rfl

/-- A closing brace without an expression inside braces. Outside braces the parser takes the
expression for the whole program before it sees the error. -/
theorem run_stray_rbrace {w' : List UInt8} (hlex : yylex w = (some .rbrace, w'))
    (h : F.shift .rbrace = none) :
    ∃ k ≤ 3, machine.run k (F.config w ex) = .error .syntaxError := by
  have hlex' := yylex_of_some hlex
  obtain ⟨as, outer⟩ := F
  cases outer with
  | nil =>
    cases as with
    | nil =>
      refine ⟨1, by omega, ?_⟩
      rw [Machine.run, step_config hlex']
      rfl
    | cons a as =>
      refine ⟨2, by omega, ?_⟩
      rw [Machine.run, step_config hlex']
      rfl
  | cons bs outer =>
    cases as with
    | nil =>
      refine ⟨1, by omega, ?_⟩
      rw [Machine.run, step_config hlex']
      rfl
    | cons a as => cases h

/-- **One token**: the open expressions follow it, if there is room and the token fits. -/
theorem run_advance {F' : Frames} {tok : Token} {w' : List UInt8}
    (hlex : yylex w = (some tok, w')) (h : F.advance tok = some F') (ex : Option Expr) :
    ∃ k ≤ 3, machine.run k (F.config w ex) = .next (F'.config w' ex) := by
  obtain ⟨hfit, h⟩ := Option.ite_none_right_eq_some.mp h
  obtain ⟨type, text, rfl, rfl⟩ | ⟨rfl, rfl⟩ | ⟨a, as, bs, outer, rfl, rfl, rfl⟩ :=
    Frames.shift_cases h
  · exact ⟨3, le_rfl, run_leaf hfit hlex⟩
  · exact ⟨1, by omega, run_lbrace hfit hlex⟩
  · exact ⟨3, le_rfl, run_rbrace hfit hlex⟩

/-- **One token** that does not fit is an error. -/
theorem run_advance_none {tok : Token} {w' : List UInt8} (hlex : yylex w = (some tok, w'))
    (h : F.advance tok = none) (ex : Option Expr) :
    ∃ k e, k ≤ 3 ∧ machine.run k (F.config w ex) = .error e := by
  by_cases hfit : F.Fits
  · rw [Frames.advance, if_pos hfit] at h
    cases tok with
    | lbrace => cases h
    | rbrace =>
      obtain ⟨k, hk, hrun⟩ := run_stray_rbrace hlex h
      exact ⟨k, _, hk, hrun⟩
    | atom type text => cases h
  · cases tok with
    | lbrace => exact ⟨1, _, by omega, run_exhausted hfit hlex (move_lbrace _ _)⟩
    | rbrace =>
      cases hs : F.shift .rbrace with
      | none =>
        obtain ⟨k, hk, hrun⟩ := run_stray_rbrace hlex hs
        exact ⟨k, _, hk, hrun⟩
      | some F' =>
        obtain ⟨_, _, htok, -⟩ | ⟨htok, -⟩ | ⟨a, as, bs, outer, -, rfl, -⟩ := Frames.shift_cases hs
        · cases htok
        · cases htok
        · exact ⟨1, _, by omega, run_exhausted (t := 12) hfit hlex rfl⟩
    | atom type text => exact ⟨1, _, by omega, run_exhausted hfit hlex (move_leaf _ _ _ _)⟩

theorem run_end (hlex : (yylex w).1 = none) :
    machine.run 2 (F.config w ex) =
      if F.outer = [] ∧ F.cur ≠ [] then .accept (some F.cur) else .error .syntaxError := by
  have hlex' := yylex_of_none hlex
  obtain ⟨as, outer⟩ := F
  cases outer with
  | nil =>
    cases as with
    | nil =>
      rw [Machine.run, step_config hlex']
      rfl
    | cons a as =>
      rw [if_pos ⟨rfl, List.cons_ne_nil _ _⟩, Machine.run, step_config hlex']
      rfl
  | cons bs outer =>
    rw [if_neg fun h => List.cons_ne_nil _ _ h.1]
    cases as with
    | nil =>
      rw [Machine.run, step_config hlex']
      rfl
    | cons a as =>
      rw [Machine.run, step_config hlex']
      rfl

/-- The outcome of the parser, by the tokens. -/
def outcome : Option Expr → Outcome YYSTYPE (List UInt8) (Option Expr) → Prop
  | some e, o => o = .accept (some e)
  | none, o => ∃ e, o = .error e

/-- The tables follow the open expressions to the end of the tokens. -/
theorem run_parse {toks : List Token} {rest : List UInt8} (hstops : Stops rest)
    (hlex : Lexes w toks rest) (ex : Option Expr) {n : ℕ} (hn : 3 * toks.length + 2 ≤ n) :
    outcome (F.parse toks) (machine.run n (F.config w ex)) := by
  induction toks generalizing F w n with
  | nil =>
    obtain ⟨m, rfl⟩ := Nat.exists_eq_add_of_le hn
    rw [List.length_nil, Nat.mul_zero, Nat.zero_add, Machine.run_add,
      run_end (hlex.yylex_nil hstops), Frames.parse]
    split_ifs
    · rfl
    · exact ⟨_, rfl⟩
  | cons tok toks ih =>
    obtain ⟨w', htok, hlex'⟩ := hlex.yylex_cons
    rw [List.length_cons] at hn
    rw [Frames.parse]
    cases hadv : F.advance tok with
    | none =>
      obtain ⟨k, e, hk, hrun⟩ := run_advance_none htok hadv ex
      obtain ⟨m, rfl⟩ := Nat.exists_eq_add_of_le (show k ≤ n by omega)
      rw [Machine.run_add, hrun]
      exact ⟨e, rfl⟩
    | some F' =>
      obtain ⟨k, hk, hrun⟩ := run_advance htok hadv ex
      obtain ⟨m, rfl⟩ := Nat.exists_eq_add_of_le (show k ≤ n by omega)
      rw [Machine.run_add, hrun]
      exact ih hlex' (by omega)

end

/-- **The parser, by the tokens of its text.** It always comes to an end. -/
theorem Parser.run_eq {w rest : List UInt8} {toks : List Token} (hlex : Lexes w toks rest)
    (hstops : Stops rest) :
    Parser.run (some w) =
      match Frames.init.parse toks with
      | some e => .ok (some e)
      | none => .error .fatal := by
  have hlen := hlex.length_le
  have h := run_parse (F := Frames.init) hstops hlex none
    (show 3 * toks.length + 2 ≤ 3 * w.length + 3 by omega)
  rw [Parser.run]
  change outcome _ (machine.run _ (Machine.start w none)) at h
  cases hp : Frames.init.parse toks with
  | some e =>
    rw [hp] at h
    rw [h]
  | none =>
    rw [hp] at h
    obtain ⟨e, h⟩ := h
    rw [h]

end Sperm.Nasty
