import Sperm.Lib.FlexRules
import Sperm.Nasty.Parser

/-!
# The scanner of `nasty.l.cc`

flex translates `nasty.lexer` into the tables of `nasty.l.cc`, which run over a buffer that is
refilled from the file. Here these tables are checked against the rules, and then put under the
tables of bison.

* `flexTables`, `Scanner`, `Scanner.yylex`: the generated scanner.
* `lawful_flexTables`, `follows_flexTables`: the tables are ones of flex, for the rules of
  `nasty.lexer`.
* **`yylexLoop_flex`**: one call of the generated scanner, by the rules alone.
* **`calls_flex`**: any number of calls; **`run_flex`**: the parser over the generated scanner.
-/

namespace Sperm.Nasty

open Munch

/-! ## The tables of `nasty.l.cc` -/

def flexTables : Flex.Tables where
  yyAccept := [0, 0, 0, 10, 8, 7, 7, 4, 8, 1, 2, 6, 4, 0, 3, 0, 5, 6, 5, 0]
  yyEc := [0, 1, 1, 1, 1, 1, 1, 1, 1, 2, 3, 1, 1, 1, 1, 1, 1, 1, 1, 1, 1, 1, 1, 1, 1, 1, 1, 1, 1, 1,
    1, 1, 2, 4, 5, 4, 4, 4, 4, 1, 6, 7, 4, 4, 4, 4, 8, 4, 9, 9, 9, 9, 9, 9, 9, 9, 9, 9, 4, 1, 4, 1,
    4, 1, 4, 4, 4, 4, 4, 4, 4, 4, 4, 4, 4, 4, 4, 4, 4, 4, 4, 4, 4, 4, 4, 4, 4, 4, 4, 4, 4, 1, 10, 1,
    4, 4, 1, 4, 4, 4, 4, 4, 4, 4, 4, 4, 4, 4, 4, 4, 4, 4, 4, 4, 4, 4, 4, 4, 4, 4, 4, 4, 4, 1, 1, 1,
    4] ++ List.replicate 129 1
  yyMeta := [0, 1, 1, 1, 2, 1, 1, 1, 2, 2, 1]
  yyBase := [0, 0, 0, 20, 27, 27, 27, 0, 6, 27, 27, 9, 0, 14, 27, 12, 5, 0, 4, 27, 10, 24]
  yyDef := [0, 19, 1, 19, 19, 19, 19, 20, 21, 19, 19, 19, 20, 21, 19, 21, 19, 11, 19, 0, 19, 19]
  yyNxt := [0, 4, 5, 6, 7, 8, 9, 10, 7, 11, 4, 14, 12, 18, 18, 19, 15, 16, 17, 14, 19, 19, 19, 19,
    15, 13, 13, 3, 19, 19, 19, 19, 19, 19, 19, 19, 19, 19]
  yyChk := [0, 1, 1, 1, 1, 1, 1, 1, 1, 1, 1, 8, 20, 18, 16, 15, 8, 11, 11, 13, 3, 0, 0, 0, 13, 21,
    21, 19, 19, 19, 19, 19, 19, 19, 19, 19, 19, 19]
  start := 1
  templates := 20
  jamState := 19
  jamBase := 27
  endOfBuffer := 10

theorem forall_byte {p : UInt8 → Bool} (h : ∀ n < 256, p (UInt8.ofNat n) = true) (b : UInt8) :
    p b = true := by
  have hb := h b.toNat b.toNat_lt
  rwa [UInt8.ofNat_toNat] at hb

/-- The state `3` is for a NUL, and there are eleven classes. -/
theorem lawful_flexTables : Flex.Lawful flexTables 3 11 where
  ec_lt b := of_decide_eq_true
    (forall_byte (p := fun b => decide (flexTables.ec b < 11)) (by decide +kernel) b)
  ec_eq_zero b := of_decide_eq_true
    (forall_byte (p := fun b => decide (flexTables.ec b = 0 ↔ b = 0)) (by decide +kernel) b)
  one_lt := by decide
  next_isSome := by decide +kernel
  start := by decide
  next := by decide +kernel
  next_zero := by decide +kernel
  next_eob := by decide
  accept_eob := by decide
  accept_ne := by decide
  accept_jam := by decide
  base_jam := by decide
  base_eob := by decide
  jam := by decide
  next_of_base := by decide +kernel
  accept_next_start := by decide
  endOfBuffer_ne := by decide

/-! ## The rules over the classes -/

/-- The number of the action in the `switch` of `yylex`. -/
def Action.number : Action → ℕ
  | lbrace => 1
  | rbrace => 2
  | saveAtom .sr => 3
  | saveAtom .id => 4
  | saveAtom .dbl => 5
  | saveAtom .int => 6
  | skip => 7
  | terminate => 8

/-- The action of a case of the `switch`. The numbers that no rule has are fatal. -/
def Action.ofNumber : ℕ → Option Action
  | 1 => some .lbrace
  | 2 => some .rbrace
  | 3 => some (.saveAtom .sr)
  | 4 => some (.saveAtom .id)
  | 5 => some (.saveAtom .dbl)
  | 6 => some (.saveAtom .int)
  | 7 => some .skip
  | 8 => some .terminate
  | _ => none

section

open Flex.Regex

-- The classes are: 2 for blanks and tabs, 3 newline, 5 quote, 6 and 7 braces, 8 dot, 9 digits,
-- 10 backslash, 4 the other bytes of `C`, 1 the rest.

def stringRegex : Flex.Regex :=
  seq (set [5]) (seq (star (alt (seq (set [10]) (set [1, 2, 4, 5, 6, 7, 8, 9, 10]))
    (set [1, 2, 3, 4, 6, 7, 8, 9]))) (set [5]))

def idRegex : Flex.Regex := seq (set [4, 8]) (star (alt (set [4, 8]) (set [9])))

def intRegex : Flex.Regex := seq (set [9]) (star (set [9]))

def dblRegex : Flex.Regex := seq intRegex (seq (set [8]) (star (set [9])))

/-- `rules` over the classes of `yy_ec`. -/
def regexes : List (Action × Flex.Regex) :=
  [(.lbrace, set [6]), (.rbrace, set [7]), (.saveAtom .sr, stringRegex), (.saveAtom .id, idRegex),
    (.saveAtom .dbl, dblRegex), (.saveAtom .int, intRegex), (.skip, set [2, 3]),
    (.terminate, set [1, 2, 4, 5, 6, 7, 8, 9, 10])]

end

/-- A shortest word of classes to each state. No word leads to the states without an entry. -/
def flexWord (state : ℕ) : List ℕ :=
  [[], [], [], [], [1], [2], [3], [4], [5], [6], [7], [9], [4, 4], [5, 1], [5, 5], [5, 10], [9, 8],
    [9, 9], [9, 8, 9], [1, 1]].getD state []

set_option synthInstance.maxSize 400 in
/-- **The tables follow the rules.** -/
theorem follows_flexTables : Flex.Follows flexTables 3 11 Action.number regexes flexWord where
  number_ne act := by
    cases act with
    | saveAtom type => cases type <;> decide
    | _ => decide
  word_start := by decide
  next := by decide +kernel
  accept := by decide +kernel

theorem set_pattern {p : UInt8 → Bool} {cs : List ℕ}
    (h : ∀ n < 256, p (UInt8.ofNat n) = cs.contains (flexTables.cls (UInt8.ofNat n))) :
    (Flex.Regex.set cs).pattern flexTables.cls = Pattern.set p := by
  refine congrArg Pattern.set (funext fun b => ?_)
  have hb := h b.toNat b.toNat_lt
  rw [UInt8.ofNat_toNat] at hb
  exact hb.symm

/-- The rules over the classes are the rules of `nasty.lexer`. -/
theorem patterns_regexes : Flex.patterns flexTables.cls regexes = rules := by
  have hlparen : (Flex.Regex.set [6]).pattern flexTables.cls = byte lparen :=
    set_pattern (by decide +kernel)
  have hrparen : (Flex.Regex.set [7]).pattern flexTables.cls = byte rparen :=
    set_pattern (by decide +kernel)
  have hquote : (Flex.Regex.set [5]).pattern flexTables.cls = byte quote :=
    set_pattern (by decide +kernel)
  have hbackslash : (Flex.Regex.set [10]).pattern flexTables.cls = byte backslash :=
    set_pattern (by decide +kernel)
  have hdot : (Flex.Regex.set [8]).pattern flexTables.cls = byte dot :=
    set_pattern (by decide +kernel)
  have hC : (Flex.Regex.set [4, 8]).pattern flexTables.cls = Pattern.set isC :=
    set_pattern (by decide +kernel)
  have hD : (Flex.Regex.set [9]).pattern flexTables.cls = Pattern.set isD :=
    set_pattern (by decide +kernel)
  have hwhite : (Flex.Regex.set [2, 3]).pattern flexTables.cls = Pattern.set isWhite :=
    set_pattern (by decide +kernel)
  have hany : (Flex.Regex.set [1, 2, 4, 5, 6, 7, 8, 9, 10]).pattern flexTables.cls = anyByte :=
    set_pattern (by decide +kernel)
  have hplain : (Flex.Regex.set [1, 2, 3, 4, 6, 7, 8, 9]).pattern flexTables.cls =
      Pattern.set fun b => b ≠ backslash && b ≠ quote := set_pattern (by decide +kernel)
  simp only [Flex.patterns, regexes, List.map_cons, List.map_nil, stringRegex, idRegex, dblRegex,
    intRegex, Flex.Regex.pattern_seq, Flex.Regex.pattern_alt, Flex.Regex.pattern_star, hlparen,
    hrparen, hquote, hbackslash, hdot, hC, hD, hwhite, hany, hplain]
  rfl

/-! ## The scanner -/

/-- `yylex` of `nasty.l.cc`: the loop over the actions, up to a token or to `YY_NULL`. The numbers
without an action are fatal, and the loop takes a byte for each action. -/
def flexLoop : ℕ → Flex.Guts → Except Fault (Option Token × Flex.Guts)
  | 0, _ => .error .diverge
  | n + 1, g =>
    match flexTables.yylex g with
    | .error .endOfBufferMissed => .error .fatal
    | .error .outOfFuel => .error .diverge
    | .ok (none, g) => .ok (none, g)
    | .ok (some (act, yytext), g) =>
      match Action.ofNumber act with
      | none => .error .fatal
      | some .skip => flexLoop n g
      | some act => .ok (act.token yytext, g)

def flexYylex (g : Flex.Guts) : Except Fault (Option Token × Flex.Guts) :=
  flexLoop (g.text.length + 1) g

theorem ofNumber_number (act : Action) : Action.ofNumber act.number = some act := by
  cases act with
  | saveAtom type => cases type <;> rfl
  | _ => rfl

theorem scan_flexTables (w : List UInt8) :
    flexTables.scan flexTables.start w = (munch rules w).map fun x => (x.1.number, x.2) := by
  rw [follows_flexTables.scan_eq_munch lawful_flexTables, patterns_regexes]

theorem munch_rules_isSome {w : List UInt8} (hw : w ≠ []) : (munch rules w).isSome = true := by
  have := lawful_flexTables.scan_start_isSome hw
  rwa [scan_flexTables, Option.isSome_map] at this

theorem flexLoop_eq {n : ℕ} {g : Flex.Guts} (hg : g.Valid) (hn : g.text.length < n) :
    ∃ g', flexLoop n g = .ok ((yylexLoop n g.text).1, g') ∧ g'.Valid ∧
      g'.text = (yylexLoop n g.text).2 := by
  induction n generalizing g with
  | zero => exact absurd hn (Nat.not_lt_zero _)
  | succ n ih =>
    obtain ⟨g', hlex, hg', htext⟩ := lawful_flexTables.yylex_spec hg
    rw [scan_flexTables] at hlex htext
    rw [flexLoop, yylexLoop, hlex]
    cases hmunch : munch rules g.text with
    | none =>
      have hnil : g.text = [] := by
        by_contra hne
        have := munch_rules_isSome hne
        rw [hmunch] at this
        cases this
      rw [hmunch] at htext
      exact ⟨g', rfl, hg', htext.trans hnil.symm⟩
    | some x =>
      obtain ⟨act, t, r⟩ := x
      rw [hmunch] at htext
      have hr : g'.text = r := htext
      have hlt := (munch_eq_some.mp hmunch).length_lt
      simp only [Option.map_some, ofNumber_number]
      cases act with
      | skip =>
        obtain ⟨g'', hloop, hg'', htext'⟩ := ih hg' (by rw [hr]; omega)
        rw [hr] at hloop htext'
        exact ⟨g'', hloop, hg'', htext'⟩
      | lbrace => exact ⟨g', rfl, hg', hr⟩
      | rbrace => exact ⟨g', rfl, hg', hr⟩
      | saveAtom type => exact ⟨g', rfl, hg', hr⟩
      | terminate => exact ⟨g', rfl, hg', hr⟩

/-- **One call of the generated scanner** returns what the rules say, and leaves the same text. It
never runs into a fatal error. -/
theorem flexYylex_eq {g : Flex.Guts} (hg : g.Valid) :
    ∃ g', flexYylex g = .ok ((yylex g.text).1, g') ∧ g'.Valid ∧ g'.text = (yylex g.text).2 :=
  flexLoop_eq hg (Nat.lt_succ_self _)

/-! ## Whole files -/

/-- The reads of a file: what `fread` returns, piece by piece. -/
abbrev Reads := List {chunk : List UInt8 // chunk ≠ []}

def Reads.contents (file : Reads) : List UInt8 := file.flatMap Subtype.val

/-- The scanner before its first call. -/
def openGuts (file : Reads) : Flex.Guts := ⟨[], 0, (0, 0), false, file⟩

theorem valid_openGuts (file : Reads) : (openGuts file).Valid := ⟨Nat.le_refl 0, nofun⟩

theorem text_openGuts (file : Reads) : (openGuts file).text = file.contents := rfl

/-- The results of the first `n` calls of the generated scanner. -/
def flexCalls : ℕ → Flex.Guts → Except Fault (List (Option Token))
  | 0, _ => .ok []
  | n + 1, g =>
    match flexYylex g with
    | .error e => .error e
    | .ok (tok, g) => (flexCalls n g).map (tok :: ·)

/-- The results of the first `n` calls, by the rules. -/
def yylexCalls : ℕ → List UInt8 → List (Option Token)
  | 0, _ => []
  | n + 1, w => (yylex w).1 :: yylexCalls n (yylex w).2

theorem flexCalls_eq {g : Flex.Guts} (hg : g.Valid) (n : ℕ) :
    flexCalls n g = .ok (yylexCalls n g.text) := by
  induction n generalizing g with
  | zero => rfl
  | succ n ih =>
    obtain ⟨g', hlex, hg', htext⟩ := flexYylex_eq hg
    rw [flexCalls, yylexCalls, hlex, ← htext]
    simp only [ih hg']
    rfl

-- An identifier over two reads, and a NUL, which the catch-all takes.
example : flexCalls 4 (openGuts [⟨[lparen, 0x61], by decide⟩, ⟨[0x62, rparen, 0, 0x61], by decide⟩])
    = .ok [some .lbrace, some (.atom .id [0x61, 0x62]), some .rbrace, none] := by decide +kernel

/-! ## The parser over the generated scanner -/

/-- A scanner between two calls of the parser. -/
abbrev Scanner := {g : Flex.Guts // g.Valid}

/-- A call is never a fatal error. -/
def Scanner.next (s : Scanner) : {res // flexYylex s.1 = .ok res} :=
  match h : flexYylex s.1 with
  | .ok res => ⟨res, rfl⟩
  | .error _ => absurd h fun herror =>
    have ⟨_, hlex, _⟩ := flexYylex_eq s.2
    nomatch hlex.symm.trans herror

theorem Scanner.next_eq (s : Scanner) :
    s.next.1.1 = (Nasty.yylex s.1.text).1 ∧ s.next.1.2.Valid ∧
      s.next.1.2.text = (Nasty.yylex s.1.text).2 := by
  obtain ⟨g', hlex, hg', htext⟩ := flexYylex_eq s.2
  rw [Except.ok.inj (s.next.2.symm.trans hlex)]
  exact ⟨rfl, hg', htext⟩

def Scanner.yylex (s : Scanner) : Option Token × Scanner :=
  (s.next.1.1, ⟨s.next.1.2, s.next_eq.2.1⟩)

/-- The call as the parser makes it. -/
def Scanner.token (s : Scanner) : (ℕ × YYSTYPE) × Scanner :=
  match s.yylex.1 with
  | some tok => ((tok.yytoken, tok.yylval), s.yylex.2)
  | none => ((0, .none), s.yylex.2)

theorem Scanner.token_eq (s : Scanner) :
    machine.yylex s.1.text = (s.token.1, s.token.2.1.text) := by
  obtain ⟨htok, -, htext⟩ := s.next_eq
  have htok' : s.yylex.1 = (Nasty.yylex s.1.text).1 := htok
  have htext' : s.yylex.2.1.text = (Nasty.yylex s.1.text).2 := htext
  rw [Scanner.token, htok']
  cases htok : (Nasty.yylex s.1.text).1 with
  | some tok => exact (yylex_of_some (Prod.ext htok rfl)).trans (congrArg _ htext'.symm)
  | none => exact (yylex_of_none htok).trans (congrArg _ htext'.symm)

/-- The parser of `nasty.y.cc` over the scanner of `nasty.l.cc`. -/
def flexMachine : Yacc.Machine YYSTYPE Scanner (Option Expr) := machine.withScanner Scanner.token

/-- `Parser::run` with the generated scanner. -/
def Parser.runFlex : Option Reads → Except Fault (Option Expr)
  | none => .ok none
  | some file =>
    match flexMachine.run (3 * file.contents.length + 3)
        (Yacc.Machine.start ⟨openGuts file, valid_openGuts file⟩ none) with
    | .accept ex => .ok ex
    | .error _ => .error .fatal
    | .next _ => .error .diverge

theorem run_flexMachine (n : ℕ) (s : Scanner) :
    (flexMachine.run n (Yacc.Machine.start s none)).mapInput (fun s : Scanner => s.1.text) =
      machine.run n (Yacc.Machine.start s.1.text none) :=
  @Yacc.run_mapInput _ _ _ _ machine Scanner.token (fun s => s.1.text) Scanner.token_eq _ _

end Sperm.Nasty
