import Sperm.Lib.Munch
import Mathlib.Tactic.Common

/-!
# The lexer of nasty

`nasty.lexer` cuts the bytes of a file into braces, strings, identifiers and numbers. flex takes the
longest match and, among rules of the same length, the first. White space is dropped, and any other
byte ends the tokens as the end of the file does.

* `rules`, `yylex`: the rules of `nasty.lexer`, and one call of the scanner.
* `Lexes`: the tokens at the start of a text, stated about the languages of the rules; `Stops`: no
  rule but the catch-all applies.
* **`exists_lexes`**: every text has its tokens; `Lexes.yylex_cons`, `Lexes.yylex_nil`: the scanner
  finds them.
* `matches_cases`: the words of the rules by their first byte; `string_append_inj`: no string is a
  proper prefix of another.
-/

namespace Sperm.Nasty

open Pattern Munch

/-! ## The rules -/

/-- The types of `Atom` that hold a text. -/
inductive AtomType where
  | sr
  | id
  | dbl
  | int
  deriving DecidableEq

inductive Token where
  | lbrace
  | rbrace
  | atom (type : AtomType) (text : List UInt8)
  deriving DecidableEq

/-- The actions of the rules. -/
inductive Action where
  | lbrace
  | rbrace
  | saveAtom (type : AtomType)
  | skip
  | terminate
  deriving DecidableEq

/-- What the action returns for the text `yytext`. -/
def Action.token : Action → List UInt8 → Option Token
  | lbrace, _ => some .lbrace
  | rbrace, _ => some .rbrace
  | saveAtom type, yytext => some (.atom type yytext)
  | skip, _ => none
  | terminate, _ => none

/-- A set of characters as it stands between brackets, as a list of ranges. -/
def inRanges (ranges : List (Char × Char)) (b : UInt8) : Bool :=
  ranges.any fun range => range.1.toUInt8 ≤ b && b ≤ range.2.toUInt8

-- In `[a-zA-Z_!@#$%^&*+-/<>:~]` the piece `+-/` is a range: it has the comma and the dot, too.
def isC : UInt8 → Bool :=
  inRanges [('a', 'z'), ('A', 'Z'), ('_', '_'), ('!', '!'), ('@', '@'), ('#', '#'), ('$', '$'),
    ('%', '%'), ('^', '^'), ('&', '&'), ('*', '*'), ('+', '/'), ('<', '<'), ('>', '>'), (':', ':'),
    ('~', '~')]

def isD : UInt8 → Bool := inRanges [('0', '9')]

def lparen : UInt8 := 0x28
def rparen : UInt8 := 0x29
def quote : UInt8 := 0x22
def backslash : UInt8 := 0x5c
def dot : UInt8 := 0x2e
def space : UInt8 := 0x20
def tab : UInt8 := 0x09
def newline : UInt8 := 0x0a

def isWhite (b : UInt8) : Bool := b = space || b = tab || b = newline

/-- The bytes that stand for themselves. -/
def isDelimiter (b : UInt8) : Bool := b = lparen || b = rparen || isWhite b

def byte (b : UInt8) : Pattern UInt8 := set fun b' => b' = b

/-- The dot of flex. -/
def anyByte : Pattern UInt8 := set fun b => b ≠ newline

/-- The body of a string, `(\\.|[^\\"])*`. -/
def stringBody : Pattern UInt8 :=
  star (alt (seq (byte backslash) anyByte) (set fun b => b ≠ backslash && b ≠ quote))

def stringPattern : Pattern UInt8 := seq (byte quote) (seq stringBody (byte quote))

/-- `{C}({C}|{D})*`. -/
def idPattern : Pattern UInt8 := seq (set isC) (star (alt (set isC) (set isD)))

/-- `{D}+`. -/
def intPattern : Pattern UInt8 := seq (set isD) (star (set isD))

/-- `{D}+\.{D}*`. -/
def dblPattern : Pattern UInt8 := seq intPattern (seq (byte dot) (star (set isD)))

/-- The rules for tokens and white space, in the order of `nasty.lexer`. -/
def classes : List (Action × Pattern UInt8) :=
  [(.lbrace, byte lparen), (.rbrace, byte rparen), (.saveAtom .sr, stringPattern),
    (.saveAtom .id, idPattern), (.saveAtom .dbl, dblPattern), (.saveAtom .int, intPattern),
    (.skip, set isWhite)]

def rules : List (Action × Pattern UInt8) := classes ++ [(.terminate, anyByte)]

/-! ## The scanner -/

/-- The loop of the scanner, which ends with a token or with the end of the tokens. -/
def yylexLoop : ℕ → List UInt8 → Option Token × List UInt8
  | 0, w => (none, w)
  | n + 1, w =>
    match munch rules w with
    | none => (none, w)
    | some (.skip, _, r) => yylexLoop n r
    | some (act, t, r) => (act.token t, r)

/-- One call of the scanner: the next token, or `none` for `YYEOF`, and the bytes after it. The loop
takes at least one byte each time. -/
def yylex (w : List UInt8) : Option Token × List UInt8 := yylexLoop (w.length + 1) w

/-- The text `w` starts with the tokens `toks`, up to white space, and goes on with `rest`. -/
inductive Lexes : List UInt8 → List Token → List UInt8 → Prop where
  | nil (w : List UInt8) : Lexes w [] w
  | white {w t r rest : List UInt8} {toks : List Token} (h : Lexeme classes w .skip t r)
      (hr : Lexes r toks rest) : Lexes w toks rest
  | token {w t r rest : List UInt8} {toks : List Token} {act : Action} {tok : Token}
      (h : Lexeme classes w act t r) (htok : act.token t = some tok) (hr : Lexes r toks rest) :
      Lexes w (tok :: toks) rest

/-- No token and no white space starts here: this is the end of the text, or a byte that only the
catch-all takes. -/
def Stops (w : List UInt8) : Prop := ∀ t r, t ++ r = w → t ≠ [] → ¬ Matches classes t

variable {w t r rest : List UInt8} {toks : List Token} {tok : Token} {act : Action}

theorem Lexes.trans {toks' : List Token} {rest' : List UInt8} (h : Lexes w toks rest)
    (h' : Lexes rest toks' rest') : Lexes w (toks ++ toks') rest' := by
  induction h with
  | nil w => exact h'
  | white hw _ ih => exact .white hw (ih h')
  | token hw htok _ ih => exact .token hw htok (ih h')

theorem Lexes.length_le (h : Lexes w toks rest) : toks.length ≤ w.length := by
  induction h with
  | nil w => exact Nat.zero_le _
  | white hw _ ih => exact ih.trans hw.length_lt.le
  | token hw _ _ ih => exact ih.trans_lt hw.length_lt

theorem munch_rules_of_lexeme (h : Lexeme classes w act t r) :
    munch rules w = some (act, t, r) := by
  have hm := munch_eq_some.mpr h
  obtain ⟨a, w, rfl⟩ : ∃ a v, w = a :: v := by
    cases w with
    | nil => cases hm
    | cons a w => exact ⟨a, w, rfl⟩
  rw [rules, anyByte, munch_catchAll, hm, Option.some_or]

theorem yylexLoop_white {n : ℕ} (h : Lexeme classes w .skip t r) :
    yylexLoop (n + 1) w = yylexLoop n r := by
  rw [yylexLoop, munch_rules_of_lexeme h]

theorem yylexLoop_token {n : ℕ} (h : Lexeme classes w act t r) (htok : act.token t = some tok) :
    yylexLoop (n + 1) w = (some tok, r) := by
  rw [yylexLoop, munch_rules_of_lexeme h]
  cases act with
  | skip => cases htok
  | lbrace => exact congrArg (·, r) htok
  | rbrace => exact congrArg (·, r) htok
  | saveAtom type => exact congrArg (·, r) htok
  | terminate => cases htok

theorem yylexLoop_stops {n : ℕ} (h : Stops w) : (yylexLoop n w).1 = none := by
  cases n with
  | zero => rfl
  | succ n =>
    cases w with
    | nil => rfl
    | cons a w =>
      rw [yylexLoop, rules, anyByte, munch_catchAll, munch_eq_none.mpr h, Option.none_or]
      split_ifs <;> rfl

theorem Lexes.yylex_cons (h : Lexes w (tok :: toks) rest) :
    ∃ r, yylex w = (some tok, r) ∧ Lexes r toks rest := by
  have hloop : ∀ n, w.length < n → ∃ r, yylexLoop n w = (some tok, r) ∧ Lexes r toks rest := by
    generalize hl : tok :: toks = l at h
    induction h with
    | nil w => cases hl
    | white hw hr ih =>
      intro n hn
      obtain ⟨n, rfl⟩ := Nat.exists_eq_succ_of_ne_zero (Nat.ne_zero_of_lt hn)
      have hlt := hw.length_lt
      rw [Nat.succ_eq_add_one, yylexLoop_white hw]
      exact ih hl n (by omega)
    | token hw htok hr =>
      intro n hn
      cases hl
      obtain ⟨n, rfl⟩ := Nat.exists_eq_succ_of_ne_zero (Nat.ne_zero_of_lt hn)
      exact ⟨_, yylexLoop_token hw htok, hr⟩
  exact hloop _ (Nat.lt_succ_self _)

theorem Lexes.yylex_nil (h : Lexes w [] rest) (hs : Stops rest) : (yylex w).1 = none := by
  have hloop : ∀ n, w.length < n → (yylexLoop n w).1 = none := by
    generalize hl : ([] : List Token) = l at h
    induction h with
    | nil w => exact fun n _ => yylexLoop_stops hs
    | white hw hr ih =>
      intro n hn
      obtain ⟨n, rfl⟩ := Nat.exists_eq_succ_of_ne_zero (Nat.ne_zero_of_lt hn)
      have hlt := hw.length_lt
      rw [Nat.succ_eq_add_one, yylexLoop_white hw]
      exact ih hs hl n (by omega)
    | token hw htok hr => cases hl
  exact hloop _ (Nat.lt_succ_self _)

/-- **Every text has its tokens**, up to its end or to the first byte that only the catch-all
takes. -/
theorem exists_lexes (w : List UInt8) : ∃ toks rest, Lexes w toks rest ∧ Stops rest := by
  induction hn : w.length using Nat.strong_induction_on generalizing w with
  | _ n ih =>
    subst hn
    cases hm : munch classes w with
    | none => exact ⟨[], w, .nil w, munch_eq_none.mp hm⟩
    | some x =>
      obtain ⟨act, t, r⟩ := x
      have hlex := munch_eq_some.mp hm
      obtain ⟨toks, rest, hr, hstops⟩ := ih r.length hlex.length_lt r rfl
      cases htok : act.token t with
      | some tok => exact ⟨tok :: toks, rest, .token hlex htok hr, hstops⟩
      | none =>
        cases act with
        | lbrace => cases htok
        | rbrace => cases htok
        | saveAtom type => cases htok
        | skip => exact ⟨toks, rest, .white hlex hr, hstops⟩
        | terminate => exact absurd hlex.first (by simp [First, classes])

theorem stops_nil : Stops [] := fun _ _ h hne => absurd (List.append_eq_nil_iff.mp h).1 hne

theorem Stops.not_lexeme (h : Stops w) : ¬ Lexeme classes w act t r :=
  fun hlex => h t r hlex.append_eq hlex.ne_nil hlex.first.matches

theorem Lexes.unique {toks' : List Token} {rest' : List UInt8} (h : Lexes w toks rest)
    (hs : Stops rest) (h' : Lexes w toks' rest') (hs' : Stops rest') :
    toks = toks' ∧ rest = rest' := by
  induction h generalizing toks' with
  | nil w =>
    cases h' with
    | nil => exact ⟨rfl, rfl⟩
    | white hw' => exact absurd hw' hs.not_lexeme
    | token hw' => exact absurd hw' hs.not_lexeme
  | white hw _ ih =>
    cases h' with
    | nil => exact absurd hw hs'.not_lexeme
    | white hw' hr' =>
      cases (munch_eq_some.mpr hw).symm.trans (munch_eq_some.mpr hw')
      exact ih hs hr'
    | token hw' htok' =>
      cases (munch_eq_some.mpr hw).symm.trans (munch_eq_some.mpr hw')
      cases htok'
  | token hw htok _ ih =>
    cases h' with
    | nil => exact absurd hw hs'.not_lexeme
    | white hw' =>
      cases (munch_eq_some.mpr hw).symm.trans (munch_eq_some.mpr hw')
      cases htok
    | token hw' htok' hr' =>
      cases (munch_eq_some.mpr hw).symm.trans (munch_eq_some.mpr hw')
      obtain ⟨rfl, rfl⟩ := ih hs hr'
      cases htok.symm.trans htok'
      exact ⟨rfl, rfl⟩

/-! ## Words of the rules -/

theorem mem_byte {b : UInt8} {u : List UInt8} : u ∈ (byte b).language ↔ u = [b] := by
  simp [byte]

theorem mem_star_isD {u : List UInt8} :
    u ∈ (star (set isD)).language ↔ ∀ b ∈ u, isD b = true := mem_star_of_letters fun _ => mem_set

theorem mem_idPattern {a : UInt8} {u : List UInt8} :
    a :: u ∈ idPattern.language ↔ isC a = true ∧ ∀ b ∈ u, isC b = true ∨ isD b = true := by
  have hstar : ∀ v, v ∈ (star (alt (set isC) (set isD))).language ↔
      ∀ b ∈ v, isC b = true ∨ isD b = true := by
    refine fun v => mem_star_of_letters fun x => ?_
    rw [mem_alt, mem_set, mem_set, ← exists_or]
    simp only [or_and_right]
  simp [idPattern, hstar]

theorem mem_intPattern {a : UInt8} {u : List UInt8} :
    a :: u ∈ intPattern.language ↔ isD a = true ∧ ∀ b ∈ u, isD b = true := by
  simp [intPattern, mem_star_isD]

theorem of_mem_dblPattern {a : UInt8} {u : List UInt8} (h : a :: u ∈ dblPattern.language) :
    isD a = true ∧ ∀ b ∈ u, isD b = true ∨ b = dot := by
  obtain ⟨x, hx, y, hy, hxy⟩ := mem_seq.mp h
  obtain ⟨z, hz, v, hv, rfl⟩ := mem_seq.mp hy
  rw [mem_byte] at hz
  rw [mem_star_isD] at hv
  cases x with
  | nil => simp [intPattern] at hx
  | cons c x =>
    rw [List.cons_append, List.cons.injEq] at hxy
    obtain ⟨rfl, rfl⟩ := hxy
    rw [mem_intPattern] at hx
    refine ⟨hx.1, fun b hb => ?_⟩
    rw [hz, List.mem_append, List.mem_append, List.mem_singleton] at hb
    rcases hb with hb | hb | hb
    · exact .inl (hx.2 b hb)
    · exact .inr hb
    · exact .inl (hv b hb)

theorem matches_cases {a : UInt8} {u : List UInt8} (h : Matches classes (a :: u)) :
    isDelimiter a = true ∧ u = [] ∨
      a = quote ∧ a :: u ∈ stringPattern.language ∨
      isC a = true ∧ (∀ b ∈ u, isC b = true ∨ isD b = true) ∨
      isD a = true ∧ ∀ b ∈ u, isD b = true ∨ b = dot := by
  simp only [classes, matches_cons, not_matches_nil, or_false] at h
  rcases h with h | h | h | h | h | h | h
  · rw [mem_byte, List.cons.injEq] at h
    exact .inl ⟨by simp [isDelimiter, h.1], h.2⟩
  · rw [mem_byte, List.cons.injEq] at h
    exact .inl ⟨by simp [isDelimiter, h.1], h.2⟩
  · obtain ⟨x, hx, y, hy, hxy⟩ := mem_seq.mp h
    rw [mem_byte.mp hx, List.singleton_append, List.cons.injEq] at hxy
    exact .inr (.inl ⟨hxy.1.symm, h⟩)
  · exact .inr (.inr (.inl (mem_idPattern.mp h)))
  · exact .inr (.inr (.inr (of_mem_dblPattern h)))
  · rw [mem_intPattern] at h
    exact .inr (.inr (.inr ⟨h.1, fun b hb => .inl (h.2 b hb)⟩))
  · obtain ⟨b, hb, heq⟩ := mem_set.mp h
    cases heq
    exact .inl ⟨by simp [isDelimiter, hb], rfl⟩

theorem isDelimiter_cases {a : UInt8} (ha : isDelimiter a = true) :
    a ≠ quote ∧ isC a ≠ true ∧ isD a ≠ true ∧ a ≠ dot := by
  simp only [isDelimiter, isWhite, Bool.or_eq_true, decide_eq_true_eq] at ha
  rcases ha with (rfl | rfl) | (rfl | rfl) | rfl <;> decide

/-- A delimiter is a lexeme of its own, whatever follows. -/
theorem lexeme_delimiter {a : UInt8} (ha : isDelimiter a = true) (hfirst : First classes [a] act)
    (r : List UInt8) : Lexeme classes (a :: r) act [a] r := by
  refine ⟨rfl, List.cons_ne_nil _ _, hfirst, fun t' r' htr hlt hmatch => ?_⟩
  obtain ⟨hquote, hC, hD, -⟩ := isDelimiter_cases ha
  cases t' with
  | nil => cases hlt
  | cons b t' =>
    obtain rfl : b = a := (List.cons.inj htr).1
    rcases matches_cases hmatch with ⟨-, rfl⟩ | ⟨hb, -⟩ | ⟨hb, -⟩ | ⟨hb, -⟩
    · exact absurd hlt (lt_irrefl _)
    · exact hquote hb
    · exact hC hb
    · exact hD hb

theorem first_lparen : First classes [lparen] .lbrace := first_singleton.mpr (by decide)

theorem first_rparen : First classes [rparen] .rbrace := first_singleton.mpr (by decide)

theorem first_of_isWhite {a : UInt8} (ha : isWhite a = true) : First classes [a] .skip := by
  simp only [isWhite, Bool.or_eq_true, decide_eq_true_eq] at ha
  rcases ha with (rfl | rfl) | rfl <;> exact first_singleton.mpr (by decide)

theorem lexes_replicate {a : UInt8} (ha : isDelimiter a = true) (hfirst : First classes [a] act)
    (htok : act.token [a] = some tok) (n : ℕ) (h : Lexes w toks rest) :
    Lexes (List.replicate n a ++ w) (List.replicate n tok ++ toks) rest := by
  induction n with
  | zero => exact h
  | succ n ih => exact .token (lexeme_delimiter ha hfirst _) htok ih

theorem lexes_replicate_white {a : UInt8} (ha : isWhite a = true) (n : ℕ) (h : Lexes w toks rest) :
    Lexes (List.replicate n a ++ w) toks rest := by
  induction n with
  | zero => exact h
  | succ n ih =>
    exact .white (lexeme_delimiter (by simp [isDelimiter, ha]) (first_of_isWhite ha) _) ih

/-! ## Strings -/

theorem stringBody_cases {a : UInt8} {u : List UInt8} (h : a :: u ∈ stringBody.language) :
    (a = backslash ∧ ∃ b v, v ∈ stringBody.language ∧ u = b :: v) ∨
      a ≠ backslash ∧ a ≠ quote ∧ u ∈ stringBody.language := by
  rw [stringBody, cons_mem_star] at h
  obtain ⟨x, y, hx, hy, rfl⟩ := h
  rcases mem_alt.mp hx with hx | hx
  · obtain ⟨c, hc, z, hz, hcz⟩ := mem_seq.mp hx
    obtain ⟨b, -, rfl⟩ := mem_set.mp hz
    rw [mem_byte.mp hc, List.singleton_append, List.cons.injEq] at hcz
    obtain ⟨rfl, rfl⟩ := hcz
    exact .inl ⟨rfl, b, y, hy, rfl⟩
  · obtain ⟨b, hb, heq⟩ := mem_set.mp hx
    cases heq
    rw [Bool.and_eq_true, decide_eq_true_eq, decide_eq_true_eq] at hb
    exact .inr ⟨hb.1, hb.2, hy⟩

theorem stringBody_append_inj {u v x y : List UInt8} (hu : u ∈ stringBody.language)
    (hv : v ∈ stringBody.language) (h : u ++ quote :: x = v ++ quote :: y) : x = y := by
  induction hn : u.length using Nat.strong_induction_on generalizing u v with
  | _ n ih =>
    subst hn
    cases u with
    | nil =>
      cases v with
      | nil => exact (List.cons.inj h).2
      | cons b v =>
        obtain rfl : quote = b := (List.cons.inj h).1
        rcases stringBody_cases hv with ⟨hb, -⟩ | ⟨-, hb, -⟩
        · exact absurd hb (by decide)
        · exact absurd rfl hb
    | cons a u =>
      cases v with
      | nil =>
        obtain rfl : a = quote := (List.cons.inj h).1
        rcases stringBody_cases hu with ⟨ha, -⟩ | ⟨-, ha, -⟩
        · exact absurd ha (by decide)
        · exact absurd rfl ha
      | cons b v =>
        rw [List.cons_append, List.cons_append, List.cons.injEq] at h
        obtain ⟨rfl, h⟩ := h
        rcases stringBody_cases hu with ⟨ha, c, u', hu', rfl⟩ | ⟨ha, -, hu'⟩
        · rcases stringBody_cases hv with ⟨-, d, v', hv', rfl⟩ | ⟨hb, -⟩
          · have hlt : u'.length < (a :: c :: u').length := by
              rw [List.length_cons, List.length_cons]
              omega
            exact ih u'.length hlt hu' hv' (List.cons.inj h).2 rfl
          · exact absurd ha hb
        · rcases stringBody_cases hv with ⟨hb, -⟩ | ⟨-, -, hv'⟩
          · exact absurd hb ha
          · exact ih u.length (by simp) hu' hv' h rfl

theorem mem_stringPattern {u : List UInt8} :
    u ∈ stringPattern.language ↔
      ∃ v ∈ stringBody.language, u = quote :: (v ++ [quote]) := by
  simp only [stringPattern, mem_seq, mem_byte]
  constructor
  · rintro ⟨_, rfl, _, ⟨v, hv, _, rfl, rfl⟩, rfl⟩
    exact ⟨v, hv, rfl⟩
  · rintro ⟨v, hv, rfl⟩
    exact ⟨_, rfl, _, ⟨v, hv, _, rfl, rfl⟩, rfl⟩

/-- **No string is a proper prefix of another.** -/
theorem string_append_inj {u v x y : List UInt8} (hu : u ∈ stringPattern.language)
    (hv : v ∈ stringPattern.language) (h : u ++ x = v ++ y) : x = y := by
  obtain ⟨u', hu', rfl⟩ := mem_stringPattern.mp hu
  obtain ⟨v', hv', rfl⟩ := mem_stringPattern.mp hv
  refine stringBody_append_inj hu' hv' ?_
  simpa using h

/-- A text that the lexer takes for an atom of this type. -/
def IsWord (type : AtomType) (text : List UInt8) : Prop :=
  text ≠ [] ∧ First classes text (.saveAtom type)

theorem Lexes.isWord {type : AtomType} {text : List UInt8} (h : Lexes w toks rest)
    (hmem : .atom type text ∈ toks) : IsWord type text := by
  induction h with
  | nil w => cases hmem
  | white _ _ ih => exact ih hmem
  | @token _ t _ _ _ act _ hw htok _ ih =>
    rcases List.mem_cons.mp hmem with rfl | hmem
    · cases act with
      | saveAtom type' =>
        cases htok
        exact ⟨hw.ne_nil, hw.first⟩
      | lbrace => cases htok
      | rbrace => cases htok
      | skip => cases htok
      | terminate => cases htok
    · exact ih hmem

/-- A lexeme stays one when a delimiter, or the end of the text, comes after it. -/
theorem lexeme_append (hne : t ≠ []) (hfirst : First classes t act)
    (hr : ∀ a ∈ r.head?, isDelimiter a = true) : Lexeme classes (t ++ r) act t r := by
  refine ⟨rfl, hne, hfirst, fun t' r' htr hlt hmatch => ?_⟩
  -- The longer match has the delimiter `d` in it, which only a string can have.
  obtain ⟨u, rfl, rfl⟩ : ∃ u, t' = t ++ u ∧ r = u ++ r' := by
    rcases List.append_eq_append_iff.mp htr with ⟨u, rfl, rfl⟩ | ⟨u, rfl, rfl⟩
    · rw [List.length_append] at hlt
      omega
    · exact ⟨u, rfl, rfl⟩
  obtain ⟨d, u, rfl⟩ : ∃ d v, u = d :: v :=
    List.exists_cons_of_ne_nil fun hu => by simp [hu] at hlt
  obtain ⟨-, hC, hD, hdot⟩ := isDelimiter_cases (hr d rfl)
  obtain ⟨a, t, rfl⟩ := List.exists_cons_of_ne_nil hne
  have hmem : d ∈ t ++ d :: u := List.mem_append_right _ List.mem_cons_self
  rcases matches_cases hmatch with ⟨-, hu⟩ | ⟨ha, hstring⟩ | ⟨-, hu⟩ | ⟨-, hu⟩
  · simp at hu
  · have ht : a :: t ∈ stringPattern.language := by
      rcases matches_cases hfirst.matches with ⟨hd, -⟩ | ⟨-, ht⟩ | ⟨hC, -⟩ | ⟨hD, -⟩
      · exact absurd ha (isDelimiter_cases hd).1
      · exact ht
      · exact absurd hC (by rw [ha]; decide)
      · exact absurd hD (by rw [ha]; decide)
    have := string_append_inj ht hstring (x := d :: u) (y := []) (by simp)
    cases this
  · rcases hu d hmem with hd | hd
    · exact hC hd
    · exact hD hd
  · rcases hu d hmem with hd | hd
    · exact hD hd
    · exact hdot hd

end Sperm.Nasty
