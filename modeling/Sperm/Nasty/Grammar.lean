import Sperm.Lib.ContextFree
import Sperm.Nasty.Parser

/-!
# The language of nasty

The rules of `nasty.parser` as a context-free grammar, and the texts that the parser accepts.

* `grammar`, `Derivable`: the rules of `nasty.parser`, without their actions.
* `Expr.tokens`, `Frames.tokens`: the tokens of a tree and of open expressions.
* **`derivable_iff`**: what `program` derives are the tokens of the trees without empty braces.
* **`Frames.shifts_eq_some`**: the open expressions end in a tree exactly on the tokens of this
  tree.
* `Frames.StackFits`: the stack of the parser has room for the tokens.
* **`Parser.run_eq_ok`**: the trees that the parser builds.
* **`accepts_iff`**: the texts that the parser accepts, and the atoms that it finds.
-/

namespace Sperm.Nasty

open ContextFree

/-! ## The rules of `nasty.parser` -/

inductive Terminal where
  | lbrace
  | rbrace
  | id
  | dbl
  | int
  | sr
  deriving DecidableEq

inductive Nonterminal where
  | program
  | expr
  | atom
  deriving DecidableEq

def productions : Finset (ContextFreeRule Terminal Nonterminal) :=
  {⟨.program, [.nonterminal .expr]⟩,
    ⟨.expr, [.nonterminal .expr, .nonterminal .atom]⟩,
    ⟨.expr, [.nonterminal .atom]⟩,
    ⟨.atom, [.terminal .lbrace, .nonterminal .expr, .terminal .rbrace]⟩,
    ⟨.atom, [.terminal .id]⟩,
    ⟨.atom, [.terminal .dbl]⟩,
    ⟨.atom, [.terminal .int]⟩,
    ⟨.atom, [.terminal .sr]⟩}

@[reducible] def grammar : ContextFreeGrammar Terminal := ⟨Nonterminal, .program, productions⟩

def AtomType.terminal : AtomType → Terminal
  | .sr => .sr
  | .id => .id
  | .dbl => .dbl
  | .int => .int

def Token.terminal : Token → Terminal
  | .lbrace => .lbrace
  | .rbrace => .rbrace
  | .atom type _ => type.terminal

/-- The tokens are derivable from `program`. -/
def Derivable (toks : List Token) : Prop := toks.map Token.terminal ∈ grammar.language

/-! ## The tokens of a tree -/

mutual

def Atom.tokens : Atom → List Token
  | .leaf type s => [.atom type s]
  | .ex as => .lbrace :: (Expr.tokens as ++ [.rbrace])

def Expr.tokens : List Atom → List Token
  | [] => []
  | a :: as => Atom.tokens a ++ Expr.tokens as

end

mutual

/-- No braces without an atom. -/
def Atom.Full : Atom → Prop
  | .leaf _ _ => True
  | .ex as => as ≠ [] ∧ Expr.Full as

def Expr.Full : List Atom → Prop
  | [] => True
  | a :: as => Atom.Full a ∧ Expr.Full as

end

theorem Expr.tokens_eq_flatMap (as : Expr) : Expr.tokens as = as.flatMap Atom.tokens := by
  induction as with
  | nil => rfl
  | cons a as ih => rw [Expr.tokens, ih, List.flatMap_cons]

theorem Expr.mem_tokens {as : Expr} {a : Atom} {tok : Token} (ha : a ∈ as) (h : tok ∈ a.tokens) :
    tok ∈ Expr.tokens as := by
  rw [Expr.tokens_eq_flatMap]
  exact List.mem_flatMap.mpr ⟨a, ha, h⟩

theorem Expr.tokens_append (as bs : Expr) :
    Expr.tokens (as ++ bs) = Expr.tokens as ++ Expr.tokens bs := by
  rw [Expr.tokens_eq_flatMap, List.flatMap_append, ← Expr.tokens_eq_flatMap,
    ← Expr.tokens_eq_flatMap]

theorem Expr.full_iff {as : Expr} : Expr.Full as ↔ ∀ a ∈ as, Atom.Full a := by
  induction as with
  | nil => simp [Expr.Full]
  | cons a as ih => simp [Expr.Full, ih]

theorem Expr.full_append {as bs : Expr} :
    Expr.Full (as ++ bs) ↔ Expr.Full as ∧ Expr.Full bs := by
  simp only [Expr.full_iff, List.forall_mem_append]

theorem Expr.tokens_appendAtom (as : Expr) (a : Atom) :
    Expr.tokens (as.appendAtom a) = Expr.tokens as ++ a.tokens := by
  rw [Expr.appendAtom, Expr.tokens_append, Expr.tokens, Expr.tokens, List.append_nil]

theorem Expr.full_appendAtom {as : Expr} {a : Atom} :
    Expr.Full (as.appendAtom a) ↔ Expr.Full as ∧ a.Full := by
  rw [Expr.appendAtom, Expr.full_append, Expr.Full, Expr.Full, and_true]

mutual

theorem Atom.induction {motive : Atom → Prop} (leaf : ∀ type s, motive (.leaf type s))
    (ex : ∀ as, (∀ a ∈ as, motive a) → motive (.ex as)) : ∀ a, motive a
  | .leaf type s => leaf type s
  | .ex as => ex as (Expr.induction leaf ex as)

theorem Expr.induction {motive : Atom → Prop} (leaf : ∀ type s, motive (.leaf type s))
    (ex : ∀ as, (∀ a ∈ as, motive a) → motive (.ex as)) : ∀ as : List Atom, ∀ a ∈ as, motive a
  | [], _, h => nomatch h
  | b :: as, a, h => by
    rcases List.mem_cons.mp h with h | h
    · rw [h]
      exact Atom.induction leaf ex b
    · exact Expr.induction leaf ex as a h

end

/-! ## Derivations -/

/-- The tokens, as symbols of the grammar. -/
def symbols (toks : List Token) : List (Symbol Terminal Nonterminal) :=
  (toks.map Token.terminal).map .terminal

theorem symbols_append (toks toks' : List Token) :
    symbols (toks ++ toks') = symbols toks ++ symbols toks' := by
  rw [symbols, List.map_append, List.map_append, ← symbols, ← symbols]

theorem derives_production {A : Nonterminal} {u : List (Symbol Terminal Nonterminal)}
    (h : ⟨A, u⟩ ∈ productions) : grammar.Derives [.nonterminal A] u :=
  derives_rule (g := grammar) (r := ⟨A, u⟩) h

theorem derives_expr {as : Expr} (hne : as ≠ [])
    (h : ∀ a ∈ as, grammar.Derives [.nonterminal Nonterminal.atom] (symbols a.tokens)) :
    grammar.Derives [.nonterminal Nonterminal.expr] (symbols (Expr.tokens as)) := by
  induction as using List.reverseRecOn with
  | nil => exact absurd rfl hne
  | append_singleton as a ih =>
    have ha := h a (List.mem_append_right _ (List.mem_singleton_self a))
    rw [Expr.tokens_append, Expr.tokens, Expr.tokens, List.append_nil]
    cases as with
    | nil =>
      have hrule : grammar.Derives [.nonterminal Nonterminal.expr]
          [.nonterminal Nonterminal.atom] := derives_production (by decide)
      exact hrule.trans ha
    | cons b as =>
      have hrule : grammar.Derives [.nonterminal Nonterminal.expr]
          [.nonterminal Nonterminal.expr, .nonterminal Nonterminal.atom] :=
        derives_production (by decide)
      have has := ih (List.cons_ne_nil b as) fun c hc => h c (List.mem_append_left _ hc)
      rw [symbols_append]
      exact hrule.trans (derives_append (u := [_]) has ha)

theorem derives_atom {a : Atom} (h : a.Full) :
    grammar.Derives [.nonterminal Nonterminal.atom] (symbols a.tokens) := by
  induction a using Atom.induction with
  | leaf type s =>
    change grammar.Derives _ [.terminal type.terminal]
    refine derives_production ?_
    cases type <;> decide
  | ex as ih =>
    have hrule : grammar.Derives [.nonterminal Nonterminal.atom]
        [.terminal .lbrace, .nonterminal Nonterminal.expr, .terminal .rbrace] :=
      derives_production (by decide)
    have has := derives_expr h.1 fun a ha => ih a ha (Expr.full_iff.mp h.2 a ha)
    have hsymbols : symbols (Atom.ex as).tokens =
        .terminal .lbrace :: (symbols (Expr.tokens as) ++ symbols [.rbrace]) :=
      congrArg _ (symbols_append _ _)
    rw [hsymbols]
    exact hrule.trans
      (derives_append (u := [_]) (.refl _) (derives_append (u := [_]) has (.refl _)))

/-- The tokens of an atom. -/
def IsAtom (toks : List Token) : Prop := ∃ a : Atom, a.Full ∧ a.tokens = toks

/-- The tokens of an expression. -/
def IsExpr (toks : List Token) : Prop := ∃ e : Expr, e ≠ [] ∧ Expr.Full e ∧ Expr.tokens e = toks

theorem IsAtom.isExpr {toks : List Token} : IsAtom toks → IsExpr toks := by
  rintro ⟨a, ha, rfl⟩
  exact ⟨[a], List.cons_ne_nil _ _, ⟨ha, trivial⟩, List.append_nil _⟩

theorem IsExpr.append {toks toks' : List Token} :
    IsExpr toks → IsAtom toks' → IsExpr (toks ++ toks') := by
  rintro ⟨e, -, he, rfl⟩ ⟨a, ha, rfl⟩
  exact ⟨e.appendAtom a, List.append_ne_nil_of_right_ne_nil _ (List.cons_ne_nil _ _),
    Expr.full_appendAtom.mpr ⟨he, ha⟩, Expr.tokens_appendAtom e a⟩

theorem IsExpr.isAtom {toks : List Token} :
    IsExpr toks → IsAtom (.lbrace :: (toks ++ [.rbrace])) := by
  rintro ⟨e, hne, he, rfl⟩
  exact ⟨.ex e, ⟨hne, he⟩, rfl⟩

theorem isAtom_of_terminal {tok : Token} {type : AtomType} (h : tok.terminal = type.terminal) :
    IsAtom [tok] := by
  cases tok with
  | lbrace => cases type <;> cases h
  | rbrace => cases type <;> cases h
  | atom type' text => exact ⟨.leaf type' text, trivial, rfl⟩

theorem eq_lbrace {tok : Token} (h : tok.terminal = .lbrace) : tok = .lbrace := by
  cases tok with
  | lbrace => rfl
  | rbrace => cases h
  | atom type text => cases type <;> cases h

theorem eq_rbrace {tok : Token} (h : tok.terminal = .rbrace) : tok = .rbrace := by
  cases tok with
  | lbrace => cases h
  | rbrace => rfl
  | atom type text => cases type <;> cases h

/-- The terminals that only tokens of trees have. -/
def treeWords : Nonterminal → Language Terminal
  | .atom => {ks | ∀ toks, toks.map Token.terminal = ks → IsAtom toks}
  | _ => {ks | ∀ toks, toks.map Token.terminal = ks → IsExpr toks}

theorem mem_treeWords_atom_of_terminal (type : AtomType) {ks : List Terminal}
    (h : ks ∈ words treeWords [.terminal type.terminal]) : ks ∈ treeWords .atom := by
  intro toks htoks
  rw [words_singleton] at h
  obtain rfl : ks = [type.terminal] := h
  obtain ⟨tok, rfl, htok⟩ := List.map_eq_singleton_iff.mp htoks
  exact isAtom_of_terminal htok

theorem words_treeWords_le (r : ContextFreeRule Terminal Nonterminal) (hr : r ∈ productions) :
    words treeWords r.output ≤ treeWords r.input := by
  simp only [productions, Finset.mem_insert, Finset.mem_singleton] at hr
  intro ks hks
  rcases hr with rfl | rfl | rfl | rfl | rfl | rfl | rfl | rfl
  · rw [words_singleton] at hks
    exact hks
  · rw [← List.singleton_append, words_append, words_singleton, words_singleton] at hks
    obtain ⟨ks₁, h₁, ks₂, h₂, rfl⟩ := Language.mem_mul.mp hks
    intro toks htoks
    obtain ⟨toks₁, toks₂, rfl, htoks₁, htoks₂⟩ := List.map_eq_append_iff.mp htoks
    exact (h₁ toks₁ htoks₁).append (h₂ toks₂ htoks₂)
  · rw [words_singleton] at hks
    exact fun toks htoks => (hks toks htoks).isExpr
  · rw [← List.singleton_append, words_append, words_singleton, ← List.singleton_append,
      words_append, words_singleton, words_singleton] at hks
    obtain ⟨_, rfl, ks', hks', rfl⟩ := Language.mem_mul.mp hks
    obtain ⟨ks₁, h₁, _, rfl, rfl⟩ := Language.mem_mul.mp hks'
    intro toks htoks
    rw [List.singleton_append] at htoks
    obtain ⟨tok, toks', rfl, htok, htoks'⟩ := List.map_eq_cons_iff.mp htoks
    obtain ⟨toks₁, toks₂, rfl, htoks₁, htoks₂⟩ := List.map_eq_append_iff.mp htoks'
    obtain ⟨tok₂, rfl, htok₂⟩ := List.map_eq_singleton_iff.mp htoks₂
    rw [eq_lbrace htok, eq_rbrace htok₂]
    exact (h₁ toks₁ htoks₁).isAtom
  · exact mem_treeWords_atom_of_terminal .id hks
  · exact mem_treeWords_atom_of_terminal .dbl hks
  · exact mem_treeWords_atom_of_terminal .int hks
  · exact mem_treeWords_atom_of_terminal .sr hks

/-- **The language of the grammar**: the tokens of the trees without empty braces. -/
theorem derivable_iff {toks : List Token} : Derivable toks ↔ IsExpr toks := by
  constructor
  · intro h
    exact language_le (g := grammar) words_treeWords_le h toks rfl
  · rintro ⟨e, hne, he, rfl⟩
    have hrule : grammar.Derives [.nonterminal Nonterminal.program]
        [.nonterminal Nonterminal.expr] := derives_production (by decide)
    exact hrule.trans
      (derives_expr hne fun a ha => derives_atom (Expr.full_iff.mp he a ha))

/-! ## Open expressions and their tokens -/

namespace Frames

/-- The open expressions after some tokens, with room for all of them. -/
def shifts (F : Frames) : List Token → Option Frames
  | [] => some F
  | tok :: toks => (F.shift tok).bind fun F' => F'.shifts toks

/-- The tokens of the expressions around the innermost one. -/
def outerTokens : List Expr → List Token
  | [] => []
  | as :: outer => outerTokens outer ++ (Expr.tokens as ++ [.lbrace])

def tokens (F : Frames) : List Token := outerTokens F.outer ++ Expr.tokens F.cur

def Full (F : Frames) : Prop := Expr.Full F.cur ∧ ∀ as ∈ F.outer, Expr.Full as

theorem shifts_append (F : Frames) (toks toks' : List Token) :
    F.shifts (toks ++ toks') = (F.shifts toks).bind fun F' => F'.shifts toks' := by
  induction toks generalizing F with
  | nil => rfl
  | cons tok toks ih =>
    rw [List.cons_append, shifts, shifts, Option.bind_assoc]
    exact congrArg _ (funext fun F' => ih F')

theorem shifts_tokens (F : Frames) {as : Expr}
    (h : ∀ a ∈ as, ∀ F : Frames, F.shifts a.tokens = some (F.append a)) :
    F.shifts (Expr.tokens as) = some ⟨F.cur ++ as, F.outer⟩ := by
  induction as generalizing F with
  | nil => rw [List.append_nil, Expr.tokens, shifts]
  | cons a as ih =>
    rw [Expr.tokens, shifts_append, h a List.mem_cons_self, Option.bind_some,
      ih _ fun b hb => h b (List.mem_cons_of_mem _ hb), append, Expr.appendAtom, List.append_assoc,
      List.singleton_append]

theorem shift_rbrace {as bs : Expr} {outer : List Expr} (hne : as ≠ []) :
    shift ⟨as, bs :: outer⟩ .rbrace = some (append ⟨bs, outer⟩ (.ex as)) := by
  rw [shift]
  exact if_neg hne

theorem shifts_atom (F : Frames) {a : Atom} (h : a.Full) :
    F.shifts a.tokens = some (F.append a) := by
  induction a using Atom.induction generalizing F with
  | leaf type s => rfl
  | ex as ih =>
    rw [Atom.tokens, shifts, shift, Option.bind_some, shifts_append,
      shifts_tokens _ fun a ha F => ih a ha F (Expr.full_iff.mp h.2 a ha), Option.bind_some, shifts,
      List.nil_append, shift_rbrace h.1, Option.bind_some, shifts]

theorem shifts_expr {e : Expr} (h : Expr.Full e) : init.shifts (Expr.tokens e) = some ⟨e, []⟩ :=
  shifts_tokens _ fun a ha F => shifts_atom F (Expr.full_iff.mp h a ha)

theorem tokens_of_shift {F F' : Frames} {tok : Token} (h : F.shift tok = some F') :
    F'.tokens = F.tokens ++ [tok] := by
  obtain ⟨type, text, rfl, rfl⟩ | ⟨rfl, rfl⟩ | ⟨a, as, bs, outer, rfl, rfl, rfl⟩ := shift_cases h
  · rw [tokens, append, Expr.tokens_appendAtom, tokens, List.append_assoc, Atom.tokens]
  · rw [tokens, outerTokens, Expr.tokens, tokens, List.append_nil, List.append_assoc]
  · simp [tokens, append, Expr.tokens_appendAtom, outerTokens, Atom.tokens]

theorem full_of_shift {F F' : Frames} {tok : Token} (hF : F.Full) (h : F.shift tok = some F') :
    F'.Full := by
  obtain ⟨hcur, houter⟩ := hF
  obtain ⟨type, text, rfl, rfl⟩ | ⟨rfl, rfl⟩ | ⟨a, as, bs, outer, rfl, rfl, rfl⟩ := shift_cases h
  · exact ⟨Expr.full_appendAtom.mpr ⟨hcur, trivial⟩, houter⟩
  · exact ⟨trivial, List.forall_mem_cons.mpr ⟨hcur, houter⟩⟩
  · obtain ⟨hbs, houter⟩ := List.forall_mem_cons.mp houter
    exact ⟨Expr.full_appendAtom.mpr ⟨hbs, List.cons_ne_nil a as, hcur⟩, houter⟩

theorem tokens_of_shifts {F F' : Frames} {toks : List Token} (h : F.shifts toks = some F') :
    F'.tokens = F.tokens ++ toks := by
  induction toks generalizing F with
  | nil =>
    cases h
    rw [List.append_nil]
  | cons tok toks ih =>
    obtain ⟨F₁, hF₁, h⟩ := Option.bind_eq_some_iff.mp h
    rw [ih h, tokens_of_shift hF₁, List.append_assoc, List.singleton_append]

theorem full_of_shifts {F F' : Frames} {toks : List Token} (hF : F.Full)
    (h : F.shifts toks = some F') : F'.Full := by
  induction toks generalizing F with
  | nil =>
    cases h
    exact hF
  | cons tok toks ih =>
    obtain ⟨F₁, hF₁, h⟩ := Option.bind_eq_some_iff.mp h
    exact ih (full_of_shift hF hF₁) h

/-- **The open expressions end in a tree** exactly on the tokens of this tree. -/
theorem shifts_eq_some {toks : List Token} {e : Expr} :
    init.shifts toks = some ⟨e, []⟩ ↔ Expr.Full e ∧ Expr.tokens e = toks := by
  constructor
  · intro h
    refine ⟨(full_of_shifts (F := init) ⟨trivial, nofun⟩ h).1, ?_⟩
    simpa [tokens, outerTokens, init, Expr.tokens] using tokens_of_shifts h
  · rintro ⟨he, rfl⟩
    exact shifts_expr he

/-- The stack has room for each of the tokens. -/
def StackFits (F : Frames) (toks : List Token) : Prop :=
  ∀ toks₁ tok toks₂ F', toks = toks₁ ++ tok :: toks₂ → F.shifts toks₁ = some F' → F'.Fits

theorem stackFits_cons {F F' : Frames} {tok : Token} {toks : List Token}
    (h : F.shift tok = some F') : F.StackFits (tok :: toks) ↔ F.Fits ∧ F'.StackFits toks := by
  constructor
  · intro hfits
    refine ⟨hfits [] tok toks F rfl rfl, fun toks₁ tok' toks₂ F₁ htoks hF₁ => ?_⟩
    refine hfits (tok :: toks₁) tok' toks₂ F₁ (by rw [htoks, List.cons_append]) ?_
    rw [shifts, h, Option.bind_some, hF₁]
  · rintro ⟨hF, hF'⟩ toks₁ tok' toks₂ F₁ htoks hF₁
    cases toks₁ with
    | nil =>
      cases hF₁
      exact hF
    | cons tok₁ toks₁ =>
      rw [List.cons_append, List.cons.injEq] at htoks
      obtain ⟨rfl, htoks⟩ := htoks
      rw [shifts, h, Option.bind_some] at hF₁
      exact hF' toks₁ tok' toks₂ F₁ htoks hF₁

/-- The parser builds the tree of the open expressions if there is room all along. -/
theorem parse_eq_some {F : Frames} {toks : List Token} {e : Expr} :
    F.parse toks = some e ↔ F.shifts toks = some ⟨e, []⟩ ∧ e ≠ [] ∧ F.StackFits toks := by
  induction toks generalizing F with
  | nil =>
    have hfits : F.StackFits [] := fun toks₁ tok toks₂ F' htoks => by simp at htoks
    obtain ⟨as, outer⟩ := F
    rw [parse, shifts, Option.ite_none_right_eq_some, Option.some_inj, Option.some_inj,
      Frames.mk.injEq]
    constructor
    · rintro ⟨⟨houter, hne⟩, rfl⟩
      exact ⟨⟨rfl, houter⟩, hne, hfits⟩
    · rintro ⟨⟨rfl, houter⟩, hne, -⟩
      exact ⟨⟨houter, hne⟩, rfl⟩
  | cons tok toks ih =>
    rw [parse, shifts, advance]
    cases hs : F.shift tok with
    | none => simp
    | some F' =>
      rw [Option.bind_some, stackFits_cons hs]
      by_cases hfit : F.Fits
      · rw [if_pos hfit, Option.bind_some, ih]
        simp [hfit]
      · rw [if_neg hfit]
        simp [hfit]

end Frames

/-! ## The parser -/

/-- **The trees that the parser builds**, from the tokens up to the end of the text or up to the
first byte that only the catch-all takes. -/
theorem Parser.run_eq_ok {w : List UInt8} {e : Expr} :
    Parser.run (some w) = .ok (some e) ↔
      ∃ rest, Lexes w (Expr.tokens e) rest ∧ Stops rest ∧ e ≠ [] ∧ Expr.Full e ∧
        Frames.init.StackFits (Expr.tokens e) := by
  have hparse : ∀ toks, Frames.init.parse toks = some e ↔
      (Expr.Full e ∧ Expr.tokens e = toks) ∧ e ≠ [] ∧ Frames.init.StackFits toks := by
    intro toks
    rw [Frames.parse_eq_some, Frames.shifts_eq_some]
  constructor
  · intro h
    obtain ⟨toks, rest, hlex, hstops⟩ := exists_lexes w
    rw [Parser.run_eq hlex hstops] at h
    cases hp : Frames.init.parse toks with
    | none =>
      rw [hp] at h
      cases h
    | some e' =>
      rw [hp] at h
      cases h
      obtain ⟨⟨hfull, rfl⟩, hne, hfits⟩ := (hparse toks).mp hp
      exact ⟨rest, hlex, hstops, hne, hfull, hfits⟩
  · rintro ⟨rest, hlex, hstops, hne, hfull, hfits⟩
    rw [Parser.run_eq hlex hstops, (hparse _).mpr ⟨⟨hfull, rfl⟩, hne, hfits⟩]

/-- The type and the text of a token that is an atom. -/
def Token.leaf : Token → Option (AtomType × List UInt8)
  | .lbrace => none
  | .rbrace => none
  | .atom type text => some (type, text)

mutual

def Atom.leaves : Atom → List (AtomType × List UInt8)
  | .leaf type s => [(type, s)]
  | .ex as => Expr.leaves as

def Expr.leaves : List Atom → List (AtomType × List UInt8)
  | [] => []
  | a :: as => Atom.leaves a ++ Expr.leaves as

end

theorem Expr.leaves_eq_of_forall {as : Expr}
    (h : ∀ a ∈ as, a.leaves = a.tokens.filterMap Token.leaf) :
    Expr.leaves as = (Expr.tokens as).filterMap Token.leaf := by
  induction as with
  | nil => rfl
  | cons a as ih =>
    rw [Expr.leaves, Expr.tokens, List.filterMap_append, h a List.mem_cons_self,
      ih fun b hb => h b (List.mem_cons_of_mem _ hb)]

theorem Atom.leaves_eq (a : Atom) : a.leaves = a.tokens.filterMap Token.leaf := by
  induction a using Atom.induction with
  | leaf type s => rfl
  | ex as ih =>
    rw [Atom.leaves, Atom.tokens, List.filterMap_cons, Token.leaf, List.filterMap_append,
      Expr.leaves_eq_of_forall ih]
    exact (List.append_nil _).symm

/-- **What the parser accepts**: it takes the tokens up to the end of the text or up to the first
byte at which neither a token nor white space starts. They have to be derivable from `program`, and
the stack has to have room for them. Each token that is an atom is a leaf of the tree. -/
theorem accepts_iff (w : List UInt8) :
    ((∃ e, Parser.run (some w) = .ok (some e)) ↔
      ∃ toks rest, Lexes w toks rest ∧ Stops rest ∧ Derivable toks ∧
        Frames.init.StackFits toks) ∧
    ∀ e, Parser.run (some w) = .ok (some e) →
      ∃ toks rest, Lexes w toks rest ∧ Stops rest ∧
        Expr.leaves e = toks.filterMap Token.leaf := by
  simp only [Parser.run_eq_ok, derivable_iff]
  refine ⟨⟨?_, ?_⟩, ?_⟩
  · rintro ⟨e, rest, hlex, hstops, hne, hfull, hfits⟩
    exact ⟨Expr.tokens e, rest, hlex, hstops, ⟨e, hne, hfull, rfl⟩, hfits⟩
  · rintro ⟨_, rest, hlex, hstops, ⟨e, hne, hfull, rfl⟩, hfits⟩
    exact ⟨e, rest, hlex, hstops, hne, hfull, hfits⟩
  · rintro e ⟨rest, hlex, hstops, -⟩
    exact ⟨Expr.tokens e, rest, hlex, hstops,
      Expr.leaves_eq_of_forall fun a _ => Atom.leaves_eq a⟩

/-! ## Texts that are not accepted as the grammar says -/

/-- A token in `n` braces. -/
def deepTokens (n : ℕ) (tok : Token) : List Token :=
  List.replicate n .lbrace ++ tok :: List.replicate n .rbrace

def deepText (n : ℕ) : List UInt8 :=
  List.replicate n lparen ++ 'a'.toUInt8 :: List.replicate n rparen

theorem derivable_deepTokens (n : ℕ) (type : AtomType) (text : List UInt8) :
    Derivable (deepTokens n (.atom type text)) := by
  rw [derivable_iff]
  induction n with
  | zero => exact IsAtom.isExpr ⟨.leaf type text, trivial, rfl⟩
  | succ n ih =>
    have hsucc : deepTokens (n + 1) (.atom type text) =
        .lbrace :: (deepTokens n (.atom type text) ++ [.rbrace]) := by
      rw [deepTokens, List.replicate_succ, List.replicate_succ', deepTokens, List.cons_append,
        List.append_assoc, List.cons_append]
    rw [hsucc]
    exact ih.isAtom.isExpr

theorem lexes_deepText (n : ℕ) :
    Lexes (deepText n) (deepTokens n (.atom .id ['a'.toUInt8])) [] := by
  have hclose : Lexes (List.replicate n rparen) (List.replicate n .rbrace) [] := by
    have h := lexes_replicate (by decide) first_rparen rfl n (.nil [])
    rwa [List.append_nil, List.append_nil] at h
  have hfirst : Munch.First classes ['a'.toUInt8] (.saveAtom .id) :=
    Munch.first_singleton.mpr (by decide)
  have hword : Lexes ('a'.toUInt8 :: List.replicate n rparen)
      (.atom .id ['a'.toUInt8] :: List.replicate n .rbrace) [] := by
    refine .token (lexeme_append (List.cons_ne_nil _ _) hfirst fun b hb => ?_) rfl hclose
    cases n with
    | zero => cases hb
    | succ n =>
      cases hb
      decide
  exact lexes_replicate (by decide) first_lparen rfl n hword

theorem Frames.shifts_replicate_lbrace (n : ℕ) (outer : List Expr) :
    Frames.shifts ⟨[], outer⟩ (List.replicate n .lbrace) =
      some ⟨[], List.replicate n [] ++ outer⟩ := by
  induction n generalizing outer with
  | zero => rfl
  | succ n ih =>
    rw [List.replicate_succ, shifts, shift, Option.bind_some, ih, List.replicate_succ',
      List.append_assoc, List.singleton_append]

theorem not_stackFits_deepTokens {n : ℕ} (hn : tables.yymaxdepth ≤ n + 2) (tok : Token) :
    ¬ Frames.init.StackFits (deepTokens n tok) := by
  intro h
  have hfits := h _ tok _ _ rfl (Frames.shifts_replicate_lbrace n [])
  simp only [Frames.Fits, Frames.height, List.append_nil, Frames.entries, List.map_replicate,
    if_true, List.sum_replicate_nat] at hfits
  omega

/-- An atom in too many braces is derivable, but it is not accepted. -/
theorem deepText_not_accepted {n : ℕ} (hn : tables.yymaxdepth ≤ n + 2) :
    ¬ ∃ e, Parser.run (some (deepText n)) = .ok (some e) := by
  rintro ⟨e, h⟩
  obtain ⟨rest, hlex, hstops, -, -, hfits⟩ := Parser.run_eq_ok.mp h
  obtain ⟨htoks, -⟩ := hlex.unique hstops (lexes_deepText n) stops_nil
  rw [htoks] at hfits
  exact not_stackFits_deepTokens hn _ hfits

/-- The text `a=b`, of which the parser takes the `a` and ignores the rest, and an atom in 9998
braces, for which the stack is too small. -/
theorem accepts_not_exactly :
    (Parser.run (some (['a', '=', 'b'].map Char.toUInt8)) =
        .ok (some [.leaf .id ['a'.toUInt8]]) ∧
      ¬ ∃ toks, Lexes (['a', '=', 'b'].map Char.toUInt8) toks [] ∧ Derivable toks) ∧
    (∃ toks, Lexes (deepText 9998) toks [] ∧ Derivable toks) ∧
      ¬ ∃ e, Parser.run (some (deepText 9998)) = .ok (some e) := by
  refine ⟨⟨by decide +kernel, ?_⟩, ⟨_, lexes_deepText 9998, derivable_deepTokens _ _ _⟩,
    deepText_not_accepted (by decide)⟩
  rintro ⟨toks, hlex, -⟩
  have hstops : Stops (['=', 'b'].map Char.toUInt8) := Munch.munch_eq_none.mp (by decide +kernel)
  have hlexeme : Munch.Lexeme classes (['a', '=', 'b'].map Char.toUInt8) (.saveAtom .id)
      ['a'.toUInt8] (['=', 'b'].map Char.toUInt8) := Munch.munch_eq_some.mp (by decide +kernel)
  cases (hlex.unique stops_nil (.token hlexeme rfl (.nil _)) hstops).2

end Sperm.Nasty
