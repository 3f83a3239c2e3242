import Sperm.Nasty.Grammar

/-!
# Printing a nasty program

`Expr::toString` puts every atom on a line of its own. An opening brace is not printed at once: it
is counted in `lbrace`, and the first leaf below prints all the braces that are due.

* `Atom.write`, `Expr.write`, `Expr.toString`: the model.
* `LexesAs`, `Printed`: the tokens of what is printed, with the braces that are due.
* **`lexes_toString`**: a printed program has the tokens of its tree, up to its end.
* **`run_toString`**: printing a program and parsing it again gives the same tree.
-/

namespace Sperm.Nasty

open Munch

/-! ## The printer -/

/-- The function `repeat`. -/
def repeatChar (indent : ℤ) (c : UInt8) : List UInt8 := List.replicate indent.toNat c

mutual

/-- The text, and the value of `lbrace` afterwards. -/
def Atom.write : Atom → ℤ → ℤ → List UInt8 × ℤ
  | .ex as, indent, lbrace =>
    let out := Expr.write as (indent + 1) (lbrace + 1)
    (out.1 ++ [rparen], out.2)
  | .leaf _ s, indent, lbrace =>
    (repeatChar (if lbrace ≠ 0 then indent - 1 else indent) space ++ repeatChar lbrace lparen ++ s,
      0)

def Expr.write : List Atom → ℤ → ℤ → List UInt8 × ℤ
  | [], _, lbrace => ([], lbrace)
  | a :: as, indent, lbrace =>
    let out := Atom.write a indent lbrace
    let rest := Expr.write as indent out.2
    (out.1 ++ (if as = [] then [] else [newline]) ++ rest.1, rest.2)

end

def Expr.toString (e : Expr) : List UInt8 := (Expr.write e 0 0).1

/-! ## Lexing what is printed -/

/-- The printed text `out`, with `n` opening braces before the tokens `toks`. What follows has to be
the end of the text or a delimiter. -/
def LexesAs (out : List UInt8) (n : ℕ) (toks : List Token) : Prop :=
  ∀ r : List UInt8, (∀ b ∈ r.head?, isDelimiter b = true) →
    Lexes (out ++ r) (List.replicate n .lbrace ++ toks) r

theorem lexesAs_leaf {type : AtomType} {s : List UInt8} (hs : IsWord type s) (indent : ℤ) (n : ℕ) :
    LexesAs (repeatChar indent space ++ repeatChar n lparen ++ s) n [.atom type s] := by
  intro r hr
  have hword : Lexes (s ++ r) [.atom type s] r :=
    .token (lexeme_append hs.1 hs.2 hr) rfl (.nil r)
  rw [List.append_assoc, List.append_assoc]
  exact lexes_replicate_white (by decide) _ (lexes_replicate (by decide) first_lparen rfl n hword)

/-- Braces around a text: the opening one is due before it. -/
theorem LexesAs.braces {out : List UInt8} {n : ℕ} {toks : List Token}
    (h : LexesAs out (n + 1) toks) :
    LexesAs (out ++ [rparen]) n (.lbrace :: (toks ++ [.rbrace])) := by
  intro r hr
  have hrparen : Lexes (rparen :: r) [.rbrace] r :=
    .token (lexeme_delimiter (by decide) first_rparen r) rfl (.nil r)
  have hout := (h (rparen :: r) fun b hb => by cases hb; decide).trans hrparen
  rw [List.append_assoc, List.singleton_append]
  rwa [List.replicate_succ', List.append_assoc, List.append_assoc, List.singleton_append] at hout

theorem LexesAs.lines {out out' : List UInt8} {n : ℕ} {toks toks' : List Token}
    (h : LexesAs out n toks) (h' : LexesAs out' 0 toks') :
    LexesAs (out ++ [newline] ++ out') n (toks ++ toks') := by
  intro r hr
  have hline : Lexes (newline :: (out' ++ r)) toks' r :=
    .white (lexeme_delimiter (by decide) (first_of_isWhite (by decide)) _) (h' r hr)
  have hout := (h (newline :: (out' ++ r)) fun b hb => by cases hb; decide).trans hline
  rw [List.append_assoc, List.append_assoc, List.singleton_append, ← List.append_assoc _ toks]
  exact hout

/-- An atom is printed with the braces that are due, and then no brace is due any more. -/
def Printed (a : Atom) : Prop :=
  ∀ (indent : ℤ) (n : ℕ), (a.write indent n).2 = 0 ∧ LexesAs (a.write indent n).1 n a.tokens

theorem printed_expr {as : Expr} (hne : as ≠ []) (h : ∀ a ∈ as, Printed a) (indent : ℤ) (n : ℕ) :
    (Expr.write as indent n).2 = 0 ∧ LexesAs (Expr.write as indent n).1 n (Expr.tokens as) := by
  induction as generalizing n with
  | nil => exact absurd rfl hne
  | cons a as ih =>
    obtain ⟨hzero, ha⟩ := h a List.mem_cons_self indent n
    rw [Expr.write, Expr.tokens, hzero]
    by_cases has : as = []
    · subst has
      simpa [Expr.write, Expr.tokens] using ha
    · obtain ⟨hzero', has'⟩ := ih has (fun b hb => h b (List.mem_cons_of_mem _ hb)) 0
      dsimp only
      rw [if_neg has]
      exact ⟨hzero', ha.lines has'⟩

theorem printed_atom {a : Atom} (hfull : a.Full)
    (hwords : ∀ type text, .atom type text ∈ a.tokens → IsWord type text) : Printed a := by
  induction a using Atom.induction with
  | leaf type s =>
    intro indent n
    exact ⟨rfl, lexesAs_leaf (hwords type s (List.mem_singleton_self _)) _ n⟩
  | ex as ih =>
    intro indent n
    have has : ∀ a ∈ as, Printed a := by
      intro a ha
      refine ih a ha (Expr.full_iff.mp hfull.2 a ha) fun type text hmem => hwords type text ?_
      exact List.mem_cons_of_mem _ (List.mem_append_left _ (Expr.mem_tokens ha hmem))
    obtain ⟨hzero, hout⟩ := printed_expr hfull.1 has (indent + 1) (n + 1)
    exact ⟨hzero, hout.braces⟩

/-- **A printed program** has the tokens of its tree, up to its end. -/
theorem lexes_toString {e : Expr} (hne : e ≠ []) (hfull : Expr.Full e)
    (hwords : ∀ type text, .atom type text ∈ Expr.tokens e → IsWord type text) :
    Lexes (Expr.toString e) (Expr.tokens e) [] := by
  have hprinted : ∀ a ∈ e, Printed a := fun a ha =>
    printed_atom (Expr.full_iff.mp hfull a ha) fun type text hmem =>
      hwords type text (Expr.mem_tokens ha hmem)
  have h := (printed_expr hne hprinted 0 0).2 [] nofun
  rwa [List.append_nil] at h

/-- **Printing a program and parsing it again** takes the whole text and gives the same tree. -/
theorem run_toString {w : List UInt8} {e : Expr} (h : Parser.run (some w) = .ok (some e)) :
    Lexes (Expr.toString e) (Expr.tokens e) [] ∧
      Parser.run (some (Expr.toString e)) = .ok (some e) := by
  obtain ⟨rest, hlex, -, hne, hfull, hfits⟩ := Parser.run_eq_ok.mp h
  have hprint := lexes_toString hne hfull fun type text hmem => hlex.isWord hmem
  exact ⟨hprint, Parser.run_eq_ok.mpr ⟨[], hprint, stops_nil, hne, hfull, hfits⟩⟩

/-- The text `a ((1.5"x")b)`. -/
def sampleText : List UInt8 :=
  ['a'.toUInt8, space, lparen, lparen, '1'.toUInt8, dot, '5'.toUInt8, quote, 'x'.toUInt8, quote,
    rparen, 'b'.toUInt8, rparen]

def sampleExpr : Expr :=
  [.leaf .id ['a'.toUInt8],
    .ex [.ex [.leaf .dbl ['1'.toUInt8, dot, '5'.toUInt8], .leaf .sr [quote, 'x'.toUInt8, quote]],
      .leaf .id ['b'.toUInt8]]]

theorem run_toString_sampleText :
    Parser.run (some sampleText) = .ok (some sampleExpr) ∧
      Expr.toString sampleExpr =
        ['a'.toUInt8, newline, space, lparen, lparen, '1'.toUInt8, dot, '5'.toUInt8, newline, space,
          space, quote, 'x'.toUInt8, quote, rparen, newline, space, 'b'.toUInt8, rparen] ∧
      Lexes (Expr.toString sampleExpr) (Expr.tokens sampleExpr) [] ∧
      Parser.run (some (Expr.toString sampleExpr)) = .ok (some sampleExpr) := by
  have h : Parser.run (some sampleText) = .ok (some sampleExpr) := by decide +kernel
  exact ⟨h, by decide +kernel, run_toString h⟩

end Sperm.Nasty
