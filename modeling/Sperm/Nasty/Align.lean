import Mathlib.Data.List.Chain
import Mathlib.Data.List.TakeWhile
import Sperm.Nasty.Print

/-!
# The columns of a printed program

A leaf is printed on a line of its own, behind spaces and the opening braces that are due. One brace
takes the place of a space; each further one moves the leaf to the right.

* `Place`, `Atom.places`, `Expr.places`: where the texts of the leaves are printed, and how many
  braces are around them. **`text_at_places`**: they stand there.
* `column`, `Aligned`: every leaf stands in the column of its depth.
* `NotOpenedTogether`: no two opening braces in a row.
* **`aligned_iff`**: the leaves of a program are aligned exactly when no two braces are opened
  together.
-/

namespace Sperm.Nasty

/-! ## Places -/

/-- A leaf: where its text begins, the number of braces around it, and the text. -/
structure Place where
  offset : ℕ
  depth : ℕ
  text : List UInt8

def Place.shift (k : ℕ) (p : Place) : Place := { p with offset := k + p.offset }

mutual

/-- The places in the text that `Atom.write` prints, below `depth` braces. -/
def Atom.places : Atom → ℤ → ℤ → ℕ → List Place
  | .ex as, indent, lbrace, depth => Expr.places as (indent + 1) (lbrace + 1) (depth + 1)
  | .leaf _ s, indent, lbrace, depth =>
    [⟨(repeatChar (if lbrace ≠ 0 then indent - 1 else indent) space ++
      repeatChar lbrace lparen).length, depth, s⟩]

def Expr.places : List Atom → ℤ → ℤ → ℕ → List Place
  | [], _, _, _ => []
  | a :: as, indent, lbrace, depth =>
    let out := Atom.write a indent lbrace
    -- the rest follows behind a newline
    Atom.places a indent lbrace depth ++
      (Expr.places as indent out.2 depth).map (Place.shift (out.1.length + 1))

end

/-- The column of a position, from `0`. -/
def column (text : List UInt8) (offset : ℕ) : ℕ :=
  ((text.take offset).reverse.takeWhile (· ≠ newline)).length

/-- In the text every leaf stands in the column of its depth. -/
def AlignedIn (text : List UInt8) (ps : List Place) : Prop :=
  ∀ p ∈ ps, column text p.offset = p.depth

def Aligned (e : Expr) : Prop := AlignedIn (Expr.toString e) (Expr.places e 0 0 0)

/-- No opening brace directly behind another one. -/
def NoneTogether (toks : List Token) : Prop :=
  toks.IsChain fun s t => s = .lbrace → t ≠ .lbrace

instance (toks : List Token) : Decidable (NoneTogether toks) :=
  inferInstanceAs (Decidable (List.IsChain _ _))

def NotOpenedTogether (e : Expr) : Prop := NoneTogether (Expr.tokens e)

/-! ## The texts of the leaves -/

/-- The text of a leaf stands at its place. -/
def Stands (out : List UInt8) (p : Place) : Prop := ∃ pre post, out = pre ++ p.text ++ post ∧
  p.offset = pre.length

theorem Stands.append {out : List UInt8} {p : Place} (h : Stands out p) (r : List UInt8) :
    Stands (out ++ r) p := by
  obtain ⟨pre, post, rfl, hp⟩ := h
  exact ⟨pre, post ++ r, by simp, hp⟩

theorem Stands.shift {out : List UInt8} {p : Place} (h : Stands out p) (l : List UInt8) :
    Stands (l ++ out) (p.shift l.length) := by
  obtain ⟨pre, post, rfl, hp⟩ := h
  exact ⟨l ++ pre, post, by simp [Place.shift], by simp [Place.shift, hp]⟩

theorem Stands.offset_le {out : List UInt8} {p : Place} (h : Stands out p) :
    p.offset ≤ out.length := by
  obtain ⟨pre, post, rfl, hp⟩ := h
  simp [hp]

theorem stands_expr {as : Expr}
    (h : ∀ a ∈ as, ∀ indent lbrace depth, ∀ p ∈ a.places indent lbrace depth,
      Stands (a.write indent lbrace).1 p) (indent lbrace : ℤ) (depth : ℕ) :
    ∀ p ∈ Expr.places as indent lbrace depth, Stands (Expr.write as indent lbrace).1 p := by
  induction as generalizing lbrace with
  | nil => simp [Expr.places]
  | cons a as ih =>
    intro p hp
    rw [Expr.places, List.mem_append, List.mem_map] at hp
    rw [Expr.write]
    rcases hp with hp | ⟨q, hq, rfl⟩
    · rw [List.append_assoc]
      exact (h a List.mem_cons_self indent lbrace depth p hp).append _
    · have hne : as ≠ [] := by
        rintro rfl
        simp [Expr.places] at hq
      have hstands := ih (fun b hb => h b (List.mem_cons_of_mem _ hb)) _ q hq
      have hlen : (a.write indent lbrace).1.length + 1 =
          ((a.write indent lbrace).1 ++ [newline]).length := by simp
      rw [if_neg hne, hlen]
      exact hstands.shift _

/-- **The texts of the leaves stand at their places.** -/
theorem text_at_places (a : Atom) (indent lbrace : ℤ) (depth : ℕ) :
    ∀ p ∈ a.places indent lbrace depth, Stands (a.write indent lbrace).1 p := by
  induction a using Atom.induction generalizing indent lbrace depth with
  | leaf type s =>
    intro p hp
    rw [Atom.places, List.mem_singleton] at hp
    subst hp
    exact ⟨_, [], by rw [Atom.write, List.append_nil], rfl⟩
  | ex as ih =>
    intro p hp
    exact (stands_expr ih _ _ _ p hp).append _

/-! ## Columns -/

theorem column_newline (l out : List UInt8) (offset : ℕ) :
    column (l ++ [newline] ++ out) (l.length + 1 + offset) = column out offset := by
  have htake : (l ++ [newline] ++ out).take (l.length + 1 + offset) =
      l ++ [newline] ++ out.take offset := by
    rw [List.take_append, List.take_of_length_le (by simp)]
    simp
  unfold column
  rw [htake, List.reverse_append, List.takeWhile_append]
  split_ifs with h
  · simp only [List.reverse_append, List.reverse_singleton, List.singleton_append]
    rw [List.takeWhile_cons_of_neg (by simp), List.append_nil, h]
  · rfl

theorem column_append {out : List UInt8} {offset : ℕ} (h : offset ≤ out.length)
    (r : List UInt8) : column (out ++ r) offset = column out offset := by
  rw [column, List.take_append_of_le_length h, column]

/-- Without a newline before it, the column of a position is the position. -/
theorem column_length {l : List UInt8} (h : newline ∉ l) (r : List UInt8) :
    column (l ++ r) l.length = l.length := by
  have hall : ∀ b ∈ l.reverse, decide (b ≠ newline) = true := by
    intro b hb
    rw [List.mem_reverse] at hb
    exact decide_eq_true fun hn => h (hn ▸ hb)
  rw [column, List.take_left, List.takeWhile_eq_self_iff.mpr hall, List.length_reverse]

theorem alignedIn_append {out r : List UInt8} {ps : List Place} (h : ∀ p ∈ ps, Stands out p) :
    AlignedIn (out ++ r) ps ↔ AlignedIn out ps := by
  refine forall₂_congr fun p hp => ?_
  rw [column_append (h p hp).offset_le]

theorem alignedIn_lines {out out' : List UInt8} {ps ps' : List Place}
    (h : ∀ p ∈ ps, Stands out p) :
    AlignedIn (out ++ [newline] ++ out') (ps ++ ps'.map (Place.shift (out.length + 1))) ↔
      AlignedIn out ps ∧ AlignedIn out' ps' := by
  have hleft : AlignedIn (out ++ [newline] ++ out') ps ↔ AlignedIn out ps := by
    rw [List.append_assoc]
    exact alignedIn_append h
  have hright : AlignedIn (out ++ [newline] ++ out') (ps'.map (Place.shift (out.length + 1))) ↔
      AlignedIn out' ps' := by
    unfold AlignedIn
    rw [List.forall_mem_map]
    refine forall₂_congr fun p _ => ?_
    rw [Place.shift, column_newline]
  rw [← hleft, ← hright]
  exact List.forall_mem_append

/-! ## Braces that are due -/

theorem noneTogether_append {toks toks' : List Token} (h : ∀ t ∈ toks.getLast?, t ≠ .lbrace) :
    NoneTogether (toks ++ toks') ↔ NoneTogether toks ∧ NoneTogether toks' := by
  unfold NoneTogether
  rw [List.isChain_append]
  refine and_congr_right fun _ => and_iff_left ?_
  intro s hs t _ hlbrace
  exact absurd hlbrace (h s hs)

theorem noneTogether_concat_rbrace (toks : List Token) :
    NoneTogether (toks ++ [.rbrace]) ↔ NoneTogether toks := by
  unfold NoneTogether
  rw [List.isChain_append]
  simp

/-- Before a leaf at most one brace may be due. -/
theorem noneTogether_leaf (n : ℕ) (type : AtomType) (s : List UInt8) :
    NoneTogether (List.replicate n .lbrace ++ [.atom type s]) ↔ n ≤ 1 := by
  match n with
  | 0 => exact iff_of_true (.singleton _) (Nat.zero_le 1)
  | 1 => exact iff_of_true (by simp [NoneTogether]) le_rfl
  | n + 2 =>
    refine iff_of_false (fun h => ?_) (by omega)
    rw [NoneTogether, List.replicate_succ, List.replicate_succ, List.cons_append, List.cons_append,
      List.isChain_cons_cons] at h
    exact h.1 rfl rfl

theorem getLast?_tokens (a : Atom) : ∀ t ∈ a.tokens.getLast?, t ≠ .lbrace := by
  cases a with
  | leaf type s => simp [Atom.tokens]
  | ex as =>
    rw [Atom.tokens, ← List.cons_append, List.getLast?_concat]
    simp

/-- The first leaf prints all the braces that are due. -/
theorem lbrace_expr {as : Expr} (hne : as ≠ [])
    (h : ∀ a ∈ as, ∀ indent lbrace, (a.write indent lbrace).2 = 0) (indent lbrace : ℤ) :
    (Expr.write as indent lbrace).2 = 0 := by
  induction as generalizing lbrace with
  | nil => exact absurd rfl hne
  | cons a as ih =>
    rw [Expr.write, h a List.mem_cons_self]
    by_cases has : as = []
    · subst has
      rfl
    · exact ih has (fun b hb => h b (List.mem_cons_of_mem _ hb)) 0

theorem lbrace_atom {a : Atom} (hfull : a.Full) (indent lbrace : ℤ) :
    (a.write indent lbrace).2 = 0 := by
  induction a using Atom.induction generalizing indent lbrace with
  | leaf type s => rfl
  | ex as ih =>
    refine lbrace_expr hfull.1 (fun a ha indent lbrace => ?_) (indent + 1) (lbrace + 1)
    exact ih a ha (Expr.full_iff.mp hfull.2 a ha) indent lbrace

/-! ## Alignment -/

/-- Below `depth` braces, of which `n` are due, an atom is aligned when no two braces before it or
in it are opened together. -/
def AlignsAs (a : Atom) : Prop :=
  ∀ depth n : ℕ, n ≤ depth → (AlignedIn (a.write depth n).1 (a.places depth n depth) ↔
    NoneTogether (List.replicate n .lbrace ++ a.tokens))

theorem alignsAs_leaf (type : AtomType) (s : List UInt8) : AlignsAs (.leaf type s) := by
  intro depth n hn
  have hnl : newline ∉ repeatChar (if (n : ℤ) ≠ 0 then (depth : ℤ) - 1 else depth) space ++
      repeatChar n lparen := by
    simp only [repeatChar, List.mem_append, List.mem_replicate, not_or]
    exact ⟨fun h => absurd h.2 (by decide), fun h => absurd h.2 (by decide)⟩
  rw [Atom.tokens, noneTogether_leaf, Atom.write, Atom.places]
  unfold AlignedIn
  simp only [List.forall_mem_singleton]
  rw [column_length hnl]
  simp only [repeatChar, List.length_append, List.length_replicate, Int.toNat_natCast]
  split_ifs with h
  · omega
  · omega

theorem alignsAs_expr {as : Expr} (hne : as ≠ []) (hfull : Expr.Full as)
    (h : ∀ a ∈ as, AlignsAs a) {depth n : ℕ} (hn : n ≤ depth) :
    AlignedIn (Expr.write as depth n).1 (Expr.places as depth n depth) ↔
      NoneTogether (List.replicate n .lbrace ++ Expr.tokens as) := by
  induction as generalizing n with
  | nil => exact absurd rfl hne
  | cons a as ih =>
    have ha := h a List.mem_cons_self depth n hn
    rw [Expr.write, Expr.places, Expr.tokens, lbrace_atom hfull.1]
    by_cases has : as = []
    · subst has
      simpa [Expr.write, Expr.places, Expr.tokens] using ha
    · have hlast : ∀ t ∈ (List.replicate n Token.lbrace ++ a.tokens).getLast?, t ≠ .lbrace := by
        intro t ht
        have hne' : a.tokens ≠ [] := by cases a <;> simp [Atom.tokens]
        rw [List.getLast?_append_of_ne_nil _ hne'] at ht
        exact getLast?_tokens a t ht
      have has' := ih has hfull.2 (fun b hb => h b (List.mem_cons_of_mem _ hb)) (Nat.zero_le depth)
      rw [if_neg has, ← List.append_assoc, noneTogether_append hlast, ← ha]
      rw [List.replicate_zero, List.nil_append] at has'
      rw [← has']
      exact alignedIn_lines (text_at_places a _ _ _)

theorem alignsAs_atom {a : Atom} (hfull : a.Full) : AlignsAs a := by
  induction a using Atom.induction with
  | leaf type s => exact alignsAs_leaf type s
  | ex as ih =>
    intro depth n hn
    have has := alignsAs_expr hfull.1 hfull.2
      (fun a ha => ih a ha (Expr.full_iff.mp hfull.2 a ha)) (Nat.succ_le_succ hn)
    have hstands : ∀ p ∈ Expr.places as (depth + 1) (n + 1) (depth + 1),
        Stands (Expr.write as (depth + 1) (n + 1)).1 p :=
      stands_expr (fun a _ => text_at_places a) _ _ _
    have htoks : List.replicate n Token.lbrace ++ (Atom.ex as).tokens =
        List.replicate (n + 1) .lbrace ++ Expr.tokens as ++ [.rbrace] := by
      rw [Atom.tokens, List.replicate_succ', List.append_assoc, List.append_assoc,
        List.singleton_append]
    rw [htoks, noneTogether_concat_rbrace, ← has]
    exact alignedIn_append hstands

/-- **The leaves of a printed program are aligned** exactly when no two braces of it are opened
together: the first leaf behind two or more opening braces is moved to the right by all of them but
one. -/
theorem aligned_iff {w : List UInt8} {e : Expr} (h : Parser.run (some w) = .ok (some e)) :
    Aligned e ↔ NotOpenedTogether e := by
  obtain ⟨_, -, -, hne, hfull, -⟩ := Parser.run_eq_ok.mp h
  exact alignsAs_expr hne hfull (fun a ha => alignsAs_atom (Expr.full_iff.mp hfull a ha))
    (Nat.zero_le 0)

/-- The text `(a (b))`. -/
theorem aligned_nested : Parser.run (some [lparen, 'a'.toUInt8, space, lparen, 'b'.toUInt8, rparen,
    rparen]) = .ok (some [.ex [.leaf .id ['a'.toUInt8], .ex [.leaf .id ['b'.toUInt8]]]]) ∧
      Aligned [.ex [.leaf .id ['a'.toUInt8], .ex [.leaf .id ['b'.toUInt8]]]] := by
  have h : Parser.run (some [lparen, 'a'.toUInt8, space, lparen, 'b'.toUInt8, rparen, rparen]) =
      .ok (some [.ex [.leaf .id ['a'.toUInt8], .ex [.leaf .id ['b'.toUInt8]]]]) := by
    decide +kernel
  refine ⟨h, (aligned_iff h).mpr ?_⟩
  simp [NotOpenedTogether, NoneTogether, Expr.tokens, Atom.tokens]

/-- In the text `a ((1.5"x")b)` two braces are opened together: `1.5` stands in column `3`, and
`"x"` below it in column `2`. -/
theorem opened_together_not_aligned : Parser.run (some sampleText) = .ok (some sampleExpr) ∧
    (Expr.places sampleExpr 0 0 0).map (fun p => (column (Expr.toString sampleExpr) p.offset,
      p.depth)) = [(0, 0), (3, 2), (2, 2), (1, 1)] ∧ ¬ Aligned sampleExpr := by
  have hplaces : (Expr.places sampleExpr 0 0 0).map (fun p =>
      (column (Expr.toString sampleExpr) p.offset, p.depth)) =
        [(0, 0), (3, 2), (2, 2), (1, 1)] := by
    decide +kernel
  refine ⟨by decide +kernel, hplaces, fun h => ?_⟩
  have hmem : (3, 2) ∈ (Expr.places sampleExpr 0 0 0).map (fun p =>
      (column (Expr.toString sampleExpr) p.offset, p.depth)) := by
    rw [hplaces]
    decide
  obtain ⟨p, hp, heq⟩ := List.mem_map.mp hmem
  obtain ⟨h₁, h₂⟩ := Prod.mk.inj heq
  rw [h p hp, h₂] at h₁
  exact absurd h₁ (by decide)

end Sperm.Nasty
