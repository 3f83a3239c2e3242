import Mathlib.Computability.ContextFreeGrammar
import Mathlib.Order.CompletePartialOrder
import Mathlib.Tactic.Common

/-!
# Languages closed under the rules of a grammar

* `words`: the words of a sentential form, when every nonterminal stands for a language.
* **`language_le`**: languages that are closed under the rules contain the language of the grammar.
* `derives_rule`, `derives_append`: derivations by rules, side by side.
-/

namespace ContextFree

variable {T N : Type} {g : ContextFreeGrammar T}

/-- The words of a symbol. -/
def symbolWords (S : N → Language T) : Symbol T N → Language T
  | .terminal t => {[t]}
  | .nonterminal A => S A

/-- The words of a sentential form. -/
def words (S : N → Language T) (u : List (Symbol T N)) : Language T :=
  (u.map (symbolWords S)).prod

theorem words_append (S : N → Language T) (u v : List (Symbol T N)) :
    words S (u ++ v) = words S u * words S v := by
  rw [words, List.map_append, List.prod_append, ← words, ← words]

theorem words_singleton (S : N → Language T) (X : Symbol T N) :
    words S [X] = symbolWords S X := by
  rw [words, List.map_singleton, List.prod_singleton]

theorem mem_words_terminals (S : N → Language T) (w : List T) :
    w ∈ words S (w.map Symbol.terminal) := by
  induction w with
  | nil => rfl
  | cons t w ih =>
    rw [List.map_cons, ← List.singleton_append, words_append, words_singleton]
    exact Language.mem_mul.mpr ⟨[t], rfl, w, ih, rfl⟩

theorem words_le_of_produces {S : g.NT → Language T} {u v : List (Symbol T g.NT)}
    (hS : ∀ r ∈ g.rules, words S r.output ≤ S r.input) (h : g.Produces u v) :
    words S v ≤ words S u := by
  obtain ⟨r, hr, hrew⟩ := h
  obtain ⟨p, q, rfl, rfl⟩ := hrew.exists_parts
  simp only [words_append, words_singleton, symbolWords]
  exact mul_le_mul' (mul_le_mul' le_rfl (hS r hr)) le_rfl

theorem words_le_of_derives {S : g.NT → Language T} {u v : List (Symbol T g.NT)}
    (hS : ∀ r ∈ g.rules, words S r.output ≤ S r.input) (h : g.Derives u v) :
    words S v ≤ words S u := by
  induction h with
  | refl => exact le_rfl
  | tail _ hstep ih => exact (words_le_of_produces hS hstep).trans ih

/-- **Languages that are closed under the rules** contain the language of the grammar. -/
theorem language_le {S : g.NT → Language T} (hS : ∀ r ∈ g.rules, words S r.output ≤ S r.input) :
    g.language ≤ S g.initial := by
  intro w hw
  have h := words_le_of_derives hS hw (mem_words_terminals S w)
  rwa [words_singleton] at h

theorem derives_rule {r : ContextFreeRule T g.NT} (hr : r ∈ g.rules) :
    g.Derives [.nonterminal r.input] r.output :=
  ContextFreeGrammar.Produces.single ⟨r, hr, ContextFreeRule.Rewrites.input_output⟩

theorem derives_append {u u' v v' : List (Symbol T g.NT)} (hu : g.Derives u u')
    (hv : g.Derives v v') : g.Derives (u ++ v) (u' ++ v') :=
  (hu.append_right v).trans (hv.append_left u')

end ContextFree
