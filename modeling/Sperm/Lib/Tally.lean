import Mathlib.Data.Finmap
import Mathlib.Data.List.Perm.Basic
import Mathlib.Data.Int.Basic
import Mathlib.Tactic.Common

/-!
# Tallies

A multiset kept as a map from its elements to how often they occur, an element that does not occur
having no entry. Two such maps are equal exactly when they stand for the same multiset.

* `Tally.entry`: the entry of an element in the map of a list.
* `Tally.Stands`: a map stands for a list up to its order.
* `Stands.add`, `Stands.del`: one element more, one element less.
* **`Stands.eq_iff`**: equal maps, permuted lists.
-/

variable {κ : Type} [DecidableEq κ]

/-- Elements and how often they occur. -/
abbrev Tally (κ : Type) := Finmap fun _ : κ => ℤ

namespace Tally

variable {s t : Tally κ} {l l' : List κ} {k : κ}

def entry (l : List κ) (k : κ) : Option ℤ := if l.count k = 0 then none else some (l.count k)

def Stands (s : Tally κ) (l : List κ) : Prop := ∀ k, s.lookup k = entry l k

/-- `s[k] += 1`. -/
def add (s : Tally κ) (k : κ) : Tally κ := s.insert k ((s.lookup k).getD 0 + 1)

/-- `s[k] -= 1`, and an entry that is `0` is erased. -/
def del (s : Tally κ) (k : κ) : Tally κ :=
  if (s.lookup k).getD 0 - 1 = 0 then (s.insert k ((s.lookup k).getD 0 - 1)).erase k
  else s.insert k ((s.lookup k).getD 0 - 1)

theorem stands_empty : Stands (∅ : Tally κ) [] := by
  intro k
  simp [entry]

theorem entry_getD (l : List κ) (k : κ) : (entry l k).getD 0 = l.count k := by
  unfold entry
  split_ifs with h
  · simp [h]
  · rfl

theorem entry_inj : entry l k = entry l' k ↔ l.count k = l'.count k := by
  constructor
  · intro h
    have hcount : (l.count k : ℤ) = l'.count k := by rw [← entry_getD, h, entry_getD]
    exact_mod_cast hcount
  · intro h
    rw [entry, entry, h]

theorem Stands.perm (h : Stands s l) (hl : l.Perm l') : Stands s l' := by
  intro k
  rw [h k, entry_inj, hl.count_eq]

theorem Stands.add (h : Stands s l) (k : κ) : Stands (s.add k) (k :: l) := by
  intro j
  by_cases hj : j = k
  · subst hj
    rw [Tally.add, Finmap.lookup_insert, h j, entry_getD]
    simp [entry]
  · rw [Tally.add, Finmap.lookup_insert_of_ne _ hj, h j, entry_inj,
      List.count_cons_of_ne (Ne.symm hj)]

theorem Stands.del (h : Stands s (k :: l)) : Stands (s.del k) l := by
  have hcount : (s.lookup k).getD 0 - 1 = l.count k := by
    rw [h k, entry_getD]
    simp
  intro j
  rw [Tally.del, hcount]
  by_cases hj : j = k
  · subst hj
    split_ifs with hzero
    · rw [Finmap.lookup_erase, entry, if_pos (by exact_mod_cast hzero)]
    · rw [Finmap.lookup_insert, entry, if_neg (by exact_mod_cast hzero)]
  · have hold : s.lookup j = entry l j := by
      rw [h j, entry_inj, List.count_cons_of_ne (Ne.symm hj)]
    split_ifs
    · rw [Finmap.lookup_erase_ne hj, Finmap.lookup_insert_of_ne _ hj, hold]
    · rw [Finmap.lookup_insert_of_ne _ hj, hold]

/-- **Equal maps** stand for the same multiset. -/
theorem Stands.eq_iff (hs : Stands s l) (ht : Stands t l') : s = t ↔ l.Perm l' := by
  constructor
  · rintro rfl
    refine List.perm_iff_count.mpr fun k => ?_
    rw [← entry_inj, ← hs k, ht k]
  · intro hperm
    refine Finmap.ext_lookup fun k => ?_
    rw [hs k, ht k, entry_inj, hperm.count_eq]

end Tally
