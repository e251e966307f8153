import Mathlib.Order.Defs.LinearOrder
import Mathlib.Data.List.Sort

/-!
# Sorting by a key

A stable sort by a key. Where elements with one key are one element, two lists
sort to the same list exactly when they are permutations of each other.
-/

namespace Arlen.Lib

variable {α κ : Type*} [LinearOrder κ]

def sortBy (key : α → κ) (l : List α) : List α := l.mergeSort fun a b => key a ≤ key b

theorem sortBy_perm (key : α → κ) (l : List α) : (sortBy key l).Perm l := List.mergeSort_perm l _

theorem pairwise_sortBy (key : α → κ) (l : List α) :
    (sortBy key l).Pairwise (key · ≤ key ·) := by
  have h : (sortBy key l).Pairwise fun a b => decide (key a ≤ key b) = true := by
    refine List.pairwise_mergeSort (fun a b c hab hbc => ?_) (fun a b => ?_) l
    · exact decide_eq_true (le_trans (of_decide_eq_true hab) (of_decide_eq_true hbc))
    · simpa using le_total (key a) (key b)
  exact h.imp of_decide_eq_true

theorem sortBy_eq_iff {key : α → κ} {l l' : List α}
    (hkey : ∀ a ∈ l, ∀ b ∈ l, key a = key b → a = b) :
    sortBy key l = sortBy key l' ↔ l.Perm l' := by
  constructor
  · intro h
    exact (sortBy_perm key l).symm.trans (h ▸ sortBy_perm key l')
  · intro h
    refine List.Perm.eq_of_pairwise (fun a b ha hb hab hba => ?_) (pairwise_sortBy key l)
      (pairwise_sortBy key l') ((sortBy_perm key l).trans (h.trans (sortBy_perm key l').symm))
    have ha' := (sortBy_perm key l).mem_iff.1 ha
    have hb' := h.mem_iff.2 ((sortBy_perm key l').mem_iff.1 hb)
    exact hkey a ha' b hb' (le_antisymm hab hba)

end Arlen.Lib
