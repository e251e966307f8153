import Arlen.Lib.Str
import Arlen.Lib.Text
import Mathlib.Data.List.Infix

/-!
# Dotted names

A name is the list of its segments between the dots. One name is above another, or is it,
when its segments are the first of the other's; so of two names above a third one is above
the other.
-/

namespace Arlen.Lib

/-- The pieces between the dots. -/
def segments (s : String) : List (List Char) := s.toList.splitOn '.'

/-- The name is the other, a dot and something more. -/
def Under (above name : String) : Prop := ∃ rest, name = above ++ ("." ++ rest)

variable {a b t : String}

theorem segments_ne_nil (s : String) : segments s ≠ [] := List.splitOn_ne_nil _ _

theorem intercalate_segments (s : String) : ['.'].intercalate (segments s) = s.toList :=
  List.intercalate_splitOn _

theorem segments_inj (h : segments a = segments b) : a = b := by
  apply String.toList_injective
  rw [← intercalate_segments a, h, intercalate_segments]

theorem segments_append (a r : String) :
    segments (a ++ ("." ++ r)) = segments a ++ segments r := by
  unfold segments
  rw [String.toList_append, String.toList_append]
  exact List.splitOn_append_cons_self _ _

theorem segments_prefix_iff : segments a <+: segments t ↔ a = t ∨ Under a t := by
  constructor
  · rintro ⟨rest, h⟩
    cases rest with
    | nil => exact .inl (segments_inj (by rw [← h, List.append_nil]))
    | cons seg rest =>
      have hpieces : ∀ piece ∈ seg :: rest, '.' ∉ piece := by
        intro piece hp
        have hmem : piece ∈ segments t := by
          rw [← h]
          exact List.mem_append_right _ hp
        exact Text.not_mem_of_mem_splitOn hmem
      refine .inr ⟨String.ofList (['.'].intercalate (seg :: rest)), segments_inj ?_⟩
      rw [segments_append, ← h]
      unfold segments
      rw [String.toList_ofList, List.splitOn_intercalate '.' hpieces (by simp)]
  · rintro (rfl | ⟨r, rfl⟩)
    · exact List.prefix_refl _
    · rw [segments_append]
      exact List.prefix_append _ _

/-- Of two names above or equal to a third, one is above or equal to the other. -/
theorem above_or_above (ha : a = t ∨ Under a t) (hb : b = t ∨ Under b t) :
    (a = b ∨ Under a b) ∨ (b = a ∨ Under b a) := by
  have h := List.prefix_or_prefix_of_prefix (segments_prefix_iff.2 ha) (segments_prefix_iff.2 hb)
  exact h.imp segments_prefix_iff.1 segments_prefix_iff.1

end Arlen.Lib
