import Mathlib.Data.List.Infix
import Mathlib.Data.List.Basic

/-!
# The first occurrence of a pattern

`find needle s` is the index of the first window of `s` that equals `needle`.
An occurrence found in a list is the one found in every extension of the list,
so a reader that sees a stream piece by piece finds it in the same place.
-/

namespace Arlen.Lib.Search

variable {α : Type*} [DecidableEq α] {needle s t : List α} {i : Nat}

/-- `windows(needle.len()).position(|w| w == needle)`, for a needle that is not empty. -/
def find (needle : List α) : List α → Option Nat
  | [] => none
  | a :: rest =>
    if needle.isPrefixOf (a :: rest) then some 0 else (find needle rest).map (· + 1)

theorem find_cons_of_startsWith {a : α} (h : needle <+: a :: s) : find needle (a :: s) = some 0 :=
  if_pos (List.isPrefixOf_iff_prefix.mpr h)

theorem find_cons_of_not_startsWith {a : α} (h : ¬ needle <+: a :: s) :
    find needle (a :: s) = (find needle s).map (· + 1) :=
  if_neg fun hp => h (List.isPrefixOf_iff_prefix.mp hp)

theorem length_of_find (h : find needle s = some i) : i + needle.length ≤ s.length := by
  induction s generalizing i with
  | nil => cases h
  | cons a s ih =>
    by_cases hp : needle <+: a :: s
    · rw [find_cons_of_startsWith hp] at h
      cases h
      have hlen := hp.length_le
      omega
    · rw [find_cons_of_not_startsWith hp] at h
      obtain ⟨j, hj, rfl⟩ := Option.map_eq_some_iff.mp h
      have hlen := ih hj
      rw [List.length_cons]
      omega

/-- Nothing behind a first occurrence moves it. -/
theorem find_append (h : find needle s = some i) (t : List α) :
    find needle (s ++ t) = some i := by
  induction s generalizing i with
  | nil => cases h
  | cons a s ih =>
    by_cases hp : needle <+: a :: s
    · rw [find_cons_of_startsWith hp] at h
      have hq : needle <+: a :: (s ++ t) := hp.trans (List.prefix_append (a :: s) t)
      rw [List.cons_append, find_cons_of_startsWith hq, h]
    · rw [find_cons_of_not_startsWith hp] at h
      obtain ⟨j, hj, rfl⟩ := Option.map_eq_some_iff.mp h
      have hfar : ¬ needle <+: a :: (s ++ t) := by
        intro hq
        have hlen := length_of_find hj
        exact hp (List.prefix_of_prefix_length_le hq (List.prefix_append (a :: s) t)
          (by rw [List.length_cons]; omega))
      rw [List.cons_append, find_cons_of_not_startsWith hfar, ih hj]
      rfl

/-- An occurrence that ends within a prefix is found in the prefix. -/
theorem find_of_find_append (h : find needle (s ++ t) = some i)
    (hle : i + needle.length ≤ s.length) (hne : needle ≠ []) : find needle s = some i := by
  have hpos : 0 < needle.length := List.length_pos_iff.mpr hne
  induction s generalizing i with
  | nil =>
    rw [List.length_nil] at hle
    omega
  | cons a s ih =>
    rw [List.cons_append] at h
    by_cases hp : needle <+: a :: (s ++ t)
    · rw [find_cons_of_startsWith hp] at h
      cases h
      exact find_cons_of_startsWith (List.prefix_of_prefix_length_le hp
        (List.prefix_append (a :: s) t) (by omega))
    · rw [find_cons_of_not_startsWith hp] at h
      obtain ⟨j, hj, rfl⟩ := Option.map_eq_some_iff.mp h
      rw [List.length_cons] at hle
      rw [find_cons_of_not_startsWith fun hq => hp (hq.trans (List.prefix_append (a :: s) t)),
        ih hj (by omega)]
      rfl

theorem find_append_iff (hne : needle ≠ []) :
    find needle s = some i ↔ find needle (s ++ t) = some i ∧ i + needle.length ≤ s.length :=
  ⟨fun h => ⟨find_append h t, length_of_find h⟩, fun h => find_of_find_append h.1 h.2 hne⟩

/-- A prefix of a stream shows the occurrences that end within it. -/
theorem find_take_iff (hne : needle ≠ []) {n : Nat} :
    find needle (s.take n) = some i ↔ find needle s = some i ∧ i + needle.length ≤ n := by
  rw [find_append_iff (t := s.drop n) hne, List.take_append_drop, List.length_take]
  constructor
  · rintro ⟨h, hle⟩
    exact ⟨h, by omega⟩
  · rintro ⟨h, hle⟩
    have hlen := length_of_find h
    exact ⟨h, by omega⟩

theorem find_eq_none_iff (hne : needle ≠ []) : find needle s = none ↔ ¬ needle <:+: s := by
  induction s with
  | nil => simpa [find] using hne
  | cons a s ih =>
    rw [List.infix_cons_iff, not_or, ← ih]
    by_cases hp : needle <+: a :: s
    · simp [find_cons_of_startsWith hp, hp]
    · simp [find_cons_of_not_startsWith hp, hp]

/-- A text in which the pattern's first symbol occurs nowhere else hides no occurrence. -/
theorem find_append_of_head_not_mem {a : α} {tail : List α} (h : a ∉ s) :
    find (a :: tail) (s ++ (a :: tail ++ t)) = some s.length := by
  induction s with
  | nil => exact find_cons_of_startsWith (List.prefix_append _ _)
  | cons b s ih =>
    have hb : ¬ (a :: tail) <+: b :: (s ++ (a :: tail ++ t)) := by
      intro hp
      exact h ((List.cons_prefix_cons.mp hp).1 ▸ List.mem_cons_self)
    rw [List.cons_append, find_cons_of_not_startsWith hb, ih fun hm => h (List.mem_cons_of_mem _ hm)]
    rfl

omit [DecidableEq α] in
/-- An occurrence starts where the pattern's first symbol does. -/
theorem infix_of_append_of_head_not_mem {a : α} {tail : List α} (hs : a ∉ s)
    (h : a :: tail <:+: s ++ t) : a :: tail <:+: t := by
  induction s with
  | nil => exact h
  | cons b s ih =>
    rcases List.infix_cons_iff.mp h with hp | hin
    · exact absurd ((List.cons_prefix_cons.mp hp).1 ▸ List.mem_cons_self) hs
    · exact ih (fun hm => hs (List.mem_cons_of_mem _ hm)) hin

end Arlen.Lib.Search
