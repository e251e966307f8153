import Mathlib.Data.Int.LeastGreatest
import Mathlib.Order.Bounds.Basic
import Mathlib.Tactic.Ring

/-!
# Local clocks

A clock that runs at an offset of whole minutes from universal time. It may be put
forward or back at any instant, but not across a midnight: each local day begins
and ends with its own midnight and shows no time of another day. For each local
time there is then one instant at which it comes: the first that shows it, or the
end of the gap that skips it. Instants and local times are milliseconds.
-/

namespace Arlen.Lib

/-- Milliseconds of a day. -/
def dayMs : Int := 86400000

def minuteMs : Int := 60000

/-- What the clock shows at an instant. -/
def readingAt (offset : Int → Int) (t : Int) : Int := t + minuteMs * offset t

/-- The offset in minutes at each instant, and the instant at which each local day begins. -/
structure LocalClock where
  offset : Int → Int
  start : Int → Int
  start_lt : ∀ n, start n < start (n + 1)
  covers : ∀ t, ∃ n, start n ≤ t ∧ t < start (n + 1)
  begins : ∀ n, readingAt offset (start n) = dayMs * n
  ends : ∀ n, readingAt offset (start (n + 1) - 1) = dayMs * (n + 1) - 1
  inDay : ∀ n t, start n ≤ t → t < start (n + 1) →
    dayMs * n ≤ readingAt offset t ∧ readingAt offset t < dayMs * (n + 1)

namespace LocalClock

variable (z : LocalClock) {l l' m m' n n' t : Int}

def reading (t : Int) : Int := readingAt z.offset t

/-- The instant at which a local time comes: the first that shows it, or, where none does,
the first that shows a later one. -/
def Comes (l m : Int) : Prop :=
  (z.reading m = l ∧ ∀ t < m, z.reading t ≠ l) ∨
    ((∀ t, z.reading t ≠ l) ∧ l < z.reading m ∧ ∀ t < m, z.reading t < l)

/-- At `m` the clock is put forward over a local time. -/
def Skips (l m : Int) : Prop := z.reading (m - 1) < l ∧ l < z.reading m

variable {z}

theorem start_mono (h : n ≤ n') : z.start n ≤ z.start n' := by
  induction n', h using Int.leInduction with
  | base => exact le_refl _
  | succ n' _ ih => exact le_trans ih (le_of_lt (z.start_lt n'))

/-- The day of an instant is the day the clock shows. -/
theorem mem_day_iff : z.start n ≤ t ∧ t < z.start (n + 1) ↔
    dayMs * n ≤ z.reading t ∧ z.reading t < dayMs * (n + 1) := by
  constructor
  · exact fun h => z.inDay n t h.1 h.2
  · intro h
    obtain ⟨n', hn'⟩ := z.covers t
    have hday := z.inDay n' t hn'.1 hn'.2
    have hreading : z.reading t = readingAt z.offset t := rfl
    have hsame : n' = n := by
      unfold dayMs at h hday
      omega
    rwa [hsame] at hn'

/-- Instants before the day show earlier times. -/
theorem reading_lt_of_lt_start (h : t < z.start n) : z.reading t < dayMs * n := by
  obtain ⟨n', h₁, h₂⟩ := z.covers t
  have hlt : n' < n := by
    by_contra hle
    have := z.start_mono (not_lt.mp hle)
    omega
  have hday := (z.inDay n' t h₁ h₂).2
  have hreading : z.reading t = readingAt z.offset t := rfl
  unfold dayMs at hday ⊢
  omega

/-! ### When a local time comes -/

theorem comes_unique (h : z.Comes l m) (h' : z.Comes l m') : m = m' := by
  rcases h with ⟨h₁, h₂⟩ | ⟨h₁, h₂, h₃⟩
  · rcases h' with ⟨h₁', h₂'⟩ | ⟨h₁', -, -⟩
    · rcases lt_trichotomy m m' with hlt | heq | hgt
      · exact absurd h₁ (h₂' m hlt)
      · exact heq
      · exact absurd h₁' (h₂ m' hgt)
    · exact absurd h₁ (h₁' m)
  · rcases h' with ⟨h₁', -⟩ | ⟨-, h₂', h₃'⟩
    · exact absurd h₁' (h₁ m')
    · rcases lt_trichotomy m m' with hlt | heq | hgt
      · have := h₃' m hlt
        omega
      · exact heq
      · have := h₃ m' hgt
        omega

/-- A local time comes on its day. -/
theorem mem_day_of_comes (hl : dayMs * n ≤ l ∧ l < dayMs * (n + 1)) (h : z.Comes l m) :
    z.start n ≤ m ∧ m < z.start (n + 1) := by
  rcases h with ⟨h₁, -⟩ | ⟨h₁, h₂, h₃⟩
  · rw [mem_day_iff, h₁]
    exact hl
  · constructor
    · by_contra hlt
      have := reading_lt_of_lt_start (not_le.mp hlt)
      omega
    · by_contra hle
      have hend : z.reading (z.start (n + 1) - 1) = dayMs * (n + 1) - 1 := z.ends n
      have hlast := h₃ (z.start (n + 1) - 1) (by omega)
      omega

/-- Every local time comes. -/
theorem exists_comes (hl : dayMs * n ≤ l ∧ l < dayMs * (n + 1)) : ∃ m, z.Comes l m := by
  by_cases hshown : ∃ t, z.reading t = l
  · have hbound : ∀ t, z.reading t = l → z.start n ≤ t := by
      intro t ht
      by_contra hlt
      have := reading_lt_of_lt_start (not_le.mp hlt)
      omega
    obtain ⟨m, hm, hleast⟩ := Int.exists_least_of_bdd ⟨_, hbound⟩ hshown
    refine ⟨m, .inl ⟨hm, fun t hlt heq => ?_⟩⟩
    have := hleast t heq
    omega
  · have hend : z.reading (z.start (n + 1) - 1) = dayMs * (n + 1) - 1 := z.ends n
    have hne : z.reading (z.start (n + 1) - 1) ≠ l := fun h => hshown ⟨_, h⟩
    have hbound : ∀ t, l < z.reading t → z.start n ≤ t := by
      intro t ht
      by_contra hlt
      have := reading_lt_of_lt_start (not_le.mp hlt)
      omega
    obtain ⟨m, hm, hleast⟩ := Int.exists_least_of_bdd ⟨_, hbound⟩
      ⟨z.start (n + 1) - 1, by omega⟩
    refine ⟨m, .inr ⟨fun t ht => hshown ⟨t, ht⟩, hm, fun t hlt => ?_⟩⟩
    by_contra hle
    have hne : z.reading t ≠ l := fun h => hshown ⟨t, h⟩
    have := hleast t (by omega)
    omega

/-! ### Gaps -/

/-- A local time that is never shown comes at the end of its gap. -/
theorem skips_of_comes (hnone : ∀ t, z.reading t ≠ l) (h : z.Comes l m) : z.Skips l m := by
  rcases h with ⟨h, -⟩ | ⟨-, hlt, hbefore⟩
  · exact absurd h (hnone m)
  · exact ⟨hbefore (m - 1) (by omega), hlt⟩

theorem reading_eq_add (m : Int) :
    z.reading m = z.reading (m - 1) + 1 + minuteMs * (z.offset m - z.offset (m - 1)) := by
  unfold reading readingAt minuteMs
  ring

/-- A gap is as long as the clock is put forward. -/
theorem Skips.offset_lt (h : z.Skips l m) : z.offset (m - 1) < z.offset m := by
  have := z.reading_eq_add m
  obtain ⟨h₁, h₂⟩ := h
  unfold minuteMs at this
  omega

end LocalClock

end Arlen.Lib
