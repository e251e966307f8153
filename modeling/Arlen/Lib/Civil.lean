import Mathlib.Tactic.Linarith
import Mathlib.Data.Int.Basic

/-!
# The proleptic Gregorian calendar

Days are numbered from the first of January of the year 1. `dayNumber y m d` is
the number of a date, `yearOf`, `monthOf` and `dayOf` take it back, and a date
later in the calendar has the greater number.
-/

namespace Arlen.Lib.Civil

def isLeap (y : Int) : Bool := y % 4 = 0 && (y % 100 ≠ 0 || y % 400 = 0)

/-- The number of the first of January. -/
def yearStart (y : Int) : Int := 365 * (y - 1) + (y - 1) / 4 - (y - 1) / 100 + (y - 1) / 400

def leapDay (y : Int) : Int := if isLeap y then 1 else 0

/-- The days of the year before the first of a month. From March on the months
run 31, 30, 31, 30, 31 over and over. -/
def monthStart (y : Int) (m : Nat) : Int :=
  if m ≤ 2 then 31 * ((m : Int) - 1) else (153 * ((m : Int) - 3) + 2) / 5 + 59 + leapDay y

def monthLength (y : Int) (m : Nat) : Int := monthStart y (m + 1) - monthStart y m

/-- A date there is. -/
def Valid (y : Int) (m d : Nat) : Prop := 1 ≤ m ∧ m ≤ 12 ∧ 1 ≤ d ∧ (d : Int) ≤ monthLength y m

instance (y : Int) (m d : Nat) : Decidable (Valid y m d) := by unfold Valid; infer_instance

def dayNumber (y : Int) (m d : Nat) : Int := yearStart y + monthStart y m + ((d : Int) - 1)

/-- The year of a day: 400, 100, 4 and single years, the last century of four and
the last year of four being one day longer. -/
def yearOf (n : Int) : Int :=
  let era := n / 146097
  let inEra := n % 146097
  let century := min (inEra / 36524) 3
  let inCentury := inEra - 36524 * century
  let four := inCentury / 1461
  let year := min (inCentury % 1461 / 365) 3
  400 * era + 100 * century + 4 * four + year + 1

/-- The day within its year, from 0. -/
def ordinal0 (n : Int) : Int := n - yearStart (yearOf n)

def monthOf (n : Int) : Nat :=
  let fromMarch := ordinal0 n - 59 - leapDay (yearOf n)
  if ordinal0 n < 31 then 1
  else if fromMarch < 0 then 2
  else ((5 * fromMarch + 2) / 153).toNat + 3

def dayOf (n : Int) : Nat := (ordinal0 n - monthStart (yearOf n) (monthOf n)).toNat + 1

/-! ### Years -/

theorem leapDay_cases (y : Int) : leapDay y = 0 ∨ leapDay y = 1 := by
  unfold leapDay
  split
  · exact Or.inr rfl
  · exact Or.inl rfl

theorem yearStart_succ (y : Int) : yearStart (y + 1) = yearStart y + 365 + leapDay y := by
  unfold yearStart leapDay isLeap
  split
  · next h =>
    simp only [Bool.and_eq_true, Bool.or_eq_true, decide_eq_true_eq] at h
    omega
  · next h =>
    simp only [Bool.and_eq_true, Bool.or_eq_true, decide_eq_true_eq] at h
    omega

theorem yearStart_le {y y' : Int} (h : y ≤ y') : yearStart y ≤ yearStart y' := by
  unfold yearStart
  omega

/-- The first day of a year given by its era, century, four years and year. -/
theorem yearStart_parts {era century four year : Int} (hc : 0 ≤ century ∧ century ≤ 3)
    (hf : 0 ≤ four ∧ four ≤ 24) (hy : 0 ≤ year ∧ year ≤ 3) :
    yearStart (400 * era + 100 * century + 4 * four + year + 1) =
      146097 * era + 36524 * century + 1461 * four + 365 * year := by
  have h4 : (400 * era + 100 * century + 4 * four + year) / 4 =
      100 * era + 25 * century + four := by omega
  have h100 : (400 * era + 100 * century + 4 * four + year) / 100 = 4 * era + century := by omega
  have h400 : (400 * era + 100 * century + 4 * four + year) / 400 = era := by omega
  unfold yearStart
  rw [add_sub_cancel_right, h4, h100, h400]
  omega

/-- Such a year is longer when it is the last of four, and then not the last of a
century unless it ends the era. -/
theorem leapDay_parts {era century four year : Int} (hc : 0 ≤ century ∧ century ≤ 3)
    (hf : 0 ≤ four ∧ four ≤ 24) (hy : 0 ≤ year ∧ year ≤ 3) :
    leapDay (400 * era + 100 * century + 4 * four + year + 1) =
      if year = 3 ∧ (four ≠ 24 ∨ century = 3) then 1 else 0 := by
  have h4 : (400 * era + 100 * century + 4 * four + year + 1) % 4 = 0 ↔ year = 3 := by omega
  have h100 : (400 * era + 100 * century + 4 * four + year + 1) % 100 = 0 ↔
      four = 24 ∧ year = 3 := by omega
  have h400 : (400 * era + 100 * century + 4 * four + year + 1) % 400 = 0 ↔
      century = 3 ∧ four = 24 ∧ year = 3 := by omega
  unfold leapDay isLeap
  simp only [Bool.and_eq_true, Bool.or_eq_true, decide_eq_true_eq, ne_eq, h4, h100, h400]
  by_cases hyear : year = 3
  · by_cases hfour : four = 24 <;> simp [hyear, hfour]
  · simp [hyear]

/-- The pieces a day number is cut into, put together again. -/
theorem exists_parts (n : Int) : ∃ era century four year rest : Int,
    (0 ≤ century ∧ century ≤ 3) ∧ (0 ≤ four ∧ four ≤ 24) ∧ (0 ≤ year ∧ year ≤ 3) ∧
      yearOf n = 400 * era + 100 * century + 4 * four + year + 1 ∧
      n = 146097 * era + 36524 * century + 1461 * four + 365 * year + rest ∧ 0 ≤ rest ∧
      rest < 365 + if year = 3 ∧ (four ≠ 24 ∨ century = 3) then 1 else 0 := by
  obtain ⟨inEra, hinEra⟩ : ∃ inEra, inEra = n % 146097 := ⟨_, rfl⟩
  obtain ⟨century, hcentury⟩ : ∃ century, century = min (inEra / 36524) 3 := ⟨_, rfl⟩
  obtain ⟨inCentury, hinCentury⟩ : ∃ r, r = inEra - 36524 * century := ⟨_, rfl⟩
  obtain ⟨year, hyear⟩ : ∃ year, year = min (inCentury % 1461 / 365) 3 := ⟨_, rfl⟩
  have hera : n = 146097 * (n / 146097) + inEra := by omega
  have hc : 0 ≤ century ∧ century ≤ 3 := by omega
  have hin : 0 ≤ inCentury ∧ inCentury < 36524 + if century = 3 then 1 else 0 := by
    split <;> omega
  have hf : 0 ≤ inCentury / 1461 ∧ inCentury / 1461 ≤ 24 := by
    split at hin <;> omega
  have hy : 0 ≤ year ∧ year ≤ 3 := by omega
  refine ⟨n / 146097, century, inCentury / 1461, year, inCentury % 1461 - 365 * year, hc, hf, hy,
    ?_, by omega, by omega, ?_⟩
  · subst hyear hinCentury hcentury hinEra
    rfl
  · split at hin <;> split <;> omega

theorem yearOf_bounds (n : Int) : yearStart (yearOf n) ≤ n ∧ n < yearStart (yearOf n + 1) := by
  obtain ⟨era, century, four, year, rest, hc, hf, hy, hof, hn, h₀, h₁⟩ := exists_parts n
  have hstart := @yearStart_parts era century four year hc hf hy
  rw [yearStart_succ, hof, hstart, leapDay_parts hc hf hy]
  constructor
  · omega
  · omega

/-- The year of a day is the one whose days include it. -/
theorem yearOf_eq {n y : Int} (h₁ : yearStart y ≤ n) (h₂ : n < yearStart (y + 1)) :
    yearOf n = y := by
  obtain ⟨h₃, h₄⟩ := yearOf_bounds n
  by_contra hne
  rcases lt_or_gt_of_ne hne with hlt | hgt
  · have hle : yearStart (yearOf n + 1) ≤ yearStart y := yearStart_le (by omega)
    omega
  · have hle : yearStart (y + 1) ≤ yearStart (yearOf n) := yearStart_le (by omega)
    omega

/-! ### Months and days -/

theorem monthStart_nonneg (y : Int) {m : Nat} (hm : 1 ≤ m) : 0 ≤ monthStart y m := by
  have hl := leapDay_cases y
  unfold monthStart
  split
  · omega
  · omega

theorem monthStart_lt {y : Int} {m m' : Nat} (hm : 1 ≤ m) (hlt : m < m') (hm' : m' ≤ 13) :
    monthStart y m + 28 ≤ monthStart y m' := by
  have hl := leapDay_cases y
  unfold monthStart
  split_ifs <;> omega

theorem ordinal0_bounds (n : Int) :
    0 ≤ ordinal0 n ∧ ordinal0 n < 365 + leapDay (yearOf n) := by
  obtain ⟨h₁, h₂⟩ := yearOf_bounds n
  have hs := yearStart_succ (yearOf n)
  unfold ordinal0
  constructor
  · omega
  · omega

theorem monthOf_bounds (n : Int) :
    (1 ≤ monthOf n ∧ monthOf n ≤ 12) ∧
      monthStart (yearOf n) (monthOf n) ≤ ordinal0 n ∧
      ordinal0 n < monthStart (yearOf n) (monthOf n + 1) := by
  obtain ⟨h₀, h₁⟩ := ordinal0_bounds n
  have hl := leapDay_cases (yearOf n)
  unfold monthOf monthStart
  simp only
  split
  · exact ⟨⟨by omega, by omega⟩, by simp only [Nat.one_le_ofNat, ↓reduceIte]; omega, by omega⟩
  · split
    · refine ⟨⟨by omega, by omega⟩, ?_, ?_⟩
      · simp only [le_refl, ↓reduceIte]
        omega
      · simp only [Nat.reduceAdd, Nat.reduceLeDiff, ↓reduceIte]
        omega
    · rw [if_neg (by omega), if_neg (by omega)]
      refine ⟨⟨by omega, by omega⟩, ?_, ?_⟩
      · omega
      · omega

theorem dayOf_eq (n : Int) :
    (dayOf n : Int) = ordinal0 n - monthStart (yearOf n) (monthOf n) + 1 := by
  obtain ⟨_, h₁, _⟩ := monthOf_bounds n
  unfold dayOf
  omega

/-- Taking a date apart gives a date there is. -/
theorem valid_of_day (n : Int) : Valid (yearOf n) (monthOf n) (dayOf n) := by
  obtain ⟨⟨h₁, h₂⟩, h₃, h₄⟩ := monthOf_bounds n
  have hd := dayOf_eq n
  refine ⟨h₁, h₂, by omega, ?_⟩
  unfold monthLength
  omega

theorem dayNumber_of_day (n : Int) : dayNumber (yearOf n) (monthOf n) (dayOf n) = n := by
  have hd := dayOf_eq n
  unfold dayNumber
  unfold ordinal0 at hd
  omega

variable {y : Int} {m d : Nat}

theorem dayNumber_bounds (h : Valid y m d) :
    yearStart y + monthStart y m ≤ dayNumber y m d ∧
      dayNumber y m d < yearStart y + monthStart y (m + 1) := by
  obtain ⟨_, _, h₃, h₄⟩ := h
  unfold monthLength at h₄
  unfold dayNumber
  constructor
  · omega
  · omega

theorem monthStart_le_year (hm : m ≤ 12) (hm' : 1 ≤ m) :
    monthStart y (m + 1) ≤ 365 + leapDay y := by
  have hl := leapDay_cases y
  unfold monthStart
  split_ifs <;> omega

theorem yearOf_dayNumber (h : Valid y m d) : yearOf (dayNumber y m d) = y := by
  obtain ⟨h₁, h₂⟩ := dayNumber_bounds h
  have h₃ := monthStart_nonneg y h.1
  have h₄ := monthStart_le_year (y := y) h.2.1 h.1
  have hs := yearStart_succ y
  exact yearOf_eq (by omega) (by omega)

theorem monthOf_dayNumber (h : Valid y m d) : monthOf (dayNumber y m d) = m := by
  obtain ⟨⟨hm₁, hm₂⟩, h₁, h₂⟩ := monthOf_bounds (dayNumber y m d)
  obtain ⟨h₃, h₄⟩ := dayNumber_bounds h
  unfold ordinal0 at h₁ h₂
  rw [yearOf_dayNumber h] at h₁ h₂
  by_contra hne
  rcases Nat.lt_or_gt_of_ne hne with hlt | hgt
  · rcases Nat.lt_or_ge (monthOf (dayNumber y m d) + 1) m with hlt' | hge
    · have := monthStart_lt (y := y) (by omega : 1 ≤ monthOf (dayNumber y m d) + 1) hlt'
        (by have := h.2.1; omega)
      omega
    · have hm : monthOf (dayNumber y m d) + 1 = m := by omega
      rw [hm] at h₂
      omega
  · rcases Nat.lt_or_ge (m + 1) (monthOf (dayNumber y m d)) with hlt' | hge
    · have := monthStart_lt (y := y) (by omega : 1 ≤ m + 1) hlt' (by omega)
      omega
    · have hm : m + 1 = monthOf (dayNumber y m d) := by omega
      rw [hm] at h₄
      omega

theorem dayOf_dayNumber (h : Valid y m d) : dayOf (dayNumber y m d) = d := by
  have hd := dayOf_eq (dayNumber y m d)
  unfold ordinal0 at hd
  rw [yearOf_dayNumber h, monthOf_dayNumber h] at hd
  have h1 := h.2.2.1
  unfold dayNumber at hd ⊢
  omega

/-- A date of a later month has the greater number. -/
theorem dayNumber_lt {y' : Int} {m' d' : Nat} (h : Valid y m d) (h' : Valid y' m' d')
    (hlt : y < y' ∨ y = y' ∧ m < m') : dayNumber y m d < dayNumber y' m' d' := by
  obtain ⟨h₁, h₂⟩ := dayNumber_bounds h
  obtain ⟨h₃, h₄⟩ := dayNumber_bounds h'
  rcases hlt with hy | ⟨rfl, hm⟩
  · have hle : yearStart (y + 1) ≤ yearStart y' := yearStart_le (by omega)
    have hs := yearStart_succ y
    have h₅ := monthStart_le_year (y := y) h.2.1 h.1
    have h₆ := monthStart_nonneg y' h'.1
    omega
  · rcases Nat.lt_or_ge (m + 1) m' with hlt' | hge
    · have := monthStart_lt (y := y) (by omega : 1 ≤ m + 1) hlt' (by have := h'.2.1; omega)
      omega
    · have hm' : m + 1 = m' := by omega
      rw [hm'] at h₂
      omega

end Arlen.Lib.Civil
