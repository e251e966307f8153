import Arlen.Calendar.Grid

/-!
# One period on

`advance` of `rrule.rs`, for a step of months or years: try the periods an interval
apart until one has the day, with a bound on the tries. Both searches are one search
over the periods. Forty-eight tries are enough for every monthly step; eight are not
enough for a 29th of February that steps from one leap century to the next.
-/

namespace Arlen.Calendar

open Arlen.Lib

/-! ### A bounded search -/

section

variable {α : Type*} {f : Int → Option α} {step n : Int} {tries : Nat} {a : α}

/-- The first result, of so many tries a step apart. -/
def firstFrom (f : Int → Option α) (step : Int) : Nat → Int → Option α
  | 0, _ => none
  | tries + 1, n =>
    match f n with
    | some a => some a
    | none => firstFrom f step tries (n + step)

theorem step_add (n step : Int) (i : Nat) : n + step + i * step = n + (i + 1 : Nat) * step := by
  push_cast
  ring

theorem step_zero (n step : Int) : n + (0 : Nat) * step = n := by simp

theorem firstFrom_eq_none :
    firstFrom f step tries n = none ↔ ∀ i < tries, f (n + i * step) = none := by
  induction tries generalizing n with
  | zero => exact ⟨fun _ i hi => absurd hi (Nat.not_lt_zero i), fun _ => rfl⟩
  | succ tries ih =>
    unfold firstFrom
    cases hf : f n with
    | some a =>
      refine ⟨fun h => (by cases h), fun h => ?_⟩
      have := h 0 (Nat.succ_pos tries)
      rw [step_zero, hf] at this
      cases this
    | none =>
      dsimp only
      rw [ih]
      constructor
      · intro h i hi
        cases i with
        | zero => rwa [step_zero]
        | succ i =>
          rw [← step_add]
          exact h i (Nat.lt_of_succ_lt_succ hi)
      · intro h i hi
        rw [step_add]
        exact h (i + 1) (Nat.succ_lt_succ hi)

/-- The search ends at the first try with a result. -/
theorem firstFrom_eq_some (h : firstFrom f step tries n = some a) :
    ∃ j < tries, f (n + j * step) = some a ∧ ∀ i < j, f (n + i * step) = none := by
  induction tries generalizing n with
  | zero => cases h
  | succ tries ih =>
    unfold firstFrom at h
    cases hf : f n with
    | some b =>
      rw [hf] at h
      refine ⟨0, Nat.succ_pos tries, ?_, fun i hi => absurd hi (Nat.not_lt_zero i)⟩
      rw [step_zero, hf]
      exact h
    | none =>
      rw [hf] at h
      obtain ⟨j, hj, ha, hbefore⟩ := ih h
      refine ⟨j + 1, Nat.succ_lt_succ hj, by rwa [← step_add], fun i hi => ?_⟩
      cases i with
      | zero => rwa [step_zero]
      | succ i =>
        rw [← step_add]
        exact hbefore i (Nat.lt_of_succ_lt_succ hi)

end

/-! ### Periods -/

/-- The period a date lies in: its year, or its month counted from the year 0. -/
def Freq.period : Freq → NaiveDate → Int
  | .yearly, d => d.year
  | _, d => monthIndex d.days

/-- The date keeps the day of the start, and its month where the step is of years. -/
def Freq.Anchored (freq : Freq) (start d : NaiveDate) : Prop :=
  d.day = start.day ∧ (freq = .yearly → d.month = start.month)

/-- The period has the day of the start. -/
def Freq.Has (freq : Freq) (start : NaiveDate) (n : Int) : Prop :=
  match freq with
  | .yearly => Civil.Valid n start.month start.day
  | _ => ValidAt n start.day

/-- The date of a period, if it has the day and chrono has the date. -/
def Freq.dateIn (freq : Freq) (start : NaiveDate) (n : Int) : Option NaiveDate :=
  match freq with
  | .yearly => NaiveDate.fromYmdOpt n start.month start.day
  | _ => NaiveDate.fromYmdOpt (n / 12) (n % 12).toNat.succ start.day

/-- How often `advance` tries. -/
def Freq.tries : Freq → Nat
  | .yearly => 8
  | _ => 48

/-- The later dates a step may end on. -/
def Freq.Later (freq : Freq) (interval : Nat) (start date d : NaiveDate) : Prop :=
  date < d ∧ freq.Anchored start d ∧ ∃ k : Nat, freq.period d = freq.period date + k * interval

/-- The step is to the least of the later dates, and to none only if there is none. -/
def AdvanceRight (freq : Freq) (interval : Nat) (start date : NaiveDate) : Prop :=
  match advance date freq interval start with
  | some next =>
    freq.Later interval start date next ∧ ∀ d, freq.Later interval start date d → next ≤ d
  | none => ∀ d, ¬ freq.Later interval start date d

/-- The dates of a series: its start, and the step from each. -/
inductive OfSeries (freq : Freq) (interval : Nat) (start : NaiveDate) : NaiveDate → Prop
  | start : OfSeries freq interval start start
  | next {date next : NaiveDate} (hdate : OfSeries freq interval start date)
      (hnext : advance date freq interval start = some next) : OfSeries freq interval start next

variable {freq : Freq} {interval : Nat} {start date a b d : NaiveDate} {n : Int}

theorem Freq.dateIn_eq_some :
    freq.dateIn start n = some d ↔ freq.period d = n ∧ freq.Anchored start d := by
  unfold dateIn period Anchored
  constructor
  · intro h
    cases freq with
    | yearly =>
      obtain ⟨hy, hm, hd⟩ := NaiveDate.ymd_of_fromYmdOpt h
      exact ⟨hy, hd, fun _ => hm⟩
    | daily | weekly | monthly =>
      obtain ⟨hidx, hd⟩ := monthIndex_of_fromYmdOpt h
      exact ⟨hidx, hd, fun h => by cases h⟩
  · rintro ⟨rfl, hday, hmonth⟩
    cases freq with
    | yearly =>
      dsimp only
      rw [← hday, ← hmonth rfl]
      exact d.fromYmdOpt_self
    | daily | weekly | monthly =>
      dsimp only
      have h₁ := d.valid.1
      have h₂ := d.valid.2.1
      have hidx := d.monthIndex_eq
      have hy : monthIndex d.days / 12 = d.year := by omega
      have hm : (monthIndex d.days % 12).toNat.succ = d.month := by omega
      rw [← hday, hy, hm]
      exact d.fromYmdOpt_self

theorem Freq.has_of_anchored (h : freq.Anchored start d) : freq.Has start (freq.period d) := by
  unfold Has period
  cases freq with
  | yearly =>
    dsimp only
    rw [← h.1, ← h.2 rfl]
    exact d.valid
  | daily | weekly | monthly =>
    dsimp only
    rw [← h.1]
    exact d.validAt

theorem Freq.lt_of_period_lt (h : freq.period a < freq.period b) : a < b := by
  unfold period at h
  cases freq with
  | yearly =>
    rw [NaiveDate.lt_def, ← a.dayNumber_eq, ← b.dayNumber_eq]
    exact Civil.dayNumber_lt a.valid b.valid (Or.inl h)
  | daily | weekly | monthly => exact lt_of_monthIndex_lt h

/-- Of the dates that keep the day, the later one is in the later period. -/
theorem Freq.period_lt_of_lt (ha : freq.Anchored start a) (hb : freq.Anchored start b)
    (h : a < b) : freq.period a < freq.period b := by
  rcases lt_trichotomy (freq.period a) (freq.period b) with hlt | heq | hgt
  · exact hlt
  · have hsame := (dateIn_eq_some.mpr ⟨heq, ha⟩).symm.trans (dateIn_eq_some.mpr ⟨rfl, hb⟩)
    rw [Option.some.inj hsame] at h
    exact absurd h (NaiveDate.lt_irrefl b)
  · exact absurd (NaiveDate.lt_trans h (lt_of_period_lt hgt)) (NaiveDate.lt_irrefl a)

/-- A period with the day has its date, if chrono has one before and one behind. -/
theorem Freq.exists_dateIn (hn : freq.Has start n) (ha : freq.period a < n)
    (hb : n < freq.period b) : ∃ d, freq.dateIn start n = some d := by
  have hmin := a.inRange.1
  have hmax := b.inRange.2
  rw [← a.dayNumber_eq] at hmin
  rw [← b.dayNumber_eq] at hmax
  unfold Has at hn
  unfold period at ha hb
  unfold dateIn
  cases freq with
  | yearly =>
    refine ⟨⟨_, le_trans hmin (le_of_lt ?_), le_trans (le_of_lt ?_) hmax⟩,
      NaiveDate.fromYmdOpt_eq_some.mpr ⟨hn, rfl⟩⟩
    · exact Civil.dayNumber_lt a.valid hn (Or.inl ha)
    · exact Civil.dayNumber_lt hn b.valid (Or.inl hb)
  | daily | weekly | monthly =>
    have h₁ := a.valid.1
    have h₂ := a.valid.2.1
    have h₃ := b.valid.1
    have h₄ := b.valid.2.1
    dsimp only at ha hb
    rw [NaiveDate.monthIndex_eq] at ha hb
    refine ⟨⟨_, le_trans hmin (le_of_lt ?_), le_trans (le_of_lt ?_) hmax⟩,
      NaiveDate.fromYmdOpt_eq_some.mpr ⟨hn, rfl⟩⟩
    · exact Civil.dayNumber_lt a.valid hn (by omega)
    · exact Civil.dayNumber_lt hn b.valid (by omega)

/-! ### The step as a search over the periods -/

theorem monthFrom_eq_firstFrom {day interval tries : Nat} {months : Int}
    (hlow : -2 ^ 31 ≤ months / 12) (hhigh : (months + tries * interval) / 12 < 2 ^ 31) :
    monthFrom day interval tries months =
      firstFrom (fun n => NaiveDate.fromYmdOpt (n / 12) (n % 12).toNat.succ day) interval tries
        months := by
  induction tries generalizing months with
  | zero => rfl
  | succ tries ih =>
    have hnn : (0 : Int) ≤ tries * interval := by positivity
    push_cast at hhigh
    rw [add_mul, one_mul] at hhigh
    unfold monthFrom firstFrom
    rw [wrapI32_of_inRange hlow (by omega)]
    cases NaiveDate.fromYmdOpt (months / 12) (months % 12).toNat.succ day with
    | some d => rfl
    | none => exact ih (by omega) (by omega)

theorem yearFrom_eq_firstFrom {month day interval tries : Nat} {year : Int}
    (hlow : -2 ^ 31 ≤ year) (hhigh : year + tries * interval < 2 ^ 31) :
    yearFrom month day interval tries year =
      firstFrom (fun n => NaiveDate.fromYmdOpt n month day) interval tries year := by
  induction tries generalizing year with
  | zero => rfl
  | succ tries ih =>
    have hnn : (0 : Int) ≤ tries * interval := by positivity
    push_cast at hhigh
    rw [add_mul, one_mul] at hhigh
    unfold yearFrom firstFrom
    cases NaiveDate.fromYmdOpt year month day with
    | some d => rfl
    | none =>
      dsimp only
      rw [wrapI32_of_inRange (by omega) (by omega)]
      exact ih (by omega) (by omega)

theorem advance_eq_firstFrom (hfreq : freq = .monthly ∨ freq = .yearly) (hle : interval ≤ 1000) :
    advance date freq interval start =
      firstFrom (freq.dateIn start) interval freq.tries (freq.period date + interval) := by
  obtain ⟨hy₁, hy₂⟩ := date.year_bounds
  rcases hfreq with rfl | rfl
  · obtain ⟨hm₁, hm₂⟩ := monthIndex_bounds date
    rw [date.monthIndex_eq] at hm₁ hm₂
    exact monthFrom_eq_firstFrom (by omega) (by push_cast; omega)
  · have hw : wrapI32 (interval : Int) = interval := wrapI32_of_inRange (by omega) (by omega)
    unfold advance
    dsimp only
    rw [hw, wrapI32_of_inRange (by omega) (by omega)]
    exact yearFrom_eq_firstFrom (by omega) (by push_cast; omega)

theorem OfSeries.anchored (hfreq : freq = .monthly ∨ freq = .yearly) (hle : interval ≤ 1000)
    (h : OfSeries freq interval start date) : freq.Anchored start date := by
  induction h with
  | start => exact ⟨rfl, fun _ => rfl⟩
  | next _ hnext ih =>
    rw [advance_eq_firstFrom hfreq hle] at hnext
    obtain ⟨j, -, hj, -⟩ := firstFrom_eq_some hnext
    exact (Freq.dateIn_eq_some.mp hj).2

/-- The later dates are those of the periods a positive number of intervals on. -/
theorem Freq.later_iff (hpos : 0 < interval) (hdate : freq.Anchored start date) :
    freq.Later interval start date d ↔
      ∃ i : Nat, freq.dateIn start (freq.period date + interval + i * interval) = some d := by
  constructor
  · rintro ⟨hlt, hd, k, hk⟩
    have hperiod := period_lt_of_lt hdate hd hlt
    cases k with
    | zero => rw [hk, step_zero] at hperiod; exact absurd hperiod (lt_irrefl _)
    | succ i => exact ⟨i, dateIn_eq_some.mpr ⟨by rw [hk, step_add], hd⟩⟩
  · rintro ⟨i, hi⟩
    obtain ⟨hk, hd⟩ := dateIn_eq_some.mp hi
    rw [step_add] at hk
    have hstep : (0 : Int) < (i + 1 : Nat) * interval := by positivity
    have hlt : freq.period date < freq.period d := by omega
    exact ⟨lt_of_period_lt hlt, hd, i + 1, hk⟩

/-- The step is right exactly if the tries do not end too early. -/
theorem advanceRight_iff (hfreq : freq = .monthly ∨ freq = .yearly) (hpos : 0 < interval)
    (hle : interval ≤ 1000) (hdate : freq.Anchored start date) :
    AdvanceRight freq interval start date ↔
      ((∀ i < freq.tries,
          freq.dateIn start (freq.period date + interval + (i : Nat) * interval) = none) →
        ∀ i : Nat, freq.dateIn start (freq.period date + interval + i * interval) = none) := by
  unfold AdvanceRight
  rw [advance_eq_firstFrom hfreq hle]
  cases hadv : firstFrom (freq.dateIn start) interval freq.tries (freq.period date + interval) with
  | none =>
    have hnone := firstFrom_eq_none.mp hadv
    constructor
    · intro h _ i
      cases hi : freq.dateIn start (freq.period date + interval + i * interval) with
      | none => rfl
      | some d => exact absurd ((Freq.later_iff hpos hdate).mpr ⟨i, hi⟩) (h d)
    · intro h d hd
      obtain ⟨i, hi⟩ := (Freq.later_iff hpos hdate).mp hd
      rw [h hnone i] at hi
      cases hi
  | some next =>
    obtain ⟨j, hj, hnext, hbefore⟩ := firstFrom_eq_some hadv
    refine ⟨fun _ h => ?_, fun _ => ⟨(Freq.later_iff hpos hdate).mpr ⟨j, hnext⟩, fun d hd => ?_⟩⟩
    · rw [h j hj] at hnext
      cases hnext
    · obtain ⟨i, hi⟩ := (Freq.later_iff hpos hdate).mp hd
      rcases Nat.lt_trichotomy i j with hlt | rfl | hgt
      · rw [hbefore i hlt] at hi
        cases hi
      · rw [hi] at hnext
        rw [Option.some.inj hnext]
        exact NaiveDate.le_refl next
      · have hmul : (j : Int) * interval < i * interval :=
          mul_lt_mul_of_pos_right (by exact_mod_cast hgt) (by exact_mod_cast hpos)
        have hperiod : freq.period next < freq.period d := by
          rw [(Freq.dateIn_eq_some.mp hnext).1, (Freq.dateIn_eq_some.mp hi).1]
          omega
        exact NaiveDate.le_of_lt (Freq.lt_of_period_lt hperiod)

/-- The tries are enough if one of their periods has the day. -/
theorem advanceRight_of_has (hfreq : freq = .monthly ∨ freq = .yearly) (hpos : 0 < interval)
    (hle : interval ≤ 1000) (hdate : freq.Anchored start date) {j : Nat} (hj : 1 ≤ j)
    (hj' : j ≤ freq.tries) (h : freq.Has start (freq.period date + j * interval)) :
    AdvanceRight freq interval start date := by
  rw [advanceRight_iff hfreq hpos hle hdate]
  intro hnone i
  cases hi : freq.dateIn start (freq.period date + interval + i * interval) with
  | none => rfl
  | some d =>
    -- the period tried lies between two dates, so its date was found
    exfalso
    have hij : freq.tries ≤ i := by
      by_contra hlt
      rw [hnone i (by omega)] at hi
      cases hi
    obtain ⟨hd, -⟩ := Freq.dateIn_eq_some.mp hi
    rw [step_add] at hd
    have hlow : (0 : Int) < j * interval := by positivity
    have hhigh : (j : Int) * interval < (i + 1 : Nat) * interval :=
      mul_lt_mul_of_pos_right (by exact_mod_cast (by omega : j < i + 1)) (by exact_mod_cast hpos)
    obtain ⟨x, hx⟩ := Freq.exists_dateIn h (a := date) (b := d) (by omega) (by omega)
    have hj1 : j - 1 + 1 = j := Nat.sub_add_cancel hj
    have htried := hnone (j - 1) (by omega)
    rw [step_add, hj1, hx] at htried
    cases htried

/-! ### Years that have the day -/

theorem valid_of_valid {y : Int} {m k : Nat} (h : Civil.Valid y m k) (hne : ¬ (m = 2 ∧ k = 29))
    (y' : Int) : Civil.Valid y' m k := by
  obtain ⟨hm, hm', hk, hlen⟩ := h
  refine ⟨hm, hm', hk, ?_⟩
  by_cases h2 : m = 2
  · subst h2
    rw [monthLength_february] at hlen ⊢
    have := Civil.leapDay_cases y
    have := Civil.leapDay_cases y'
    omega
  · rwa [monthLength_eq y' y hm h2]

theorem valid_leap_day {y : Int} : Civil.Valid y 2 29 ↔ Civil.isLeap y = true := by
  unfold Civil.Valid
  rw [monthLength_february]
  unfold Civil.leapDay
  by_cases h : Civil.isLeap y = true
  · simp [h]
  · simp [h]

/-- Eight steps come to a leap year, but for the odd multiples of 25 behind a year that
400 divides. -/
theorem exists_leap_within_eight {y i : Int} (hy : Civil.isLeap y = true)
    (h : ¬ (y % 400 = 0 ∧ i % 50 = 25)) :
    ∃ t : Nat, 1 ≤ t ∧ t ≤ 8 ∧ Civil.isLeap (y + t * i) = true := by
  by_cases h4 : Civil.isLeap (y + 4 * i) = true
  · exact ⟨4, by omega, by omega, h4⟩
  refine ⟨8, by omega, by omega, ?_⟩
  rw [isLeap_iff] at hy h4 ⊢
  push_cast
  omega

/-- There the sixteenth step is the first one to a leap year. -/
theorem isLeap_of_odd_quarters {y i : Int} (hy : y % 400 = 0) (hi : i % 50 = 25) {t : Nat}
    (ht : 1 ≤ t) (ht' : t ≤ 16) : Civil.isLeap (y + t * i) = true ↔ t = 16 := by
  obtain ⟨a, rfl⟩ : ∃ a, y = 400 * a := ⟨y / 400, by omega⟩
  obtain ⟨b, rfl⟩ : ∃ b, i = 50 * b + 25 := ⟨i / 50, by omega⟩
  rw [isLeap_iff]
  constructor
  · rintro ⟨h4, h100⟩
    interval_cases t <;> omega
  · rintro rfl
    omega

/-- The steps whose next date is sixteen intervals away, and in chrono's range. -/
def LeapCenturies (freq : Freq) (interval : Nat) (start date : NaiveDate) : Prop :=
  freq = .yearly ∧ start.month = 2 ∧ start.day = 29 ∧ date.year % 400 = 0 ∧ interval % 50 = 25 ∧
    date.year + 16 * interval ≤ 262142

theorem advanceRight_monthly (hpos : 0 < interval) (hle : interval ≤ 1000)
    (hdate : Freq.monthly.Anchored start date) : AdvanceRight .monthly interval start date := by
  obtain ⟨j, hj, hj', hv⟩ := exists_validAt (Freq.has_of_anchored hdate) interval
  exact advanceRight_of_has (Or.inl rfl) hpos hle hdate hj hj' hv

theorem advanceRight_yearly (hpos : 0 < interval) (hle : interval ≤ 1000)
    (hdate : Freq.yearly.Anchored start date)
    (h : ¬ (start.month = 2 ∧ start.day = 29 ∧ date.year % 400 = 0 ∧ interval % 50 = 25)) :
    AdvanceRight .yearly interval start date := by
  have hhas : Civil.Valid date.year start.month start.day := Freq.has_of_anchored hdate
  by_cases hfeb : start.month = 2 ∧ start.day = 29
  · rw [hfeb.1, hfeb.2, valid_leap_day] at hhas
    obtain ⟨t, ht, ht', hleap⟩ := exists_leap_within_eight (i := interval) hhas (by omega)
    refine advanceRight_of_has (Or.inr rfl) hpos hle hdate ht ht' ?_
    show Civil.Valid _ start.month start.day
    rw [hfeb.1, hfeb.2, valid_leap_day]
    exact hleap
  · exact advanceRight_of_has (Or.inr rfl) hpos hle hdate (j := 1) (Nat.le_refl 1) (by decide)
      (valid_of_valid hhas hfeb _)

/-- The sixteenth period has a date up to chrono's last year. -/
theorem exists_leap_date {y : Int} (hy : Civil.isLeap y = true) (hlow : date.year < y)
    (hhigh : y ≤ 262142) : ∃ d, NaiveDate.fromYmdOpt y 2 29 = some d := by
  have hv := valid_leap_day.mpr hy
  have hmin := date.inRange.1
  rw [← date.dayNumber_eq] at hmin
  have hmax : Civil.Valid 262142 12 31 := by decide
  refine ⟨⟨_, le_trans hmin (le_of_lt ?_), le_of_lt ?_⟩, NaiveDate.fromYmdOpt_eq_some.mpr ⟨hv, rfl⟩⟩
  · exact Civil.dayNumber_lt date.valid hv (Or.inl hlow)
  · exact Civil.dayNumber_lt hv hmax (by omega)

/-- From a 29th of February of a year that 400 divides, in steps of an odd multiple of 25
years, the eight tries find nothing. -/
theorem advanceRight_odd_quarters (hpos : 0 < interval) (hle : interval ≤ 1000)
    (hdate : Freq.yearly.Anchored start date) (hm : start.month = 2) (hd : start.day = 29)
    (hy : date.year % 400 = 0) (hi : interval % 50 = 25) :
    AdvanceRight .yearly interval start date ↔ ¬ date.year + 16 * interval ≤ 262142 := by
  have hi' : (interval : Int) % 50 = 25 := by omega
  have hyear : ∀ i : Nat,
      Freq.yearly.dateIn start (Freq.yearly.period date + interval + i * interval) =
        NaiveDate.fromYmdOpt (date.year + (i + 1 : Nat) * interval) 2 29 := by
    intro i
    rw [step_add]
    show NaiveDate.fromYmdOpt _ start.month start.day = _
    rw [hm, hd]
    rfl
  -- a date found is one of a leap year
  have hleap : ∀ (i : Nat) (d : NaiveDate),
      NaiveDate.fromYmdOpt (date.year + (i + 1 : Nat) * interval) 2 29 = some d → 15 ≤ i := by
    intro i d hd
    have hv := (NaiveDate.fromYmdOpt_eq_some.mp hd).1
    rw [valid_leap_day] at hv
    by_contra hlt
    have := (isLeap_of_odd_quarters hy hi' (t := i + 1) (by omega) (by omega)).mp hv
    omega
  rw [advanceRight_iff (Or.inr rfl) hpos hle hdate]
  simp only [hyear]
  have htried : ∀ i < Freq.yearly.tries,
      NaiveDate.fromYmdOpt (date.year + (i + 1 : Nat) * interval) 2 29 = none := by
    intro i hlt
    have h8 : Freq.yearly.tries = 8 := rfl
    cases hdi : NaiveDate.fromYmdOpt (date.year + (i + 1 : Nat) * interval) 2 29 with
    | none => rfl
    | some d =>
      have := hleap i d hdi
      omega
  constructor
  · intro h hin
    have h16 := (isLeap_of_odd_quarters hy hi' (t := 16) (by omega) (Nat.le_refl _)).mpr rfl
    obtain ⟨d, hd⟩ := exists_leap_date h16 (show date.year < _ by omega)
      (by exact_mod_cast hin)
    have hnone := h htried 15
    rw [hd] at hnone
    cases hnone
  · intro hout _ i
    cases hdi : NaiveDate.fromYmdOpt (date.year + (i + 1 : Nat) * interval) 2 29 with
    | none => rfl
    | some d =>
      have hlate := hleap i d hdi
      have hbound := d.year_bounds.2
      rw [(NaiveDate.ymd_of_fromYmdOpt hdi).1] at hbound
      have hmul : (16 : Int) * interval ≤ (i + 1 : Nat) * interval :=
        mul_le_mul_of_nonneg_right (by exact_mod_cast (by omega : 16 ≤ i + 1)) (by positivity)
      omega

/-- A step of months or years is right for every date of the series, except from one leap
century to the next. -/
theorem advanceRight_iff_not_leapCenturies (hfreq : freq = .monthly ∨ freq = .yearly)
    (hpos : 1 ≤ interval) (hle : interval ≤ 1000) (hdate : OfSeries freq interval start date) :
    AdvanceRight freq interval start date ↔ ¬ LeapCenturies freq interval start date := by
  have hanchor := hdate.anchored hfreq hle
  unfold LeapCenturies
  rcases hfreq with rfl | rfl
  · exact ⟨fun _ h => (by cases h.1), fun _ => advanceRight_monthly hpos hle hanchor⟩
  · by_cases h : start.month = 2 ∧ start.day = 29 ∧ date.year % 400 = 0 ∧ interval % 50 = 25
    · obtain ⟨hm, hd, hy, hi⟩ := h
      rw [advanceRight_odd_quarters hpos hle hanchor hm hd hy hi]
      exact not_congr ⟨fun hin => ⟨rfl, hm, hd, hy, hi, hin⟩, fun hin => hin.2.2.2.2.2⟩
    · exact ⟨fun _ hin => h ⟨hin.2.1, hin.2.2.1, hin.2.2.2.1, hin.2.2.2.2.1⟩,
        fun _ => advanceRight_yearly hpos hle hanchor h⟩

theorem leapDay_inRange : NaiveDate.minDay ≤ 730178 ∧ (730178 : Int) ≤ NaiveDate.maxDay := by
  decide

/-- The 29th of February 2000. -/
def leapDay2000 : NaiveDate := ⟨730178, leapDay_inRange⟩

/-- Every 16 years, the 29th of February 2016 is next. -/
theorem advanceRight_sixteen_years :
    ¬ LeapCenturies .yearly 16 leapDay2000 leapDay2000 ∧
      AdvanceRight .yearly 16 leapDay2000 leapDay2000 := by
  have hnot : ¬ LeapCenturies .yearly 16 leapDay2000 leapDay2000 := fun h =>
    absurd h.2.2.2.2.1 (by decide)
  exact ⟨hnot, (advanceRight_iff_not_leapCenturies (Or.inr rfl) (by decide) (by decide) .start).2 hnot⟩

/-- Every 25 years from then on: there is a 29th of February 2400, and no step to it. -/
theorem leap_century_missed :
    ¬ (∀ (freq : Freq) (interval : Nat) (start date : NaiveDate),
      freq = .monthly ∨ freq = .yearly → 1 ≤ interval → interval ≤ 1000 →
      OfSeries freq interval start date → AdvanceRight freq interval start date) := by
  intro h
  have hright := h .yearly 25 leapDay2000 leapDay2000 (Or.inr rfl) (by decide) (by decide) .start
  have hnone : advance leapDay2000 .yearly 25 leapDay2000 = none := by decide
  unfold AdvanceRight at hright
  rw [hnone] at hright
  exact hright ⟨876275, by decide⟩ ⟨by decide, ⟨by decide, fun _ => by decide⟩, 16, by decide⟩

end Arlen.Calendar
