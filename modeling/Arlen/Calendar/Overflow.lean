import Arlen.Calendar.Grid

/-!
# Where the walk leaves its numbers

`expandChecked` is `expand` with every `i32` it computes checked: no result where one wraps,
or where a date addition panics. `Rule.Fits` says in closed form which rules stay within
both for a start and a window, and the dates of such a walk are all within the window, not
before the start and not after `UNTIL`.
-/

namespace Arlen.Calendar

open Arlen.Lib

/-- The number as an `i32`, where it is one. -/
def checkedI32 (n : Int) : Option Int := if -2 ^ 31 ≤ n ∧ n < 2 ^ 31 then some n else none

/-- `monthFrom`, checked: the outer option is a wrap. -/
def monthFromChecked (day interval : Nat) : Nat → Int → Option (Option NaiveDate)
  | 0, _ => some none
  | tries + 1, months =>
    (checkedI32 (months / 12)).bind fun y =>
      match NaiveDate.fromYmdOpt y (months % 12).toNat.succ day with
      | some d => some (some d)
      | none => monthFromChecked day interval tries (months + interval)

def yearFromChecked (month day : Nat) (interval : Int) : Nat → Int → Option (Option NaiveDate)
  | 0, _ => some none
  | tries + 1, year =>
    match NaiveDate.fromYmdOpt year month day with
    | some d => some (some d)
    | none =>
      (checkedI32 (year + interval)).bind fun year =>
        yearFromChecked month day interval tries year

def advanceChecked (date : NaiveDate) (freq : Freq) (interval : Nat) (start : NaiveDate) :
    Option (Option NaiveDate) :=
  match freq with
  | .daily => some (date.addDays interval)
  | .weekly => some (date.addDays (7 * interval))
  | .monthly =>
    monthFromChecked start.day interval 48 (date.year * 12 + ((date.month : Int) - 1) + interval)
  | .yearly =>
    (checkedI32 interval).bind fun interval =>
      (checkedI32 (date.year + interval)).bind fun year =>
        yearFromChecked start.month start.day interval 8 year

def dateLoopChecked (rule : Rule) (start «from» «to» : NaiveDate) :
    Nat → NaiveDate → Nat → List NaiveDate → Option (List NaiveDate)
  | 0, _, _, out => some out
  | steps + 1, date, seen, out =>
    if «to» < date then some out
    else if rule.ended seen date then some out
    else
      let out := if «from» ≤ date then out ++ [date] else out
      match advanceChecked date rule.freq rule.interval start with
      | none => none
      | some none => some out
      | some (some next) => dateLoopChecked rule start «from» «to» steps next (seen + 1) out

def Rule.walkChecked (rule : Rule) (start «from» «to» : NaiveDate) : Option (List NaiveDate) :=
  if rule.weekly then rule.walk start «from» «to»
  else (dateLoopChecked rule start «from» «to» maxSteps start 0 []).map sortDates

/-- `expand`, checked. -/
def expandChecked (value : List Char) (start «from» «to» : NaiveDate) :
    Option (Option (List NaiveDate)) :=
  match parseRule value with
  | none => some none
  | some rule =>
    if «to» < «from» then some (some [])
    else (rule.walkChecked start «from» «to»).map some

variable {rule : Rule} {start date next x «from» «to» : NaiveDate}

/-! ### The checks change no result -/

theorem checkedI32_eq_some {n m : Int} :
    checkedI32 n = some m ↔ m = n ∧ -2 ^ 31 ≤ n ∧ n < 2 ^ 31 := by
  unfold checkedI32
  split
  · next h =>
    rw [Option.some.injEq]
    exact ⟨fun heq => ⟨heq.symm, h⟩, fun ⟨heq, _⟩ => heq.symm⟩
  · next h =>
    constructor
    · intro h'
      cases h'
    · exact fun ⟨_, h'⟩ => absurd h' h

theorem checkedI32_eq_none {n : Int} : checkedI32 n = none ↔ n < -2 ^ 31 ∨ 2 ^ 31 ≤ n := by
  unfold checkedI32
  split
  · next h =>
    constructor
    · intro h'
      cases h'
    · omega
  · next h => exact ⟨fun _ => by omega, fun _ => rfl⟩

theorem wrapI32_of_checked {n m : Int} (h : checkedI32 n = some m) : wrapI32 n = m := by
  obtain ⟨rfl, h₁, h₂⟩ := checkedI32_eq_some.1 h
  exact wrapI32_of_inRange h₁ h₂

theorem monthFrom_of_checked {day interval tries : Nat} {months : Int} {r : Option NaiveDate}
    (h : monthFromChecked day interval tries months = some r) :
    monthFrom day interval tries months = r := by
  induction tries generalizing months with
  | zero => exact Option.some.inj h
  | succ tries ih =>
    unfold monthFromChecked at h
    unfold monthFrom
    obtain ⟨y, hy, h⟩ := Option.bind_eq_some_iff.1 h
    rw [wrapI32_of_checked hy]
    cases hd : NaiveDate.fromYmdOpt y (months % 12).toNat.succ day with
    | some d =>
      rw [hd] at h
      exact Option.some.inj h
    | none =>
      rw [hd] at h
      exact ih h

theorem yearFrom_of_checked {month day tries : Nat} {interval year : Int} {r : Option NaiveDate}
    (h : yearFromChecked month day interval tries year = some r) :
    yearFrom month day interval tries year = r := by
  induction tries generalizing year with
  | zero => exact Option.some.inj h
  | succ tries ih =>
    unfold yearFromChecked at h
    unfold yearFrom
    cases hd : NaiveDate.fromYmdOpt year month day with
    | some d =>
      rw [hd] at h
      exact Option.some.inj h
    | none =>
      rw [hd] at h
      obtain ⟨y, hy, h⟩ := Option.bind_eq_some_iff.1 h
      simp only
      rw [wrapI32_of_checked hy]
      exact ih h

theorem advance_of_checked {freq : Freq} {interval : Nat} {r : Option NaiveDate}
    (h : advanceChecked date freq interval start = some r) :
    advance date freq interval start = r := by
  unfold advanceChecked at h
  unfold advance
  cases freq with
  | daily => exact Option.some.inj h
  | weekly => exact Option.some.inj h
  | monthly =>
    simp only at h ⊢
    exact monthFrom_of_checked h
  | yearly =>
    simp only at h ⊢
    obtain ⟨i, hi, h⟩ := Option.bind_eq_some_iff.1 h
    obtain ⟨y, hy, h⟩ := Option.bind_eq_some_iff.1 h
    rw [wrapI32_of_checked hi, wrapI32_of_checked hy]
    exact yearFrom_of_checked h

theorem dateLoop_of_checked {steps seen : Nat} {out res : List NaiveDate}
    (h : dateLoopChecked rule start «from» «to» steps date seen out = some res) :
    dateLoop rule start «from» «to» steps date seen out = res := by
  induction steps generalizing date seen out with
  | zero => exact Option.some.inj h
  | succ steps ih =>
    unfold dateLoopChecked at h
    unfold dateLoop
    split at h
    · next hto =>
      rw [if_pos hto]
      exact Option.some.inj h
    · next hto =>
      rw [if_neg hto]
      split at h
      · next hend =>
        rw [if_pos hend]
        exact Option.some.inj h
      · next hend =>
        rw [if_neg hend]
        simp only at h ⊢
        split at h
        · cases h
        · next hadv =>
          rw [advance_of_checked hadv]
          exact Option.some.inj h
        · next next hadv =>
          rw [advance_of_checked hadv]
          exact ih h

theorem walk_of_checked {out : List NaiveDate} (h : rule.walkChecked start «from» «to» = some out) :
    rule.walk start «from» «to» = some out := by
  unfold Rule.walkChecked at h
  split at h
  · exact h
  · next hw =>
    obtain ⟨res, hres, rfl⟩ := Option.map_eq_some_iff.1 h
    unfold Rule.walk
    rw [if_neg (show ¬ (rule.freq = .weekly ∧ rule.byDay ≠ []) from hw), dateLoop_of_checked hres]

theorem expand_of_checked {value : List Char} {r : Option (List NaiveDate)}
    (h : expandChecked value start «from» «to» = some r) :
    expand value start «from» «to» = some r := by
  unfold expandChecked at h
  unfold expand
  cases hp : parseRule value with
  | none =>
    rw [hp] at h
    exact h
  | some rule =>
    rw [hp] at h
    simp only at h ⊢
    split at h
    · next hlt =>
      rw [if_pos hlt]
      exact h
    · next hlt =>
      rw [if_neg hlt]
      obtain ⟨out, hout, rfl⟩ := Option.map_eq_some_iff.1 h
      rw [walk_of_checked hout]
      rfl

/-! ### The dates of a checked walk -/

/-- Where a date returned has to lie. -/
structure Rule.Bounds (rule : Rule) (start «from» «to» d : NaiveDate) : Prop where
  start : start ≤ d
  «from» : «from» ≤ d
  «to» : d ≤ «to»
  «until» : ∀ u, rule.until = some u → d ≤ u

theorem le_until_of_not_ended {seen : Nat} (h : ¬ rule.ended seen x = true) {u : NaiveDate}
    (hu : rule.until = some u) : x ≤ u := by
  rw [ended_iff, not_or] at h
  exact NaiveDate.not_lt.1 fun hlt => h.1 ⟨u, hu, hlt⟩

theorem monthFromChecked_le {day interval tries : Nat} {months : Int}
    (h : monthFromChecked day interval tries months = some (some next)) :
    months ≤ monthIndex next.days := by
  induction tries generalizing months with
  | zero => cases h
  | succ tries ih =>
    unfold monthFromChecked at h
    obtain ⟨y, hy, h⟩ := Option.bind_eq_some_iff.1 h
    obtain ⟨rfl, -⟩ := checkedI32_eq_some.1 hy
    split at h
    · next d hd =>
      cases h
      exact (monthIndex_of_fromYmdOpt hd).1.ge
    · have := ih h
      omega

theorem yearFromChecked_le {month day tries : Nat} {interval year : Int} (hi : 0 ≤ interval)
    (h : yearFromChecked month day interval tries year = some (some next)) :
    year ≤ next.year := by
  induction tries generalizing year with
  | zero => cases h
  | succ tries ih =>
    unfold yearFromChecked at h
    split at h
    · next d hd =>
      cases h
      exact (NaiveDate.ymd_of_fromYmdOpt hd).1.ge
    · obtain ⟨y, hy, h⟩ := Option.bind_eq_some_iff.1 h
      obtain ⟨rfl, -⟩ := checkedI32_eq_some.1 hy
      have := ih h
      omega

/-- A checked step goes forward. -/
theorem lt_of_advanceChecked {freq : Freq} {interval : Nat} (hpos : 0 < interval)
    (h : advanceChecked date freq interval start = some (some next)) : date < next := by
  unfold advanceChecked at h
  cases freq with
  | daily =>
    have := NaiveDate.addDays_eq_some.1 (Option.some.inj h)
    rw [NaiveDate.lt_def]
    omega
  | weekly =>
    have := NaiveDate.addDays_eq_some.1 (Option.some.inj h)
    rw [NaiveDate.lt_def]
    omega
  | monthly =>
    simp only at h
    have := monthFromChecked_le h
    rw [← date.monthIndex_eq] at this
    exact lt_of_monthIndex_lt (by omega)
  | yearly =>
    simp only at h
    obtain ⟨i, hi, h⟩ := Option.bind_eq_some_iff.1 h
    obtain ⟨rfl, -⟩ := checkedI32_eq_some.1 hi
    obtain ⟨y, hy, h⟩ := Option.bind_eq_some_iff.1 h
    obtain ⟨rfl, -⟩ := checkedI32_eq_some.1 hy
    have hle := yearFromChecked_le (by positivity) h
    rw [NaiveDate.lt_def, ← date.dayNumber_eq, ← next.dayNumber_eq]
    exact Civil.dayNumber_lt date.valid next.valid (Or.inl (by omega))

theorem bounds_dateLoop (hpos : 0 < rule.interval) {steps seen : Nat} {out res : List NaiveDate}
    (h : dateLoopChecked rule start «from» «to» steps date seen out = some res)
    (hdate : start ≤ date) (hout : ∀ d ∈ out, rule.Bounds start «from» «to» d) :
    ∀ d ∈ res, rule.Bounds start «from» «to» d := by
  induction steps generalizing date seen out with
  | zero =>
    cases h
    exact hout
  | succ steps ih =>
    unfold dateLoopChecked at h
    split at h
    · cases h
      exact hout
    · next hto =>
      split at h
      · cases h
        exact hout
      · next hend =>
        have hout' : ∀ d ∈ (if «from» ≤ date then out ++ [date] else out),
            rule.Bounds start «from» «to» d := by
          intro d hd
          split at hd
          · next hfrom =>
            rcases List.mem_append.1 hd with hd | hd
            · exact hout d hd
            · rw [List.mem_singleton.1 hd]
              exact ⟨hdate, hfrom, NaiveDate.not_lt.1 hto,
                fun u hu => le_until_of_not_ended hend hu⟩
          · exact hout d hd
        simp only at h
        split at h
        · cases h
        · cases h
          exact hout'
        · next next hadv =>
          refine ih h ?_ hout'
          exact NaiveDate.le_trans hdate (NaiveDate.le_of_lt (lt_of_advanceChecked hpos hadv))

theorem bounds_weekDays {days : List Weekday} {week : NaiveDate} {seen : Nat}
    {out : List NaiveDate} {res : List NaiveDate ⊕ (Nat × List NaiveDate)}
    (h : weekDays rule start «from» «to» week days seen out = some res)
    (hout : ∀ d ∈ out, rule.Bounds start «from» «to» d) :
    ∀ d ∈ res.elim id Prod.snd, rule.Bounds start «from» «to» d := by
  induction days generalizing seen out with
  | nil =>
    cases h
    exact hout
  | cons w days ih =>
    unfold weekDays at h
    split at h
    · cases h
    · next date hdate =>
      split at h
      · exact ih h hout
      · next hstart =>
        split at h
        · cases h
          exact hout
        · next hend =>
          refine ih h fun d hd => ?_
          split at hd
          · next hw =>
            rcases List.mem_append.1 hd with hd | hd
            · exact hout d hd
            · rw [List.mem_singleton.1 hd]
              exact ⟨NaiveDate.not_lt.1 hstart, hw.1, hw.2,
                fun u hu => le_until_of_not_ended hend hu⟩
          · exact hout d hd

theorem bounds_weekLoop {days : List Weekday} {week : NaiveDate} {steps seen : Nat}
    {out res : List NaiveDate}
    (h : weekLoop rule days start «from» «to» steps week seen out = some res)
    (hout : ∀ d ∈ out, rule.Bounds start «from» «to» d) :
    ∀ d ∈ res, rule.Bounds start «from» «to» d := by
  induction steps generalizing week seen out with
  | zero =>
    cases h
    exact fun d hd => hout d (mem_sortDates.1 hd)
  | succ steps ih =>
    unfold weekLoop at h
    split at h
    · cases h
      exact fun d hd => hout d (mem_sortDates.1 hd)
    · split at h
      · cases h
      · next stopped hdays =>
        cases h
        exact bounds_weekDays hdays hout
      · next seen' out' hdays =>
        split at h
        · cases h
        · exact ih h (bounds_weekDays hdays hout)

/-- Every date of a checked walk is where it has to lie. -/
theorem bounds_walkChecked (hpos : 0 < rule.interval) {out : List NaiveDate}
    (h : rule.walkChecked start «from» «to» = some out) :
    ∀ d ∈ out, rule.Bounds start «from» «to» d := by
  unfold Rule.walkChecked at h
  split at h
  · next hw =>
    unfold Rule.walk at h
    rw [if_pos (show rule.freq = .weekly ∧ rule.byDay ≠ [] from hw)] at h
    split at h
    · cases h
    · exact bounds_weekLoop h (List.forall_mem_nil _)
  · obtain ⟨res, hres, rfl⟩ := Option.map_eq_some_iff.1 h
    exact fun d hd => bounds_dateLoop hpos hres (NaiveDate.le_refl start)
      (List.forall_mem_nil _) d (mem_sortDates.1 hd)

/-! ### The weeks of a walk -/

/-- The rule has an end, and chrono has a day of the grid behind it. -/
def Rule.EndsInRange (rule : Rule) (start : NaiveDate) : Prop :=
  ∃ d : NaiveDate, rule.OnGrid start.days d.days ∧ ¬ rule.Member start.days d.days

/-- The last week of the interval that has begun by the end of the window. -/
def Rule.lastWeek (rule : Rule) (start «to» : NaiveDate) : Int :=
  («to».days - mondayOf start.days) / (7 * rule.interval)

/-- The weekly walk stays within chrono's dates: it begins within them, and the week behind
the last one it walks is within them too, unless it stops before. -/
structure Rule.WeeksFit (rule : Rule) (start «to» : NaiveDate) : Prop where
  monday : NaiveDate.minDay ≤ mondayOf start.days
  stops : mondayOf start.days + (rule.lastWeek start «to» + 1) * (7 * rule.interval) ≤
      NaiveDate.maxDay ∨ maxSteps ≤ rule.lastWeek start «to» ∨ rule.EndsInRange start

variable {days : List Weekday} {week : NaiveDate}

/-- A week with the end of the rule among its dates returns there. -/
theorem weekDays_of_stop {seen : Nat} {out : List NaiveDate}
    (hd : days.Pairwise fun a b => a.numDaysFromMonday < b.numDaysFromMonday)
    (h : (rule.scan seen (weekDates days start week)).length < (weekDates days start week).length) :
    ∃ r, weekDays rule start «from» «to» week days seen out = some (.inl r) := by
  induction days generalizing seen out with
  | nil => exact absurd h (Nat.not_lt_zero _)
  | cons w days ih =>
    obtain ⟨hw, hdays⟩ := List.pairwise_cons.1 hd
    have hne : weekDates (w :: days) start week ≠ [] := by
      intro hnil
      rw [hnil] at h
      exact absurd h (Nat.not_lt_zero _)
    obtain ⟨x, hx⟩ := List.exists_mem_of_ne_nil _ hne
    obtain ⟨-, w', hw', hxd⟩ := mem_weekDates_iff.1 hx
    have hin : NaiveDate.minDay ≤ week.days + w.numDaysFromMonday ∧
        week.days + w.numDaysFromMonday ≤ NaiveDate.maxDay := by
      have h₁ := week.inRange.1
      have h₂ := x.inRange.2
      rcases List.mem_cons.1 hw' with rfl | hmem
      · omega
      · have := hw w' hmem
        omega
    have hdate : week.addDays w.numDaysFromMonday = some ⟨_, hin⟩ :=
      NaiveDate.addDays_eq_some.2 rfl
    unfold weekDays
    rw [hdate]
    simp only
    split
    · next hlt =>
      refine ih hdays ?_
      have hskip : weekDates (w :: days) start week = weekDates days start week := by
        unfold weekDates
        simp [hdate, mt NaiveDate.not_lt.2 (not_not.2 hlt)]
      rwa [hskip] at h
    · next hlt =>
      split
      · exact ⟨_, rfl⟩
      · next hend =>
        refine ih hdays ?_
        have hkeep : weekDates (w :: days) start week = ⟨_, hin⟩ :: weekDates days start week := by
          unfold weekDates
          simp [hdate, NaiveDate.not_lt.1 hlt]
        rw [hkeep, scan_cons, if_neg hend, List.length_cons, List.length_cons] at h
        exact Nat.lt_of_succ_lt_succ h

/-- The days of a week are within chrono's dates where the next week is. -/
theorem weekDays_of_next (hpos : 0 < rule.interval) {seen : Nat} {out : List NaiveDate}
    (h : week.days + 7 * rule.interval ≤ NaiveDate.maxDay) :
    ∃ r, weekDays rule start «from» «to» week days seen out = some r := by
  refine weekDays_isSome fun w _ => ?_
  have := w.num_lt
  omega

theorem weekLoop_of_stop (hpos : 0 < rule.interval)
    (hd : days.Pairwise fun a b => a.numDaysFromMonday < b.numDaysFromMonday)
    {steps seen : Nat} {out : List NaiveDate}
    (h : (rule.scan seen (weekWalk rule.interval days start steps week)).length <
      (weekWalk rule.interval days start steps week).length) :
    ∃ r, weekLoop rule days start «from» «to» steps week seen out = some r := by
  induction steps generalizing week seen out with
  | zero => exact absurd h (Nat.not_lt_zero _)
  | succ steps ih =>
    unfold weekLoop
    split
    · exact ⟨_, rfl⟩
    · unfold weekWalk at h
      by_cases hstop : (rule.scan seen (weekDates days start week)).length <
          (weekDates days start week).length
      · obtain ⟨r, hr⟩ : ∃ r, weekDays rule start «from» «to» week days seen out = some (.inl r) :=
          weekDays_of_stop hd hstop
        rw [hr]
        exact ⟨_, rfl⟩
      · have hpass : rule.scan seen (weekDates days start week) = weekDates days start week :=
          (scan_isPrefix rule seen _).eq_of_length_le (Nat.not_lt.1 hstop)
        cases hnext : week.addDays (7 * rule.interval) with
        | none =>
          rw [hnext, List.append_nil] at h
          exact absurd h hstop
        | some next =>
          have hle : week.days + 7 * rule.interval ≤ NaiveDate.maxDay := by
            rw [← NaiveDate.addDays_eq_some.1 hnext]
            exact next.inRange.2
          obtain ⟨r, hr⟩ : ∃ r, weekDays rule start «from» «to» week days seen out = some r :=
            weekDays_of_next hpos hle
          rw [hr]
          rcases weekDays_spec hr with ⟨hlen, -⟩ | ⟨-, rfl⟩
          · exact absurd hlen hstop
          · rw [hnext] at h
            simp only at h ⊢
            rw [scan_append_of_pass _ hpass, List.length_append, List.length_append] at h
            exact ih (Nat.lt_of_add_lt_add_left h)

theorem weekLoop_of_fit (hpos : 0 < rule.interval) {steps seen : Nat} {out : List NaiveDate}
    (h : ∀ k : Nat, k < steps → week.days + k * (7 * rule.interval) ≤ «to».days →
      week.days + (k + 1) * (7 * rule.interval) ≤ NaiveDate.maxDay) :
    ∃ r, weekLoop rule days start «from» «to» steps week seen out = some r := by
  induction steps generalizing week seen out with
  | zero => exact ⟨_, rfl⟩
  | succ steps ih =>
    unfold weekLoop
    split
    · exact ⟨_, rfl⟩
    · next hto =>
      have hle : week.days + 7 * rule.interval ≤ NaiveDate.maxDay := by
        have hbegun : week.days + (0 : Nat) * (7 * rule.interval) ≤ «to».days := by
          rw [Nat.cast_zero, zero_mul, add_zero]
          exact NaiveDate.not_lt.1 hto
        simpa using h 0 (Nat.succ_pos _) hbegun
      have hin : NaiveDate.minDay ≤ week.days + 7 * rule.interval ∧
          week.days + 7 * rule.interval ≤ NaiveDate.maxDay := ⟨by
        have := week.inRange.1
        omega, hle⟩
      have hnext : week.addDays (7 * rule.interval) = some ⟨_, hin⟩ := NaiveDate.addDays_eq_some.2 rfl
      obtain ⟨r, hr⟩ : ∃ r, weekDays rule start «from» «to» week days seen out = some r :=
        weekDays_of_next hpos hle
      rw [hr, hnext]
      rcases r with r | ⟨seen', out'⟩
      · exact ⟨_, rfl⟩
      · refine ih fun k hk hkto => ?_
        have hthis := h (k + 1) (Nat.succ_lt_succ hk)
        push_cast at hthis
        have h₁ : (week.days + 7 * rule.interval : Int) + k * (7 * rule.interval) =
            week.days + (k + 1) * (7 * rule.interval) := by ring
        have h₂ : (week.days + 7 * rule.interval : Int) + (k + 1) * (7 * rule.interval) =
            week.days + (k + 1 + 1) * (7 * rule.interval) := by ring
        show week.days + 7 * rule.interval + (k + 1) * (7 * rule.interval) ≤ NaiveDate.maxDay
        rw [h₂]
        refine hthis ?_
        rw [← h₁]
        exact hkto

/-- A walk that no end of the rule stops leaves chrono's dates with the week behind them. -/
theorem weekLoop_none {steps seen k : Nat} {out : List NaiveDate}
    (hpass : rule.scan seen (weekWalk rule.interval days start steps week) =
      weekWalk rule.interval days start steps week)
    (hk : k < steps) (hkto : week.days + k * (7 * rule.interval) ≤ «to».days)
    (hout : NaiveDate.maxDay < week.days + (k + 1) * (7 * rule.interval)) :
    weekLoop rule days start «from» «to» steps week seen out = none := by
  induction steps generalizing week seen out k with
  | zero => exact absurd hk (Nat.not_lt_zero _)
  | succ steps ih =>
    have hnn : (0 : Int) ≤ k * (7 * rule.interval) := by positivity
    unfold weekLoop
    rw [if_neg (NaiveDate.not_lt.2 (by rw [NaiveDate.le_def]; omega))]
    cases hdays : weekDays rule start «from» «to» week days seen out with
    | none => rfl
    | some r =>
      unfold weekWalk at hpass
      rcases weekDays_spec hdays with ⟨hlen, -⟩ | ⟨hscan, rfl⟩
      · rw [scan_append_of_stop _ hlen] at hpass
        rw [hpass, List.length_append] at hlen
        omega
      · simp only
        cases hnext : week.addDays (7 * rule.interval) with
        | none => rfl
        | some next =>
          have hdn := NaiveDate.addDays_eq_some.1 hnext
          rw [hnext, scan_append_of_pass _ hscan] at hpass
          have hpass := List.append_cancel_left hpass
          cases k with
          | zero =>
            have := next.inRange.2
            simp only [Nat.cast_zero, zero_add, one_mul] at hout
            omega
          | succ k =>
            refine ih hpass (Nat.lt_of_succ_lt_succ hk) ?_ ?_
            · rw [hdn]
              push_cast at hkto
              linarith
            · rw [hdn]
              push_cast at hout
              linarith

theorem scan_eq_of_forall_mem {seen : Nat} {l : List NaiveDate} (hl : Ascending l)
    (h : ∀ x ∈ l, x ∈ rule.scan seen l) : rule.scan seen l = l := by
  obtain ⟨t, ht⟩ := scan_isPrefix rule seen l
  cases t with
  | nil => simpa using ht
  | cons y t =>
    have hy : y ∈ rule.scan seen l := h y (by rw [← ht]; simp)
    rw [← ht] at hl
    exact absurd ((List.pairwise_append.1 hl).2.2 y hy y List.mem_cons_self) (NaiveDate.lt_irrefl y)

section Weeks

variable (hweekly : rule.freq = .weekly ∧ rule.byDay ≠ []) (hpos : 0 < rule.interval)
include hweekly hpos

theorem steady_weekly : rule.Steady := by
  refine ⟨hpos, fun h => ?_⟩
  rw [hweekly.1] at h
  rcases h with h | h <;> cases h

/-- Where the week behind the last one is past chrono's dates, the walk comes to all of
the grid chrono has. -/
theorem mem_candidates_of_out (hweek : week.days = mondayOf start.days)
    (hlast : rule.lastWeek start «to» < maxSteps)
    (hout : NaiveDate.maxDay <
      mondayOf start.days + (rule.lastWeek start «to» + 1) * (7 * rule.interval))
    (hon : rule.OnGrid start.days x.days) : x ∈ rule.candidates start := by
  have hle : mondayOf x.days ≤ x.days := by
    unfold mondayOf
    omega
  have hmono := mondayOf_mono hon.1
  rw [onGrid_weekly hweekly] at hon
  obtain ⟨hstart, hdvd, hnames⟩ := hon
  obtain ⟨k, hk⟩ := exists_mul_of_dvd (c := 7 * rule.interval) (by omega) (by omega) hdvd
  refine (mem_candidates_weekly hweekly hweek).2 ⟨hstart, hnames, k, ?_, by omega⟩
  have hx := x.inRange.2
  have hlt : (k : Int) * (7 * rule.interval) <
      (rule.lastWeek start «to» + 1) * (7 * rule.interval) := by omega
  have := lt_of_mul_lt_mul_right hlt (by positivity)
  omega

theorem walk_isSome_iff :
    (∃ out, rule.walk start «from» «to» = some out) ↔ rule.WeeksFit start «to» := by
  have hs := steady_weekly hweekly hpos
  have hc : (0 : Int) < 7 * rule.interval := by omega
  have hdiv := Int.ediv_mul_le («to».days - mondayOf start.days) hc.ne'
  have hdiv' := Int.lt_ediv_add_one_mul_self («to».days - mondayOf start.days) hc
  have hnoyear : rule.freq ≠ .yearly := by
    rw [hweekly.1]
    decide
  have hgrid : ∀ d ∈ rule.candidates start, rule.OnGrid start.days d.days :=
    fun d hd => onGrid_of_mem_candidates hs hnoyear hd
  change rule.lastWeek start «to» * _ ≤ _ at hdiv
  change _ < (rule.lastWeek start «to» + 1) * _ at hdiv'
  unfold Rule.walk
  rw [if_pos hweekly]
  constructor
  · rintro ⟨out, h⟩
    cases hweek : start.addDays (-start.daysFromMonday) with
    | none =>
      rw [hweek] at h
      cases h
    | some week =>
      rw [hweek] at h
      simp only at h
      have hmonday := addDays_monday.1 hweek
      refine ⟨hmonday ▸ week.inRange.1, ?_⟩
      by_contra hnot
      rw [not_or, not_or, not_le, not_le] at hnot
      obtain ⟨hout, hlast, hends⟩ := hnot
      have hall : ∀ d : NaiveDate, rule.OnGrid start.days d.days → d ∈ rule.candidates start :=
        fun d hd => mem_candidates_of_out hweekly hpos hmonday hlast hout hd
      have hlast0 : 0 ≤ rule.lastWeek start «to» := by
        by_contra hneg
        have : (rule.lastWeek start «to» + 1) * (7 * rule.interval : Int) ≤ 0 :=
          mul_nonpos_of_nonpos_of_nonneg (by omega) hc.le
        have := week.inRange.2
        omega
      have hpass : rule.scan 0 (rule.candidates start) = rule.candidates start := by
        refine scan_eq_of_forall_mem (ascending_candidates hs start) fun d hd => ?_
        rw [mem_scan_iff_member (ascending_candidates hs start) hgrid fun e he _ => hall e he]
        by_contra hmem
        exact hends ⟨d, hgrid d hd, hmem⟩
      rw [candidates_weekly hweekly hmonday] at hpass
      have hnone : weekLoop rule rule.weekOrder start «from» «to» maxSteps week 0 [] = none := by
        refine weekLoop_none (k := (rule.lastWeek start «to»).toNat) hpass (by omega) ?_ ?_
        · rw [Int.toNat_of_nonneg hlast0, hmonday]
          omega
        · rw [Int.toNat_of_nonneg hlast0, hmonday]
          exact hout
      rw [hnone] at h
      cases h
  · rintro ⟨hmin, hstops⟩
    have hin : NaiveDate.minDay ≤ mondayOf start.days ∧
        mondayOf start.days ≤ NaiveDate.maxDay := by
      refine ⟨hmin, le_trans ?_ start.inRange.2⟩
      unfold mondayOf
      omega
    have hweek : start.addDays (-start.daysFromMonday) = some ⟨_, hin⟩ := addDays_monday.2 rfl
    rw [hweek]
    by_cases hfit : mondayOf start.days + (rule.lastWeek start «to» + 1) * (7 * rule.interval) ≤
        NaiveDate.maxDay
    · refine weekLoop_of_fit hpos fun k _ hkto => le_trans ?_ hfit
      have hk : (k : Int) * (7 * rule.interval) <
          (rule.lastWeek start «to» + 1) * (7 * rule.interval) := by
        have : mondayOf start.days + (k : Int) * (7 * rule.interval) ≤ «to».days := hkto
        omega
      have hk' := lt_of_mul_lt_mul_right hk hc.le
      have := mul_le_mul_of_nonneg_right (show (k : Int) + 1 ≤ rule.lastWeek start «to» + 1 by omega)
        hc.le
      show mondayOf start.days + _ ≤ _
      omega
    by_cases hlast : maxSteps ≤ rule.lastWeek start «to»
    · refine weekLoop_of_fit hpos fun k hk _ => ?_
      have := mul_le_mul_of_nonneg_right
        (show (k : Int) + 1 ≤ rule.lastWeek start «to» by omega) hc.le
      have hto := «to».inRange.2
      show mondayOf start.days + _ ≤ _
      omega
    obtain ⟨d, hon, hmem⟩ := (hstops.resolve_left hfit).resolve_left hlast
    have hall : ∀ e : NaiveDate, rule.OnGrid start.days e.days → e ∈ rule.candidates start :=
      fun e he => @mem_candidates_of_out _ _ _ _ ⟨_, hin⟩ hweekly hpos rfl (not_le.1 hlast)
        (not_le.1 hfit) he
    refine weekLoop_of_stop hpos (pairwise_weekOrder rule) ?_
    rw [← @candidates_weekly _ _ ⟨_, hin⟩ hweekly rfl]
    refine lt_of_le_of_ne (scan_isPrefix rule 0 _).length_le fun hlen => hmem ?_
    rw [← mem_scan_iff_member (ascending_candidates hs start) hgrid fun e he _ => hall e he,
      (scan_isPrefix rule 0 _).eq_of_length hlen]
    exact hall d hon

end Weeks

/-! ### The searches for a month and a year -/

theorem monthFromChecked_isSome {day interval tries : Nat} {months : Int}
    (hlow : -2 ^ 31 * 12 ≤ months) (h : months + tries * interval < 12 * 2 ^ 31 + interval) :
    ∃ r, monthFromChecked day interval tries months = some r := by
  induction tries generalizing months with
  | zero => exact ⟨none, rfl⟩
  | succ tries ih =>
    have hnn : (0 : Int) ≤ tries * interval := by positivity
    have hstep : ((tries + 1 : Nat) : Int) * interval = tries * interval + interval := by
      push_cast
      ring
    rw [hstep] at h
    unfold monthFromChecked
    rw [checkedI32_eq_some.2 ⟨rfl, by omega, by omega⟩, Option.bind_some]
    split
    · exact ⟨_, rfl⟩
    · exact ih (by omega) (by omega)

/-- Past chrono's months every try fails, up to the one that wraps. -/
theorem monthFromChecked_none {day interval tries : Nat} {months : Int}
    (hpast : 262143 * 12 ≤ months) (hbelow : months < 12 * 2 ^ 31 + interval)
    (h : 12 * 2 ^ 31 + interval ≤ months + tries * interval) :
    monthFromChecked day interval tries months = none := by
  induction tries generalizing months with
  | zero =>
    simp only [Nat.cast_zero, zero_mul] at h
    omega
  | succ tries ih =>
    have hstep : ((tries + 1 : Nat) : Int) * interval = tries * interval + interval := by
      push_cast
      ring
    rw [hstep] at h
    unfold monthFromChecked
    by_cases hwrap : 12 * 2 ^ 31 ≤ months
    · rw [checkedI32_eq_none.2 (by omega), Option.bind_none]
    · rw [checkedI32_eq_some.2 ⟨rfl, by omega, by omega⟩, Option.bind_some]
      cases hd : NaiveDate.fromYmdOpt (months / 12) (months % 12).toNat.succ day with
      | some d =>
        have hy := d.year_bounds.2
        rw [(NaiveDate.ymd_of_fromYmdOpt hd).1] at hy
        omega
      | none => exact ih (by omega) (by omega) (by omega)

theorem yearFromChecked_isSome {month day tries : Nat} {interval year : Int} (hi : 0 ≤ interval)
    (hlow : -2 ^ 31 ≤ year) (h : year + tries * interval < 2 ^ 31) :
    ∃ r, yearFromChecked month day interval tries year = some r := by
  induction tries generalizing year with
  | zero => exact ⟨none, rfl⟩
  | succ tries ih =>
    have hnn : (0 : Int) ≤ tries * interval := by positivity
    have hstep : ((tries + 1 : Nat) : Int) * interval = tries * interval + interval := by
      push_cast
      ring
    rw [hstep] at h
    unfold yearFromChecked
    split
    · exact ⟨_, rfl⟩
    · rw [checkedI32_eq_some.2 ⟨rfl, by omega, by omega⟩, Option.bind_some]
      exact ih (by omega) (by omega)

theorem yearFromChecked_none {month day tries : Nat} {interval year : Int} (hi : 0 ≤ interval)
    (hpast : 262142 < year) (hbelow : year < 2 ^ 31) (h : 2 ^ 31 ≤ year + tries * interval) :
    yearFromChecked month day interval tries year = none := by
  induction tries generalizing year with
  | zero =>
    simp only [Nat.cast_zero, zero_mul] at h
    omega
  | succ tries ih =>
    have hstep : ((tries + 1 : Nat) : Int) * interval = tries * interval + interval := by
      push_cast
      ring
    rw [hstep] at h
    unfold yearFromChecked
    cases hd : NaiveDate.fromYmdOpt year month day with
    | some d =>
      have hy := d.year_bounds.2
      rw [(NaiveDate.ymd_of_fromYmdOpt hd).1] at hy
      omega
    | none =>
      simp only
      by_cases hwrap : 2 ^ 31 ≤ year + interval
      · rw [checkedI32_eq_none.2 (by omega), Option.bind_none]
      · rw [checkedI32_eq_some.2 ⟨rfl, by omega, by omega⟩, Option.bind_some]
        exact ih (by omega) (by omega) (by omega)

/-! ### The steps from date to date -/

/-- No number of a step from the date wraps. -/
def StepFits (freq : Freq) (interval : Nat) (date : NaiveDate) : Prop :=
  match freq with
  | .daily | .weekly => True
  | .monthly => monthIndex date.days + 48 * interval < 12 * 2 ^ 31
  | .yearly => date.year + 9 * interval < 2 ^ 31

variable {freq : Freq} {interval : Nat}

theorem advanceChecked_isSome (h : StepFits freq interval date) :
    ∃ r, advanceChecked date freq interval start = some r := by
  unfold advanceChecked
  unfold StepFits at h
  cases freq with
  | daily => exact ⟨_, rfl⟩
  | weekly => exact ⟨_, rfl⟩
  | monthly =>
    simp only at h ⊢
    rw [← date.monthIndex_eq]
    have := (monthIndex_bounds date).1
    exact monthFromChecked_isSome (by omega) (by push_cast; omega)
  | yearly =>
    simp only at h ⊢
    have := date.year_bounds
    rw [checkedI32_eq_some.2 ⟨rfl, by omega, by omega⟩, Option.bind_some,
      checkedI32_eq_some.2 ⟨rfl, by omega, by omega⟩, Option.bind_some]
    exact yearFromChecked_isSome (by omega) (by omega) (by push_cast; omega)

theorem advanceChecked_none (h : ¬ StepFits freq interval date) :
    advanceChecked date freq interval start = none := by
  unfold advanceChecked
  unfold StepFits at h
  cases freq with
  | daily => exact absurd trivial h
  | weekly => exact absurd trivial h
  | monthly =>
    simp only at h ⊢
    rw [← date.monthIndex_eq]
    have := monthIndex_bounds date
    exact monthFromChecked_none (by omega) (by omega) (by push_cast; omega)
  | yearly =>
    simp only at h ⊢
    have := date.year_bounds
    by_cases hi : 2 ^ 31 ≤ (interval : Int)
    · rw [checkedI32_eq_none.2 (Or.inr hi), Option.bind_none]
    rw [checkedI32_eq_some.2 ⟨rfl, by omega, by omega⟩, Option.bind_some]
    by_cases hy : 2 ^ 31 ≤ date.year + interval
    · rw [checkedI32_eq_none.2 (Or.inr hy), Option.bind_none]
    rw [checkedI32_eq_some.2 ⟨rfl, by omega, by omega⟩, Option.bind_some]
    exact yearFromChecked_none (by omega) (by omega) (by omega) (by push_cast; omega)

/-- Steps as long as chrono's range end the walk. -/
theorem advanceChecked_of_long (h : StepFits freq interval date)
    (hfreq : freq = .monthly ∨ freq = .yearly) (hlong : 2 ^ 24 ≤ interval) :
    advanceChecked date freq interval start = some none := by
  obtain ⟨r, hr⟩ : ∃ r, advanceChecked date freq interval start = some r := advanceChecked_isSome h
  rw [hr]
  cases r with
  | none => rfl
  | some next =>
    have hm := monthIndex_bounds date
    have hm' := monthIndex_bounds next
    have hy := date.year_bounds
    have hy' := next.year_bounds
    unfold advanceChecked at hr
    rcases hfreq with rfl | rfl
    · have := monthFromChecked_le hr
      rw [← date.monthIndex_eq] at this
      omega
    · simp only at hr
      obtain ⟨i, hi, hr⟩ := Option.bind_eq_some_iff.1 hr
      obtain ⟨rfl, -⟩ := checkedI32_eq_some.1 hi
      obtain ⟨y, hy, hr⟩ := Option.bind_eq_some_iff.1 hr
      obtain ⟨rfl, -⟩ := checkedI32_eq_some.1 hy
      have := yearFromChecked_le (by positivity) hr
      omega

theorem stepFits_of_short (hshort : interval < 2 ^ 27) (d : NaiveDate) :
    StepFits freq interval d := by
  have hm := monthIndex_bounds d
  have hy := d.year_bounds
  unfold StepFits
  cases freq with
  | daily => trivial
  | weekly => trivial
  | monthly =>
    simp only
    omega
  | yearly =>
    simp only
    omega

theorem dateLoopChecked_isSome
    (h : ∀ d, ∃ r, advanceChecked d rule.freq rule.interval start = some r)
    {steps seen : Nat} {out : List NaiveDate} :
    ∃ res, dateLoopChecked rule start «from» «to» steps date seen out = some res := by
  induction steps generalizing date seen out with
  | zero => exact ⟨_, rfl⟩
  | succ steps ih =>
    unfold dateLoopChecked
    split
    · exact ⟨_, rfl⟩
    · split
      · exact ⟨_, rfl⟩
      · obtain ⟨r, hr⟩ := h date
        simp only [hr]
        cases r with
        | none => exact ⟨_, rfl⟩
        | some next => exact ih

/-- The walk takes its first step. -/
def Rule.Starts (rule : Rule) (start «to» : NaiveDate) : Prop :=
  start ≤ «to» ∧ ∀ u, rule.until = some u → start ≤ u

theorem dateLoopChecked_isSome_iff (hcount : rule.count ≠ some 0) {steps : Nat} :
    (∃ res, dateLoopChecked rule start «from» «to» (steps + 1) start 0 [] = some res) ↔
      (rule.Starts start «to» → StepFits rule.freq rule.interval start) := by
  have hended : rule.ended 0 start = true ↔ ¬ ∀ u, rule.until = some u → start ≤ u := by
    rw [ended_iff]
    constructor
    · rintro (⟨u, hu, hlt⟩ | ⟨c, hc, hlt⟩)
      · exact fun h => NaiveDate.not_lt.2 (h u hu) hlt
      · rw [Nat.lt_one_iff.1 hlt] at hc
        exact absurd hc hcount
    · intro h
      rw [not_forall] at h
      obtain ⟨u, hu⟩ := h
      rw [Classical.not_imp, ← NaiveDate.not_lt, not_not] at hu
      exact Or.inl ⟨u, hu⟩
  constructor
  · rintro ⟨res, h⟩ ⟨hto, huntil⟩
    by_contra hfit
    rw [dateLoopChecked, if_neg (NaiveDate.not_lt.2 hto),
      if_neg (by rw [hended, not_not]; exact huntil)] at h
    simp only [advanceChecked_none hfit] at h
    cases h
  · intro h
    by_cases hshort : rule.interval < 2 ^ 27
    · exact dateLoopChecked_isSome fun d => advanceChecked_isSome (stepFits_of_short hshort d)
    by_cases hfreq : rule.freq = .monthly ∨ rule.freq = .yearly
    · unfold dateLoopChecked
      split
      · exact ⟨_, rfl⟩
      · next hto =>
        split
        · exact ⟨_, rfl⟩
        · next hend =>
          rw [hended, not_not] at hend
          have hlong := @advanceChecked_of_long start _ _ _
            (h ⟨NaiveDate.not_lt.1 hto, hend⟩) hfreq (by omega)
          simp only [hlong]
          exact ⟨_, rfl⟩
    · refine dateLoopChecked_isSome fun d => advanceChecked_isSome ?_
      unfold StepFits
      cases hf : rule.freq with
      | daily => trivial
      | weekly => trivial
      | monthly => exact absurd (Or.inl hf) hfreq
      | yearly => exact absurd (Or.inr hf) hfreq

/-! ### When the walk stays within its numbers -/

/-- The walk leaves neither chrono's dates nor an `i32`. -/
def Rule.Fits (rule : Rule) (start «to» : NaiveDate) : Prop :=
  if rule.weekly then rule.WeeksFit start «to»
  else rule.Starts start «to» → StepFits rule.freq rule.interval start

theorem walkChecked_isSome_iff (hpos : 0 < rule.interval) (hcount : rule.count ≠ some 0) :
    (∃ out, rule.walkChecked start «from» «to» = some out) ↔ rule.Fits start «to» := by
  unfold Rule.walkChecked Rule.Fits
  split
  · next hw => exact walk_isSome_iff hw hpos
  · rw [← @dateLoopChecked_isSome_iff _ _ «from» _ hcount 19999]
    constructor
    · rintro ⟨out, h⟩
      obtain ⟨res, hres, -⟩ := Option.map_eq_some_iff.1 h
      exact ⟨res, hres⟩
    · rintro ⟨res, hres⟩
      exact ⟨sortDates res, Option.map_eq_some_iff.2 ⟨res, hres, rfl⟩⟩

theorem positive_ne_zero {o : Option Nat} {n : Nat} (h : positive o = some n) : 0 < n := by
  unfold positive at h
  simpa using (Option.filter_eq_some_iff.1 h).2

theorem parsePart_pos {r r' : RuleParts} {part : List Char} (h : parsePart r part = some r')
    (hr : 0 < r.interval ∧ r.count ≠ some 0) : 0 < r'.interval ∧ r'.count ≠ some 0 := by
  unfold parsePart at h
  split at h
  · cases h
  · simp only at h
    split_ifs at h
    · obtain ⟨f, -, rfl⟩ := Option.map_eq_some_iff.1 h
      exact hr
    · obtain ⟨n, hn, rfl⟩ := Option.map_eq_some_iff.1 h
      exact ⟨positive_ne_zero hn, hr.2⟩
    · obtain ⟨n, hn, rfl⟩ := Option.map_eq_some_iff.1 h
      refine ⟨hr.1, fun h0 => ?_⟩
      exact absurd (Option.some.inj h0) (Nat.ne_of_gt (positive_ne_zero hn))
    · obtain ⟨d, -, rfl⟩ := Option.map_eq_some_iff.1 h
      exact hr
    · obtain ⟨ds, -, rfl⟩ := Option.map_eq_some_iff.1 h
      exact hr
    · cases h
      exact hr

theorem foldlM_parsePart_pos {parts : List (List Char)} {r r' : RuleParts}
    (h : parts.foldlM parsePart r = some r') (hr : 0 < r.interval ∧ r.count ≠ some 0) :
    0 < r'.interval ∧ r'.count ≠ some 0 := by
  induction parts generalizing r with
  | nil =>
    cases h
    exact hr
  | cons part parts ih =>
    rw [List.foldlM_cons] at h
    obtain ⟨r₁, h₁, h⟩ := Option.bind_eq_some_iff.1 h
    exact ih h (parsePart_pos h₁ hr)

/-- The interval and the count of an accepted rule are positive. -/
theorem parseRule_pos {value : List Char} (h : parseRule value = some rule) :
    0 < rule.interval ∧ rule.count ≠ some 0 := by
  obtain ⟨r, hr, h⟩ := Option.bind_eq_some_iff.1 h
  have hpos := foldlM_parsePart_pos hr ⟨Nat.one_pos, by decide⟩
  unfold RuleParts.rule at h
  obtain ⟨f, -, rfl⟩ := Option.map_eq_some_iff.1 h
  exact hpos

theorem expandChecked_isSome_iff {value : List Char} :
    (∃ r, expandChecked value start «from» «to» = some r) ↔
      ∀ rule, parseRule value = some rule → «from» ≤ «to» → rule.Fits start «to» := by
  unfold expandChecked
  cases hrule : parseRule value with
  | none =>
    refine ⟨fun _ rule h => ?_, fun _ => ⟨none, rfl⟩⟩
    cases h
  | some rule =>
    obtain ⟨hpos, hcount⟩ := parseRule_pos hrule
    simp only
    split
    · next hlt =>
      refine ⟨fun _ rule _ hle => ?_, fun _ => ⟨some [], rfl⟩⟩
      exact absurd hlt (NaiveDate.not_lt.2 hle)
    · next hlt =>
      have hfits := @walkChecked_isSome_iff _ start «from» «to» hpos hcount
      constructor
      · rintro ⟨r, h⟩ rule' hrule' -
        cases hrule'
        obtain ⟨out, hout, -⟩ := Option.map_eq_some_iff.1 h
        exact hfits.1 ⟨out, hout⟩
      · intro h
        obtain ⟨out, hout⟩ := hfits.2 (h rule rfl (NaiveDate.not_lt.1 hlt))
        exact ⟨some out, Option.map_eq_some_iff.2 ⟨out, hout, rfl⟩⟩

/-- The dates of a checked expansion are where they have to lie. -/
theorem bounds_expandChecked {value : List Char} {out : List NaiveDate}
    (hrule : parseRule value = some rule)
    (h : expandChecked value start «from» «to» = some (some out)) :
    ∀ d ∈ out, rule.Bounds start «from» «to» d := by
  unfold expandChecked at h
  rw [hrule] at h
  simp only at h
  split at h
  · cases h
    exact List.forall_mem_nil _
  · obtain ⟨res, hres, h⟩ := Option.map_eq_some_iff.1 h
    cases h
    exact bounds_walkChecked (parseRule_pos hrule).1 hres

/-- **Expanding stays within chrono's dates and the `i32`s**, and gives dates between the
start and `UNTIL` within the window, exactly if the walk of the rule fits. -/
theorem expand_in_range_iff (value : List Char) (start «from» «to» : NaiveDate) :
    (∃ r, expandChecked value start «from» «to» = some r ∧
        expand value start «from» «to» = some r ∧
        ∀ rule out, parseRule value = some rule → r = some out →
          ∀ d ∈ out, rule.Bounds start «from» «to» d) ↔
      ∀ rule, parseRule value = some rule → «from» ≤ «to» → rule.Fits start «to» := by
  rw [← expandChecked_isSome_iff]
  constructor
  · rintro ⟨r, h, -⟩
    exact ⟨r, h⟩
  · rintro ⟨r, h⟩
    refine ⟨r, h, expand_of_checked h, fun rule out hrule hout => ?_⟩
    rw [hout] at h
    exact bounds_expandChecked hrule h

theorem yearBefore_inRange : NaiveDate.minDay ≤ 718797 ∧ (718797 : Int) ≤ NaiveDate.maxDay := by
  decide

/-- The first of January 1969. -/
def yearBefore : NaiveDate := ⟨718797, yearBefore_inRange⟩

def backwards : Rule :=
  { freq := .yearly, interval := 4294967295, byDay := [], count := some 2, «until» := none }

def backwardsText : List Char := "FREQ=YEARLY;INTERVAL=4294967295;COUNT=2".toList

theorem parseRule_backwards : parseRule backwardsText = some backwards := by
  decide

/-- The greatest interval is minus one as an `i32`: the rule goes back a year, to a date
before its start. -/
theorem yearly_goes_back :
    expandChecked backwardsText .epoch yearBefore .epoch = none ∧
      ∃ out, expand backwardsText .epoch yearBefore .epoch = some (some out) ∧
        yearBefore ∈ out ∧ yearBefore < NaiveDate.epoch := by
  have hnot : ¬ NaiveDate.epoch < yearBefore := by decide
  constructor
  · unfold expandChecked
    rw [parseRule_backwards]
    simp only [if_neg hnot]
    decide
  · have hloop : dateLoop backwards .epoch yearBefore .epoch maxSteps .epoch 0 [] =
        [.epoch, yearBefore] := by
      decide
    refine ⟨sortDates [.epoch, yearBefore], ?_, mem_sortDates.2 (by decide), by decide⟩
    unfold expand
    rw [parseRule_backwards]
    simp only [if_neg hnot]
    unfold Rule.walk
    rw [if_neg (by decide), hloop]
    rfl

end Arlen.Calendar
