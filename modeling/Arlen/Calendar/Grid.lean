import Mathlib.Data.Int.ConditionallyCompleteOrder
import Mathlib.Data.Int.Interval
import Mathlib.Data.Finset.Card
import Arlen.Calendar.Series

/-!
# The days of a rule in closed form

`Rule.OnGrid` says which days the periods of a rule counted from its start fall on, and
`Rule.Member` cuts them after `UNTIL` and `COUNT`. The walks come to the days of the grid
in order, one period at a time, so the series is that of the members as long as the walk's
steps last.
-/

namespace Arlen.Calendar

open Arlen.Lib

/-- The rule names the weekday of a day. -/
def Rule.Names (rule : Rule) (n : Int) : Prop :=
  ∃ w ∈ rule.byDay, (w.numDaysFromMonday : Int) = n % 7

instance (rule : Rule) (n : Int) : Decidable (rule.Names n) := by
  unfold Rule.Names
  infer_instance

/-- The months before a day's own, from the first of the year 0. -/
def monthIndex (n : Int) : Int := Civil.yearOf n * 12 + ((Civil.monthOf n : Int) - 1)

/-- The Monday of a day's week. -/
def mondayOf (n : Int) : Int := n - n % 7

/-- The periods of the rule, counted from the start, have the day. -/
def Rule.OnGrid (rule : Rule) (start n : Int) : Prop :=
  start ≤ n ∧
    match rule.freq with
    | .daily => (rule.interval : Int) ∣ n - start
    | .weekly =>
      if rule.byDay = [] then (7 * rule.interval : Int) ∣ n - start
      else (7 * rule.interval : Int) ∣ mondayOf n - mondayOf start ∧ rule.Names n
    | .monthly =>
      Civil.dayOf n = Civil.dayOf start ∧ (rule.interval : Int) ∣ monthIndex n - monthIndex start
    | .yearly =>
      (Civil.monthOf n = Civil.monthOf start ∧ Civil.dayOf n = Civil.dayOf start) ∧
        (rule.interval : Int) ∣ Civil.yearOf n - Civil.yearOf start

instance (rule : Rule) (start n : Int) : Decidable (rule.OnGrid start n) := by
  unfold Rule.OnGrid
  cases rule.freq <;> dsimp only <;> infer_instance

/-- How many days of the grid come before one. -/
noncomputable def Rule.earlier (rule : Rule) (start n : Int) : Nat :=
  ((Finset.Ico start n).filter (rule.OnGrid start)).card

/-- A day of the grid up to the rule's end. -/
structure Rule.Member (rule : Rule) (start n : Int) : Prop where
  onGrid : rule.OnGrid start n
  byUntil : ∀ u, rule.until = some u → n ≤ u.days
  byCount : ∀ c, rule.count = some c → rule.earlier start n < c

variable {rule : Rule} {start date next x «to» : NaiveDate}

/-! ### What is kept of an ascending list -/

theorem ended_iff {seen : Nat} :
    rule.ended seen x = true ↔
      (∃ u, rule.until = some u ∧ u < x) ∨ ∃ c, rule.count = some c ∧ c < seen + 1 := by
  unfold Rule.ended
  rw [Bool.or_eq_true, Option.any_eq_true, Option.any_eq_true]
  simp only [decide_eq_true_eq]

/-- The rule's end stays passed on later dates. -/
theorem ended_mono {seen seen' : Nat} {y : NaiveDate} (hx : x ≤ y) (hs : seen ≤ seen')
    (h : rule.ended seen x = true) : rule.ended seen' y = true := by
  rw [ended_iff] at h ⊢
  rcases h with ⟨u, hu, hlt⟩ | ⟨c, hc, hlt⟩
  · exact Or.inl ⟨u, hu, NaiveDate.lt_of_lt_of_le hlt hx⟩
  · exact Or.inr ⟨c, hc, by omega⟩

/-- A date is kept if the rule has not ended with the dates before it. -/
theorem mem_scan {seen : Nat} {l : List NaiveDate} (hl : Ascending l) :
    x ∈ rule.scan seen l ↔
      x ∈ l ∧ rule.ended (seen + (l.filter (· < x)).length) x = false := by
  induction l generalizing seen with
  | nil => simp
  | cons y l ih =>
    obtain ⟨hy, hl⟩ := List.pairwise_cons.1 hl
    rw [scan_cons]
    by_cases hend : rule.ended seen y = true
    · rw [if_pos hend]
      constructor
      · intro h
        cases h
      rintro ⟨hx, hnot⟩
      have hle : y ≤ x := by
        rcases List.mem_cons.1 hx with rfl | hx
        · exact NaiveDate.le_refl x
        · exact NaiveDate.le_of_lt (hy x hx)
      rw [ended_mono hle (Nat.le_add_right _ _) hend] at hnot
      cases hnot
    · rw [if_neg hend, List.mem_cons, List.mem_cons, ih hl]
      by_cases hxy : x = y
      · subst hxy
        have hnone : (x :: l).filter (· < x) = [] := by
          rw [List.filter_eq_nil_iff]
          intro z hz
          rcases List.mem_cons.1 hz with rfl | hz
          · simpa using NaiveDate.lt_irrefl z
          · simpa using NaiveDate.not_lt.2 (NaiveDate.le_of_lt (hy z hz))
        rw [hnone]
        simpa using hend
      · have hlen : x ∈ l → ((y :: l).filter (· < x)).length = (l.filter (· < x)).length + 1 := by
          intro hx
          rw [List.filter_cons_of_pos (by simpa using hy x hx), List.length_cons]
        constructor
        · rintro (h | ⟨hx, hnot⟩)
          · exact absurd h hxy
          · refine ⟨Or.inr hx, ?_⟩
            rw [hlen hx, Nat.add_comm _ 1, ← Nat.add_assoc]
            exact hnot
        · rintro ⟨h | hx, hnot⟩
          · exact absurd h hxy
          · rw [hlen hx, Nat.add_comm _ 1, ← Nat.add_assoc] at hnot
            exact Or.inr ⟨hx, hnot⟩

/-- The days before one, counted in a list that has the whole grid up to it. -/
theorem length_filter_eq_earlier {l : List NaiveDate} (hl : Ascending l)
    (hgrid : ∀ d ∈ l, rule.OnGrid start.days d.days)
    (hall : ∀ d : NaiveDate, rule.OnGrid start.days d.days → d < x → d ∈ l) :
    (l.filter (· < x)).length = rule.earlier start.days x.days := by
  have hnodup : ((l.filter (· < x)).map NaiveDate.days).Nodup := by
    refine List.Pairwise.map _ (fun a b hab => ?_) (hl.filter _)
    exact Int.ne_of_lt (NaiveDate.lt_def.1 hab)
  rw [← List.length_map (f := NaiveDate.days), ← List.toFinset_card_of_nodup hnodup]
  unfold Rule.earlier
  congr 1
  ext n
  rw [List.mem_toFinset, List.mem_map, Finset.mem_filter, Finset.mem_Ico]
  constructor
  · rintro ⟨d, hd, rfl⟩
    obtain ⟨hd, hlt⟩ := List.mem_filter.1 hd
    have hon := hgrid d hd
    have hlt : d < x := by simpa using hlt
    exact ⟨⟨hon.1, hlt⟩, hon⟩
  · rintro ⟨⟨hle, hlt⟩, hon⟩
    have hin : NaiveDate.minDay ≤ n ∧ n ≤ NaiveDate.maxDay :=
      ⟨le_trans start.inRange.1 hle, le_trans (le_of_lt hlt) x.inRange.2⟩
    have hbefore : (⟨n, hin⟩ : NaiveDate) < x := hlt
    exact ⟨⟨n, hin⟩, List.mem_filter.2 ⟨hall _ hon hbefore, decide_eq_true hbefore⟩, rfl⟩

/-- Kept are the members, where the list has the whole grid. -/
theorem mem_scan_iff_member {l : List NaiveDate} (hl : Ascending l)
    (hgrid : ∀ d ∈ l, rule.OnGrid start.days d.days)
    (hall : ∀ d : NaiveDate, rule.OnGrid start.days d.days → d ≤ x → d ∈ l) :
    x ∈ rule.scan 0 l ↔ rule.Member start.days x.days := by
  have hlen := length_filter_eq_earlier hl hgrid
    fun d hd hlt => hall d hd (NaiveDate.le_of_lt hlt)
  rw [mem_scan hl, hlen, ← Bool.not_eq_true, ended_iff, Nat.zero_add, not_or]
  constructor
  · rintro ⟨hx, huntil, hcount⟩
    refine ⟨hgrid x hx, fun u hu => ?_, fun c hc => ?_⟩
    · by_contra hlt
      exact huntil ⟨u, hu, by rw [NaiveDate.lt_def]; omega⟩
    · by_contra hlt
      exact hcount ⟨c, hc, by omega⟩
  · rintro ⟨hon, huntil, hcount⟩
    refine ⟨hall x hon (NaiveDate.le_refl x), ?_, ?_⟩
    · rintro ⟨u, hu, hlt⟩
      have := huntil u hu
      rw [NaiveDate.lt_def] at hlt
      omega
    · rintro ⟨c, hc, hlt⟩
      have := hcount c hc
      omega

/-! ### Walks by a fixed number of days -/

/-- The walk by `c` days comes to the start and every `c`-th day behind it. -/
theorem mem_dateWalk_of_addDays {freq : Freq} {interval : Nat} {c : Int} (hc : 0 ≤ c)
    (hadv : ∀ d, advance d freq interval start = d.addDays c) {steps : Nat} :
    x ∈ dateWalk freq interval start steps date ↔
      ∃ k : Nat, k < steps ∧ x.days = date.days + k * c := by
  induction steps generalizing date with
  | zero => simp [dateWalk]
  | succ steps ih =>
    unfold dateWalk
    rw [List.mem_cons, hadv]
    constructor
    · rintro (rfl | h)
      · exact ⟨0, Nat.succ_pos _, by simp⟩
      · split at h
        · next next hnext =>
          obtain ⟨k, hk, hx⟩ := ih.1 h
          rw [NaiveDate.addDays_eq_some.1 hnext] at hx
          refine ⟨k + 1, Nat.succ_lt_succ hk, ?_⟩
          rw [hx]
          push_cast
          ring
        · cases h
    · rintro ⟨k, hk, hx⟩
      cases k with
      | zero =>
        left
        exact NaiveDate.ext (by simpa using hx)
      | succ k =>
        right
        have hmul : ((k + 1 : Nat) : Int) * c = k * c + c := by
          push_cast
          ring
        have hnn : (0 : Int) ≤ k * c := by positivity
        have hin : NaiveDate.minDay ≤ date.days + c ∧ date.days + c ≤ NaiveDate.maxDay := by
          have h₁ := date.inRange.1
          have h₂ := x.inRange.2
          omega
        have hnext : date.addDays c = some ⟨_, hin⟩ := NaiveDate.addDays_eq_some.2 rfl
        rw [hnext]
        refine ih.2 ⟨k, Nat.lt_of_succ_lt_succ hk, ?_⟩
        show x.days = date.days + c + k * c
        omega

/-! ### The weekly walk -/

theorem mem_weekOrder {w : Weekday} : w ∈ rule.weekOrder ↔ w ∈ rule.byDay := by
  unfold Rule.weekOrder
  have hsort : (rule.byDay.mergeSort fun a b =>
      decide (a.numDaysFromMonday ≤ b.numDaysFromMonday)).Pairwise fun a b =>
        a.numDaysFromMonday ≤ b.numDaysFromMonday := by
    refine (List.pairwise_mergeSort ?_ ?_ rule.byDay).imp fun h => by simpa using h
    · intro a b c
      simp only [decide_eq_true_eq]
      omega
    · intro a b
      simp only [Bool.or_eq_true, decide_eq_true_eq]
      omega
  have : Std.Antisymm fun a b : Weekday => a.numDaysFromMonday ≤ b.numDaysFromMonday :=
    ⟨fun a b hab hba => Weekday.num_inj (Nat.le_antisymm hab hba)⟩
  rw [hsort.destutter_eq_dedup, List.mem_dedup, List.mem_mergeSort]

theorem mem_weekDates_iff {days : List Weekday} {week : NaiveDate} :
    x ∈ weekDates days start week ↔
      start ≤ x ∧ ∃ w ∈ days, x.days = week.days + w.numDaysFromMonday := by
  unfold weekDates
  rw [List.mem_filter, List.mem_filterMap, and_comm, decide_eq_true_iff]
  simp only [NaiveDate.addDays_eq_some]

/-- The weekly walk comes to the named days of every week it begins. -/
theorem mem_weekWalk {interval : Nat} {days : List Weekday} {week : NaiveDate} {steps : Nat} :
    x ∈ weekWalk interval days start steps week ↔
      start ≤ x ∧ ∃ k : Nat, k < steps ∧
        ∃ w ∈ days, x.days = week.days + k * (7 * interval) + w.numDaysFromMonday := by
  induction steps generalizing week with
  | zero => simp [weekWalk]
  | succ steps ih =>
    unfold weekWalk
    rw [List.mem_append, mem_weekDates_iff]
    constructor
    · rintro (⟨hle, w, hw, hx⟩ | h)
      · exact ⟨hle, 0, Nat.succ_pos _, w, hw, by simpa using hx⟩
      · split at h
        · next next hnext =>
          obtain ⟨hle, k, hk, w, hw, hx⟩ := ih.1 h
          rw [NaiveDate.addDays_eq_some.1 hnext] at hx
          refine ⟨hle, k + 1, Nat.succ_lt_succ hk, w, hw, ?_⟩
          rw [hx]
          push_cast
          ring
        · cases h
    · rintro ⟨hle, k, hk, w, hw, hx⟩
      cases k with
      | zero =>
        left
        exact ⟨hle, w, hw, by simpa using hx⟩
      | succ k =>
        right
        have hmul : ((k + 1 : Nat) : Int) * (7 * interval) =
            k * (7 * interval) + 7 * interval := by
          push_cast
          ring
        have hnn : (0 : Int) ≤ k * (7 * interval) := by positivity
        have hin : NaiveDate.minDay ≤ week.days + 7 * interval ∧
            week.days + 7 * interval ≤ NaiveDate.maxDay := by
          have h₁ := week.inRange.1
          have h₂ := x.inRange.2
          omega
        have hnext : week.addDays (7 * interval) = some ⟨_, hin⟩ := NaiveDate.addDays_eq_some.2 rfl
        rw [hnext]
        refine ih.2 ⟨hle, k, Nat.lt_of_succ_lt_succ hk, w, hw, ?_⟩
        show x.days = week.days + 7 * interval + k * (7 * interval) + w.numDaysFromMonday
        omega

/-! ### The search for a month that has the day -/

theorem le_monthLength (y : Int) {m : Nat} (hm : 1 ≤ m) :
    28 ≤ Civil.monthLength y m ∧ (m ≠ 2 → m ≤ 12 → 30 ≤ Civil.monthLength y m) := by
  have hl := Civil.leapDay_cases y
  unfold Civil.monthLength Civil.monthStart
  constructor
  · split_ifs <;> omega
  · intro h2 h12
    split_ifs <;> omega

theorem monthLength_eq (y y' : Int) {m : Nat} (hm : 1 ≤ m) (h2 : m ≠ 2) :
    Civil.monthLength y m = Civil.monthLength y' m := by
  unfold Civil.monthLength Civil.monthStart
  split_ifs <;> omega

theorem monthLength_february (y : Int) : Civil.monthLength y 2 = 28 + Civil.leapDay y := by
  unfold Civil.monthLength Civil.monthStart
  norm_num
  ring

/-- The year and month of an index, counted from the first month of the year 0. -/
def ValidAt (months : Int) (day : Nat) : Prop :=
  Civil.Valid (months / 12) (months % 12).toNat.succ day

instance (months : Int) (day : Nat) : Decidable (ValidAt months day) := by
  unfold ValidAt
  infer_instance

theorem validAt_iff {y : Int} {m day : Nat} (hm : 1 ≤ m ∧ m ≤ 12) {months : Int}
    (h : months = y * 12 + ((m : Int) - 1)) : ValidAt months day ↔ Civil.Valid y m day := by
  have hy : months / 12 = y := by omega
  have hmonth : (months % 12).toNat.succ = m := by omega
  unfold ValidAt
  rw [hy, hmonth]

theorem validAt_of_le {months : Int} {day : Nat} (hday : 1 ≤ day)
    (h : day ≤ 28 ∨ day ≤ 30 ∧ months % 12 ≠ 1) : ValidAt months day := by
  have hm : 1 ≤ (months % 12).toNat.succ ∧ (months % 12).toNat.succ ≤ 12 := by omega
  obtain ⟨h28, h30⟩ := le_monthLength (months / 12) hm.1
  refine ⟨hm.1, hm.2, hday, ?_⟩
  rcases h with h | ⟨h, hne⟩
  · omega
  · have := h30 (by omega) hm.2
    omega

theorem isLeap_iff (y : Int) : Civil.isLeap y = true ↔ y % 4 = 0 ∧ (y % 100 ≠ 0 ∨ y % 400 = 0) := by
  simp [Civil.isLeap]

/-- Of the years `k` apart behind a leap year, the fourth, eighth or sixteenth is one. -/
theorem exists_leap {y : Int} (hy : Civil.isLeap y = true) (k : Int) :
    ∃ t : Nat, 1 ≤ t ∧ t ≤ 16 ∧ Civil.isLeap (y + t * k) = true := by
  rw [isLeap_iff] at hy
  by_cases h4 : Civil.isLeap (y + 4 * k) = true
  · exact ⟨4, by omega, by omega, h4⟩
  by_cases h8 : Civil.isLeap (y + 8 * k) = true
  · exact ⟨8, by omega, by omega, h8⟩
  refine ⟨16, by omega, by omega, ?_⟩
  rw [isLeap_iff] at h4 h8 ⊢
  push_cast
  omega

/-- A month that has the day comes within 48 steps of any length. -/
theorem exists_validAt {months : Int} {day : Nat} (h : ValidAt months day) (interval : Nat) :
    ∃ j : Nat, 1 ≤ j ∧ j ≤ 48 ∧ ValidAt (months + j * interval) day := by
  obtain ⟨hm, hm', hday, hlen⟩ := h
  have h31 : Civil.monthLength (months / 12) (months % 12).toNat.succ ≤ 31 := by
    have hl := Civil.leapDay_cases (months / 12)
    unfold Civil.monthLength Civil.monthStart
    split_ifs <;> omega
  by_cases h28 : day ≤ 28
  · exact ⟨1, by omega, by omega, validAt_of_le hday (Or.inl h28)⟩
  by_cases hlast : day = 31
  · -- twelve steps on it is the same month of another year
    have hfeb : (months % 12).toNat.succ ≠ 2 := by
      intro hfeb
      rw [hfeb, monthLength_february] at hlen
      have := Civil.leapDay_cases (months / 12)
      omega
    refine ⟨12, by omega, by omega, ?_⟩
    have hidx : months + (12 : Nat) * interval =
        (months / 12 + interval) * 12 + (((months % 12).toNat.succ : Int) - 1) := by omega
    rw [validAt_iff ⟨hm, hm'⟩ hidx]
    exact ⟨hm, hm', hday, by rwa [monthLength_eq _ (months / 12) hm hfeb]⟩
  have h30 : day ≤ 30 := by omega
  by_cases h1 : (months + interval) % 12 = 1
  · by_cases h2 : (months + 2 * interval) % 12 = 1
    · -- every step ends in February, and the year decides
      have h12 : (interval : Int) % 12 = 0 := by omega
      have hfeb : (months % 12).toNat.succ = 2 := by omega
      rw [hfeb, monthLength_february] at hlen
      have hleap : Civil.isLeap (months / 12) = true := by
        unfold Civil.leapDay at hlen
        split at hlen
        · assumption
        · omega
      obtain ⟨t, ht, ht', hleap⟩ := exists_leap hleap (interval / 12)
      refine ⟨t, ht, by omega, ?_⟩
      have hmul : (t : Int) * interval = t * (interval / 12) * 12 := by
        rw [mul_assoc, Int.ediv_mul_cancel (Int.dvd_of_emod_eq_zero h12)]
      have hidx : months + t * interval =
          (months / 12 + t * (interval / 12)) * 12 + (((2 : Nat) : Int) - 1) := by
        rw [hmul]
        omega
      rw [validAt_iff (by omega) hidx]
      refine ⟨by omega, by omega, hday, ?_⟩
      rw [monthLength_february, Civil.leapDay, if_pos hleap]
      have := Civil.leapDay_cases (months / 12)
      omega
    · exact ⟨2, by omega, by omega, validAt_of_le hday (Or.inr ⟨h30, by exact_mod_cast h2⟩)⟩
  · exact ⟨1, by omega, by omega, validAt_of_le hday (Or.inr ⟨h30, by simpa using h1⟩)⟩

/-! ### The monthly walk -/

theorem NaiveDate.monthIndex_eq (d : NaiveDate) :
    monthIndex d.days = d.year * 12 + ((d.month : Int) - 1) := rfl

theorem NaiveDate.validAt (d : NaiveDate) : ValidAt (monthIndex d.days) d.day :=
  (validAt_iff ⟨d.valid.1, d.valid.2.1⟩ d.monthIndex_eq).2 d.valid

theorem monthIndex_bounds (d : NaiveDate) :
    -262143 * 12 ≤ monthIndex d.days ∧ monthIndex d.days < 262143 * 12 := by
  have hy := d.year_bounds
  have hm := d.valid.1
  have hm' := d.valid.2.1
  rw [d.monthIndex_eq]
  omega

theorem monthIndex_of_fromYmdOpt {months : Int} {day : Nat}
    (h : NaiveDate.fromYmdOpt (months / 12) (months % 12).toNat.succ day = some x) :
    monthIndex x.days = months ∧ x.day = day := by
  obtain ⟨hy, hm, hday⟩ := NaiveDate.ymd_of_fromYmdOpt h
  rw [x.monthIndex_eq, hy, hm]
  exact ⟨by omega, hday⟩

/-- Of two dates the one of the later month is the later. -/
theorem lt_of_monthIndex_lt {a b : NaiveDate} (h : monthIndex a.days < monthIndex b.days) :
    a < b := by
  have ha := a.valid.2.1
  have hb := b.valid.1
  have ha' := a.valid.1
  have hb' := b.valid.2.1
  rw [a.monthIndex_eq, b.monthIndex_eq] at h
  rw [NaiveDate.lt_def, ← a.dayNumber_eq, ← b.dayNumber_eq]
  exact Civil.dayNumber_lt a.valid b.valid (by omega)

theorem monthIndex_mono {a b : NaiveDate} (h : a ≤ b) : monthIndex a.days ≤ monthIndex b.days := by
  by_contra hlt
  exact NaiveDate.not_lt.2 h (lt_of_monthIndex_lt (not_le.1 hlt))

theorem eq_of_monthIndex_eq {a b : NaiveDate} (h : monthIndex a.days = monthIndex b.days)
    (hday : a.day = b.day) : a = b := by
  have ha := a.valid
  have hb := b.valid
  rw [a.monthIndex_eq, b.monthIndex_eq] at h
  have hy : a.year = b.year := by
    have := ha.1
    have := ha.2.1
    have := hb.1
    have := hb.2.1
    omega
  have hm : a.month = b.month := by omega
  refine NaiveDate.ext ?_
  rw [← a.dayNumber_eq, ← b.dayNumber_eq, hy, hm, hday]

/-- The search stops at the first month that has the day. -/
theorem monthFrom_of_first {day interval tries j : Nat} {months : Int} (hj : j < tries)
    (hlow : -2 ^ 31 ≤ months / 12) (hnot : ∀ i < j, ¬ ValidAt (months + i * interval) day)
    (hx : NaiveDate.fromYmdOpt ((months + j * interval) / 12)
      ((months + j * interval) % 12).toNat.succ day = some x) :
    monthFrom day interval tries months = some x := by
  induction tries generalizing j months with
  | zero => exact absurd hj (Nat.not_lt_zero _)
  | succ tries ih =>
    have hyear := x.year_bounds.2
    rw [(NaiveDate.ymd_of_fromYmdOpt hx).1] at hyear
    have hnn : (0 : Int) ≤ j * interval := by positivity
    unfold monthFrom
    rw [wrapI32_of_inRange hlow (by omega)]
    cases j with
    | zero =>
      simp only [Nat.cast_zero, zero_mul, add_zero] at hx
      rw [hx]
    | succ j =>
      have hfirst : NaiveDate.fromYmdOpt (months / 12) (months % 12).toNat.succ day = none := by
        cases hd : NaiveDate.fromYmdOpt (months / 12) (months % 12).toNat.succ day with
        | none => rfl
        | some d =>
          have := hnot 0 (Nat.succ_pos j)
          simp only [Nat.cast_zero, zero_mul, add_zero] at this
          exact absurd (NaiveDate.fromYmdOpt_eq_some.1 hd).1 this
      have hshift : ∀ i : Nat, months + interval + i * interval = months + (i + 1 : Nat) * interval := by
        intro i
        push_cast
        ring
      rw [hfirst]
      refine ih (Nat.lt_of_succ_lt_succ hj) (by omega) (fun i hi => ?_) ?_
      · rw [hshift]
        exact hnot (i + 1) (Nat.succ_lt_succ hi)
      · rw [hshift]
        exact hx

/-- The next month of the grid that has the day is the walk's next date. -/
theorem exists_advance_monthly {interval : Nat} {d : NaiveDate} (hday : date.day = start.day)
    (hd : d.day = start.day) (hlt : monthIndex date.days < monthIndex d.days)
    (hdvd : (interval : Int) ∣ monthIndex d.days - monthIndex date.days) :
    ∃ next, advance date .monthly interval start = some next ∧ next.day = start.day ∧
      monthIndex next.days ≤ monthIndex d.days ∧
      ∃ j : Nat, 1 ≤ j ∧ monthIndex next.days = monthIndex date.days + j * interval := by
  obtain ⟨q, hq⟩ := hdvd
  have hpos : (0 : Int) < interval := by
    rcases Nat.eq_zero_or_pos interval with h0 | h0
    · rw [h0, Nat.cast_zero, zero_mul] at hq
      omega
    · exact_mod_cast h0
  have hqpos : 0 < q := by
    by_contra hle
    have : (interval : Int) * q ≤ 0 := mul_nonpos_of_nonneg_of_nonpos hpos.le (by omega)
    omega
  have hvalid := date.validAt
  rw [hday] at hvalid
  have hex : ∃ j : Nat, 1 ≤ j ∧ ValidAt (monthIndex date.days + j * interval) start.day := by
    obtain ⟨j, hj, -, hv⟩ := exists_validAt hvalid interval
    exact ⟨j, hj, hv⟩
  obtain ⟨hj, hv⟩ := Nat.find_spec hex
  have hmin : ∀ i : Nat, 1 ≤ i → ValidAt (monthIndex date.days + i * interval) start.day →
      Nat.find hex ≤ i := fun i hi hv => Nat.find_min' hex ⟨hi, hv⟩
  generalize Nat.find hex = j at hj hv hmin
  have hj48 : j ≤ 48 := by
    obtain ⟨i, hi, hi', hv'⟩ := exists_validAt hvalid interval
    exact le_trans (hmin i hi hv') hi'
  have hdq : monthIndex d.days = monthIndex date.days + q.toNat * interval := by
    rw [Int.toNat_of_nonneg hqpos.le, mul_comm]
    omega
  have hjq : j ≤ q.toNat := by
    refine hmin q.toNat (by omega) ?_
    rw [← hdq, ← hd]
    exact d.validAt
  have hle : monthIndex date.days + j * interval ≤ monthIndex d.days := by
    rw [hdq]
    have : (j : Int) * interval ≤ q.toNat * interval :=
      mul_le_mul_of_nonneg_right (by exact_mod_cast hjq) hpos.le
    omega
  have hbefore : monthIndex date.days < monthIndex date.days + j * interval := by
    have : (0 : Int) < j * interval := mul_pos (by omega) hpos
    omega
  generalize hM : monthIndex date.days + j * interval = M at hle hbefore hv
  -- the month found lies between two dates chrono has
  have hin : NaiveDate.minDay ≤ Civil.dayNumber (M / 12) (M % 12).toNat.succ start.day ∧
      Civil.dayNumber (M / 12) (M % 12).toNat.succ start.day ≤ NaiveDate.maxDay := by
    have hdm := date.monthIndex_eq
    have hdm' := d.monthIndex_eq
    have h₁ := date.valid.2.1
    have h₂ := d.valid.1
    have h₃ := d.valid.2.1
    have h₄ := date.valid.1
    constructor
    · refine le_trans date.inRange.1 (le_of_lt ?_)
      rw [← date.dayNumber_eq]
      exact Civil.dayNumber_lt date.valid hv (by omega)
    · refine le_trans ?_ d.inRange.2
      rw [← d.dayNumber_eq]
      rcases lt_or_eq_of_le hle with hlt' | heq
      · exact le_of_lt (Civil.dayNumber_lt hv d.valid (by omega))
      · have hy : M / 12 = d.year := by omega
        have hm : (M % 12).toNat.succ = d.month := by omega
        rw [hy, hm, hd]
  have hnext : NaiveDate.fromYmdOpt (M / 12) (M % 12).toNat.succ start.day = some ⟨_, hin⟩ :=
    NaiveDate.fromYmdOpt_eq_some.2 ⟨hv, rfl⟩
  obtain ⟨hidx, hnday⟩ := monthIndex_of_fromYmdOpt hnext
  refine ⟨_, ?_, hnday, by rw [hidx]; exact hle, j, hj, by rw [hidx, hM]⟩
  have hshift : ∀ i : Nat, monthIndex date.days + interval + i * interval =
      monthIndex date.days + (i + 1 : Nat) * interval := by
    intro i
    push_cast
    ring
  have hj1 : j - 1 + 1 = j := Nat.sub_add_cancel hj
  have hlow := (monthIndex_bounds date).1
  refine @monthFrom_of_first _ _ _ _ (j - 1) (monthIndex date.days + interval)
    (by omega) (by omega) (fun i hi hval => ?_) ?_
  · rw [hshift] at hval
    have := hmin (i + 1) (by omega) hval
    omega
  · rw [hshift, hj1, hM]
    exact hnext

/-- The monthly walk comes to every month of the grid within its steps that has the day. -/
theorem mem_dateWalk_monthly {interval steps : Nat} {d : NaiveDate} (hday : date.day = start.day)
    (hd : d.day = start.day) (hle : date ≤ d)
    (hdvd : (interval : Int) ∣ monthIndex d.days - monthIndex date.days)
    (hsteps : monthIndex d.days < monthIndex date.days + steps * interval) :
    d ∈ dateWalk .monthly interval start steps date := by
  induction steps generalizing date with
  | zero =>
    have := monthIndex_mono hle
    simp only [Nat.cast_zero, zero_mul] at hsteps
    omega
  | succ steps ih =>
    unfold dateWalk
    rw [List.mem_cons]
    rcases eq_or_lt_of_le (monthIndex_mono hle) with heq | hlt
    · left
      exact eq_of_monthIndex_eq heq.symm (hd.trans hday.symm)
    · right
      obtain ⟨next, hadv, hnday, hnle, j, hj, hidx⟩ := exists_advance_monthly hday hd hlt hdvd
      rw [hadv]
      refine ih hnday ?_ ?_ ?_
      · by_contra hgt
        rw [NaiveDate.not_lt.symm, not_not] at hgt
        have hsame : monthIndex next.days = monthIndex d.days :=
          le_antisymm hnle (monthIndex_mono (NaiveDate.le_of_lt hgt))
        have := eq_of_monthIndex_eq hsame (hnday.trans hd.symm)
        exact NaiveDate.ne_of_lt hgt this.symm
      · rw [hidx]
        have : monthIndex d.days - (monthIndex date.days + j * interval) =
            (monthIndex d.days - monthIndex date.days) - j * interval := by ring
        rw [this]
        exact dvd_sub hdvd (Dvd.intro_left _ rfl)
      · rw [hidx]
        have hone : (interval : Int) ≤ j * interval :=
          le_mul_of_one_le_left (by positivity) (by exact_mod_cast hj)
        push_cast at hsteps
        linarith

theorem monthFrom_index {day interval tries : Nat} {months : Int}
    (h : monthFrom day interval tries months = some next)
    (hlow : -2 ^ 31 ≤ months / 12) (hhigh : (months + tries * interval) / 12 < 2 ^ 31) :
    next.day = day ∧ ∃ j : Nat, monthIndex next.days = months + j * interval := by
  induction tries generalizing months with
  | zero => cases h
  | succ tries ih =>
    have hstep : ((tries + 1 : Nat) : Int) * interval = tries * interval + interval := by
      push_cast
      ring
    have hnn : (0 : Int) ≤ tries * interval := by positivity
    rw [hstep] at hhigh
    unfold monthFrom at h
    rw [wrapI32_of_inRange hlow (by omega)] at h
    split at h
    · next d hd =>
      cases h
      obtain ⟨hidx, hday⟩ := monthIndex_of_fromYmdOpt hd
      exact ⟨hday, 0, by simpa using hidx⟩
    · obtain ⟨hday, j, hj⟩ := ih h (by omega) (by rw [add_right_comm]; omega)
      refine ⟨hday, j + 1, ?_⟩
      rw [hj]
      push_cast
      ring

theorem index_of_mem_dateWalk {interval steps : Nat} (hwrap : 8 * interval + 2 ^ 18 < 2 ^ 31)
    (hday : date.day = start.day) (h : x ∈ dateWalk .monthly interval start steps date) :
    x.day = start.day ∧ ∃ j : Nat, monthIndex x.days = monthIndex date.days + j * interval := by
  induction steps generalizing date with
  | zero => cases h
  | succ steps ih =>
    unfold dateWalk at h
    rcases List.mem_cons.1 h with rfl | h
    · exact ⟨hday, 0, by simp⟩
    · split at h
      · next next hadv =>
        obtain ⟨hlow, hhigh⟩ := monthIndex_bounds date
        obtain ⟨hnday, i, hi⟩ := @monthFrom_index _ _ _ _ (monthIndex date.days + interval) hadv
          (by omega) (by push_cast; omega)
        obtain ⟨hxday, j, hj⟩ := ih hnday h
        refine ⟨hxday, 1 + i + j, ?_⟩
        rw [hj, hi]
        push_cast
        ring
      · cases h

/-! ### The candidates and the grid -/

/-- Fewer periods than the walk has steps lie between the start and the day. -/
def Rule.FewPeriods (rule : Rule) (start n : Int) : Prop :=
  match rule.freq with
  | .daily => n < start + maxSteps * rule.interval
  | .weekly =>
    if rule.byDay = [] then n < start + maxSteps * (7 * rule.interval)
    else n < mondayOf start + maxSteps * (7 * rule.interval)
  | .monthly =>
    monthIndex n < monthIndex start + maxSteps * rule.interval ∨
      monthIndex n = monthIndex start + maxSteps * rule.interval ∧
        Civil.dayOf n < Civil.dayOf start
  | .yearly => Civil.yearOf n < Civil.yearOf start + maxSteps * rule.interval

theorem addDays_monday {week : NaiveDate} :
    start.addDays (-start.daysFromMonday) = some week ↔ week.days = mondayOf start.days := by
  rw [NaiveDate.addDays_eq_some]
  rfl

theorem candidates_weekly {week : NaiveDate} (h : rule.freq = .weekly ∧ rule.byDay ≠ [])
    (hweek : week.days = mondayOf start.days) :
    rule.candidates start = weekWalk rule.interval rule.weekOrder start maxSteps week := by
  unfold Rule.candidates
  rw [if_pos (show rule.weekly from h), addDays_monday.2 hweek]

theorem candidates_dates (h : ¬ (rule.freq = .weekly ∧ rule.byDay ≠ [])) :
    rule.candidates start = dateWalk rule.freq rule.interval start maxSteps start := by
  unfold Rule.candidates
  rw [if_neg (show ¬ rule.weekly from h)]

theorem mondayOf_add {m k : Int} {w : Weekday} (h : m % 7 = 0) :
    mondayOf (m + 7 * k + w.numDaysFromMonday) = m + 7 * k ∧
      (m + 7 * k + w.numDaysFromMonday) % 7 = w.numDaysFromMonday := by
  have := w.num_lt
  unfold mondayOf
  omega

/-- The walk by weeks comes to the days of the grid in its first weeks. -/
theorem mem_candidates_weekly (h : rule.freq = .weekly ∧ rule.byDay ≠ [])
    {week : NaiveDate} (hweek : week.days = mondayOf start.days) :
    x ∈ rule.candidates start ↔ start ≤ x ∧ rule.Names x.days ∧
      ∃ k : Nat, k < maxSteps ∧ mondayOf x.days = mondayOf start.days + k * (7 * rule.interval) := by
  have hmonday : mondayOf start.days % 7 = 0 := by
    unfold mondayOf
    omega
  rw [candidates_weekly h hweek, mem_weekWalk, hweek]
  refine and_congr_right fun _ => ?_
  constructor
  · rintro ⟨k, hk, w, hw, hx⟩
    obtain ⟨hmon, hmod⟩ := mondayOf_add (w := w) (k := k * rule.interval) hmonday
    have hmul : (7 : Int) * (k * rule.interval) = k * (7 * rule.interval) := by ring
    rw [hmul, ← hx] at hmon hmod
    exact ⟨⟨w, mem_weekOrder.1 hw, hmod.symm⟩, k, hk, hmon⟩
  · rintro ⟨⟨w, hw, hmod⟩, k, hk, hmon⟩
    refine ⟨k, hk, w, mem_weekOrder.2 hw, ?_⟩
    unfold mondayOf at hmon ⊢
    omega

theorem onGrid_weekly (h : rule.freq = .weekly ∧ rule.byDay ≠ []) {s n : Int} :
    rule.OnGrid s n ↔ s ≤ n ∧ (7 * rule.interval : Int) ∣ mondayOf n - mondayOf s ∧
      rule.Names n := by
  unfold Rule.OnGrid
  rw [h.1]
  simp only [if_neg h.2]

theorem exists_mul_of_dvd {c n : Int} (hc : 0 < c) (hn : 0 ≤ n) (h : c ∣ n) :
    ∃ k : Nat, n = k * c := by
  obtain ⟨q, rfl⟩ := h
  have hq : 0 ≤ q := by
    by_contra hlt
    have := mul_neg_of_pos_of_neg hc (not_le.1 hlt)
    omega
  exact ⟨q.toNat, by rw [Int.toNat_of_nonneg hq, mul_comm]⟩

theorem mondayOf_mono {a b : Int} (h : a ≤ b) : mondayOf a ≤ mondayOf b := by
  unfold mondayOf
  omega

theorem lt_of_mul_lt_mul_steps {k n : Nat} {c : Int} (hc : 0 < c) (h : k * c < n * c) : k < n := by
  have := lt_of_mul_lt_mul_right h hc.le
  exact_mod_cast this

/-- What the walk comes to is on the grid. -/
theorem onGrid_of_mem_candidates (hs : rule.Steady) (hfreq : rule.freq ≠ .yearly)
    (hx : x ∈ rule.candidates start) : rule.OnGrid start.days x.days := by
  by_cases hweekly : rule.freq = .weekly ∧ rule.byDay ≠ []
  · rw [onGrid_weekly hweekly]
    cases hmonday : start.addDays (-start.daysFromMonday) with
    | none =>
      unfold Rule.candidates at hx
      rw [if_pos (show rule.weekly from hweekly), hmonday] at hx
      cases hx
    | some week =>
      rw [mem_candidates_weekly hweekly (addDays_monday.1 hmonday)] at hx
      obtain ⟨hle, hnames, k, -, hmon⟩ := hx
      exact ⟨hle, ⟨k, by rw [hmon]; ring⟩, hnames⟩
  · rw [candidates_dates hweekly] at hx
    refine ⟨le_of_mem_dateWalk hs hx, ?_⟩
    cases hf : rule.freq with
    | daily =>
      rw [hf] at hx
      obtain ⟨k, -, hk⟩ := (mem_dateWalk_of_addDays (c := rule.interval) (by positivity)
        fun _ => rfl).1 hx
      exact ⟨k, by rw [hk]; ring⟩
    | weekly =>
      have hday : rule.byDay = [] := by
        by_contra hne
        exact hweekly ⟨hf, hne⟩
      rw [hf] at hx
      obtain ⟨k, -, hk⟩ := (mem_dateWalk_of_addDays (c := 7 * rule.interval) (by positivity)
        fun _ => rfl).1 hx
      simp only [if_pos hday]
      exact ⟨k, by rw [hk]; ring⟩
    | monthly =>
      rw [hf] at hx
      obtain ⟨hday, j, hj⟩ := index_of_mem_dateWalk (hs.noWrap (Or.inl hf)) rfl hx
      exact ⟨hday, j, by rw [hj]; ring⟩
    | yearly => exact absurd hf hfreq

/-- The walk comes to the whole grid as long as its steps last. -/
theorem mem_candidates_of_onGrid (hs : rule.Steady) (hfreq : rule.freq ≠ .yearly)
    (hmonday : rule.freq = .weekly → rule.byDay ≠ [] → NaiveDate.minDay ≤ mondayOf start.days)
    (hon : rule.OnGrid start.days x.days) (hfew : rule.FewPeriods start.days x.days) :
    x ∈ rule.candidates start := by
  have hpos : (0 : Int) < rule.interval := by exact_mod_cast hs.pos
  by_cases hweekly : rule.freq = .weekly ∧ rule.byDay ≠ []
  · have hin : NaiveDate.minDay ≤ mondayOf start.days ∧ mondayOf start.days ≤ NaiveDate.maxDay := by
      refine ⟨hmonday hweekly.1 hweekly.2, le_trans ?_ start.inRange.2⟩
      unfold mondayOf
      omega
    rw [@mem_candidates_weekly _ _ _ hweekly ⟨_, hin⟩ rfl]
    rw [onGrid_weekly hweekly] at hon
    obtain ⟨hle, hdvd, hnames⟩ := hon
    have hmono := mondayOf_mono hle
    obtain ⟨k, hk⟩ := exists_mul_of_dvd (by omega) (by omega) hdvd
    refine ⟨hle, hnames, k, ?_, by omega⟩
    unfold Rule.FewPeriods at hfew
    rw [hweekly.1] at hfew
    simp only [if_neg hweekly.2] at hfew
    refine lt_of_mul_lt_mul_steps (c := 7 * rule.interval) (by omega) ?_
    have : mondayOf x.days ≤ x.days := by
      unfold mondayOf
      omega
    omega
  · rw [candidates_dates hweekly]
    obtain ⟨hle, hgrid⟩ := hon
    unfold Rule.FewPeriods at hfew
    cases hf : rule.freq with
    | daily =>
      rw [hf] at hgrid hfew
      obtain ⟨k, hk⟩ := exists_mul_of_dvd hpos (by omega) hgrid
      refine (mem_dateWalk_of_addDays (c := rule.interval) hpos.le fun _ => rfl).2
        ⟨k, lt_of_mul_lt_mul_steps hpos ?_, by omega⟩
      simp only at hfew
      omega
    | weekly =>
      have hday : rule.byDay = [] := by
        by_contra hne
        exact hweekly ⟨hf, hne⟩
      rw [hf] at hgrid hfew
      simp only [if_pos hday] at hgrid hfew
      have hc : (0 : Int) < 7 * rule.interval := by omega
      obtain ⟨k, hk⟩ := exists_mul_of_dvd hc (by omega) hgrid
      refine (mem_dateWalk_of_addDays (c := 7 * rule.interval) hc.le fun _ => rfl).2
        ⟨k, lt_of_mul_lt_mul_steps hc ?_, by omega⟩
      omega
    | monthly =>
      rw [hf] at hgrid hfew
      obtain ⟨hday, hdvd⟩ := hgrid
      refine mem_dateWalk_monthly rfl hday hle hdvd ?_
      rcases hfew with hlt | ⟨-, hlt⟩
      · exact hlt
      · exact absurd hday (Nat.ne_of_lt hlt)
    | yearly => exact absurd hf hfreq

end Arlen.Calendar
