import Mathlib.Data.List.Destutter
import Mathlib.Tactic.Ring
import Mathlib.Tactic.Positivity
import Arlen.Calendar.Rrule

/-!
# The series behind the windows

A rule and a start name one ascending list of dates, `Rule.series`: the dates the
walk comes to in the steps it is given, up to the rule's end. What `expand`
returns for a window is that list cut to the window, whatever the window is.
-/

namespace Arlen.Calendar

open Arlen.Lib

/-! ### Order of dates -/

theorem NaiveDate.le_refl (a : NaiveDate) : a ≤ a := Int.le_refl _

theorem NaiveDate.not_lt {a b : NaiveDate} : ¬ a < b ↔ b ≤ a := Int.not_lt

theorem NaiveDate.lt_of_lt_of_le {a b c : NaiveDate} (h : a < b) (h' : b ≤ c) : a < c :=
  Int.lt_of_lt_of_le h h'

theorem NaiveDate.lt_of_le_of_lt {a b c : NaiveDate} (h : a ≤ b) (h' : b < c) : a < c :=
  Int.lt_of_le_of_lt h h'

theorem NaiveDate.lt_trans {a b c : NaiveDate} (h : a < b) (h' : b < c) : a < c :=
  Int.lt_trans h h'

theorem NaiveDate.le_of_lt {a b : NaiveDate} (h : a < b) : a ≤ b := Int.le_of_lt h

theorem NaiveDate.le_trans {a b c : NaiveDate} (h : a ≤ b) (h' : b ≤ c) : a ≤ c :=
  Int.le_trans h h'

theorem NaiveDate.lt_irrefl (a : NaiveDate) : ¬ a < a := Int.lt_irrefl _

theorem NaiveDate.ne_of_lt {a b : NaiveDate} (h : a < b) : a ≠ b := by
  rintro rfl
  exact NaiveDate.lt_irrefl a h

/-- Each date later than the one before it. -/
abbrev Ascending (l : List NaiveDate) : Prop := l.Pairwise (· < ·)

theorem sortDates_of_ascending {l : List NaiveDate} (h : Ascending l) : sortDates l = l := by
  unfold sortDates
  have hsort : (l.mergeSort fun a b => a ≤ b) = l :=
    List.mergeSort_of_pairwise (h.imp fun hab => by simpa using NaiveDate.le_of_lt hab)
  rw [hsort]
  exact List.destutter_of_isChain _ _ (h.imp NaiveDate.ne_of_lt).isChain

/-- Sorting leaves the dates in order, each once. -/
theorem sortDates_spec (l : List NaiveDate) :
    Ascending (sortDates l) ∧ ∀ x, x ∈ sortDates l ↔ x ∈ l := by
  unfold sortDates
  have hsort : (l.mergeSort fun a b => decide (a ≤ b)).Pairwise (· ≤ ·) := by
    refine (List.pairwise_mergeSort ?_ ?_ l).imp fun h => by simpa using h
    · intro a b c
      simp only [decide_eq_true_eq]
      exact NaiveDate.le_trans
    · intro a b
      simp only [Bool.or_eq_true, decide_eq_true_eq]
      exact Int.le_total _ _
  have : Std.Antisymm fun a b : NaiveDate => a ≤ b :=
    ⟨fun a b hab hba => NaiveDate.ext (Int.le_antisymm hab hba)⟩
  rw [hsort.destutter_eq_dedup]
  refine ⟨?_, fun x => by rw [List.mem_dedup, List.mem_mergeSort]⟩
  have hle := hsort.sublist (List.dedup_sublist _)
  refine (hle.and (List.nodup_dedup _)).imp fun {a b} h => ?_
  exact lt_of_le_of_ne h.1 fun heq => h.2 (NaiveDate.ext heq)

theorem mem_sortDates {l : List NaiveDate} {x : NaiveDate} : x ∈ sortDates l ↔ x ∈ l :=
  (sortDates_spec l).2 x

/-! ### The candidates and the end of the rule -/

/-- The dates up to the end of the rule, with `seen` occurrences before them. -/
def Rule.scan (rule : Rule) : Nat → List NaiveDate → List NaiveDate
  | _, [] => []
  | seen, date :: dates =>
    if rule.ended seen date then [] else date :: rule.scan (seen + 1) dates

/-- The named days of a week from the start on. -/
def weekDates (days : List Weekday) (start week : NaiveDate) : List NaiveDate :=
  (days.filterMap fun d => week.addDays d.numDaysFromMonday).filter (start ≤ ·)

/-- The dates the weekly walk comes to in so many steps. -/
def weekWalk (interval : Nat) (days : List Weekday) (start : NaiveDate) :
    Nat → NaiveDate → List NaiveDate
  | 0, _ => []
  | steps + 1, week =>
    weekDates days start week ++
      match week.addDays (7 * interval) with
      | some next => weekWalk interval days start steps next
      | none => []

/-- The dates the walk from date to date comes to in so many steps. -/
def dateWalk (freq : Freq) (interval : Nat) (start : NaiveDate) :
    Nat → NaiveDate → List NaiveDate
  | 0, _ => []
  | steps + 1, date =>
    date ::
      match advance date freq interval start with
      | some next => dateWalk freq interval start steps next
      | none => []

def Rule.weekly (rule : Rule) : Prop := rule.freq = .weekly ∧ rule.byDay ≠ []

instance (rule : Rule) : Decidable rule.weekly := by unfold Rule.weekly; infer_instance

/-- The dates the rule's walk comes to. -/
def Rule.candidates (rule : Rule) (start : NaiveDate) : List NaiveDate :=
  if rule.weekly then
    match start.addDays (-start.daysFromMonday) with
    | none => []
    | some week => weekWalk rule.interval rule.weekOrder start maxSteps week
  else dateWalk rule.freq rule.interval start maxSteps start

/-- The dates of the rule. -/
def Rule.series (rule : Rule) (start : NaiveDate) : List NaiveDate :=
  rule.scan 0 (rule.candidates start)

/-- The window `expand` is asked about. -/
def within («from» «to» : NaiveDate) (d : NaiveDate) : Bool := «from» ≤ d && d ≤ «to»

/-- The steps of the rule go forward: no `i32` year wraps on the way to the next
occurrence, and the interval is not zero. -/
structure Rule.Steady (rule : Rule) : Prop where
  pos : 0 < rule.interval
  noWrap : rule.freq = .monthly ∨ rule.freq = .yearly → 8 * rule.interval + 2 ^ 18 < 2 ^ 31

/-! ### Steps of the walk -/

variable {rule : Rule} {start date next : NaiveDate}

theorem NaiveDate.year_bounds (d : NaiveDate) : -262143 ≤ d.year ∧ d.year ≤ 262142 := by
  obtain ⟨h₁, h₂⟩ := d.inRange
  have hv := d.valid
  have hn := d.dayNumber_eq
  have hmin : Civil.Valid (-262143) 1 1 := by decide
  have hmax : Civil.Valid 262142 12 31 := by decide
  constructor
  · by_contra hlt
    have := Civil.dayNumber_lt hv hmin (Or.inl (by omega))
    rw [hn] at this
    exact absurd h₁ (not_le.2 this)
  · by_contra hgt
    have := Civil.dayNumber_lt hmax hv (Or.inl (by omega))
    rw [hn] at this
    exact absurd h₂ (not_le.2 this)

theorem wrapI32_of_inRange {n : Int} (h₁ : -2 ^ 31 ≤ n) (h₂ : n < 2 ^ 31) : wrapI32 n = n := by
  unfold wrapI32
  omega

/-- The month found lies a whole number of intervals on. -/
theorem monthFrom_spec {day interval tries : Nat} {months : Int}
    (h : monthFrom day interval tries months = some next)
    (hlow : -2 ^ 31 ≤ months / 12) (hhigh : (months + tries * interval) / 12 < 2 ^ 31) :
    next.day = day ∧ months ≤ next.year * 12 + ((next.month : Int) - 1) := by
  induction tries generalizing months with
  | zero => cases h
  | succ tries ih =>
    have hstep : ((tries + 1 : Nat) : Int) * interval = tries * interval + interval := by
      push_cast
      ring
    have hnn : (0 : Int) ≤ tries * interval := by positivity
    rw [hstep] at hhigh
    unfold monthFrom at h
    rw [wrapI32_of_inRange hlow (by omega)] at h
    split at h
    · next d hd =>
      cases h
      obtain ⟨hy, hm, hday⟩ := NaiveDate.ymd_of_fromYmdOpt hd
      refine ⟨hday, ?_⟩
      rw [hy, hm]
      omega
    · obtain ⟨hday, hle⟩ := ih h (by omega) (by rw [add_right_comm]; omega)
      exact ⟨hday, by omega⟩

theorem yearFrom_spec {month day tries : Nat} {interval year : Int}
    (h : yearFrom month day interval tries year = some next) (hi : 0 ≤ interval)
    (hlow : -2 ^ 31 ≤ year) (hhigh : year + tries * interval < 2 ^ 31 + interval) :
    next.month = month ∧ next.day = day ∧ year ≤ next.year := by
  induction tries generalizing year with
  | zero => cases h
  | succ tries ih =>
    have hstep : ((tries + 1 : Nat) : Int) * interval = tries * interval + interval := by
      push_cast
      ring
    have hnn : (0 : Int) ≤ tries * interval := by positivity
    rw [hstep] at hhigh
    unfold yearFrom at h
    split at h
    · next d hd =>
      cases h
      obtain ⟨hy, hm, hday⟩ := NaiveDate.ymd_of_fromYmdOpt hd
      exact ⟨hm, hday, by omega⟩
    · cases tries with
      | zero => cases h
      | succ tries =>
        have hone : ((tries + 1 : Nat) : Int) * interval = tries * interval + interval := by
          push_cast
          ring
        have hnn' : (0 : Int) ≤ tries * interval := by positivity
        rw [wrapI32_of_inRange (by omega) (by omega)] at h
        obtain ⟨hm, hday, hle⟩ := ih h (by omega) (by omega)
        exact ⟨hm, hday, by omega⟩

/-- The next occurrence is later, and keeps the day the rule is anchored on. -/
theorem advance_spec (hs : rule.Steady)
    (h : advance date rule.freq rule.interval start = some next) :
    date < next ∧ (rule.freq = .monthly → next.day = start.day) ∧
      (rule.freq = .yearly → next.month = start.month ∧ next.day = start.day) := by
  have hpos := hs.pos
  have hwrap := hs.noWrap
  obtain ⟨hy₁, hy₂⟩ := date.year_bounds
  have hm := date.valid.1
  have hm' := date.valid.2.1
  unfold advance at h
  split at h
  · next hf =>
    have hd := NaiveDate.addDays_eq_some.1 h
    refine ⟨?_, by simp [hf], by simp [hf]⟩
    rw [NaiveDate.lt_def]
    omega
  · next hf =>
    have hd := NaiveDate.addDays_eq_some.1 h
    refine ⟨?_, by simp [hf], by simp [hf]⟩
    rw [NaiveDate.lt_def]
    omega
  · next hf =>
    have hi := hwrap (Or.inl hf)
    obtain ⟨hday, hle⟩ := monthFrom_spec h (by omega) (by push_cast; omega)
    refine ⟨?_, fun _ => hday, by simp [hf]⟩
    rw [NaiveDate.lt_def, ← date.dayNumber_eq, ← next.dayNumber_eq]
    have hnm := next.valid.2.1
    exact Civil.dayNumber_lt date.valid next.valid (by omega)
  · next hf =>
    have hi := hwrap (Or.inr hf)
    have hw : wrapI32 (rule.interval : Int) = rule.interval :=
      wrapI32_of_inRange (by omega) (by omega)
    rw [hw, wrapI32_of_inRange (by omega) (by omega)] at h
    obtain ⟨hmon, hday, hle⟩ := yearFrom_spec h (by omega) (by omega) (by push_cast; omega)
    refine ⟨?_, by simp [hf], fun _ => ⟨hmon, hday⟩⟩
    rw [NaiveDate.lt_def, ← date.dayNumber_eq, ← next.dayNumber_eq]
    exact Civil.dayNumber_lt date.valid next.valid (Or.inl (by omega))

/-! ### The walks ascend -/

theorem le_of_mem_dateWalk (hs : rule.Steady) {steps : Nat} {x : NaiveDate}
    (h : x ∈ dateWalk rule.freq rule.interval start steps date) : date ≤ x := by
  induction steps generalizing date with
  | zero => cases h
  | succ steps ih =>
    unfold dateWalk at h
    rcases List.mem_cons.1 h with rfl | h
    · exact NaiveDate.le_refl x
    · split at h
      · next next hadv =>
        exact NaiveDate.le_trans (NaiveDate.le_of_lt (advance_spec hs hadv).1) (ih h)
      · cases h

theorem ascending_dateWalk (hs : rule.Steady) (steps : Nat) (date : NaiveDate) :
    Ascending (dateWalk rule.freq rule.interval start steps date) := by
  induction steps generalizing date with
  | zero => exact List.Pairwise.nil
  | succ steps ih =>
    unfold dateWalk
    split
    · next next hadv =>
      refine List.pairwise_cons.2 ⟨fun x hx => ?_, ih next⟩
      exact NaiveDate.lt_of_lt_of_le (advance_spec hs hadv).1 (le_of_mem_dateWalk hs hx)
    · exact List.pairwise_singleton _ _

theorem Weekday.num_lt (d : Weekday) : d.numDaysFromMonday < 7 := by
  cases d <;> decide

theorem Weekday.num_inj {a b : Weekday} (h : a.numDaysFromMonday = b.numDaysFromMonday) :
    a = b := by
  cases a <;> cases b <;> first | rfl | exact absurd h (by decide)

/-- A sorted list without neighbours alike is strictly sorted. -/
theorem pairwise_lt_of_chain {l : List Weekday}
    (hle : l.Pairwise fun a b => a.numDaysFromMonday ≤ b.numDaysFromMonday)
    (hne : l.IsChain (· ≠ ·)) :
    l.Pairwise fun a b => a.numDaysFromMonday < b.numDaysFromMonday := by
  induction l with
  | nil => exact List.Pairwise.nil
  | cons a l ih =>
    obtain ⟨ha, hl⟩ := List.pairwise_cons.1 hle
    have hlt := ih hl hne.tail
    refine List.pairwise_cons.2 ⟨fun b hb => ?_, hlt⟩
    cases l with
    | nil => cases hb
    | cons c l =>
      have hac : a.numDaysFromMonday < c.numDaysFromMonday := by
        have h₁ := ha c List.mem_cons_self
        have h₂ : a.numDaysFromMonday ≠ c.numDaysFromMonday := fun heq =>
          (List.isChain_cons_cons.1 hne).1 (Weekday.num_inj heq)
        omega
      rcases List.mem_cons.1 hb with rfl | hb
      · exact hac
      · exact Nat.lt_trans hac ((List.pairwise_cons.1 hlt).1 b hb)

theorem pairwise_weekOrder (rule : Rule) :
    rule.weekOrder.Pairwise fun a b => a.numDaysFromMonday < b.numDaysFromMonday := by
  unfold Rule.weekOrder
  refine pairwise_lt_of_chain ?_ (List.isChain_destutter _ _)
  have hsort : (rule.byDay.mergeSort fun a b =>
      decide (a.numDaysFromMonday ≤ b.numDaysFromMonday)).Pairwise fun a b =>
        decide (a.numDaysFromMonday ≤ b.numDaysFromMonday) = true := by
    refine List.pairwise_mergeSort ?_ ?_ rule.byDay
    · intro a b c
      simp only [decide_eq_true_eq]
      omega
    · intro a b
      simp only [Bool.or_eq_true, decide_eq_true_eq]
      omega
  exact (hsort.imp fun h => by simpa using h).sublist (List.destutter_sublist _ _)

variable {days : List Weekday} {week : NaiveDate}

theorem mem_weekDates {x : NaiveDate} (h : x ∈ weekDates days start week) :
    week.days ≤ x.days ∧ x.days < week.days + 7 ∧ start ≤ x := by
  unfold weekDates at h
  obtain ⟨h, hx⟩ := List.mem_filter.1 h
  obtain ⟨d, _, hd⟩ := List.mem_filterMap.1 h
  have hdays := NaiveDate.addDays_eq_some.1 hd
  have hlt := d.num_lt
  exact ⟨by omega, by omega, by simpa using hx⟩

theorem ascending_weekDates
    (hd : days.Pairwise fun a b => a.numDaysFromMonday < b.numDaysFromMonday) :
    Ascending (weekDates days start week) := by
  unfold weekDates
  refine List.Pairwise.filter _ (List.Pairwise.filterMap _ ?_ hd)
  intro a b hab x hx y hy
  have hx' := NaiveDate.addDays_eq_some.1 hx
  have hy' := NaiveDate.addDays_eq_some.1 hy
  rw [NaiveDate.lt_def]
  omega

theorem le_of_mem_weekWalk {steps : Nat} {x : NaiveDate}
    (h : x ∈ weekWalk rule.interval days start steps week) : week ≤ x := by
  induction steps generalizing week with
  | zero => cases h
  | succ steps ih =>
    unfold weekWalk at h
    rcases List.mem_append.1 h with h | h
    · exact (mem_weekDates h).1
    · split at h
      · next next hnext =>
        have hdays := NaiveDate.addDays_eq_some.1 hnext
        refine NaiveDate.le_trans ?_ (ih h)
        rw [NaiveDate.le_def]
        omega
      · cases h

theorem ascending_weekWalk (hpos : 0 < rule.interval)
    (hd : days.Pairwise fun a b => a.numDaysFromMonday < b.numDaysFromMonday) (steps : Nat)
    (week : NaiveDate) : Ascending (weekWalk rule.interval days start steps week) := by
  induction steps generalizing week with
  | zero => exact List.Pairwise.nil
  | succ steps ih =>
    unfold weekWalk
    split
    · next next hnext =>
      refine List.pairwise_append.2 ⟨ascending_weekDates hd, ih next, fun x hx y hy => ?_⟩
      have hdays := NaiveDate.addDays_eq_some.1 hnext
      have hlt := (mem_weekDates hx).2.1
      have hle := NaiveDate.le_def.1 (le_of_mem_weekWalk hy)
      rw [NaiveDate.lt_def]
      omega
    · rw [List.append_nil]
      exact ascending_weekDates hd

theorem ascending_candidates (hs : rule.Steady) (start : NaiveDate) :
    Ascending (rule.candidates start) := by
  unfold Rule.candidates
  split
  · split
    · exact List.Pairwise.nil
    · exact ascending_weekWalk hs.pos (pairwise_weekOrder rule) _ _
  · exact ascending_dateWalk hs _ _

@[simp] theorem scan_nil (rule : Rule) (seen : Nat) : rule.scan seen [] = [] := rfl

theorem scan_cons (rule : Rule) (seen : Nat) (x : NaiveDate) (l : List NaiveDate) :
    rule.scan seen (x :: l) = if rule.ended seen x then [] else x :: rule.scan (seen + 1) l := rfl

theorem scan_isPrefix (rule : Rule) (seen : Nat) (l : List NaiveDate) : rule.scan seen l <+: l := by
  induction l generalizing seen with
  | nil => exact List.nil_prefix
  | cons x l ih =>
    rw [scan_cons]
    split
    · exact List.nil_prefix
    · exact (List.prefix_cons_inj x).2 (ih _)

theorem ascending_series (hs : rule.Steady) (start : NaiveDate) :
    Ascending (rule.series start) :=
  (ascending_candidates hs start).sublist (scan_isPrefix rule 0 _).sublist

/-! ### A window shows the series -/

variable {«from» «to» : NaiveDate}

theorem filter_within_eq_nil {l : List NaiveDate} (h : ∀ x ∈ l, «to» < x) :
    l.filter (within «from» «to») = [] := by
  rw [List.filter_eq_nil_iff]
  intro x hx hw
  simp only [within, Bool.and_eq_true, decide_eq_true_eq] at hw
  exact NaiveDate.not_lt.2 hw.2 (h x hx)

theorem mem_of_mem_scan {seen : Nat} {l : List NaiveDate} {x : NaiveDate}
    (h : x ∈ rule.scan seen l) : x ∈ l := (scan_isPrefix rule seen l).subset h

/-- The walk from date to date keeps what it comes to before it leaves the window. -/
theorem dateLoop_eq (steps : Nat) (date : NaiveDate) (seen : Nat) (out : List NaiveDate) :
    dateLoop rule start «from» «to» steps date seen out =
      out ++ ((rule.scan seen (dateWalk rule.freq rule.interval start steps date)).takeWhile
        (· ≤ «to»)).filter («from» ≤ ·) := by
  induction steps generalizing date seen out with
  | zero => simp [dateLoop, dateWalk]
  | succ steps ih =>
    unfold dateLoop
    rw [dateWalk, scan_cons]
    by_cases hto : «to» < date
    · rw [if_pos hto]
      split
      · simp
      · rw [List.takeWhile_cons_of_neg (by simpa using fun h => NaiveDate.not_lt.2 h hto),
          List.filter_nil, List.append_nil]
    · rw [if_neg hto]
      split
      · simp
      · rw [List.takeWhile_cons_of_pos (by simpa using NaiveDate.not_lt.1 hto)]
        have hout : ∀ rest : List NaiveDate,
            (if «from» ≤ date then out ++ [date] else out) ++ rest.filter («from» ≤ ·) =
              out ++ (date :: rest).filter («from» ≤ ·) := by
          intro rest
          by_cases hf : «from» ≤ date
          · simp [hf]
          · simp [hf]
        cases hadv : advance date rule.freq rule.interval start with
        | some next => simp only [ih, hout]
        | none =>
          have hone := hout []
          rw [List.filter_nil, List.append_nil] at hone
          simpa using hone

theorem scan_append_of_stop {seen : Nat} {l : List NaiveDate} (m : List NaiveDate)
    (h : (rule.scan seen l).length < l.length) : rule.scan seen (l ++ m) = rule.scan seen l := by
  induction l generalizing seen with
  | nil => exact absurd h (Nat.lt_irrefl _)
  | cons x l ih =>
    rw [List.cons_append, scan_cons, scan_cons]
    rw [scan_cons] at h
    split
    · rfl
    · next hx =>
      rw [if_neg hx, List.length_cons, List.length_cons] at h
      rw [ih (Nat.lt_of_succ_lt_succ h)]

theorem scan_append_of_pass {seen : Nat} {l : List NaiveDate} (m : List NaiveDate)
    (h : rule.scan seen l = l) : rule.scan seen (l ++ m) = l ++ rule.scan (seen + l.length) m := by
  induction l generalizing seen with
  | nil => rfl
  | cons x l ih =>
    rw [scan_cons] at h
    rw [List.cons_append, scan_cons]
    split at h
    · cases h
    · next hx =>
      rw [if_neg hx, ih (List.cons.inj h).2, List.length_cons, List.cons_append,
        Nat.add_right_comm, Nat.add_assoc]

/-- One week of the walk: it returns inside the week, or goes on behind it. -/
theorem weekDays_spec {seen : Nat} {out : List NaiveDate}
    {res : List NaiveDate ⊕ (Nat × List NaiveDate)}
    (h : weekDays rule start «from» «to» week days seen out = some res) :
    ((rule.scan seen (weekDates days start week)).length < (weekDates days start week).length ∧
        res = .inl (out ++ (rule.scan seen (weekDates days start week)).filter
          (within «from» «to»))) ∨
      (rule.scan seen (weekDates days start week) = weekDates days start week ∧
        res = .inr (seen + (weekDates days start week).length,
          out ++ (weekDates days start week).filter (within «from» «to»))) := by
  induction days generalizing seen out with
  | nil =>
    simp only [weekDays, Option.some.injEq] at h
    subst h
    right
    simp [weekDates]
  | cons d days ih =>
    unfold weekDays at h
    split at h
    · cases h
    · next date hdate =>
      by_cases hlt : date < start
      · rw [if_pos hlt] at h
        have hskip : weekDates (d :: days) start week = weekDates days start week := by
          unfold weekDates
          simp [hdate, mt NaiveDate.not_lt.2 (not_not.2 hlt)]
        rw [hskip]
        exact ih h
      · rw [if_neg hlt] at h
        have hkeep : weekDates (d :: days) start week = date :: weekDates days start week := by
          unfold weekDates
          simp [hdate, NaiveDate.not_lt.1 hlt]
        rw [hkeep]
        by_cases hend : rule.ended seen date = true
        · rw [if_pos hend, Option.some.injEq] at h
          subst h
          left
          simp [scan_cons, hend]
        · rw [if_neg hend] at h
          have hout : ∀ rest : List NaiveDate,
              (if «from» ≤ date ∧ date ≤ «to» then out ++ [date] else out) ++
                rest.filter (within «from» «to») =
              out ++ (date :: rest).filter (within «from» «to») := by
            intro rest
            by_cases hf : «from» ≤ date ∧ date ≤ «to»
            · simp [hf, within]
            · have hw : within «from» «to» date = false := by
                rw [Bool.eq_false_iff]
                simpa [within] using hf
              simp [hf, hw]
          rw [scan_cons, if_neg hend]
          rcases ih h with ⟨hlen, hres⟩ | ⟨hscan, hres⟩
          · left
            exact ⟨by simpa using hlen, by rw [hres, hout]⟩
          · right
            refine ⟨by rw [hscan], ?_⟩
            rw [hres, hout, List.length_cons, Nat.add_assoc, Nat.add_comm 1]

/-- The weekly walk keeps what the window shows of the series; where it runs out it
sorts. -/
theorem weekLoop_eq {steps seen : Nat} {out res : List NaiveDate}
    (h : weekLoop rule days start «from» «to» steps week seen out = some res) :
    res = out ++ (rule.scan seen (weekWalk rule.interval days start steps week)).filter
        (within «from» «to») ∨
      res = sortDates (out ++ (rule.scan seen (weekWalk rule.interval days start steps week)).filter
        (within «from» «to»)) := by
  induction steps generalizing week seen out with
  | zero =>
    rw [weekLoop, Option.some.injEq] at h
    subst h
    right
    simp [weekWalk]
  | succ steps ih =>
    unfold weekLoop at h
    by_cases hto : «to» < week
    · rw [if_pos hto, Option.some.injEq] at h
      subst h
      right
      rw [filter_within_eq_nil, List.append_nil]
      intro x hx
      exact NaiveDate.lt_of_lt_of_le hto (le_of_mem_weekWalk (mem_of_mem_scan hx))
    · rw [if_neg hto] at h
      unfold weekWalk
      cases hdays : weekDays rule start «from» «to» week days seen out with
      | none =>
        rw [hdays] at h
        cases h
      | some stepped =>
        rw [hdays] at h
        rcases weekDays_spec hdays with ⟨hlen, rfl⟩ | ⟨hscan, rfl⟩
        · left
          rw [scan_append_of_stop _ hlen]
          exact (Option.some.inj h).symm
        · simp only at h
          split at h
          · cases h
          · next next hnext =>
            rw [hnext]
            simp only
            rw [scan_append_of_pass _ hscan, List.filter_append, ← List.append_assoc]
            exact ih h

theorem ascending_ext {l m : List NaiveDate} (hl : Ascending l) (hm : Ascending m)
    (h : ∀ x, x ∈ l ↔ x ∈ m) : l = m := by
  have hne : ∀ {k : List NaiveDate}, Ascending k → k.Nodup := fun hk =>
    hk.imp fun hab => NaiveDate.ne_of_lt hab
  refine List.Perm.eq_of_pairwise (fun a b _ _ hab hba => ?_) hl hm
    ((List.perm_ext_iff_of_nodup (hne hl) (hne hm)).2 h)
  exact absurd (NaiveDate.lt_trans hab hba) (NaiveDate.lt_irrefl a)

/-- Of dates in order, those before the first past the window are those not past it. -/
theorem filter_takeWhile_eq {l : List NaiveDate} (h : Ascending l) :
    (l.takeWhile (· ≤ «to»)).filter («from» ≤ ·) = l.filter (within «from» «to») := by
  induction l with
  | nil => rfl
  | cons x l ih =>
    obtain ⟨hx, hl⟩ := List.pairwise_cons.1 h
    by_cases hto : «to» < x
    · have hpast : ∀ y ∈ x :: l, «to» < y := by
        intro y hy
        rcases List.mem_cons.1 hy with rfl | hy
        · exact hto
        · exact NaiveDate.lt_trans hto (hx y hy)
      rw [List.takeWhile_cons_of_neg (by simpa using fun h => NaiveDate.not_lt.2 h hto),
        filter_within_eq_nil hpast]
      rfl
    · have hle := NaiveDate.not_lt.1 hto
      have hw : within «from» «to» x = decide («from» ≤ x) := by simp [within, hle]
      rw [List.takeWhile_cons_of_pos (by simpa using hle), List.filter_cons, List.filter_cons, hw,
        ih hl]

theorem ascending_weekly (hpos : 0 < rule.interval) (hw : rule.weekly) (start : NaiveDate) :
    Ascending (rule.candidates start) := by
  unfold Rule.candidates
  rw [if_pos hw]
  split
  · exact List.Pairwise.nil
  · exact ascending_weekWalk hpos (pairwise_weekOrder rule) _ _

/-- What the walk returns for a window, in order: what it comes to of the series before it
leaves the window. -/
theorem walk_spec (hpos : 0 < rule.interval) {out : List NaiveDate}
    (h : rule.walk start «from» «to» = some out) :
    Ascending out ∧
      ∀ x, x ∈ out ↔ x ∈ (rule.series start).takeWhile (· ≤ «to») ∧ «from» ≤ x := by
  unfold Rule.walk at h
  by_cases hw : rule.weekly
  · have hasc : Ascending (rule.series start) :=
      (ascending_weekly hpos hw start).sublist (scan_isPrefix rule 0 _).sublist
    have hout : out = ((rule.series start).takeWhile (· ≤ «to»)).filter («from» ≤ ·) := by
      rw [filter_takeWhile_eq hasc]
      unfold Rule.series Rule.candidates at hasc ⊢
      rw [if_pos hw] at hasc ⊢
      rw [if_pos (show rule.freq = .weekly ∧ rule.byDay ≠ [] from hw)] at h
      cases hweek : start.addDays (-start.daysFromMonday) with
      | none =>
        rw [hweek] at h
        cases h
      | some week =>
        rw [hweek] at h hasc
        rcases weekLoop_eq h with rfl | rfl
        · rw [List.nil_append]
        · rw [List.nil_append]
          exact sortDates_of_ascending (hasc.filter _)
    refine ⟨?_, fun x => ?_⟩
    · rw [hout]
      exact (hasc.sublist (List.takeWhile_sublist _)).filter _
    · rw [hout, List.mem_filter, decide_eq_true_iff]
  · rw [if_neg (show ¬ (rule.freq = .weekly ∧ rule.byDay ≠ []) from hw), Option.some.injEq,
      dateLoop_eq, List.nil_append] at h
    have hseries : rule.series start =
        rule.scan 0 (dateWalk rule.freq rule.interval start maxSteps start) := by
      unfold Rule.series Rule.candidates
      rw [if_neg hw]
    rw [← h, hseries]
    refine ⟨(sortDates_spec _).1, fun x => ?_⟩
    rw [mem_sortDates, List.mem_filter, decide_eq_true_iff]

/-- What the walk returns for a window is the series cut to the window. -/
theorem walk_eq (hs : rule.Steady) {out : List NaiveDate}
    (h : rule.walk start «from» «to» = some out) :
    out = (rule.series start).filter (within «from» «to») := by
  obtain ⟨hasc, hmem⟩ := walk_spec hs.pos h
  have hseries := ascending_series hs start
  refine ascending_ext hasc (hseries.filter _) fun x => ?_
  rw [hmem, ← filter_takeWhile_eq hseries, List.mem_filter, decide_eq_true_iff]

/-! ### Ending a rule before one of its dates -/

variable {d last : NaiveDate}

/-- A week of the walk does not leave chrono's range where its days are within it. -/
theorem weekDays_isSome {seen : Nat} {out : List NaiveDate}
    (h : ∀ e ∈ days, week.days + e.numDaysFromMonday ≤ NaiveDate.maxDay) :
    ∃ r, weekDays rule start «from» «to» week days seen out = some r := by
  induction days generalizing seen out with
  | nil => exact ⟨_, rfl⟩
  | cons e days ih =>
    have hin : NaiveDate.minDay ≤ week.days + e.numDaysFromMonday ∧
        week.days + e.numDaysFromMonday ≤ NaiveDate.maxDay := by
      have hle := h e List.mem_cons_self
      have hw := week.inRange.1
      exact ⟨by omega, hle⟩
    have hdate : week.addDays e.numDaysFromMonday = some ⟨_, hin⟩ :=
      NaiveDate.addDays_eq_some.2 rfl
    unfold weekDays
    rw [hdate]
    simp only
    split
    · exact ih fun e he => h e (List.mem_cons_of_mem _ he)
    · split
      · exact ⟨_, rfl⟩
      · exact ih fun e he => h e (List.mem_cons_of_mem _ he)

end Arlen.Calendar
