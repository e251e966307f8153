import Arlen.Calendar.Overflow

/-!
# What an expansion holds

For a rule whose walk fits, a window shows exactly the members of the rule within it, as long
as fewer periods than the walk has steps lie between the start and the end of the window. And
the dates shown are on the weekdays the rule names, where the frequency heeds them.
-/

namespace Arlen.Calendar

open Arlen.Lib

variable {value : List Char} {rule : Rule} {start «from» «to» x : NaiveDate}

/-! ### The window and the members -/

theorem steady_of_interval_le (hpos : 0 < rule.interval) (hle : rule.interval ≤ 1000) :
    rule.Steady :=
  ⟨hpos, fun _ => by omega⟩

/-- A day before another is no more periods from the start. -/
theorem fewPeriods_of_le (hfreq : rule.freq ≠ .yearly) (hle : x ≤ «to»)
    (hon : rule.OnGrid start.days x.days) (h : rule.FewPeriods start.days «to».days) :
    rule.FewPeriods start.days x.days := by
  have hdays := NaiveDate.le_def.1 hle
  unfold Rule.FewPeriods at h ⊢
  cases hf : rule.freq with
  | daily =>
    rw [hf] at h
    exact lt_of_le_of_lt hdays h
  | weekly =>
    rw [hf] at h
    simp only at h ⊢
    split at h
    · next hday =>
      rw [if_pos hday]
      exact lt_of_le_of_lt hdays h
    · next hday =>
      rw [if_neg hday]
      exact lt_of_le_of_lt hdays h
  | monthly =>
    rw [hf] at h
    simp only at h ⊢
    have hmono := monthIndex_mono hle
    rcases h with hlt | ⟨heq, hlt⟩
    · exact Or.inl (lt_of_le_of_lt hmono hlt)
    · -- the member's day is the start's, so it lies in an earlier month than the window's end
      left
      rcases lt_or_eq_of_le hmono with hlt' | heq'
      · exact lt_of_lt_of_eq hlt' heq
      · unfold Rule.OnGrid at hon
        rw [hf] at hon
        have hsame : x.month = «to».month ∧ x.year = «to».year := by
          have h₁ := x.monthIndex_eq
          have h₂ := «to».monthIndex_eq
          have h₃ := x.valid
          have h₄ := «to».valid
          have := h₃.1
          have := h₃.2.1
          have := h₄.1
          have := h₄.2.1
          omega
        have hx := x.dayNumber_eq
        have hto := «to».dayNumber_eq
        rw [hsame.1, hsame.2] at hx
        unfold Civil.dayNumber at hx hto
        have hd : x.day = start.day := hon.2.1
        have hlt : «to».day < start.day := hlt
        omega
  | yearly => exact absurd hf hfreq

/-- **A window shows the members of the rule within it**, in order and nothing else. -/
theorem expand_eq_members (hrule : parseRule value = some rule) (hfreq : rule.freq ≠ .yearly)
    (hinterval : rule.interval ≤ 1000) (hfew : rule.FewPeriods start.days «to».days)
    (hfits : rule.Fits start «to») :
    ∃ out, expand value start «from» «to» = some (some out) ∧ Ascending out ∧
      ∀ d, d ∈ out ↔ («from» ≤ d ∧ d ≤ «to») ∧ rule.Member start.days d.days := by
  obtain ⟨hpos, hcount⟩ := parseRule_pos hrule
  have hs := steady_of_interval_le hpos hinterval
  unfold expand
  rw [hrule]
  simp only
  by_cases hlt : «to» < «from»
  · rw [if_pos hlt]
    refine ⟨[], rfl, List.Pairwise.nil, fun d => ?_⟩
    constructor
    · intro hd
      cases hd
    · rintro ⟨⟨h₁, h₂⟩, -⟩
      exact absurd hlt (NaiveDate.not_lt.2 (NaiveDate.le_trans h₁ h₂))
  rw [if_neg hlt]
  obtain ⟨out, hout⟩ := (@walkChecked_isSome_iff _ _ «from» _ hpos hcount).2 hfits
  have hwalk := walk_of_checked hout
  have hmonday : rule.freq = .weekly → rule.byDay ≠ [] →
      NaiveDate.minDay ≤ mondayOf start.days := by
    intro hf hd
    unfold Rule.Fits at hfits
    rw [if_pos (show rule.weekly from ⟨hf, hd⟩)] at hfits
    exact hfits.monday
  have heq := walk_eq hs hwalk
  refine ⟨out, by rw [hwalk]; rfl, ?_, fun d => ?_⟩
  · rw [heq]
    exact (ascending_series hs start).filter _
  rw [heq, List.mem_filter, and_comm]
  have hwithin : within «from» «to» d = true ↔ «from» ≤ d ∧ d ≤ «to» := by
    unfold within
    rw [Bool.and_eq_true, decide_eq_true_iff, decide_eq_true_iff]
  rw [hwithin]
  refine and_congr_right fun hd => ?_
  refine mem_scan_iff_member (ascending_candidates hs start)
    (fun e he => onGrid_of_mem_candidates hs hfreq he) fun e he hed => ?_
  exact mem_candidates_of_onGrid hs hfreq hmonday he
    (fewPeriods_of_le hfreq (NaiveDate.le_trans hed hd.2) he hfew)

def mondays : Rule :=
  { freq := .weekly, interval := 2, byDay := [.wed, .mon], count := some 3, «until» := none }

theorem parseRule_mondays :
    parseRule "FREQ=WEEKLY;INTERVAL=2;BYDAY=WE,MO;COUNT=3".toList = some mondays := by
  decide

theorem spring_inRange : NaiveDate.minDay ≤ 719222 ∧ (719222 : Int) ≤ NaiveDate.maxDay := by decide

/-- Sixty days after the first of January 1970. -/
def spring : NaiveDate := ⟨719222, spring_inRange⟩

theorem member_mondays_iff {n : Int} : mondays.Member NaiveDate.epoch.days n ↔
    mondays.OnGrid NaiveDate.epoch.days n ∧ mondays.earlier NaiveDate.epoch.days n < 3 := by
  constructor
  · rintro ⟨hgrid, -, hcount⟩
    exact ⟨hgrid, hcount 3 rfl⟩
  · rintro ⟨hgrid, hcount⟩
    refine ⟨hgrid, fun u hu => ?_, fun c hc => ?_⟩
    · cases hu
    · cases hc
      exact hcount

/-- Every other week's Mondays and Wednesdays, three of them: the 12th, the 14th and the 26th of
January, and not the 28th. -/
theorem mondays_eq_members : ∃ out,
    expand "FREQ=WEEKLY;INTERVAL=2;BYDAY=WE,MO;COUNT=3".toList .epoch yearBefore spring =
        some (some out) ∧ Ascending out ∧
      (∀ n ∈ [719173, 719175, 719187], ∃ d ∈ out, d.days = n) ∧ ∀ d ∈ out, d.days ≠ 719189 := by
  have hfew : mondays.FewPeriods NaiveDate.epoch.days spring.days := by
    show spring.days < mondayOf NaiveDate.epoch.days + maxSteps * (7 * mondays.interval)
    decide
  have hfits : mondays.Fits .epoch spring := by
    unfold Rule.Fits
    rw [if_pos (by decide)]
    exact ⟨by decide, Or.inl (by decide)⟩
  obtain ⟨out, hout, hascending, hmem⟩ :=
    @expand_eq_members _ _ .epoch yearBefore spring parseRule_mondays (by decide) (by decide) hfew hfits
  have hmembers : ∀ n ∈ [719173, 719175, 719187], mondays.OnGrid NaiveDate.epoch.days n ∧
      mondays.earlier NaiveDate.epoch.days n < 3 := by decide +kernel
  have hwindow : ∀ n ∈ [719173, 719175, 719187], yearBefore.days ≤ n ∧ n ≤ spring.days := by decide
  have hfourth : ¬ mondays.earlier NaiveDate.epoch.days 719189 < 3 := by decide +kernel
  refine ⟨out, hout, hascending, fun n hn => ?_, fun d hd heq => ?_⟩
  · obtain ⟨hafter, hbefore⟩ := hwindow n hn
    have hin := And.intro (le_trans yearBefore.inRange.1 hafter) (le_trans hbefore spring.inRange.2)
    exact ⟨⟨n, hin⟩, (hmem ⟨n, hin⟩).2 ⟨⟨hafter, hbefore⟩, member_mondays_iff.2 (hmembers n hn)⟩, rfl⟩
  · have hcount := (member_mondays_iff.1 ((hmem d).1 hd).2).2
    rw [heq] at hcount
    exact hfourth hcount

/-! ### The walk's last step -/

def everyDay : Rule :=
  { freq := .daily, interval := 1, byDay := [], count := none, «until» := none }

theorem lastDay_inRange : NaiveDate.minDay ≤ 739162 ∧ (739162 : Int) ≤ NaiveDate.maxDay := by
  decide

/-- Twenty thousand days after the first of January 1970. -/
def lastDay : NaiveDate := ⟨739162, lastDay_inRange⟩

/-- A daily rule does not come to the day its twenty-thousandth period ends on. -/
theorem last_period_missed :
    lastDay.days = NaiveDate.epoch.days + 20000 * everyDay.interval ∧
      everyDay.Member NaiveDate.epoch.days lastDay.days ∧
      expand "FREQ=DAILY".toList .epoch lastDay lastDay = some (some []) := by
  have hmember : everyDay.Member NaiveDate.epoch.days lastDay.days := by
    refine ⟨⟨by decide, ⟨20000, by decide⟩⟩, fun u hu => ?_, fun c hc => ?_⟩
    · cases hu
    · cases hc
  refine ⟨by decide, hmember, ?_⟩
  have hrule : parseRule "FREQ=DAILY".toList = some everyDay := by decide
  have hs : everyDay.Steady := steady_of_interval_le (by decide) (by decide)
  have hwalk : everyDay.walk .epoch lastDay lastDay =
      some (sortDates (dateLoop everyDay .epoch lastDay lastDay maxSteps .epoch 0 [])) := by
    unfold Rule.walk
    rw [if_neg (by decide)]
  have hout := walk_eq hs hwalk
  have hempty : (everyDay.series .epoch).filter (within lastDay lastDay) = [] := by
    rw [List.filter_eq_nil_iff]
    intro x hx hwin
    have hcand := mem_of_mem_scan hx
    rw [candidates_dates (by decide)] at hcand
    obtain ⟨k, hk, hxk⟩ := (mem_dateWalk_of_addDays (c := 1) (by decide) fun _ => rfl).1 hcand
    have hle : lastDay ≤ x := by
      unfold within at hwin
      rw [Bool.and_eq_true, decide_eq_true_iff] at hwin
      exact hwin.1
    have hle : (739162 : Int) ≤ x.days := hle
    have hxk : x.days = 719162 + k * 1 := hxk
    have hk : k < 20000 := hk
    omega
  unfold expand
  rw [hrule]
  simp only
  rw [if_neg (by decide), hwalk, hout, hempty]
  rfl

/-! ### The weekdays a rule names -/

/-- A part the calendar models. -/
def Modelled (part : List Char) : Prop :=
  ∃ name v, Text.splitOnce '=' part = some (name, v) ∧
    (Text.toUppercase (Text.trim name) ∈
        ["FREQ".toList, "INTERVAL".toList, "COUNT".toList, "UNTIL".toList, "BYDAY".toList] ∨
      Text.toUppercase (Text.trim name) = "WKST".toList ∧
        Text.eqIgnoreAsciiCase (Text.trim v) "MO".toList = true)

theorem parsePart_of_foreign {part : List Char} (h : ¬ Modelled part) (r : RuleParts) :
    parsePart r part = none := by
  unfold parsePart
  cases hsplit : Text.splitOnce '=' part with
  | none => rfl
  | some nv =>
    obtain ⟨name, v⟩ := nv
    have hnames : Text.toUppercase (Text.trim name) ∉
        ["FREQ".toList, "INTERVAL".toList, "COUNT".toList, "UNTIL".toList, "BYDAY".toList] :=
      fun hname => h ⟨name, v, hsplit, Or.inl hname⟩
    have hwkst := fun hw => h ⟨name, v, hsplit, Or.inr hw⟩
    simp only [List.mem_cons, List.not_mem_nil, or_false, not_or] at hnames
    obtain ⟨hfreq, hinterval, hcount, huntil, hbyDay⟩ := hnames
    simp only [if_neg hfreq, if_neg hinterval, if_neg hcount, if_neg huntil, if_neg hbyDay]
    exact if_neg hwkst

theorem foldlM_parsePart_of_foreign {parts : List (List Char)} {part : List Char}
    (hpart : part ∈ parts) (h : ¬ Modelled part) (r : RuleParts) :
    parts.foldlM parsePart r = none := by
  induction parts generalizing r with
  | nil => cases hpart
  | cons p parts ih =>
    rw [List.foldlM_cons]
    rcases List.mem_cons.1 hpart with rfl | hpart
    · rw [parsePart_of_foreign h]
      rfl
    · cases parsePart r p with
      | none => rfl
      | some r' => exact ih hpart r'

/-- One part that is not modelled refuses the rule. -/
theorem parseRule_of_foreign {part : List Char} (hpart : part ∈ ruleParts value)
    (h : ¬ Modelled part) : parseRule value = none := by
  unfold parseRule
  rw [foldlM_parsePart_of_foreign hpart h]
  rfl

/-- Every date an expansion of the rule can show is on a weekday it names. -/
def Rule.KeepsDays (rule : Rule) (value : List Char) : Prop :=
  ∀ start «from» «to» out, expand value start «from» «to» = some (some out) →
    ∀ d ∈ out, rule.Names d.days

theorem names_of_mem_weekDays {days : List Weekday} (hdays : ∀ w ∈ days, w ∈ rule.byDay)
    {week : NaiveDate} (hweek : week.days % 7 = 0) {seen : Nat} {out : List NaiveDate}
    {res : List NaiveDate ⊕ (Nat × List NaiveDate)}
    (h : weekDays rule start «from» «to» week days seen out = some res)
    (hout : ∀ d ∈ out, rule.Names d.days) : ∀ d ∈ res.elim id Prod.snd, rule.Names d.days := by
  induction days generalizing seen out with
  | nil =>
    cases h
    exact hout
  | cons w days ih =>
    have hdays' := fun v hv => hdays v (List.mem_cons_of_mem _ hv)
    unfold weekDays at h
    split at h
    · cases h
    · next date hdate =>
      split at h
      · exact ih hdays' h hout
      · split at h
        · cases h
          exact hout
        · refine ih hdays' h fun d hd => ?_
          split at hd
          · rcases List.mem_append.1 hd with hd | hd
            · exact hout d hd
            · rw [List.mem_singleton.1 hd]
              have hn := NaiveDate.addDays_eq_some.1 hdate
              have hw := w.num_lt
              exact ⟨w, hdays w List.mem_cons_self, by omega⟩
          · exact hout d hd

theorem names_of_mem_weekLoop {days : List Weekday} (hdays : ∀ w ∈ days, w ∈ rule.byDay)
    {week : NaiveDate} (hweek : week.days % 7 = 0) {steps seen : Nat} {out res : List NaiveDate}
    (h : weekLoop rule days start «from» «to» steps week seen out = some res)
    (hout : ∀ d ∈ out, rule.Names d.days) : ∀ d ∈ res, rule.Names d.days := by
  induction steps generalizing week seen out with
  | zero =>
    cases h
    exact fun d hd => hout d (mem_sortDates.1 hd)
  | succ steps ih =>
    unfold weekLoop at h
    split at h
    · cases h
      exact fun d hd => hout d (mem_sortDates.1 hd)
    · split at h
      · cases h
      · next stopped hstop =>
        cases h
        exact names_of_mem_weekDays hdays hweek hstop hout
      · next seen' out' hpass =>
        split at h
        · cases h
        · next next hnext =>
          have hn := NaiveDate.addDays_eq_some.1 hnext
          exact ih (by omega) h (names_of_mem_weekDays hdays hweek hpass hout)

/-- The dates of a walk from date to date are up to `UNTIL`. -/
theorem le_until_of_mem_dateLoop {steps seen : Nat} {date u : NaiveDate} {out : List NaiveDate}
    (hu : rule.until = some u) (hout : ∀ d ∈ out, d ≤ u) :
    ∀ d ∈ dateLoop rule start «from» «to» steps date seen out, d ≤ u := by
  induction steps generalizing date seen out with
  | zero => exact hout
  | succ steps ih =>
    unfold dateLoop
    split
    · exact hout
    · split
      · exact hout
      · next hend =>
        have hout' : ∀ d ∈ (if «from» ≤ date then out ++ [date] else out), d ≤ u := by
          intro d hd
          split at hd
          · rcases List.mem_append.1 hd with hd | hd
            · exact hout d hd
            · rw [List.mem_singleton.1 hd]
              exact le_until_of_not_ended hend hu
          · exact hout d hd
        simp only
        split
        · exact ih hout'
        · exact hout'

/-- The start is an occurrence of a rule that does not walk by weeks. -/
theorem start_mem_dateLoop (hcount : rule.count ≠ some 0)
    (huntil : ∀ u, rule.until = some u → start ≤ u) {steps : Nat} :
    start ∈ dateLoop rule start start start (steps + 1) start 0 [] := by
  have hend : ¬ rule.ended 0 start = true := by
    rw [ended_iff, not_or]
    constructor
    · rintro ⟨u, hu, hlt⟩
      exact NaiveDate.not_lt.2 (huntil u hu) hlt
    · rintro ⟨c, hc, hlt⟩
      rw [Nat.lt_one_iff.1 hlt] at hc
      exact hcount hc
  have hkeep : ∀ (steps : Nat) (date : NaiveDate) (seen : Nat) (out : List NaiveDate),
      start ∈ out → start ∈ dateLoop rule start start start steps date seen out := by
    intro steps
    induction steps with
    | zero => exact fun date seen out h => h
    | succ steps ih =>
      intro date seen out h
      unfold dateLoop
      split
      · exact h
      · split
        · exact h
        · have hout : start ∈ (if start ≤ date then out ++ [date] else out) := by
            split
            · exact List.mem_append_left _ h
            · exact h
          simp only
          split
          · exact ih _ _ _ hout
          · exact hout
  have hself : start ∈ (if start ≤ start then ([] : List NaiveDate) ++ [start] else []) := by
    rw [if_pos (NaiveDate.le_refl start)]
    exact List.mem_singleton_self start
  unfold dateLoop
  rw [if_neg (NaiveDate.lt_irrefl start), if_neg hend]
  simp only
  split
  · exact hkeep _ _ _ _ hself
  · exact hself

theorem keepsDays_iff (hrule : parseRule value = some rule) (hdays : rule.byDay ≠ []) :
    rule.KeepsDays value ↔ rule.freq = .weekly ∨
      ∀ d : NaiveDate, (∀ u, rule.until = some u → d ≤ u) → rule.Names d.days := by
  have hcount := (parseRule_pos hrule).2
  by_cases hweekly : rule.freq = .weekly
  · refine ⟨fun _ => Or.inl hweekly, fun _ start a b out h => ?_⟩
    unfold expand at h
    rw [hrule] at h
    simp only at h
    split at h
    · cases h
      exact List.forall_mem_nil _
    · obtain ⟨res, hres, h⟩ := Option.map_eq_some_iff.1 h
      cases h
      unfold Rule.walk at hres
      rw [if_pos ⟨hweekly, hdays⟩] at hres
      split at hres
      · cases hres
      · next week hweek =>
        have hmonday := addDays_monday.1 hweek
        refine names_of_mem_weekLoop (fun w hw => mem_weekOrder.1 hw) ?_ hres (List.forall_mem_nil _)
        unfold mondayOf at hmonday
        omega
  · have hnot : ¬ (rule.freq = .weekly ∧ rule.byDay ≠ []) := fun h => hweekly h.1
    constructor
    · intro hkeeps
      refine Or.inr fun d hd => ?_
      refine hkeeps d d d (sortDates (dateLoop rule d d d maxSteps d 0 [])) ?_ d
        (mem_sortDates.2 (@start_mem_dateLoop _ _ hcount hd 19999))
      unfold expand
      rw [hrule]
      simp only [if_neg (NaiveDate.lt_irrefl d)]
      unfold Rule.walk
      rw [if_neg hnot]
      rfl
    · rintro (hfreq | hnames)
      · exact absurd hfreq hweekly
      · intro start a b out h d hd
        refine hnames d fun u hu => ?_
        unfold expand at h
        rw [hrule] at h
        simp only at h
        split at h
        · cases h
          cases hd
        · obtain ⟨res, hres, h⟩ := Option.map_eq_some_iff.1 h
          cases h
          unfold Rule.walk at hres
          rw [if_neg hnot] at hres
          cases hres
          exact le_until_of_mem_dateLoop hu (List.forall_mem_nil _) d (mem_sortDates.1 hd)

/-- **A rule is refused rather than half-applied** exactly if its frequency is weekly or its
list names the weekday of every date up to `UNTIL`. -/
theorem refused_or_kept_iff (value : List Char) :
    ((∀ rule, parseRule value = some rule → rule.byDay ≠ [] → rule.KeepsDays value) ∧
        ((∃ part ∈ ruleParts value, ¬ Modelled part) →
          ∀ start «from» «to», expand value start «from» «to» = some none)) ↔
      ∀ rule, parseRule value = some rule → rule.byDay ≠ [] →
        rule.freq = .weekly ∨
          ∀ d : NaiveDate, (∀ u, rule.until = some u → d ≤ u) → rule.Names d.days := by
  constructor
  · rintro ⟨hkeeps, -⟩ rule hrule hdays
    exact (keepsDays_iff hrule hdays).1 (hkeeps rule hrule hdays)
  · intro h
    refine ⟨fun rule hrule hdays => (keepsDays_iff hrule hdays).2 (h rule hrule hdays), ?_⟩
    rintro ⟨part, hpart, hforeign⟩ start a b
    unfold expand
    rw [parseRule_of_foreign hpart hforeign]

def mondayMonths : Rule :=
  { freq := .monthly, interval := 1, byDay := [.mon], count := none, «until» := none }

/-- A monthly rule on Mondays gives the Thursday it starts on. -/
theorem thursday_of_mondayMonths :
    parseRule "FREQ=MONTHLY;BYDAY=MO".toList = some mondayMonths ∧
      ∃ out, expand "FREQ=MONTHLY;BYDAY=MO".toList .epoch .epoch .epoch = some (some out) ∧
        NaiveDate.epoch ∈ out ∧ NaiveDate.epoch.daysFromMonday = 3 := by
  have hrule : parseRule "FREQ=MONTHLY;BYDAY=MO".toList = some mondayMonths := by decide
  have hstart : NaiveDate.epoch ∈ dateLoop mondayMonths .epoch .epoch .epoch (19999 + 1) .epoch 0 [] := by
    refine start_mem_dateLoop (by decide) fun u hu => ?_
    cases hu
  refine ⟨hrule, sortDates (dateLoop mondayMonths .epoch .epoch .epoch maxSteps .epoch 0 []), ?_,
    mem_sortDates.2 hstart, by decide⟩
  unfold expand
  rw [hrule]
  simp only [if_neg (NaiveDate.lt_irrefl _)]
  unfold Rule.walk
  rw [if_neg (by decide)]
  rfl

end Arlen.Calendar
