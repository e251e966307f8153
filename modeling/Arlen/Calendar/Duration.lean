import Arlen.Calendar.When

/-!
# Where reading a file leaves its numbers

A duration is summed in an `i64` and added to a date chrono has to hold, and an alarm takes
its trigger as a `Duration`. `parseDurationChecked` is `parse_duration` with every `i64` it
computes checked; `durationTotal` is the exact sum of the parts it reads. The reader passes
every line of a file safely exactly if each line fits the state it is read in.
-/

namespace Arlen.Calendar

open Arlen.Lib

/-! ### Durations -/

/-- The number as an `i64`, where it is one. -/
def checkedI64 (n : Int) : Option Int := if -2 ^ 63 ≤ n ∧ n < 2 ^ 63 then some n else none

/-- `durationPart`, checked: the outer option is an overflow. -/
def durationPartChecked (unit : Char → Option Int) : List Char → Int → List Char →
    Option (Option Int)
  | ds, total, [] => some (if ds = [] then some total else none)
  | ds, total, c :: cs =>
    if c.isDigit then durationPartChecked unit (ds ++ [c]) total cs
    else
      match parseI64 ds, unit c with
      | some n, some k =>
        (checkedI64 (n * k)).bind fun m =>
          (checkedI64 (total + m)).bind fun total => durationPartChecked unit [] total cs
      | _, _ => some none

/-- The sign of a duration and what follows it. -/
def durationSign (v : List Char) : Int × List Char :=
  match v with
  | '-' :: rest => (-1, rest)
  | '+' :: rest => (1, rest)
  | v => (1, v)

/-- The date part and the time part behind the `P`. -/
def durationParts (v : List Char) : List Char × Option (List Char) :=
  match Text.splitOnce 'T' v with
  | some (d, t) => (d, some t)
  | none => (v, none)

/-- `parse_duration`, checked. -/
def parseDurationChecked (value : List Char) : Option (Option Int) :=
  let (sign, v) := durationSign (Text.trim value)
  match v with
  | 'P' :: v =>
    let (datePart, timePart) := durationParts v
    (durationPartChecked dateUnit [] 0 datePart).bind fun
      | none => some none
      | some total =>
        (match timePart with
          | none => some (some total)
          | some t => durationPartChecked timeUnit [] total t).bind fun
          | none => some none
          | some total => (checkedI64 (sign * total)).map some
  | _ => some none

/-- The exact sum of the parts read before the reading stops. -/
def partTotal (unit : Char → Option Int) : List Char → List Char → Int
  | _, [] => 0
  | ds, c :: cs =>
    if c.isDigit then partTotal unit (ds ++ [c]) cs
    else
      match parseI64 ds, unit c with
      | some n, some k => n * k + partTotal unit [] cs
      | _, _ => 0

/-- The exact sum of a duration's parts; the time part is read behind a whole date part. -/
def durationTotal (value : List Char) : Int :=
  match (durationSign (Text.trim value)).2 with
  | 'P' :: v =>
    partTotal dateUnit [] (durationParts v).1 +
      if (durationPart dateUnit [] 0 (durationParts v).1).isSome then
        ((durationParts v).2.map (partTotal timeUnit [])).getD 0
      else 0
  | _ => 0

variable {unit : Char → Option Int} {ds cs : List Char} {total : Int}

theorem checkedI64_eq_some {n m : Int} :
    checkedI64 n = some m ↔ m = n ∧ -2 ^ 63 ≤ n ∧ n < 2 ^ 63 := by
  unfold checkedI64
  split
  · next h =>
    rw [Option.some.injEq]
    exact ⟨fun heq => ⟨heq.symm, h⟩, fun ⟨heq, _⟩ => heq.symm⟩
  · next h =>
    constructor
    · intro h'
      cases h'
    · exact fun ⟨_, h'⟩ => absurd h' h

theorem checkedI64_eq_none {n : Int} : checkedI64 n = none ↔ n < -2 ^ 63 ∨ 2 ^ 63 ≤ n := by
  unfold checkedI64
  split
  · next h =>
    constructor
    · intro h'
      cases h'
    · omega
  · next h => exact ⟨fun _ => by omega, fun _ => rfl⟩

theorem wrapI64_of_inRange {n : Int} (h₁ : -2 ^ 63 ≤ n) (h₂ : n < 2 ^ 63) : wrapI64 n = n := by
  unfold wrapI64
  omega

theorem parseI64_nonneg {n : Int} (h : parseI64 ds = some n) : 0 ≤ n := by
  unfold parseI64 at h
  obtain ⟨⟨k, rest⟩, -, rfl⟩ := Option.map_eq_some_iff.1 h
  exact Int.natCast_nonneg k

/-- The units of a part are positive. -/
def PositiveUnits (unit : Char → Option Int) : Prop := ∀ c k, unit c = some k → 0 < k

theorem dateUnit_positive : PositiveUnits dateUnit := by
  intro c k h
  unfold dateUnit at h
  split at h
  · cases h
    decide
  · cases h
    decide
  · cases h

theorem timeUnit_positive : PositiveUnits timeUnit := by
  intro c k h
  unfold timeUnit at h
  split at h
  · cases h
    decide
  · cases h
    decide
  · cases h
    decide
  · cases h

theorem partTotal_nonneg (hunit : PositiveUnits unit) (ds cs : List Char) :
    0 ≤ partTotal unit ds cs := by
  induction cs generalizing ds with
  | nil => exact Int.le_refl 0
  | cons c cs ih =>
    unfold partTotal
    split
    · exact ih _
    · split
      · next n k hn hk =>
        have h₁ := parseI64_nonneg hn
        have h₂ := hunit c k hk
        exact add_nonneg (mul_nonneg h₁ h₂.le) (ih [])
      · exact Int.le_refl 0

/-- A part is summed without overflow exactly if the exact sum fits, and gives what the
unchecked reading gives. -/
theorem durationPartChecked_spec (hunit : PositiveUnits unit) (h₀ : 0 ≤ total)
    (htotal : total < 2 ^ 63) :
    if total + partTotal unit ds cs < 2 ^ 63 then
      durationPartChecked unit ds total cs = some (durationPart unit ds total cs) ∧
        ∀ t, durationPart unit ds total cs = some t → t = total + partTotal unit ds cs
    else durationPartChecked unit ds total cs = none := by
  induction cs generalizing ds total with
  | nil =>
    have hsum : total + partTotal unit ds [] = total := add_zero total
    rw [hsum, if_pos htotal]
    refine ⟨rfl, fun t ht => ?_⟩
    unfold durationPart at ht
    split at ht
    · exact (Option.some.inj ht).symm
    · cases ht
  | cons c cs ih =>
    unfold durationPartChecked durationPart partTotal
    by_cases hc : c.isDigit = true
    · simp only [if_pos hc]
      exact ih h₀ htotal
    · simp only [if_neg hc]
      cases hn : parseI64 ds with
      | none =>
        rw [add_zero, if_pos htotal]
        refine ⟨rfl, fun t ht => ?_⟩
        cases ht
      | some n =>
        cases hk : unit c with
        | none =>
          simp only
          rw [add_zero, if_pos htotal]
          refine ⟨trivial, fun t ht => ?_⟩
          cases ht
        | some k =>
          have hn₀ := parseI64_nonneg hn
          have hk₀ := hunit c k hk
          have hnk : 0 ≤ n * k := mul_nonneg hn₀ hk₀.le
          have hrest := partTotal_nonneg hunit [] cs
          simp only
          rw [← add_assoc]
          by_cases hm : n * k < 2 ^ 63
          · by_cases ht : total + n * k < 2 ^ 63
            · rw [checkedI64_eq_some.2 ⟨rfl, by omega, hm⟩, Option.bind_some,
                checkedI64_eq_some.2 ⟨rfl, by omega, ht⟩, Option.bind_some,
                wrapI64_of_inRange (by omega) ht]
              exact ih (by omega) ht
            · rw [if_neg (by omega), checkedI64_eq_some.2 ⟨rfl, by omega, hm⟩, Option.bind_some,
                checkedI64_eq_none.2 (by omega), Option.bind_none]
          · rw [if_neg (by omega), checkedI64_eq_none.2 (by omega), Option.bind_none]

theorem parseDuration_eq (value : List Char) : parseDuration value =
    match (durationSign (Text.trim value)).2 with
    | 'P' :: v =>
      match durationPart dateUnit [] 0 (durationParts v).1 with
      | none => none
      | some total =>
        match (durationParts v).2 with
        | none => some (wrapI64 ((durationSign (Text.trim value)).1 * total))
        | some t =>
          (durationPart timeUnit [] total t).map fun total =>
            wrapI64 ((durationSign (Text.trim value)).1 * total)
    | _ => none := rfl

theorem durationSign_cases (v : List Char) :
    (durationSign v).1 = -1 ∨ (durationSign v).1 = 1 := by
  unfold durationSign
  split
  · exact Or.inl rfl
  · exact Or.inr rfl
  · exact Or.inr rfl

/-- Reading a duration overflows nowhere exactly if its parts sum to an `i64`. -/
theorem parseDurationChecked_spec (value : List Char) :
    if durationTotal value < 2 ^ 63 then
      parseDurationChecked value = some (parseDuration value)
    else parseDurationChecked value = none := by
  rw [parseDuration_eq]
  unfold parseDurationChecked durationTotal
  have hsign := durationSign_cases (Text.trim value)
  generalize durationSign (Text.trim value) = sv at hsign ⊢
  obtain ⟨sign, v⟩ := sv
  simp only at hsign ⊢
  split
  · next v =>
    have hdate := @durationPartChecked_spec _ [] (durationParts v).1 0
      dateUnit_positive (Int.le_refl 0) (by decide)
    rw [zero_add] at hdate
    have hdate₀ := partTotal_nonneg dateUnit_positive [] (durationParts v).1
    have hfinal : ∀ total : Int, 0 ≤ total → total < 2 ^ 63 →
        (checkedI64 (sign * total)).map some = some (some (wrapI64 (sign * total))) := by
      intro total h₀ h₁
      rcases hsign with rfl | rfl
      · rw [checkedI64_eq_some.2 ⟨rfl, by omega, by omega⟩,
          wrapI64_of_inRange (by omega) (by omega)]
        rfl
      · rw [checkedI64_eq_some.2 ⟨rfl, by omega, by omega⟩,
          wrapI64_of_inRange (by omega) (by omega)]
        rfl
    by_cases hfit : partTotal dateUnit [] (durationParts v).1 < 2 ^ 63
    · rw [if_pos hfit] at hdate
      obtain ⟨hchecked, hexact⟩ := hdate
      rw [hchecked, Option.bind_some]
      cases hread : durationPart dateUnit [] 0 (durationParts v).1 with
      | none =>
        rw [Option.isSome_none, if_neg Bool.false_ne_true, add_zero, if_pos hfit]
      | some total =>
        rw [hread] at hexact
        obtain rfl := (hexact total rfl)
        rw [Option.isSome_some, if_pos rfl]
        cases (durationParts v).2 with
        | none =>
          simp only [Option.map_none, Option.getD_none, add_zero, Option.bind_some]
          rw [if_pos hfit]
          exact hfinal _ hdate₀ hfit
        | some t =>
          simp only [Option.map_some, Option.getD_some]
          have htime := @durationPartChecked_spec _ [] t
            (partTotal dateUnit [] (durationParts v).1) timeUnit_positive hdate₀ hfit
          have htime₀ := partTotal_nonneg timeUnit_positive [] t
          by_cases hall : partTotal dateUnit [] (durationParts v).1 + partTotal timeUnit [] t < 2 ^ 63
          · rw [if_pos hall] at htime ⊢
            obtain ⟨hchecked', hexact'⟩ := htime
            rw [hchecked', Option.bind_some]
            cases hread' : durationPart timeUnit [] (partTotal dateUnit [] (durationParts v).1) t with
            | none => rfl
            | some total' =>
              obtain rfl := hexact' total' hread'
              exact hfinal _ (by omega) hall
          · rw [if_neg hall] at htime ⊢
            rw [htime, Option.bind_none]
    · rw [if_neg hfit] at hdate
      have hrest : 0 ≤ (if (durationPart dateUnit [] 0 (durationParts v).1).isSome = true then
          (Option.map (partTotal timeUnit []) (durationParts v).2).getD 0 else 0) := by
        split
        · cases (durationParts v).2 with
          | none => exact Int.le_refl 0
          | some t => exact partTotal_nonneg timeUnit_positive [] t
        · exact Int.le_refl 0
      rw [if_neg (by omega), hdate, Option.bind_none]
  · rw [if_pos (by decide)]

/-! ### The lines of a file -/

/-- The value a line hands to `parse_duration`, in the state it is read in: a relative
`TRIGGER` in an alarm, a `DURATION` in an event. -/
def durationRead (r : Reading) (line : List Char) : Option (List Char) :=
  (parseProperty line).bind fun prop =>
    match r.alarm, r.current with
    | some _, _ =>
      let absolute := (prop.param "VALUE".toList).any fun v =>
        Text.eqIgnoreAsciiCase v "DATE-TIME".toList || Text.eqIgnoreAsciiCase v "DATE".toList
      if prop.name = "TRIGGER".toList ∧ absolute = false then some prop.value else none
    | none, some _ => if prop.name = "DURATION".toList then some prop.value else none
    | none, none => none

/-- The number of the day so many seconds after a time. -/
def CalTime.dayAfter (t : CalTime) (seconds : Int) : Int :=
  match t with
  | .day d => d.days + seconds.tdiv 86400
  | .floating dt | .utc dt | .zoned dt _ =>
    dt.date.days + (dt.time.overflowingAddSigned seconds).2

/-- The event of a finished block stays within its numbers: its duration, where it decides
the end, stays within chrono's dates, and a `Duration` holds the triggers of its alarms. -/
structure Pending.Fits (p : Pending) (start : CalTime) : Prop where
  ends : p.end = none → ∀ secs, p.duration = some secs → |secs| ≤ maxSeconds →
    NaiveDate.minDay ≤ start.dayAfter secs ∧ start.dayAfter secs ≤ NaiveDate.maxDay
  alarms : ∀ a ∈ p.ev.alarms, a.Representable

/-- The line fits the state it is read in. -/
structure LineFits (r : Reading) (line : List Char) : Prop where
  duration : ∀ v, durationRead r line = some v → durationTotal v < 2 ^ 63
  closes : markerOf line = some .endEvent → r.alarm = none →
    ∀ p start, r.current = some p → p.start = some start → p.Fits start

/-- The lines `parse_events` reads; of a text that is no calendar, none. -/
def linesRead (text : List Char) : List (List Char) :=
  if (unfold text).any isCalendarLine then unfold text else []

/-- Reading the text overflows nowhere and panics nowhere: `parse_events` completes, with
every `i64` of `parse_duration` in range, and so does `alarm_times` for what it returns. -/
structure ReadsSafely (text : List Char) : Prop where
  completes : ∃ res, parseEvents text = some res
  durations : ∀ pre line post r, linesRead text = pre ++ line :: post →
    readLines .new pre = some r → ∀ v, durationRead r (Text.trim line) = some v →
      ∃ secs, parseDurationChecked v = some secs
  alarms : ∀ evs, parseEvents text = some (.ok evs) → ∀ e ∈ evs,
    (∀ a ∈ e.alarms, a.Representable) ∧
      ∀ db start «end» «local», ∃ times, alarmTimes db e start «end» «local» = some times

theorem shift_isSome_iff {start : CalTime} {secs : Int} :
    (∃ t, shift start secs = some t) ↔ (|secs| ≤ maxSeconds →
      NaiveDate.minDay ≤ start.dayAfter secs ∧ start.dayAfter secs ≤ NaiveDate.maxDay) := by
  have hadd : ∀ (d : NaiveDate) (n : Int), (∃ e, d.addDays n = some e) ↔
      NaiveDate.minDay ≤ d.days + n ∧ d.days + n ≤ NaiveDate.maxDay := by
    intro d n
    constructor
    · rintro ⟨e, he⟩
      rw [← NaiveDate.addDays_eq_some.1 he]
      exact e.inRange
    · intro h
      exact ⟨⟨_, h⟩, NaiveDate.addDays_eq_some.2 rfl⟩
  have htime : ∀ (dt : NaiveDateTime) (n : Int), (∃ e, dt.checkedAdd n = some e) ↔
      NaiveDate.minDay ≤ dt.date.days + (dt.time.overflowingAddSigned n).2 ∧
        dt.date.days + (dt.time.overflowingAddSigned n).2 ≤ NaiveDate.maxDay := by
    intro dt n
    rw [← hadd]
    unfold NaiveDateTime.checkedAdd
    constructor
    · rintro ⟨e, he⟩
      obtain ⟨d, hd, -⟩ := Option.map_eq_some_iff.1 he
      exact ⟨d, hd⟩
    · rintro ⟨d, hd⟩
      exact ⟨_, Option.map_eq_some_iff.2 ⟨d, hd, rfl⟩⟩
  have hmap : ∀ {α β : Type} (o : Option α) (f : α → β), (∃ t, o.map f = some t) ↔ ∃ a, o = some a := by
    intro α β o f
    cases o <;> simp
  -- a time a day or less from itself stays where it is
  have hzero : ∀ dt : NaiveDateTime, (dt.time.overflowingAddSigned 0).2 = 0 := by
    intro dt
    have h := dt.time.inRange
    unfold NaiveTime.overflowingAddSigned
    simp only
    split
    · rfl
    · simp only
      omega
  unfold shift
  by_cases h : |secs| ≤ 9223372036854775
  · have h' : |secs| ≤ maxSeconds := h
    simp only [if_pos h, h', true_imp_iff]
    cases start with
    | day d => rw [hmap, hadd]; rfl
    | floating dt => rw [hmap, htime]; rfl
    | utc dt => rw [hmap, htime]; rfl
    | zoned dt tzid => rw [hmap, htime]; rfl
  · have h' : ¬ |secs| ≤ maxSeconds := h
    simp only [if_neg h, h', false_imp_iff, iff_true]
    cases start with
    | day d =>
      rw [hmap, hadd]
      have := d.inRange
      simpa using this
    | floating dt =>
      rw [hmap, htime, hzero, add_zero]
      exact dt.date.inRange
    | utc dt =>
      rw [hmap, htime, hzero, add_zero]
      exact dt.date.inRange
    | zoned dt tzid =>
      rw [hmap, htime, hzero, add_zero]
      exact dt.date.inRange

/-! ### One line -/

variable {r r' : Reading} {line : List Char}

@[simp] theorem readProperty_events : (readProperty line r).events = r.events := by
  unfold readProperty
  split
  · rfl
  · split <;> rfl

@[simp] theorem closeAlarm_events : (closeAlarm r).events = r.events := by
  unfold closeAlarm
  split <;> rfl

/-- A line adds no event, or it closes one. -/
theorem readLine_cases (h : readLine r line = some r') :
    r'.events = r.events ∨
      (markerOf line = some .endEvent ∧ r.alarm = none ∧
        ∃ p es, r.current = some p ∧ p.finish = some es ∧ r'.events = r.events ++ es) := by
  unfold readLine at h
  split at h
  · cases h
    exact Or.inl rfl
  · cases h
    exact Or.inl closeAlarm_events
  · cases h
    left
    split
    · exact readProperty_events
    · rfl
  · next hmarker =>
    cases halarm : r.alarm with
    | some a =>
      rw [halarm, Option.isSome_some, if_pos rfl] at h
      cases h
      exact Or.inl readProperty_events
    | none =>
      rw [halarm, Option.isSome_none, if_neg Bool.false_ne_true] at h
      unfold closeEvent at h
      split at h
      · cases h
        exact Or.inl rfl
      · next p hp =>
        obtain ⟨es, hes, rfl⟩ := Option.map_eq_some_iff.1 h
        exact Or.inr ⟨hmarker, rfl, p, es, hp, hes, rfl⟩
  · cases h
    exact Or.inl readProperty_events

/-- A line is read, but for one that closes an event whose end is past chrono's dates. -/
theorem readLine_isSome (h : markerOf line = some .endEvent → r.alarm = none →
    ∀ p, r.current = some p → ∃ es, p.finish = some es) : ∃ r', readLine r line = some r' := by
  unfold readLine
  split
  · exact ⟨_, rfl⟩
  · exact ⟨_, rfl⟩
  · exact ⟨_, rfl⟩
  · next hmarker =>
    split
    · exact ⟨_, rfl⟩
    · next halarm =>
      have hnone : r.alarm = none := Option.not_isSome_iff_eq_none.1 halarm
      unfold closeEvent
      split
      · exact ⟨_, rfl⟩
      · next p hp =>
        obtain ⟨es, hes⟩ := h hmarker hnone p hp
        exact ⟨_, by rw [hes]; rfl⟩
  · exact ⟨_, rfl⟩

theorem finish_of_start_none {p : Pending} (h : p.start = none) : p.finish = some [] := by
  unfold Pending.finish
  rw [h]

/-- A finished event keeps its alarms, and its end is the duration's where there is no other. -/
theorem finish_isSome_iff {p : Pending} {start : CalTime} (h : p.start = some start) :
    (∃ es, p.finish = some es) ↔ (p.end = none → ∀ secs, p.duration = some secs →
      ∃ t, shift start secs = some t) := by
  unfold Pending.finish
  rw [h]
  cases p.end with
  | some e => simp
  | none =>
    cases p.duration with
    | none => simp
    | some secs =>
      simp only [true_imp_iff, Option.some.injEq, forall_eq']
      constructor
      · rintro ⟨es, hes⟩
        obtain ⟨t, ht, -⟩ := Option.map_eq_some_iff.1 hes
        exact ⟨t, ht⟩
      · rintro ⟨t, ht⟩
        exact ⟨_, by rw [ht]; rfl⟩

theorem finish_eq {p : Pending} {start : CalTime} {es : List Event} (h : p.start = some start)
    (hes : p.finish = some es) : ∃ e, es = [e] ∧ e.alarms = p.ev.alarms := by
  unfold Pending.finish at hes
  rw [h] at hes
  simp only at hes
  split at hes
  · cases hes
    exact ⟨_, rfl, rfl⟩
  · obtain ⟨t, -, rfl⟩ := Option.map_eq_some_iff.1 hes
    exact ⟨_, rfl, rfl⟩
  · cases hes
    exact ⟨_, rfl, rfl⟩

/-! ### The run over the lines -/

/-- Every line fits the state it is read in. -/
def LinesFit (r : Reading) (lines : List (List Char)) : Prop :=
  ∀ pre line post r', lines = pre ++ line :: post → readLines r pre = some r' →
    LineFits r' (Text.trim line)

theorem LinesFit.head {lines : List (List Char)} (h : LinesFit r (line :: lines)) :
    LineFits r (Text.trim line) := h [] line lines r rfl rfl

theorem LinesFit.tail {lines : List (List Char)} (h : LinesFit r (line :: lines))
    (hline : readLine r (Text.trim line) = some r') : LinesFit r' lines := by
  intro pre l post r'' heq hread
  refine h (line :: pre) l post r'' (by rw [heq, List.cons_append]) ?_
  rw [readLines_of_readLine hline]
  exact hread

/-- A `Duration` holds the triggers of all events read. -/
def Reading.Representable (r : Reading) : Prop := ∀ e ∈ r.events, ∀ a ∈ e.alarms, a.Representable

theorem LineFits.finish (h : LineFits r line) (hmarker : markerOf line = some .endEvent)
    (halarm : r.alarm = none) {p : Pending} (hp : r.current = some p) :
    ∃ es, p.finish = some es := by
  cases hstart : p.start with
  | none => exact ⟨[], finish_of_start_none hstart⟩
  | some start =>
    have hfits := h.closes hmarker halarm p start hp hstart
    exact (finish_isSome_iff hstart).2 fun hend secs hsecs =>
      shift_isSome_iff.2 (hfits.ends hend secs hsecs)

theorem readLines_of_fit {lines : List (List Char)} (h : LinesFit r lines) :
    ∃ r', readLines r lines = some r' := by
  induction lines generalizing r with
  | nil => exact ⟨r, rfl⟩
  | cons line lines ih =>
    obtain ⟨r₁, h₁⟩ := readLine_isSome fun hm ha p hp => h.head.finish hm ha hp
    rw [readLines_of_readLine h₁]
    exact ih (h.tail h₁)

theorem representable_of_fit {lines : List (List Char)} (h : LinesFit r lines)
    (hr : r.Representable) (hread : readLines r lines = some r') : r'.Representable := by
  induction lines generalizing r with
  | nil =>
    cases hread
    exact hr
  | cons line lines ih =>
    obtain ⟨r₁, h₁⟩ := readLine_isSome fun hm ha p hp => h.head.finish hm ha hp
    rw [readLines_of_readLine h₁] at hread
    refine ih (h.tail h₁) ?_ hread
    rcases readLine_cases h₁ with heq | ⟨hm, ha, p, es, hp, hes, heq⟩
    · unfold Reading.Representable
      rw [heq]
      exact hr
    · intro e he
      rw [heq] at he
      rcases List.mem_append.1 he with he | he
      · exact hr e he
      · cases hstart : p.start with
        | none =>
          rw [finish_of_start_none hstart] at hes
          cases hes
          cases he
        | some start =>
          obtain ⟨e', rfl, halarms⟩ := finish_eq hstart hes
          rw [List.mem_singleton.1 he, halarms]
          exact (h.head.closes hm ha p start hp hstart).alarms

theorem events_subset {lines : List (List Char)} (hread : readLines r lines = some r') :
    r.events ⊆ r'.events := by
  induction lines generalizing r with
  | nil =>
    cases hread
    exact List.Subset.refl _
  | cons line lines ih =>
    rw [readLines_cons] at hread
    obtain ⟨r₁, h₁, hread⟩ := Option.bind_eq_some_iff.1 hread
    refine List.Subset.trans ?_ (ih hread)
    rcases readLine_cases h₁ with heq | ⟨-, -, p, es, -, -, heq⟩
    · rw [heq]
      exact List.Subset.refl _
    · rw [heq]
      exact List.subset_append_left _ _

theorem parseEvents_eq_readLines {text : List Char}
    (h : (unfold text).any isCalendarLine = true) :
    parseEvents text = (readLines .new (unfold text)).map fun r => .ok r.events := by
  unfold parseEvents
  rw [if_pos h]

/-- **Reading a file crashes nowhere** exactly if every line of it fits the state it is
read in: the durations read are sums within an `i64`, the ends they decide within chrono's
dates and the triggers of the events within a `Duration`. -/
theorem reads_safely_iff (text : List Char) :
    ReadsSafely text ↔ LinesFit .new (linesRead text) := by
  by_cases hcal : (unfold text).any isCalendarLine = true
  · have hlines : linesRead text = unfold text := if_pos hcal
    constructor
    · rintro ⟨⟨res, hres⟩, hdurations, halarms⟩ pre line post r heq hpre
      refine ⟨fun v hv => ?_, fun hm ha p start hp hstart => ?_⟩
      · obtain ⟨secs, hsecs⟩ := hdurations pre line post r heq hpre v hv
        have hspec := parseDurationChecked_spec v
        by_contra hbig
        rw [if_neg hbig, hsecs] at hspec
        cases hspec
      · rw [parseEvents_eq_readLines hcal, ← hlines] at hres halarms
        obtain ⟨last, hlast, -⟩ := Option.map_eq_some_iff.1 hres
        rw [hlast] at halarms
        rw [heq, readLines_append, hpre, Option.bind_some, readLines_cons] at hlast
        obtain ⟨r₁, h₁, hlast⟩ := Option.bind_eq_some_iff.1 hlast
        have hfinish : ∃ es, p.finish = some es ∧ r₁.events = r.events ++ es := by
          unfold readLine closeEvent at h₁
          rw [hm] at h₁
          simp only [ha, Option.isSome_none, Bool.false_eq_true, if_false, hp] at h₁
          obtain ⟨es, hes, rfl⟩ := Option.map_eq_some_iff.1 h₁
          exact ⟨es, hes, rfl⟩
        obtain ⟨es, hes, hevents⟩ := hfinish
        refine ⟨fun hend secs hsecs => ?_, ?_⟩
        · exact shift_isSome_iff.1 ((finish_isSome_iff hstart).1 ⟨es, hes⟩ hend secs hsecs)
        · obtain ⟨e, rfl, he⟩ := finish_eq hstart hes
          rw [← he]
          refine (halarms last.events rfl e (events_subset hlast ?_)).1
          rw [hevents]
          exact List.mem_append_right _ List.mem_cons_self
    · intro hfit
      obtain ⟨last, hlast⟩ := readLines_of_fit hfit
      have hparse : parseEvents text = some (.ok last.events) := by
        rw [parseEvents_eq_readLines hcal, ← hlines, hlast]
        rfl
      refine ⟨⟨_, hparse⟩, fun pre line post r heq hpre v hv => ?_, fun evs hevs e he => ?_⟩
      · have hspec := parseDurationChecked_spec v
        rw [if_pos ((hfit pre line post r heq hpre).duration v hv)] at hspec
        exact ⟨_, hspec⟩
      · rw [hparse] at hevs
        cases hevs
        have hrep := representable_of_fit hfit (List.forall_mem_nil _) hlast e he
        exact ⟨hrep, fun db start «end» «local» =>
          alarmTimes_isSome_iff.2 fun a ha => Alarm.timed_of_representable (hrep a ha)⟩
  · have hlines : linesRead text = [] := if_neg hcal
    have hparse : parseEvents text = some (.error .notCalendar) := by
      unfold parseEvents
      rw [if_neg hcal]
    have hempty : ∀ (pre : List (List Char)) line post, [] ≠ pre ++ line :: post := by
      intro pre line post h
      cases pre <;> cases h
    constructor
    · intro _ pre line post r heq
      rw [hlines] at heq
      exact absurd heq (hempty pre line post)
    · intro _
      refine ⟨⟨_, hparse⟩, fun pre line post r heq => ?_, fun evs hevs => ?_⟩
      · rw [hlines] at heq
        exact absurd heq (hempty pre line post)
      · rw [hparse] at hevs
        cases hevs

/-- An event of a hundred million days. -/
def longEvent : List Char :=
  "BEGIN:VCALENDAR\nBEGIN:VEVENT\nDTSTART:20260819\nDURATION:P100000000D\nEND:VEVENT".toList

/-- The end of the event is past chrono's dates, and reading it panics. -/
theorem longEvent_panics : parseEvents longEvent = none := by
  decide +kernel

end Arlen.Calendar
