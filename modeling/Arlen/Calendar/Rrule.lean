import Arlen.Calendar.Reader

/-!
# Recurrence rules

`parse_rule` reads the subset of `RRULE` the calendar expands and `expand` walks
it: week by week where a weekly rule names its days, date by date otherwise.
Where the date arithmetic of the weekly walk leaves chrono's range the source
panics and there is no result; the `i32` of a year wraps.
-/

namespace Arlen.Calendar

open Arlen.Lib

inductive Freq
  | daily
  | weekly
  | monthly
  | yearly
deriving DecidableEq

inductive Weekday
  | mon
  | tue
  | wed
  | thu
  | fri
  | sat
  | sun
deriving DecidableEq

def Weekday.numDaysFromMonday : Weekday → Nat
  | .mon => 0
  | .tue => 1
  | .wed => 2
  | .thu => 3
  | .fri => 4
  | .sat => 5
  | .sun => 6

/-- A recurrence rule, as far as the calendar understands one. -/
structure Rule where
  freq : Freq
  interval : Nat
  byDay : List Weekday
  count : Option Nat
  «until» : Option NaiveDate
deriving DecidableEq

/-! ### Parsing -/

/-- `str::parse::<u32>`: digits, and a plus sign before them. -/
def parseU32 (s : List Char) : Option Nat :=
  let ds := match s with
    | '+' :: rest => rest
    | s => s
  if ds ≠ [] ∧ ds.all Char.isDigit ∧ decimalValue ds < 2 ^ 32 then some (decimalValue ds) else none

def positive (n : Option Nat) : Option Nat := n.filter (0 < ·)

/-- `UNTIL` is a DATE or a DATE-TIME; only the date matters. -/
def parseUntil (v : List Char) : Option NaiveDate := NaiveDate.parse (v.takeWhile (· ≠ 'T'))

def parseFreq (v : List Char) : Option Freq :=
  let v := Text.toUppercase v
  if v = "DAILY".toList then some .daily
  else if v = "WEEKLY".toList then some .weekly
  else if v = "MONTHLY".toList then some .monthly
  else if v = "YEARLY".toList then some .yearly
  else none

def weekday (code : List Char) : Option Weekday :=
  let code := Text.toUppercase code
  if code = "MO".toList then some .mon
  else if code = "TU".toList then some .tue
  else if code = "WE".toList then some .wed
  else if code = "TH".toList then some .thu
  else if code = "FR".toList then some .fri
  else if code = "SA".toList then some .sat
  else if code = "SU".toList then some .sun
  else none

/-- The weekdays of a `BYDAY` list; one with an ordinal is a different rule. -/
def parseDays (v : List Char) : Option (List Weekday) :=
  (((v.splitOn ',').map Text.trim).filter (· ≠ [])).mapM weekday

/-- The parts of a rule read so far. -/
structure RuleParts where
  freq : Option Freq
  interval : Nat
  byDay : List Weekday
  count : Option Nat
  «until» : Option NaiveDate

def RuleParts.new : RuleParts :=
  { freq := none, interval := 1, byDay := [], count := none, «until» := none }

def RuleParts.rule (r : RuleParts) : Option Rule :=
  r.freq.map fun freq =>
    { freq := freq, interval := r.interval, byDay := r.byDay, count := r.count,
      «until» := r.until }

/-- One `NAME=value`; a part that is not modelled refuses the rule. -/
def parsePart (r : RuleParts) (part : List Char) : Option RuleParts :=
  match Text.splitOnce '=' part with
  | none => none
  | some (name, v) =>
    let name := Text.toUppercase (Text.trim name)
    let v' := Text.trim v
    if name = "FREQ".toList then (parseFreq v').map fun f => { r with freq := some f }
    else if name = "INTERVAL".toList then
      (positive (parseU32 v')).map fun n => { r with interval := n }
    else if name = "COUNT".toList then
      (positive (parseU32 v')).map fun n => { r with count := some n }
    else if name = "UNTIL".toList then (parseUntil v').map fun d => { r with «until» := some d }
    else if name = "BYDAY".toList then
      (parseDays v).map fun ds => { r with byDay := r.byDay ++ ds }
    else if name = "WKST".toList ∧ Text.eqIgnoreAsciiCase v' "MO".toList then some r
    else none

def ruleParts (value : List Char) : List (List Char) := (value.splitOn ';').filter (· ≠ [])

/-- Parse an `RRULE` value, or `none` when it uses a part the calendar does not model. -/
def parseRule (value : List Char) : Option Rule :=
  ((ruleParts value).foldlM parsePart .new).bind RuleParts.rule

/-! ### Expanding -/

def maxSteps : Nat := 20000

/-- An `i32` after a wrapping step. -/
def wrapI32 (n : Int) : Int := (n + 2 ^ 31) % 2 ^ 32 - 2 ^ 31

/-- The next month that has the day, of the months `interval` apart. -/
def monthFrom (day interval : Nat) : Nat → Int → Option NaiveDate
  | 0, _ => none
  | tries + 1, months =>
    match NaiveDate.fromYmdOpt (wrapI32 (months / 12)) (months % 12).toNat.succ day with
    | some d => some d
    | none => monthFrom day interval tries (months + interval)

/-- The next year that has the day, of the years `interval` apart. -/
def yearFrom (month day : Nat) (interval : Int) : Nat → Int → Option NaiveDate
  | 0, _ => none
  | tries + 1, year =>
    match NaiveDate.fromYmdOpt year month day with
    | some d => some d
    | none => yearFrom month day interval tries (wrapI32 (year + interval))

/-- One period on from `date`. Monthly and yearly rules keep the day of the start and
skip the months that have none. -/
def advance (date : NaiveDate) (freq : Freq) (interval : Nat) (start : NaiveDate) :
    Option NaiveDate :=
  match freq with
  | .daily => date.addDays interval
  | .weekly => date.addDays (7 * interval)
  | .monthly =>
    monthFrom start.day interval 48 (date.year * 12 + ((date.month : Int) - 1) + interval)
  | .yearly =>
    yearFrom start.month start.day (wrapI32 interval) 8 (wrapI32 (date.year + wrapI32 interval))

/-- The rule ends before `date`: past its last day, or past its count with `seen`
occurrences before this one. -/
def Rule.ended (rule : Rule) (seen : Nat) (date : NaiveDate) : Bool :=
  rule.until.any (· < date) || rule.count.any (· < seen + 1)

/-- The named days of one week. The walk returns at the end of the rule, and goes on
with the occurrences seen and the dates kept otherwise. -/
def weekDays (rule : Rule) (start «from» «to» week : NaiveDate) :
    List Weekday → Nat → List NaiveDate → Option (List NaiveDate ⊕ (Nat × List NaiveDate))
  | [], seen, out => some (.inr (seen, out))
  | d :: ds, seen, out =>
    match week.addDays d.numDaysFromMonday with
    | none => none
    | some date =>
      if date < start then weekDays rule start «from» «to» week ds seen out
      else if rule.ended seen date then some (.inl out)
      else
        weekDays rule start «from» «to» week ds (seen + 1)
          (if «from» ≤ date ∧ date ≤ «to» then out ++ [date] else out)

/-- `out.sort(); out.dedup()`, where a walk runs out. -/
def sortDates (out : List NaiveDate) : List NaiveDate :=
  (out.mergeSort fun a b => a ≤ b).destutter (· ≠ ·)

/-- The weekly walk, with so many steps left. -/
def weekLoop (rule : Rule) (days : List Weekday) (start «from» «to» : NaiveDate) :
    Nat → NaiveDate → Nat → List NaiveDate → Option (List NaiveDate)
  | 0, _, _, out => some (sortDates out)
  | steps + 1, week, seen, out =>
    if «to» < week then some (sortDates out)
    else
      match weekDays rule start «from» «to» week days seen out with
      | none => none
      | some (.inl out) => some out
      | some (.inr (seen, out)) =>
        match week.addDays (7 * rule.interval) with
        | none => none
        | some week => weekLoop rule days start «from» «to» steps week seen out

/-- The walk from date to date. -/
def dateLoop (rule : Rule) (start «from» «to» : NaiveDate) :
    Nat → NaiveDate → Nat → List NaiveDate → List NaiveDate
  | 0, _, _, out => out
  | steps + 1, date, seen, out =>
    if «to» < date then out
    else if rule.ended seen date then out
    else
      let out := if «from» ≤ date then out ++ [date] else out
      match advance date rule.freq rule.interval start with
      | some next => dateLoop rule start «from» «to» steps next (seen + 1) out
      | none => out

/-- The named days in the order of the week, each once. -/
def Rule.weekOrder (rule : Rule) : List Weekday :=
  (rule.byDay.mergeSort fun a b => a.numDaysFromMonday ≤ b.numDaysFromMonday).destutter (· ≠ ·)

/-- The walk of an accepted rule. -/
def Rule.walk (rule : Rule) (start «from» «to» : NaiveDate) : Option (List NaiveDate) :=
  if rule.freq = .weekly ∧ rule.byDay ≠ [] then
    match start.addDays (-start.daysFromMonday) with
    | none => none
    | some week => weekLoop rule rule.weekOrder start «from» «to» maxSteps week 0 []
  else some (sortDates (dateLoop rule start «from» «to» maxSteps start 0 []))

/-- The dates a rule puts inside a window, from its start on. The outer option is a
panic, the inner one a rule that is refused. -/
def expand (value : List Char) (start «from» «to» : NaiveDate) :
    Option (Option (List NaiveDate)) :=
  match parseRule value with
  | none => some none
  | some rule =>
    if «to» < «from» then some (some [])
    else (rule.walk start «from» «to»).map some

/-! ### The dates of an event -/

def repeatBackDays : Int := 30

def repeatAheadDays : Int := 120

/-- Every date an event falls on inside the window around `today`. A repeat that shows
nothing there stays the one date the file names; the file's own exclusions come last. -/
def occurrences (e : Event) (today : NaiveDate) : Option (List NaiveDate) :=
  let start := e.start.date
  match e.rrule with
  | none => some [start]
  | some rule => do
    let «from» ← today.addDays (-repeatBackDays)
    let «to» ← today.addDays repeatAheadDays
    let dates ← expand rule start «from» «to»
    let dates := match dates with
      | some (d :: ds) => d :: ds
      | _ => [start]
    some (dates.filter fun d => d ∉ e.exdates)

end Arlen.Calendar
