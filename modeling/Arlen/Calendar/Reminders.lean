import Mathlib.Data.Char
import Mathlib.Data.List.Lex
import Arlen.Calendar.When
import Arlen.Calendar.Overflow

/-!
# What is registered with the clock

`registrations` derives the alarms that are due in a window. The occurrences of a repeating
event are expanded between the UTC dates of the window widened by a day on either side, and
an alarm is found exactly if the date of its occurrence lies between these. Where a date
addition of the source panics there is no result.
-/

namespace Arlen.Calendar

open Arlen.Lib

/-- One alarm to arm, and the occurrence it belongs to. -/
structure Registration where
  uid : List Char
  recurrenceId : NaiveDate
  at_ : DateTimeUtc
  summary : List Char
deriving DecidableEq

/-- The same written time, moved to a date. -/
def onDate (t : CalTime) (date : NaiveDate) : CalTime :=
  match t with
  | .day _ => .day date
  | .floating dt => .floating ⟨date, dt.time⟩
  | .utc dt => .utc ⟨date, dt.time⟩
  | .zoned dt tzid => .zoned ⟨date, dt.time⟩ tzid

/-- The end of the occurrence on a date, as far from it as the file's end from its start. -/
def endOn (e : Event) (date : NaiveDate) : Option (Option CalTime) :=
  match e.end with
  | none => some none
  | some t => (date.addDays (t.date.days - e.start.date.days)).map fun d => some (onDate t d)

/-- By instant, and by name where two ring at once. -/
def Registration.before (a b : Registration) : Bool :=
  a.at_ < b.at_ || (a.at_.order == b.at_.order && a.uid ≤ b.uid)

/-- A date the event's rule gives in some window, or its own where it has no rule. -/
def Event.Occurs (e : Event) (d : NaiveDate) : Prop :=
  match e.rrule with
  | none => d = e.start.date
  | some value => ∃ a b out, expand value e.start.date a b = some (some out) ∧ d ∈ out

/-- A date of the event the widened window shows: one its rule gives, between the start and
the ends of the window; its own, where it has no rule or the rule is refused. -/
def Event.ShownIn (e : Event) (first last d : NaiveDate) : Prop :=
  match e.rrule.bind parseRule with
  | none => d = e.start.date
  | some _ => e.Occurs d ∧ e.start.date ≤ d ∧ first ≤ d ∧ d ≤ last

/-- No addition for the event leaves chrono's dates, and no number wraps: its rule walks
within them up to the end of the widened window, the ends of the dates shown are within
them, and a `Duration` holds the triggers. -/
structure Event.Safe (e : Event) (db : ZoneDb) («local» : Tz) (first last : NaiveDate) : Prop where
  rule : ∀ value rule, e.rrule = some value → parseRule value = some rule → first ≤ last →
    rule.Fits e.start.date last
  ends : ∀ d, e.ShownIn first last d → d ∉ e.exdates → ∀ t, e.end = some t →
    NaiveDate.minDay ≤ d.days + (t.date.days - e.start.date.days) ∧
      d.days + (t.date.days - e.start.date.days) ≤ NaiveDate.maxDay
  triggers : ∀ d, e.ShownIn first last d → d ∉ e.exdates → ∀ «end» start,
    endOn e d = some «end» → instant db (onDate e.start d) «local» = some start →
      ∀ a ∈ e.alarms, a.Timed («end».bind (instant db · «local»))

variable {db : ZoneDb} {«local» : Tz} {«from» «to» : DateTimeUtc} {first last d : NaiveDate}
  {e : Event} {events : List Event} {t : DateTimeUtc}

theorem clock_inRange (h : Fin 24) (m : Fin 60) : (h : Nat) < 24 ∧ (m : Nat) < 60 ∧ 0 ≤ 60 :=
  ⟨h.isLt, m.isLt, Nat.zero_le 60⟩

def clock (h : Fin 24) (m : Fin 60) : NaiveTime := ⟨h, m, 0, clock_inRange h m⟩

/-- An event every week, with an alarm so many seconds from its start. -/
def weekly (start : CalTime) (seconds : Int) : Event :=
  { uid := ['m'], summary := [], start := start, «end» := none, location := [],
    rrule := some "FREQ=WEEKLY".toList, exdates := [],
    alarms := [⟨.relative seconds .start, none⟩] }

end Arlen.Calendar
