import Arlen.Calendar.Delete
import Arlen.Calendar.Overflow

/-!
# What the agenda shows behind a deletion

The dates of the master as the deleted text reads: without the date for one occurrence,
the dates before it for the rest. A rule that is left nothing to show falls back on the
start of the series, so the rest from the first shown date on goes only where the file
excludes the start. What is left are the dates the walk comes to before the first that
goes, so a walk that turns back loses dates.
-/

namespace Arlen.Calendar

open Arlen.Lib

variable {uid text value : List Char} {lead : List Piece} {turns : List Turn} {m m' : Event}
  {rule : Rule} {d last today start «from» «to» : NaiveDate} {shown out : List NaiveDate}

/-! ### The dates of a changed master -/

/-- The dates the rule's walk comes to before the first that is not before `d`. -/
def Rule.before (rule : Rule) (start d : NaiveDate) : List NaiveDate :=
  (rule.candidates start).takeWhile (· < d)

/-- The file holds one master of the uid, its rule is accepted, and `shown` is what the
agenda shows of it. -/
structure Shows (text uid : List Char) (m : Event) (rule : Rule) (today : NaiveDate)
    (shown : List NaiveDate) : Prop where
  master : ∃ evs, parseEvents text = some (.ok evs) ∧ masters uid evs = [m]
  accepted : ∃ value, m.rrule = some value ∧ parseRule value = some rule
  shown : occurrences m today = some shown

end Arlen.Calendar
