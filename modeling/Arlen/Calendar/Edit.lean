import Arlen.Calendar.Writer

/-!
# Editing a calendar's text

`delete_event` and `update_event` work on the lines of the file: they cut out the
VEVENT blocks, change the blocks that carry the uid, and leave every other line
where it was. Both run the same loop; what they do with a block differs. Where the
source slices inside a character it panics and there is no result.
-/

namespace Arlen.Calendar

open Arlen.Lib

/-- Which occurrences of a recurring event an edit is meant to reach. -/
inductive Scope
  | this
  | following
  | all
deriving DecidableEq

/-- Whether a line begins with these letters in either case. -/
def hasPrefix (p line : List Char) : Bool := p.isPrefixOf (Text.toAsciiUppercase line)

def isBegin (line : List Char) : Bool := hasPrefix "BEGIN:VEVENT".toList line

def isEnd (line : List Char) : Bool := hasPrefix "END:VEVENT".toList line

def isCalendarEnd (line : List Char) : Bool := hasPrefix "END:VCALENDAR".toList line

/-- A line of the property, with or without parameters. -/
def isProperty (name line : List Char) : Bool :=
  hasPrefix (name ++ [':']) line || hasPrefix (name ++ [';']) line

/-- `YYYY-MM-DD` to the `YYYYMMDD` iCalendar writes. -/
def compactDate (date : List Char) : Option (List Char) :=
  match date.splitOn '-' with
  | [y, m, d] =>
    if Text.byteLen y = 4 ∧ Text.byteLen m = 2 ∧ Text.byteLen d = 2 ∧
        y.all Char.isDigit ∧ m.all Char.isDigit ∧ d.all Char.isDigit then
      some (y ++ m ++ d)
    else none
  | _ => none

/-- `YYYYMMDD` back to `YYYY-MM-DD`. -/
def spacedDate (stamp : List Char) : List Char :=
  stamp.take 4 ++ '-' :: (stamp.drop 4).take 2 ++ '-' :: (stamp.drop 6).take 2

/-- Whether a VEVENT block carries this uid. -/
def blockHasUid (block : List (List Char)) (uid : List Char) : Bool :=
  block.any fun l => hasPrefix "UID:".toList l && Text.trim (l.drop 4) == uid

/-- The block's `RECURRENCE-ID` value, when it is a correction to one occurrence. -/
def blockRecurrenceId (block : List (List Char)) : Option (List Char) :=
  block.findSome? fun l =>
    if hasPrefix "RECURRENCE-ID".toList l then
      (Text.splitOnce ':' l).map fun (_, v) => Text.trim v
    else none

/-- The day before a `YYYYMMDD` stamp, as another one. -/
def dayBefore (stamp : List Char) : Option (List Char) :=
  ((NaiveDate.parse stamp).bind NaiveDate.predOpt).map NaiveDate.format

/-- The day after a `YYYYMMDD` stamp. -/
def dayAfter (stamp : List Char) : Option (List Char) :=
  ((NaiveDate.parse stamp).bind NaiveDate.succOpt).map NaiveDate.format

/-- The parts of a rule that stay when its end is rewritten. -/
def keptParts (value : List Char) : List (List Char) :=
  ((value.splitOn ';').filter fun p =>
    !hasPrefix "UNTIL=".toList p && !hasPrefix "COUNT=".toList p).filter (· ≠ [])

/-- A rule line with its end rewritten; every other line stays. -/
def endRuleLine (before line : List Char) : List Char :=
  if hasPrefix "RRULE:".toList line then
    let (name, value) := (Text.splitOnce ':' line).getD ("RRULE".toList, [])
    name ++ ':' :: ([';'].intercalate (keptParts value) ++ ";UNTIL=".toList ++ before)
  else line

/-- End the block's rule the day before `stamp`. -/
def endRuleBefore (block : List (List Char)) (stamp : List Char) : List (List Char) :=
  match dayBefore stamp with
  | none => block
  | some before => block.map (endRuleLine before)

/-! ### The loop over the lines -/

/-- What becomes of a block: the lines put in its place, the lines for the end of
the calendar, and whether it was changed. -/
structure BlockEdit where
  keep : List (List Char)
  add : List (List Char)
  touched : Bool

structure Editing where
  out : List (List Char)
  block : List (List Char)
  extra : List (List Char)
  inEvent : Bool
  touched : Bool

/-- One line. A block is gathered from its first line to its last and then edited;
new blocks go in before the calendar ends. -/
def editLine (edit : List (List Char) → Option BlockEdit) (s : Editing) (line : List Char) :
    Option Editing :=
  if isBegin line then some { s with inEvent := true, block := [line] }
  else if s.inEvent = false then
    if isCalendarEnd line ∧ s.extra ≠ [] then
      some { s with out := s.out ++ s.extra ++ [line], extra := [] }
    else some { s with out := s.out ++ [line] }
  else if isEnd line then
    (edit (s.block ++ [line])).map fun e =>
      { out := s.out ++ e.keep, block := [], extra := s.extra ++ e.add, inEvent := false,
        touched := s.touched || e.touched }
  else some { s with block := s.block ++ [line] }

def Editing.new : Editing :=
  { out := [], block := [], extra := [], inEvent := false, touched := false }

/-- The line end of the file. -/
def lineEnding (text : List Char) : List Char :=
  if Text.contains "\r\n".toList text then "\r\n".toList else ['\n']

def editLines (edit : List (List Char) → Option BlockEdit) (lines : List (List Char)) :
    Option Editing := lines.foldlM (editLine edit) .new

/-- The text with its blocks edited, `some none` when no block was changed. -/
def editText (text : List Char) (edit : List (List Char) → Option BlockEdit) :
    Option (Option (List Char)) :=
  (editLines edit (physicalLines text)).map fun s =>
    if s.touched then some ((lineEnding text).intercalate (s.out ++ s.extra)) else none

/-! ### Deleting -/

/-- What deleting does with one block. -/
def deleteBlock (uid : List Char) (scope : Scope) (stamp : List Char)
    (block : List (List Char)) : BlockEdit :=
  if blockHasUid block uid = false then { keep := block, add := [], touched := false }
  else
    match scope with
    | .all => { keep := [], add := [], touched := true }
    | .this =>
      match blockRecurrenceId block with
      | some r =>
        if stamp.isPrefixOf r then { keep := [], add := [], touched := true }
        else { keep := block, add := [], touched := true }
      | none =>
        { keep := block.insertIdx (block.length - 1) ("EXDATE;VALUE=DATE:".toList ++ stamp),
          add := [], touched := true }
    | .following =>
      match blockRecurrenceId block with
      | some r =>
        if r < stamp then { keep := block, add := [], touched := true }
        else { keep := [], add := [], touched := true }
      | none => { keep := endRuleBefore block stamp, add := [], touched := true }

/-- The stamp an occurrence is aimed with; the whole series needs none. -/
def scopeStamp (scope : Scope) (occurrence : Option (List Char)) : Option (List Char) :=
  match scope with
  | .all => some []
  | _ => occurrence.bind compactDate

/-- Remove an event, or part of a series, from a calendar's text. -/
def deleteEvent (text uid : List Char) (scope : Scope) (occurrence : Option (List Char)) :
    Option (List Char) :=
  if uid = [] then none
  else
    match scopeStamp scope occurrence with
    | none => none
    | some stamp => (editText text fun block => some (deleteBlock uid scope stamp block)).join

/-! ### Changing -/

/-- What an edit changes about an event. -/
structure EventChanges where
  summary : Option (List Char)
  date : Option (List Char)
  allDay : Option Bool
  start : Option (Option (List Char))
  «end» : Option (Option (List Char))
  location : Option (List Char)
deriving DecidableEq

def EventChanges.none : EventChanges :=
  { summary := .none, date := .none, allDay := .none, start := .none, «end» := .none,
    location := .none }

def EventChanges.isEmpty (c : EventChanges) : Bool :=
  c.summary.isNone && c.date.isNone && c.allDay.isNone && c.start.isNone && c.end.isNone &&
    c.location.isNone

/-- Replace a property line, or put one in before `END:VEVENT`. -/
def setProperty (block : List (List Char)) (name line : List Char) : List (List Char) :=
  match block.findIdx? (isProperty name) with
  | some i => block.set i line
  | none => block.insertIdx (block.findIdx isEnd) line

/-- The raw value of a date-ish property, without its parameters. -/
def currentStamp (block : List (List Char)) (name : List Char) : Option (List Char) :=
  block.findSome? fun l =>
    if isProperty name l then (Text.splitOnce ':' l).map fun (_, v) => Text.trim v else none

/-- A property's time as `HH:MM`, when it has one. -/
def currentTime (block : List (List Char)) (name : List Char) : Option (Option (List Char)) :=
  match (currentStamp block name).bind (Text.splitOnce 'T') with
  | none => some none
  | some (_, time) =>
    if 4 ≤ Text.byteLen time then do
      let hours ← Text.takeBytes time 2
      let rest ← Text.dropBytes time 2
      let minutes ← Text.takeBytes rest 2
      some (some (hours ++ ':' :: minutes))
    else some none

/-- `HH:MM` to the `HHMMSS` iCalendar writes. -/
def hhmmss (time : List Char) : List Char :=
  let ds := (time.filter Char.isDigit).take 4
  ds ++ List.replicate (6 - ds.length) '0'

/-- The start or the end to write: as changed, as it was, or a default. -/
def timeOr (change : Option (Option (List Char))) (block : List (List Char))
    (name default : List Char) : Option (List Char) :=
  match change.join with
  | some t => some t
  | none => (currentTime block name).map fun t => t.getD default

/-- The date to write, when the block has one. -/
def dateToWrite (changes : EventChanges) (block : List (List Char)) :
    Option (Option (List Char)) :=
  match changes.date.bind compactDate with
  | some d => some (some d)
  | none =>
    match currentStamp block "DTSTART".toList with
    | none => some none
    | some s => (Text.takeBytes s (min 8 (Text.byteLen s))).map some

def isAllDay (changes : EventChanges) (block : List (List Char)) : Bool :=
  changes.allDay.getD
    ((block.find? (hasPrefix "DTSTART".toList)).any fun l =>
      Text.contains "VALUE=DATE".toList (Text.toAsciiUppercase l))

/-- The block with its start and end rewritten. -/
def writeTimes (changes : EventChanges) (allDay : Bool) (date : List Char)
    (block : List (List Char)) : Option (List (List Char)) :=
  if allDay then
    let block := setProperty block "DTSTART".toList ("DTSTART;VALUE=DATE:".toList ++ date)
    some (setProperty block "DTEND".toList
      ("DTEND;VALUE=DATE:".toList ++ (dayAfter date).getD date))
  else do
    let start ← timeOr changes.start block "DTSTART".toList "09:00".toList
    let end' ← timeOr changes.end block "DTEND".toList "10:00".toList
    let block := setProperty block "DTSTART".toList
      ("DTSTART:".toList ++ date ++ 'T' :: hhmmss start)
    some (setProperty block "DTEND".toList ("DTEND:".toList ++ date ++ 'T' :: hhmmss end'))

def setText (block : List (List Char)) (name : List Char) (text : Option (List Char)) :
    List (List Char) :=
  match text with
  | none => block
  | some t => setProperty block name (name ++ ':' :: escape t)

/-- Apply changes to one VEVENT block. The times are written even when the change says
nothing about them. -/
def applyChanges (block : List (List Char)) (changes : EventChanges) :
    Option (List (List Char) × Bool) :=
  if changes.isEmpty ∨ block = [] then some (block, false)
  else do
    let date ← dateToWrite changes block
    let texts := setText (setText block "SUMMARY".toList changes.summary)
      "LOCATION".toList changes.location
    match date with
    | none => some (texts, true)
    | some date => (writeTimes changes (isAllDay changes block) date texts).map (·, true)

/-- What changing does with one block. -/
def updateBlock (uid : List Char) (scope : Scope) (stamp : List Char) (changes : EventChanges)
    (newUid : List Char) (block : List (List Char)) : Option BlockEdit :=
  if blockHasUid block uid = false ∨ (blockRecurrenceId block).isSome then
    some { keep := block, add := [], touched := false }
  else
    match scope with
    | .all =>
      (applyChanges block changes).map fun (block, changed) =>
        { keep := block, add := [], touched := changed }
    | .this =>
      let overriding := setProperty (block.filter fun l => !hasPrefix "RRULE".toList l)
        "RECURRENCE-ID".toList ("RECURRENCE-ID;VALUE=DATE:".toList ++ stamp)
      (applyChanges overriding changes).map fun (overriding, changed) =>
        if changed then
          { keep := block.insertIdx (block.length - 1) ("EXDATE;VALUE=DATE:".toList ++ stamp),
            add := overriding, touched := true }
        else { keep := block, add := [], touched := false }
    | .following => do
      let rest := setProperty block "UID".toList ("UID:".toList ++ newUid)
      let (rest, _) ← applyChanges rest { EventChanges.none with date := some (spacedDate stamp) }
      let (rest, changed) ← applyChanges rest changes
      some (if changed then { keep := endRuleBefore block stamp, add := rest, touched := true }
        else { keep := block, add := [], touched := false })

/-- Change an event, or one occurrence, or the rest of a series. -/
def updateEvent (text uid : List Char) (scope : Scope) (occurrence : Option (List Char))
    (changes : EventChanges) (newUid : List Char) : Option (Option (List Char)) :=
  if uid = [] ∨ changes.isEmpty then some none
  else
    match scopeStamp scope occurrence with
    | none => some none
    | some stamp => editText text (updateBlock uid scope stamp changes newUid)

end Arlen.Calendar
