import Arlen.Calendar.Reader

/-!
# Writing one event

`vcalendar`: one event in a calendar of its own. Text values are escaped, the
rule is written as it is, and each line is folded to 75 octets, a continuation
beginning with a space.
-/

namespace Arlen.Calendar

open Arlen.Lib

/-- The event to write, in the terms the surface collects it. -/
structure NewEvent where
  uid : List Char
  summary : List Char
  date : NaiveDate
  start : Option NaiveTime
  «end» : Option NaiveTime
  location : List Char
  rrule : Option (List Char)
  stamp : NaiveDateTime

/-- The backslash goes first, or escaping the others would escape the escapes. -/
def escape (text : List Char) : List Char :=
  Text.replace '\r' [] <|
    Text.replace '\n' ['\\', 'n'] <|
      Text.replace ',' ['\\', ','] <|
        Text.replace ';' ['\\', ';'] <|
          Text.replace '\\' ['\\', '\\'] text

def foldLimit : Nat := 75

/-- The characters that fit into so many octets, and the rest. -/
def splitBudget : Nat → List Char → List Char × List Char
  | _, [] => ([], [])
  | budget, c :: cs =>
    if c.utf8Size ≤ budget then
      let (head, rest) := splitBudget (budget - c.utf8Size) cs
      (c :: head, rest)
    else ([], c :: cs)

/-- The pieces of a long line. A character wider than the budget goes out whole
rather than never. -/
def foldPieces : Nat → Nat → List Char → List (List Char)
  | 0, _, _ => []
  | _ + 1, _, [] => []
  | fuel + 1, budget, c :: cs =>
    match splitBudget budget (c :: cs) with
    | ([], _) => [c] :: foldPieces fuel (foldLimit - 1) cs
    | (head, rest) => head :: foldPieces fuel (foldLimit - 1) rest

/-- Fold a content line to 75 octets, continuing with a leading space. -/
def fold (line : List Char) : List Char :=
  if Text.byteLen line ≤ foldLimit then line
  else "\r\n ".toList.intercalate (foldPieces line.length foldLimit line)

/-- The start, and the end when there are both. -/
def timeLines (e : NewEvent) : List (List Char) :=
  match e.start with
  | none => ["DTSTART;VALUE=DATE:".toList ++ e.date.format]
  | some t =>
    ("DTSTART:".toList ++ (NaiveDateTime.mk e.date t).format) ::
      match e.end with
      | none => []
      | some t => ["DTEND:".toList ++ (NaiveDateTime.mk e.date t).format]

/-- The rule, which is syntax and not escaped. -/
def ruleLines (e : NewEvent) : List (List Char) :=
  match e.rrule with
  | none => []
  | some rule => ["RRULE:".toList ++ rule]

def eventLines (e : NewEvent) : List (List Char) :=
  ["BEGIN:VCALENDAR".toList, "VERSION:2.0".toList, "PRODID:-//Arlen//Calendar//EN".toList,
    "BEGIN:VEVENT".toList, "UID:".toList ++ escape e.uid,
    "DTSTAMP:".toList ++ e.stamp.format ++ ['Z']] ++
  timeLines e ++
  ["SUMMARY:".toList ++ escape e.summary] ++
  (if e.location = [] then [] else ["LOCATION:".toList ++ escape e.location]) ++
  ruleLines e ++
  ["END:VEVENT".toList, "END:VCALENDAR".toList]

/-- One `VEVENT` in its own `VCALENDAR`. -/
def vcalendar (e : NewEvent) : List Char :=
  "\r\n".toList.intercalate ((eventLines e).map fold) ++ "\r\n".toList

end Arlen.Calendar
