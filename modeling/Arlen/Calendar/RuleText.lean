import Arlen.Calendar.Layout
import Arlen.Calendar.RoundTrip
import Arlen.Calendar.Series

/-!
# Ending a rule in the text

`end_rule_before` rewrites an RRULE line: it drops the UNTIL and COUNT parts and
appends an UNTIL of its own. It looks at the line of the file, and at the parts of the
value as they are written; where these are plain, the rule read afterwards is the rule
read before, ended on that day.
-/

namespace Arlen.Calendar

open Arlen.Lib

variable {r r' r₁ : RuleParts} {part : List Char}

/-- The editor takes the part for what the reader does: it is not white space alone, and
one that is read as the count is one the editor takes out. -/
def plainPart (part : List Char) : Bool :=
  !part.all isWhitespace && (Text.splitOnce '=' part).all fun nv =>
    !(Text.toUppercase (Text.trim nv.1) == "COUNT".toList) || hasPrefix "COUNT=".toList part

def plainValue (value : List Char) : Bool := (ruleParts value).all plainPart

/-- The line is a rule to the editor or to the reader. -/
def ContentLine.isRule (c : ContentLine) : Bool :=
  hasPrefix "RRULE:".toList c.head ||
    (parseProperty (Text.trim c.text)).any (·.name == "RRULE".toList)

/-- The line is `RRULE:` and a plain value, and goes on with white space at most. -/
def ContentLine.plainRule (c : ContentLine) : Bool :=
  c.tail.all isBlank &&
    (Text.splitOnce ':' c.head).any fun nv =>
      Text.toAsciiUppercase nv.1 == "RRULE".toList && plainValue nv.2

/-- What is a rule to either of them is one to both. -/
def ContentLine.RuleOk (c : ContentLine) : Prop := c.isRule = true → c.plainRule = true

instance (c : ContentLine) : Decidable c.RuleOk := by unfold ContentLine.RuleOk; infer_instance

section Line

variable {written value : List Char} (hup : Text.toAsciiUppercase written = "RRULE".toList)
include hup

end Line

def Event.reRule (g : List Char → List Char) (e : Event) : Event := { e with rrule := e.rrule.map g }

def Pending.reRule (g : List Char → List Char) (p : Pending) : Pending := { p with ev := p.ev.reRule g }

def Reading.reRule (g : List Char → List Char) (r : Reading) : Reading :=
  { r with events := r.events.map (Event.reRule g), current := r.current.map (Pending.reRule g) }

variable {g : List Char → List Char}

variable {before : List Char}

end Arlen.Calendar
