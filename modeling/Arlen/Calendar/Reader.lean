import Arlen.Calendar.Time

/-!
# Reading a calendar file

`parse_events`: the text is cut into lines, folded lines are joined, and the
lines are read one after another by a small machine that knows the event and the
alarm it is in. Times keep the form the file wrote them in. Where the source
panics, on an end past chrono's range, there is no result; machine integers wrap,
as in a build without overflow checks.
-/

namespace Arlen.Calendar

open Arlen.Lib

/-- A date-time as the file wrote it. -/
inductive CalTime
  | day (d : NaiveDate)
  | floating (at_ : NaiveDateTime)
  | utc (at_ : NaiveDateTime)
  | zoned (at_ : NaiveDateTime) (tzid : List Char)
deriving DecidableEq

/-- The wall-clock date this falls on, in its own terms. -/
def CalTime.date : CalTime → NaiveDate
  | .day d => d
  | .floating dt | .utc dt | .zoned dt _ => dt.date

inductive Related
  | start
  | «end»
deriving DecidableEq

inductive Trigger
  | relative (seconds : Int) (related : Related)
  | absolute (t : CalTime)
deriving DecidableEq

structure Alarm where
  trigger : Trigger
  action : Option (List Char)
deriving DecidableEq

structure Event where
  uid : List Char
  summary : List Char
  start : CalTime
  «end» : Option CalTime
  location : List Char
  rrule : Option (List Char)
  exdates : List NaiveDate
  alarms : List Alarm
deriving DecidableEq

inductive IcsError
  | notCalendar
deriving DecidableEq

/-! ### Lines -/

/-- The lines of a file, each without its line end. -/
def physicalLines (text : List Char) : List (List Char) := (text.splitOn '\n').map dropCr

/-- What a continuation line adds to the line before it. -/
def continuation : List Char → Option (List Char)
  | ' ' :: rest => some rest
  | '\t' :: rest => some rest
  | _ => none

/-- One line of the file: it continues the last line, or stands for itself. -/
def unfoldStep (out : List (List Char)) (line : List Char) : List (List Char) :=
  match continuation line, out.getLast? with
  | some rest, some last => out.dropLast ++ [last ++ rest]
  | _, _ => out ++ [line]

def unfoldLines (lines : List (List Char)) : List (List Char) := lines.foldl unfoldStep []

def unfold (text : List Char) : List (List Char) := unfoldLines (physicalLines text)

/-! ### Properties -/

/-- A property line split into its name, parameters and value. -/
structure Property where
  name : List Char
  params : List (List Char × List Char)
  value : List Char
deriving DecidableEq

def Property.param (p : Property) (key : List Char) : Option (List Char) :=
  (p.params.find? fun kv => Text.eqIgnoreAsciiCase kv.1 key).map Prod.snd

/-- The line before and behind the first colon outside quotes. -/
def splitUnquoted : Bool → List Char → Option (List Char × List Char)
  | _, [] => none
  | inQuotes, c :: cs =>
    if c = ':' ∧ inQuotes = false then some ([], cs)
    else (splitUnquoted (if c = '"' then !inQuotes else inQuotes) cs).map fun (head, value) =>
      (c :: head, value)

def parseParam (p : List Char) : Option (List Char × List Char) :=
  (Text.splitOnce '=' p).map fun (k, v) =>
    (Text.toUppercase (Text.trim k), Text.trimMatches '"' (Text.trim v))

/-- Split `NAME;PARAM=value:the value`. -/
def parseProperty (line : List Char) : Option Property :=
  match splitUnquoted false line with
  | none => none
  | some (head, value) =>
    match head.splitOn ';' with
    | [] => none
    | name :: params =>
      some { name := Text.toUppercase (Text.trim name),
             params := params.filterMap parseParam,
             value := value }

/-- Undo TEXT escaping. -/
def unescape : List Char → List Char
  | [] => []
  | ['\\'] => ['\\']
  | '\\' :: c :: cs => (if c = 'n' ∨ c = 'N' then '\n' else c) :: unescape cs
  | c :: cs => c :: unescape cs

/-! ### Times, durations and triggers -/

/-- Read a DATE or DATE-TIME value into the form the file wrote it. -/
def parseTime (prop : Property) : Option CalTime :=
  let v := Text.trim prop.value
  if (prop.param "VALUE".toList).any (Text.eqIgnoreAsciiCase · "DATE".toList)
      || Text.byteLen v == 8 then
    (NaiveDate.parse v).map .day
  else
    match Text.stripSuffix ['Z'] v with
    | some stripped => (NaiveDateTime.parse stripped).map .utc
    | none =>
      (NaiveDateTime.parse v).map fun dt =>
        match prop.param "TZID".toList with
        | some tzid => if tzid = [] then .floating dt else .zoned dt tzid
        | none => .floating dt

/-- `str::parse::<i64>` of a run of digits. -/
def parseI64 (ds : List Char) : Option Int := (scanDigits ds []).map fun (n, _) => (n : Int)

def dateUnit : Char → Option Int
  | 'W' => some (7 * 86400)
  | 'D' => some 86400
  | _ => none

def timeUnit : Char → Option Int
  | 'H' => some 3600
  | 'M' => some 60
  | 'S' => some 1
  | _ => none

/-- An `i64` after a wrapping step. -/
def wrapI64 (n : Int) : Int := (n + 2 ^ 63) % 2 ^ 64 - 2 ^ 63

/-- One part of a duration, digits and units. -/
def durationPart (unit : Char → Option Int) : List Char → Int → List Char → Option Int
  | ds, total, [] => if ds = [] then some total else none
  | ds, total, c :: cs =>
    if c.isDigit then durationPart unit (ds ++ [c]) total cs
    else
      match parseI64 ds, unit c with
      | some n, some k => durationPart unit [] (wrapI64 (total + n * k)) cs
      | _, _ => none

/-- Read an ISO 8601 duration, in seconds. -/
def parseDuration (value : List Char) : Option Int :=
  let v := Text.trim value
  let (sign, v) : Int × List Char :=
    match v with
    | '-' :: rest => (-1, rest)
    | '+' :: rest => (1, rest)
    | v => (1, v)
  match v with
  | 'P' :: v =>
    let (datePart, timePart) : List Char × Option (List Char) :=
      match Text.splitOnce 'T' v with
      | some (d, t) => (d, some t)
      | none => (v, none)
    match durationPart dateUnit [] 0 datePart with
    | none => none
    | some total =>
      match timePart with
      | none => some (wrapI64 (sign * total))
      | some t => (durationPart timeUnit [] total t).map fun total => wrapI64 (sign * total)
  | _ => none

/-- A `TRIGGER` value: a duration from one end of the event, or a fixed instant. -/
def parseTrigger (prop : Property) : Option Trigger :=
  let absolute := (prop.param "VALUE".toList).any fun v =>
    Text.eqIgnoreAsciiCase v "DATE-TIME".toList || Text.eqIgnoreAsciiCase v "DATE".toList
  if absolute then (parseTime prop).map .absolute
  else
    let related :=
      if (prop.param "RELATED".toList).any (Text.eqIgnoreAsciiCase · "END".toList) then
        Related.end
      else Related.start
    (parseDuration prop.value).map (Trigger.relative · related)

/-- Add seconds to a time, keeping its form. A delta chrono cannot hold counts as
none at all. -/
def shift (start : CalTime) (seconds : Int) : Option CalTime :=
  let delta := if |seconds| ≤ 9223372036854775 then seconds else 0
  match start with
  | .day d => (d.addDays (delta.tdiv 86400)).map .day
  | .floating dt => (dt.checkedAdd delta).map .floating
  | .utc dt => (dt.checkedAdd delta).map .utc
  | .zoned dt tzid => (dt.checkedAdd delta).map (.zoned · tzid)

/-! ### The machine -/

/-- A VEVENT part-read. The three times stay apart until the end of the block
because which of them wins depends on the others. -/
structure Pending where
  start : Option CalTime
  «end» : Option CalTime
  duration : Option Int
  ev : Event
deriving DecidableEq

def Pending.new : Pending :=
  { start := none, «end» := none, duration := none,
    ev := { uid := [], summary := [], start := .day .epoch, «end» := none, location := [],
            rrule := none, exdates := [], alarms := [] } }

structure Reading where
  events : List Event
  current : Option Pending
  alarm : Option (Option Trigger × Option (List Char))
deriving DecidableEq

def Reading.new : Reading := { events := [], current := none, alarm := none }

/-- A property inside a VALARM. -/
def readAlarm (prop : Property) (a : Option Trigger × Option (List Char)) :
    Option Trigger × Option (List Char) :=
  if prop.name = "TRIGGER".toList then (parseTrigger prop, a.2)
  else if prop.name = "ACTION".toList then
    (a.1, some (Text.toAsciiUppercase (Text.trim prop.value)))
  else a

/-- The dates of an EXDATE list. -/
def exdatesOf (prop : Property) : List NaiveDate :=
  (prop.value.splitOn ',').filterMap fun one =>
    (parseTime { prop with value := Text.trim one }).map CalTime.date

/-- A property inside a VEVENT. -/
def readEvent (prop : Property) (p : Pending) : Pending :=
  if prop.name = "UID".toList then { p with ev.uid := unescape prop.value }
  else if prop.name = "SUMMARY".toList then { p with ev.summary := unescape prop.value }
  else if prop.name = "LOCATION".toList then { p with ev.location := unescape prop.value }
  else if prop.name = "RRULE".toList then { p with ev.rrule := some (Text.trim prop.value) }
  else if prop.name = "EXDATE".toList then
    { p with ev.exdates := p.ev.exdates ++ exdatesOf prop }
  else if prop.name = "DTSTART".toList then { p with start := parseTime prop }
  else if prop.name = "DTEND".toList then { p with «end» := parseTime prop }
  else if prop.name = "DURATION".toList then { p with duration := parseDuration prop.value }
  else p

/-- The event of a finished block; one without a start is dropped. -/
def Pending.finish (p : Pending) : Option (List Event) :=
  match p.start with
  | none => some []
  | some start =>
    match p.end, p.duration with
    | some e, _ => some [{ p.ev with start := start, «end» := some e }]
    | none, some secs =>
      (shift start secs).map fun e => [{ p.ev with start := start, «end» := some e }]
    | none, none => some [{ p.ev with start := start, «end» := none }]

/-- The lines that open and close a block. -/
inductive Marker
  | beginAlarm
  | endAlarm
  | beginEvent
  | endEvent
deriving DecidableEq

def Marker.text : Marker → List Char
  | .beginAlarm => "BEGIN:VALARM".toList
  | .endAlarm => "END:VALARM".toList
  | .beginEvent => "BEGIN:VEVENT".toList
  | .endEvent => "END:VEVENT".toList

def markerOf (line : List Char) : Option Marker :=
  if Text.eqIgnoreAsciiCase line Marker.beginAlarm.text then some .beginAlarm
  else if Text.eqIgnoreAsciiCase line Marker.endAlarm.text then some .endAlarm
  else if Text.eqIgnoreAsciiCase line Marker.beginEvent.text then some .beginEvent
  else if Text.eqIgnoreAsciiCase line Marker.endEvent.text then some .endEvent
  else none

/-- An alarm with no trigger has no time to go off at and is dropped. -/
def closeAlarm (r : Reading) : Reading :=
  match r.alarm, r.current with
  | some (some trigger, action), some p =>
    { r with alarm := none,
             current := some { p with ev.alarms := p.ev.alarms ++ [⟨trigger, action⟩] } }
  | _, _ => { r with alarm := none }

/-- A line that is no marker of the block it stands in. -/
def readProperty (line : List Char) (r : Reading) : Reading :=
  match parseProperty line with
  | none => r
  | some prop =>
    match r.alarm, r.current with
    | some a, _ => { r with alarm := some (readAlarm prop a) }
    | none, some p => { r with current := some (readEvent prop p) }
    | none, none => r

def closeEvent (r : Reading) : Option Reading :=
  match r.current with
  | none => some r
  | some p => p.finish.map fun evs => { r with events := r.events ++ evs, current := none }

/-- One trimmed line. Inside an alarm only the markers of alarms count. -/
def readLine (r : Reading) (line : List Char) : Option Reading :=
  match markerOf line with
  | some .beginAlarm => some { r with alarm := some (none, none) }
  | some .endAlarm => some (closeAlarm r)
  | some .beginEvent =>
    some (if r.alarm.isSome then readProperty line r else { r with current := some .new })
  | some .endEvent => if r.alarm.isSome then some (readProperty line r) else closeEvent r
  | none => some (readProperty line r)

def isCalendarLine (line : List Char) : Bool :=
  Text.eqIgnoreAsciiCase (Text.trim line) "BEGIN:VCALENDAR".toList

/-- The machine over folded-out lines. -/
def readLines (r : Reading) (lines : List (List Char)) : Option Reading :=
  lines.foldlM (fun r line => readLine r (Text.trim line)) r

/-- Every VEVENT in one calendar file. -/
def parseEvents (text : List Char) : Option (Except IcsError (List Event)) :=
  let lines := unfold text
  if lines.any isCalendarLine then (readLines .new lines).map fun r => .ok r.events
  else some (.error .notCalendar)

/-! ### Lines of a joined text -/

section Lines

variable {l x : List Char} {ls acc : List (List Char)}

theorem dropCr_append_cr (l : List Char) : dropCr (l ++ ['\r']) = l := by
  unfold dropCr
  rw [if_pos (by simp), List.dropLast_concat]

theorem splitOn_append_newline {rest : List Char} (h : '\n' ∉ l) :
    (l ++ '\n' :: rest).splitOn '\n' = l :: rest.splitOn '\n' := by
  unfold List.splitOn
  rw [List.splitOnP_append_cons _ _ (by simp)]
  rw [List.splitOnP_eq_singleton (fun c hc => ?_), List.singleton_append]
  simp only [beq_eq_false_iff_ne, ne_eq]
  rintro rfl
  exact h hc

theorem splitOn_of_not_mem (h : '\n' ∉ l) : l.splitOn '\n' = [l] := by
  unfold List.splitOn
  refine List.splitOnP_eq_singleton fun c hc => ?_
  simp only [beq_eq_false_iff_ne, ne_eq]
  rintro rfl
  exact h hc

/-- Lines written each with its line end are the lines read. -/
theorem physicalLines_crlf (h : ∀ l ∈ ls, '\n' ∉ l) :
    physicalLines (ls.flatMap (· ++ ['\r', '\n'])) = ls ++ [[]] := by
  unfold physicalLines
  induction ls with
  | nil => rfl
  | cons l ls ih =>
    have hl : '\n' ∉ l ++ ['\r'] := by
      have := h l List.mem_cons_self
      simp [this]
    have hcons : (l :: ls).flatMap (· ++ ['\r', '\n']) =
        (l ++ ['\r']) ++ '\n' :: ls.flatMap (· ++ ['\r', '\n']) := by simp
    rw [hcons, splitOn_append_newline hl, List.map_cons, dropCr_append_cr,
      ih fun l hl => h l (List.mem_cons_of_mem _ hl), List.cons_append]

theorem unfoldStep_concat (line : List Char) :
    unfoldStep (acc ++ [x]) line = acc ++ unfoldStep [x] line := by
  unfold unfoldStep
  cases continuation line with
  | none => simp
  | some rest => simp

/-- Lines before the last one are done with. -/
theorem foldl_unfoldStep_concat :
    ls.foldl unfoldStep (acc ++ [x]) = acc ++ ls.foldl unfoldStep [x] := by
  induction ls generalizing acc x with
  | nil => rfl
  | cons l ls ih =>
    rw [List.foldl_cons, List.foldl_cons, unfoldStep_concat]
    obtain ⟨init, last, hstep⟩ : ∃ init last, unfoldStep [x] l = init ++ [last] := by
      unfold unfoldStep
      cases continuation l with
      | none => exact ⟨[x], l, rfl⟩
      | some rest => exact ⟨[], x ++ rest, rfl⟩
    rw [hstep, ← List.append_assoc, ih, ih, List.append_assoc]

theorem unfoldStep_of_continuation_none (h : continuation l = none) :
    unfoldStep acc l = acc ++ [l] := by
  unfold unfoldStep
  rw [h]

/-- A line that continues nothing begins a new one. -/
theorem foldl_unfoldStep_cons (h : continuation l = none) :
    (l :: ls).foldl unfoldStep acc = acc ++ ls.foldl unfoldStep [l] := by
  rw [List.foldl_cons, unfoldStep_of_continuation_none h, foldl_unfoldStep_concat]

theorem foldl_unfoldStep_spaced (pieces : List (List Char)) :
    (pieces.map (' ' :: ·)).foldl unfoldStep [x] = [x ++ pieces.flatten] := by
  induction pieces generalizing x with
  | nil => simp
  | cons p pieces ih =>
    rw [List.map_cons, List.foldl_cons]
    have hstep : unfoldStep [x] (' ' :: p) = [x ++ p] := rfl
    rw [hstep, ih, List.flatten_cons, List.append_assoc]

end Lines

/-! ### Property lines -/

section Lines

variable {head v : List Char}

theorem splitUnquoted_append (h : ∀ c ∈ head, c ≠ ':' ∧ c ≠ '"') :
    splitUnquoted false (head ++ ':' :: v) = some (head, v) := by
  induction head with
  | nil => simp [splitUnquoted]
  | cons c head ih =>
    obtain ⟨hc, hq⟩ := h c List.mem_cons_self
    rw [List.cons_append, splitUnquoted, if_neg (by simp [hc]), if_neg hq,
      ih fun c hc => h c (List.mem_cons_of_mem _ hc)]
    rfl

theorem toAsciiUppercase_of_markerOf {line : List Char} {m : Marker} (h : markerOf line = some m) :
    Text.toAsciiUppercase line = m.text := by
  have hup : ∀ m : Marker, Text.toAsciiUppercase m.text = m.text := by
    intro m
    cases m <;> decide
  unfold markerOf Text.eqIgnoreAsciiCase at h
  simp only [hup, beq_iff_eq] at h
  split_ifs at h with h₁ h₂ h₃ h₄ <;> cases h <;> assumption

/-- A line is a marker only by what stands before its colon. -/
theorem markerOf_eq_none_of_head (hc : ':' ∉ Text.toAsciiUppercase head)
    (hb : Text.toAsciiUppercase head ≠ "BEGIN".toList)
    (he : Text.toAsciiUppercase head ≠ "END".toList) : markerOf (head ++ ':' :: v) = none := by
  cases hm : markerOf (head ++ ':' :: v) with
  | none => rfl
  | some m =>
    have hcut : Text.splitOnce ':' m.text =
        some (Text.toAsciiUppercase head, Text.toAsciiUppercase v) := by
      rw [Text.splitOnce_eq_some, ← toAsciiUppercase_of_markerOf hm]
      exact ⟨List.map_append, hc⟩
    have hkey : Text.splitOnce ':' m.text = some ("BEGIN".toList, m.text.drop 6) ∨
        Text.splitOnce ':' m.text = some ("END".toList, m.text.drop 4) := by
      cases m <;> decide
    rcases hkey with hkey | hkey
    · rw [hkey, Option.some.injEq, Prod.mk.injEq] at hcut
      exact absurd hcut.1.symm hb
    · rw [hkey, Option.some.injEq, Prod.mk.injEq] at hcut
      exact absurd hcut.1.symm he

/-- A property name as the format writes it, and no block marker. -/
structure PropertyName (name : List Char) : Prop where
  upper : ∀ c ∈ name, c.isUpper = true
  notBegin : name ≠ "BEGIN".toList
  notEnd : name ≠ "END".toList
  ne_nil : name ≠ []

instance (name : List Char) : Decidable (PropertyName name) :=
  decidable_of_iff ((∀ c ∈ name, c.isUpper = true) ∧ name ≠ "BEGIN".toList ∧
      name ≠ "END".toList ∧ name ≠ [])
    ⟨fun ⟨h₁, h₂, h₃, h₄⟩ => ⟨h₁, h₂, h₃, h₄⟩, fun h => ⟨h.upper, h.notBegin, h.notEnd, h.ne_nil⟩⟩

theorem toNat_of_isUpper {c : Char} (h : c.isUpper = true) : 65 ≤ c.toNat ∧ c.toNat ≤ 90 := by
  have hrange := of_decide_eq_true h
  exact ⟨hrange.1, hrange.2⟩

theorem toUpper_of_isUpper {c : Char} (h : c.isUpper = true) : c.toUpper = c := by
  obtain ⟨_, h₂⟩ := toNat_of_isUpper h
  unfold Char.toUpper
  rw [dif_neg]
  intro hlow
  have h₃ : 97 ≤ c.toNat := hlow.1
  omega

theorem isWhitespace_of_isUpper {c : Char} (h : c.isUpper = true) : isWhitespace c = false := by
  obtain ⟨h₁, h₂⟩ := toNat_of_isUpper h
  unfold isWhitespace
  simp only [Bool.or_eq_false_iff, Bool.and_eq_false_iff, beq_eq_false_iff_ne,
    decide_eq_false_iff_not]
  omega

theorem toUppercase_of_isUpper {s : List Char} (h : ∀ c ∈ s, c.isUpper = true) :
    Text.toUppercase s = s := by
  unfold Text.toUppercase
  induction s with
  | nil => rfl
  | cons c s ih =>
    have hc := h c List.mem_cons_self
    rw [List.flatMap_cons, ih fun c hc => h c (List.mem_cons_of_mem _ hc)]
    split
    all_goals first
      | exact absurd hc (by decide)
      | rw [toUpper_of_isUpper hc, List.singleton_append]

theorem toAsciiUppercase_of_isUpper {s : List Char} (h : ∀ c ∈ s, c.isUpper = true) :
    Text.toAsciiUppercase s = s := by
  unfold Text.toAsciiUppercase
  rw [List.map_congr_left fun c hc => toUpper_of_isUpper (h c hc)]
  exact List.map_id' s

namespace PropertyName

variable {name : List Char} (hn : PropertyName name)
include hn

theorem not_mem {c : Char} (hc : c.isUpper = false) : c ∉ name := by
  intro hmem
  rw [hn.upper c hmem] at hc
  cases hc

theorem trim_eq : Text.trim name = name := by
  obtain ⟨c, cs, rfl⟩ := List.exists_cons_of_ne_nil hn.ne_nil
  rw [Text.trim_cons (isWhitespace_of_isUpper (hn.upper c List.mem_cons_self))]
  unfold Text.trimEnd
  rw [List.rdropWhile_eq_self_iff.2]
  intro hne
  have hmem := hn.upper _ (List.mem_cons_of_mem c (List.getLast_mem hne))
  simp [isWhitespace_of_isUpper hmem]

theorem splitOn_eq : name.splitOnP (· == ';') = [name] := by
  refine List.splitOnP_eq_singleton fun c hc => ?_
  simp only [beq_eq_false_iff_ne, ne_eq]
  rintro rfl
  exact hn.not_mem (by decide) hc

theorem parseProperty_eq : parseProperty (name ++ ':' :: v) = some ⟨name, [], v⟩ := by
  have hsplit : splitUnquoted false (name ++ ':' :: v) = some (name, v) := by
    refine splitUnquoted_append fun c hc => ⟨?_, ?_⟩
    · rintro rfl
      exact hn.not_mem (by decide) hc
    · rintro rfl
      exact hn.not_mem (by decide) hc
  unfold parseProperty
  rw [hsplit]
  simp only [List.splitOn, hn.splitOn_eq, hn.trim_eq, toUppercase_of_isUpper hn.upper, List.filterMap_nil]

theorem markerOf_eq_none : markerOf (name ++ ':' :: v) = none := by
  have hup := toAsciiUppercase_of_isUpper hn.upper
  refine markerOf_eq_none_of_head ?_ ?_ ?_
  · rw [hup]
    exact hn.not_mem (by decide)
  · rw [hup]
    exact hn.notBegin
  · rw [hup]
    exact hn.notEnd

/-- A property with the one parameter `VALUE=DATE`. -/
theorem parseProperty_date :
    parseProperty (name ++ (";VALUE=DATE:".toList ++ v)) =
      some ⟨name, [("VALUE".toList, "DATE".toList)], v⟩ := by
  have hline : name ++ (";VALUE=DATE:".toList ++ v) =
      (name ++ ';' :: "VALUE=DATE".toList) ++ ':' :: v := by
    rw [List.append_assoc]
    rfl
  have hsplit : splitUnquoted false ((name ++ ';' :: "VALUE=DATE".toList) ++ ':' :: v) =
      some (name ++ ';' :: "VALUE=DATE".toList, v) := by
    refine splitUnquoted_append fun c hc => ?_
    rcases List.mem_append.1 hc with hc | hc
    · constructor
      · rintro rfl
        exact hn.not_mem (by decide) hc
      · rintro rfl
        exact hn.not_mem (by decide) hc
    · exact (by decide : ∀ c ∈ ';' :: "VALUE=DATE".toList, c ≠ ':' ∧ c ≠ '"') c hc
  have hparts : (name ++ ';' :: "VALUE=DATE".toList).splitOn ';' = [name, "VALUE=DATE".toList] := by
    unfold List.splitOn
    rw [List.splitOnP_append_cons _ _ (by simp), hn.splitOn_eq]
    rfl
  have hparam : ["VALUE=DATE".toList].filterMap parseParam =
      [("VALUE".toList, "DATE".toList)] := by decide
  unfold parseProperty
  rw [hline, hsplit]
  simp only [hparts, hn.trim_eq, toUppercase_of_isUpper hn.upper, hparam]

theorem markerOf_date : markerOf (name ++ (";VALUE=DATE:".toList ++ v)) = none := by
  have hup : Text.toAsciiUppercase (name ++ ';' :: "VALUE=DATE".toList) =
      name ++ ';' :: "VALUE=DATE".toList := by
    unfold Text.toAsciiUppercase
    rw [List.map_append]
    exact congrArg₂ _ (toAsciiUppercase_of_isUpper hn.upper) (by decide)
  have hline : name ++ (";VALUE=DATE:".toList ++ v) =
      (name ++ ';' :: "VALUE=DATE".toList) ++ ':' :: v := by
    rw [List.append_assoc]
    rfl
  have hsemi : ∀ s : List Char, ';' ∉ s → name ++ ';' :: "VALUE=DATE".toList ≠ s := by
    rintro s hs rfl
    exact hs (List.mem_append_right _ List.mem_cons_self)
  rw [hline]
  refine markerOf_eq_none_of_head ?_ ?_ ?_
  · rw [hup]
    intro hc
    rcases List.mem_append.1 hc with hc | hc
    · exact hn.not_mem (by decide) hc
    · exact (by decide : ':' ∉ ';' :: "VALUE=DATE".toList) hc
  · rw [hup]
    exact hsemi _ (by decide)
  · rw [hup]
    exact hsemi _ (by decide)

theorem readLine_date {evs : List Event} {p : Pending} :
    readLine ⟨evs, some p, none⟩ (name ++ (";VALUE=DATE:".toList ++ v)) =
      some ⟨evs, some (readEvent ⟨name, [("VALUE".toList, "DATE".toList)], v⟩ p), none⟩ := by
  unfold readLine readProperty
  rw [hn.markerOf_date, hn.parseProperty_date]

/-- What a trimmed property line does inside an event. -/
theorem readLine_eq {evs : List Event} {p : Pending} :
    readLine ⟨evs, some p, none⟩ (name ++ ':' :: v) =
      some ⟨evs, some (readEvent ⟨name, [], v⟩ p), none⟩ := by
  unfold readLine readProperty
  rw [hn.markerOf_eq_none, hn.parseProperty_eq]

theorem trim_line : Text.trim (name ++ ':' :: v) = name ++ ':' :: Text.trimEnd v := by
  obtain ⟨c, cs, rfl⟩ := List.exists_cons_of_ne_nil hn.ne_nil
  rw [List.cons_append, Text.trim_cons (isWhitespace_of_isUpper (hn.upper c List.mem_cons_self)),
    Text.trimEnd_append_cons (by decide), List.cons_append]

theorem trim_date : Text.trim (name ++ (";VALUE=DATE:".toList ++ v)) =
    name ++ (";VALUE=DATE:".toList ++ Text.trimEnd v) := by
  have hline : ∀ v : List Char, name ++ (";VALUE=DATE:".toList ++ v) =
      (name ++ ';' :: "VALUE=DATE".toList) ++ ':' :: v := by
    intro v
    rw [List.append_assoc]
    rfl
  obtain ⟨c, cs, rfl⟩ := List.exists_cons_of_ne_nil hn.ne_nil
  rw [hline, hline, List.cons_append, List.cons_append,
    Text.trim_cons (isWhitespace_of_isUpper (hn.upper c List.mem_cons_self)),
    Text.trimEnd_append_cons (by decide), List.cons_append]

end PropertyName

/-! ### Runs of the machine -/

theorem readLines_cons (r : Reading) (l : List Char) (ls : List (List Char)) :
    readLines r (l :: ls) = (readLine r (Text.trim l)).bind (readLines · ls) := rfl

theorem readLines_append (r : Reading) (ls ms : List (List Char)) :
    readLines r (ls ++ ms) = (readLines r ls).bind (readLines · ms) := List.foldlM_append

theorem readLines_of_readLine {r r' : Reading} {l : List Char} {ls : List (List Char)}
    (h : readLine r (Text.trim l) = some r') : readLines r (l :: ls) = readLines r' ls := by
  rw [readLines_cons, h, Option.bind_some]

end Lines

end Arlen.Calendar
