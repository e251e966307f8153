import Arlen.Calendar.Rrule

/-!
# Alarms

`daemons/clock/src/alarm.rs` and `state.rs`: what the clock daemon keeps, and when
an alarm next rings. A time zone says on which date an instant falls and which
instants a local time names. Instants are milliseconds since the epoch.
-/

namespace Arlen.Clock

open Arlen.Lib Arlen.Calendar

/-- One alarm. `days` are `0` to `6` from Monday on; none means once. -/
structure Alarm where
  id : String
  time : String
  label : String
  days : List Nat
  onDate : Option NaiveDate
  payload : Option String
  enabled : Bool
  fireLate : Bool
  nextFireAt : Option Int
deriving DecidableEq

structure Timer where
  id : String
  durationMs : Int
  endsAt : Option Int
  remainingMs : Option Int
  paused : Bool
deriving DecidableEq

inductive FocusPhase where
  | focus
  | rest
deriving DecidableEq

structure FocusSession where
  phase : FocusPhase
  round : Nat
  rounds : Nat
  endsAt : Int
  held : List String
deriving DecidableEq

/-- The lengths are in minutes. -/
structure FocusConfig where
  focusMin : Nat := 25
  breakMin : Nat := 5
  rounds : Nat := 4
deriving DecidableEq

structure Stopwatch where
  running : Bool := false
  startedAt : Option Int := none
  accumulatedMs : Int := 0
  laps : List Int := []
deriving DecidableEq

structure WorldCity where
  id : String
  name : String
  zone : String
deriving DecidableEq

structure ClockState where
  wakeCapable : Bool := false
  alarms : List Alarm := []
  timers : List Timer := []
  focus : Option FocusSession := none
  focusConfig : FocusConfig := {}
  stopwatch : Stopwatch := {}
  world : List WorldCity := []
deriving DecidableEq

/-! ### Time zones -/

/-- `chrono::LocalResult`: the instants a local time names. -/
inductive LocalResult where
  | none
  | single (ms : Int)
  | ambiguous (first second : Int)

/-- `chrono::TimeZone`, as far as an alarm asks it. -/
structure Zone where
  dateOf : Int → Option NaiveDate
  fromLocal : NaiveDate → NaiveTime → LocalResult

/-- The first local time behind a gap, a minute at a time and not past midnight. -/
def probe (tz : Zone) (day : NaiveDate) (minute : Nat) : Nat → Option Int
  | 0 => none
  | tries + 1 =>
    let minute := minute + 1
    if minute % 1440 = 0 then none
    else
      match tz.fromLocal day (.ofSeconds (60 * minute)) with
      | .single ms => some ms
      | _ => probe tz day minute tries

/-- A local time as an instant. -/
def resolveLocal (tz : Zone) (day : NaiveDate) (t : NaiveTime) : Option Int :=
  match tz.fromLocal day t with
  | .single ms => some ms
  | .ambiguous first _ => some first
  | .none => probe tz day (60 * t.hour + t.minute) 60

/-! ### The next ring -/

/-- `HH:MM`. -/
def parseHhmm (text : String) : Option NaiveTime := do
  let (h, m) ← Text.splitOnce ':' text.toList
  if Text.byteLen h ≠ 2 ∨ Text.byteLen m ≠ 2 then none
  else NaiveTime.fromHmsOpt (← parseU32 h) (← parseU32 m) 0

/-- The first instant behind `now` among the days ahead. Chrono panics past its last
date; here there is no such day. -/
def firstAhead (tz : Zone) (a : Alarm) (t : NaiveTime) (now : Int) (today : NaiveDate) :
    List Nat → Option Int
  | [] => none
  | ahead :: rest =>
    match today.addDays ahead with
    | none => none
    | some day =>
      if a.days ≠ [] ∧ day.daysFromMonday.toNat ∉ a.days then firstAhead tz a t now today rest
      else if a.days = [] ∧ 1 < ahead then none
      else
        match resolveLocal tz day t with
        | none => firstAhead tz a t now today rest
        | some ms => if now < ms then some ms else firstAhead tz a t now today rest

/-- `next_fire_at`. -/
def nextFireAt (tz : Zone) (a : Alarm) (now : Int) : Option Int := do
  if a.enabled = false then none
  else
    let t ← parseHhmm a.time
    let today ← tz.dateOf now
    match a.onDate with
    | some date =>
      if a.days ≠ [] then none
      else
        let ms ← resolveLocal tz date t
        if now < ms then some ms else none
    | none => firstAhead tz a t now today (List.range 8)

variable {tz : Zone} {a : Alarm} {now ms : Int}

theorem lt_of_firstAhead {t : NaiveTime} {today : NaiveDate} {l : List Nat}
    (h : firstAhead tz a t now today l = some ms) : now < ms := by
  induction l with
  | nil => cases h
  | cons ahead rest ih =>
    unfold firstAhead at h
    split at h
    · cases h
    · split at h
      · exact ih h
      · split at h
        · cases h
        · split at h
          · exact ih h
          · split at h
            · next hlt =>
              cases h
              exact hlt
            · exact ih h

/-- The next ring is ahead. -/
theorem lt_of_nextFireAt (h : nextFireAt tz a now = some ms) : now < ms := by
  unfold nextFireAt at h
  split at h
  · cases h
  · obtain ⟨t, -, h⟩ := Option.bind_eq_some_iff.1 h
    obtain ⟨today, -, h⟩ := Option.bind_eq_some_iff.1 h
    cases hd : a.onDate with
    | none =>
      rw [hd] at h
      exact lt_of_firstAhead h
    | some date =>
      simp only [hd] at h
      split at h
      · cases h
      · obtain ⟨at', -, h⟩ := Option.bind_eq_some_iff.1 h
        split at h
        · next hlt =>
          cases h
          exact hlt
        · cases h

@[simp] theorem nextFireAt_of_disabled (h : a.enabled = false) : nextFireAt tz a now = none := by
  unfold nextFireAt
  rw [if_pos h]

end Arlen.Clock
