import Arlen.Clock.Alarm

/-!
# What happens to the clock's state

The decision layer of the clock daemon: `focus.rs` and `run.rs`, the commands and
the machine's own events (`reduce.rs`), moments that arrive (`due.rs`), coming back
from a sleep or a restart (`missed.rs`, `startup.rs`) and the moment to wake for
(`wake.rs`). Every pass goes over the alarms one at a time: `advanceAlarm` and
`resumeAlarm` are what it does to one.
-/

namespace Arlen.Clock

/-! ### Focus sessions -/

def minMs : Int := 60000

namespace Focus

def start (config : FocusConfig) (held : List String) (now : Int) : FocusSession where
  phase := .focus
  round := 1
  rounds := max config.rounds 1
  endsAt := now + config.focusMin * minMs
  held := held

/-- The session behind its current phase. -/
def advance (s : FocusSession) (config : FocusConfig) (now : Int) : Option FocusSession :=
  match s.phase with
  | .focus =>
    if s.rounds ≤ s.round then none
    else some { s with phase := .rest, endsAt := now + config.breakMin * minMs }
  | .rest =>
    some { s with phase := .focus, round := s.round + 1, endsAt := now + config.focusMin * minMs }

def phaseElapsed (s : FocusSession) (now : Int) : Bool := s.endsAt ≤ now

end Focus

/-! ### Timers and the stopwatch -/

namespace Timer

def start (id : String) (durationMs now : Int) : Timer where
  id := id
  durationMs := durationMs
  endsAt := some (now + durationMs)
  remainingMs := none
  paused := false

def pause (t : Timer) (now : Int) : Timer :=
  match t.endsAt with
  | none => t
  | some endsAt =>
    { t with remainingMs := some (max (endsAt - now) 0), endsAt := none, paused := true }

def resume (t : Timer) (now : Int) : Timer :=
  match t.remainingMs with
  | none => t
  | some remaining =>
    { t with endsAt := some (now + remaining), remainingMs := none, paused := false }

end Timer

namespace Stopwatch

def foldRun (s : Stopwatch) (now : Int) : Stopwatch :=
  match s.startedAt with
  | none => s
  | some started =>
    { s with startedAt := none, accumulatedMs := s.accumulatedMs + max (now - started) 0 }

def start (s : Stopwatch) (now : Int) : Stopwatch :=
  if s.running = true ∧ s.startedAt.isSome then s
  else { s with running := true, startedAt := some now }

def pause (s : Stopwatch) (now : Int) : Stopwatch := { s.foldRun now with running := false }

def suspended (s : Stopwatch) (now : Int) : Stopwatch := if s.running then s.foldRun now else s

def resumed (s : Stopwatch) (now : Int) : Stopwatch :=
  if s.running = true ∧ s.startedAt = none then { s with startedAt := some now } else s

def clockStepped (s : Stopwatch) (oldNow newNow : Int) : Stopwatch :=
  { s with startedAt := s.startedAt.map (· + (newNow - oldNow)) }

def elapsed (s : Stopwatch) (now : Int) : Int :=
  s.accumulatedMs + (match s.startedAt with
    | none => 0
    | some started => max (now - started) 0)

def lap (s : Stopwatch) (now : Int) : Stopwatch := { s with laps := s.laps ++ [s.elapsed now] }

end Stopwatch

/-! ### The moment to wake for -/

/-- The moments the state names: enabled alarms, running timers, the focus phase. -/
def anchors (s : ClockState) : List Int :=
  (s.alarms.filter (·.enabled)).filterMap (·.nextFireAt) ++ s.timers.filterMap (·.endsAt) ++
    s.focus.toList.map (·.endsAt)

/-- `next_wake_at`: the earliest moment ahead. -/
def nextWakeAt (s : ClockState) (now : Int) : Option Int :=
  ((anchors s).filter (now < ·)).min?

/-! ### Moments that arrive -/

structure Due where
  alarms : List String
  timers : List String
  focus : Option (Option FocusSession)
deriving DecidableEq

def Due.isEmpty (d : Due) : Bool := d.alarms.isEmpty && d.timers.isEmpty && d.focus.isNone

/-- The alarm's moment has come. -/
def Alarm.isDue (a : Alarm) (now : Int) : Bool :=
  match a.nextFireAt with
  | none => false
  | some ms => ms ≤ now

/-- An alarm behind its moment: one that rings once turns itself off. -/
def advanceAlarm (tz : Zone) (now : Int) (a : Alarm) : Alarm :=
  if a.isDue now then
    if a.days = [] then { a with enabled := false, nextFireAt := none }
    else { a with nextFireAt := nextFireAt tz a now }
  else a

def Timer.isDue (t : Timer) (now : Int) : Bool :=
  match t.endsAt with
  | none => false
  | some ms => ms ≤ now

/-- `due::advance`. -/
def advance (tz : Zone) (s : ClockState) (now : Int) : Due × ClockState :=
  let next := match s.focus with
    | none => none
    | some session =>
      if Focus.phaseElapsed session now then some (Focus.advance session s.focusConfig now) else none
  (⟨(s.alarms.filter (·.isDue now)).map (·.id), (s.timers.filter (·.isDue now)).map (·.id), next⟩,
    { s with alarms := s.alarms.map (advanceAlarm tz now), focus := next.getD s.focus })

/-! ### Coming back -/

inductive Missed where
  | pending
  | fireLate
  | reschedule
deriving DecidableEq

def lateWindowMs : Int := 12 * 60 * 60 * 1000

/-- What a missed alarm deserves. -/
def verdict (a : Alarm) (now window : Int) : Missed :=
  if a.enabled = false then .reschedule
  else
    match a.nextFireAt with
    | none => .reschedule
    | some due =>
      if now < due then .pending
      else if a.fireLate = true ∧ now - due ≤ window then .fireLate
      else .reschedule

/-- Every anchor is derived again. -/
def resumeAlarm (tz : Zone) (now : Int) (a : Alarm) : Alarm :=
  { a with nextFireAt := nextFireAt tz a now }

structure Resumed where
  ringLate : List String
  wakeAt : Option Int
deriving DecidableEq

/-- `startup::resume`. -/
def resume (tz : Zone) (s : ClockState) (window now : Int) : Resumed × ClockState :=
  let late := s.alarms.filter fun a => verdict a now window = .fireLate
  let s' := { s with alarms := s.alarms.map (resumeAlarm tz now) }
  (⟨late.map (·.id), nextWakeAt s' now⟩, s')

/-! ### Commands and events -/

inductive Command where
  | setAlarm (a : Alarm)
  | toggleAlarm (id : String) (enabled : Bool)
  | deleteAlarm (id : String)
  | timerStart (id : String) (durationMs : Int)
  | timerSetPaused (id : String) (paused : Bool)
  | timerCancel (id : String)
  | focusStart (held : List String)
  | focusEnd
  | focusConfigure (config : FocusConfig)
  | stopwatchStart
  | stopwatchPause
  | stopwatchLap
  | stopwatchReset
  | worldAdd (id : String)
  | worldRemove (id : String)
deriving DecidableEq

inductive Event where
  | suspending
  | resumed
  | clockStepped (byMs : Int)
deriving DecidableEq

structure Effects where
  persist : Bool
  wakeAt : Option Int
deriving DecidableEq

/-- The first member of a list that `p` finds is replaced. -/
def replaceFirst {α : Type} (p : α → Bool) (f : α → α) : List α → List α
  | [] => []
  | a :: l => if p a then f a :: l else a :: replaceFirst p f l

def effects (before after : ClockState) (now : Int) : Effects :=
  ⟨before ≠ after, nextWakeAt after now⟩

/-- What a command makes of the state. -/
def reduced (tz : Zone) (cities : String → Option WorldCity) (s : ClockState) (now : Int) :
    Command → ClockState
  | .setAlarm a =>
    let a := { a with nextFireAt := nextFireAt tz a now }
    if s.alarms.any (·.id = a.id) then
      { s with alarms := replaceFirst (·.id = a.id) (fun _ => a) s.alarms }
    else { s with alarms := s.alarms ++ [a] }
  | .toggleAlarm id enabled =>
    let toggled (a : Alarm) : Alarm :=
      let a := { a with enabled := enabled }
      { a with nextFireAt := nextFireAt tz a now }
    { s with alarms := replaceFirst (·.id = id) toggled s.alarms }
  | .deleteAlarm id => { s with alarms := s.alarms.filter (·.id ≠ id) }
  | .timerStart id durationMs =>
    let t := Timer.start id durationMs now
    if s.timers.any (·.id = t.id) then
      { s with timers := replaceFirst (·.id = t.id) (fun _ => t) s.timers }
    else { s with timers := s.timers ++ [t] }
  | .timerSetPaused id paused =>
    let placed (t : Timer) : Timer := if paused then t.pause now else t.resume now
    { s with timers := replaceFirst (·.id = id) placed s.timers }
  | .timerCancel id => { s with timers := s.timers.filter (·.id ≠ id) }
  | .focusStart held => { s with focus := some (Focus.start s.focusConfig held now) }
  | .focusEnd => { s with focus := none }
  | .focusConfigure config => { s with focusConfig := config }
  | .stopwatchStart => { s with stopwatch := s.stopwatch.start now }
  | .stopwatchPause => { s with stopwatch := s.stopwatch.pause now }
  | .stopwatchLap => { s with stopwatch := s.stopwatch.lap now }
  | .stopwatchReset => { s with stopwatch := {} }
  | .worldAdd id =>
    if s.world.any (·.id = id) then s
    else
      match cities id with
      | none => s
      | some city => { s with world := s.world ++ [city] }
  | .worldRemove id => { s with world := s.world.filter (·.id ≠ id) }

/-- `reduce::apply`. -/
def apply (tz : Zone) (cities : String → Option WorldCity) (s : ClockState) (c : Command)
    (now : Int) : Effects × ClockState :=
  let s' := reduced tz cities s now c
  (effects s s' now, s')

/-- `reduce::observe`. -/
def observe (s : ClockState) (e : Event) (now : Int) : Effects × ClockState :=
  let s' := { s with stopwatch := match e with
    | .suspending => s.stopwatch.suspended now
    | .resumed => s.stopwatch.resumed now
    | .clockStepped byMs => s.stopwatch.clockStepped (now - byMs) now }
  (effects s s' now, s')

/-! ### What the passes do to one alarm -/

variable {tz : Zone} {a : Alarm} {now ms : Int}

theorem isDue_iff : a.isDue now = true ↔ ∃ ms, a.nextFireAt = some ms ∧ ms ≤ now := by
  unfold Alarm.isDue
  cases a.nextFireAt <;> simp

/-- Behind a pass every anchor is ahead. -/
theorem lt_of_advanceAlarm (h : (advanceAlarm tz now a).nextFireAt = some ms) : now < ms := by
  unfold advanceAlarm at h
  split at h
  · split at h
    · cases h
    · exact lt_of_nextFireAt h
  · next hdue =>
    by_contra hle
    exact hdue (isDue_iff.2 ⟨ms, h, Int.not_lt.1 hle⟩)

theorem lt_of_resumeAlarm (h : (resumeAlarm tz now a).nextFireAt = some ms) : now < ms :=
  lt_of_nextFireAt h

theorem verdict_eq_fireLate {window : Int} :
    verdict a now window = .fireLate ↔
      a.enabled = true ∧ a.fireLate = true ∧
        ∃ due, a.nextFireAt = some due ∧ due ≤ now ∧ now - due ≤ window := by
  unfold verdict
  cases a.enabled <;> cases a.nextFireAt <;> grind

end Arlen.Clock
