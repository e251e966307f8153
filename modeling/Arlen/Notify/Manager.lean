import Arlen.Lib.Pool
import Arlen.Lib.Str

/-!
# The notification manager

`daemons/notification-daemon/src/manager/notification.rs`, with `should_suppress` of
`dnd/state.rs`: a notification is decided on under the lock of the DND state and acted on
later; leaving fullscreen flips the flag, then takes the whole queue, and sends the first five
of it. Each of these steps takes a lock of its own, and other calls go on between them. What
the rate limiter, the clock and the focus set answer is read from the environment. A call
carries a ticket, which the code has not, so that a notification is told from an equal one;
`pushed` and `drains` keep what was ever queued and what each flush took.
-/

namespace Arlen.Notify

open Arlen.Lib

/-! ## Decisions -/

inductive Priority where
  | low
  | normal
  | high
  | critical
deriving DecidableEq, Repr

/-- What a decision reads of a notification. -/
structure Notification where
  id : Nat
  appName : String
  priority : Priority
  category : String
deriving DecidableEq, Repr

inductive SuppressResult where
  | allow
  | suppress
  | queue
  | drop
deriving DecidableEq, Repr

inductive DndMode where
  | off
  | priority
  | alarms
  | total
  | scheduled
deriving DecidableEq, Repr

inductive ScheduleMode where
  | priority
  | alarms
  | total
deriving DecidableEq, Repr

inductive EffectiveMode where
  | off
  | priority
  | alarms
  | total
deriving DecidableEq, Repr

structure DndConfig where
  mode : DndMode := .off
  scheduleMode : ScheduleMode := .priority
  alwaysSuppress : List String := []
  alwaysAllow : List String := []
  suppressFullscreen : Bool := true
deriving DecidableEq, Repr

structure AppOverride where
  enabled : Option Bool
  suppress : Option Bool
  bypassDnd : Option Bool
deriving DecidableEq, Repr

structure Config where
  dnd : DndConfig := {}
  apps : List (String × AppOverride) := []
deriving DecidableEq, Repr

/-- What the clock and the focus set say at a decision: whether the mode has expired, whether
the schedule holds, and whether focus suppresses the app. -/
structure Reading where
  expired : Bool := false
  inSchedule : Bool := false
  focused : Bool := false
deriving DecidableEq, Repr

def effectiveMode (now : Reading) (c : DndConfig) : EffectiveMode :=
  if now.expired then .off
  else
    match c.mode with
    | .off => .off
    | .priority => .priority
    | .alarms => .alarms
    | .total => .total
    | .scheduled =>
      if now.inSchedule then
        match c.scheduleMode with
        | .priority => .priority
        | .alarms => .alarms
        | .total => .total
      else .off

def isAlarmCategory (category : String) : Bool :=
  let c := category.map Char.toLower
  startsWith c "alarm" || startsWith c "x-alarm" || startsWith c "reminder" ||
    startsWith c "x-reminder"

def checkFullscreen (fullscreenActive : Bool) (n : Notification) (c : DndConfig) :
    SuppressResult :=
  if n.priority = .critical then .allow
  else if c.suppressFullscreen && fullscreenActive then .queue
  else .allow

def shouldSuppress (fullscreenActive : Bool) (now : Reading) (n : Notification) (c : DndConfig)
    (appOverride : Option AppOverride) : SuppressResult :=
  if appOverride.bind (·.enabled) = some false then .drop
  else if appOverride.bind (·.suppress) = some true then .suppress
  else if c.alwaysSuppress.contains n.appName then .suppress
  else if c.alwaysAllow.contains n.appName then checkFullscreen fullscreenActive n c
  else if appOverride.bind (·.bypassDnd) = some true then checkFullscreen fullscreenActive n c
  else
    let effective := effectiveMode now c
    let allowedByMode :=
      match effective with
      | .off => true
      | .priority => n.priority == .critical
      | .alarms => isAlarmCategory n.category
      | .total => false
    if !allowedByMode then (if effective = .total then .drop else .suppress)
    else if n.priority ≠ .critical ∧ now.focused then .suppress
    else checkFullscreen fullscreenActive n c

/-! ## Calls -/

/-- A notification and the ticket of the call that brought it. -/
structure Toast where
  ticket : Nat
  notification : Notification
deriving DecidableEq, Repr

inductive CloseReason where
  | expired
  | dismissed
  | closed
  | undefined
deriving DecidableEq, Repr

inductive NotifyEvent where
  | added (t : Toast)
  | closed (id : Nat) (reason : CloseReason)
deriving DecidableEq, Repr

structure Manager where
  fullscreenActive : Bool := false
  fullscreenQueue : List Toast := []
  events : List NotifyEvent := []
  nextTicket : Nat := 0
  pushed : List Toast := []
  drains : List (List Toast) := []
deriving DecidableEq, Repr

inductive Call where
  | notify (n : Notification)
  | close (id : Nat) (reason : CloseReason)
  | setFullscreen (active : Bool)
deriving DecidableEq, Repr

/-- Where a call stands: the lock it takes next, and what it holds. -/
inductive Pc where
  | limiting (t : Toast)
  | configuring (t : Toast)
  | deciding (t : Toast) (config : Config)
  | acting (t : Toast) (result : SuppressResult)
  | closing (id : Nat) (reason : CloseReason)
  | flipping (active : Bool)
  | draining
  | sending (toSend : List Toast)
deriving DecidableEq, Repr

/-- What a step reads of its environment: the rate limiter's answer, the configuration, and the
clock and the focus set. -/
structure Env where
  allowed : Bool := true
  config : Config := {}
  now : Reading := {}
deriving DecidableEq, Repr

def start (m : Manager) : Call → Manager × Pc
  | .notify n => ({ m with nextTicket := m.nextTicket + 1 }, .limiting ⟨m.nextTicket, n⟩)
  | .close id reason => (m, .closing id reason)
  | .setFullscreen active => (m, .flipping active)

/-- The flush sends at most this many. -/
def maxFlushed : Nat := 5

/-- One step of a call. The guard of the configuration is kept until the decision, so the
decision is made with the configuration read then. -/
def advance (m : Manager) (pc : Pc) (env : Env) : Manager × Option Pc :=
  match pc with
  | .limiting t => (m, if env.allowed then some (.configuring t) else none)
  | .configuring t => (m, some (.deciding t env.config))
  | .deciding t config =>
    (m, some (.acting t (shouldSuppress m.fullscreenActive env.now t.notification config.dnd
      (config.apps.lookup t.notification.appName))))
  | .acting t result =>
    match result with
    | .allow => ({ m with events := m.events ++ [.added t] }, none)
    | .suppress => (m, none)
    | .queue =>
      ({ m with fullscreenQueue := m.fullscreenQueue ++ [t], pushed := m.pushed ++ [t] }, none)
    | .drop => (m, none)
  | .closing id reason => ({ m with events := m.events ++ [.closed id reason] }, none)
  | .flipping active =>
    ({ m with fullscreenActive := active }, if active then none else some .draining)
  | .draining =>
    ({ m with fullscreenQueue := [], drains := m.drains ++ [m.fullscreenQueue] },
      some (.sending (m.fullscreenQueue.take maxFlushed)))
  | .sending [] => (m, none)
  | .sending (t :: rest) => ({ m with events := m.events ++ [.added t] }, some (.sending rest))

def program : Program Manager Pc Call Env := ⟨start, advance⟩

/-- The daemon's calls, in any interleaving. -/
def daemon : Machine (Pool Manager Pc) (Turn Call Env) Unit := program.machine {}

end Arlen.Notify
