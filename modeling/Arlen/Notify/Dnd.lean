import Mathlib.Order.Basic
import Arlen.Lib.Case
import Arlen.Lib.Decimal
import Arlen.Notify.Manager

/-!
# Do not disturb

`DndState::should_suppress` of `dnd/state.rs` with all it reads: the expiry and
the schedule of the configuration against the clock, the override of the app,
the focus list and the fullscreen flag. Outcomes are ordered by how much of a
notification gets through. Trusting an app more, or raising a notification, never
lowers its outcome; trusting it less never raises it, except that an app that is
suppressed is no longer dropped by total silence.
-/

namespace Arlen.Notify

open Arlen.Lib

/-- How much gets through. -/
def SuppressResult.rank : SuppressResult → Nat
  | .drop => 0
  | .suppress => 1
  | .queue => 2
  | .allow => 3

theorem SuppressResult.rank_injective : Function.Injective SuppressResult.rank := by
  intro a b h
  cases a <;> cases b <;> first | rfl | cases h

instance : LinearOrder SuppressResult :=
  LinearOrder.lift' SuppressResult.rank SuppressResult.rank_injective

structure DndSchedule where
  start : String := "22:00"
  stop : String := "07:00"
  days : List Nat := []
  mode : ScheduleMode := .priority

/-- The configuration as it is stored. -/
structure DndSettings where
  mode : DndMode := .off
  expiresAt : Option String := none
  schedule : DndSchedule := {}
  alwaysSuppress : List String := []
  alwaysAllow : List String := []
  suppressFullscreen : Bool := true

/-- The instant, and what the local clock shows; Monday is day 0. -/
structure Clock where
  utcNow : Int
  hour : Nat
  minute : Nat
  weekday : Nat

structure FocusSuppression where
  activeProjectId : Option String := none
  suppressedApps : List String := []

structure DndState where
  fullscreenActive : Bool := false
  focus : FocusSuppression := {}

/-- `NaiveTime::from_hms_opt` of a time with whole minutes, as minutes of the day. -/
def minuteOfDay (hour minute : Nat) : Option Nat :=
  if hour < 24 ∧ minute < 60 then some (60 * hour + minute) else none

def parseTime (s : String) : Option Nat :=
  match s.toList.splitOn ':' with
  | [h, m] =>
    match parseUnsigned (2 ^ 32) h, parseUnsigned (2 ^ 32) m with
    | some h, some m => minuteOfDay h m
    | _, _ => none
  | _ => none

def isInScheduleAt (schedule : DndSchedule) (hour minute weekday : Nat) : Bool :=
  match parseTime schedule.start, parseTime schedule.stop with
  | some start, some stop =>
    let current := 60 * hour + minute
    let overnight := decide (stop < start)
    let inside :=
      if overnight then decide (start ≤ current) || decide (current < stop)
      else decide (start ≤ current) && decide (current < stop)
    if !inside then false
    else
      -- a night belongs to the day it started on
      let owner := if overnight && decide (current < stop) then (weekday + 6) % 7 else weekday
      schedule.days.isEmpty || schedule.days.contains owner
  | _, _ => false

namespace FocusSuppression

variable (T : CaseTables)

def activate (projectId : String) (suppressApps : List String) : FocusSuppression where
  activeProjectId := some projectId
  suppressedApps := suppressApps.map T.toLowercase

def isSuppressed (f : FocusSuppression) (appName : String) : Bool :=
  if f.activeProjectId.isNone then false
  else f.suppressedApps.contains (T.toLowercase appName)

/-- The focus list with one more app. -/
def add (f : FocusSuppression) (appName : String) : FocusSuppression :=
  { f with suppressedApps := T.toLowercase appName :: f.suppressedApps }

/-- An app on the list is suppressed while a project is in focus, and only then. -/
theorem isSuppressed_add (f : FocusSuppression) (app : String) :
    (f.add T app).isSuppressed T app = true ∨
      (f.add T app).isSuppressed T app = f.isSuppressed T app := by
  unfold isSuppressed add
  cases f.activeProjectId with
  | none => exact .inr rfl
  | some _ => exact .inl (List.contains_iff_mem.mpr List.mem_cons_self)

end FocusSuppression

section Decision

variable (T : CaseTables) (parseRfc3339 : String → Option Int)

/-- An expiry that is no timestamp never comes. -/
def isExpired (utcNow : Int) (iso : String) : Bool :=
  match parseRfc3339 iso with
  | some ts => decide (ts ≤ utcNow)
  | none => false

/-- What the decision reads of the configuration. -/
def DndSettings.config (c : DndSettings) : DndConfig where
  mode := c.mode
  scheduleMode := c.schedule.mode
  alwaysSuppress := c.alwaysSuppress
  alwaysAllow := c.alwaysAllow
  suppressFullscreen := c.suppressFullscreen

/-- What the clock and the focus set say of a notification. -/
def DndState.reading (s : DndState) (clock : Clock) (n : Notification) (c : DndSettings) :
    Reading where
  expired := c.expiresAt.any (isExpired parseRfc3339 clock.utcNow)
  inSchedule := isInScheduleAt c.schedule clock.hour clock.minute clock.weekday
  focused := s.focus.isSuppressed T n.appName

def DndState.shouldSuppress (s : DndState) (clock : Clock) (n : Notification) (c : DndSettings)
    (appOverride : Option AppOverride) : SuppressResult :=
  Notify.shouldSuppress s.fullscreenActive (s.reading T parseRfc3339 clock n c) n c.config
    appOverride

/-- The mode in force. -/
def DndSettings.modeNow (c : DndSettings) (clock : Clock) : EffectiveMode :=
  effectiveMode
    { expired := c.expiresAt.any (isExpired parseRfc3339 clock.utcNow)
      inSchedule := isInScheduleAt c.schedule clock.hour clock.minute clock.weekday } c.config

end Decision

/-! ### The rules in order -/

/-- What a mode lets through. -/
def allowedByMode (effective : EffectiveMode) (n : Notification) : Bool :=
  match effective with
  | .off => true
  | .priority => n.priority == .critical
  | .alarms => isAlarmCategory n.category
  | .total => false

/-- Steps six to eight: the mode, the focus list and the fullscreen window. -/
def modeVerdict (fullscreenActive : Bool) (now : Reading) (n : Notification) (c : DndConfig) :
    SuppressResult :=
  if !allowedByMode (effectiveMode now c) n then
    if effectiveMode now c = .total then .drop else .suppress
  else if n.priority ≠ .critical ∧ now.focused then .suppress
  else checkFullscreen fullscreenActive n c

/-- Steps four to eight, for an app that is trusted or not. -/
def trustVerdict (trusted fullscreenActive : Bool) (now : Reading) (n : Notification)
    (c : DndConfig) : SuppressResult :=
  if trusted then checkFullscreen fullscreenActive n c
  else modeVerdict fullscreenActive now n c

/-- The app is on the list that bypasses the modes, or its override says so. -/
def trusts (n : Notification) (c : DndConfig) (o : Option AppOverride) : Bool :=
  c.alwaysAllow.contains n.appName || decide (o.bind (·.bypassDnd) = some true)

/-- The app is to be suppressed, by its override or by the list. -/
def silences (n : Notification) (c : DndConfig) (o : Option AppOverride) : Bool :=
  decide (o.bind (·.suppress) = some true) || c.alwaysSuppress.contains n.appName

section Rules

variable {f : Bool} {now now' : Reading} {n : Notification} {c : DndConfig} {o : Option AppOverride}

theorem shouldSuppress_eq : shouldSuppress f now n c o =
    if o.bind (·.enabled) = some false then .drop
    else if silences n c o then .suppress
    else trustVerdict (trusts n c o) f now n c := by
  have rules : shouldSuppress f now n c o =
      if o.bind (·.enabled) = some false then .drop
      else if o.bind (·.suppress) = some true then .suppress
      else if c.alwaysSuppress.contains n.appName then .suppress
      else if c.alwaysAllow.contains n.appName then checkFullscreen f n c
      else if o.bind (·.bypassDnd) = some true then checkFullscreen f n c
      else modeVerdict f now n c := rfl
  rw [rules, silences, trusts, trustVerdict]
  by_cases hsuppress : o.bind (·.suppress) = some true
  · rw [if_pos hsuppress, decide_eq_true hsuppress, Bool.true_or, if_pos rfl]
  rw [if_neg hsuppress, decide_eq_false hsuppress, Bool.false_or]
  cases c.alwaysAllow.contains n.appName with
  | true => rfl
  | false =>
    by_cases hbypass : o.bind (·.bypassDnd) = some true
    · rw [if_pos hbypass, decide_eq_true hbypass]
      rfl
    · rw [if_neg hbypass, decide_eq_false hbypass]
      rfl

theorem suppress_le_checkFullscreen : SuppressResult.suppress ≤ checkFullscreen f n c := by
  unfold checkFullscreen
  split
  · decide
  · split <;> decide

/-- The modes and the focus list only lower what a trusted app gets. -/
theorem modeVerdict_le : modeVerdict f now n c ≤ checkFullscreen f n c := by
  unfold modeVerdict
  split
  · split
    · exact (by decide : SuppressResult.drop ≤ .suppress).trans suppress_le_checkFullscreen
    · exact suppress_le_checkFullscreen
  · split
    · exact suppress_le_checkFullscreen
    · exact le_refl _

theorem trustVerdict_le {trusted : Bool} :
    trustVerdict trusted f now n c ≤ checkFullscreen f n c := by
  cases trusted with
  | true => exact le_refl _
  | false => exact modeVerdict_le

/-- Total silence is the only mode that drops. -/
theorem modeVerdict_eq_drop (h : modeVerdict f now n c = .drop) :
    effectiveMode now c = .total := by
  unfold modeVerdict at h
  split at h
  · split at h
    case isTrue htotal => exact htotal
    case isFalse => cases h
  · split at h
    · cases h
    · have above := suppress_le_checkFullscreen (f := f) (n := n) (c := c)
      rw [h] at above
      exact absurd above (by decide)

/-- Once the mode has expired, only the focus list and the fullscreen window are left. -/
theorem modeVerdict_le_expired (hexpired : now'.expired = true) (hfocus : now'.focused = now.focused) :
    modeVerdict f now n c ≤ modeVerdict f now' n c := by
  have hoff : modeVerdict f now' n c =
      if n.priority ≠ .critical ∧ now.focused then .suppress else checkFullscreen f n c := by
    unfold modeVerdict effectiveMode
    rw [if_pos hexpired, hfocus]
    rfl
  rw [hoff]
  split
  case isTrue focused =>
    unfold modeVerdict
    rw [if_pos focused]
    split
    · split <;> decide
    · exact le_refl _
  case isFalse => exact modeVerdict_le

theorem suppress_le_modeVerdict (h : effectiveMode now c ≠ .total) :
    .suppress ≤ modeVerdict f now n c := by
  unfold modeVerdict
  split
  · exact le_refl _
  · split
    · exact le_refl _
    · exact suppress_le_checkFullscreen

theorem drop_le (r : SuppressResult) : .drop ≤ r := by
  cases r <;> decide

theorem le_allow (r : SuppressResult) : r ≤ .allow := by
  cases r <;> decide

/-- A critical notification gets at least as far through the mode. -/
theorem modeVerdict_le_critical :
    modeVerdict f now n c ≤ modeVerdict f now { n with priority := .critical } c := by
  have through : allowedByMode (effectiveMode now c) n = true →
      modeVerdict f now { n with priority := .critical } c = .allow := by
    intro hallowed
    have hcritical : allowedByMode (effectiveMode now c) { n with priority := .critical } = true := by
      cases hmode : effectiveMode now c <;> rw [hmode] at hallowed
      · rfl
      · rfl
      · exact hallowed
      · cases hallowed
    unfold modeVerdict
    rw [hcritical]
    rfl
  cases hallowed : allowedByMode (effectiveMode now c) n with
  | true =>
    rw [through hallowed]
    exact le_allow _
  | false =>
    have refused : modeVerdict f now n c =
        if effectiveMode now c = .total then .drop else .suppress := by
      unfold modeVerdict
      rw [hallowed]
      rfl
    rw [refused]
    split
    case isTrue => exact drop_le _
    case isFalse htotal => exact suppress_le_modeVerdict htotal

/-- The focus list only lowers, and not what total silence drops. -/
theorem modeVerdict_focused_le (hexpired : now'.expired = now.expired)
    (hschedule : now'.inSchedule = now.inSchedule) (hfocused : now'.focused = true) :
    modeVerdict f now' n c ≤ modeVerdict f now n c := by
  have hmode : effectiveMode now' c = effectiveMode now c := by
    unfold effectiveMode
    rw [hexpired, hschedule]
  unfold modeVerdict
  rw [hmode]
  split
  · exact le_refl _
  · rw [hfocused]
    by_cases hcritical : n.priority = .critical
    · rw [if_neg fun h => h.1 hcritical, if_neg fun h => h.1 hcritical]
    · rw [if_pos ⟨hcritical, rfl⟩]
      split
      · exact le_refl _
      · exact suppress_le_checkFullscreen

/-- An edit that leaves the app's switch and its silencing is judged by the rest. -/
theorem shouldSuppress_le {n' : Notification} {c' : DndConfig} {o' : Option AppOverride}
    (henabled : o'.bind (·.enabled) = o.bind (·.enabled))
    (hsilences : silences n' c' o' = silences n c o)
    (hverdict : trustVerdict (trusts n c o) f now n c ≤ trustVerdict (trusts n' c' o') f now' n' c') :
    shouldSuppress f now n c o ≤ shouldSuppress f now' n' c' o' := by
  rw [shouldSuppress_eq, shouldSuppress_eq, henabled, hsilences]
  split
  · exact le_refl _
  · split
    · exact le_refl _
    · exact hverdict

/-- The outcome may go down, or from a drop to a suppression. -/
def NotRaised (before after : SuppressResult) : Prop :=
  after ≤ before ∨ (before = .drop ∧ after = .suppress)

theorem suppress_le_of_ne_drop {r : SuppressResult} (h : r ≠ .drop) : .suppress ≤ r := by
  cases r with
  | drop => exact absurd rfl h
  | suppress | queue | allow => decide

/-- Silencing an app raises no outcome but a drop. -/
theorem notRaised_of_silences {c' : DndConfig} {o' : Option AppOverride}
    (henabled : o'.bind (·.enabled) = o.bind (·.enabled)) (hsilences : silences n c' o' = true) :
    NotRaised (shouldSuppress f now n c o) (shouldSuppress f now n c' o') := by
  rw [shouldSuppress_eq, shouldSuppress_eq, henabled, hsilences, if_pos rfl]
  split
  · exact .inl (le_refl _)
  · by_cases hdrop : (if silences n c o = true then .suppress
        else trustVerdict (trusts n c o) f now n c) = SuppressResult.drop
    · exact .inr ⟨hdrop, rfl⟩
    · exact .inl (suppress_le_of_ne_drop hdrop)

theorem eq_drop_of_shouldSuppress (h : shouldSuppress f now n c o = .drop) :
    o.bind (·.enabled) = some false ∨ effectiveMode now c = .total := by
  rw [shouldSuppress_eq] at h
  split at h
  case isTrue hblocked => exact .inl hblocked
  case isFalse =>
    split at h
    · cases h
    · cases htrust : trusts n c o with
      | false =>
        rw [htrust] at h
        exact .inr (modeVerdict_eq_drop h)
      | true =>
        rw [htrust] at h
        have above := suppress_le_checkFullscreen (f := f) (n := n) (c := c)
        rw [show checkFullscreen f n c = .drop from h] at above
        exact absurd above (by decide)

end Rules

section Edits

variable (T : CaseTables) (parseRfc3339 : String → Option Int)

/-- The override of the app with one more field set. -/
def AppOverride.edited (o : Option AppOverride) (edit : AppOverride → AppOverride) :
    Option AppOverride := some (edit (o.getD ⟨none, none, none⟩))

theorem bind_edited {α : Type} {field : AppOverride → Option α} {edit : AppOverride → AppOverride}
    {o : Option AppOverride} (h : ∀ o, field (edit o) = field o)
    (hnone : field ⟨none, none, none⟩ = none) :
    (AppOverride.edited o edit).bind field = o.bind field := by
  cases o with
  | none => exact (h _).trans hnone
  | some o => exact h o

/-- **Trust and urgency never lower an outcome, mistrust never raises one**, and nothing is
dropped but by the app's own switch or by total silence. -/
theorem dnd_monotone (s : DndState) (clock : Clock) (n : Notification) (c : DndSettings)
    (o : Option AppOverride) :
    let outcome := fun (s : DndState) clock n c o => s.shouldSuppress T parseRfc3339 clock n c o
    (∀ allow, n.appName ∈ allow →
        outcome s clock n c o ≤ outcome s clock n { c with alwaysAllow := allow } o) ∧
      outcome s clock n c o ≤
        outcome s clock n c (AppOverride.edited o fun o => { o with bypassDnd := some true }) ∧
      outcome s clock n c o ≤ outcome s clock { n with priority := .critical } c o ∧
      (∀ ts later, isExpired parseRfc3339 later ts = true →
        outcome s clock n c o ≤
          outcome s { clock with utcNow := later } n { c with expiresAt := some ts } o) ∧
      (∀ suppress, n.appName ∈ suppress →
        NotRaised (outcome s clock n c o)
          (outcome s clock n { c with alwaysSuppress := suppress } o)) ∧
      NotRaised (outcome s clock n c o)
        (outcome { s with focus := s.focus.add T n.appName } clock n c o) ∧
      NotRaised (outcome s clock n c o)
        (outcome s clock n c (AppOverride.edited o fun o => { o with suppress := some true })) ∧
      (outcome s clock n c o = .drop →
        o.bind (·.enabled) = some false ∨ c.modeNow parseRfc3339 clock = .total) := by
  intro outcome
  refine ⟨?allow, ?bypass, ?critical, ?expires, ?suppress, ?focus, ?silence, ?drop⟩
  case allow =>
    intro allow hallow
    refine shouldSuppress_le rfl rfl (trustVerdict_le.trans (le_of_eq ?_))
    have htrusts : trusts n { c with alwaysAllow := allow }.config o = true := by
      rw [trusts, DndSettings.config, List.contains_iff_mem.mpr hallow, Bool.true_or]
    rw [htrusts]
    rfl
  case bypass =>
    have henabled : (AppOverride.edited o fun o => { o with bypassDnd := some true }).bind
        (·.enabled) = o.bind (·.enabled) := bind_edited (fun _ => rfl) rfl
    have hsuppress : (AppOverride.edited o fun o => { o with bypassDnd := some true }).bind
        (·.suppress) = o.bind (·.suppress) := bind_edited (fun _ => rfl) rfl
    refine shouldSuppress_le henabled ?_ (trustVerdict_le.trans (le_of_eq ?_))
    · rw [silences, silences, hsuppress]
    · have htrusts : trusts n c.config
          (AppOverride.edited o fun o => { o with bypassDnd := some true }) = true :=
        Bool.or_eq_true_iff.mpr (.inr rfl)
      rw [htrusts]
      rfl
  case critical =>
    refine shouldSuppress_le rfl rfl ?_
    show trustVerdict (trusts n c.config o) _ _ n _ ≤ trustVerdict (trusts n c.config o) _ _ _ _
    cases trusts n c.config o with
    | true => exact le_allow _
    | false => exact modeVerdict_le_critical
  case expires =>
    intro ts later hexpired
    refine shouldSuppress_le rfl rfl ?_
    show trustVerdict (trusts n c.config o) _ _ _ _ ≤ trustVerdict (trusts n c.config o) _ _ _ _
    cases trusts n c.config o with
    | true => exact le_refl _
    | false => exact modeVerdict_le_expired hexpired rfl
  case suppress =>
    intro suppress hsuppress
    refine notRaised_of_silences rfl ?_
    rw [silences, DndSettings.config, List.contains_iff_mem.mpr hsuppress, Bool.or_true]
  case focus =>
    refine .inl (shouldSuppress_le rfl rfl ?_)
    cases trusts n c.config o with
    | true => exact le_refl _
    | false =>
      rcases s.focus.isSuppressed_add T n.appName with hfocused | hsame
      · exact modeVerdict_focused_le rfl rfl hfocused
      · have hreading : DndState.reading T parseRfc3339
            { s with focus := s.focus.add T n.appName } clock n c =
              s.reading T parseRfc3339 clock n c := by
          rw [DndState.reading, hsame]
          rfl
        rw [hreading]
  case silence =>
    exact notRaised_of_silences (bind_edited (fun _ => rfl) rfl) rfl
  case drop => exact eq_drop_of_shouldSuppress

end Edits

end Arlen.Notify
