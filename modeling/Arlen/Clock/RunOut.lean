import Arlen.Clock.Once
import Arlen.Lib.Text

/-!
# A timer that has run out

`fire_due` of `daemons/clock/src/main.rs` and the notifications of `ring.rs`, over runs of
commands, events and passes. A pass does nothing to a timer, so one that has run out is due
again at every later pass, for as long as it stands. `met` keeps the timers a pass has found
run out since they were last anchored, `told` the ids announced since.
-/

namespace Arlen.Clock

open Arlen.Lib

/-! ### What is said -/

/-- A notification to raise. -/
structure Notification where
  summary : String
  body : String
  urgency : Nat
  category : String
deriving DecidableEq

def urgencyNormal : Nat := 1

def urgencyCritical : Nat := 2

def categoryAlarm : String := "alarm"

def categoryClock : String := "x-arlen.clock"

/-- A duration in whole units, the largest first and none of them zero. -/
def humanise (ms : Int) : String :=
  let total := (max ms 0).toNat / 1000
  let parts := [(total / 3600, " hr"), (total % 3600 / 60, " min"), (total % 60, " sec")].filter
    (0 < ·.1)
  if parts = [] then "less than a second"
  else " ".intercalate (parts.map fun p => toString p.1 ++ p.2)

def forAlarm (a : Alarm) : Notification :=
  let label := String.ofList (Text.trim a.label.toList)
  if label = "" then ⟨"Alarm - " ++ a.time, "", urgencyCritical, categoryAlarm⟩
  else ⟨label, "Alarm - " ++ a.time, urgencyCritical, categoryAlarm⟩

def forTimer (t : Timer) : Notification :=
  ⟨"Timer finished", humanise t.durationMs, urgencyNormal, categoryClock⟩

def forFocus (next : Option FocusSession) : Notification :=
  match next with
  | some s =>
    let round := "Round " ++ toString s.round ++ " of " ++ toString s.rounds
    if s.phase = .rest then ⟨"Time for a break", round ++ " done.", urgencyNormal, categoryClock⟩
    else ⟨"Break over", round ++ ".", urgencyNormal, categoryClock⟩
  | none => ⟨"Focus session finished", "", urgencyNormal, categoryClock⟩

/-- What an announcement is about. -/
inductive Announcement where
  | alarm (a : Alarm)
  | timer (t : Timer)
  | focus (next : Option FocusSession)
deriving DecidableEq

def Announcement.notification : Announcement → Notification
  | .alarm a => forAlarm a
  | .timer t => forTimer t
  | .focus next => forFocus next

/-- The timer an announcement is about. -/
def Announcement.timerId : Announcement → Option String
  | .timer t => some t.id
  | _ => none

/-- The alarms behind a list of ids. -/
def alarmsOf (s : ClockState) (ids : List String) : List Announcement :=
  ids.filterMap fun id => (s.alarms.find? (·.id = id)).map .alarm

def timersOf (s : ClockState) (ids : List String) : List Announcement :=
  ids.filterMap fun id => (s.timers.find? (·.id = id)).map .timer

/-- `fire_due`: what is announced, and what is left. -/
def fireDue (tz : Zone) (s : ClockState) (now : Int) : List Announcement × ClockState :=
  let (due, s') := advance tz s now
  if due.isEmpty then ([], s')
  else (alarmsOf s' due.alarms ++ timersOf s' due.timers ++ due.focus.toList.map .focus, s')

/-! ### Runs -/

structure Telling where
  state : ClockState
  met : List String
  told : List String
  clock : Int

/-- The timer a command gives a new end. -/
def anchored (s : ClockState) : Command → Option String
  | .timerStart id _ => some id
  | .timerSetPaused id false =>
    if (s.timers.find? (·.id = id)).any (·.remainingMs.isSome) then some id else none
  | _ => none

def Telling.step (cities : String → Option WorldCity) (w : Telling) (m : Moment) :
    Option (List Announcement × Telling) :=
  if m.now < w.clock then none
  else
    match m.move with
    | .command c =>
      let new := anchored w.state c
      some ([], ⟨(apply m.tz cities w.state c m.now).2, w.met.filter (some · ≠ new),
        w.told.filter (some · ≠ new), m.now⟩)
    | .observe e => some ([], ⟨(observe w.state e m.now).2, w.met, w.told, m.now⟩)
    | .pass =>
      let fired := fireDue m.tz w.state m.now
      some (fired.1, ⟨fired.2, w.met ++ (w.state.timers.filter (·.isDue m.now)).map (·.id),
        w.told ++ fired.1.filterMap (·.timerId), m.now⟩)
    | .resume =>
      let resumed := resume m.tz w.state lateWindowMs m.now
      let said := alarmsOf resumed.2 resumed.1.ringLate
      some (said, ⟨resumed.2, w.met, w.told ++ said.filterMap (·.timerId), m.now⟩)

/-- The daemon, from a clock nobody has set. -/
def telling (cities : String → Option WorldCity) : Machine Telling Moment (List Announcement) :=
  ⟨⟨{}, [], [], 0⟩, Telling.step cities⟩

/-- Every run-out a pass has met is announced once, and nothing else is. -/
def ToldOnce (w : Telling) : Prop := ∀ id, w.told.count id = if id ∈ w.met then 1 else 0

/-- No pass comes while a timer stands at the end an earlier pass found it at. -/
def MeetsNoneAgain (w : Telling) (m : Moment) : Prop :=
  m.move = .pass → ∀ t ∈ w.state.timers, t.isDue m.now → t.id ∉ w.met

instance (w : Telling) (m : Moment) : Decidable (MeetsNoneAgain w m) :=
  inferInstanceAs (Decidable (_ → _))

def timerIds (s : ClockState) : List String := s.timers.map (·.id)

variable {w w' : Telling} {m : Moment} {tz : Zone} {now : Int} {cities : String → Option WorldCity}
  {state : ClockState}

/-! ### No two timers share an id -/

@[simp] theorem pause_id (t : Timer) (now : Int) : (t.pause now).id = t.id := by
  unfold Timer.pause
  cases t.endsAt <;> rfl

@[simp] theorem resume_id (t : Timer) (now : Int) : (t.resume now).id = t.id := by
  unfold Timer.resume
  cases t.remainingMs <;> rfl

/-- What replaces a timer has its id. -/
theorem nodup_replaced {l : List Timer} {id : String} {f : Timer → Timer}
    (h : (l.map (·.id)).Nodup) (hid : ∀ t, t.id = id → (f t).id = id) :
    ((replaceFirst (fun t => decide (t.id = id)) f l).map (·.id)).Nodup := by
  rw [replaceFirst_eq_map h, List.map_map]
  refine (List.map_congr_left fun t _ => ?_).symm ▸ h
  simp only [Function.comp_apply]
  split
  · next ht => exact (hid t ht).trans ht.symm
  · rfl

def Command.onTimers : Command → Bool
  | .timerStart _ _ | .timerSetPaused _ _ | .timerCancel _ => true
  | _ => false

theorem timers_reduced {c : Command} (h : c.onTimers = false) :
    (reduced tz cities state now c).timers = state.timers := by
  cases c with
  | timerStart id durationMs => cases h
  | timerSetPaused id paused => cases h
  | timerCancel id => cases h
  | setAlarm a =>
    simp only [reduced]
    split <;> rfl
  | worldAdd id =>
    simp only [reduced]
    split
    · rfl
    · split <;> rfl
  | _ => rfl

theorem nodup_reduced (h : (timerIds state).Nodup) (c : Command) :
    (timerIds (reduced tz cities state now c)).Nodup := by
  cases c with
  | timerStart id durationMs =>
    simp only [reduced]
    split
    · exact nodup_replaced h fun _ _ => rfl
    · next hany =>
      have hnew : id ∉ timerIds state := by
        intro hm
        obtain ⟨t, ht, hid⟩ := List.mem_map.1 hm
        exact hany (List.any_eq_true.2 ⟨t, ht, decide_eq_true hid⟩)
      unfold timerIds
      rw [List.map_append, List.map_cons, List.map_nil]
      refine List.nodup_append.2 ⟨h, List.nodup_singleton _, fun x hx y hy hxy => hnew ?_⟩
      obtain rfl : x = id := hxy.trans (List.mem_singleton.1 hy)
      exact hx
  | timerSetPaused id paused =>
    refine nodup_replaced h fun t ht => ?_
    cases paused with
    | true => exact (pause_id t now).trans ht
    | false => exact (resume_id t now).trans ht
  | timerCancel id => exact h.sublist (List.filter_sublist.map _)
  | _ =>
    unfold timerIds
    rw [timers_reduced rfl]
    exact h

/-! ### What a pass announces -/

/-- The timers found by the ids of timers are those timers. -/
theorem timersOf_ids {l : List Timer} (h : (timerIds state).Nodup) (hl : ∀ t ∈ l, t ∈ state.timers) :
    timersOf state (l.map (·.id)) = l.map .timer := by
  unfold timersOf
  rw [List.filterMap_map, ← List.filterMap_eq_map]
  refine List.filterMap_congr fun t ht => ?_
  have hfind : state.timers.find? (·.id = t.id) = some t := by
    cases hf : state.timers.find? (·.id = t.id) with
    | none => exact absurd (decide_eq_true rfl) (List.find?_eq_none.1 hf t (hl t ht))
    | some u =>
      have hu : u.id = t.id := by simpa using List.find?_some hf
      rw [List.inj_on_of_nodup_map h (List.mem_of_find?_eq_some hf) (hl t ht) hu]
  simp only [Function.comp_apply, hfind, Option.map_some]

theorem timerId_alarmsOf (s : ClockState) (ids : List String) :
    (alarmsOf s ids).filterMap (·.timerId) = [] := by
  refine List.filterMap_eq_nil_iff.2 fun a ha => ?_
  obtain ⟨id, -, ha⟩ := List.mem_filterMap.1 ha
  obtain ⟨alarm, -, rfl⟩ := Option.map_eq_some_iff.1 ha
  rfl

/-- **A pass tells every timer it finds run out**, announced before or not. -/
theorem timerIds_fireDue (h : (timerIds state).Nodup) (tz : Zone) (now : Int) :
    (fireDue tz state now).1.filterMap (·.timerId) =
      (state.timers.filter (·.isDue now)).map (·.id) := by
  have htimers : (advance tz state now).2.timers = state.timers := rfl
  have hdue : (advance tz state now).1.timers = (state.timers.filter (·.isDue now)).map (·.id) := rfl
  unfold fireDue
  simp only
  split
  · next hempty =>
    unfold Due.isEmpty at hempty
    simp only [Bool.and_eq_true, List.isEmpty_iff] at hempty
    rw [← hdue, hempty.1.2]
    rfl
  · rw [hdue, timersOf_ids (by unfold timerIds; rw [htimers]; exact h)
      (fun t ht => htimers ▸ (List.mem_filter.1 ht).1)]
    rw [List.filterMap_append, List.filterMap_append, timerId_alarmsOf, List.nil_append,
      List.filterMap_map, List.filterMap_map]
    have hfocus : (advance tz state now).1.focus.toList.filterMap
        (Announcement.timerId ∘ Announcement.focus) = [] :=
      List.filterMap_eq_nil_iff.2 fun _ _ => rfl
    rw [hfocus, List.append_nil, ← List.filterMap_eq_map]
    rfl

/-! ### The steps -/

/-- What every step keeps. -/
structure Telling.Settled (w : Telling) : Prop where
  nodup : (timerIds w.state).Nodup
  once : ToldOnce w

/-- A command forgets the timer it gives a new end, and nothing else. -/
theorem toldOnce_filter (h : ToldOnce w) (new : Option String) (state : ClockState) (clock : Int) :
    ToldOnce ⟨state, w.met.filter (some · ≠ new), w.told.filter (some · ≠ new), clock⟩ := by
  intro id
  simp only
  by_cases hid : some id = new
  · have hmet : id ∉ w.met.filter (some · ≠ new) := by simp [hid]
    have htold : id ∉ w.told.filter (some · ≠ new) := by simp [hid]
    rw [if_neg hmet, List.count_eq_zero.2 htold]
  · rw [List.count_filter (by simpa using hid), h id]
    simp [hid]

/-- A pass that meets none again. -/
theorem toldOnce_pass (h : w.Settled) {l : List Timer} (hsub : (l.map (·.id)).Nodup) (state : ClockState) (clock : Int) :
    ToldOnce ⟨state, w.met ++ l.map (·.id), w.told ++ l.map (·.id), clock⟩ ↔
      ∀ t ∈ l, t.id ∉ w.met := by
  constructor
  · intro honce t ht hmet
    have hmem : t.id ∈ l.map (·.id) := List.mem_map_of_mem ht
    have hcount := honce t.id
    simp only at hcount
    rw [List.count_append, h.once t.id, if_pos hmet,
      if_pos (List.mem_append_left _ hmet), List.count_eq_one_of_mem hsub hmem] at hcount
    cases hcount
  · intro hnone id
    simp only
    rw [List.count_append, h.once id]
    by_cases hmem : id ∈ l.map (·.id)
    · obtain ⟨t, ht, rfl⟩ := List.mem_map.1 hmem
      rw [if_neg (hnone t ht), if_pos (List.mem_append_right _ hmem),
        List.count_eq_one_of_mem hsub hmem]
    · rw [List.count_eq_zero.2 hmem, Nat.add_zero]
      simp only [List.mem_append, hmem, or_false]

/-- **One step**: it tells every run-out once exactly when it is no pass that meets a timer
again. -/
theorem Telling.Settled.step (h : w.Settled) {said : List Announcement}
    (hs : w.step cities m = some (said, w')) :
    (timerIds w'.state).Nodup ∧ (ToldOnce w' ↔ MeetsNoneAgain w m) := by
  unfold Telling.step at hs
  split at hs
  · cases hs
  · cases hm : m.move with
    | command c =>
      rw [hm] at hs
      cases hs
      have hnot : MeetsNoneAgain w m := fun hpass => (by rw [hm] at hpass; cases hpass)
      exact ⟨nodup_reduced h.nodup c, fun _ => hnot, fun _ => toldOnce_filter h.once _ _ _⟩
    | observe e =>
      rw [hm] at hs
      cases hs
      have hnot : MeetsNoneAgain w m := fun hpass => (by rw [hm] at hpass; cases hpass)
      exact ⟨h.nodup, fun _ => hnot, fun _ => h.once⟩
    | pass =>
      rw [hm] at hs
      cases hs
      have hleft : (fireDue m.tz w.state m.now).2.timers = w.state.timers := by
        unfold fireDue
        simp only
        split <;> rfl
      refine ⟨by unfold timerIds; rw [hleft]; exact h.nodup, ?_⟩
      rw [timerIds_fireDue h.nodup]
      rw [toldOnce_pass h (h.nodup.sublist (List.filter_sublist.map _))]
      unfold MeetsNoneAgain
      simp only [hm, forall_const, List.mem_filter, and_imp]
    | resume =>
      rw [hm] at hs
      cases hs
      have hnot : MeetsNoneAgain w m := fun hpass => (by rw [hm] at hpass; cases hpass)
      refine ⟨h.nodup, fun _ => hnot, fun _ => ?_⟩
      rw [timerId_alarmsOf, List.append_nil]
      exact h.once

theorem settled_telling : (telling cities).init.Settled where
  nodup := List.nodup_nil
  once := fun _ => rfl

/-- **A run-out is told once**, in every run in which no pass comes while a timer stands at
the end an earlier pass found it at; and a pass that does come then tells it again. -/
theorem told_once {τ : List (Moment × List Announcement)}
    (h : (telling cities).Run MeetsNoneAgain τ w) :
    ToldOnce w ∧ ∀ m said w', w.step cities m = some (said, w') →
      (ToldOnce w' ↔ MeetsNoneAgain w m) := by
  have hinv : w.Settled := Machine.Run.inv (I := fun _ w => w.Settled) settled_telling
    (fun hI hok hs => ⟨(hI.step hs).1, (hI.step hs).2.2 hok⟩) h
  exact ⟨hinv.once, fun m said w' hs => (hinv.step hs).2⟩

/-- A timer of a second, met by a pass, cancelled, and another pass. -/
def cancelled : List Moment :=
  [⟨.command (.timerStart "tea" 1000), 0, utc⟩, ⟨.pass, 1000, utc⟩,
    ⟨.command (.timerCancel "tea"), 2000, utc⟩, ⟨.pass, 2000, utc⟩]

/-- The same timer left standing, and a pass that another command asks for. -/
def leftStanding : List Moment :=
  [⟨.command (.timerStart "tea" 1000), 0, utc⟩, ⟨.pass, 1000, utc⟩,
    ⟨.command .stopwatchStart, 2000, utc⟩, ⟨.pass, 2000, utc⟩]

/-- Told once and cancelled. -/
theorem told_once_cancelled :
    ∃ τ w, (telling fun _ => none).Run MeetsNoneAgain τ w ∧ w.told = ["tea"] ∧ ToldOnce w := by
  have hexec : ((telling fun _ => none).exec MeetsNoneAgain (telling fun _ => none).init
      cancelled).map (·.2.told) = some ["tea"] := by decide
  obtain ⟨⟨τ, w⟩, he, htold⟩ := Option.map_eq_some_iff.1 hexec
  have hrun := Machine.run_of_exec he
  exact ⟨τ, w, hrun, htold, (told_once hrun).1⟩

/-- Left standing, it is told at every pass. -/
theorem told_again :
    ∃ τ w, (telling fun _ => none).Run Machine.anyStep τ w ∧ w.told = ["tea", "tea"] ∧
      ¬ ToldOnce w := by
  have hexec : ((telling fun _ => none).exec Machine.anyStep (telling fun _ => none).init
      leftStanding).map (·.2.told) = some ["tea", "tea"] := by decide
  obtain ⟨⟨τ, w⟩, he, htold⟩ := Option.map_eq_some_iff.1 hexec
  refine ⟨τ, w, Machine.run_of_exec he, htold, fun h => ?_⟩
  have hcount := h "tea"
  rw [htold] at hcount
  split at hcount <;> exact absurd hcount (by decide)

end Arlen.Clock
