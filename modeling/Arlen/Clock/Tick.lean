import Arlen.Clock.State

/-!
# The loop that rings

`tick` and `fire_due` of `daemons/clock/src/main.rs`. The loop reads the clock three
times: `advance` takes what is due by the first reading, `next_wake_at` looks behind
the second, and the wait is counted from the third. A moment the pass has not seen
is met in time exactly when it is behind the second reading, or when some moment is
met at once anyway.
-/

namespace Arlen.Clock

def idleRecheck : Int := 900000

/-- How long the loop sleeps: `asked` is the reading `next_wake_at` is given, `read`
the one the wait is counted from. -/
def tickWait (s : ClockState) (asked read : Int) : Int :=
  match nextWakeAt s asked with
  | some ms => min (max (ms - read) 1) idleRecheck
  | none => idleRecheck

/-- The moments of the state a pass at `passed` leaves that no pass has been given. A
timer keeps a moment that was; an alarm and a focus phase have a new one by then. -/
def unseen (s : ClockState) (passed : Int) : List Int :=
  (s.alarms.filter (·.enabled)).filterMap (·.nextFireAt) ++
    (s.timers.filterMap (·.endsAt)).filter (passed < ·) ++ s.focus.toList.map (·.endsAt)

/-- The sleep ends by the moment, or at once if the moment has been. -/
def EndsBy (s : ClockState) (asked read ms : Int) : Prop :=
  read + tickWait s asked read ≤ max ms (read + 1)

instance (s : ClockState) (asked read ms : Int) : Decidable (EndsBy s asked read ms) :=
  inferInstanceAs (Decidable (_ ≤ _))

variable {s : ClockState} {now passed asked read ms : Int}

theorem nextWakeAt_eq_some :
    nextWakeAt s now = some ms ↔
      (ms ∈ anchors s ∧ now < ms) ∧ ∀ b ∈ anchors s, now < b → ms ≤ b := by
  unfold nextWakeAt
  rw [List.min?_eq_some_iff]
  simp

theorem nextWakeAt_eq_none : nextWakeAt s now = none ↔ ∀ b ∈ anchors s, b ≤ now := by
  unfold nextWakeAt
  rw [List.min?_eq_none_iff]
  simp

theorem mem_anchors_of_unseen (h : ms ∈ unseen s passed) : ms ∈ anchors s := by
  unfold unseen at h
  unfold anchors
  simp only [List.mem_append, List.mem_filter] at h ⊢
  rcases h with (h | h) | h
  · exact Or.inl (Or.inl h)
  · exact Or.inl (Or.inr h.1)
  · exact Or.inr h

/-- The loop does not sleep past a moment behind its second reading. -/
theorem tickWait_le (read : Int) (h : ms ∈ anchors s) (hlt : asked < ms) :
    tickWait s asked read ≤ max (ms - read) 1 := by
  unfold tickWait
  cases hw : nextWakeAt s asked with
  | none =>
    have := nextWakeAt_eq_none.1 hw ms h
    omega
  | some first =>
    have := (nextWakeAt_eq_some.1 hw).2 ms h hlt
    simp only
    omega

/-- A sleep of a moment has a moment ahead to end at. -/
theorem exists_of_tickWait_le (h : tickWait s asked read ≤ 1) :
    ∃ ms ∈ anchors s, asked < ms ∧ ms ≤ read + 1 := by
  unfold tickWait at h
  cases hw : nextWakeAt s asked with
  | none =>
    rw [hw] at h
    have hidle : idleRecheck = 900000 := rfl
    simp only at h
    omega
  | some first =>
    rw [hw] at h
    obtain ⟨⟨hmem, hlt⟩, -⟩ := nextWakeAt_eq_some.1 hw
    have hidle : idleRecheck = 900000 := rfl
    simp only at h
    exact ⟨first, hmem, hlt, by omega⟩

/-- **What the loop sleeps through.** After a pass at `passed`, every moment the pass
has not seen ends the sleep in time, exactly when all of them are behind the reading
`next_wake_at` gets, or some moment ends the sleep at once. -/
theorem ends_by_unseen_iff (tz : Zone) (s : ClockState) (passed : Int) (hread : asked ≤ read) :
    (∀ ms ∈ unseen (advance tz s passed).2 passed, EndsBy (advance tz s passed).2 asked read ms) ↔
      (∀ ms ∈ unseen (advance tz s passed).2 passed, asked < ms) ∨
        ∃ ms ∈ anchors (advance tz s passed).2, asked < ms ∧ ms ≤ read + 1 := by
  generalize (advance tz s passed).2 = left
  constructor
  · intro h
    by_cases hall : ∀ ms ∈ unseen left passed, asked < ms
    · exact Or.inl hall
    · right
      push Not at hall
      obtain ⟨ms, hms, hle⟩ := hall
      have hends := h ms hms
      unfold EndsBy at hends
      exact exists_of_tickWait_le (by omega)
  · rintro (hall | ⟨b, hb, hlt, hle⟩) ms hms
    · have hwait := tickWait_le read (mem_anchors_of_unseen hms) (hall ms hms)
      unfold EndsBy
      omega
    · have hwait := tickWait_le read hb hlt
      unfold EndsBy
      omega

/-- A timer that ends between the two readings. -/
def timerState : ClockState := { timers := [Timer.start "tea" 1000 0] }

/-- A zone that answers nothing. -/
def noZone : Zone := ⟨fun _ => none, fun _ _ => .none⟩

/-- Seen before its end, the timer ends a sleep in time. -/
theorem ends_by_unseen_timer :
    1000 ∈ unseen (advance noZone timerState 500).2 500 ∧
      EndsBy (advance noZone timerState 500).2 600 700 1000 := by
  have hseen : 1000 ∈ unseen (advance noZone timerState 500).2 500 := by decide
  exact ⟨hseen, (ends_by_unseen_iff noZone timerState 500 (by decide)).2 (Or.inl (by decide))
    1000 hseen⟩

/-- The timer ends at 1000, between the pass at 999 and the reading at 1001, and the
loop sleeps for a quarter of an hour. -/
theorem timer_slept_through :
    ∃ ms ∈ unseen (advance noZone timerState 999).2 999,
      ¬ EndsBy (advance noZone timerState 999).2 1001 1001 ms := by
  refine ⟨1000, by decide, by decide⟩

end Arlen.Clock
