import Arlen.Clock.State
import Arlen.Clock.Tick

/-!
# Two tasks at a wake

The machine wakes: the sleep watcher runs `Clock::resumed`, which takes the state
lock for `observe(Resumed)` and again for `startup::resume`, and the loop of `tick`
takes it for `fire_due` whenever it gets there. A schedule is the order in which
they take it. `resume` judges an alarm whose moment passed while the machine slept;
`fire_due` announces it unjudged, and leaves nothing to judge.
-/

namespace Arlen.Clock

/-- One turn at the state, with its reading of the clock. -/
inductive Turn where
  | fireDue (now : Int)
  | observe (now : Int)
  | resume (now : Int)
deriving DecidableEq

/-- What a turn announces, each alarm as it stood, and what it leaves. -/
def Turn.take (tz : Zone) (s : ClockState) : Turn → List Alarm × ClockState
  | .fireDue now => (s.alarms.filter (·.isDue now), (advance tz s now).2)
  | .observe now => ([], (Clock.observe s .resumed now).2)
  | .resume now =>
    (s.alarms.filter fun a => verdict a now lateWindowMs = .fireLate,
      (Clock.resume tz s lateWindowMs now).2)

/-- The alarms a schedule announces. -/
def announced (tz : Zone) (s : ClockState) : List Turn → List Alarm
  | [] => []
  | t :: rest => (t.take tz s).1 ++ announced tz (t.take tz s).2 rest

/-- The turns of the two tasks, one order of them. -/
def schedule (before : List Int) (observed : Int) (between : List Int) (resumed : Int)
    (behind : List Int) : List Turn :=
  before.map .fireDue ++ .observe observed :: (between.map .fireDue ++ .resume resumed ::
    behind.map .fireDue)

/-- An enabled alarm whose moment had passed when the machine woke. -/
def Alarm.missed (a : Alarm) (wake : Int) : Bool := a.enabled && a.isDue wake

/-- It asked to ring late, and it is not too late. -/
def Alarm.deserves (a : Alarm) (now : Int) : Bool :=
  a.fireLate && a.nextFireAt.any fun due => now - due ≤ lateWindowMs

/-- Of the alarms the sleep swallowed, those that deserve it are announced, once, and
no other is. -/
def PolicyKept (tz : Zone) (s : ClockState) (wake resumed : Int) (turns : List Turn) : Prop :=
  (announced tz s turns).filter (·.missed wake) =
    s.alarms.filter fun a => a.missed wake && a.deserves resumed

instance (tz : Zone) (s : ClockState) (wake resumed : Int) (turns : List Turn) :
    Decidable (PolicyKept tz s wake resumed turns) := inferInstanceAs (Decidable (_ = _))

variable {tz : Zone} {s : ClockState} {wake now observed resumed : Int} {a : Alarm}

theorem isDue_mono (h : a.isDue wake = true) (hle : wake ≤ now) : a.isDue now = true := by
  obtain ⟨ms, hms, hle'⟩ := isDue_iff.1 h
  exact isDue_iff.2 ⟨ms, hms, by omega⟩

theorem isDue_of_missed (h : a.missed wake = true) (hle : wake ≤ now) : a.isDue now = true :=
  isDue_mono (Bool.and_eq_true_iff.1 h).2 hle

/-- A missed alarm is judged to ring late when it deserves it. -/
theorem verdict_of_missed (h : a.missed wake = true) (hle : wake ≤ now) :
    verdict a now lateWindowMs = .fireLate ↔ a.deserves now = true := by
  obtain ⟨ms, hms, hdue⟩ := isDue_iff.1 (isDue_of_missed h hle)
  rw [verdict_eq_fireLate, (Bool.and_eq_true_iff.1 h).1]
  unfold Alarm.deserves
  simp [hms, hdue]

/-- No alarm is missed. -/
def Caught (s : ClockState) (wake : Int) : Prop := ∀ a ∈ s.alarms, a.missed wake = false

/-- Anchors ahead of the wake. -/
theorem caught_of_ahead (h : ∀ a ∈ s.alarms, ∀ ms, a.nextFireAt = some ms → wake < ms) :
    Caught s wake := by
  intro a ha
  by_contra hm
  obtain ⟨ms, hms, hle⟩ := isDue_iff.1 (isDue_of_missed (by simpa using hm) (Int.le_refl wake))
  have := h a ha ms hms
  omega

theorem caught_advance (tz : Zone) (s : ClockState) (hle : wake ≤ now) : Caught (advance tz s now).2 wake := by
  refine caught_of_ahead fun a ha ms hms => ?_
  obtain ⟨b, -, rfl⟩ := List.mem_map.1 ha
  have := lt_of_advanceAlarm hms
  omega

theorem caught_resume (tz : Zone) (s : ClockState) (hle : wake ≤ now) : Caught (resume tz s lateWindowMs now).2 wake := by
  refine caught_of_ahead fun a ha ms hms => ?_
  obtain ⟨b, -, rfl⟩ := List.mem_map.1 ha
  have := lt_of_resumeAlarm hms
  omega

/-- Nothing missed, nothing announced. -/
theorem announced_of_caught (tz : Zone) {turns : List Turn} (h : Caught s wake)
    (hturns : ∀ t ∈ turns, ∀ now, t = .fireDue now ∨ t = .resume now → wake ≤ now) :
    (announced tz s turns).filter (·.missed wake) = [] := by
  induction turns generalizing s with
  | nil => rfl
  | cons t turns ih =>
    have hnone : (t.take tz s).1.filter (·.missed wake) = [] := by
      refine List.filter_eq_nil_iff.2 fun a ha => ?_
      have hmem : a ∈ s.alarms := by
        cases t with
        | fireDue now => exact (List.mem_filter.1 ha).1
        | observe now => exact absurd ha List.not_mem_nil
        | resume now => exact (List.mem_filter.1 ha).1
      rw [h a hmem]
      exact Bool.false_ne_true
    have hnext : Caught (t.take tz s).2 wake := by
      cases t with
      | fireDue now => exact caught_advance tz s (hturns _ List.mem_cons_self now (Or.inl rfl))
      | observe now => exact h
      | resume now => exact caught_resume tz s (hturns _ List.mem_cons_self now (Or.inr rfl))
    unfold announced
    rw [List.filter_append, hnone, ih hnext fun t ht => hturns t (List.mem_cons_of_mem _ ht)]
    rfl

/-- A pass ahead of `resume` announces every missed alarm. -/
theorem announced_fireDue {turns : List Turn} (hle : wake ≤ now)
    (hturns : ∀ t ∈ turns, ∀ now, t = .fireDue now ∨ t = .resume now → wake ≤ now) :
    (announced tz s (.fireDue now :: turns)).filter (·.missed wake) =
      s.alarms.filter (·.missed wake) := by
  have hnone := announced_of_caught tz (caught_advance tz s hle) hturns
  unfold announced Turn.take
  rw [List.filter_append, hnone, List.append_nil, List.filter_filter]
  refine List.filter_congr fun a _ => ?_
  cases hm : a.missed wake with
  | false => rfl
  | true => rw [isDue_of_missed hm hle]; rfl

/-- `resume` first: those that deserve it. -/
theorem announced_resume {turns : List Turn} (hle : wake ≤ now)
    (hturns : ∀ t ∈ turns, ∀ now, t = .fireDue now ∨ t = .resume now → wake ≤ now) :
    (announced tz s (.resume now :: turns)).filter (·.missed wake) =
      s.alarms.filter fun a => a.missed wake && a.deserves now := by
  have hnone := announced_of_caught tz (caught_resume tz s hle) hturns
  unfold announced Turn.take
  rw [List.filter_append, hnone, List.append_nil, List.filter_filter]
  refine List.filter_congr fun a _ => ?_
  cases hm : a.missed wake with
  | false => rfl
  | true => rw [Bool.true_and, Bool.true_and, Bool.eq_iff_iff, decide_eq_true_eq, verdict_of_missed hm hle]

theorem announced_observe {turns : List Turn} :
    announced tz s (.observe now :: turns) =
      announced tz (observe s .resumed now).2 turns := rfl

/-- All the missed alarms are those that deserve it when each does. -/
theorem missed_eq_deserving_iff :
    (s.alarms.filter (·.missed wake) =
        s.alarms.filter fun a => a.missed wake && a.deserves resumed) ↔
      ∀ a ∈ s.alarms, a.missed wake = true → a.deserves resumed = true := by
  constructor
  · intro h a ha hm
    have hin : a ∈ s.alarms.filter (·.missed wake) := List.mem_filter.2 ⟨ha, hm⟩
    rw [h] at hin
    exact (Bool.and_eq_true_iff.1 (List.mem_filter.1 hin).2).2
  · intro h
    refine List.filter_congr fun a ha => ?_
    cases hm : a.missed wake with
    | false => rfl
    | true => rw [h a ha hm]; rfl

/-- **The missed-alarm policy at a wake.** It is kept exactly when no pass takes the
lock ahead of `resume`, or every alarm the sleep swallowed deserves to ring. -/
theorem policy_kept_iff (tz : Zone) (s : ClockState) (wake : Int) (before between behind : List Int)
    (observed resumed : Int)
    (hwake : ∀ t ∈ before ++ between ++ behind ++ [resumed], wake ≤ t) :
    PolicyKept tz s wake resumed (schedule before observed between resumed behind) ↔
      before = [] ∧ between = [] ∨
        ∀ a ∈ s.alarms, a.missed wake = true → a.deserves resumed = true := by
  have hturns : ∀ ts : List Int, (∀ t ∈ ts, t ∈ before ++ between ++ behind) → ∀ t ∈ ts.map Turn.fireDue,
      ∀ now, t = .fireDue now ∨ t = .resume now → wake ≤ now := by
    intro ts hts t ht now hnow
    obtain ⟨x, hx, rfl⟩ := List.mem_map.1 ht
    rcases hnow with h | h
    · obtain rfl := Turn.fireDue.inj h
      exact hwake x (List.mem_append_left _ (hts x hx))
    · cases h
  have hresumed : wake ≤ resumed := hwake resumed (by simp)
  have hbehind := hturns behind (by simp +contextual)
  have hbetween := hturns between (by simp +contextual)
  have hrest : ∀ t ∈ between.map Turn.fireDue ++ .resume resumed :: behind.map .fireDue,
      ∀ now, t = .fireDue now ∨ t = .resume now → wake ≤ now := by
    intro t ht now hnow
    rcases List.mem_append.1 ht with ht | ht
    · exact hbetween t ht now hnow
    · rcases List.mem_cons.1 ht with rfl | ht
      · rcases hnow with h | h
        · cases h
        · cases h
          exact hresumed
      · exact hbehind t ht now hnow
  unfold PolicyKept schedule
  cases before with
  | nil =>
    rw [List.map_nil, List.nil_append, announced_observe]
    cases between with
    | nil =>
      rw [List.map_nil, List.nil_append, announced_resume hresumed hbehind]
      exact iff_of_true rfl (Or.inl ⟨rfl, rfl⟩)
    | cons now between =>
      have hlater : ∀ t ∈ between.map Turn.fireDue ++ .resume resumed :: behind.map .fireDue,
          ∀ now, t = .fireDue now ∨ t = .resume now → wake ≤ now :=
        fun t ht => hrest t (List.mem_cons_of_mem _ ht)
      rw [List.map_cons, List.cons_append, announced_fireDue
        (hbetween _ List.mem_cons_self now (Or.inl rfl)) hlater]
      have halarms : (observe s .resumed observed).2.alarms = s.alarms := rfl
      rw [halarms, missed_eq_deserving_iff]
      simp
  | cons now before =>
    have hlater : ∀ t ∈ before.map Turn.fireDue ++ .observe observed ::
        (between.map .fireDue ++ .resume resumed :: behind.map .fireDue),
        ∀ now, t = .fireDue now ∨ t = .resume now → wake ≤ now := by
      intro t ht now' hnow
      rcases List.mem_append.1 ht with ht | ht
      · exact hturns before (by simp +contextual) t ht now' hnow
      · rcases List.mem_cons.1 ht with rfl | ht
        · rcases hnow with h | h <;> cases h
        · exact hrest t ht now' hnow
    rw [List.map_cons, List.cons_append, announced_fireDue (hwake now (by simp)) hlater,
      missed_eq_deserving_iff]
    simp

/-- An alarm missed by an hour that did not ask to ring late. -/
def missedAlarm : Alarm where
  id := "nap"
  time := "07:00"
  label := ""
  days := []
  onDate := none
  payload := none
  enabled := true
  fireLate := false
  nextFireAt := some 0

/-- With `resume` first the alarm stays quiet. -/
theorem policy_kept_resume_first :
    PolicyKept noZone { alarms := [missedAlarm] } 3600000 3600000
      (schedule [] 3600000 [] 3600000 [3600001]) :=
  (policy_kept_iff noZone { alarms := [missedAlarm] } 3600000 [] [] [3600001] 3600000 3600000
    (by decide)).2 (Or.inl ⟨rfl, rfl⟩)

/-- With a pass between `observe` and `resume` it rings. -/
theorem policy_broken_by_pass :
    ¬ PolicyKept noZone { alarms := [missedAlarm] } 3600000 3600000
      (schedule [] 3600000 [3600000] 3600000 []) := by
  decide

end Arlen.Clock
