import Arlen.Clock.State
import Arlen.Lib.Machine

/-!
# What the stopwatch measures

Runs of the stopwatch of `daemons/clock/src/run.rs` under the commands and the machine's own
events. Beside the daemon's state stands what has really happened: for how long the person
had the stopwatch running while the machine was awake. The wall clock goes with real time,
but for the steps that are reported.
-/

namespace Arlen.Clock

open Arlen.Lib

/-- What reaches the daemon. -/
inductive Doing where
  | command (c : Command)
  | observe (e : Event)
deriving DecidableEq

/-- It happens `passed` milliseconds of real time behind the last. -/
structure Happening where
  passed : Nat
  doing : Doing
  tz : Zone

/-- What really went on since the last reset. -/
structure Reality where
  wall : Int
  wanted : Bool := false
  asleep : Bool := false
  counted : Int := 0

namespace Reality

/-- Whether time counts. -/
def counts (r : Reality) : Bool := r.wanted && !r.asleep

/-- Time goes by. -/
def wait (r : Reality) (passed : Int) : Reality :=
  { r with
    wall := r.wall + passed
    counted := r.counted + if r.counts then passed else 0 }

/-- What a command or an event is. -/
def meet (r : Reality) : Doing → Reality
  | .command .stopwatchStart => { r with wanted := true }
  | .command .stopwatchPause => { r with wanted := false }
  | .command .stopwatchReset => { r with wanted := false, counted := 0 }
  | .command _ => r
  | .observe .suspending => { r with asleep := true }
  | .observe .resumed => { r with asleep := false }
  | .observe (.clockStepped byMs) => { r with wall := r.wall + byMs }

end Reality

structure Measured where
  state : ClockState
  real : Reality

def Measured.step (cities : String → Option WorldCity) (w : Measured) (h : Happening) :
    Option (Effects × Measured) :=
  let real := (w.real.wait h.passed).meet h.doing
  let (effects, state) := match h.doing with
    | .command c => apply h.tz cities w.state c real.wall
    | .observe e => observe w.state e real.wall
  some (effects, ⟨state, real⟩)

/-- The daemon, with a stopwatch nobody has touched. -/
def measuring (cities : String → Option WorldCity) (s : ClockState) (wall : Int) :
    Machine Measured Happening Effects :=
  ⟨⟨{ s with stopwatch := {} }, { wall := wall }⟩, Measured.step cities⟩

/-- Nobody starts the stopwatch of a machine that sleeps. -/
def NoneStartsAsleep (w : Measured) (h : Happening) : Prop :=
  h.doing = .command .stopwatchStart → w.real.asleep = false

instance (w : Measured) (h : Happening) : Decidable (NoneStartsAsleep w h) :=
  inferInstanceAs (Decidable (_ → _))

/-- The anchor stands for the time that counts: it is there when time counts, and the total
is behind by what has gone by since. -/
structure Stopwatch.Keeps (s : Stopwatch) (r : Reality) : Prop where
  running : s.running = r.wanted
  anchored : s.startedAt.isSome = r.counts
  ahead : ∀ started, s.startedAt = some started → started ≤ r.wall
  total : s.elapsed r.wall = r.counted
  sorted : s.laps.Pairwise (· ≤ ·)
  laps : ∀ lap ∈ s.laps, lap ≤ r.counted

variable {s : Stopwatch} {r : Reality} {w w' : Measured} {cities : String → Option WorldCity}

namespace Stopwatch

/-! ### One operation -/

theorem elapsed_of_none (h : s.startedAt = none) (now : Int) : s.elapsed now = s.accumulatedMs := by
  unfold elapsed
  rw [h]
  exact Int.add_zero _

theorem elapsed_of_some {started : Int} (h : s.startedAt = some started) {now : Int}
    (hle : started ≤ now) : s.elapsed now = s.accumulatedMs + (now - started) := by
  unfold elapsed
  simp only [h]
  omega

theorem foldRun_startedAt (s : Stopwatch) (now : Int) : (s.foldRun now).startedAt = none := by
  unfold foldRun
  cases hs : s.startedAt with
  | none => exact hs
  | some started => rfl

/-- Folding a run moves it into the total. -/
theorem elapsed_foldRun (s : Stopwatch) (now later : Int) :
    (s.foldRun now).elapsed later = s.elapsed now := by
  rw [elapsed_of_none (s.foldRun_startedAt now)]
  unfold foldRun elapsed
  cases s.startedAt with
  | none => exact (Int.add_zero _).symm
  | some started => rfl

@[simp] theorem foldRun_running (s : Stopwatch) (now : Int) :
    (s.foldRun now).running = s.running := by
  unfold foldRun
  cases s.startedAt <;> rfl

@[simp] theorem foldRun_laps (s : Stopwatch) (now : Int) : (s.foldRun now).laps = s.laps := by
  unfold foldRun
  cases s.startedAt <;> rfl

namespace Keeps

/-- Later, the stopwatch shows the time that counted and what has gone by since. -/
theorem elapsed_later (h : s.Keeps r) {later : Int} (hlater : r.wall ≤ later) :
    s.elapsed later = r.counted + if r.counts then later - r.wall else 0 := by
  rw [← h.total]
  cases hs : s.startedAt with
  | none =>
    have hnot : r.counts = false := by rw [← h.anchored, hs]; rfl
    rw [elapsed_of_none hs, elapsed_of_none hs, hnot, if_neg Bool.false_ne_true, Int.add_zero]
  | some started =>
    have hcounts : r.counts = true := by rw [← h.anchored, hs]; rfl
    have hle := h.ahead started hs
    rw [elapsed_of_some hs hle, elapsed_of_some hs (by omega), hcounts, if_pos rfl]
    omega

theorem wait (h : s.Keeps r) (passed : Nat) : s.Keeps (r.wait passed) where
  running := h.running
  anchored := h.anchored
  ahead := by
    intro started hs
    have := h.ahead started hs
    unfold Reality.wait
    simp only
    omega
  total := by
    have hlater : r.wall ≤ (r.wait passed).wall := by
      unfold Reality.wait
      simp only
      omega
    rw [h.elapsed_later hlater]
    unfold Reality.wait
    simp only
    split <;> omega
  sorted := h.sorted
  laps := by
    intro lap hlap
    have := h.laps lap hlap
    unfold Reality.wait
    simp only
    split <;> omega

/-- With no anchor, the total is all there is. -/
theorem folded (h : s.Keeps r) {s' : Stopwatch} {r' : Reality}
    (hs' : s' = { s.foldRun r.wall with running := r'.wanted }) (hcounted : r'.counted = r.counted)
    (hcounts : r'.counts = false) : s'.Keeps r' := by
  have hnone : s'.startedAt = none := by rw [hs']; exact s.foldRun_startedAt r.wall
  have hlaps : s'.laps = s.laps := by rw [hs']; exact s.foldRun_laps r.wall
  refine ⟨by rw [hs'], by rw [hnone, hcounts]; rfl, ?_, ?_, hlaps ▸ h.sorted, ?_⟩
  · intro started hs
    rw [hnone] at hs
    cases hs
  · have hfold := s.elapsed_foldRun r.wall r'.wall
    rw [elapsed_of_none (s.foldRun_startedAt r.wall)] at hfold
    rw [elapsed_of_none hnone, hcounted, ← h.total, ← hfold, hs']
  · rw [hlaps, hcounted]
    exact h.laps

/-- A new run opens where there is none. -/
theorem opened (h : s.Keeps r) {r' : Reality} (hnone : s.startedAt = none)
    (hwall : r'.wall = r.wall) (hcounted : r'.counted = r.counted) (hcounts : r'.counts = true) :
    ({ s with running := true, startedAt := some r.wall } : Stopwatch).Keeps r' := by
  refine ⟨(Bool.and_eq_true_iff.1 hcounts).1.symm, hcounts.symm, ?_, ?_, h.sorted, ?_⟩
  · intro started hs
    cases hs
    exact hwall.ge
  · have htotal := h.total
    rw [elapsed_of_none hnone] at htotal
    rw [elapsed_of_some rfl hwall.ge, hwall, hcounted, ← htotal]
    simp only
    omega
  · rw [hcounted]
    exact h.laps

/-- What changes nothing that counts. -/
theorem congr (h : s.Keeps r) {r' : Reality} (hwanted : r'.wanted = r.wanted)
    (hwall : r'.wall = r.wall) (hcounted : r'.counted = r.counted)
    (hcounts : r'.counts = r.counts) : s.Keeps r' := by
  refine ⟨h.running.trans hwanted.symm, h.anchored.trans hcounts.symm, hwall ▸ h.ahead,
    ?_, h.sorted, hcounted ▸ h.laps⟩
  rw [hwall, hcounted]
  exact h.total

theorem start (h : s.Keeps r) (hawake : r.asleep = false) :
    (s.start r.wall).Keeps (r.meet (.command .stopwatchStart)) := by
  have hcounts : (r.meet (.command .stopwatchStart)).counts = true := by
    unfold Reality.counts Reality.meet
    simp only [hawake, Bool.not_false, Bool.and_true]
  unfold Stopwatch.start
  split
  · next hon =>
    have hwanted : true = r.wanted := by rw [← h.running, hon.1]
    exact h.congr hwanted rfl rfl (by rw [hcounts, ← h.anchored, hon.2])
  · next hoff =>
    have hnone : s.startedAt = none := by
      cases hs : s.startedAt with
      | none => rfl
      | some started =>
        have hr : r.counts = true := by rw [← h.anchored, hs]; rfl
        exact absurd ⟨h.running.trans (Bool.and_eq_true_iff.1 hr).1, by rw [hs]; rfl⟩ hoff
    exact h.opened hnone rfl rfl hcounts

theorem pause (h : s.Keeps r) :
    (s.pause r.wall).Keeps (r.meet (.command .stopwatchPause)) :=
  h.folded rfl rfl rfl

theorem suspended (h : s.Keeps r) :
    (s.suspended r.wall).Keeps (r.meet (.observe .suspending)) := by
  have hcounts : (r.meet (.observe .suspending)).counts = false := by
    unfold Reality.counts Reality.meet
    simp only [Bool.not_true, Bool.and_false]
  unfold Stopwatch.suspended
  split
  · refine h.folded ?_ rfl hcounts
    have hrun := s.foldRun_running r.wall
    rw [h.running] at hrun
    change _ = { s.foldRun r.wall with running := r.wanted }
    rw [← hrun]
  · next hoff =>
    have hwanted : r.wanted = false := by
      rw [← h.running]
      exact Bool.eq_false_iff.2 hoff
    refine h.congr rfl rfl rfl ?_
    rw [hcounts]
    unfold Reality.counts
    rw [hwanted, Bool.false_and]

theorem resumed (h : s.Keeps r) :
    (s.resumed r.wall).Keeps (r.meet (.observe .resumed)) := by
  have hcounts : (r.meet (.observe .resumed)).counts = r.wanted := by
    unfold Reality.counts Reality.meet
    simp only [Bool.not_false, Bool.and_true]
  unfold Stopwatch.resumed
  split
  · next hon =>
    have hkept : ({ s with running := true, startedAt := some r.wall } : Stopwatch).Keeps
        (r.meet (.observe .resumed)) :=
      h.opened hon.2 rfl rfl (by rw [hcounts, ← h.running, hon.1])
    rwa [← hon.1] at hkept
  · next hoff =>
    refine h.congr rfl rfl rfl ?_
    rw [hcounts]
    cases hs : s.startedAt with
    | none =>
      have hwanted : r.wanted = false := by
        rw [← h.running]
        exact Bool.eq_false_iff.2 fun hrun => hoff ⟨hrun, hs⟩
      unfold Reality.counts
      rw [hwanted, Bool.false_and]
    | some started =>
      have hr : r.counts = true := by rw [← h.anchored, hs]; rfl
      rw [hr, (Bool.and_eq_true_iff.1 hr).1]

/-- A step of the clock moves the anchor along. -/
theorem clockStepped (h : s.Keeps r) (byMs : Int) :
    (s.clockStepped (r.wall + byMs - byMs) (r.wall + byMs)).Keeps
      (r.meet (.observe (.clockStepped byMs))) := by
  have hsome : (s.clockStepped (r.wall + byMs - byMs) (r.wall + byMs)).startedAt =
      s.startedAt.map (· + byMs) := by
    unfold Stopwatch.clockStepped
    simp only [Int.add_sub_cancel]
    congr 1
    funext started
    omega
  refine ⟨h.running, ?_, ?_, ?_, h.sorted, h.laps⟩
  · rw [hsome, Option.isSome_map]
    exact h.anchored
  · intro started hs
    rw [hsome, Option.map_eq_some_iff] at hs
    obtain ⟨before, hs, rfl⟩ := hs
    have := h.ahead before hs
    unfold Reality.meet
    simp only
    omega
  · refine Eq.trans ?_ h.total
    cases hs : s.startedAt with
    | none =>
      rw [hs] at hsome
      rw [elapsed_of_none hsome, elapsed_of_none hs]
      rfl
    | some started =>
      rw [hs] at hsome
      have hle := h.ahead started hs
      have hwall : (r.meet (.observe (.clockStepped byMs))).wall = r.wall + byMs := rfl
      rw [elapsed_of_some hsome (by rw [hwall]; exact Int.add_le_add_right hle byMs),
        elapsed_of_some hs hle, hwall]
      unfold Stopwatch.clockStepped
      simp only
      omega

theorem lap (h : s.Keeps r) : (s.lap r.wall).Keeps r where
  running := h.running
  anchored := h.anchored
  ahead := h.ahead
  total := h.total
  sorted := by
    refine List.pairwise_append.2
      ⟨h.sorted, List.pairwise_singleton _ _, fun lap hlap new hnew => ?_⟩
    rw [List.mem_singleton.1 hnew, h.total]
    exact h.laps lap hlap
  laps := by
    intro lap hlap
    rcases List.mem_append.1 hlap with hlap | hlap
    · exact h.laps lap hlap
    · rw [List.mem_singleton.1 hlap, h.total]

theorem reset (r : Reality) : ({} : Stopwatch).Keeps (r.meet (.command .stopwatchReset)) where
  running := rfl
  anchored := rfl
  ahead := fun _ hs => (by cases hs)
  total := rfl
  sorted := List.Pairwise.nil
  laps := fun _ hlap => absurd hlap List.not_mem_nil

end Keeps

end Stopwatch

/-! ### Runs -/

/-- A command that is not about the stopwatch leaves it, and counts for nothing. -/
theorem stopwatch_reduced (cities : String → Option WorldCity) (tz : Zone) (state : ClockState)
    (r : Reality) (now : Int) {c : Command}
    (h : c ∉ [.stopwatchStart, .stopwatchPause, .stopwatchLap, .stopwatchReset]) :
    (reduced tz cities state now c).stopwatch = state.stopwatch ∧ r.meet (.command c) = r := by
  cases c with
  | stopwatchStart => exact absurd (by decide) h
  | stopwatchPause => exact absurd (by decide) h
  | stopwatchLap => exact absurd (by decide) h
  | stopwatchReset => exact absurd (by decide) h
  | setAlarm a =>
    simp only [reduced]
    split <;> exact ⟨rfl, rfl⟩
  | timerStart id durationMs =>
    simp only [reduced]
    split <;> exact ⟨rfl, rfl⟩
  | worldAdd id =>
    simp only [reduced]
    split
    · exact ⟨rfl, rfl⟩
    · split <;> exact ⟨rfl, rfl⟩
  | _ => exact ⟨rfl, rfl⟩

theorem keeps_step {h : Happening} {e : Effects} (hw : w.state.stopwatch.Keeps w.real)
    (hok : NoneStartsAsleep w h) (hs : w.step cities h = some (e, w')) :
    w'.state.stopwatch.Keeps w'.real := by
  have hwait := hw.wait h.passed
  unfold Measured.step at hs
  cases hd : h.doing with
  | command c =>
    rw [hd] at hs
    cases hs
    change (reduced h.tz cities w.state _ c).stopwatch.Keeps _
    by_cases hc : c ∈ [.stopwatchStart, .stopwatchPause, .stopwatchLap, .stopwatchReset]
    · simp only [List.mem_cons, List.not_mem_nil, or_false] at hc
      obtain rfl | rfl | rfl | rfl := hc
      · exact hwait.start (hok hd)
      · exact hwait.pause
      · exact hwait.lap
      · exact Stopwatch.Keeps.reset _
    · obtain ⟨hstate, hreal⟩ := stopwatch_reduced cities h.tz w.state (w.real.wait h.passed)
        ((w.real.wait h.passed).meet (.command c)).wall hc
      rw [hstate, hreal]
      exact hwait
  | observe e =>
    rw [hd] at hs
    cases hs
    cases e with
    | suspending => exact hwait.suspended
    | resumed => exact hwait.resumed
    | clockStepped byMs => exact hwait.clockStepped byMs

/-- **The stopwatch is exact.** In every run in which nobody starts it while the machine
sleeps, it shows at every later moment the time since the last reset during which the person
had it running and the machine was awake; its laps do not fall, and none is more than it
shows. -/
theorem stopwatch_exact {s : ClockState} {wall : Int} {τ : List (Happening × Effects)}
    (h : (measuring cities s wall).Run NoneStartsAsleep τ w) :
    (∀ later, w.real.wall ≤ later → w.state.stopwatch.elapsed later =
        w.real.counted + if w.real.counts then later - w.real.wall else 0) ∧
      w.state.stopwatch.laps.Pairwise (· ≤ ·) ∧
      ∀ lap ∈ w.state.stopwatch.laps, ∀ later, w.real.wall ≤ later →
        lap ≤ w.state.stopwatch.elapsed later := by
  have hkeeps : w.state.stopwatch.Keeps w.real :=
    Machine.Run.inv (I := fun _ w => w.state.stopwatch.Keeps w.real)
      (Stopwatch.Keeps.reset { wall := wall }) (fun hI hok hs => keeps_step hI hok hs) h
  refine ⟨fun later hlater => hkeeps.elapsed_later hlater, hkeeps.sorted,
    fun lap hlap later hlater => ?_⟩
  have hle := hkeeps.laps lap hlap
  rw [hkeeps.elapsed_later hlater]
  split <;> omega

/-- Started, slept through with a step of the clock back by an hour, resumed, and a lap. -/
def sleptThrough : List Happening :=
  [⟨0, .command .stopwatchStart, ⟨fun _ => none, fun _ _ => .none⟩⟩,
    ⟨5000, .observe .suspending, ⟨fun _ => none, fun _ _ => .none⟩⟩,
    ⟨28800000, .observe (.clockStepped (-3600000)), ⟨fun _ => none, fun _ _ => .none⟩⟩,
    ⟨10, .observe .resumed, ⟨fun _ => none, fun _ _ => .none⟩⟩,
    ⟨2000, .command .stopwatchLap, ⟨fun _ => none, fun _ _ => .none⟩⟩]

/-- The lap reads the seven seconds awake. -/
theorem stopwatch_exact_slept : ∃ τ w,
    (measuring (fun _ => none) {} 0).Run NoneStartsAsleep τ w ∧
      w.state.stopwatch.laps = [7000] ∧
      ∀ later, w.real.wall ≤ later → w.state.stopwatch.elapsed later =
        w.real.counted + if w.real.counts then later - w.real.wall else 0 := by
  have hexec : ((measuring (fun _ => none) {} 0).exec NoneStartsAsleep
      (measuring (fun _ => none) {} 0).init sleptThrough).map (·.2.state.stopwatch.laps) =
        some [7000] := by decide
  obtain ⟨⟨τ, w⟩, he, hlaps⟩ := Option.map_eq_some_iff.1 hexec
  have hrun := Machine.run_of_exec he
  exact ⟨τ, w, hrun, hlaps, (stopwatch_exact hrun).1⟩

end Arlen.Clock
