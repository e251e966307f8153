import Arlen.Clock.State
import Arlen.Lib.Machine
import Mathlib.Data.List.Nodup

/-!
# Once means once

Runs of the clock daemon: commands, passes of `due::advance`, and sleeps and
restarts, which end in `startup::resume`, each at its own reading of a clock that
does not go back and in the zone of the moment. `rung` keeps the ids reported for
ringing since their alarm was last set or enabled. A pass turns an alarm that rings
once off; `resume` does not, so it must not have one to ring late.
-/

namespace Arlen.Clock

open Arlen.Lib

inductive Move where
  | command (c : Command)
  | observe (e : Event)
  | pass
  | resume
deriving DecidableEq

/-- A move, with the reading of the clock and the zone it is made in. -/
structure Moment where
  move : Move
  now : Int
  tz : Zone

structure World where
  state : ClockState
  rung : List String
  clock : Int

/-- The ids a command starts anew. -/
def rearmed : Command → Option String
  | .setAlarm a => some a.id
  | .toggleAlarm id true => some id
  | _ => none

def World.step (cities : String → Option WorldCity) (w : World) (m : Moment) :
    Option (List String × World) :=
  if m.now < w.clock then none
  else
    match m.move with
    | .command c =>
      some ([], ⟨(apply m.tz cities w.state c m.now).2, w.rung.filter (some · ≠ rearmed c), m.now⟩)
    | .observe e => some ([], ⟨(observe w.state e m.now).2, w.rung, m.now⟩)
    | .pass =>
      let (due, state) := advance m.tz w.state m.now
      some (due.alarms, ⟨state, w.rung ++ due.alarms, m.now⟩)
    | .resume =>
      let (resumed, state) := resume m.tz w.state lateWindowMs m.now
      some (resumed.ringLate, ⟨state, w.rung ++ resumed.ringLate, m.now⟩)

/-- The daemon, from a clock nobody has set. -/
def daemon (cities : String → Option WorldCity) : Machine World Moment (List String) :=
  ⟨⟨{}, [], 0⟩, World.step cities⟩

/-- An alarm that rings once: no days and no date. -/
def Alarm.Once (a : Alarm) : Prop := a.days = [] ∧ a.onDate = none

/-- Coming back finds no alarm that rings once to ring late. -/
def NoneLate (w : World) (m : Moment) : Prop :=
  m.move = .resume → ∀ a ∈ w.state.alarms, a.Once → verdict a m.now lateWindowMs ≠ .fireLate

instance (a : Alarm) : Decidable a.Once := inferInstanceAs (Decidable (_ ∧ _))

instance (w : World) (m : Moment) : Decidable (NoneLate w m) :=
  inferInstanceAs (Decidable (_ → _))

/-- Since it was last set or enabled, an alarm that rings once was reported at most
once, and once reported it is off. -/
def RingsOnce (w : World) : Prop :=
  ∀ a ∈ w.state.alarms, a.Once →
    w.rung.count a.id ≤ 1 ∧ (a.id ∈ w.rung → a.enabled = false ∧ a.nextFireAt = none)

def ids (s : ClockState) : List String := s.alarms.map (·.id)

/-- What every step keeps: no two alarms share an id. -/
structure Settled (w : World) : Prop where
  nodup : (ids w.state).Nodup
  once : RingsOnce w

variable {w w' : World} {m : Moment} {tz : Zone} {now : Int} {cities : String → Option WorldCity}

/-! ### Replacing an alarm -/

theorem replaceFirst_eq_map {α : Type} {key : α → String} {k : String} {f : α → α} {l : List α}
    (h : (l.map key).Nodup) :
    replaceFirst (fun a => decide (key a = k)) f l = l.map fun a => if key a = k then f a else a := by
  induction l with
  | nil => rfl
  | cons a l ih =>
    rw [List.map_cons, List.nodup_cons] at h
    unfold replaceFirst
    by_cases hk : key a = k
    · rw [if_pos (by simpa using hk), List.map_cons, if_pos hk]
      have hrest : l.map (fun b => if key b = k then f b else b) = l := by
        refine (List.map_congr_left fun b hb => if_neg fun hb' => ?_).trans (List.map_id' l)
        exact h.1 (List.mem_map.2 ⟨b, hb, hb'.trans hk.symm⟩)
      rw [hrest]
    · rw [if_neg (by simpa using hk), List.map_cons, if_neg hk, ih h.2]

/-- A change of the alarms of one id. -/
theorem Settled.replaced (h : Settled w) {id : String} {f : Alarm → Alarm} {state : ClockState}
    (hstate : state.alarms = replaceFirst (fun a => decide (a.id = id)) f w.state.alarms)
    (hid : ∀ a, a.id = id → (f a).id = id) {rung : List String} {clock : Int}
    (hnew : ∀ a ∈ w.state.alarms, a.id = id → (f a).Once →
      rung.count id ≤ 1 ∧ (id ∈ rung → (f a).enabled = false ∧ (f a).nextFireAt = none))
    (hrest : ∀ x, x ≠ id → rung.count x = w.rung.count x) : Settled ⟨state, rung, clock⟩ := by
  have hmap := hstate.trans (replaceFirst_eq_map h.nodup)
  constructor
  · unfold ids
    simp only
    rw [hmap, List.map_map]
    refine (List.map_congr_left fun a _ => ?_).symm ▸ h.nodup
    simp only [Function.comp_apply]
    split
    · next ha => exact (hid a ha).trans ha.symm
    · rfl
  · intro a ha honce
    simp only [hmap, List.mem_map] at ha
    obtain ⟨b, hb, rfl⟩ := ha
    split at honce
    · next hbid =>
      rw [if_pos hbid, hid b hbid]
      exact hnew b hb hbid honce
    · next hbid =>
      rw [if_neg hbid, hrest b.id hbid, ← List.count_pos_iff, hrest b.id hbid, List.count_pos_iff]
      exact h.once b hb honce

/-! ### The steps -/

theorem count_rearmed (rung : List String) {c : Command} {id : String} (h : rearmed c = some id) :
    id ∉ rung.filter (some · ≠ rearmed c) ∧
      ∀ x, x ≠ id → (rung.filter (some · ≠ rearmed c)).count x = rung.count x := by
  rw [h]
  constructor
  · simp
  · intro x hx
    exact List.count_filter (by simpa using hx)

/-- Alarms and reports stay. -/
theorem Settled.quiet (h : Settled w) (ha : w'.state.alarms = w.state.alarms)
    (hr : w'.rung = w.rung) : Settled w' := by
  constructor
  · unfold ids
    rw [ha]
    exact h.nodup
  · unfold RingsOnce
    rw [ha, hr]
    exact h.once

theorem settled_setAlarm (h : Settled w) (a : Alarm) (tz : Zone) (now clock : Int) :
    Settled ⟨reduced tz cities w.state now (.setAlarm a),
      w.rung.filter (some · ≠ rearmed (.setAlarm a)), clock⟩ := by
  obtain ⟨hout, hcount⟩ := count_rearmed w.rung (show rearmed (.setAlarm a) = some a.id from rfl)
  unfold reduced
  simp only
  split
  · refine h.replaced (f := fun _ => { a with nextFireAt := nextFireAt tz a now }) rfl (fun _ _ => rfl)
      (fun _ _ _ _ => ⟨?_, fun hm => absurd hm hout⟩) hcount
    rw [List.count_eq_zero.2 hout]
    exact Nat.zero_le 1
  · next hany =>
    have hnew : a.id ∉ ids w.state := by
      intro hm
      obtain ⟨b, hb, hid⟩ := List.mem_map.1 hm
      exact hany (List.any_eq_true.2 ⟨b, hb, by simpa using hid⟩)
    constructor
    · unfold ids at hnew ⊢
      simp only [List.map_append, List.map_cons, List.map_nil]
      exact List.nodup_append.2 ⟨h.nodup, by simp, by
        intro x hx y hy
        rw [List.mem_singleton.1 hy]
        rintro rfl
        exact hnew hx⟩
    · intro b hb honce
      rcases List.mem_append.1 hb with hb | hb
      · have hne : b.id ≠ a.id := by
          intro hid
          exact hnew (List.mem_map.2 ⟨b, hb, hid⟩)
        simp only
        rw [hcount b.id hne, ← List.count_pos_iff, hcount b.id hne, List.count_pos_iff]
        exact h.once b hb honce
      · obtain rfl := List.mem_singleton.1 hb
        refine ⟨?_, fun hm => absurd hm hout⟩
        simp only
        rw [List.count_eq_zero.2 hout]
        exact Nat.zero_le 1

theorem settled_toggleAlarm (h : Settled w) (id : String) (enabled : Bool) (tz : Zone)
    (now clock : Int) :
    Settled ⟨reduced tz cities w.state now (.toggleAlarm id enabled),
      w.rung.filter (some · ≠ rearmed (.toggleAlarm id enabled)), clock⟩ := by
  let toggled (a : Alarm) : Alarm :=
    { a with enabled := enabled, nextFireAt := nextFireAt tz { a with enabled := enabled } now }
  have hstate : (reduced tz cities w.state now (.toggleAlarm id enabled)).alarms =
      replaceFirst (fun a => decide (a.id = id)) toggled w.state.alarms := rfl
  cases enabled with
  | true =>
    obtain ⟨hout, hcount⟩ :=
      count_rearmed w.rung (show rearmed (.toggleAlarm id true) = some id from rfl)
    refine h.replaced hstate (fun _ hid => hid) (fun _ _ _ _ => ⟨?_, fun hm => absurd hm hout⟩) hcount
    rw [List.count_eq_zero.2 hout]
    exact Nat.zero_le 1
  | false =>
    have hrung : w.rung.filter (some · ≠ rearmed (.toggleAlarm id false)) = w.rung := by
      simp [rearmed]
    rw [hrung]
    refine h.replaced hstate (fun _ hid => hid) (fun a ha hid honce => ?_) fun _ _ => rfl
    obtain ⟨hle, -⟩ := h.once a ha honce
    rw [hid] at hle
    have hnext : nextFireAt tz { a with enabled := false } now = none := nextFireAt_of_disabled rfl
    exact ⟨hle, fun _ => ⟨rfl, hnext⟩⟩

theorem settled_deleteAlarm (h : Settled w) (id : String) (clock : Int) :
    Settled ⟨{ w.state with alarms := w.state.alarms.filter (·.id ≠ id) }, w.rung, clock⟩ where
  nodup := h.nodup.sublist (List.filter_sublist.map _)
  once := fun a ha => h.once a (List.mem_filter.1 ha).1

def Command.onAlarms : Command → Bool
  | .setAlarm _ | .toggleAlarm _ _ | .deleteAlarm _ => true
  | _ => false

/-- A command that is not about alarms leaves them. -/
theorem alarms_reduced {c : Command} (h : c.onAlarms = false) :
    (reduced tz cities w.state now c).alarms = w.state.alarms := by
  cases c with
  | setAlarm a => cases h
  | toggleAlarm id enabled => cases h
  | deleteAlarm id => cases h
  | timerStart id durationMs =>
    simp only [reduced]
    split <;> rfl
  | worldAdd id =>
    simp only [reduced]
    split
    · rfl
    · split <;> rfl
  | _ => rfl

theorem settled_command (h : Settled w) (c : Command) (tz : Zone) (now clock : Int) :
    Settled ⟨reduced tz cities w.state now c, w.rung.filter (some · ≠ rearmed c), clock⟩ := by
  have hkeep : ∀ c, rearmed c = none → w.rung.filter (some · ≠ rearmed c) = w.rung := by
    intro c hc
    simp [hc]
  cases c with
  | setAlarm a => exact settled_setAlarm h a tz now clock
  | toggleAlarm id enabled => exact settled_toggleAlarm h id enabled tz now clock
  | deleteAlarm id =>
    rw [hkeep _ rfl]
    exact settled_deleteAlarm h id clock
  | _ => exact h.quiet (alarms_reduced rfl) (hkeep _ rfl)

/-- A pass over the alarms: the reported ones go off, and no id is reported twice. -/
theorem Settled.passed (h : Settled w) {f : Alarm → Alarm} {late : Alarm → Bool} {clock : Int}
    {state : ClockState} (hstate : state.alarms = w.state.alarms.map f)
    (hid : ∀ a, (f a).id = a.id) (honce : ∀ a, (f a).Once → a.Once)
    (hoff : ∀ a, a.Once → a.enabled = false ∧ a.nextFireAt = none →
      late a = false ∧ (f a).enabled = false ∧ (f a).nextFireAt = none)
    (hlate : ∀ a ∈ w.state.alarms, a.Once → late a = true →
      (f a).enabled = false ∧ (f a).nextFireAt = none) :
    Settled ⟨state, w.rung ++ (w.state.alarms.filter late).map (·.id), clock⟩ := by
  have hids : state.alarms.map (·.id) = w.state.alarms.map (·.id) := by
    rw [hstate, List.map_map]
    exact List.map_congr_left fun a _ => hid a
  constructor
  · unfold ids
    simp only
    rw [hids]
    exact h.nodup
  · intro b hb hbonce
    simp only [hstate] at hb
    obtain ⟨a, ha, rfl⟩ := List.mem_map.1 hb
    have haonce := honce a hbonce
    obtain ⟨hle, hgone⟩ := h.once a ha haonce
    -- Ids are distinct, so `a` is the only alarm that can be reported under its own.
    have hself : a.id ∈ (w.state.alarms.filter late).map (·.id) → late a = true := by
      intro hm
      obtain ⟨c, hc, hcid⟩ := List.mem_map.1 hm
      obtain ⟨hc, hlc⟩ := List.mem_filter.1 hc
      rwa [List.inj_on_of_nodup_map h.nodup ha hc hcid.symm]
    have hnew : ((w.state.alarms.filter late).map (·.id)).count a.id ≤ 1 :=
      List.nodup_iff_count.1 (h.nodup.sublist (List.filter_sublist.map _)) a.id
    simp only
    rw [hid a, List.count_append, List.mem_append]
    by_cases hrung : a.id ∈ w.rung
    · obtain ⟨hnot, hen, hnext⟩ := hoff a haonce (hgone hrung)
      have hzero : ((w.state.alarms.filter late).map (·.id)).count a.id = 0 := by
        refine List.count_eq_zero.2 fun hm => ?_
        rw [hself hm] at hnot
        cases hnot
      exact ⟨by omega, fun _ => ⟨hen, hnext⟩⟩
    · have hzero := List.count_eq_zero.2 hrung
      refine ⟨by omega, ?_⟩
      rintro (hm | hm)
      · exact absurd hm hrung
      · exact hlate a ha haonce (hself hm)

theorem advanceAlarm_fixed (tz : Zone) (now : Int) (a : Alarm) :
    (advanceAlarm tz now a).id = a.id ∧ (advanceAlarm tz now a).days = a.days ∧
      (advanceAlarm tz now a).onDate = a.onDate := by
  unfold advanceAlarm
  split
  · split <;> exact ⟨rfl, rfl, rfl⟩
  · exact ⟨rfl, rfl, rfl⟩

theorem settled_pass (h : Settled w) (tz : Zone) (now clock : Int) :
    Settled ⟨(advance tz w.state now).2, w.rung ++ (advance tz w.state now).1.alarms, clock⟩ := by
  refine h.passed (f := advanceAlarm tz now) rfl (fun a => (advanceAlarm_fixed tz now a).1)
    (fun a ha => ?_) (fun a _ hoff => ?_) fun a _ ha hdue => ?_
  · obtain ⟨-, hdays, hdate⟩ := advanceAlarm_fixed tz now a
    exact ⟨hdays.symm.trans ha.1, hdate.symm.trans ha.2⟩
  · have hdue : a.isDue now = false := by
      unfold Alarm.isDue
      rw [hoff.2]
    unfold advanceAlarm
    rw [if_neg (by simp [hdue])]
    exact ⟨hdue, hoff⟩
  · unfold advanceAlarm
    rw [if_pos hdue, if_pos ha.1]
    exact ⟨rfl, rfl⟩

theorem settled_resume (h : Settled w) (tz : Zone) (now clock : Int)
    (hnone : ∀ a ∈ w.state.alarms, a.Once → verdict a now lateWindowMs ≠ .fireLate) :
    Settled ⟨(resume tz w.state lateWindowMs now).2,
      w.rung ++ (resume tz w.state lateWindowMs now).1.ringLate, clock⟩ := by
  refine h.passed (f := resumeAlarm tz now) rfl (fun _ => rfl) (fun _ ha => ha)
    (fun a _ hoff => ?_) fun a ha honce hlate => ?_
  · refine ⟨?_, hoff.1, nextFireAt_of_disabled hoff.1⟩
    rw [decide_eq_false_iff_not, verdict_eq_fireLate, hoff.1]
    simp
  · exact absurd (of_decide_eq_true hlate) (hnone a ha honce)

theorem Settled.step (h : Settled w) {r : List String} (hok : NoneLate w m)
    (hs : w.step cities m = some (r, w')) : Settled w' := by
  unfold World.step at hs
  split at hs
  · cases hs
  · cases hm : m.move with
    | command c =>
      rw [hm] at hs
      cases hs
      exact settled_command h c m.tz m.now m.now
    | observe e =>
      rw [hm] at hs
      cases hs
      exact h.quiet rfl rfl
    | pass =>
      rw [hm] at hs
      cases hs
      exact settled_pass h m.tz m.now m.now
    | resume =>
      rw [hm] at hs
      cases hs
      exact settled_resume h m.tz m.now m.now (hok hm)

theorem settled_init : Settled (daemon cities).init where
  nodup := List.nodup_nil
  once := fun _ ha => absurd ha List.not_mem_nil

/-- **Once rings once**, in every run that never comes back to an alarm that rings
once and is to ring late. -/
theorem rings_once {τ : List (Moment × List String)}
    (h : (daemon cities).Run NoneLate τ w) : RingsOnce w := by
  have hinv : Settled w := Machine.Run.inv (I := fun _ w => Settled w)
    settled_init (fun hI hok hs => hI.step hok hs) h
  exact hinv.once

/-- Greenwich, without its summers. -/
def utc : Zone where
  dateOf ms := Calendar.NaiveDate.ofDays (719162 + ms / 86400000)
  fromLocal day t :=
    .single ((day.days - 719162) * 86400000 + (t.hour * 3600 + t.minute * 60 + t.second) * 1000)

/-- An alarm for seven, once, to ring late. -/
def morning : Alarm where
  id := "morning"
  time := "07:00"
  label := ""
  days := []
  onDate := none
  payload := none
  enabled := true
  fireLate := true
  nextFireAt := none

/-- Set at midnight, and reached awake. -/
def rungInTime : List Moment :=
  [⟨.command (.setAlarm morning), 0, utc⟩, ⟨.pass, 25200000, utc⟩, ⟨.resume, 25200000, utc⟩]

/-- Set at midnight, slept through until half past seven, and awake the next day. -/
def rungLate : List Moment :=
  [⟨.command (.setAlarm morning), 0, utc⟩, ⟨.resume, 27000000, utc⟩, ⟨.pass, 111600000, utc⟩]

/-- Reached awake, the alarm rings and is off. -/
theorem rings_once_in_time :
    ∃ τ w, (daemon fun _ => none).Run NoneLate τ w ∧ w.rung = ["morning"] ∧ RingsOnce w := by
  have hexec : ((daemon fun _ => none).exec NoneLate (daemon fun _ => none).init rungInTime).map
      (·.2.rung) = some ["morning"] := by decide +kernel
  obtain ⟨⟨τ, w⟩, he, hrung⟩ := Option.map_eq_some_iff.1 hexec
  have hrun := Machine.run_of_exec he
  exact ⟨τ, w, hrun, hrung, rings_once hrun⟩

/-- Slept through, it rings late and again the next day. -/
theorem once_rings_twice :
    ∃ τ w, (daemon fun _ => none).Run Machine.anyStep τ w ∧ ¬ RingsOnce w := by
  have hexec : ((daemon fun _ => none).exec Machine.anyStep (daemon fun _ => none).init rungLate).map
      (fun x => (x.2.rung, x.2.state.alarms)) = some (["morning", "morning"],
        [{ morning with enabled := false }]) := by decide +kernel
  obtain ⟨⟨τ, w⟩, he, hw⟩ := Option.map_eq_some_iff.1 hexec
  obtain ⟨hrung, halarms⟩ := Prod.mk.inj hw
  refine ⟨τ, w, Machine.run_of_exec he, fun h => ?_⟩
  have hmem : { morning with enabled := false } ∈ w.state.alarms := by
    rw [halarms]
    exact List.mem_singleton_self _
  have hle := (h _ hmem ⟨rfl, rfl⟩).1
  rw [hrung] at hle
  exact absurd hle (by decide)

end Arlen.Clock
