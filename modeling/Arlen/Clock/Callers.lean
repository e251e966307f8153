import Arlen.Clock.Once
import Arlen.Lib.Text

/-!
# Who may do what to the alarms

`daemons/clock/src/callers.rs` and the alarm methods of `org.arlen.Clock1` in `main.rs`. A
registrant reaches the alarms that carry its own mark in their payload. Toggling and
deleting ask this of the first alarm the daemon holds under the id; setting asks it of the
alarm that is written.
-/

namespace Arlen.Clock

open Arlen.Lib

def clockApp : String := "dev.arlen.clock"

/-- The components that register alarms, and the payload source each owns. -/
def registrars : List (String × String) := [("calendard", "calendar")]

/-- How far a caller reaches into the alarm list. -/
inductive Reach where
  | full
  | onlyOwn (source : String)
  | none
deriving DecidableEq, Repr

/-- What `appId` may reach; a debug build knows the build tree's ids besides. -/
def reachOf (debug : Bool) (appId : String) : Reach :=
  if appId = clockApp then .full
  else if debug ∧ appId = "dev.arlen-clock-app" then .full
  else
    match registrars.find? fun r => appId = r.1 ∨ (debug ∧ appId = "dev.arlen-" ++ r.1) with
    | some r => .onlyOwn r.2
    | none => .none

/-- What the payload of a source's alarms contains. -/
def markOf (source : String) : String := "\"source\":\"" ++ source ++ "\""

def mayTouch (reach : Reach) (payload : Option String) : Bool :=
  match reach with
  | .full => true
  | .none => false
  | .onlyOwn source => payload.any fun p => Text.contains (markOf source).toList p.toList

/-! ## The calls -/

inductive FdoError where
  | accessDenied (message : String)
  | invalidArgs (message : String)
deriving DecidableEq, Repr

/-- Refuse a caller the clock does not know. -/
def admitCaller (debug : Bool) (caller : Except String String) : Except FdoError Reach :=
  match caller with
  | .error _ => .error (.accessDenied "unresolved caller")
  | .ok id =>
    match reachOf debug id with
    | .none => .error (.accessDenied "not the clock app")
    | reach => .ok reach

def mayReachAlarm (s : ClockState) (reach : Reach) (id : String) : Except FdoError Unit :=
  if reach = .full then .ok ()
  else if (s.alarms.find? (·.id = id)).any fun a => mayTouch reach a.payload then .ok ()
  else .error (.accessDenied "this caller may only reach its own registrations")

/-- A call on the alarms. The text of an alarm has been read, or could not be. -/
inductive AlarmCall where
  | setAlarm (alarm : Except String Alarm)
  | toggleAlarm (id : String) (enabled : Bool)
  | deleteAlarm (id : String)

/-- A call, with the zone and the time at which it is served. -/
structure Asked where
  call : AlarmCall
  tz : Zone
  now : Int

variable (cities : String → Option WorldCity)

/-- Serve one call of an admitted caller. -/
def serve (reach : Reach) (s : ClockState) (t : Asked) : Except FdoError Unit × ClockState :=
  match t.call with
  | .setAlarm (.error e) => (.error (.invalidArgs ("not an alarm: " ++ e)), s)
  | .setAlarm (.ok alarm) =>
    if mayTouch reach alarm.payload then (.ok (), (apply t.tz cities s (.setAlarm alarm) t.now).2)
    else (.error (.accessDenied "this caller may only set its own registrations"), s)
  | .toggleAlarm id enabled =>
    match mayReachAlarm s reach id with
    | .error e => (.error e, s)
    | .ok () => (.ok (), (apply t.tz cities s (.toggleAlarm id enabled) t.now).2)
  | .deleteAlarm id =>
    match mayReachAlarm s reach id with
    | .error e => (.error e, s)
    | .ok () => (.ok (), (apply t.tz cities s (.deleteAlarm id) t.now).2)

/-- The state behind a sequence of calls. -/
def served (reach : Reach) (s : ClockState) (calls : List Asked) : ClockState :=
  calls.foldl (fun s t => (serve cities reach s t).2) s

/-! ## The alarms out of a registrant's reach -/

def outOfReach (source : String) (a : Alarm) : Bool := !mayTouch (.onlyOwn source) a.payload

/-- The alarms that do not carry the source's mark, in their order. -/
def others (source : String) (s : ClockState) : List Alarm := s.alarms.filter (outOfReach source)

/-- Every alarm that does not carry the mark is still there and as it was. -/
def Unharmed (source : String) (s s' : ClockState) : Prop := (others source s).Sublist s'.alarms

/-- No alarm out of reach stands where the call strikes: in place of the alarm that is
written, or under the id that is deleted behind one in reach. -/
def Spares (source : String) (s : ClockState) : AlarmCall → Prop
  | .setAlarm (.ok alarm) => outOfReach source alarm = false →
      ∀ b, s.alarms.find? (·.id = alarm.id) = some b → outOfReach source b = false
  | .deleteAlarm id => (∃ b, s.alarms.find? (·.id = id) = some b ∧ outOfReach source b = false) →
      ∀ b ∈ s.alarms, b.id = id → outOfReach source b = false
  | _ => True

/-- Every call of the sequence spares the alarms out of reach. -/
def AllSpare (source : String) : ClockState → List Asked → Prop
  | _, [] => True
  | s, t :: calls => Spares source s t.call ∧
      AllSpare source (serve cities (.onlyOwn source) s t).2 calls

/-! ## One call -/

section Lists

variable {α : Type} {p F : α → Bool} {f : α → α} {l : List α}

/-- Replacing the first find by something outside `F` takes at most that find out of `F`. -/
theorem filter_replaceFirst_sublist (hf : ∀ b, l.find? p = some b → F (f b) = false) :
    ((replaceFirst p f l).filter F).Sublist (l.filter F) := by
  induction l with
  | nil => exact List.Sublist.refl _
  | cons a l ih =>
    unfold replaceFirst
    by_cases hp : p a = true
    · rw [if_pos hp, List.filter_cons_of_neg (by simp [hf a (by simp [hp])])]
      exact (List.sublist_cons_self a l).filter F
    · rw [if_neg hp]
      have htail := ih fun b hb => hf b (by simpa [hp] using hb)
      rw [List.filter_cons, List.filter_cons]
      split
      · exact htail.cons_cons a
      · exact htail

theorem filter_replaceFirst_eq_iff (hf : ∀ b, l.find? p = some b → F (f b) = false) :
    (replaceFirst p f l).filter F = l.filter F ↔ ∀ b, l.find? p = some b → F b = false := by
  induction l with
  | nil => simp [replaceFirst]
  | cons a l ih =>
    unfold replaceFirst
    by_cases hp : p a = true
    · rw [if_pos hp, List.filter_cons_of_neg (by simp [hf a (by simp [hp])])]
      by_cases ha : F a = true
      · rw [List.filter_cons_of_pos ha]
        simp [hp, ha]
      · simp [hp, ha]
    · rw [if_neg hp]
      have htail := ih fun b hb => hf b (by simpa [hp] using hb)
      rw [List.filter_cons, List.filter_cons]
      split
      · simpa [hp] using htail
      · simpa [hp] using htail

end Lists

variable {cities} {source : String} {s : ClockState} {t : Asked}

theorem outOfReach_congr {a b : Alarm} (h : a.payload = b.payload) :
    outOfReach source a = outOfReach source b := by
  unfold outOfReach
  rw [h]

theorem mayReachAlarm_eq_ok {id : String} (h : mayReachAlarm s (.onlyOwn source) id = .ok ()) :
    ∃ b, s.alarms.find? (·.id = id) = some b ∧ outOfReach source b = false := by
  unfold mayReachAlarm at h
  rw [if_neg (by simp)] at h
  split at h
  · next hany =>
    cases hb : s.alarms.find? (·.id = id) with
    | none => simp [hb] at hany
    | some b => exact ⟨b, rfl, by simpa [hb, outOfReach] using hany⟩
  · cases h

theorem mayReachAlarm_of_found {id : String} {b : Alarm} (hb : s.alarms.find? (·.id = id) = some b)
    (h : outOfReach source b = false) : mayReachAlarm s (.onlyOwn source) id = .ok () := by
  unfold mayReachAlarm
  rw [if_neg (by simp), if_pos]
  rw [hb]
  simpa [outOfReach] using h

/-- Toggling strikes the alarm that was asked about, and keeps its mark. -/
theorem outOfReach_toggled {id : String} {f : Alarm → Alarm} (hf : ∀ a, (f a).payload = a.payload)
    (hok : mayReachAlarm s (.onlyOwn source) id = .ok ()) :
    (∀ b, s.alarms.find? (·.id = id) = some b → outOfReach source b = false) ∧
      ∀ b, s.alarms.find? (·.id = id) = some b → outOfReach source (f b) = false := by
  obtain ⟨b, hb, hown⟩ := mayReachAlarm_eq_ok hok
  have hfirst : ∀ c, s.alarms.find? (·.id = id) = some c → outOfReach source c = false := by
    intro c hc
    obtain rfl := Option.some.inj (hb.symm.trans hc)
    exact hown
  exact ⟨hfirst, fun c hc => (outOfReach_congr (hf c)).trans (hfirst c hc)⟩

/-- What a call leaves out of reach was out of reach before. -/
theorem others_serve_sublist :
    (others source (serve cities (.onlyOwn source) s t).2).Sublist (others source s) := by
  unfold serve
  cases t.call with
  | setAlarm alarm =>
    cases alarm with
    | error e => exact List.Sublist.refl _
    | ok alarm =>
      dsimp only
      split
      · next htouch =>
        have hown : ∀ n, outOfReach source { alarm with nextFireAt := n } = false := fun n => by
          simp [outOfReach, htouch]
        unfold apply reduced
        dsimp only
        split
        · exact filter_replaceFirst_sublist fun b _ => hown _
        · unfold others
          rw [List.filter_append, List.filter_cons_of_neg (by simp [hown])]
          simp
      · exact List.Sublist.refl _
  | toggleAlarm id enabled =>
    dsimp only
    split
    · exact List.Sublist.refl _
    · next hok =>
      unfold apply reduced
      exact filter_replaceFirst_sublist (outOfReach_toggled (fun _ => rfl) hok).2
  | deleteAlarm id =>
    dsimp only
    split
    · exact List.Sublist.refl _
    · exact (List.filter_sublist).filter _

/-- **One call leaves the alarms out of reach alone** exactly when it spares them. -/
theorem others_serve_eq_iff :
    others source (serve cities (.onlyOwn source) s t).2 = others source s ↔
      Spares source s t.call := by
  unfold serve Spares
  cases t.call with
  | setAlarm alarm =>
    cases alarm with
    | error e => simp
    | ok alarm =>
      dsimp only
      by_cases htouch : mayTouch (.onlyOwn source) alarm.payload = true
      · have hown : ∀ n, outOfReach source { alarm with nextFireAt := n } = false := fun n => by
          simp [outOfReach, htouch]
        have hown' : outOfReach source alarm = false := by simp [outOfReach, htouch]
        rw [if_pos htouch]
        unfold apply reduced
        dsimp only
        split
        · refine (filter_replaceFirst_eq_iff fun b _ => hown _).trans ?_
          simp [hown']
        · next hany =>
          unfold others
          rw [List.filter_append, List.filter_cons_of_neg (by simp [hown])]
          have hnone : s.alarms.find? (·.id = alarm.id) = none := by
            simpa using hany
          simp [hnone]
      · rw [if_neg htouch]
        simp [outOfReach, htouch]
  | toggleAlarm id enabled =>
    dsimp only
    split
    · simp
    · next hok =>
      unfold apply reduced
      have hstruck := outOfReach_toggled (f := fun a : Alarm =>
        { a with enabled := enabled,
                 nextFireAt := nextFireAt t.tz { a with enabled := enabled } t.now }) (fun _ => rfl) hok
      exact iff_true_intro ((filter_replaceFirst_eq_iff hstruck.2).2 hstruck.1)
  | deleteAlarm id =>
    dsimp only
    split
    · next e hrefused =>
      refine iff_of_true rfl ?_
      rintro ⟨b, hb, hown⟩
      rw [mayReachAlarm_of_found hb hown] at hrefused
      cases hrefused
    · next hok =>
      have hfound := mayReachAlarm_eq_ok hok
      simp only [hfound, true_implies]
      unfold apply reduced others
      dsimp only
      rw [List.filter_filter]
      constructor
      · intro h b hb hid
        by_contra hout
        have hmem : b ∈ s.alarms.filter (outOfReach source) :=
          List.mem_filter.2 ⟨hb, by simpa using hout⟩
        rw [← h] at hmem
        have := (List.mem_filter.1 hmem).2
        simp [hid] at this
      · intro h
        refine List.filter_congr fun b hb => ?_
        by_cases hid : b.id = id
        · simp [h b hb hid]
        · simp [hid]

/-! ## A sequence of calls -/

theorem others_served_sublist (calls : List Asked) :
    (others source (served cities (.onlyOwn source) s calls)).Sublist (others source s) := by
  induction calls generalizing s with
  | nil => exact List.Sublist.refl _
  | cons t calls ih => exact ih.trans others_serve_sublist

theorem others_served_eq_iff (calls : List Asked) :
    others source (served cities (.onlyOwn source) s calls) = others source s ↔
      AllSpare cities source s calls := by
  induction calls generalizing s with
  | nil => simp [served, AllSpare]
  | cons t calls ih =>
    have hlast : (others source (served cities (.onlyOwn source) s (t :: calls))).Sublist
        (others source (serve cities (.onlyOwn source) s t).2) := others_served_sublist calls
    have hfirst : (others source (serve cities (.onlyOwn source) s t).2).Sublist (others source s) :=
      others_serve_sublist
    have hstep : others source (serve cities (.onlyOwn source) s t).2 = others source s ↔
        Spares source s t.call := others_serve_eq_iff
    refine Iff.trans ?_ (and_congr hstep ih)
    constructor
    · intro h
      -- nothing comes back out of reach, so nothing was lost on the way
      have hmid := hfirst.eq_of_length_le (h ▸ hlast.length_le)
      exact ⟨hmid, h.trans hmid.symm⟩
    · rintro ⟨h1, h2⟩
      exact h2.trans h1

/-- **A registrant leaves every alarm without its mark alone**, over any sequence of calls
from any state, exactly when no call strikes one: `setAlarm` under the id of such an alarm
is not kept from replacing it. -/
theorem unharmed_iff (cities : String → Option WorldCity) (source : String) (s : ClockState)
    (calls : List Asked) :
    Unharmed source s (served cities (.onlyOwn source) s calls) ↔ AllSpare cities source s calls := by
  rw [← others_served_eq_iff]
  unfold Unharmed
  constructor
  · intro h
    have hsub : (others source s).Sublist (others source (served cities (.onlyOwn source) s calls)) := by
      have := h.filter (outOfReach source)
      rwa [others, List.filter_filter, List.filter_congr (q := outOfReach source) (by simp)] at this
    exact (others_served_sublist calls).antisymm hsub
  · intro h
    rw [← h]
    exact List.filter_sublist

/-- An alarm a person set. -/
def personsAlarm : Alarm where
  id := "wake"
  time := "07:00"
  label := "up"
  days := []
  onDate := none
  payload := none
  enabled := true
  fireLate := false
  nextFireAt := none

/-- A registration of the calendar under the same id. -/
def meetingAlarm : Alarm :=
  { personsAlarm with label := "meeting", payload := some "\x7b\"source\":\"calendar\"\x7d" }

/-- The registration takes the place of the person's alarm. -/
theorem set_over_persons_alarm :
    ¬ Unharmed "calendar" { alarms := [personsAlarm] }
      (served (fun _ => none) (reachOf false "calendard") { alarms := [personsAlarm] }
        [⟨.setAlarm (.ok meetingAlarm), utc, 1700000000000⟩]) := by
  unfold Unharmed
  decide +kernel

end Arlen.Clock
