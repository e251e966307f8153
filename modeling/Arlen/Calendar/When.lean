import Arlen.Calendar.Reader

/-!
# Instants

The module `when`: a written time resolved to an instant, and the alarms of an event timed
against one occurrence. The zone database and the arithmetic of its zones are parameters.
A second of the clock is cut into nanoseconds; a file writes whole ones.
-/

namespace Arlen.Calendar

open Arlen.Lib

/-- `DateTime<Utc>`: a time in UTC and the nanoseconds behind its second. -/
structure DateTimeUtc where
  at_ : NaiveDateTime
  nanos : Nat
deriving DecidableEq

namespace DateTimeUtc

/-- Later instants have the greater number. -/
def order (t : DateTimeUtc) : Int :=
  ((((t.at_.date.days * 24 + t.at_.time.hour) * 60 + t.at_.time.minute) * 61) + t.at_.time.second) *
    10 ^ 9 + t.nanos

instance : LE DateTimeUtc := ⟨fun a b => a.order ≤ b.order⟩

instance : LT DateTimeUtc := ⟨fun a b => a.order < b.order⟩

instance (a b : DateTimeUtc) : Decidable (a ≤ b) := inferInstanceAs (Decidable (a.order ≤ b.order))

instance (a b : DateTimeUtc) : Decidable (a < b) := inferInstanceAs (Decidable (a.order < b.order))

/-- `checked_add_signed` of whole seconds. -/
def checkedAdd (t : DateTimeUtc) (delta : Int) : Option DateTimeUtc :=
  (t.at_.checkedAdd delta).map (⟨·, t.nanos⟩)

end DateTimeUtc

/-- The whole second of a time in UTC. -/
def NaiveDateTime.utc (dt : NaiveDateTime) : DateTimeUtc := ⟨dt, 0⟩

/-- `LocalResult`, taken to UTC. -/
inductive LocalResult
  | none
  | single (t : DateTimeUtc)
  | ambiguous (earlier later : DateTimeUtc)
deriving DecidableEq

/-- A zone resolves a wall-clock time. -/
structure Tz where
  fromLocal : NaiveDateTime → LocalResult

/-- The zone database: the zone of a name, where it has one. -/
structure ZoneDb where
  find : List Char → Option Tz

def NaiveDate.midnight (d : NaiveDate) : NaiveDateTime := ⟨d, ⟨0, 0, 0, by decide⟩⟩

def Tz.resolve (zone : Tz) (naive : NaiveDateTime) : Option DateTimeUtc :=
  match zone.fromLocal naive with
  | .single t => some t
  | .ambiguous earlier _ => some earlier
  | .none => Option.none

/-- The instant a written time falls at; a zone the database does not know, or a time its
zone skips, gives none. -/
def instant (db : ZoneDb) (t : CalTime) («local» : Tz) : Option DateTimeUtc :=
  match t with
  | .utc dt => some dt.utc
  | .floating dt => «local».resolve dt
  | .day d => «local».resolve d.midnight
  | .zoned dt tzid => (db.find tzid).bind (·.resolve dt)

/-- The most seconds a `Duration` holds. -/
def maxSeconds : Int := 9223372036854775

/-- When one alarm goes off. The outer option is the panic of `Duration::seconds`. -/
def alarmTime (db : ZoneDb) (start : DateTimeUtc) («end» : Option DateTimeUtc) («local» : Tz)
    (a : Alarm) : Option (Option DateTimeUtc) :=
  match a.trigger with
  | .absolute t => some (instant db t «local»)
  | .relative seconds related =>
    match (match related with
      | .start => some start
      | .end => «end») with
    | none => some none
    | some anchor => if |seconds| ≤ maxSeconds then some (anchor.checkedAdd seconds) else none

/-- When each of an event's alarms goes off, for one occurrence. -/
def alarmTimes (db : ZoneDb) (event : Event) (start : DateTimeUtc) («end» : Option DateTimeUtc)
    («local» : Tz) : Option (List DateTimeUtc) :=
  (event.alarms.mapM (alarmTime db start «end» «local»)).map (List.filterMap id)

/-- The trigger is one a `Duration` holds. -/
def Alarm.Representable (a : Alarm) : Prop :=
  match a.trigger with
  | .absolute _ => True
  | .relative seconds _ => |seconds| ≤ maxSeconds

/-- The trigger is one a `Duration` holds, where the occurrence has what it is counted from. -/
def Alarm.Timed (a : Alarm) («end» : Option DateTimeUtc) : Prop :=
  match a.trigger with
  | .absolute _ => True
  | .relative seconds .start => |seconds| ≤ maxSeconds
  | .relative seconds .end => «end» ≠ none → |seconds| ≤ maxSeconds

variable {db : ZoneDb} {start : DateTimeUtc} {«end» : Option DateTimeUtc} {«local» : Tz}

theorem Alarm.timed_of_representable {a : Alarm} (h : a.Representable) : a.Timed «end» := by
  unfold Alarm.Representable at h
  unfold Alarm.Timed
  split
  · trivial
  · next seconds heq =>
    rw [heq] at h
    exact h
  · next seconds heq =>
    rw [heq] at h
    exact fun _ => h

theorem alarmTime_isSome_iff {a : Alarm} :
    (∃ t, alarmTime db start «end» «local» a = some t) ↔ a.Timed «end» := by
  have hadd : ∀ (anchor : DateTimeUtc) (seconds : Int),
      (∃ t, (if |seconds| ≤ maxSeconds then some (anchor.checkedAdd seconds) else none) = some t) ↔
        |seconds| ≤ maxSeconds := by
    intro anchor seconds
    split
    · next h => exact ⟨fun _ => h, fun _ => ⟨_, rfl⟩⟩
    · next h =>
      refine ⟨fun ⟨t, ht⟩ => ?_, fun h' => absurd h' h⟩
      cases ht
  unfold alarmTime Alarm.Timed
  cases a.trigger with
  | absolute t => exact ⟨fun _ => trivial, fun _ => ⟨_, rfl⟩⟩
  | relative seconds related =>
    cases related with
    | start => exact hadd start seconds
    | «end» =>
      cases «end» with
      | none => exact ⟨fun _ h => absurd rfl h, fun _ => ⟨none, rfl⟩⟩
      | some anchor =>
        refine (hadd anchor seconds).trans ⟨fun h _ => h, fun h => h ?_⟩
        exact Option.some_ne_none anchor

theorem exists_of_mapM {α β : Type} {f : α → Option β} {l : List α} {ts : List β}
    (h : l.mapM f = some ts) {a : α} (ha : a ∈ l) : ∃ t, f a = some t := by
  induction l generalizing ts with
  | nil => cases ha
  | cons b l ih =>
    rw [List.mapM_cons] at h
    obtain ⟨t, ht, h⟩ := Option.bind_eq_some_iff.1 h
    obtain ⟨ts', hts, -⟩ := Option.bind_eq_some_iff.1 h
    rcases List.mem_cons.1 ha with rfl | ha
    · exact ⟨t, ht⟩
    · exact ih hts ha

theorem mapM_isSome {α β : Type} {f : α → Option β} {l : List α} (h : ∀ a ∈ l, ∃ b, f a = some b) :
    ∃ bs, l.mapM f = some bs := by
  induction l with
  | nil => exact ⟨[], rfl⟩
  | cons a l ih =>
    obtain ⟨b, hb⟩ := h a List.mem_cons_self
    obtain ⟨bs, hbs⟩ := ih fun x hx => h x (List.mem_cons_of_mem _ hx)
    exact ⟨b :: bs, by rw [List.mapM_cons, hb, hbs]; rfl⟩

theorem mapM_isSome_iff {α β : Type} {f : α → Option β} {l : List α} :
    (∃ bs, l.mapM f = some bs) ↔ ∀ a ∈ l, ∃ b, f a = some b :=
  ⟨fun ⟨_, h⟩ _ ha => exists_of_mapM h ha, mapM_isSome⟩

/-- The alarms of an occurrence all have a time, or none, as long as a `Duration` holds them. -/
theorem alarmTimes_isSome_iff {e : Event} :
    (∃ times, alarmTimes db e start «end» «local» = some times) ↔
      ∀ a ∈ e.alarms, a.Timed «end» := by
  have hmap : (∃ times, alarmTimes db e start «end» «local» = some times) ↔
      ∃ ts, e.alarms.mapM (alarmTime db start «end» «local») = some ts := by
    unfold alarmTimes
    constructor
    · rintro ⟨times, h⟩
      obtain ⟨ts, hts, -⟩ := Option.map_eq_some_iff.1 h
      exact ⟨ts, hts⟩
    · rintro ⟨ts, hts⟩
      exact ⟨_, Option.map_eq_some_iff.2 ⟨ts, hts, rfl⟩⟩
  rw [hmap, mapM_isSome_iff]
  exact forall₂_congr fun a _ => alarmTime_isSome_iff

end Arlen.Calendar
