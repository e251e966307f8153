import Arlen.Clock.Alarm
import Arlen.Lib.LocalClock
import Mathlib.Data.List.Pairwise

/-!
# The next ring

The instants at which an alarm rings in a zone whose clock is a local clock: on every
day it is allowed, its time of day comes once. `next_fire_at` finds the least of them
behind `now`, as long as a gap is not longer than the hour it is searched for and ends
on a whole minute, and no other change of the clock falls on its day.
-/

namespace Arlen.Clock

open Arlen.Lib Arlen.Calendar

/-! ### Rings -/

/-- The number of a date's local day. -/
def dayIndex (d : NaiveDate) : Int := d.days - NaiveDate.epoch.days

/-- The weekday of a local day, from Monday on. -/
def weekdayOf (n : Int) : Nat := ((n + NaiveDate.epoch.days) % 7).toNat

/-- A time of a local day. -/
def localMs (n : Int) (t : NaiveTime) : Int :=
  dayMs * n + 1000 * (3600 * t.hour + 60 * t.minute + t.second)

/-- The alarm may ring on the day: any day for a one-shot. -/
def Allowed (a : Alarm) (n : Int) : Prop := a.days = [] ∨ weekdayOf n ∈ a.days

/-- The rings behind `now`. -/
def rings (z : LocalClock) (a : Alarm) (t : NaiveTime) (now : Int) : Set Int :=
  {m | now < m ∧ ∃ n, Allowed a n ∧ z.Comes (localMs n t) m}

/-- What chrono says of a zone: on which date an instant falls, and which instants show a
local time. -/
structure Follows (tz : Zone) (z : LocalClock) : Prop where
  dateOf : ∀ m d, tz.dateOf m = some d ↔
    dayMs * dayIndex d ≤ z.reading m ∧ z.reading m < dayMs * (dayIndex d + 1)
  ofNone : ∀ d t, tz.fromLocal d t = .none → ∀ m, z.reading m ≠ localMs (dayIndex d) t
  ofSingle : ∀ d t first, tz.fromLocal d t = .single first →
    ∀ m, z.reading m = localMs (dayIndex d) t ↔ m = first
  ofAmbiguous : ∀ d t first second, tz.fromLocal d t = .ambiguous first second →
    first < second ∧ z.reading first = localMs (dayIndex d) t ∧
      z.reading second = localMs (dayIndex d) t ∧
        ∀ m, z.reading m = localMs (dayIndex d) t → first ≤ m ∧ m ≤ second

/-- The clock is put forward by an hour at most, and on a whole minute, and it shows no time
of the gap, nor its end, at any other instant. -/
def ShortGaps (z : LocalClock) : Prop :=
  ∀ m, z.offset (m - 1) < z.offset m → z.offset m ≤ z.offset (m - 1) + 60 ∧ m % minuteMs = 0 ∧
    ∀ t, z.reading (m - 1) < z.reading t → z.reading t ≤ z.reading m → t = m

variable {tz : Zone} {z : LocalClock} {a : Alarm} {t : NaiveTime} {d today : NaiveDate}
  {now ms n n' : Int}

theorem localMs_inDay (n : Int) (ht : t.second = 0) :
    dayMs * n ≤ localMs n t ∧ localMs n t < dayMs * (n + 1) := by
  obtain ⟨hh, hm, -⟩ := t.inRange
  unfold localMs dayMs
  rw [ht]
  constructor
  · omega
  · push_cast
    omega

theorem localMs_ofSeconds (n : Int) {minute : Nat} (h : minute < 1440) :
    localMs n (.ofSeconds (60 * minute)) = dayMs * n + minuteMs * minute := by
  unfold localMs minuteMs NaiveTime.ofSeconds
  push_cast
  omega

/-! ### The search behind a gap -/

/-- The search goes through the minutes of a gap and ends at the first one behind it. -/
theorem probe_of_gap (hz : Follows tz z) {m : Int} {minute stop tries : Nat}
    (hthe : ∀ t, z.reading (m - 1) < z.reading t → z.reading t ≤ z.reading m → t = m)
    (hstop : z.reading m = dayMs * dayIndex d + minuteMs * stop) (h1440 : stop < 1440)
    (hgap : z.reading (m - 1) < dayMs * dayIndex d + minuteMs * minute)
    (hlt : minute < stop) (hle : stop ≤ minute + tries) :
    probe tz d minute tries = some m := by
  induction tries generalizing minute with
  | zero => omega
  | succ tries ih =>
    have hlocal := localMs_ofSeconds (dayIndex d) (show minute + 1 < 1440 by omega)
    have hshown : ∀ t, z.reading t = localMs (dayIndex d) (.ofSeconds (60 * (minute + 1))) →
        t = m := by
      intro t ht
      rw [hlocal] at ht
      refine hthe t ?_ ?_
      · rw [ht]
        unfold minuteMs at *
        push_cast
        omega
      · rw [ht, hstop]
        unfold minuteMs
        push_cast
        omega
    unfold probe
    dsimp only
    rw [if_neg (by omega)]
    rcases Nat.lt_or_eq_of_le (Nat.succ_le_of_lt hlt) with hin | heq
    · -- the next minute is one of the gap
      have hnone : ∀ t, z.reading t ≠ localMs (dayIndex d) (.ofSeconds (60 * (minute + 1))) := by
        intro t ht
        have hm := hshown t ht
        rw [hm, hlocal, hstop] at ht
        unfold minuteMs at ht
        push_cast at ht
        omega
      have hnext : probe tz d (minute + 1) tries = some m := by
        refine ih ?_ hin (by omega)
        unfold minuteMs at *
        push_cast
        omega
      cases hfrom : tz.fromLocal d (.ofSeconds (60 * (minute + 1))) with
      | none => exact hnext
      | single first => exact absurd ((hz.ofSingle _ _ _ hfrom first).mpr rfl) (hnone first)
      | ambiguous first second => exact hnext
    · have hend : z.reading m = localMs (dayIndex d) (.ofSeconds (60 * (minute + 1))) := by
        rw [hlocal, hstop, ← heq]
      cases hfrom : tz.fromLocal d (.ofSeconds (60 * (minute + 1))) with
      | none => exact absurd hend (hz.ofNone _ _ hfrom m)
      | single first =>
        rw [(hz.ofSingle _ _ _ hfrom m).mp hend]
      | ambiguous first second =>
        obtain ⟨hne, h₁, h₂, -⟩ := hz.ofAmbiguous _ _ _ _ hfrom
        have := hshown first h₁
        have := hshown second h₂
        omega

/-- **A local time is resolved to the instant at which it comes.** -/
theorem resolveLocal_comes (hz : Follows tz z) (hg : ShortGaps z) (d : NaiveDate)
    (ht : t.second = 0) :
    ∃ m, resolveLocal tz d t = some m ∧ z.Comes (localMs (dayIndex d) t) m := by
  have hday := localMs_inDay (dayIndex d) ht
  unfold resolveLocal
  cases hfrom : tz.fromLocal d t with
  | single first =>
    have hshown := hz.ofSingle _ _ _ hfrom
    refine ⟨first, rfl, .inl ⟨(hshown first).mpr rfl, fun m hlt heq => ?_⟩⟩
    have := (hshown m).mp heq
    omega
  | ambiguous first second =>
    obtain ⟨-, hshown, -, hbetween⟩ := hz.ofAmbiguous _ _ _ _ hfrom
    refine ⟨first, rfl, .inl ⟨hshown, fun m hm heq => ?_⟩⟩
    have := (hbetween m heq).1
    omega
  | none =>
    have hnone := hz.ofNone _ _ hfrom
    obtain ⟨m, hm⟩ := z.exists_comes hday
    have hskips := LocalClock.skips_of_comes hnone hm
    obtain ⟨hle, hwhole, hthe⟩ := hg m hskips.offset_lt
    refine ⟨m, ?_, hm⟩
    have hlong := z.reading_eq_add m
    have hinDay := LocalClock.mem_day_iff.mp (LocalClock.mem_day_of_comes hday hm)
    have hlocal : localMs (dayIndex d) t =
        dayMs * dayIndex d + minuteMs * ((60 * t.hour + t.minute : Nat) : Int) := by
      unfold localMs minuteMs
      rw [ht]
      push_cast
      ring
    obtain ⟨hlow, hhigh⟩ := hskips
    rw [hlocal] at hlow hhigh
    -- the minute of the day at which the gap ends
    obtain ⟨stop, hstop⟩ : ∃ stop : Nat,
        z.reading m = dayMs * dayIndex d + minuteMs * stop := by
      have hreading : z.reading m = m + minuteMs * z.offset m := rfl
      refine ⟨((z.reading m - dayMs * dayIndex d) / minuteMs).toNat, ?_⟩
      unfold minuteMs dayMs at *
      omega
    refine probe_of_gap hz hthe hstop ?_ hlow ?_ ?_
    · unfold minuteMs dayMs at *
      omega
    · unfold minuteMs at *
      omega
    · unfold minuteMs at *
      omega

/-! ### The days ahead -/

theorem findSome?_range {α : Type*} {f : Nat → Option α} {k : Nat} {x : α} :
    (List.range k).findSome? f = some x ↔ ∃ j < k, f j = some x ∧ ∀ i < j, f i = none := by
  induction k with
  | zero =>
    constructor
    · intro h
      cases h
    · rintro ⟨j, hj, -⟩
      omega
  | succ k ih =>
    rw [List.range_succ, List.findSome?_append]
    cases hk : (List.range k).findSome? f with
    | some y =>
      rw [hk] at ih
      rw [Option.some_or, ih]
      constructor
      · rintro ⟨j, hj, hx⟩
        exact ⟨j, by omega, hx⟩
      · rintro ⟨j, hj, hx, hbefore⟩
        refine ⟨j, ?_, hx, hbefore⟩
        by_contra hge
        have hnone : (List.range k).findSome? f = none :=
          List.findSome?_eq_none_iff.mpr fun i hi => hbefore i (by
            have := List.mem_range.mp hi
            omega)
        rw [hk] at hnone
        cases hnone
    | none =>
      have hbefore : ∀ i < k, f i = none := fun i hi =>
        List.findSome?_eq_none_iff.mp hk i (List.mem_range.mpr hi)
      rw [Option.none_or, List.findSome?_singleton]
      constructor
      · intro h
        exact ⟨k, by omega, h, hbefore⟩
      · rintro ⟨j, hj, hx, -⟩
        have hjk : j = k := by
          by_contra hne
          rw [hbefore j (by omega)] at hx
          cases hx
        rwa [hjk] at hx

/-- The days ahead that are asked: today and tomorrow for a one-shot. -/
def asked (a : Alarm) : Nat := if a.days = [] then 2 else 8

open Classical in
/-- The ring of a day ahead, if the alarm may ring on it and it is behind `now`. -/
noncomputable def ringAhead (a : Alarm) (now n : Int) (r : Int → Int) (ahead : Nat) : Option Int :=
  if Allowed a (n + ahead) ∧ now < r (n + ahead) then some (r (n + ahead)) else none

theorem daysFromMonday_eq (d : NaiveDate) : d.daysFromMonday.toNat = weekdayOf (dayIndex d) := by
  unfold weekdayOf dayIndex NaiveDate.daysFromMonday
  rw [Int.sub_add_cancel]

variable {r : Int → Int} {j : Nat}

theorem ringAhead_eq_some : ringAhead a now n r j = some ms ↔
    (Allowed a (n + j) ∧ now < r (n + j)) ∧ ms = r (n + j) := by
  unfold ringAhead
  by_cases hj : Allowed a (n + j) ∧ now < r (n + j)
  · rw [if_pos hj, Option.some_inj]
    exact ⟨fun heq => ⟨hj, heq.symm⟩, fun heq => heq.2.symm⟩
  · rw [if_neg hj]
    exact ⟨fun heq => (nomatch heq), fun heq => absurd heq.1 hj⟩

theorem ringAhead_eq_none : ringAhead a now n r j = none ↔
    ¬ (Allowed a (n + j) ∧ now < r (n + j)) := by
  unfold ringAhead
  by_cases hj : Allowed a (n + j) ∧ now < r (n + j)
  · rw [if_pos hj]
    exact ⟨fun heq => (nomatch heq), fun hno => absurd hj hno⟩
  · rw [if_neg hj]
    exact ⟨fun _ => hj, fun _ => rfl⟩

theorem firstAhead_append {l rest : List Nat} (hl : a.days = [] → ∀ j ∈ l, j ≤ 1)
    (hr : ∀ j ∈ l, ∃ day, today.addDays j = some day ∧ dayIndex day = n + j ∧
      resolveLocal tz day t = some (r (n + j)))
    (hrest : firstAhead tz a t now today rest = none) :
    firstAhead tz a t now today (l ++ rest) = l.findSome? (ringAhead a now n r) := by
  induction l with
  | nil => exact hrest
  | cons j l ih =>
    have ih := ih (fun h i hi => hl h i (List.mem_cons_of_mem _ hi))
      fun i hi => hr i (List.mem_cons_of_mem _ hi)
    obtain ⟨day, hday, hindex, hresolve⟩ := hr j List.mem_cons_self
    rw [List.cons_append, firstAhead, hday, List.findSome?_cons]
    dsimp only
    rw [daysFromMonday_eq, hindex]
    by_cases hallowed : Allowed a (n + j)
    · have hnot : ¬ (a.days ≠ [] ∧ weekdayOf (n + j) ∉ a.days) := by
        rintro ⟨hne, hno⟩
        rcases hallowed with h | h
        · exact hne h
        · exact hno h
      have hnear : ¬ (a.days = [] ∧ 1 < j) := by
        rintro ⟨hone, hfar⟩
        have := hl hone j List.mem_cons_self
        omega
      rw [if_neg hnot, if_neg hnear, hresolve]
      dsimp only
      by_cases hlt : now < r (n + j)
      · rw [if_pos hlt, ringAhead, if_pos ⟨hallowed, hlt⟩]
      · rw [if_neg hlt, ringAhead, if_neg fun h => hlt h.2, ih]
    · have hskip : a.days ≠ [] ∧ weekdayOf (n + j) ∉ a.days := by
        unfold Allowed at hallowed
        exact not_or.mp hallowed
      rw [if_pos hskip, ringAhead, if_neg fun h => hallowed h.1, ih]

theorem addDays_of_le (hweek : today.addDays 7 ≠ none) (hj : j ≤ 7) :
    ∃ day, today.addDays j = some day ∧ dayIndex day = dayIndex today + j := by
  obtain ⟨last, hlast⟩ := Option.ne_none_iff_exists'.mp hweek
  have hdays := NaiveDate.addDays_eq_some.mp hlast
  have hmin := today.inRange.1
  have hmax := last.inRange.2
  refine ⟨⟨today.days + j, by omega, by omega⟩, NaiveDate.addDays_eq_some.mpr rfl, ?_⟩
  unfold dayIndex
  dsimp only
  omega

/-- The walk over the days ahead stops at the first ring behind `now`. -/
theorem firstAhead_eq (hweek : today.addDays 7 ≠ none)
    (hr : ∀ day, resolveLocal tz day t = some (r (dayIndex day))) :
    firstAhead tz a t now today (List.range 8) =
      (List.range (asked a)).findSome? (ringAhead a now (dayIndex today) r) := by
  have hahead : ∀ j ≤ 7, ∃ day, today.addDays (j : Nat) = some day ∧
      dayIndex day = dayIndex today + j ∧
        resolveLocal tz day t = some (r (dayIndex today + j)) := by
    intro j hj
    obtain ⟨day, hday, hindex⟩ := addDays_of_le hweek hj
    exact ⟨day, hday, hindex, by rw [hr, hindex]⟩
  unfold asked
  by_cases hone : a.days = []
  · have hsplit : List.range 8 = List.range 2 ++ [2, 3, 4, 5, 6, 7] := rfl
    rw [if_pos hone, hsplit]
    refine firstAhead_append (fun _ j hj => by
      have := List.mem_range.mp hj
      omega) (fun j hj => hahead j (by
        have := List.mem_range.mp hj
        omega)) ?_
    obtain ⟨day, hday, -⟩ := hahead 2 (by omega)
    rw [firstAhead, hday]
    dsimp only
    rw [if_neg fun h => h.1 hone, if_pos ⟨hone, by omega⟩]
  · rw [if_neg hone]
    have hnil : firstAhead tz a t now today [] = none := rfl
    have happend : firstAhead tz a t now today (List.range 8 ++ []) = _ :=
      firstAhead_append (fun h => absurd h hone) (fun j hj => hahead j (by
        have := List.mem_range.mp hj
        omega)) hnil
    rwa [List.append_nil] at happend

/-! ### The least ring -/

/-- Of the allowed days far ahead none is the first. -/
theorem exists_earlier {n' : Int} (hallowed : Allowed a n')
    (hfar : n + asked a ≤ n') : ∃ n'', n < n'' ∧ n'' < n' ∧ Allowed a n'' := by
  unfold asked at hfar
  by_cases hone : a.days = []
  · rw [if_pos hone] at hfar
    exact ⟨n + 1, by omega, by push_cast at hfar; omega, .inl hone⟩
  · rw [if_neg hone] at hfar
    push_cast at hfar
    refine ⟨n' - 7, by omega, by omega, .inr ?_⟩
    have hsame : weekdayOf (n' - 7) = weekdayOf n' := by
      unfold weekdayOf
      congr 1
      omega
    rw [hsame]
    exact hallowed.resolve_left hone

/-- The rings of an alarm, day by day, and today. -/
structure RingsOf (z : LocalClock) (t : NaiveTime) (now n : Int) (r : Int → Int) : Prop where
  comes : ∀ n, z.Comes (localMs n t) (r n)
  inDay : ∀ n, dayMs * n ≤ localMs n t ∧ localMs n t < dayMs * (n + 1)
  today : z.start n ≤ now ∧ now < z.start (n + 1)

namespace RingsOf

theorem mem_rings_iff (h : RingsOf z t now n r) {m : Int} :
    m ∈ rings z a t now ↔ ∃ n', n ≤ n' ∧ Allowed a n' ∧ now < r n' ∧ m = r n' := by
  constructor
  · rintro ⟨hlt, n', hallowed, hcomes⟩
    obtain rfl := LocalClock.comes_unique hcomes (h.comes n')
    refine ⟨n', ?_, hallowed, hlt, rfl⟩
    by_contra hbefore
    have hday := (LocalClock.mem_day_of_comes (h.inDay n') (h.comes n')).2
    have hmono := z.start_mono (Int.add_one_le_of_lt (not_le.mp hbefore))
    have := h.today.1
    omega
  · rintro ⟨n', -, hallowed, hlt, rfl⟩
    exact ⟨hlt, n', hallowed, h.comes n'⟩

theorem lt_of_lt (h : RingsOf z t now n r) {n₁ n₂ : Int} (hlt : n₁ < n₂) : r n₁ < r n₂ := by
  have h₁ := (LocalClock.mem_day_of_comes (h.inDay n₁) (h.comes n₁)).2
  have h₂ := (LocalClock.mem_day_of_comes (h.inDay n₂) (h.comes n₂)).1
  have := z.start_mono (Int.add_one_le_of_lt hlt)
  omega

/-- The rings of the days behind today are behind `now`. -/
theorem now_lt (h : RingsOf z t now n r) {n' : Int} (hlt : n < n') : now < r n' := by
  have h₁ := (LocalClock.mem_day_of_comes (h.inDay n') (h.comes n')).1
  have := z.start_mono (Int.add_one_le_of_lt hlt)
  have := h.today.2
  omega

theorem findSome?_iff (h : RingsOf z t now n r) :
    (List.range (asked a)).findSome? (ringAhead a now n r) = some ms ↔
      IsLeast (rings z a t now) ms := by
  rw [findSome?_range]
  constructor
  · rintro ⟨j, hj, hring, hbefore⟩
    obtain ⟨⟨hallowed, hlt⟩, rfl⟩ := ringAhead_eq_some.mp hring
    refine ⟨h.mem_rings_iff.mpr ⟨_, by omega, hallowed, hlt, rfl⟩, fun m hm => ?_⟩
    obtain ⟨n', hle, hallowed', hlt', rfl⟩ := h.mem_rings_iff.mp hm
    by_cases hge : n + j ≤ n'
    · rcases eq_or_lt_of_le hge with heq | hgt
      · rw [heq]
      · exact le_of_lt (h.lt_of_lt hgt)
    · obtain ⟨i, hi⟩ := Int.le.dest hle
      have hij : i < j := by omega
      have hno := ringAhead_eq_none.mp (hbefore i hij)
      rw [hi] at hno
      exact absurd ⟨hallowed', hlt'⟩ hno
  · rintro ⟨hmem, hleast⟩
    obtain ⟨n', hle, hallowed, hlt, rfl⟩ := h.mem_rings_iff.mp hmem
    have hnear : n' < n + asked a := by
      by_contra hfar
      obtain ⟨n'', hlt₁, hlt₂, hallowed'⟩ := exists_earlier hallowed (not_lt.mp hfar)
      have hle' := hleast (h.mem_rings_iff.mpr ⟨n'', by omega, hallowed', h.now_lt hlt₁, rfl⟩)
      have := h.lt_of_lt hlt₂
      omega
    obtain ⟨j, rfl⟩ := Int.le.dest hle
    refine ⟨j, by omega, ringAhead_eq_some.mpr ⟨⟨hallowed, hlt⟩, rfl⟩, fun i hi => ringAhead_eq_none.mpr ?_⟩
    rintro ⟨hallowed', hlt'⟩
    have hle' := hleast (h.mem_rings_iff.mpr ⟨_, by omega, hallowed', hlt', rfl⟩)
    have := h.lt_of_lt (show n + (i : Int) < n + j by omega)
    omega

/-- There is a ring behind `now` if a day is allowed. -/
theorem exists_ring (h : RingsOf z t now n r) (ha : a.days = [] ∨ ∃ w ∈ a.days, w < 7) :
    ∃ m, IsLeast (rings z a t now) m := by
  have hnonempty : ∃ m, m ∈ rings z a t now := by
    rcases ha with hone | ⟨w, hw, hlt⟩
    · exact ⟨_, h.mem_rings_iff.mpr ⟨n + 1, by omega, .inl hone, h.now_lt (by omega), rfl⟩⟩
    · obtain ⟨n', hlt', hday⟩ : ∃ n', n < n' ∧ weekdayOf n' = w := by
        refine ⟨n + 1 + (w - (n + 1 + NaiveDate.epoch.days)) % 7, by omega, ?_⟩
        unfold weekdayOf
        omega
      refine ⟨_, h.mem_rings_iff.mpr ⟨n', by omega, .inr ?_, h.now_lt hlt', rfl⟩⟩
      rw [hday]
      exact hw
  obtain ⟨m, hm, hleast⟩ := Int.exists_least_of_bdd ⟨now, fun m hm => le_of_lt hm.1⟩ hnonempty
  exact ⟨m, hm, hleast⟩

end RingsOf

/-- Where the alarm may ring today and its time is still to come, that is the next ring. -/
theorem isLeast_of_comes (hs : t.second = 0) (htoday : z.start n ≤ now ∧ now < z.start (n + 1))
    (hallowed : Allowed a n) (hms : z.Comes (localMs n t) ms) (hlt : now < ms) :
    IsLeast (rings z a t now) ms := by
  choose comes hcomes using fun n => z.exists_comes (localMs_inDay (t := t) n hs)
  have hrings : RingsOf z t now n comes := ⟨hcomes, fun n => localMs_inDay n hs, htoday⟩
  have hfirst : ms = comes n := LocalClock.comes_unique hms (hcomes n)
  refine ⟨⟨hlt, n, hallowed, hms⟩, fun m hm => ?_⟩
  obtain ⟨n', hle, -, -, rfl⟩ := hrings.mem_rings_iff.mp hm
  rw [hfirst]
  rcases eq_or_lt_of_le hle with rfl | hbehind
  · exact le_refl _
  · exact le_of_lt (hrings.lt_of_lt hbehind)

theorem second_of_parseHhmm {text : String} (h : parseHhmm text = some t) : t.second = 0 := by
  unfold parseHhmm at h
  obtain ⟨⟨hh, mm⟩, -, h⟩ := Option.bind_eq_some_iff.1 h
  dsimp only at h
  split at h
  · cases h
  · obtain ⟨hour, -, h⟩ := Option.bind_eq_some_iff.1 h
    obtain ⟨minute, -, h⟩ := Option.bind_eq_some_iff.1 h
    unfold NaiveTime.fromHmsOpt at h
    split at h
    · rw [← Option.some.inj h]
    · cases h

/-- **The next ring is the least ring behind `now`**, and there is one unless the alarm names
no weekday. -/
theorem nextFireAt_isLeast (hz : Follows tz z) (hg : ShortGaps z) (ha : a.enabled = true)
    (hdate : a.onDate = none) (ht : parseHhmm a.time = some t) (htoday : tz.dateOf now = some today)
    (hweek : today.addDays 7 ≠ none) :
    (∀ ms, nextFireAt tz a now = some ms ↔ IsLeast (rings z a t now) ms) ∧
      ((a.days = [] ∨ ∃ w ∈ a.days, w < 7) → (nextFireAt tz a now).isSome) := by
  have hsecond := second_of_parseHhmm ht
  choose comes hcomes using fun n =>
    z.exists_comes (localMs_inDay (t := t) n hsecond)
  have hr : ∀ day, resolveLocal tz day t = some (comes (dayIndex day)) := by
    intro day
    obtain ⟨m, hm, hmcomes⟩ := resolveLocal_comes hz hg day hsecond
    rw [hm, LocalClock.comes_unique hmcomes (hcomes _)]
  have hrings : RingsOf z t now (dayIndex today) comes :=
    ⟨hcomes, fun n => localMs_inDay n hsecond,
      LocalClock.mem_day_iff.mpr ((hz.dateOf now today).mp htoday)⟩
  have hnext : nextFireAt tz a now =
      (List.range (asked a)).findSome? (ringAhead a now (dayIndex today) comes) := by
    rw [← firstAhead_eq hweek hr]
    unfold nextFireAt
    rw [if_neg (by rw [ha]; decide), ht, Option.bind_eq_bind, Option.bind_some, htoday,
      Option.bind_eq_bind, Option.bind_some, hdate]
  have hiff : ∀ ms, nextFireAt tz a now = some ms ↔ IsLeast (rings z a t now) ms := by
    intro ms
    rw [hnext]
    exact hrings.findSome?_iff
  refine ⟨hiff, fun hdays => ?_⟩
  obtain ⟨m, hm⟩ := hrings.exists_ring hdays
  rw [(hiff m).mpr hm]
  rfl

/-! ### A clock changed on one day -/

/-- A clock at no offset that is changed twice on day 0, or once when the two changes are one. -/
structure Changes where
  first : Int
  second : Int
  between : Int
  behind : Int
  ordered : 0 < first ∧ first ≤ second ∧ second < dayMs - minuteMs * behind
  inDay : first ≤ dayMs ∧ 0 ≤ first + minuteMs * between ∧
    second + minuteMs * between ≤ dayMs ∧ 0 ≤ second + minuteMs * behind

namespace Changes

variable {c : Changes} {l : Int}

def clock (c : Changes) : LocalClock where
  offset t := if t < c.first then 0 else if t < c.second then c.between else c.behind
  start n := if n ≤ 0 then dayMs * n else dayMs * n - minuteMs * c.behind
  start_lt n := by
    have := c.ordered
    unfold dayMs minuteMs at *
    split_ifs <;> omega
  covers t := by
    have := c.ordered
    by_cases h : t < dayMs - minuteMs * c.behind
    · refine ⟨min 0 (t / dayMs), ?_⟩
      unfold dayMs minuteMs at *
      split_ifs <;> omega
    · refine ⟨(t + minuteMs * c.behind) / dayMs, ?_⟩
      unfold dayMs minuteMs at *
      split_ifs <;> omega
  begins n := by
    have := c.ordered
    unfold readingAt dayMs minuteMs at *
    dsimp only
    split_ifs <;> omega
  ends n := by
    have := c.ordered
    unfold readingAt dayMs minuteMs at *
    dsimp only
    split_ifs <;> omega
  inDay n t h₁ h₂ := by
    have := c.ordered
    have := c.inDay
    unfold readingAt dayMs minuteMs at *
    dsimp only
    split_ifs at h₁ h₂ ⊢ <;> omega

theorem reading_eq (c : Changes) (m : Int) : c.clock.reading m =
    m + minuteMs * (if m < c.first then 0 else if m < c.second then c.between else c.behind) :=
  rfl

/-- The instants that show a local time, the earliest first. -/
def shown (c : Changes) (l : Int) : List Int :=
  [l].filter (· < c.first) ++
    [l - minuteMs * c.between].filter (fun m => c.first ≤ m ∧ m < c.second) ++
      [l - minuteMs * c.behind].filter (c.second ≤ ·)

theorem mem_shown {m : Int} : m ∈ c.shown l ↔ c.clock.reading m = l := by
  have := c.ordered
  unfold shown
  rw [reading_eq]
  simp only [List.mem_append, List.mem_filter, List.mem_singleton, decide_eq_true_eq]
  split_ifs <;> omega

theorem pairwise_shown : (c.shown l).Pairwise (· < ·) := by
  have := c.ordered
  unfold shown
  simp only [List.pairwise_append, List.mem_append, List.mem_filter, List.mem_singleton,
    decide_eq_true_eq]
  refine ⟨⟨.filter _ (List.pairwise_singleton _ _), .filter _ (List.pairwise_singleton _ _), ?_⟩,
    .filter _ (List.pairwise_singleton _ _), ?_⟩
  · omega
  · omega

def zone (c : Changes) : Zone where
  dateOf m := NaiveDate.ofDays (NaiveDate.epoch.days + c.clock.reading m / dayMs)
  fromLocal d t :=
    match c.shown (localMs (dayIndex d) t) with
    | [] => .none
    | [m] => .single m
    | m :: m' :: rest => .ambiguous m ((m' :: rest).getLast (List.cons_ne_nil _ _))

theorem follows (c : Changes) : Follows c.zone c.clock where
  dateOf m d := by
    show NaiveDate.ofDays _ = _ ↔ _
    rw [NaiveDate.ofDays_eq_some]
    unfold dayIndex dayMs
    omega
  ofNone d t h m hm := by
    rw [← mem_shown] at hm
    unfold zone at h
    dsimp only at h
    cases hshown : c.shown (localMs (dayIndex d) t) with
    | nil =>
      rw [hshown] at hm
      cases hm
    | cons x rest =>
      rw [hshown] at h
      cases rest <;> cases h
  ofSingle d t first h m := by
    rw [← mem_shown]
    unfold zone at h
    dsimp only at h
    cases hshown : c.shown (localMs (dayIndex d) t) with
    | nil =>
      rw [hshown] at h
      cases h
    | cons x rest =>
      rw [hshown] at h
      cases rest with
      | nil =>
        cases h
        exact List.mem_singleton
      | cons y rest => cases h
  ofAmbiguous d t first second h := by
    have hsorted := c.pairwise_shown (l := localMs (dayIndex d) t)
    simp only [← mem_shown]
    unfold zone at h
    dsimp only at h
    cases hshown : c.shown (localMs (dayIndex d) t) with
    | nil =>
      rw [hshown] at h
      cases h
    | cons x rest =>
      rw [hshown] at h hsorted
      cases rest with
      | nil => cases h
      | cons y rest =>
        cases h
        have hlast := List.getLast_mem (List.cons_ne_nil y rest)
        obtain ⟨hhead, htail⟩ := List.pairwise_cons.mp hsorted
        refine ⟨hhead _ hlast, List.mem_cons_self, List.mem_cons_of_mem _ hlast, ?_⟩
        intro m hm
        rcases List.mem_cons.mp hm with rfl | hm
        · exact ⟨le_refl _, le_of_lt (hhead _ hlast)⟩
        · refine ⟨le_of_lt (hhead m hm), ?_⟩
          exact (htail.imp le_of_lt).rel_getLast hm

end Changes

/-- Put forward by an hour at two. -/
def hourAtTwo : Changes := ⟨7200000, 7200000, 60, 60, by decide, by decide⟩

def ringOnceAt (time : String) : Alarm where
  id := "nap"
  time := time
  label := ""
  days := []
  onDate := none
  payload := none
  enabled := true
  fireLate := false
  nextFireAt := none

theorem shortGaps_hourAtTwo : ShortGaps hourAtTwo.clock := by
  intro m
  rw [hourAtTwo.reading_eq, hourAtTwo.reading_eq]
  simp only [hourAtTwo.reading_eq]
  unfold Changes.clock hourAtTwo minuteMs
  dsimp only
  intro hlt
  have hm : m = 7200000 := by
    split_ifs at hlt <;> omega
  subst hm
  refine ⟨by decide, by decide, fun t h₁ h₂ => ?_⟩
  split_ifs at h₁ h₂ <;> omega

/-- At half past two an alarm rings when the clock is put forward from two to three. -/
theorem next_ring_hourAtTwo :
    (∀ ms, nextFireAt hourAtTwo.zone (ringOnceAt "02:30") 0 = some ms ↔
      IsLeast (rings hourAtTwo.clock (ringOnceAt "02:30") ⟨2, 30, 0, by decide⟩ 0) ms) ∧
    nextFireAt hourAtTwo.zone (ringOnceAt "02:30") 0 = some 7200000 :=
  ⟨(nextFireAt_isLeast hourAtTwo.follows shortGaps_hourAtTwo rfl rfl (by decide +kernel)
    (show hourAtTwo.zone.dateOf 0 = some .epoch by decide +kernel) (by decide +kernel)).1,
      by decide +kernel⟩

/-- Put forward by an hour and a half at two. -/
def longGap : Changes := ⟨7200000, 7200000, 90, 90, by decide, by decide⟩

/-- Put forward by an hour half a minute past two. -/
def halfMinute : Changes := ⟨7230000, 7230000, 60, 60, by decide, by decide⟩

/-- Put forward by an hour at two, and back ten minutes later. -/
def takenBack : Changes := ⟨7200000, 7800000, 60, 0, by decide, by decide⟩

/-- The next ring found is not the least one. -/
def MissesRing (c : Changes) (t : NaiveTime) (a : Alarm) (now : Int) : Prop :=
  parseHhmm a.time = some t ∧
    ¬ ∀ ms, nextFireAt c.zone a now = some ms ↔ IsLeast (rings c.clock a t now) ms

theorem missesRing_of_comes {c : Changes} (hs : parseHhmm a.time = some t) (ha : a.days = [])
    (htoday : c.clock.start n ≤ now ∧ now < c.clock.start (n + 1))
    (hms : c.clock.Comes (localMs n t) ms) (hlt : now < ms)
    (hne : nextFireAt c.zone a now ≠ some ms) : MissesRing c t a now :=
  ⟨hs, fun h => hne ((h ms).mpr
    (isLeast_of_comes (second_of_parseHhmm hs) htoday (.inl ha) hms hlt))⟩

/-- A time that the first change skips, and that is not shown behind the second, comes at
the first change. -/
theorem Changes.comes_first {c : Changes} (hl : c.first ≤ l) (hfirst : l < c.clock.reading c.first)
    (hsecond : l < c.second + minuteMs * c.behind) : c.clock.Comes l c.first := by
  have := c.ordered
  have hnone : ∀ m, c.clock.reading m ≠ l := by
    intro m
    rw [c.reading_eq] at hfirst ⊢
    unfold minuteMs at *
    split_ifs at hfirst ⊢ <;> omega
  refine .inr ⟨hnone, hfirst, fun m hlt => ?_⟩
  rw [c.reading_eq, if_pos hlt]
  omega

/-- A gap of more than an hour, one that ends within a minute, and one whose times the clock
comes back to: the ring at its end is missed. So is every ring chrono has no date for. -/
theorem next_ring_missed :
    MissesRing longGap ⟨2, 0, 0, by decide⟩ (ringOnceAt "02:00") 0 ∧
    MissesRing halfMinute ⟨2, 30, 0, by decide⟩ (ringOnceAt "02:30") 0 ∧
    MissesRing takenBack ⟨2, 5, 0, by decide⟩ (ringOnceAt "02:05") 0 ∧
    MissesRing hourAtTwo ⟨23, 0, 0, by decide⟩ (ringOnceAt "23:00") 10000000000000000 := by
  refine ⟨?_, ?_, ?_, ?_⟩
  · exact missesRing_of_comes (n := 0) (by decide +kernel) rfl (by decide)
      (Changes.comes_first (by decide) (by decide) (by decide)) (by decide) (by decide +kernel)
  · exact missesRing_of_comes (n := 0) (by decide +kernel) rfl (by decide)
      (Changes.comes_first (by decide) (by decide) (by decide)) (by decide) (by decide +kernel)
  · exact missesRing_of_comes (n := 0) (by decide +kernel) rfl (by decide)
      (Changes.comes_first (by decide) (by decide) (by decide)) (by decide) (by decide +kernel)
  · have hring : hourAtTwo.clock.Comes (localMs 115740740 ⟨23, 0, 0, by decide⟩)
        10000000015200000 := by
      refine .inl ⟨by decide, fun m hlt heq => ?_⟩
      rw [hourAtTwo.reading_eq] at heq
      unfold localMs dayMs minuteMs hourAtTwo at heq
      dsimp only at heq
      split_ifs at heq <;> omega
    exact missesRing_of_comes (n := 115740740) (by decide +kernel) rfl (by decide) hring
      (by decide) (by decide +kernel)

end Arlen.Clock
