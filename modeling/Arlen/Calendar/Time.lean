import Arlen.Lib.Civil
import Arlen.Lib.Text
import Mathlib.Tactic.IntervalCases

/-!
# Dates and times

The part of chrono the calendar uses: dates of the proleptic Gregorian calendar
within chrono's range, times of day in whole seconds, and the two formats the
files hold, `%Y%m%d` and `%H%M%S`. A leap second is written as second 60.
-/

namespace Arlen.Calendar

open Arlen.Lib

/-! ### Dates -/

def NaiveDate.minDay : Int := Civil.dayNumber (-262143) 1 1

def NaiveDate.maxDay : Int := Civil.dayNumber 262142 12 31

/-- A day chrono can represent, by its number. -/
structure NaiveDate where
  days : Int
  inRange : NaiveDate.minDay ≤ days ∧ days ≤ NaiveDate.maxDay
deriving DecidableEq

namespace NaiveDate

variable {a b d : NaiveDate}

@[ext] theorem ext (h : a.days = b.days) : a = b := by
  cases a
  cases b
  cases h
  rfl

instance : LT NaiveDate := ⟨fun a b => a.days < b.days⟩

instance : LE NaiveDate := ⟨fun a b => a.days ≤ b.days⟩

theorem lt_def : a < b ↔ a.days < b.days := Iff.rfl

theorem le_def : a ≤ b ↔ a.days ≤ b.days := Iff.rfl

instance (a b : NaiveDate) : Decidable (a < b) := decidable_of_iff _ lt_def.symm

instance (a b : NaiveDate) : Decidable (a ≤ b) := decidable_of_iff _ le_def.symm

def ofDays (n : Int) : Option NaiveDate :=
  if h : minDay ≤ n ∧ n ≤ maxDay then some ⟨n, h⟩ else none

/-- `NaiveDate::from_ymd_opt`. -/
def fromYmdOpt (y : Int) (m d : Nat) : Option NaiveDate :=
  if Civil.Valid y m d then ofDays (Civil.dayNumber y m d) else none

def year (d : NaiveDate) : Int := Civil.yearOf d.days

def month (d : NaiveDate) : Nat := Civil.monthOf d.days

def day (d : NaiveDate) : Nat := Civil.dayOf d.days

/-- The date `n` days on, when chrono can represent it. -/
def addDays (d : NaiveDate) (n : Int) : Option NaiveDate := ofDays (d.days + n)

def predOpt (d : NaiveDate) : Option NaiveDate := d.addDays (-1)

def succOpt (d : NaiveDate) : Option NaiveDate := d.addDays 1

/-- `weekday().num_days_from_monday()`; the first day of the year 1 was a Monday. -/
def daysFromMonday (d : NaiveDate) : Int := d.days % 7

/-- `NaiveDate::default`, the first of January 1970. -/
def epoch : NaiveDate := ⟨719162, by decide⟩

theorem ofDays_eq_some {n : Int} : ofDays n = some d ↔ d.days = n := by
  unfold ofDays
  split
  · rw [Option.some.injEq]
    constructor
    · rintro rfl
      rfl
    · intro h
      exact NaiveDate.ext h.symm
  · next hn =>
    constructor
    · intro h
      cases h
    · rintro rfl
      exact absurd d.inRange hn

theorem addDays_eq_some {n : Int} : d.addDays n = some a ↔ a.days = d.days + n := ofDays_eq_some

theorem fromYmdOpt_eq_some {y : Int} {m k : Nat} :
    fromYmdOpt y m k = some d ↔ Civil.Valid y m k ∧ d.days = Civil.dayNumber y m k := by
  unfold fromYmdOpt
  split
  · next h => simp [ofDays_eq_some, h]
  · next h => simp [h]

theorem valid (d : NaiveDate) : Civil.Valid d.year d.month d.day := Civil.valid_of_day d.days

theorem dayNumber_eq (d : NaiveDate) : Civil.dayNumber d.year d.month d.day = d.days :=
  Civil.dayNumber_of_day d.days

/-- A date is built back from its year, month and day. -/
theorem fromYmdOpt_self (d : NaiveDate) : fromYmdOpt d.year d.month d.day = some d :=
  fromYmdOpt_eq_some.2 ⟨d.valid, d.dayNumber_eq.symm⟩

theorem ymd_of_fromYmdOpt {y : Int} {m k : Nat} (h : fromYmdOpt y m k = some d) :
    d.year = y ∧ d.month = m ∧ d.day = k := by
  obtain ⟨hv, hd⟩ := fromYmdOpt_eq_some.1 h
  unfold year month day
  rw [hd]
  exact ⟨Civil.yearOf_dayNumber hv, Civil.monthOf_dayNumber hv, Civil.dayOf_dayNumber hv⟩

end NaiveDate

/-! ### Times of day -/

/-- A time of day in whole seconds. -/
structure NaiveTime where
  hour : Nat
  minute : Nat
  second : Nat
  inRange : hour < 24 ∧ minute < 60 ∧ second ≤ 60
deriving DecidableEq

namespace NaiveTime

def fromHmsOpt (h m s : Nat) : Option NaiveTime :=
  if hr : h < 24 ∧ m < 60 ∧ s ≤ 60 then some ⟨h, m, s, hr⟩ else none

theorem fromHmsOpt_self (t : NaiveTime) : fromHmsOpt t.hour t.minute t.second = some t := by
  unfold fromHmsOpt
  rw [dif_pos t.inRange]

/-- The time of day `n` seconds after midnight, for `n < 86400`. -/
def ofSeconds (n : Nat) : NaiveTime :=
  ⟨n / 3600 % 24, n / 60 % 60, n % 60, by omega⟩

/-- `overflowing_add_signed`, in whole seconds: the time and the days carried. A leap
second is left the way it is approached from, forwards as second 59 and backwards
as second 60. -/
def overflowingAddSigned (t : NaiveTime) (delta : Int) : NaiveTime × Int :=
  let base : Int := t.hour * 3600 + t.minute * 60
  if t.second = 60 then
    if delta = 0 then (t, 0)
    else
      let secs := base + (if 0 < delta then 59 else 60) + delta
      (ofSeconds (secs % 86400).toNat, secs / 86400)
  else
    let secs := base + t.second + delta
    (ofSeconds (secs % 86400).toNat, secs / 86400)

end NaiveTime

structure NaiveDateTime where
  date : NaiveDate
  time : NaiveTime
deriving DecidableEq

/-- `checked_add_signed` of whole seconds. -/
def NaiveDateTime.checkedAdd (dt : NaiveDateTime) (delta : Int) : Option NaiveDateTime :=
  let (time, carried) := dt.time.overflowingAddSigned delta
  (dt.date.addDays carried).map (⟨·, time⟩)

/-! ### Formatting -/

def digitChar (n : Nat) : Char := Char.ofNat (48 + n % 10)

/-- The last `w` decimal digits of a number. -/
def digits : Nat → Nat → List Char
  | 0, _ => []
  | w + 1, n => digits w (n / 10) ++ [digitChar n]

/-- `%Y`: four digits, and beyond them a sign. -/
def formatYear (y : Int) : List Char :=
  let magnitude := y.natAbs
  if 0 ≤ y ∧ y ≤ 9999 then digits 4 magnitude
  else
    (if y < 0 then '-' else '+') ::
      digits (if magnitude ≤ 9999 then 4 else if magnitude ≤ 99999 then 5 else 6) magnitude

/-- `format("%Y%m%d")`. -/
def NaiveDate.format (d : NaiveDate) : List Char :=
  formatYear d.year ++ digits 2 d.month ++ digits 2 d.day

/-- `format("%H%M%S")`. -/
def NaiveTime.format (t : NaiveTime) : List Char :=
  digits 2 t.hour ++ digits 2 t.minute ++ digits 2 t.second

/-- `format("%Y%m%dT%H%M%S")`. -/
def NaiveDateTime.format (dt : NaiveDateTime) : List Char :=
  dt.date.format ++ 'T' :: dt.time.format

/-! ### Parsing -/

def digitValue (c : Char) : Nat := c.toNat - 48

def decimalValue (ds : List Char) : Nat := ds.foldl (fun n c => 10 * n + digitValue c) 0

/-- The digits a number is read from, and what follows; a value past `i64` is
out of range. -/
def scanDigits (ds rest : List Char) : Option (Nat × List Char) :=
  if ds = [] ∨ 2 ^ 63 ≤ decimalValue ds then none else some (decimalValue ds, rest)

/-- chrono's `scan::number`: at least one and at most `width` digits. -/
def number (width : Nat) (s : List Char) : Option (Nat × List Char) :=
  let ds := (s.take width).takeWhile Char.isDigit
  scanDigits ds (s.drop ds.length)

/-- As many digits as there are. -/
def longNumber (s : List Char) : Option (Nat × List Char) :=
  scanDigits (s.takeWhile Char.isDigit) (s.dropWhile Char.isDigit)

/-- `%m`, `%d`, `%H`, `%M` and `%S`: white space and one or two digits. -/
def scanTwo (s : List Char) : Option (Nat × List Char) := number 2 (Text.trimStart s)

/-- `%Y`: up to four digits, or a sign and any number of them. -/
def scanYear (s : List Char) : Option (Int × List Char) :=
  match Text.trimStart s with
  | '-' :: s => (longNumber s).map fun (n, rest) => (-(n : Int), rest)
  | '+' :: s => (longNumber s).map fun (n, rest) => ((n : Int), rest)
  | s => (number 4 s).map fun (n, rest) => ((n : Int), rest)

def scanDate (s : List Char) : Option (NaiveDate × List Char) := do
  let (y, s) ← scanYear s
  let (m, s) ← scanTwo s
  let (d, s) ← scanTwo s
  let date ← NaiveDate.fromYmdOpt y m d
  some (date, s)

def scanTime (s : List Char) : Option (NaiveTime × List Char) := do
  let (h, s) ← scanTwo s
  let (m, s) ← scanTwo s
  let (sec, s) ← scanTwo s
  let time ← NaiveTime.fromHmsOpt h m sec
  some (time, s)

/-- `NaiveDate::parse_from_str(s, "%Y%m%d")`. -/
def NaiveDate.parse (s : List Char) : Option NaiveDate :=
  match scanDate s with
  | some (d, []) => some d
  | _ => none

/-- `NaiveDateTime::parse_from_str(s, "%Y%m%dT%H%M%S")`. -/
def NaiveDateTime.parse (s : List Char) : Option NaiveDateTime :=
  match scanDate s with
  | some (d, 'T' :: s) =>
    match scanTime s with
    | some (t, []) => some ⟨d, t⟩
    | _ => none
  | _ => none

/-! ### Reading a format back -/

theorem toNat_digitChar (n : Nat) : (digitChar n).toNat = 48 + n % 10 := by
  unfold digitChar
  have h : n % 10 < 10 := Nat.mod_lt _ (by decide)
  interval_cases n % 10 <;> rfl

theorem isDigit_digitChar (n : Nat) : (digitChar n).isDigit = true := by
  unfold digitChar
  have h : n % 10 < 10 := Nat.mod_lt _ (by decide)
  interval_cases n % 10 <;> rfl

theorem digitValue_digitChar (n : Nat) : digitValue (digitChar n) = n % 10 := by
  unfold digitValue
  rw [toNat_digitChar]
  omega

theorem length_digits (w n : Nat) : (digits w n).length = w := by
  induction w generalizing n with
  | zero => rfl
  | succ w ih => simp [digits, ih]

theorem isDigit_of_mem_digits {w n : Nat} {c : Char} (h : c ∈ digits w n) : c.isDigit = true := by
  induction w generalizing n with
  | zero => cases h
  | succ w ih =>
    rcases List.mem_append.1 h with h | h
    · exact ih h
    · rw [List.mem_singleton.1 h]
      exact isDigit_digitChar n

theorem decimalValue_digits {w n : Nat} (h : n < 10 ^ w) : decimalValue (digits w n) = n := by
  induction w generalizing n with
  | zero =>
    have hn : n = 0 := by simpa using h
    subst hn
    rfl
  | succ w ih =>
    have hq : n / 10 < 10 ^ w := Nat.div_lt_of_lt_mul (by rw [Nat.pow_succ] at h; omega)
    have hv := ih hq
    unfold decimalValue at hv ⊢
    rw [digits, List.foldl_append, hv]
    simp only [List.foldl_cons, List.foldl_nil, digitValue_digitChar]
    omega

theorem exists_digits_cons {w : Nat} (hw : 0 < w) (n : Nat) :
    ∃ c ds, digits w n = c :: ds ∧ c.isDigit = true := by
  cases hd : digits w n with
  | nil =>
    have hl := length_digits w n
    rw [hd, List.length_nil] at hl
    omega
  | cons c ds => exact ⟨c, ds, rfl, isDigit_of_mem_digits (w := w) (n := n) (by simp [hd])⟩

theorem trimStart_digits {w n : Nat} (hw : 0 < w) (rest : List Char) :
    Text.trimStart (digits w n ++ rest) = digits w n ++ rest := by
  obtain ⟨c, ds, hd, hc⟩ := exists_digits_cons hw n
  rw [hd]
  exact Text.trimStart_cons (isWhitespace_of_isDigit hc)

theorem number_digits {w n : Nat} (hw : 0 < w) (hw' : w ≤ 18) (h : n < 10 ^ w)
    (rest : List Char) : number w (digits w n ++ rest) = some (n, rest) := by
  have htake : (digits w n ++ rest).take w = digits w n := by
    rw [List.take_left' (length_digits w n)]
  have hds : (digits w n).takeWhile Char.isDigit = digits w n :=
    List.takeWhile_eq_self_iff.2 fun _ hc => isDigit_of_mem_digits hc
  have hne : digits w n ≠ [] := by
    obtain ⟨c, ds, hd, _⟩ := exists_digits_cons hw n
    simp [hd]
  have hbound : n < 2 ^ 63 := by
    calc n < 10 ^ w := h
      _ ≤ 10 ^ 18 := Nat.pow_le_pow_right (by decide) hw'
      _ < 2 ^ 63 := by decide
  unfold number scanDigits
  simp only [htake, hds, decimalValue_digits h]
  rw [if_neg (by simp only [hne, false_or]; omega), List.drop_left]

theorem scanTwo_digits {n : Nat} (h : n < 100) (rest : List Char) :
    scanTwo (digits 2 n ++ rest) = some (n, rest) := by
  unfold scanTwo
  rw [trimStart_digits (by decide), number_digits (by decide) (by decide) h]

theorem scanYear_formatYear {y : Int} (h₀ : 0 ≤ y) (h₁ : y ≤ 9999) (rest : List Char) :
    scanYear (formatYear y ++ rest) = some (y, rest) := by
  unfold formatYear scanYear
  rw [if_pos ⟨h₀, h₁⟩, trimStart_digits (by decide)]
  have hnum := number_digits (w := 4) (n := y.natAbs) (by decide) (by decide) (by omega) rest
  obtain ⟨c, ds, hd, hc⟩ := exists_digits_cons (w := 4) (by decide) y.natAbs
  rw [hd] at hnum ⊢
  split
  · next heq =>
    rw [(List.cons.inj heq).1] at hc
    exact absurd hc (by decide)
  · next heq =>
    rw [(List.cons.inj heq).1] at hc
    exact absurd hc (by decide)
  · rw [hnum]
    simp only [Option.map_some, Option.some.injEq, Prod.mk.injEq, and_true]
    omega

theorem NaiveDate.month_lt (d : NaiveDate) : d.month < 100 := by
  have h := d.valid.2.1
  omega

theorem NaiveDate.day_lt (d : NaiveDate) : d.day < 100 := by
  obtain ⟨h₁, h₂, _, h₄⟩ := d.valid
  have hl := Civil.leapDay_cases d.year
  unfold Civil.monthLength Civil.monthStart at h₄
  split_ifs at h₄ <;> omega

theorem scanDate_format {d : NaiveDate} (h₀ : 0 ≤ d.year) (h₁ : d.year ≤ 9999)
    (rest : List Char) : scanDate (d.format ++ rest) = some (d, rest) := by
  unfold scanDate NaiveDate.format
  rw [List.append_assoc, List.append_assoc, scanYear_formatYear h₀ h₁]
  simp only [Option.bind_eq_bind, Option.bind_some]
  rw [scanTwo_digits d.month_lt]
  simp only [Option.bind_some]
  rw [scanTwo_digits d.day_lt]
  simp only [Option.bind_some, d.fromYmdOpt_self]

theorem scanTime_format (t : NaiveTime) (rest : List Char) :
    scanTime (t.format ++ rest) = some (t, rest) := by
  obtain ⟨h₁, h₂, h₃⟩ := t.inRange
  unfold scanTime NaiveTime.format
  rw [List.append_assoc, List.append_assoc, scanTwo_digits (by omega)]
  simp only [Option.bind_eq_bind, Option.bind_some]
  rw [scanTwo_digits (by omega)]
  simp only [Option.bind_some]
  rw [scanTwo_digits (by omega)]
  simp only [Option.bind_some, t.fromHmsOpt_self]

theorem NaiveDate.parse_format {d : NaiveDate} (h₀ : 0 ≤ d.year) (h₁ : d.year ≤ 9999) :
    NaiveDate.parse d.format = some d := by
  have h := scanDate_format h₀ h₁ []
  rw [List.append_nil] at h
  unfold NaiveDate.parse
  rw [h]

theorem NaiveDateTime.parse_format {dt : NaiveDateTime} (h₀ : 0 ≤ dt.date.year)
    (h₁ : dt.date.year ≤ 9999) : NaiveDateTime.parse dt.format = some dt := by
  have ht := scanTime_format dt.time []
  rw [List.append_nil] at ht
  unfold NaiveDateTime.parse NaiveDateTime.format
  rw [scanDate_format h₀ h₁]
  simp only [ht]

end Arlen.Calendar
