import Arlen.Lib.Civil
import Arlen.Lib.Decimal
import Arlen.Lib.Percent
import Arlen.Trash.Slot

/-!
# What the sidecar says

The date a `.trashinfo` records is the civil date of its second, and the path it
records is percent-encoded byte by byte. `CivilTime` is a date and a time of day,
`iso` its `YYYY-MM-DDThh:mm:ss`.
-/

namespace Arlen.Trash

open Arlen.Lib

/-- A date of the Gregorian calendar and a time of day. -/
structure CivilTime where
  year : Int
  month : Nat
  day : Nat
  hour : Nat
  minute : Nat
  second : Nat
  date : Civil.Valid year month day
  time : hour < 24 ∧ minute < 60 ∧ second < 60

namespace CivilTime

/-- Seconds since the Unix epoch. -/
def seconds (t : CivilTime) : Int :=
  (Civil.dayNumber t.year t.month t.day - 719162) * 86400 +
    (t.hour * 3600 + t.minute * 60 + t.second : Nat)

/-- The date and time of day of a second since the Unix epoch. -/
def ofSeconds (s : Int) : CivilTime where
  year := Civil.yearOf (s / 86400 + 719162)
  month := Civil.monthOf (s / 86400 + 719162)
  day := Civil.dayOf (s / 86400 + 719162)
  hour := (s % 86400).toNat / 3600
  minute := (s % 86400).toNat % 3600 / 60
  second := (s % 86400).toNat % 60
  date := Civil.valid_of_day _
  time := by omega

theorem seconds_ofSeconds (s : Int) : (ofSeconds s).seconds = s := by
  have hdays := Civil.dayNumber_of_day (s / 86400 + 719162)
  simp only [seconds, ofSeconds, hdays]
  omega

/-- A year of four digits. -/
def FourDigits (t : CivilTime) : Prop := 0 ≤ t.year ∧ t.year ≤ 9999

instance (t : CivilTime) : Decidable t.FourDigits := inferInstanceAs (Decidable (_ ∧ _))

/-- `YYYY-MM-DDThh:mm:ss`. -/
def iso (t : CivilTime) : List Char :=
  fixedDigits 4 t.year.toNat ++ '-' :: fixedDigits 2 t.month ++ '-' :: fixedDigits 2 t.day ++
    'T' :: fixedDigits 2 t.hour ++ ':' :: fixedDigits 2 t.minute ++ ':' :: fixedDigits 2 t.second

end CivilTime

/-! ## The civil date of a day -/

section Civil

variable {y z doy : Int} {m d : Nat}

/-- A date counted from the March before it: the days to the year's first of
March, the months from there in blocks of 153 days, and the day. -/
theorem exists_march (h : Civil.Valid y m d) : ∃ (y' : Int) (mp : Nat),
    (if mp < 10 then (mp : Int) + 3 else mp - 9) = m ∧
      (if (m : Int) ≤ 2 then y' + 1 else y') = y ∧ mp < 12 ∧
      Civil.dayNumber y m d + 306 =
        Civil.yearStart (y' + 1) + ((153 * mp + 2) / 5 + (d : Int) - 1) ∧
      (153 * (mp : Int) + 2) / 5 + d - 1 < 365 + Civil.leapDay (y' + 1) ∧
      (mp < 11 → (153 * (mp : Int) + 2) / 5 + d ≤ (153 * ((mp : Int) + 1) + 2) / 5) := by
  obtain ⟨h₁, h₂, h₃, h₄⟩ := h
  have hl := Civil.leapDay_cases y
  unfold Civil.monthLength Civil.monthStart at h₄
  unfold Civil.dayNumber Civil.monthStart
  by_cases hm : m ≤ 2
  · refine ⟨y - 1, m + 9, ?_⟩
    rw [Int.sub_add_cancel, if_pos hm]
    rw [if_pos hm] at h₄
    refine ⟨?_, ?_, by omega, ?_, ?_, ?_⟩
    · split_ifs <;> omega
    · split_ifs <;> omega
    · omega
    · split_ifs at h₄ <;> omega
    · split_ifs at h₄ <;> omega
  · obtain ⟨mp, rfl⟩ : ∃ mp, m = mp + 3 := ⟨m - 3, by omega⟩
    have hs := Civil.yearStart_succ y
    have hl' := Civil.leapDay_cases (y + 1)
    have hcast : ((mp + 3 : Nat) : Int) - 3 = mp := by omega
    have hcast' : ((mp + 3 + 1 : Nat) : Int) - 3 = mp + 1 := by omega
    rw [if_neg hm, if_neg (by omega), hcast, hcast'] at h₄
    refine ⟨y, mp, ?_⟩
    rw [if_neg hm, hcast]
    refine ⟨?_, ?_, by omega, ?_, ?_, ?_⟩
    · split_ifs <;> omega
    · split_ifs <;> omega
    · omega
    · omega
    · omega

/-- The year of an era from a day of it. -/
theorem yoe_eq {c q r doe : Int} (hc : 0 ≤ c ∧ c ≤ 3) (hq : 0 ≤ q ∧ q ≤ 24) (hr : 0 ≤ r ∧ r ≤ 3)
    (hdoe : doe = 36524 * c + 1461 * q + 365 * r + doy) (h₀ : 0 ≤ doy)
    (h₁ : doy < 365 + if r = 3 ∧ (q ≠ 24 ∨ c = 3) then 1 else 0) :
    (doe - doe / 1460 + doe / 36524 - doe / 146096) / 365 = 100 * c + 4 * q + r := by
  have hdoy : doy ≤ 364 ∨ doy = 365 ∧ r = 3 ∧ (q ≠ 24 ∨ c = 3) := by
    split at h₁ <;> omega
  -- the last day of the era counts as the first of a fifth century
  have hcentury : doe / 36524 - doe / 146096 = c := by
    by_cases hlast : doe = 146096
    · omega
    · have h : doe / 146096 = 0 := by omega
      have h' : doe / 36524 = c := (Int.ediv_eq_iff_of_pos (by decide)).2 ⟨by omega, by omega⟩
      omega
  have hfour : doe / 1460 = 25 * c + q + if 24 * c + q + 365 * r + doy < 1460 then 0 else 1 := by
    refine (Int.ediv_eq_iff_of_pos (by decide)).2 ?_
    split
    · exact ⟨by omega, by omega⟩
    · exact ⟨by omega, by omega⟩
  refine (Int.ediv_eq_iff_of_pos (by decide)).2 ?_
  split at hfour
  · exact ⟨by omega, by omega⟩
  · exact ⟨by omega, by omega⟩

/-- The month from a day of the year that begins in March. -/
theorem month_eq {mp : Nat} (hmp : mp < 12) (hd : 1 ≤ d)
    (hdoy : doy = (153 * (mp : Int) + 2) / 5 + d - 1) (h : doy < 366)
    (hlen : mp < 11 → (153 * (mp : Int) + 2) / 5 + d ≤ (153 * ((mp : Int) + 1) + 2) / 5) :
    (5 * doy + 2) / 153 = mp := by
  omega

/-- **The civil date of a day** is the date with that number. -/
theorem civilFromDays_dayNumber (h : Civil.Valid y m d) :
    civilFromDays (Civil.dayNumber y m d - 719162) = (y, (m : Int), (d : Int)) := by
  obtain ⟨y', mp, hm, hy, hmp, hz, hdoy, hlen⟩ := exists_march h
  obtain ⟨era, c, q, r, hc, hq, hr, hparts⟩ : ∃ era c q r : Int, (0 ≤ c ∧ c ≤ 3) ∧
      (0 ≤ q ∧ q ≤ 24) ∧ (0 ≤ r ∧ r ≤ 3) ∧ y' = 400 * era + 100 * c + 4 * q + r :=
    ⟨y' / 400, y' % 400 / 100, y' % 100 / 4, y' % 4, by omega, by omega, by omega, by omega⟩
  have hstart := @Civil.yearStart_parts era c q r hc hq hr
  have hleap := @Civil.leapDay_parts era c q r hc hq hr
  rw [← hparts] at hstart hleap
  rw [hleap] at hdoy
  obtain ⟨doy, hdoyeq⟩ : ∃ doy : Int, doy = (153 * (mp : Int) + 2) / 5 + d - 1 := ⟨_, rfl⟩
  rw [← hdoyeq] at hdoy
  have hd := h.2.2.1
  have hdoy₀ : 0 ≤ doy := by omega
  obtain ⟨doe, hdoe⟩ : ∃ doe : Int, doe = 36524 * c + 1461 * q + 365 * r + doy := ⟨_, rfl⟩
  have hdoy' : doy < 366 := by
    split at hdoy <;> omega
  have hbound : 0 ≤ doe ∧ doe < 146097 := by
    split at hdoy <;> omega
  have hz' : Civil.dayNumber y m d - 719162 + 719468 = 146097 * era + doe := by omega
  have hera : (if 0 ≤ 146097 * era + doe then 146097 * era + doe
      else 146097 * era + doe - 146096).tdiv 146097 = era := by
    split
    · rw [Int.tdiv_eq_ediv_of_nonneg (by omega)]
      omega
    · have hneg : 146097 * era + doe - 146096 = -(146097 * (-era) + (146096 - doe)) := by omega
      rw [hneg, Int.neg_tdiv, Int.tdiv_eq_ediv_of_nonneg (by omega)]
      omega
  have hyoe := yoe_eq hc hq hr hdoe hdoy₀ hdoy
  have hmonth := month_eq hmp hd hdoyeq hdoy' hlen
  have hsub : 146097 * era + doe - era * 146097 = doe := by omega
  have hyoe' : (doe - doe.tdiv 1460 + doe.tdiv 36524 - doe.tdiv 146096).tdiv 365 =
      100 * c + 4 * q + r := by
    rw [Int.tdiv_eq_ediv_of_nonneg hbound.1, Int.tdiv_eq_ediv_of_nonneg hbound.1,
      Int.tdiv_eq_ediv_of_nonneg hbound.1, Int.tdiv_eq_ediv_of_nonneg (by omega), hyoe]
  have hdoy'' : doe - (365 * (100 * c + 4 * q + r) + (100 * c + 4 * q + r).tdiv 4 -
      (100 * c + 4 * q + r).tdiv 100) = doy := by
    have h4 : (100 * c + 4 * q + r) / 4 = 25 * c + q :=
      (Int.ediv_eq_iff_of_pos (by decide)).2 ⟨by omega, by omega⟩
    have h100 : (100 * c + 4 * q + r) / 100 = c :=
      (Int.ediv_eq_iff_of_pos (by decide)).2 ⟨by omega, by omega⟩
    rw [Int.tdiv_eq_ediv_of_nonneg (by omega), Int.tdiv_eq_ediv_of_nonneg (by omega), h4, h100]
    omega
  have hmp' : (5 * doy + 2).tdiv 153 = mp := by
    rw [Int.tdiv_eq_ediv_of_nonneg (by omega), hmonth]
  have hday : doy - (153 * (mp : Int) + 2).tdiv 5 + 1 = d := by
    rw [Int.tdiv_eq_ediv_of_nonneg (by omega)]
    omega
  have hmonth' : (if (mp : Int) < 10 then (mp : Int) + 3 else mp - 9) = m := by
    rw [← hm]
    split_ifs <;> omega
  have hyear : (if (m : Int) ≤ 2 then 100 * c + 4 * q + r + era * 400 + 1
      else 100 * c + 4 * q + r + era * 400) = y := by
    rw [← hy]
    split_ifs <;> omega
  unfold civilFromDays
  simp only [hz', hera, hsub, hyoe', hdoy'', hmp', hday, hmonth', hyear]

end Civil

/-! ## The date as text -/

theorem padded_natCast (w n : Nat) : padded w (n : Int) = String.ofList (zeroPadded w n) := by
  have hdigits : toString (n : Int) = String.ofList (Nat.toDigits 10 n) :=
    Nat.toString_eq_ofList_toDigits
  unfold padded zeroPadded
  simp only [hdigits, String.length_ofList, String.ofList_append]

theorem padded_eq {w n : Nat} (hw : 0 < w) (h : n < 10 ^ w) :
    padded w (n : Int) = String.ofList (fixedDigits w n) := by
  rw [padded_natCast, zeroPadded_eq hw h]

theorem CivilTime.month_lt (t : CivilTime) : t.month < 100 := by
  have h := t.date.2.1
  omega

theorem CivilTime.day_lt (t : CivilTime) : t.day < 100 := by
  obtain ⟨h₁, h₂, _, h₄⟩ := t.date
  have hl := Civil.leapDay_cases t.year
  unfold Civil.monthLength Civil.monthStart at h₄
  split_ifs at h₄ <;> omega

/-- The date recorded for a second is the civil date and time of day it belongs to. -/
theorem utcIso8601_seconds {t : CivilTime} (h : t.FourDigits) :
    utcIso8601 t.seconds = String.ofList t.iso := by
  obtain ⟨h₁, h₂, h₃⟩ := t.time
  obtain ⟨hy₀, hy₁⟩ := h
  have hdays : t.seconds / 86400 = Civil.dayNumber t.year t.month t.day - 719162 := by
    unfold CivilTime.seconds
    omega
  have hrem : t.seconds % 86400 = (t.hour * 3600 + t.minute * 60 + t.second : Nat) := by
    unfold CivilTime.seconds
    omega
  have hhour : t.seconds % 86400 / 3600 = (t.hour : Int) := by omega
  have hminute : t.seconds % 86400 % 3600 / 60 = (t.minute : Int) := by omega
  have hsecond : t.seconds % 86400 % 60 = (t.second : Int) := by omega
  have hyear : t.year = (t.year.toNat : Int) := by omega
  have h4 : padded 4 t.year = String.ofList (fixedDigits 4 t.year.toNat) := by
    rw [hyear, padded_eq (by decide) (by omega), Int.toNat_natCast]
  unfold utcIso8601 CivilTime.iso
  simp only [hdays, civilFromDays_dayNumber t.date, hhour, hminute, hsecond, h4]
  rw [padded_eq (by decide) t.month_lt, padded_eq (by decide) t.day_lt,
    padded_eq (by decide) (by omega), padded_eq (by decide) (by omega),
    padded_eq (by decide) (by omega)]
  refine String.toList_injective ?_
  simp

/-! ## The path as text -/

/-- The bytes `percent_encode_path` passes through. -/
def passes (b : UInt8) : Bool :=
  let c := Char.ofNat b.toNat
  c.isAlphanum || c = '-' || c = '.' || c = '_' || c = '~' || c = '/'

theorem toNat_lt_of_isAlphanum {c : Char} (h : c.isAlphanum = true) : c.toNat < 128 := by
  have upper : c.isUpper = true → c.toNat ≤ 90 := fun h => (of_decide_eq_true h).2
  have lower : c.isLower = true → c.toNat ≤ 122 := fun h =>
    of_decide_eq_true (Bool.and_eq_true_iff.1 h).2
  have digit : c.isDigit = true → c.toNat ≤ 57 := fun h =>
    of_decide_eq_true (Bool.and_eq_true_iff.1 h).2
  rcases Bool.or_eq_true_iff.1 h with h | h
  · rcases Bool.or_eq_true_iff.1 h with h | h
    · have := upper h
      omega
    · have := lower h
      omega
  · have := digit h
    omega

theorem toNat_charOfNat {n : Nat} (h : n < 256) : (Char.ofNat n).toNat = n := by
  have hvalid : n.isValidChar := Or.inl (by omega)
  rw [Char.ofNat, dif_pos hvalid]
  rfl

theorem toNat_charOfByte (b : UInt8) : (Char.ofNat b.toNat).toNat = b.toNat :=
  toNat_charOfNat b.toNat_lt

theorem toNat_lt_of_passes {b : UInt8} (h : passes b = true) : b.toNat < 128 := by
  simp only [passes, Bool.or_eq_true, decide_eq_true_eq] at h
  rw [← toNat_charOfByte b]
  rcases h with ((((h | h) | h) | h) | h) | h
  · exact toNat_lt_of_isAlphanum h
  all_goals
    rw [h]
    decide

theorem utf8EncodeChar_hexDigit {n : Nat} (h : n < 16) :
    String.utf8EncodeChar (hexDigit n) = [upperHex n] := by
  unfold hexDigit upperHex
  split
  · rw [utf8EncodeChar_ascii] <;> rw [toNat_charOfNat (by omega)]
    omega
  · rw [utf8EncodeChar_ascii] <;> rw [toNat_charOfNat (by omega)]
    omega

/-- The path is encoded byte by byte. -/
theorem utf8_percentEncodePath (path : String) :
    utf8 (percentEncodePath path) = percentEncode passes (utf8 path) := by
  unfold percentEncodePath percentEncode
  rw [utf8_ofList, List.flatMap_assoc]
  refine List.flatMap_congr fun b _ => ?_
  have hb := b.toNat_lt
  refine (congrArg (List.flatMap String.utf8EncodeChar) (?_ : _ = if passes b then
    [Char.ofNat b.toNat] else ['%', hexDigit (b.toNat / 16), hexDigit (b.toNat % 16)])).trans ?_
  · rfl
  split
  · next hp =>
    rw [List.flatMap_singleton, utf8EncodeChar_ascii (by rw [toNat_charOfByte]; exact toNat_lt_of_passes hp),
      toNat_charOfByte, UInt8.ofNat_toNat]
  · rw [List.flatMap_cons, List.flatMap_cons, List.flatMap_singleton,
      utf8EncodeChar_hexDigit (by omega), utf8EncodeChar_hexDigit (by omega)]
    rfl

end Arlen.Trash
