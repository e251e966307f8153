import Arlen.Lib.Civil
import Arlen.Lib.Decimal
import Arlen.Lib.Text
import Mathlib.Algebra.Order.BigOperators.Group.List

/-!
# Timestamps of the trash

The timestamps of `trash.rs`: seconds since the epoch as `YYYY-MM-DDThh:mm:ssZ`, and back.
The dates are counted a year and a month at a time. The text is read by slices at fixed
octets, which panic where a cut falls inside a character.
-/

namespace Arlen.Installd

open Arlen.Lib

/-! ## Dates -/

def isLeap (y : Nat) : Bool := (y % 4 = 0 && y % 100 ≠ 0) || y % 400 = 0

def yearLength (y : Nat) : Nat := if isLeap y then 366 else 365

def months (y : Nat) : List Nat :=
  if isLeap y then [31, 29, 31, 30, 31, 30, 31, 31, 30, 31, 30, 31]
  else [31, 28, 31, 30, 31, 30, 31, 31, 30, 31, 30, 31]

theorem yearLength_pos (y : Nat) : 0 < yearLength y := by
  unfold yearLength
  split <;> decide

/-- Whole years are taken off the days. -/
def yearLoop (y days : Nat) : Nat × Nat :=
  if days < yearLength y then (y, days) else yearLoop (y + 1) (days - yearLength y)
termination_by days
decreasing_by
  have := yearLength_pos y
  omega

/-- Whole months are taken off the days. -/
def monthLoop : List Nat → Nat → Nat → Nat × Nat
  | [], mo, days => (mo, days)
  | ml :: rest, mo, days => if days < ml then (mo, days) else monthLoop rest (mo + 1) (days - ml)

/-- Year, month and day of a number of days since the epoch. -/
def daysToYmd (days : Nat) : Nat × Nat × Nat :=
  let (y, inYear) := yearLoop 1970 days
  let (mo, inMonth) := monthLoop (months y) 1 inYear
  (y, mo, inMonth + 1)

def ymdToDays (y mo d : Nat) : Nat :=
  ((List.range' 1970 (y - 1970)).map yearLength).sum + ((months y).take (min (mo - 1) 11)).sum +
    (d - 1)

/-! ## Texts -/

def formatTimestamp (secs : Nat) : List Char :=
  let ofDay := secs % 86400
  let (y, mo, d) := daysToYmd (secs / 86400)
  zeroPadded 4 y ++ '-' :: zeroPadded 2 mo ++ '-' :: zeroPadded 2 d ++ 'T' ::
    zeroPadded 2 (ofDay / 3600) ++ ':' :: zeroPadded 2 (ofDay % 3600 / 60) ++ ':' ::
    zeroPadded 2 (ofDay % 60) ++ ['Z']

/-- A `u64`; there is none where the arithmetic overflows. -/
def checkedU64 (n : Nat) : Option Nat := if n < 2 ^ 64 then some n else none

/-- Read the field between two octets and go on: `none` is a panic. -/
def field (s : List Char) (i j : Nat) (next : Nat → Option (Except Unit Nat)) :
    Option (Except Unit Nat) :=
  match Text.slice s i j with
  | none => none
  | some t =>
    match parseUnsigned (2 ^ 64) t with
    | none => some (.error ())
    | some n => next n

def parseIso8601 (s : List Char) : Option (Except Unit Nat) :=
  if Text.byteLen s < 19 then some (.error ())
  else
    field s 0 4 fun y => field s 5 7 fun mo => field s 8 10 fun d => field s 11 13 fun h =>
      field s 14 16 fun m => field s 17 19 fun sec =>
        (checkedU64 (ymdToDays y mo d * 86400 + h * 3600 + m * 60 + sec)).map .ok

def gracePeriodDays : Nat := 30

/-- `is_expired`, at a reading of the clock. -/
def isExpired (now : Nat) (deletedAt : List Char) : Option Bool :=
  (parseIso8601 deletedAt).map fun
    | .error () => false
    | .ok deleted => gracePeriodDays * 24 * 60 * 60 ≤ now - deleted

/-! ## Dates read back -/

variable {y days mo d secs i j : Nat} {s : List Char}

theorem isLeap_eq (y : Nat) : Civil.isLeap (y : Int) = isLeap y := by
  unfold Civil.isLeap isLeap
  rw [Bool.eq_iff_iff]
  simp only [Bool.and_eq_true, Bool.or_eq_true, decide_eq_true_eq]
  omega

/-- The days of a run of years. -/
theorem sum_yearLength (y k : Nat) : (((List.range' y k).map yearLength).sum : Int) =
    Civil.yearStart (y + k : Nat) - Civil.yearStart y := by
  induction k with
  | zero => simp
  | succ k ih =>
    have hlast : (yearLength (y + k) : Int) = 365 + Civil.leapDay (y + k : Nat) := by
      unfold yearLength Civil.leapDay
      rw [isLeap_eq]
      split <;> rfl
    have hnext := Civil.yearStart_succ ((y + k : Nat) : Int)
    rw [List.range'_concat, List.map_append, List.sum_append, List.map_singleton,
      List.sum_singleton, Nat.one_mul]
    push_cast at ih hlast hnext ⊢
    rw [← add_assoc, hnext, hlast, ih]
    omega

theorem sum_months (y : Nat) : (months y).sum = yearLength y := by
  unfold months yearLength
  split <;> rfl

theorem length_months (y : Nat) : (months y).length = 12 := by
  unfold months
  split <;> rfl

/-- What the year loop leaves is within the year it stops at, and the years before make up
the rest. -/
theorem yearLoop_spec (y days : Nat) : ∃ k,
    (yearLoop y days).1 = y + k ∧ (yearLoop y days).2 < yearLength (y + k) ∧
      days = ((List.range' y k).map yearLength).sum + (yearLoop y days).2 := by
  induction y, days using yearLoop.induct with
  | case1 y days hlt =>
    rw [yearLoop, if_pos hlt]
    exact ⟨0, rfl, hlt, by simp⟩
  | case2 y days hge ih =>
    rw [yearLoop, if_neg hge]
    obtain ⟨k, hyear, hlt, hdays⟩ := ih
    have hk : y + 1 + k = y + (k + 1) := by omega
    refine ⟨k + 1, hyear.trans hk, hk ▸ hlt, ?_⟩
    rw [List.range'_succ, List.map_cons, List.sum_cons]
    omega

theorem monthLoop_spec {l : List Nat} (mo : Nat) (h : days < l.sum) : ∃ k < l.length,
    (monthLoop l mo days).1 = mo + k ∧ (monthLoop l mo days).2 < l.getD k 0 ∧
      days = (l.take k).sum + (monthLoop l mo days).2 := by
  induction l generalizing mo days with
  | nil => exact absurd h (Nat.not_lt_zero _)
  | cons ml rest ih =>
    unfold monthLoop
    by_cases hlt : days < ml
    · rw [if_pos hlt]
      exact ⟨0, Nat.succ_pos _, rfl, hlt, by simp⟩
    · rw [if_neg hlt]
      rw [List.sum_cons] at h
      obtain ⟨k, hk, hmonth, hday, hdays⟩ := ih (mo + 1) (show days - ml < rest.sum by omega)
      refine ⟨k + 1, Nat.succ_lt_succ hk, by rw [hmonth]; omega, hday, ?_⟩
      rw [List.take_succ_cons, List.sum_cons]
      omega

/-- **A date read back**: its parts, and the days they stand for. -/
theorem daysToYmd_spec (h : daysToYmd days = (y, mo, d)) :
    1 ≤ mo ∧ mo ≤ 12 ∧ 1 ≤ d ∧ d ≤ 31 ∧ 1970 ≤ y ∧
      Civil.yearStart y - Civil.yearStart 1970 ≤ days ∧ ymdToDays y mo d = days := by
  obtain ⟨k, hyear, hlt, hdays⟩ := yearLoop_spec 1970 days
  unfold daysToYmd at h
  simp only [Prod.mk.injEq] at h
  obtain ⟨rfl, rfl, rfl⟩ := h
  rw [← hyear] at hlt
  obtain ⟨n, hn, hmonth, hday, hrest⟩ :=
    monthLoop_spec (l := months (yearLoop 1970 days).1) 1 (by rw [sum_months]; exact hlt)
  rw [length_months] at hn
  have hlong : ∀ k, (months (yearLoop 1970 days).1).getD k 0 ≤ 31 := by
    intro k
    rw [List.getD_eq_getElem?_getD]
    cases hget : (months (yearLoop 1970 days).1)[k]? with
    | none => exact Nat.zero_le _
    | some ml =>
      have hmem := List.mem_of_getElem? hget
      have hall : ∀ ml ∈ months (yearLoop 1970 days).1, ml ≤ 31 := by
        unfold months
        split <;> decide
      exact hall ml hmem
  have hd := hlong n
  have hstart := sum_yearLength 1970 k
  refine ⟨by omega, by omega, by omega, by omega, by omega, ?_, ?_⟩
  · have hepoch : ((1970 : Nat) : Int) = 1970 := rfl
    rw [hepoch] at hstart
    rw [hyear]
    omega
  · unfold ymdToDays
    rw [hyear, Nat.add_sub_cancel_left, ← hyear, hmonth, Nat.add_sub_cancel_left,
      Nat.add_sub_cancel, Nat.min_eq_left (by omega)]
    omega

/-- Before the year 10000. -/
def endOfYear9999 : Nat := 253402300800

theorem year_lt (h : daysToYmd (secs / 86400) = (y, mo, d)) (hsecs : secs < endOfYear9999) :
    y < 10000 := by
  obtain ⟨-, -, -, -, -, hstart, -⟩ := daysToYmd_spec h
  by_contra hge
  have hle := Civil.yearStart_le (show (10000 : Int) ≤ y by omega)
  have h10000 : Civil.yearStart 10000 - Civil.yearStart 1970 = 2932897 := by decide
  have hend : endOfYear9999 = 2932897 * 86400 := rfl
  omega

/-! ## Texts read back -/

theorem byteLen_fixedDigits (w n : Nat) : Text.byteLen (fixedDigits w n) = w :=
  (Text.byteLen_of_digits fun _ hc => isDigit_of_mem_fixedDigits hc).trans (length_fixedDigits w n)

/-- A field of digits is read. -/
theorem field_fixedDigits (pre post : List Char) {next : Nat → Option (Except Unit Nat)} {w n : Nat}
    (hi : Text.byteLen pre = i) (hj : i + w = j) (hw : 0 < w) (hn : n < 10 ^ w)
    (hbound : n < 2 ^ 64) : field (pre ++ (fixedDigits w n ++ post)) i j next = next n := by
  unfold field
  rw [Text.slice_eq_some rfl hi (by rw [byteLen_fixedDigits]; exact hj)]
  simp only
  rw [parseUnsigned_fixedDigits hw hn hbound]

/-- A field of two digits. -/
theorem field_two (pre post : List Char) {next : Nat → Option (Except Unit Nat)} {n : Nat}
    (hi : Text.byteLen pre = i) (hn : n < 100) (hs : s = pre ++ (fixedDigits 2 n ++ post)) :
    field s i (i + 2) next = next n := by
  rw [hs]
  exact field_fixedDigits pre post hi rfl (by decide) hn (by omega)

/-- Punctuation is one octet long. -/
theorem byteLen_punctuation :
    Text.byteLen ['-'] = 1 ∧ Text.byteLen ['T'] = 1 ∧ Text.byteLen [':'] = 1 := by decide

/-- **The round trip**, up to the end of the year 9999. -/
theorem parseIso8601_formatTimestamp (h : secs < endOfYear9999) :
    parseIso8601 (formatTimestamp secs) = some (.ok secs) := by
  obtain ⟨⟨y, mo, d⟩, hymd⟩ : ∃ ymd, daysToYmd (secs / 86400) = ymd := ⟨_, rfl⟩
  obtain ⟨hmo, hmo', hd, hd', -, -, hdays⟩ := daysToYmd_spec hymd
  have hyear := year_lt hymd h
  have hend : endOfYear9999 = 253402300800 := rfl
  obtain ⟨hdash, htee, hcolon⟩ := byteLen_punctuation
  have htext : formatTimestamp secs = fixedDigits 4 y ++ (['-'] ++ (fixedDigits 2 mo ++ (['-'] ++
      (fixedDigits 2 d ++ (['T'] ++ (fixedDigits 2 (secs % 86400 / 3600) ++ ([':'] ++
        (fixedDigits 2 (secs % 86400 % 3600 / 60) ++ ([':'] ++
          (fixedDigits 2 (secs % 86400 % 60) ++ ['Z'])))))))))) := by
    unfold formatTimestamp
    rw [hymd]
    simp only
    rw [zeroPadded_eq (by decide) (by omega : y < 10 ^ 4),
      zeroPadded_eq (by decide) (by omega : mo < 10 ^ 2),
      zeroPadded_eq (by decide) (by omega : d < 10 ^ 2),
      zeroPadded_eq (by decide) (by omega : secs % 86400 / 3600 < 10 ^ 2),
      zeroPadded_eq (by decide) (by omega : secs % 86400 % 3600 / 60 < 10 ^ 2),
      zeroPadded_eq (by decide) (by omega : secs % 86400 % 60 < 10 ^ 2)]
    simp only [List.append_assoc, List.cons_append, List.nil_append]
  have hhour : secs % 86400 / 3600 < 100 := by omega
  have hminute : secs % 86400 % 3600 / 60 < 100 := by omega
  have hsecond : secs % 86400 % 60 < 100 := by omega
  have hvalue : ymdToDays y mo d * 86400 + secs % 86400 / 3600 * 3600 +
      secs % 86400 % 3600 / 60 * 60 + secs % 86400 % 60 = secs := by
    rw [hdays]
    omega
  revert htext
  generalize secs % 86400 / 3600 = hour at *
  generalize secs % 86400 % 3600 / 60 = minute at *
  generalize secs % 86400 % 60 = second at *
  intro htext
  have hlong : ¬ Text.byteLen (formatTimestamp secs) < 19 := by
    rw [htext]
    simp only [Text.byteLen_append, byteLen_fixedDigits, hdash, htee, hcolon]
    omega
  have hy : ∀ next, field (formatTimestamp secs) 0 4 next = next y := fun next => by
    rw [htext]
    exact field_fixedDigits (w := 4) (n := y) [] _ rfl rfl (by decide) hyear (by omega)
  have hlen : ∀ s t : List Char, Text.byteLen (s ++ t) = Text.byteLen s + Text.byteLen t :=
    Text.byteLen_append
  have htwo : ∀ (pre post : List Char) (i n : Nat), Text.byteLen pre = i → n < 100 →
      formatTimestamp secs = pre ++ (fixedDigits 2 n ++ post) →
        ∀ next, field (formatTimestamp secs) i (i + 2) next = next n :=
    fun pre post i n hi hn hs next => field_two pre post hi hn hs
  unfold parseIso8601
  rw [if_neg hlong, hy,
    htwo (fixedDigits 4 y ++ ['-']) _ 5 mo (by simp only [hlen, byteLen_fixedDigits, hdash])
      (by omega) (by rw [htext]; simp only [List.append_assoc]; rfl),
    htwo (fixedDigits 4 y ++ ['-'] ++ fixedDigits 2 mo ++ ['-']) _ 8 d
      (by simp only [hlen, byteLen_fixedDigits, hdash]) (by omega)
      (by rw [htext]; simp only [List.append_assoc]; rfl),
    htwo (fixedDigits 4 y ++ ['-'] ++ fixedDigits 2 mo ++ ['-'] ++ fixedDigits 2 d ++ ['T']) _ 11
      hour (by simp only [hlen, byteLen_fixedDigits, hdash, htee]) hhour
      (by rw [htext]; simp only [List.append_assoc]; rfl),
    htwo (fixedDigits 4 y ++ ['-'] ++ fixedDigits 2 mo ++ ['-'] ++ fixedDigits 2 d ++ ['T'] ++
        fixedDigits 2 hour ++ [':']) _ 14 minute
      (by simp only [hlen, byteLen_fixedDigits, hdash, htee, hcolon]) hminute
      (by rw [htext]; simp only [List.append_assoc]; rfl),
    htwo (fixedDigits 4 y ++ ['-'] ++ fixedDigits 2 mo ++ ['-'] ++ fixedDigits 2 d ++ ['T'] ++
        fixedDigits 2 hour ++ [':'] ++ fixedDigits 2 minute ++ [':']) _ 17 second
      (by simp only [hlen, byteLen_fixedDigits, hdash, htee, hcolon]) hsecond
      (by rw [htext]; simp only [List.append_assoc]; rfl), hvalue]
  unfold checkedU64
  rw [if_pos (by omega)]
  rfl

/-- Thirty days. -/
theorem gracePeriod_eq : gracePeriodDays * 24 * 60 * 60 = 2592000 := rfl

/-- A timestamp written before the year 10000 is past its window after thirty days. -/
theorem isExpired_formatTimestamp {now : Nat} (h : secs < endOfYear9999) :
    isExpired now (formatTimestamp secs) = some true ↔ 2592000 ≤ now - secs := by
  unfold isExpired
  rw [parseIso8601_formatTimestamp h, Option.map_some, Option.some.injEq, gracePeriod_eq]
  exact decide_eq_true_iff

/-! ## What reading panics at -/

/-- The fields, and the octets they stand between. -/
def fields : List (Nat × Nat) := [(0, 4), (5, 7), (8, 10), (11, 13), (14, 16), (17, 19)]

/-- In order, and up to the first that is no number, the fields begin and end between
characters. -/
def CutsClean (s : List Char) : List (Nat × Nat) → Prop
  | [] => True
  | (i, j) :: rest => ∃ t, Text.slice s i j = some t ∧
      (parseUnsigned (2 ^ 64) t ≠ none → CutsClean s rest)

theorem field_ne_none {next : Nat → Option (Except Unit Nat)} {P : Prop}
    (hnext : ∀ n, n < 10 ^ (j - i) → (next n ≠ none ↔ P)) :
    field s i j next ≠ none ↔
      ∃ t, Text.slice s i j = some t ∧ (parseUnsigned (2 ^ 64) t ≠ none → P) := by
  unfold field
  cases hs : Text.slice s i j with
  | none => simp
  | some t =>
    simp only [Option.some.injEq, exists_eq_left']
    cases hn : parseUnsigned (2 ^ 64) t with
    | none => simp
    | some n =>
      have hlt : n < 10 ^ (j - i) := by
        refine (parseUnsigned_lt hn).trans_le (Nat.pow_le_pow_right (by decide) ?_)
        rw [← Text.byteLen_of_slice hs]
        exact Text.length_le_byteLen t
      simp [hnext n hlt]

theorem ymdToDays_lt (hy : y < 10000) (hd : d < 100) : ymdToDays y mo d < 2 ^ 32 := by
  have hyears : ((List.range' 1970 (y - 1970)).map yearLength).sum ≤ (y - 1970) * 366 := by
    have hle : ∀ n ∈ (List.range' 1970 (y - 1970)).map yearLength, n ≤ 366 := by
      intro n hn
      obtain ⟨yr, -, rfl⟩ := List.mem_map.1 hn
      unfold yearLength
      split <;> decide
    have hsum : ((List.range' 1970 (y - 1970)).map yearLength).sum ≤
        ((List.range' 1970 (y - 1970)).map yearLength).length * 366 :=
      List.sum_le_card_nsmul _ 366 hle
    rwa [List.length_map, List.length_range'] at hsum
  have hmonths : ((months y).take (min (mo - 1) 11)).sum ≤ 366 := by
    have hle : ((months y).take (min (mo - 1) 11)).sum ≤ (months y).sum :=
      (List.take_sublist _ _).sum_le_sum fun _ _ => Nat.zero_le _
    rw [sum_months] at hle
    unfold yearLength at hle
    split at hle <;> omega
  unfold ymdToDays
  omega

/-- **What reading panics at**: a field cut inside a character, and nothing else. -/
theorem isExpired_ne_none (now : Nat) (s : List Char) :
    isExpired now s ≠ none ↔ Text.byteLen s < 19 ∨ CutsClean s fields := by
  unfold isExpired
  rw [ne_eq, Option.map_eq_none_iff]
  unfold parseIso8601
  split
  · next hshort => simp [hshort]
  · next hlong =>
    rw [or_iff_right hlong]
    unfold fields
    refine field_ne_none fun y hy => ?_
    refine field_ne_none fun mo _ => ?_
    refine field_ne_none fun d hd => ?_
    refine field_ne_none fun h hh => ?_
    refine field_ne_none fun m hm => ?_
    refine field_ne_none fun sec hsec => ?_
    have hdays : ymdToDays y mo d < 2 ^ 32 := ymdToDays_lt hy hd
    unfold checkedU64
    rw [if_pos (by omega)]
    simp [CutsClean]

/-- A timestamp whose first field ends inside a character. -/
def cutTimestamp : List Char := "202é-01-01T00:00:00Z".toList

/-- Reading it panics. -/
theorem cutTimestamp_panics : ¬ ∀ now s, isExpired now s ≠ none := by
  intro h
  refine h 0 cutTimestamp ?_
  have hcut : parseIso8601 cutTimestamp = none := by rfl
  unfold isExpired
  rw [hcut, Option.map_none]

end Arlen.Installd
