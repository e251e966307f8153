import Arlen.Calendar.Writer

/-!
# What is written is what is read back

The writer's lines come back from the reader one by one: folding is undone by
joining, escaping by unescaping. Only the trimming of each line has no
counterpart in the writer, so a text keeps its form exactly when it does not end
in white space.
-/

namespace Arlen.Calendar

open Arlen.Lib

/-! ### Folding -/

theorem splitBudget_append (budget : Nat) (s : List Char) :
    (splitBudget budget s).1 ++ (splitBudget budget s).2 = s := by
  fun_induction splitBudget budget s with
  | case1 => rfl
  | case2 budget c cs hle head rest heq ih =>
    rw [heq] at ih
    simpa using ih
  | case3 => rfl

/-- The pieces of a line make up the line, and the first of them holds its first
character. -/
theorem foldPieces_flatten {fuel : Nat} (budget : Nat) {s : List Char} (h : s.length ≤ fuel) :
    (foldPieces fuel budget s).flatten = s := by
  fun_induction foldPieces fuel budget s with
  | case1 budget s => exact (List.length_eq_zero_iff.1 (by omega)).symm
  | case2 => rfl
  | case3 fuel budget c cs rest heq ih =>
    rw [List.flatten_cons, ih (by simpa using h)]
    rfl
  | case4 fuel budget c cs head rest hne heq ih =>
    have hsplit := splitBudget_append budget (c :: cs)
    rw [heq] at hsplit
    have hlen : head.length + rest.length = (c :: cs).length := by
      rw [← hsplit, List.length_append]
    have hpos : 0 < head.length := List.length_pos_iff.2 hne
    rw [List.flatten_cons, ih (by omega)]
    exact hsplit

theorem foldPieces_cons (fuel budget : Nat) (c : Char) (cs : List Char) :
    ∃ p ps, foldPieces (fuel + 1) budget (c :: cs) = (c :: p) :: ps := by
  unfold foldPieces
  have hsplit := splitBudget_append budget (c :: cs)
  split
  · exact ⟨[], _, rfl⟩
  · next head rest hne heq =>
    rw [heq] at hsplit
    cases head with
    | nil => exact absurd rfl hne
    | cons d head =>
      obtain rfl := (List.cons.inj hsplit).1
      exact ⟨head, _, rfl⟩

/-- The lines a folded line takes up in the file. -/
def foldedLines (line : List Char) : List (List Char) :=
  if Text.byteLen line ≤ foldLimit then [line]
  else
    match foldPieces line.length foldLimit line with
    | [] => [[]]
    | p :: ps => p :: ps.map (' ' :: ·)

theorem intercalate_fold_crlf (p : List Char) (ps : List (List Char)) :
    "\r\n ".toList.intercalate (p :: ps) ++ ['\r', '\n'] =
      (p :: ps.map (' ' :: ·)).flatMap (· ++ ['\r', '\n']) := by
  induction ps generalizing p with
  | nil => simp
  | cons q ps ih =>
    rw [List.intercalate_cons_cons, List.append_assoc, ih q]
    simp

theorem fold_crlf (line : List Char) :
    fold line ++ ['\r', '\n'] = (foldedLines line).flatMap (· ++ ['\r', '\n']) := by
  unfold fold foldedLines
  split
  · simp
  · split
    · next h => simp [h]
    · next p ps h => rw [h, intercalate_fold_crlf]

theorem crlf_join {ls : List (List Char)} (h : ls ≠ []) :
    "\r\n".toList.intercalate ls ++ "\r\n".toList = ls.flatMap (· ++ ['\r', '\n']) := by
  induction ls with
  | nil => exact absurd rfl h
  | cons l ls ih =>
    cases ls with
    | nil => simp
    | cons k ls =>
      rw [List.intercalate_cons_cons, List.append_assoc, ih (by simp)]
      simp

theorem eventLines_ne_nil (e : NewEvent) : eventLines e ≠ [] := by
  obtain ⟨l, ls, h⟩ : ∃ l ls, eventLines e = l :: ls := ⟨_, _, rfl⟩
  rw [h]
  exact List.cons_ne_nil l ls

theorem vcalendar_eq (e : NewEvent) :
    vcalendar e = ((eventLines e).flatMap foldedLines).flatMap (· ++ ['\r', '\n']) := by
  unfold vcalendar
  rw [crlf_join (by simp [eventLines_ne_nil]), List.flatMap_map, List.flatMap_assoc]
  congr 1
  funext line
  exact fold_crlf line

/-- A line the reader can take up again: it has a first character, which is no
white space, and no line feed. -/
structure Plain (line : List Char) : Prop where
  noLf : '\n' ∉ line
  solid : ∃ c cs, line = c :: cs ∧ isWhitespace c = false

theorem continuation_eq_none {c : Char} {cs : List Char} (h : isWhitespace c = false) :
    continuation (c :: cs) = none := by
  unfold continuation
  split
  · next heq =>
    obtain rfl := (List.cons.inj heq).1
    exact absurd h (by decide)
  · next heq =>
    obtain rfl := (List.cons.inj heq).1
    exact absurd h (by decide)
  · rfl

theorem mem_of_mem_foldedLines {line l : List Char} {c : Char} (hl : l ∈ foldedLines line)
    (hc : c ∈ l) : c ∈ line ∨ c = ' ' := by
  unfold foldedLines at hl
  split at hl
  · rw [List.mem_singleton.1 hl] at hc
    exact Or.inl hc
  · have hflat := foldPieces_flatten foldLimit (le_refl line.length)
    split at hl
    · rw [List.mem_singleton.1 hl] at hc
      cases hc
    · next p ps h =>
      rw [h, List.flatten_cons] at hflat
      rcases List.mem_cons.1 hl with rfl | hl
      · rw [← hflat]
        exact Or.inl (List.mem_append_left _ hc)
      · obtain ⟨q, hq, rfl⟩ := List.mem_map.1 hl
        rcases List.mem_cons.1 hc with rfl | hc
        · exact Or.inr rfl
        · rw [← hflat]
          exact Or.inl (List.mem_append_right _ (List.mem_flatten_of_mem hq hc))

/-- Joining the lines of a folded line gives it back. -/
theorem foldl_unfoldStep_foldedLines {line : List Char} (h : Plain line)
    (acc : List (List Char)) :
    (foldedLines line).foldl unfoldStep acc = acc ++ [line] := by
  obtain ⟨c, cs, rfl, hc⟩ := h.solid
  unfold foldedLines
  split
  · exact unfoldStep_of_continuation_none (continuation_eq_none hc)
  · have hflat := foldPieces_flatten foldLimit (le_refl (c :: cs).length)
    rw [List.length_cons] at hflat ⊢
    obtain ⟨p, ps, hp⟩ := foldPieces_cons cs.length foldLimit c cs
    rw [hp] at hflat ⊢
    simp only
    rw [foldl_unfoldStep_cons (continuation_eq_none hc), foldl_unfoldStep_spaced]
    rw [List.flatten_cons] at hflat
    rw [hflat]

theorem foldl_unfoldStep_flatMap {ls : List (List Char)} (h : ∀ l ∈ ls, Plain l)
    (acc : List (List Char)) :
    (ls.flatMap foldedLines).foldl unfoldStep acc = acc ++ ls := by
  induction ls generalizing acc with
  | nil => simp
  | cons l ls ih =>
    rw [List.flatMap_cons, List.foldl_append,
      foldl_unfoldStep_foldedLines (h l List.mem_cons_self),
      ih fun l hl => h l (List.mem_cons_of_mem _ hl)]
    simp

/-- The lines of the writer, read back with folding undone. -/
theorem unfold_vcalendar {e : NewEvent} (h : ∀ l ∈ eventLines e, Plain l) :
    unfold (vcalendar e) = eventLines e ++ [[]] := by
  have hlf : ∀ l ∈ (eventLines e).flatMap foldedLines, '\n' ∉ l := by
    intro l hl hn
    obtain ⟨line, hline, hl⟩ := List.mem_flatMap.1 hl
    rcases mem_of_mem_foldedLines hl hn with hn | hn
    · exact (h line hline).noLf hn
    · cases hn
  unfold unfold unfoldLines
  rw [vcalendar_eq, physicalLines_crlf hlf, List.foldl_append, foldl_unfoldStep_flatMap h]
  rfl

/-! ### Escaping -/

def escapeChar (c : Char) : List Char :=
  if c = '\\' then ['\\', '\\']
  else if c = ';' then ['\\', ';']
  else if c = ',' then ['\\', ',']
  else if c = '\n' then ['\\', 'n']
  else [c]

/-- A text without its carriage returns. -/
def noCr (s : List Char) : List Char := s.filter (· ≠ '\r')

theorem replace_append (c : Char) (t s s' : List Char) :
    Text.replace c t (s ++ s') = Text.replace c t s ++ Text.replace c t s' := List.flatMap_append

theorem escape_append (s s' : List Char) : escape (s ++ s') = escape s ++ escape s' := by
  unfold escape
  simp only [replace_append]

theorem escape_singleton (c : Char) :
    escape [c] = if c = '\r' then [] else escapeChar c := by
  unfold escape escapeChar Text.replace
  by_cases h₁ : c = '\\'
  · subst h₁
    rfl
  by_cases h₂ : c = ';'
  · subst h₂
    rfl
  by_cases h₃ : c = ','
  · subst h₃
    rfl
  by_cases h₄ : c = '\n'
  · subst h₄
    rfl
  by_cases h₅ : c = '\r'
  · subst h₅
    rfl
  simp [h₁, h₂, h₃, h₄, h₅]

/-- The five replacements, character by character. -/
theorem escape_eq (s : List Char) : escape s = (noCr s).flatMap escapeChar := by
  induction s with
  | nil => rfl
  | cons c s ih =>
    rw [← List.singleton_append, escape_append, ih, escape_singleton]
    unfold noCr
    by_cases h : c = '\r'
    · simp [h]
    · simp [h]

theorem unescape_cons {c : Char} (h : c ≠ '\\') (s : List Char) :
    unescape (c :: s) = c :: unescape s := by
  rw [unescape]
  · intro hc _
    exact h hc
  · intro _ _ hc _
    exact h hc

theorem unescape_escapeChar (c : Char) (s : List Char) :
    unescape (escapeChar c ++ s) = c :: unescape s := by
  unfold escapeChar
  split_ifs with h₁ h₂ h₃ h₄
  · subst h₁
    rfl
  · subst h₂
    rfl
  · subst h₃
    rfl
  · subst h₄
    rfl
  · exact unescape_cons h₁ s

theorem unescape_flatMap (s : List Char) : unescape (s.flatMap escapeChar) = s := by
  induction s with
  | nil => rfl
  | cons c s ih => rw [List.flatMap_cons, unescape_escapeChar, ih]

/-- White space that the trimming of a line takes off an escaped text. A line feed
is escaped and stays. -/
def lost (c : Char) : Bool := isWhitespace c && c ≠ '\n'

theorem trimEnd_flatMap_escapeChar (s : List Char) :
    Text.trimEnd (s.flatMap escapeChar) = (s.rdropWhile lost).flatMap escapeChar := by
  induction s using List.reverseRecOn with
  | nil => rfl
  | append_singleton s c ih =>
    rw [List.flatMap_append, List.flatMap_singleton]
    by_cases hc : lost c = true
    · have hw : isWhitespace c = true := (Bool.and_eq_true _ _ ▸ hc).1
      have hesc : escapeChar c = [c] := by
        unfold escapeChar
        rw [if_neg, if_neg, if_neg, if_neg]
        all_goals
          rintro rfl
          exact absurd hc (by decide)
      rw [List.rdropWhile_concat_pos _ _ _ hc, hesc, ← ih]
      exact List.rdropWhile_concat_pos _ _ _ hw
    · have hsolid : ∀ h, isWhitespace ((escapeChar c).getLast h) = false := by
        unfold escapeChar
        split_ifs with h₁ h₂ h₃ h₄
        · exact fun _ => rfl
        · exact fun _ => rfl
        · exact fun _ => rfl
        · exact fun _ => rfl
        · intro _
          simpa [lost, h₄] using hc
      have hne : escapeChar c ≠ [] := by
        unfold escapeChar
        split_ifs <;> simp
      rw [List.rdropWhile_concat_neg _ _ _ hc, Text.trimEnd_append hne hsolid,
        List.flatMap_append, List.flatMap_singleton]

/-- What a text comes back as: without carriage returns, and without trailing white
space other than line feeds. -/
theorem unescape_trimEnd_escape (s : List Char) :
    unescape (Text.trimEnd (escape s)) = (noCr s).rdropWhile lost := by
  rw [escape_eq, trimEnd_flatMap_escapeChar, unescape_flatMap]

/-! ### The lines of an event -/

theorem newline_not_mem_escape (s : List Char) : '\n' ∉ escape s := by
  rw [escape_eq]
  intro h
  obtain ⟨c, _, hc⟩ := List.mem_flatMap.1 h
  unfold escapeChar at hc
  split_ifs at hc with h₁ h₂ h₃ h₄ <;> simp at hc
  exact h₄ hc.symm

theorem isDigit_or_of_mem_formatYear {y : Int} {c : Char} (h : c ∈ formatYear y) :
    c.isDigit = true ∨ c = '-' ∨ c = '+' := by
  unfold formatYear at h
  simp only at h
  split at h
  · exact Or.inl (isDigit_of_mem_digits h)
  · rcases List.mem_cons.1 h with h | h
    · split at h
      · exact Or.inr (Or.inl h)
      · exact Or.inr (Or.inr h)
    · exact Or.inl (isDigit_of_mem_digits h)

theorem isDigit_of_mem_timeFormat {t : NaiveTime} {c : Char} (h : c ∈ t.format) :
    c.isDigit = true := by
  unfold NaiveTime.format at h
  rcases List.mem_append.1 h with h | h
  · rcases List.mem_append.1 h with h | h
    · exact isDigit_of_mem_digits h
    · exact isDigit_of_mem_digits h
  · exact isDigit_of_mem_digits h

theorem not_whitespace_of_mem_format {d : NaiveDate} {c : Char} (h : c ∈ d.format) :
    isWhitespace c = false := by
  unfold NaiveDate.format at h
  rcases List.mem_append.1 h with h | h
  · rcases List.mem_append.1 h with h | h
    · rcases isDigit_or_of_mem_formatYear h with h | rfl | rfl
      · exact isWhitespace_of_isDigit h
      · decide
      · decide
    · exact isWhitespace_of_isDigit (isDigit_of_mem_digits h)
  · exact isWhitespace_of_isDigit (isDigit_of_mem_digits h)

theorem not_whitespace_of_mem_dateTimeFormat {dt : NaiveDateTime} {c : Char}
    (h : c ∈ dt.format) : isWhitespace c = false := by
  unfold NaiveDateTime.format at h
  rcases List.mem_append.1 h with h | h
  · exact not_whitespace_of_mem_format h
  · rcases List.mem_cons.1 h with rfl | h
    · decide
    · exact isWhitespace_of_isDigit (isDigit_of_mem_timeFormat h)

/-- A line of a solid first character and no line feed behind it. -/
theorem plain_append {name v : List Char} (hn : ∀ c ∈ name, c ≠ '\n')
    (hsolid : ∃ c cs, name = c :: cs ∧ isWhitespace c = false) (hv : '\n' ∉ v) :
    Plain (name ++ v) := by
  refine ⟨?_, ?_⟩
  · intro h
    rcases List.mem_append.1 h with h | h
    · exact hn _ h rfl
    · exact hv h
  · obtain ⟨c, cs, rfl, hc⟩ := hsolid
    exact ⟨c, cs ++ v, rfl, hc⟩

theorem newline_not_mem_of_solid {v : List Char} (h : ∀ c ∈ v, isWhitespace c = false) :
    '\n' ∉ v := fun hm => absurd (h _ hm) (by decide)

theorem plain_timeLines (e : NewEvent) : ∀ l ∈ timeLines e, Plain l := by
  have hdate := fun t => newline_not_mem_of_solid
    (fun c (hc : c ∈ (NaiveDateTime.mk e.date t).format) =>
      not_whitespace_of_mem_dateTimeFormat hc)
  have hday := newline_not_mem_of_solid
    (fun c (hc : c ∈ e.date.format) => not_whitespace_of_mem_format hc)
  intro l hl
  unfold timeLines at hl
  split at hl
  · rw [List.mem_singleton.1 hl]
    exact plain_append (by decide) ⟨'D', _, rfl, by decide⟩ hday
  · rcases List.mem_cons.1 hl with rfl | hl
    · exact plain_append (by decide) ⟨'D', _, rfl, by decide⟩ (hdate _)
    · split at hl
      · cases hl
      · rw [List.mem_singleton.1 hl]
        exact plain_append (by decide) ⟨'D', _, rfl, by decide⟩ (hdate _)

/-- Every line the writer makes stands on its own. -/
theorem plain_eventLines {e : NewEvent} (hrule : ∀ rule, e.rrule = some rule → '\n' ∉ rule) :
    ∀ l ∈ eventLines e, Plain l := by
  intro l hl
  unfold eventLines at hl
  simp only [List.mem_append, List.mem_cons, List.not_mem_nil, or_false] at hl
  rcases hl with ((((h | h) | h) | h) | h) | h
  · rcases h with rfl | rfl | rfl | rfl | rfl | rfl
    · exact ⟨by decide, 'B', _, rfl, by decide⟩
    · exact ⟨by decide, 'V', _, rfl, by decide⟩
    · exact ⟨by decide, 'P', _, rfl, by decide⟩
    · exact ⟨by decide, 'B', _, rfl, by decide⟩
    · exact plain_append (by decide) ⟨'U', _, rfl, by decide⟩ (newline_not_mem_escape _)
    · rw [List.append_assoc]
      refine plain_append (by decide) ⟨'D', _, rfl, by decide⟩ ?_
      refine newline_not_mem_of_solid fun c hc => ?_
      rcases List.mem_append.1 hc with hc | hc
      · exact not_whitespace_of_mem_dateTimeFormat hc
      · rw [List.mem_singleton.1 hc]
        decide
  · exact plain_timeLines e l h
  · rw [h]
    exact plain_append (by decide) ⟨'S', _, rfl, by decide⟩ (newline_not_mem_escape _)
  · split at h
    · cases h
    · rw [List.mem_singleton.1 h]
      exact plain_append (by decide) ⟨'L', _, rfl, by decide⟩ (newline_not_mem_escape _)
  · unfold ruleLines at h
    split at h
    · cases h
    · next rule hr =>
      rw [List.mem_singleton.1 h]
      exact plain_append (by decide) ⟨'R', _, rfl, by decide⟩ (hrule rule hr)
  · rcases h with rfl | rfl
    · exact ⟨by decide, 'E', _, rfl, by decide⟩
    · exact ⟨by decide, 'E', _, rfl, by decide⟩

/-! ### Times read back -/

theorem byteLen_digits (w n : Nat) : Text.byteLen (digits w n) = w :=
  (Text.byteLen_of_digits fun _ hc => isDigit_of_mem_digits hc).trans (length_digits w n)

/-- A date-time is longer than a date. -/
theorem byteLen_dateTimeFormat {dt : NaiveDateTime} : Text.byteLen dt.format ≠ 8 := by
  have hyear : 4 ≤ Text.byteLen (formatYear dt.date.year) := by
    unfold formatYear
    simp only
    split
    · rw [byteLen_digits]
    · rw [← List.singleton_append, Text.byteLen_append, byteLen_digits]
      split_ifs <;> omega
  unfold NaiveDateTime.format NaiveDate.format NaiveTime.format
  rw [← List.singleton_append]
  simp only [Text.byteLen_append, byteLen_digits]
  omega

theorem stripSuffix_dateTimeFormat (dt : NaiveDateTime) :
    Text.stripSuffix ['Z'] dt.format = none := by
  unfold Text.stripSuffix
  rw [if_neg]
  intro h
  obtain ⟨r, hr⟩ := List.isSuffixOf_iff_suffix.1 h
  have hfmt : dt.format =
      dt.date.format ++ 'T' :: (digits 2 dt.time.hour ++ digits 2 dt.time.minute ++
        digits 1 (dt.time.second / 10)) ++ [digitChar dt.time.second] := by
    unfold NaiveDateTime.format NaiveTime.format
    rw [show digits 2 dt.time.second =
      digits 1 (dt.time.second / 10) ++ [digitChar dt.time.second] from rfl]
    simp
  rw [hfmt] at hr
  have hz : 'Z' = digitChar dt.time.second := by
    simpa using (List.append_inj' hr rfl).2
  have hd := isDigit_digitChar dt.time.second
  rw [← hz] at hd
  exact absurd hd (by decide)

theorem parseTime_day (name : List Char) {d : NaiveDate} (h₀ : 0 ≤ d.year) (h₁ : d.year ≤ 9999) :
    parseTime ⟨name, [("VALUE".toList, "DATE".toList)], d.format⟩ = some (.day d) := by
  have hparam : (Property.mk name [("VALUE".toList, "DATE".toList)] d.format).param
      "VALUE".toList = some "DATE".toList := rfl
  have hdate : Text.eqIgnoreAsciiCase "DATE".toList "DATE".toList = true := by decide
  unfold parseTime
  simp only [hparam, Option.any_some, hdate, Bool.true_or, ↓reduceIte,
    Text.trim_of_solid fun c hc => not_whitespace_of_mem_format hc, NaiveDate.parse_format h₀ h₁,
    Option.map_some]

theorem parseTime_floating (name : List Char) {dt : NaiveDateTime} (h₀ : 0 ≤ dt.date.year)
    (h₁ : dt.date.year ≤ 9999) :
    parseTime ⟨name, [], dt.format⟩ = some (.floating dt) := by
  have htrim : Text.trim dt.format = dt.format :=
    Text.trim_of_solid fun c hc => not_whitespace_of_mem_dateTimeFormat hc
  unfold parseTime
  simp only [htrim]
  rw [if_neg, stripSuffix_dateTimeFormat, NaiveDateTime.parse_format h₀ h₁]
  · rfl
  · simp [Property.param, byteLen_dateTimeFormat]

/-! ### The event read back -/

/-- The start the surface asked for. -/
def NewEvent.startTime (e : NewEvent) : CalTime :=
  match e.start with
  | none => .day e.date
  | some t => .floating ⟨e.date, t⟩

/-- The end, given with a start of its own. -/
def NewEvent.endTime (e : NewEvent) : Option CalTime :=
  match e.start, e.end with
  | some _, some t => some (.floating ⟨e.date, t⟩)
  | _, _ => none

/-- The event as the reader has it, its texts cut at their ends. -/
def NewEvent.readBack (e : NewEvent) : Event :=
  { uid := (noCr e.uid).rdropWhile lost
    summary := (noCr e.summary).rdropWhile lost
    start := e.startTime
    «end» := e.endTime
    location := (noCr e.location).rdropWhile lost
    rrule := e.rrule
    exdates := []
    alarms := [] }

variable {e : NewEvent} {p : Pending}

/-- A property line inside the event, read and kept. -/
theorem readLines_property (name : List Char) {head v : List Char} {p' : Pending}
    (ls : List (List Char)) (hn : PropertyName name) (hhead : head = name ++ [':'])
    (h : readEvent ⟨name, [], Text.trimEnd v⟩ p = p') :
    readLines ⟨[], some p, none⟩ ((head ++ v) :: ls) = readLines ⟨[], some p', none⟩ ls := by
  refine readLines_of_readLine ?_
  rw [hhead, List.append_assoc, List.singleton_append, hn.trim_line, hn.readLine_eq, h]

theorem readLines_timeLines (hyear : 1 ≤ e.date.year ∧ e.date.year ≤ 9999)
    (ls : List (List Char)) :
    readLines ⟨[], some p, none⟩ (timeLines e ++ ls) =
      readLines ⟨[], some { p with start := some e.startTime,
                                   «end» := e.endTime.or p.end }, none⟩ ls := by
  have hsolid := fun t => Text.trimEnd_of_solid
    (fun c (hc : c ∈ (NaiveDateTime.mk e.date t).format) =>
      not_whitespace_of_mem_dateTimeFormat hc)
  have hfloat : ∀ name t, parseTime ⟨name, [], (NaiveDateTime.mk e.date t).format⟩ =
      some (.floating ⟨e.date, t⟩) := fun name t =>
    parseTime_floating name (show 0 ≤ e.date.year by omega) hyear.2
  unfold timeLines NewEvent.startTime NewEvent.endTime
  cases e.start with
  | none =>
    refine readLines_of_readLine ?_
    have hn : PropertyName "DTSTART".toList := by decide
    have hline : "DTSTART;VALUE=DATE:".toList ++ e.date.format =
        "DTSTART".toList ++ (";VALUE=DATE:".toList ++ e.date.format) := rfl
    rw [hline, hn.trim_date, Text.trimEnd_of_solid fun c hc => not_whitespace_of_mem_format hc,
      hn.readLine_date, ← parseTime_day "DTSTART".toList (by omega) hyear.2]
    rfl
  | some t =>
    have hstart : readEvent ⟨"DTSTART".toList, [],
        Text.trimEnd (NaiveDateTime.mk e.date t).format⟩ p =
          { p with start := some (.floating ⟨e.date, t⟩) } := by
      rw [hsolid, ← hfloat "DTSTART".toList t]
      rfl
    cases e.end with
    | none => exact readLines_property "DTSTART".toList ls (by decide) (by decide) hstart
    | some t' =>
      have hend : readEvent ⟨"DTEND".toList, [],
          Text.trimEnd (NaiveDateTime.mk e.date t').format⟩
            { p with start := some (.floating ⟨e.date, t⟩) } =
          { p with start := some (.floating ⟨e.date, t⟩),
                   «end» := some (.floating ⟨e.date, t'⟩) } := by
        rw [hsolid, ← hfloat "DTEND".toList t']
        rfl
      exact (readLines_property "DTSTART".toList _ (by decide) (by decide) hstart).trans
        (readLines_property "DTEND".toList ls (by decide) (by decide) hend)

theorem readLines_uid (ls : List (List Char)) :
    readLines ⟨[], some p, none⟩ (("UID:".toList ++ escape e.uid) :: ls) =
      readLines ⟨[], some { p with ev.uid := (noCr e.uid).rdropWhile lost }, none⟩ ls := by
  rw [← unescape_trimEnd_escape]
  exact readLines_property "UID".toList ls (by decide) (by decide) rfl

theorem readLines_stamp (ls : List (List Char)) :
    readLines ⟨[], some p, none⟩ (("DTSTAMP:".toList ++ (e.stamp.format ++ ['Z'])) :: ls) =
      readLines ⟨[], some p, none⟩ ls :=
  readLines_property "DTSTAMP".toList ls (by decide) (by decide) rfl

theorem readLines_summary (ls : List (List Char)) :
    readLines ⟨[], some p, none⟩ (("SUMMARY:".toList ++ escape e.summary) :: ls) =
      readLines ⟨[], some { p with ev.summary := (noCr e.summary).rdropWhile lost }, none⟩ ls := by
  rw [← unescape_trimEnd_escape]
  exact readLines_property "SUMMARY".toList ls (by decide) (by decide) rfl

/-- What is written of the location, read into an event that has none yet. -/
theorem readLines_location (hp : p.ev.location = []) (ls : List (List Char)) :
    readLines ⟨[], some p, none⟩
        ((if e.location = [] then [] else ["LOCATION:".toList ++ escape e.location]) ++ ls) =
      readLines ⟨[], some { p with ev.location := (noCr e.location).rdropWhile lost }, none⟩ ls := by
  by_cases h : e.location = []
  · rw [if_pos h, h]
    have hsame : ({ p with ev.location := (noCr []).rdropWhile lost } : Pending) = p := by
      rw [show (noCr []).rdropWhile lost = p.ev.location by rw [hp]; rfl]
    rw [hsame, List.nil_append]
  · rw [if_neg h, ← unescape_trimEnd_escape]
    exact readLines_property "LOCATION".toList ls (by decide) (by decide) rfl

theorem readLines_rrule (hp : p.ev.rrule = none)
    (hrule : ∀ rule, e.rrule = some rule → Text.trim rule = rule) (ls : List (List Char)) :
    readLines ⟨[], some p, none⟩ (ruleLines e ++ ls) =
      readLines ⟨[], some { p with ev.rrule := e.rrule }, none⟩ ls := by
  unfold ruleLines
  cases h : e.rrule with
  | none =>
    have hsame : ({ p with ev.rrule := none } : Pending) = p := by rw [← hp]
    rw [hsame, List.nil_append]
  | some rule =>
    have htrim := hrule rule h
    have hread : readEvent ⟨"RRULE".toList, [], Text.trimEnd rule⟩ p =
        { p with ev.rrule := some rule } := by
      rw [Text.trimEnd_of_trim_eq_self htrim]
      exact congrArg (fun v => { p with ev.rrule := some v }) htrim
    exact readLines_property "RRULE".toList ls (by decide) (by decide) hread

/-- The machine over the writer's lines. -/
theorem readLines_eventLines (hyear : 1 ≤ e.date.year ∧ e.date.year ≤ 9999)
    (hrule : ∀ rule, e.rrule = some rule → Text.trim rule = rule) :
    readLines .new (eventLines e ++ [[]]) = some ⟨[e.readBack], none, none⟩ := by
  unfold eventLines
  simp only [List.append_assoc, List.cons_append, List.nil_append]
  have hcal : readLine .new (Text.trim "BEGIN:VCALENDAR".toList) = some .new := by decide
  have hver : readLine .new (Text.trim "VERSION:2.0".toList) = some .new := by decide
  have hprod : readLine .new (Text.trim "PRODID:-//Arlen//Calendar//EN".toList) = some .new := by
    decide
  have hbegin : readLine .new (Text.trim "BEGIN:VEVENT".toList) =
      some ⟨[], some .new, none⟩ := by decide
  rw [readLines_of_readLine hcal, readLines_of_readLine hver, readLines_of_readLine hprod,
    readLines_of_readLine hbegin, readLines_uid, readLines_stamp, readLines_timeLines hyear,
    readLines_summary, readLines_location rfl, readLines_rrule rfl hrule]
  -- the block closes, and the calendar's own end and the empty last line say nothing
  have hend : ∀ r, readLine r (Text.trim "END:VEVENT".toList) =
      if r.alarm.isSome then some (readProperty "END:VEVENT".toList r) else closeEvent r :=
    fun r => rfl
  have hclose : ∀ evs, readLines ⟨evs, none, none⟩ ["END:VCALENDAR".toList, []] =
      some ⟨evs, none, none⟩ := fun evs => rfl
  refine (readLines_of_readLine ?_).trans (hclose [e.readBack])
  rw [hend]
  unfold NewEvent.readBack closeEvent Pending.finish
  cases e.endTime <;> rfl

/-- The texts, the times and the rule come back as they were given, carriage returns
apart. -/
def ReadsBack (e : NewEvent) : Prop :=
  ∃ ev, parseEvents (vcalendar e) = some (.ok [ev]) ∧
    ev.uid = noCr e.uid ∧ ev.summary = noCr e.summary ∧ ev.location = noCr e.location ∧
    ev.start = e.startTime ∧ ev.end = e.endTime ∧ ev.rrule = e.rrule

/-- The text ends, carriage returns apart, in no white space but a line feed. -/
def EndsSolid (s : List Char) : Prop := ∀ c, (noCr s).getLast? = some c → lost c = false

instance (s : List Char) : Decidable (EndsSolid s) :=
  match h : (noCr s).getLast? with
  | none => isTrue (by rintro c hc; rw [h] at hc; cases hc)
  | some c =>
    decidable_of_iff (lost c = false)
      ⟨by rintro hl d hd; rw [h] at hd; cases hd; exact hl, fun hl => hl c h⟩

theorem rdropWhile_lost_eq_self_iff {s : List Char} :
    (noCr s).rdropWhile lost = noCr s ↔ EndsSolid s := by
  rw [List.rdropWhile_eq_self_iff]
  unfold EndsSolid
  constructor
  · intro h c hc
    have hne : noCr s ≠ [] := by
      rintro hnil
      rw [hnil] at hc
      cases hc
    rw [List.getLast?_eq_some_getLast hne, Option.some.injEq] at hc
    simpa [hc] using h hne
  · intro h hne
    simpa using h _ (List.getLast?_eq_some_getLast hne)

theorem parseEvents_vcalendar (hyear : 1 ≤ e.date.year ∧ e.date.year ≤ 9999)
    (hrule : ∀ rule, e.rrule = some rule → '\n' ∉ rule ∧ Text.trim rule = rule) :
    parseEvents (vcalendar e) = some (.ok [e.readBack]) := by
  have hlines := unfold_vcalendar (plain_eventLines fun rule hr => (hrule rule hr).1)
  have hcal : (eventLines e ++ [[]]).any isCalendarLine = true := by
    refine List.any_eq_true.2 ⟨"BEGIN:VCALENDAR".toList, ?_, by decide⟩
    obtain ⟨ls, h⟩ : ∃ ls, eventLines e = "BEGIN:VCALENDAR".toList :: ls := ⟨_, rfl⟩
    rw [h]
    exact List.mem_cons_self
  unfold parseEvents
  simp only [hlines, hcal, ↓reduceIte,
    readLines_eventLines hyear fun rule hr => (hrule rule hr).2, Option.map_some]

/-- What is written is read back exactly when none of the texts ends in white space. -/
theorem reads_back_iff (e : NewEvent) (hyear : 1 ≤ e.date.year ∧ e.date.year ≤ 9999)
    (hrule : ∀ rule, e.rrule = some rule → '\n' ∉ rule ∧ Text.trim rule = rule) :
    ReadsBack e ↔ EndsSolid e.uid ∧ EndsSolid e.summary ∧ EndsSolid e.location := by
  have hread := parseEvents_vcalendar hyear hrule
  rw [← rdropWhile_lost_eq_self_iff, ← rdropWhile_lost_eq_self_iff,
    ← rdropWhile_lost_eq_self_iff]
  constructor
  · rintro ⟨ev, hev, huid, hsummary, hlocation, _⟩
    rw [hread, Option.some.injEq, Except.ok.injEq, List.cons.injEq] at hev
    obtain ⟨rfl, _⟩ := hev
    exact ⟨huid, hsummary, hlocation⟩
  · rintro ⟨huid, hsummary, hlocation⟩
    exact ⟨e.readBack, hread, huid, hsummary, hlocation, rfl, rfl, rfl⟩

/-- A weekly lunch on the 2nd of March 2026. -/
theorem lunch_date : NaiveDate.minDay ≤ 739676 ∧ (739676 : Int) ≤ NaiveDate.maxDay := by decide

theorem lunch_start : 12 < 24 ∧ 30 < 60 ∧ 0 ≤ 60 := by decide

theorem lunch_end : 13 < 24 ∧ 0 < 60 ∧ 0 ≤ 60 := by decide

theorem lunch_stamp : 0 < 24 ∧ 0 < 60 ∧ 0 ≤ 60 := by decide

def lunch (summary : List Char) : NewEvent :=
  { uid := "lunch@arlen".toList, summary := summary, date := ⟨739676, lunch_date⟩,
    start := some ⟨12, 30, 0, lunch_start⟩, «end» := some ⟨13, 0, 0, lunch_end⟩,
    location := " upstairs, on the left".toList, rrule := some "FREQ=WEEKLY;BYDAY=MO".toList,
    stamp := ⟨.epoch, ⟨0, 0, 0, lunch_stamp⟩⟩ }

theorem lunch_rrule (summary : List Char) : ∀ rule, (lunch summary).rrule = some rule →
    '\n' ∉ rule ∧ Text.trim rule = rule := by
  intro rule h
  obtain rfl : "FREQ=WEEKLY;BYDAY=MO".toList = rule := Option.some.inj h
  decide

theorem reads_back_lunch : ReadsBack (lunch "Lunch; then \"rest\":\n\\o/".toList) :=
  (reads_back_iff _ (by decide) (lunch_rrule _)).2 (by decide)

/-- A summary that ends in a space comes back without it. -/
theorem trailing_space_lost :
    (1 ≤ (lunch "Lunch ".toList).date.year ∧ (lunch "Lunch ".toList).date.year ≤ 9999) ∧
      (∀ rule, (lunch "Lunch ".toList).rrule = some rule → '\n' ∉ rule ∧ Text.trim rule = rule) ∧
      ¬ ReadsBack (lunch "Lunch ".toList) := by
  refine ⟨by decide, lunch_rrule _, ?_⟩
  rintro ⟨ev, hev, _, hsummary, _⟩
  rw [parseEvents_vcalendar (by decide) (lunch_rrule _), Option.some.injEq, Except.ok.injEq,
    List.cons.injEq] at hev
  obtain ⟨rfl, _⟩ := hev
  exact absurd hsummary (by decide)

end Arlen.Calendar
