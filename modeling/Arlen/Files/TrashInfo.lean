import Arlen.Files.Error
import Arlen.Trash.Sidecar
import Mathlib.Data.List.DropRight

/-!
# Reading a trash sidecar

`trashinfo_bytes` and `parse_trashinfo` of `apps/files/core/src/ops.rs`. The trash
has two writers, this one and that of `contracts/freedesktop-trash`, and one
reader; whatever the path, the reader gives it back, and the file keeps its three
lines.
-/

namespace Arlen.Files

open Arlen.Lib Arlen.Trash

/-! ## Writing -/

/-- The bytes outside `TRASH_PATH_SET`: alphanumerics and `/`, `-`, `_`, `.`, `~`. -/
def trashPathKeeps (b : UInt8) : Bool :=
  let c := Char.ofNat b.toNat
  c.isAlphanum || c = '/' || c = '-' || c = '_' || c = '.' || c = '~'

/-- `{:0w$}` of a signed number: the sign counts towards the width. -/
def signPadded (w : Nat) (i : Int) : List Char :=
  if i < 0 then '-' :: zeroPadded (w - 1) i.natAbs else zeroPadded w i.natAbs

def formatDeletionDate (now : CivilTime) : List Char :=
  signPadded 4 now.year ++ '-' :: zeroPadded 2 now.month ++ '-' :: zeroPadded 2 now.day ++
    'T' :: zeroPadded 2 now.hour ++ ':' :: zeroPadded 2 now.minute ++
    ':' :: zeroPadded 2 now.second

def trashinfoBytes (originalAbs : Bytes) (now : CivilTime) : Bytes :=
  utf8 "[Trash Info]\nPath=" ++ percentEncode trashPathKeeps originalAbs ++
    utf8 "\nDeletionDate=" ++ utf8 (String.ofList (formatDeletionDate now)) ++ utf8 "\n"

/-! ## Reading -/

structure TrashInfo where
  originalPath : Bytes
  deletionDate : String
deriving DecidableEq, Repr

/-- `u8::is_ascii_whitespace`. -/
def isAsciiWhitespace (b : UInt8) : Bool :=
  b = 0x20 || b = 0x09 || b = 0x0a || b = 0x0c || b = 0x0d

def trimAscii (b : Bytes) : Bytes := (b.dropWhile isAsciiWhitespace).rdropWhile isAsciiWhitespace

/-- What the lines read so far have given. -/
structure Fields where
  headerSeen : Bool
  pathValue : Option Bytes
  dateValue : Option String
deriving DecidableEq

def invalid (message : String) : OpError := .io (.custom .invalidData message)

/-- One turn of the loop over the lines. -/
def readLine (fields : Fields) (raw : Bytes) : Except OpError Fields :=
  let line := trimAscii raw
  if line = [] ∨ line.head? = some 0x23 then .ok fields
  else if line = utf8 "[Trash Info]" then .ok { fields with headerSeen := true }
  else if 0x3d ∈ line then
    -- the key ends at the first `=`
    let key := line.takeWhile (· ≠ 0x3d)
    let value := line.drop (key.length + 1)
    if key = utf8 "Path" then
      if fields.pathValue.isSome then .error (invalid "trashinfo has duplicate Path")
      else .ok { fields with pathValue := some value }
    else if key = utf8 "DeletionDate" then
      if fields.dateValue.isSome then .error (invalid "trashinfo has duplicate DeletionDate")
      else .ok { fields with dateValue := some (fromUtf8Lossy value) }
    else .ok fields
  else .ok fields

def parseTrashinfo (bytes : Bytes) : Except OpError TrashInfo := do
  let fields ← (bytes.splitOn 0x0a).foldlM readLine ⟨false, none, none⟩
  if !fields.headerSeen then .error (invalid "trashinfo missing [Trash Info] header")
  else
    match fields.pathValue with
    | none => .error (invalid "trashinfo missing Path")
    | some value => .ok ⟨percentDecode value, fields.dateValue.getD ""⟩

/-! ## Lines -/

/-- Bytes that trimming and the line split leave alone. -/
def Solid (b : Bytes) : Prop := ∀ x ∈ b, isAsciiWhitespace x = false

instance (b : Bytes) : Decidable (Solid b) := inferInstanceAs (Decidable (∀ x ∈ b, _))

variable {b key value enc date : Bytes} {fields : Fields}

theorem Solid.not_mem_newline (h : Solid b) : (0x0a : UInt8) ∉ b := fun hm =>
  absurd (h _ hm) (by decide)

theorem trimAscii_of_solid (h : Solid b) : trimAscii b = b := by
  have hdrop : b.dropWhile isAsciiWhitespace = b := by
    cases b with
    | nil => rfl
    | cons x b => rw [List.dropWhile_cons_of_neg (by simp [h x List.mem_cons_self])]
  unfold trimAscii
  rw [hdrop, List.rdropWhile_eq_self_iff]
  intro hne
  simp [h _ (List.getLast_mem hne)]

theorem takeWhile_key (h : (0x3d : UInt8) ∉ key) :
    (key ++ 0x3d :: value).takeWhile (· ≠ 0x3d) = key := by
  have hall : ∀ x ∈ key, decide (x ≠ 0x3d) = true := by
    intro x hx
    refine decide_eq_true ?_
    rintro rfl
    exact h hx
  rw [List.takeWhile_append_of_pos hall, List.takeWhile_cons_of_neg (by simp), List.append_nil]

/-- What a line `key=value` does. -/
def readKey (fields : Fields) (key value : Bytes) : Except OpError Fields :=
  if key = utf8 "Path" then
    if fields.pathValue.isSome then .error (invalid "trashinfo has duplicate Path")
    else .ok { fields with pathValue := some value }
  else if key = utf8 "DeletionDate" then
    if fields.dateValue.isSome then .error (invalid "trashinfo has duplicate DeletionDate")
    else .ok { fields with dateValue := some (fromUtf8Lossy value) }
  else .ok fields

theorem readLine_key (hne : key ≠ []) (hhead : key.head? ≠ some 0x23) (hk : Solid key)
    (heq : (0x3d : UInt8) ∉ key) (hv : Solid value) :
    readLine fields (key ++ 0x3d :: value) = readKey fields key value := by
  have hsolid : Solid (key ++ 0x3d :: value) := by
    intro x hx
    rcases List.mem_append.1 hx with hx | hx
    · exact hk x hx
    · rcases List.mem_cons.1 hx with rfl | hx
      · decide
      · exact hv x hx
  have hheader : key ++ 0x3d :: value ≠ utf8 "[Trash Info]" := by
    intro h
    have hm : (0x3d : UInt8) ∈ key ++ 0x3d :: value := by simp
    rw [h] at hm
    exact absurd hm (by decide)
  have hstart : ¬ (key ++ 0x3d :: value = [] ∨ (key ++ 0x3d :: value).head? = some 0x23) := by
    rw [List.head?_append_of_ne_nil _ hne]
    simp [hhead]
  have hmem : (0x3d : UInt8) ∈ key ++ 0x3d :: value := by simp
  have hvalue : (key ++ 0x3d :: value).drop (key.length + 1) = value := by simp
  unfold readLine
  rw [trimAscii_of_solid hsolid]
  simp only [if_neg hstart, if_neg hheader, if_pos hmem, takeWhile_key heq, hvalue]
  rfl

/-- A line `Path=value`. -/
theorem readLine_path (hv : Solid value) (h : fields.pathValue = none) :
    readLine fields (utf8 "Path=" ++ value) = .ok { fields with pathValue := some value } := by
  have hline : utf8 "Path=" ++ value = utf8 "Path" ++ 0x3d :: value := rfl
  rw [hline, readLine_key (by decide) (by decide) (by decide) (by decide) hv]
  unfold readKey
  rw [if_pos rfl, h]
  rfl

/-- A line `DeletionDate=value`. -/
theorem readLine_date (hv : Solid value) (h : fields.dateValue = none) :
    readLine fields (utf8 "DeletionDate=" ++ value) =
      .ok { fields with dateValue := some (fromUtf8Lossy value) } := by
  have hline : utf8 "DeletionDate=" ++ value = utf8 "DeletionDate" ++ 0x3d :: value := rfl
  rw [hline, readLine_key (by decide) (by decide) (by decide) (by decide) hv]
  unfold readKey
  rw [if_neg (by decide), if_pos rfl, h]
  rfl

/-- The file of a header line, a path line and a date line. -/
def sidecar (enc date : Bytes) : Bytes :=
  utf8 "[Trash Info]\nPath=" ++ enc ++ utf8 "\nDeletionDate=" ++ date ++ utf8 "\n"

theorem splitOn_sidecar (he : Solid enc) (hd : Solid date) :
    (sidecar enc date).splitOn 0x0a =
      [utf8 "[Trash Info]", utf8 "Path=" ++ enc, utf8 "DeletionDate=" ++ date, []] := by
  have hfile : sidecar enc date = utf8 "[Trash Info]" ++ 0x0a :: ((utf8 "Path=" ++ enc) ++
      0x0a :: ((utf8 "DeletionDate=" ++ date) ++ 0x0a :: [])) := by
    unfold sidecar
    simp only [List.append_assoc]
    rfl
  have hpath : (0x0a : UInt8) ∉ utf8 "Path=" ++ enc := fun hm => by
    rcases List.mem_append.1 hm with hm | hm
    · exact absurd hm (by decide)
    · exact he.not_mem_newline hm
  have hdate : (0x0a : UInt8) ∉ utf8 "DeletionDate=" ++ date := fun hm => by
    rcases List.mem_append.1 hm with hm | hm
    · exact absurd hm (by decide)
    · exact hd.not_mem_newline hm
  rw [hfile, List.splitOn_append_cons_self_of_not_mem (by decide),
    List.splitOn_append_cons_self_of_not_mem hpath,
    List.splitOn_append_cons_self_of_not_mem hdate, List.splitOn_nil]

/-- Three lines read back as a path and a date. -/
theorem parseTrashinfo_sidecar (he : Solid enc) (hd : Solid date) :
    parseTrashinfo (sidecar enc date) = .ok ⟨percentDecode enc, fromUtf8Lossy date⟩ := by
  have hheader : readLine ⟨false, none, none⟩ (utf8 "[Trash Info]") = .ok ⟨true, none, none⟩ := by
    decide
  have hpath : readLine ⟨true, none, none⟩ (utf8 "Path=" ++ enc) = .ok ⟨true, some enc, none⟩ :=
    readLine_path he rfl
  have hdate : readLine ⟨true, some enc, none⟩ (utf8 "DeletionDate=" ++ date) =
      .ok ⟨true, some enc, some (fromUtf8Lossy date)⟩ := readLine_date hd rfl
  unfold parseTrashinfo
  rw [splitOn_sidecar he hd]
  simp only [List.foldlM_cons, hheader, hpath, hdate, bind, Except.bind]
  rfl

/-! ## The two writers -/

theorem trashPathKeeps_eq : trashPathKeeps = passes := by
  funext x
  rw [Bool.eq_iff_iff]
  simp only [trashPathKeeps, passes, Bool.or_eq_true, decide_eq_true_eq]
  tauto

theorem isAsciiWhitespace_of_passes {x : UInt8} (h : passes x = true) :
    isAsciiWhitespace x = false := by
  refine Bool.eq_false_iff.2 fun hw => ?_
  simp only [isAsciiWhitespace, Bool.or_eq_true, decide_eq_true_eq] at hw
  rcases hw with (((rfl | rfl) | rfl) | rfl) | rfl <;> exact absurd h (by decide)

theorem isAsciiWhitespace_of_gt {x : UInt8} (h : 0x20 < x.toNat) : isAsciiWhitespace x = false := by
  refine Bool.eq_false_iff.2 fun hw => ?_
  simp only [isAsciiWhitespace, Bool.or_eq_true, decide_eq_true_eq] at hw
  rcases hw with (((rfl | rfl) | rfl) | rfl) | rfl <;> exact absurd h (by decide)

theorem solid_percentEncode (path : Bytes) : Solid (percentEncode passes path) := by
  intro x hx
  rcases mem_percentEncode hx with h | rfl | ⟨n, hn, rfl⟩
  · exact isAsciiWhitespace_of_passes h
  · decide
  · refine isAsciiWhitespace_of_gt ?_
    rw [toNat_upperHex hn]
    split <;> omega

theorem mem_iso {t : CivilTime} {c : Char} (h : c ∈ t.iso) : 0x20 < c.toNat ∧ c.toNat < 128 := by
  have hdigit : c.isDigit = true → 0x20 < c.toNat ∧ c.toNat < 128 := by
    intro hc
    simp only [Char.isDigit, Bool.and_eq_true, decide_eq_true_eq] at hc
    have h₁ : 48 ≤ c.toNat := hc.1
    have h₂ : c.toNat ≤ 57 := hc.2
    omega
  simp only [CivilTime.iso, List.append_assoc, List.cons_append, List.mem_append,
    List.mem_cons] at h
  rcases h with h | rfl | h | rfl | h | rfl | h | rfl | h | rfl | h
  · exact hdigit (isDigit_of_mem_fixedDigits h)
  · decide
  · exact hdigit (isDigit_of_mem_fixedDigits h)
  · decide
  · exact hdigit (isDigit_of_mem_fixedDigits h)
  · decide
  · exact hdigit (isDigit_of_mem_fixedDigits h)
  · decide
  · exact hdigit (isDigit_of_mem_fixedDigits h)
  · decide
  · exact hdigit (isDigit_of_mem_fixedDigits h)

theorem solid_iso (t : CivilTime) : Solid (utf8 (String.ofList t.iso)) := by
  have hascii : ∀ c ∈ (String.ofList t.iso).toList, c.toNat < 128 := by
    intro c hc
    rw [String.toList_ofList] at hc
    exact (mem_iso hc).2
  intro x hx
  rw [utf8_of_ascii hascii, String.toList_ofList, List.mem_map] at hx
  obtain ⟨c, hc, rfl⟩ := hx
  refine isAsciiWhitespace_of_gt ?_
  have h := mem_iso hc
  rw [UInt8.toNat_ofNat', Nat.mod_eq_of_lt (by omega)]
  exact h.1

theorem formatDeletionDate_eq {now : CivilTime} (h : now.FourDigits) :
    formatDeletionDate now = now.iso := by
  obtain ⟨h₁, h₂, h₃⟩ := now.time
  obtain ⟨hy₀, hy₁⟩ := h
  have hyear : now.year.natAbs = now.year.toNat := by omega
  unfold formatDeletionDate signPadded CivilTime.iso
  rw [if_neg (by omega), hyear, zeroPadded_eq (by decide) (by omega),
    zeroPadded_eq (by decide) now.month_lt, zeroPadded_eq (by decide) now.day_lt,
    zeroPadded_eq (by decide) (by omega), zeroPadded_eq (by decide) (by omega),
    zeroPadded_eq (by decide) (by omega)]

/-- A file says where an entry was and when it was deleted: the reader gives the
path and the date back, and the file is a header line, a line with the path and
a line with the date, the path line being the only one the path has a part in. -/
structure Records (path : Bytes) (time : CivilTime) (file : Bytes) : Prop where
  parsed : parseTrashinfo file = .ok ⟨path, String.ofList time.iso⟩
  lines : file.splitOn 0x0a =
    [utf8 "[Trash Info]", utf8 "Path=" ++ percentEncode passes path,
      utf8 "DeletionDate=" ++ utf8 (String.ofList time.iso), []]

theorem records_sidecar (path : Bytes) (time : CivilTime) :
    Records path time
      (sidecar (percentEncode passes path) (utf8 (String.ofList time.iso))) where
  parsed := by
    have hdecode := percentDecode_percentEncode (by decide : passes 0x25 = false) path []
    rw [List.append_nil, percentDecode, List.append_nil] at hdecode
    have hdate : fromUtf8Lossy (utf8 (String.ofList time.iso)) = String.ofList time.iso := by
      refine fromUtf8Lossy_utf8 fun c hc => ?_
      rw [String.toList_ofList] at hc
      exact (mem_iso hc).2
    rw [parseTrashinfo_sidecar (solid_percentEncode path) (solid_iso time), hdecode, hdate]
  lines := splitOn_sidecar (solid_percentEncode path) (solid_iso time)

theorem records_trashinfoBytes (path : Bytes) {now : CivilTime} (h : now.FourDigits) :
    Records path now (trashinfoBytes path now) := by
  have hfile : trashinfoBytes path now =
      sidecar (percentEncode passes path) (utf8 (String.ofList now.iso)) := by
    unfold trashinfoBytes sidecar
    rw [trashPathKeeps_eq, formatDeletionDate_eq h]
  rw [hfile]
  exact records_sidecar path now

theorem records_freedesktop (path : String) {secs : Int} (h : (CivilTime.ofSeconds secs).FourDigits) :
    Records (utf8 path) (.ofSeconds secs) (Trash.trashinfoBytes path secs) := by
  have hdate := utcIso8601_seconds h
  rw [CivilTime.seconds_ofSeconds] at hdate
  have hfile : Trash.trashinfoBytes path secs = sidecar (percentEncode passes (utf8 path))
      (utf8 (String.ofList (CivilTime.ofSeconds secs).iso)) := by
    unfold Trash.trashinfoBytes sidecar
    rw [utf8_append, utf8_append, utf8_append, utf8_append, utf8_percentEncodePath, hdate]
  rw [hfile]
  exact records_sidecar (utf8 path) (.ofSeconds secs)

/-- **Both writers of a sidecar agree with its reader**, for every path and every
time in a year of four digits. -/
theorem sidecar_reads_back (path : Bytes) (now : CivilTime) (secs : Int)
    (hnow : now.FourDigits) (hsecs : (CivilTime.ofSeconds secs).FourDigits) :
    Records path now (trashinfoBytes path now) ∧
      ∀ p : String, utf8 p = path →
        Records path (.ofSeconds secs) (Trash.trashinfoBytes p secs) := by
  refine ⟨records_trashinfoBytes path hnow, ?_⟩
  rintro p rfl
  exact records_freedesktop p hsecs

/-- A path that looks like the file's own syntax: a line feed, `Path=`, a header. -/
theorem sidecar_reads_back_hostile :
    Records (utf8 "/tmp/a\nPath=%2F[Trash Info]") (.ofSeconds 1767225599)
        (trashinfoBytes (utf8 "/tmp/a\nPath=%2F[Trash Info]") (.ofSeconds 1767225599)) ∧
      ∀ p : String, utf8 p = utf8 "/tmp/a\nPath=%2F[Trash Info]" →
        Records (utf8 "/tmp/a\nPath=%2F[Trash Info]") (.ofSeconds 1767225599)
          (Trash.trashinfoBytes p 1767225599) :=
  sidecar_reads_back _ _ _ (by decide) (by decide)

end Arlen.Files
