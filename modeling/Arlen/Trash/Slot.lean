import Arlen.Lib.FileTree
import Arlen.Lib.Str
import Arlen.Lib.Utf8

/-!
# Trash slots

The names `trash_into_recording` tries (`contracts/freedesktop-trash/src/lib.rs`),
the paths a name stands for, and the `.trashinfo` sidecar.
-/

namespace Arlen.Trash

open Arlen.Lib

/-- A file name, as `file_name()` of a path gives it. -/
structure FileName where
  name : String
  proper : name ≠ "" ∧ name ≠ "." ∧ name ≠ ".." ∧ '/' ∉ name.toList

/-- The most trash names to try before giving up. -/
def maxTrashDedup : Nat := 10000

/-- The `n`-th candidate name: the base, then `<stem>.<n>.<ext>`, or `<base>.<n>`
without an extension. A leading-dot file has none. -/
def dedupName (base : String) (n : Nat) : String :=
  if n = 0 then base
  else
    match rsplitOnce base '.' with
    | some (stem, ext) =>
      if stem ≠ "" then stem ++ "." ++ toString n ++ "." ++ ext else base ++ "." ++ toString n
    | none => base ++ "." ++ toString n

example : dedupName "notes.md" 2 = "notes.2.md" ∧ dedupName ".bashrc" 1 = ".bashrc.1" := by decide

def filesDir (trash : FilePath) : FilePath := trash ++ ["files"]

def infoDir (trash : FilePath) : FilePath := trash ++ ["info"]

/-- `files/<name>`. -/
def trashedPath (trash : FilePath) (name : String) : FilePath := filesDir trash ++ [name]

/-- `info/<name>.trashinfo`. -/
def infoPath (trash : FilePath) (name : String) : FilePath :=
  infoDir trash ++ [name ++ ".trashinfo"]

/-- `CanonicalPath::new`: an absolute path with a component, none of them empty or
a traversal. -/
def canonical (p : FilePath) : Bool :=
  !p.isEmpty && p.all fun comp => comp ≠ "" && comp ≠ "." && comp ≠ ".."

/-! ## The sidecar -/

def hexDigit (n : Nat) : Char := if n < 10 then Char.ofNat (48 + n) else Char.ofNat (55 + n)

/-- Unreserved bytes and `/` pass through, every other byte becomes `%XX`. -/
def percentEncodePath (path : String) : String :=
  String.ofList ((utf8 path).flatMap fun b =>
    let c := Char.ofNat b.toNat
    if c.isAlphanum || c = '-' || c = '.' || c = '_' || c = '~' || c = '/' then [c]
    else ['%', hexDigit (b.toNat / 16), hexDigit (b.toNat % 16)])

/-- The civil date of a day since the Unix epoch. -/
def civilFromDays (days : Int) : Int × Int × Int :=
  let z := days + 719468
  let era := (if 0 ≤ z then z else z - 146096).tdiv 146097
  let doe := z - era * 146097
  let yoe := (doe - doe.tdiv 1460 + doe.tdiv 36524 - doe.tdiv 146096).tdiv 365
  let y := yoe + era * 400
  let doy := doe - (365 * yoe + yoe.tdiv 4 - yoe.tdiv 100)
  let mp := (5 * doy + 2).tdiv 153
  let d := doy - (153 * mp + 2).tdiv 5 + 1
  let m := if mp < 10 then mp + 3 else mp - 9
  (if m ≤ 2 then y + 1 else y, m, d)

/-- A decimal padded with zeros to a width. -/
def padded (width : Nat) (i : Int) : String :=
  let digits := toString i
  String.ofList (List.replicate (width - digits.length) '0') ++ digits

/-- `YYYY-MM-DDThh:mm:ss` of a time in seconds since the Unix epoch. -/
def utcIso8601 (secs : Int) : String :=
  let days := secs / 86400
  let rem := secs % 86400
  let (y, mo, d) := civilFromDays days
  padded 4 y ++ "-" ++ padded 2 mo ++ "-" ++ padded 2 d ++ "T" ++ padded 2 (rem / 3600) ++ ":" ++
    padded 2 (rem % 3600 / 60) ++ ":" ++ padded 2 (rem % 60)

/-- The `.trashinfo` body for a file trashed from `originalPath` at `secs`. -/
def trashinfoBytes (originalPath : String) (secs : Int) : Bytes :=
  utf8 ("[Trash Info]\nPath=" ++ percentEncodePath originalPath ++ "\nDeletionDate=" ++
    utcIso8601 secs ++ "\n")

/-! ## Where the slots lie -/

/-- In `files/` or `info/`. -/
def InTrash (trash p : FilePath) : Prop := filesDir trash <+: p ∨ infoDir trash <+: p

/-- The path neither is nor lies below `files/` or `info/`. -/
def Outside (trash p : FilePath) : Prop := ¬ InTrash trash p

instance (trash p : FilePath) : Decidable (InTrash trash p) :=
  inferInstanceAs (Decidable (_ ∨ _))

instance (trash p : FilePath) : Decidable (Outside trash p) :=
  inferInstanceAs (Decidable (¬ _))

variable {trash p q src : FilePath} {name name' : String}

theorem inTrash_infoPath : InTrash trash (infoPath trash name) := .inr (List.prefix_append _ _)

theorem infoPath_inj (h : infoPath trash name = infoPath trash name') : name = name' := by
  have h' := List.append_cancel_left h
  exact (String.append_left_inj _).1 (List.singleton_inj.1 h')

theorem trashedPath_inj (h : trashedPath trash name = trashedPath trash name') : name = name' :=
  List.singleton_inj.1 (List.append_cancel_left h)

/-- `files/` and `info/` are apart. -/
theorem not_files_of_info (h : infoDir trash <+: p) : ¬ filesDir trash <+: p := by
  intro hf
  have heq := List.prefix_of_prefix_length_le hf h (by simp [filesDir, infoDir])
  have heq' := heq.eq_of_length (by simp [filesDir, infoDir])
  exact absurd (List.singleton_inj.1 (List.append_cancel_left heq')) (by decide)

theorem not_trashedPath_prefix_info (h : infoDir trash <+: p) : ¬ trashedPath trash name <+: p :=
  fun ht => not_files_of_info h ((List.prefix_append _ _).trans ht)

/-- Two slots of `files/` with a common descendant are one. -/
theorem trashedPath_eq_of_isPrefix (h : trashedPath trash name <+: p)
    (h' : trashedPath trash name' <+: p) : name = name' := by
  have heq := List.prefix_of_prefix_length_le h h' (by simp [trashedPath])
  exact trashedPath_inj (heq.eq_of_length (by simp [trashedPath]))

theorem infoPath_eq_of_isPrefix (h : infoPath trash name <+: p)
    (h' : infoPath trash name' <+: p) : name = name' := by
  have heq := List.prefix_of_prefix_length_le h h' (by simp [infoPath])
  exact infoPath_inj (heq.eq_of_length (by simp [infoPath]))

/-- A source outside the trash that a rename into `files/` accepts has nothing of
the trash below it: it would have to be an ancestor of its own destination. -/
theorem not_prefix_of_inTrash (hout : Outside trash src) (hdst : ¬ src <+: trashedPath trash name)
    (hp : InTrash trash p) : ¬ src <+: p := by
  have htrash : ¬ src <+: trash := fun h =>
    hdst (h.trans ((List.prefix_append _ _).trans (List.prefix_append _ _)))
  intro hsrc
  rcases hp with hp | hp
  · rcases List.prefix_or_prefix_of_prefix hsrc hp with h | h
    · exact hdst (h.trans (List.prefix_append _ _))
    · exact hout (.inl h)
  · rcases List.prefix_or_prefix_of_prefix hsrc hp with h | h
    · rcases Tree.prefix_entry h with h | h
      · exact hout (.inr (h ▸ List.prefix_rfl))
      · exact htrash h
    · exact hout (.inr h)

end Arlen.Trash
