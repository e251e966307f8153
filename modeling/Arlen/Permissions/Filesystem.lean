import Arlen.Lib.Path

/-!
# Filesystem grants

`FilesystemPermissions` of `sdk/permissions/src/lib.rs`: what a profile's `custom`
and `read_only` paths bind. The guards compare components, so that `.`, repeated
separators and a trailing one make no difference, but `..` does: `/home/../etc` is
neither `/etc` nor an ancestor of the home directory.
-/

namespace Arlen.Permissions

open Arlen.Lib Arlen.Lib.Path

structure FilesystemPermissions where
  home : Bool
  documents : Bool
  downloads : Bool
  pictures : Bool
  music : Bool
  videos : Bool
  custom : List PathBuf
  readOnly : List PathBuf
deriving DecidableEq

/-- The resolved XDG user directories. -/
structure UserDirs where
  documents : PathBuf
  downloads : PathBuf
  pictures : PathBuf
  music : PathBuf
  videos : PathBuf
deriving DecidableEq

def forbiddenFsRoots : List String :=
  ["/", "/etc", "/usr", "/var", "/boot", "/bin", "/sbin", "/lib", "/lib64", "/proc", "/sys",
    "/dev", "/run", "/root"]

/-- `str::replace`, from a place where the characters of a match still to be
skipped are `skip`. -/
def replaceFrom (pattern by' : List Char) : List Char → Nat → List Char
  | [], _ => []
  | _ :: s, skip + 1 => replaceFrom pattern by' s skip
  | c :: s, 0 =>
    if pattern.isPrefixOf (c :: s) then by' ++ replaceFrom pattern by' s (pattern.length - 1)
    else c :: replaceFrom pattern by' s 0

/-- Substitute `$USER` with the last component of the home directory. -/
def expandUser (path home : PathBuf) : PathBuf :=
  match (fileName home).bind decodeUtf8 with
  | none => path
  | some name =>
    let text := (fromUtf8Lossy path).toList
    if Text.contains "$USER".toList text then
      utf8 (String.ofList (replaceFrom "$USER".toList name.toList text 0))
    else path

def isHostEscape (path home : PathBuf) : Bool :=
  forbiddenFsRoots.any (fun r => eqPath path (utf8 r)) || startsWith home path

def readOnlyGrantOk (path home : PathBuf) : Bool :=
  isAbsolute path && !isHostEscape path home && 2 < (components path).length

namespace FilesystemPermissions

/-- The user directories the flags grant. -/
def flagged (perms : FilesystemPermissions) (home : PathBuf) (dirs : UserDirs) : List PathBuf :=
  (if perms.home then [home] else []) ++
    ([(perms.documents, dirs.documents), (perms.downloads, dirs.downloads),
      (perms.pictures, dirs.pictures), (perms.music, dirs.music),
      (perms.videos, dirs.videos)].filter (·.1)).map (·.2)

/-- The accepted `custom` paths. -/
def keptCustom (perms : FilesystemPermissions) (home : PathBuf) : List PathBuf :=
  (perms.custom.map (expandUser · home)).filter fun p => !isHostEscape p home

/-- The accepted `read_only` subtrees. -/
def keptReadOnly (perms : FilesystemPermissions) (home : PathBuf) : List PathBuf :=
  (perms.readOnly.map (expandUser · home)).filter fun p => readOnlyGrantOk p home

def writableDirs (perms : FilesystemPermissions) (home : PathBuf) (dirs : UserDirs) :
    List PathBuf :=
  perms.flagged home dirs ++ perms.keptCustom home

def readableDirs (perms : FilesystemPermissions) (home : PathBuf) (dirs : UserDirs) :
    List PathBuf :=
  perms.writableDirs home dirs ++ perms.keptReadOnly home

end FilesystemPermissions

/-! ## What a path denotes -/

/-- The names are those of a forbidden root, of the home directory or of one of its
ancestors. -/
def Denied (home : PathBuf) (names : List Bytes) : Prop :=
  (∃ r ∈ forbiddenFsRoots, names = resolve (utf8 r)) ∨ names <+: resolve home

instance (home : PathBuf) (names : List Bytes) : Decidable (Denied home names) :=
  inferInstanceAs (Decidable (_ ∨ _))

variable {home p q : PathBuf}

theorem plain_root {r : String} (hr : r ∈ forbiddenFsRoots) :
    isAbsolute (utf8 r) = true ∧ Plain (utf8 r) := by
  have hall : ∀ r ∈ forbiddenFsRoots, isAbsolute (utf8 r) = true ∧ Plain (utf8 r) := by decide
  exact hall r hr

/-- **Without `..` the guard sees what a path denotes.** -/
theorem isHostEscape_iff (hp : isAbsolute p = true) (hhome : isAbsolute home = true)
    (hp' : Plain p) (hhome' : Plain home) :
    isHostEscape p home = true ↔ Denied home (resolve p) := by
  unfold isHostEscape Denied
  rw [Bool.or_eq_true, List.any_eq_true, Path.startsWith_iff hhome hp hhome' hp']
  refine or_congr_left (exists_congr fun r => and_congr_right fun hr => ?_)
  obtain ⟨habs, hplain⟩ := plain_root hr
  exact eqPath_iff hp habs hp' hplain

/-- A plain spelling is judged by what it denotes, against any home. -/
theorem isHostEscape_congr (hp : isAbsolute p = true) (hq : isAbsolute q = true) (hp' : Plain p)
    (hq' : Plain q) (h : resolve p = resolve q) : isHostEscape p home = isHostEscape q home := by
  have hcomp : components p = components q := by
    rw [components_of_plain hp hp', components_of_plain hq hq', h]
  unfold isHostEscape eqPath Path.startsWith
  rw [hcomp]

theorem readOnlyGrantOk_congr (hp : isAbsolute p = true) (hq : isAbsolute q = true)
    (hp' : Plain p) (hq' : Plain q) (h : resolve p = resolve q) :
    readOnlyGrantOk p home = readOnlyGrantOk q home := by
  have hcomp : components p = components q := by
    rw [components_of_plain hp hp', components_of_plain hq hq', h]
  unfold readOnlyGrantOk
  rw [isHostEscape_congr hp hq hp' hq' h, hcomp, hp, hq]

/-- The path is written as a forbidden root is, or as a leading part of the home
directory: what the guard compares. -/
def SpelledOut (home p : PathBuf) : Prop :=
  (∃ r ∈ forbiddenFsRoots, components p = components (utf8 r)) ∨ components p <+: components home

instance (home p : PathBuf) : Decidable (SpelledOut home p) := inferInstanceAs (Decidable (_ ∨ _))

theorem isHostEscape_iff_spelledOut : isHostEscape p home = true ↔ SpelledOut home p := by
  unfold isHostEscape SpelledOut eqPath Path.startsWith
  rw [Bool.or_eq_true, List.any_eq_true, List.isPrefixOf_iff_prefix]
  simp only [decide_eq_true_eq]

/-- A `..` in the path hides it from the guard where the home directory has none. -/
theorem not_spelledOut_of_not_plain (hp : ¬ Plain p) (hhome : Plain home) :
    ¬ SpelledOut home p := by
  have hp' : Component.parentDir ∈ components p := not_not.1 hp
  rintro (⟨r, hr, hcomp⟩ | hpre)
  · exact (plain_root hr).2 (hcomp ▸ hp')
  · exact hhome (hpre.mem hp')

/-! ## What a profile binds -/

/-- The absolute entries a profile declares, as far as the count of components lets
a read-only one through. -/
def candidates (perms : FilesystemPermissions) (home : PathBuf) : List PathBuf :=
  (perms.custom.map (expandUser · home)).filter isAbsolute ++
    (perms.readOnly.map (expandUser · home)).filter fun p =>
      isAbsolute p && 2 < (components p).length

/-- No accepted entry denotes a forbidden root, the home directory or an ancestor. -/
def BindsNoRoot (perms : FilesystemPermissions) (home : PathBuf) : Prop :=
  ∀ p ∈ perms.keptCustom home ++ perms.keptReadOnly home,
    isAbsolute p = true → ¬ Denied home (resolve p)

/-- No entry reaches a denied path through a `..`, its own or the home directory's,
in another spelling than the guard's. -/
def NoRootByDotDot (perms : FilesystemPermissions) (home : PathBuf) : Prop :=
  ∀ p ∈ candidates perms home, ¬ Plain p ∨ ¬ Plain home → Denied home (resolve p) →
    SpelledOut home p

instance (perms : FilesystemPermissions) (home : PathBuf) : Decidable (NoRootByDotDot perms home) :=
  inferInstanceAs (Decidable (∀ p ∈ _, _))

theorem mem_kept_iff {perms : FilesystemPermissions} :
    p ∈ perms.keptCustom home ++ perms.keptReadOnly home ∧ isAbsolute p = true ↔
      p ∈ candidates perms home ∧ isHostEscape p home = false := by
  unfold candidates FilesystemPermissions.keptCustom FilesystemPermissions.keptReadOnly
    readOnlyGrantOk
  simp only [List.mem_append, List.mem_filter, Bool.and_eq_true, Bool.not_eq_true']
  tauto

theorem noRootByDotDot_iff {perms : FilesystemPermissions} (hhome : Plain home) :
    NoRootByDotDot perms home ↔
      ∀ p ∈ candidates perms home, ¬ Plain p → ¬ Denied home (resolve p) := by
  constructor
  · intro h p hp hplain hdenied
    exact not_spelledOut_of_not_plain hplain hhome (h p hp (Or.inl hplain) hdenied)
  · intro h p hp hdots hdenied
    exact absurd hdenied (h p hp (hdots.resolve_right (not_not.2 hhome)))

/-- **A profile binds no denied path** exactly when none of its entries reaches one
through `..`; and of the spellings without `..` the guards give one verdict. -/
theorem binds_no_root_iff (perms : FilesystemPermissions) (home : PathBuf)
    (hhome : isAbsolute home = true) :
    (BindsNoRoot perms home ↔ NoRootByDotDot perms home) ∧
      (Plain home → (NoRootByDotDot perms home ↔
        ∀ p ∈ candidates perms home, ¬ Plain p → ¬ Denied home (resolve p))) ∧
      ∀ p q : PathBuf, isAbsolute p = true → isAbsolute q = true → Plain p → Plain q →
        resolve p = resolve q →
          isHostEscape p home = isHostEscape q home ∧
            readOnlyGrantOk p home = readOnlyGrantOk q home := by
  refine ⟨⟨?_, ?_⟩, noRootByDotDot_iff, ?_⟩
  · intro h p hp _ hdenied
    by_contra hspelled
    have hkept : isHostEscape p home = false :=
      Bool.eq_false_iff.2 fun he => hspelled (isHostEscape_iff_spelledOut.1 he)
    obtain ⟨hmem, habs⟩ := mem_kept_iff.2 ⟨hp, hkept⟩
    exact h p hmem habs hdenied
  · intro h p hp habs hdenied
    obtain ⟨hcand, hkept⟩ := mem_kept_iff.1 ⟨hp, habs⟩
    by_cases hplain : Plain p ∧ Plain home
    · rw [← Bool.not_eq_true, isHostEscape_iff habs hhome hplain.1 hplain.2] at hkept
      exact hkept hdenied
    · have hdots : ¬ Plain p ∨ ¬ Plain home := by tauto
      rw [isHostEscape_iff_spelledOut.2 (h p hcand hdots hdenied)] at hkept
      cases hkept
  · intro p q hp hq hp' hq' heq
    exact ⟨isHostEscape_congr hp hq hp' hq' heq, readOnlyGrantOk_congr hp hq hp' hq' heq⟩

/-- A profile with these `custom` and `read_only` paths. -/
def granting (custom readOnly : List String) : FilesystemPermissions :=
  ⟨false, false, false, false, false, false, custom.map utf8, readOnly.map utf8⟩

/-- Repeated separators and `.` do not hide a root, and a named subtree is kept. -/
theorem binds_no_root_plain :
    BindsNoRoot (granting ["//etc/./", "/home/./u/"] ["/sys/class/power_supply"])
      (utf8 "/home/u") :=
  (binds_no_root_iff _ _ (by decide)).1.2 (by decide)

/-- `/home/../etc` is bound read-write. -/
theorem binds_etc_by_dotdot : ¬ BindsNoRoot (granting ["/home/../etc"] []) (utf8 "/home/u") := by
  intro h
  exact h (utf8 "/home/../etc") (by decide) (by decide) (by decide)

end Arlen.Permissions
