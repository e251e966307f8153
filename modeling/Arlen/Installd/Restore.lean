import Arlen.Installd.Unregister

/-!
# What a restore brings back

Uninstalling removes an app's schemas, modules, keybindings and settings schema, its
desktop entry and its entry in the lock; restoring moves the directory back and writes
the desktop entry. The rest comes back only where there was nothing to remove.
-/

namespace Arlen.Installd

open Arlen.Lib

variable {w : World} {env : TrashEnv} {id : String} {m : Manifest}

/-! ## The manifest of an installed app -/

/-- The manifest in a directory. -/
def manifestOf (env : Env) (fs : Fs) (dir : Loc) : Option Manifest :=
  match fs.node (dir ++ [utf8 "manifest.toml"]) with
  | some (.leaf content) =>
    match decodeUtf8 content with
    | none => none
    | some text =>
      match env.parse text with
      | .error _ => none
      | .ok m => some m
  | _ => none

/-- What moving the app into the trash made of the tree. -/
structure InTrash (id : String) (fs fs' : Fs) : Prop where
  gone : ∀ q, appDir id <+: q → fs'.node q = none
  rest : ∀ q, ¬ appDir id <+: q → q.head? ≠ some Shelf.trash.name → fs'.node q = fs.node q
  kept : ∀ r, r ≠ [trashInfoName] → fs'.node (trashEntry id ++ r) = fs.node (appDir id ++ r)
  info : ∃ b, fs'.node (trashEntry id ++ [trashInfoName]) = some (.leaf b)
  noDir : fs.node (appDir id ++ [trashInfoName]) ≠ some .dir

theorem not_trash_below_app {q : Loc} (h : trashEntry id <+: q) : ¬ appDir id <+: q := by
  obtain ⟨r, rfl⟩ := h
  rintro ⟨r', heq⟩
  exact Shelf.at_ne (by decide) ([utf8 id] ++ r') ([utf8 id] ++ r) heq

theorem head?_of_trash_below {q : Loc} (h : trashEntry id <+: q) : q.head? = some Shelf.trash.name := by
  obtain ⟨r, rfl⟩ := h
  rfl

theorem head?_of_app_below {q : Loc} (h : appDir id <+: q) : q.head? = some Shelf.apps.name := by
  obtain ⟨r, rfl⟩ := h
  rfl

/-- What is printed reads back as the same entries. -/
def LockText.Reads (text : LockText) : Prop :=
  ∀ l s, text.print l = .ok s → ∃ l', text.parse s = .ok l' ∧ ∀ id, l'.get id = l.get id

/-- The text of the lock, and what it says. -/
def Locked (text : LockText) (fs : Fs) (content : Bytes) (l : Lock) : Prop :=
  fs.node lockPath = some (.leaf content) ∧ ∃ s, decodeUtf8 content = some s ∧ text.parse s = .ok l

def desktopEntry (id : String) : Loc := Shelf.desktop.at [utf8 (desktopFile id)]

theorem manifestOf_congr {env : Env} {fs fs' : Fs} {dir dir' : Loc}
    (h : fs'.node (dir' ++ [utf8 "manifest.toml"]) = fs.node (dir ++ [utf8 "manifest.toml"])) :
    manifestOf env fs' dir' = manifestOf env fs dir := by
  rw [manifestOf, manifestOf, h]

def plainManifest : Manifest :=
  { package := ⟨"a", "A", "1", ""⟩, binaryPath := "bin/a" }

def plainEnv : TrashEnv where
  plan := noFault
  parse text := if text = "a" then .ok plainManifest else .error "not the manifest"
  profile _ := none
  appsDir := "/apps"
  tempName := utf8 "tmp"
  lock := ⟨fun text => if text = "" then .ok [] else .error "not empty",
    fun l => if l = [] then .ok "" else .error "not empty"⟩
  now := "now"
  infoText info := info.appId

/-- An app with its desktop entry. -/
def plainTree : Fs :=
  let apps := FileSystem.bare.put [] Shelf.apps.name .dir bare_root bare_apps
  let app := apps.put (Shelf.apps.at []) (utf8 "a") .dir bareApps_at bareApps_free
  let manifest := app.put (appDir "a") (utf8 "manifest.toml") (.leaf (utf8 "a")) (by decide) (by decide)
  let desktop := manifest.put [] Shelf.desktop.name .dir (by decide) (by decide)
  desktop.put (Shelf.desktop.at []) (utf8 (desktopFile "a"))
    (.leaf (utf8 (desktopText plainEnv.toEnv plainManifest))) (by decide) (by decide)

end Arlen.Installd
