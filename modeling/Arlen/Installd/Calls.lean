import Arlen.Lib.Action
import Arlen.Lib.Bytes
import Arlen.Lib.FileSystem

/-!
# The directories of an installation

The directories the install daemon works in, each at a place of its own in one tree of
directories and files, and the calls of `std::fs` it makes on them. What stands behind a
symbolic link counts as standing where the link does. Any call may fail: one that fails
changes nothing, a write or copy, which may leave part of its file, and
`remove_dir_all`, which may have removed part of its tree, apart.
-/

namespace Arlen.Installd

open Arlen.Lib

abbrev Name := Bytes

abbrev Loc := List Name

abbrev Fs := FileSystem Name Bytes

inductive Shelf where
  | apps
  | schemas
  | modules
  | keybindings
  | settings
  | desktop
  | trash
  | permissions
  /-- The directory a package was extracted to. -/
  | package
  /-- What an absolute path of a package leads to. -/
  | host
deriving DecidableEq, Repr

def Shelf.name : Shelf → Name
  | .apps => utf8 "apps"
  | .schemas => utf8 "schemas"
  | .modules => utf8 "modules"
  | .keybindings => utf8 "keybindings.d"
  | .settings => utf8 "settings-schemas"
  | .desktop => utf8 "applications"
  | .trash => utf8 ".trash"
  | .permissions => utf8 "permissions"
  | .package => utf8 "package"
  | .host => utf8 "host"

/-- The place of an entry of a directory, or below one. -/
def Shelf.at (s : Shelf) (names : List Name) : Loc := s.name :: names

theorem bare_root : (FileSystem.bare : Fs).node [] = some .dir := rfl

theorem bare_apps : (FileSystem.bare : Fs).node ([] ++ [Shelf.apps.name]) ≠ some .dir := by decide

/-- A tree that holds the directory of the apps only. -/
def bareApps : Fs := FileSystem.bare.put [] Shelf.apps.name .dir bare_root bare_apps

theorem bareApps_at : bareApps.node (Shelf.apps.at []) = some .dir := by decide

theorem bareApps_free : bareApps.node (Shelf.apps.at [] ++ [utf8 "a"]) ≠ some .dir := by decide

theorem Shelf.name_inj {s t : Shelf} (h : s.name = t.name) : s = t := by
  revert h
  cases s <;> cases t <;> decide

inductive IoError where
  | refused (why : FileSystem.Refusal)
  | invalidData
  | other (code : Nat)
deriving DecidableEq

/-- How a call fails: its error, what a write leaves of its file and what a
`remove_dir_all` has removed. -/
structure Fault where
  error : IoError
  left : Option Bytes
  removed : List Loc
deriving DecidableEq

/-- The tree, and how many calls have been made. -/
structure World where
  fs : Fs
  made : Nat

/-- Which calls fail. -/
abbrev Plan := Nat → Option Fault

def noFault : Plan := fun _ => none

abbrev Io := Action World IoError

def World.called (w : World) : World := { w with made := w.made + 1 }

@[simp] theorem World.called_fs (w : World) : w.called.fs = w.fs := rfl

/-! ## Calls -/

/-- A call that only looks. -/
def query {α : Type} (plan : Plan) (f : Fs → Except IoError α) : Io α := fun w =>
  match plan w.made with
  | some fault => some (.error fault.error, w.called)
  | none => some (f w.fs, w.called)

/-- A call that changes the tree. -/
def change (plan : Plan) (f : Fs → Except FileSystem.Refusal Fs)
    (broken : Fault → Fs → Fs := fun _ fs => fs) : Io Unit := fun w =>
  match plan w.made with
  | some fault => some (.error fault.error, ⟨broken fault w.fs, w.made + 1⟩)
  | none =>
    match f w.fs with
    | .ok fs => some (.ok (), ⟨fs, w.made + 1⟩)
    | .error why => some (.error (.refused why), w.called)

/-- `Path::exists`, which is false where the call fails. -/
def pathExists {ε : Type} (plan : Plan) (p : Loc) : Action World ε Bool := fun w =>
  match plan w.made with
  | some _ => some (.ok false, w.called)
  | none => some (.ok (w.fs.node p).isSome, w.called)

/-- `Path::is_dir`. -/
def isDir {ε : Type} (plan : Plan) (p : Loc) : Action World ε Bool := fun w =>
  match plan w.made with
  | some _ => some (.ok false, w.called)
  | none => some (.ok (decide (w.fs.node p = some .dir)), w.called)

def contentOf (fs : Fs) (p : Loc) : Except IoError Bytes :=
  match fs.node p with
  | some (.leaf content) => .ok content
  | some .dir => .error (.refused .isDirectory)
  | none => .error (.refused .noEntry)

/-- `fs::read`. -/
def read (plan : Plan) (p : Loc) : Io Bytes := query plan fun fs => contentOf fs p

/-- `fs::read_dir`, with all its entries. -/
def readDir (plan : Plan) (p : Loc) : Io (List Name) :=
  query plan fun fs =>
    match fs.node p with
    | some .dir => .ok (fs.names p)
    | some (.leaf _) => .error (.refused .notDirectory)
    | none => .error (.refused .noEntry)

/-- `fs::set_permissions`: the modes are not part of the tree. -/
def setPermissions (plan : Plan) (p : Loc) : Io Unit :=
  query plan fun fs => if fs.node p = none then .error (.refused .noEntry) else .ok ()

def mkdir (plan : Plan) (p : Loc) : Io Unit := change plan fun fs => fs.mkdirAt p

/-- A failed `mkdir` of `create_dir_all` does not count where a directory is. -/
def unlessDir (plan : Plan) (p : Loc) (e : IoError) : Io Unit := do
  if ← isDir plan p then return () else Action.fail e

/-- `create_dir_all`, of the names from the last to the first. -/
def createDirAllUp (plan : Plan) : List Name → Io Unit
  | [] => do
    match ← (mkdir plan []).attempt with
    | .ok () => return ()
    | .error e => unlessDir plan [] e
  | n :: up => do
    let p := (n :: up).reverse
    match ← (mkdir plan p).attempt with
    | .ok () => return ()
    | .error (.refused .noEntry) =>
      createDirAllUp plan up
      match ← (mkdir plan p).attempt with
      | .ok () => return ()
      | .error e => unlessDir plan p e
    | .error e => unlessDir plan p e

def createDirAll (plan : Plan) (p : Loc) : Io Unit := createDirAllUp plan p.reverse

/-- What a write that broke off leaves at `p`. -/
def leftAt (p : Loc) (fault : Fault) (fs : Fs) : Fs :=
  match fault.left with
  | none => fs
  | some part =>
    match fs.writeAt p part with
    | .ok fs' => fs'
    | .error _ => fs

/-- `fs::write`. -/
def write (plan : Plan) (p : Loc) (content : Bytes) : Io Unit :=
  change plan (fun fs => fs.writeAt p content) (leftAt p)

/-- `fs::copy`, which opens the source before it touches the destination. -/
def copy (plan : Plan) (src dst : Loc) : Io Unit := fun w =>
  match contentOf w.fs src with
  | .error e => (query plan fun _ => (.error e : Except IoError Unit)) w
  | .ok content => write plan dst content w

def removeFile (plan : Plan) (p : Loc) : Io Unit := change plan fun fs => fs.unlink p

/-- Part of the tree at `p` is gone. -/
def removeSome (p : Loc) (fault : Fault) (fs : Fs) : Fs :=
  if fs.node p = some .dir then
    (fault.removed.filter fun q => p <+: q).foldl
      (fun fs q => if hq : q = [] then fs else fs.erase q hq) fs
  else fs

def removeDirAll (plan : Plan) (p : Loc) : Io Unit :=
  change plan (fun fs => fs.removeTree p) (removeSome p)

def rename (plan : Plan) (src dst : Loc) : Io Unit := change plan fun fs => fs.renameTo src dst

/-- `let _ = ..`: whatever comes of the action. -/
def ignore {ε ε' : Type} (act : Action World ε Unit) : Action World ε' Unit := do
  let _ ← act.attempt
  return ()

/-! ## What stays -/

/-- Beyond these directories the two trees are the same. -/
def Touches (S : List Shelf) (fs fs' : Fs) : Prop :=
  ∀ p, (∀ s ∈ S, p.head? ≠ some s.name) → fs'.node p = fs.node p

/-- The directory holds what it held. -/
def SameIn (s : Shelf) (fs fs' : Fs) : Prop := ∀ names, fs'.node (s.at names) = fs.node (s.at names)

/-- Things were removed only. -/
def Shrinks (fs fs' : Fs) : Prop := ∀ p, fs'.node p = none ∨ fs'.node p = fs.node p

section
variable {S T : List Shelf} {s : Shelf} {fs fs' fs'' : Fs} {p : Loc} {n : Name} {w : World}
  {total : Prop} {plan : Plan}

@[simp] theorem Shelf.head?_at (s : Shelf) (names : List Name) : (s.at names).head? = some s.name :=
  rfl

theorem Shelf.head?_at_ne {s t : Shelf} (h : s ≠ t) (names : List Name) :
    (s.at names).head? ≠ some t.name := fun heq => h (Shelf.name_inj (Option.some.inj heq))

theorem Shelf.at_ne {s t : Shelf} (h : s ≠ t) (names names' : List Name) : s.at names ≠ t.at names' :=
  fun heq => h (Shelf.name_inj (List.cons.inj heq).1)

theorem Shelf.at_isPrefix_iff {s : Shelf} {r r' : List Name} : s.at r <+: s.at r' ↔ r <+: r' := by
  simp [Shelf.at, List.cons_prefix_cons]

theorem Touches.refl (S : List Shelf) (fs : Fs) : Touches S fs fs := fun _ _ => rfl

theorem Touches.trans (h : Touches S fs fs') (h' : Touches S fs' fs'') : Touches S fs fs'' :=
  fun p hp => (h' p hp).trans (h p hp)

theorem Touches.mono (h : Touches S fs fs') (hST : ∀ s ∈ S, s ∈ T) : Touches T fs fs' :=
  fun p hp => h p fun s hs => hp s (hST s hs)

theorem Touches.sameIn (h : Touches S fs fs') (hs : s ∉ S) : SameIn s fs fs' := by
  intro names
  refine h _ fun t ht heq => hs ?_
  rw [Shelf.head?_at, Option.some.injEq] at heq
  rw [Shelf.name_inj heq]
  exact ht

theorem SameIn.refl (s : Shelf) (fs : Fs) : SameIn s fs fs := fun _ => rfl

theorem SameIn.trans (h : SameIn s fs fs') (h' : SameIn s fs' fs'') : SameIn s fs fs'' :=
  fun names => (h' names).trans (h names)

theorem SameIn.symm (h : SameIn s fs fs') : SameIn s fs' fs := fun names => (h names).symm

theorem Shrinks.refl (fs : Fs) : Shrinks fs fs := fun _ => .inr rfl

theorem Shrinks.trans (h : Shrinks fs fs') (h' : Shrinks fs' fs'') : Shrinks fs fs'' := by
  intro p
  rcases h' p with hn | he
  · exact .inl hn
  · rw [he]
    exact h p

/-- One place of a directory was changed. -/
theorem touches_of_update {s : Shelf} {names : List Name} {e : Option (Entry Bytes)}
    (h : ∀ q, fs'.node q = if q = s.at names then e else fs.node q) : Touches [s] fs fs' := by
  intro p hp
  rw [h, if_neg]
  rintro rfl
  exact hp s List.mem_cons_self rfl

theorem ends_pathExists {ε : Type} (p : Loc) (w : World) :
    (pathExists noFault p : Action World ε Bool).Ends True w
      (fun b w' => b = (w.fs.node p).isSome ∧ w'.fs = w.fs) fun _ _ => False := ⟨rfl, rfl⟩

theorem contentOf_eq_ok {content : Bytes} (h : contentOf fs p = .ok content) :
    fs.node p = some (.leaf content) := by
  unfold contentOf at h
  split at h
  · next hnode =>
    cases h
    exact hnode
  · cases h
  · cases h

theorem ends_ignore {ε ε' : Type} {act : Action World ε Unit} {ok : Unit → World → Prop}
    {err : ε' → World → Prop} (h : act.Ends total w ok fun _ => ok ()) :
    (ignore act : Action World ε' Unit).Ends total w ok err :=
  (Action.Ends.attempt h).bind fun _ _ hw => Action.Ends.pure hw

end

end Arlen.Installd
