import Arlen.Lib.Action
import Arlen.Lib.FileSystem
import Arlen.Files.Error

/-!
# The calls of the file operations

What the operations of `apps/files/core/src/ops.rs` ask of `cap_std::fs::Dir`. One
tree holds every capability, and a location is the place a path leads to: the
directories of a path are taken as resolved, its last name as it stands. Any call
may fail. One that fails changes nothing, `remove_dir_all`, which may have removed
part of its tree, and `write_all`, which may have written part of its bytes, apart.
-/

namespace Arlen.Files

open Arlen.Lib

/-- What is not a directory. -/
inductive Leaf where
  | file (content : Bytes)
  | link (text : Bytes)
  | other
deriving DecidableEq, Repr

abbrev Fs := FileSystem Name Leaf

inductive Call where
  | lstat (p : Loc)
  | stat (p : Loc)
  | createDir (p : Loc)
  | setPermissions (p : Loc)
  | readDir (p : Loc)
  | nextEntry (p : Loc)
  | fileType (p : Loc)
  | readLink (p : Loc)
  | symlink (p : Loc)
  | copy (src dst : Loc)
  | removeFile (p : Loc)
  | removeDirAll (p : Loc)
  | rename (src dst : Loc)
  | createNew (p : Loc)
  | writeAll (p : Loc)
  | syncAll (p : Loc)
  | read (p : Loc)
deriving DecidableEq, Repr

/-- How a call fails: its error number, what a `remove_dir_all` has removed by then
and how many bytes a `write_all` has written. -/
structure Fault where
  errno : Errno
  removed : List Loc
  landed : Nat
deriving DecidableEq, Repr

/-- The tree, and how many calls have been made. -/
structure World where
  fs : Fs
  made : Nat

def World.called (w : World) : World := { w with made := w.made + 1 }

@[simp] theorem World.called_fs (w : World) : w.called.fs = w.fs := rfl

/-- What surrounds an operation: which of its calls fail, which of its best-effort
cleanups fail, where a symbolic link leads, and the number of the process. -/
structure Env where
  plan : Nat → Call → Option Fault
  cleanup : Nat → Call → Option Fault
  through : Fs → Loc → Option Loc
  pid : Nat

/-- The surroundings of a cleanup. -/
def Env.cleaning (env : Env) : Env := { env with plan := env.cleanup }

abbrev Io := Action World IoError

abbrev Op := Action World OpError

def errnoOf : FileSystem.Refusal → Errno
  | .noEntry => .enoent
  | .alreadyThere => .eexist
  | .notDirectory => .enotdir
  | .isDirectory => .eisdir
  | .notEmpty => .enotempty
  | .intoItself => .einval

def orRefused (r : Except FileSystem.Refusal Fs) : Except IoError Fs :=
  match r with
  | .ok fs => .ok fs
  | .error e => .error (.os (errnoOf e))

/-- A call that only looks. -/
def query {α : Type} (env : Env) (c : Call) (f : Fs → Except IoError α) : Io α := fun w =>
  match env.plan w.made c with
  | some fault => some (.error (.os fault.errno), w.called)
  | none => some (f w.fs, w.called)

/-- A call that changes the tree. -/
def change (env : Env) (c : Call) (f : Fs → Except IoError Fs)
    (broken : Fault → Fs → Fs := fun _ fs => fs) : Io Unit := fun w =>
  match env.plan w.made c with
  | some fault => some (.error (.os fault.errno), ⟨broken fault w.fs, w.made + 1⟩)
  | none =>
    match f w.fs with
    | .ok fs => some (.ok (), ⟨fs, w.made + 1⟩)
    | .error e => some (.error e, w.called)

/-- The location a call opens: a final link is followed. -/
def Env.final (env : Env) (fs : Fs) (p : Loc) : Option Loc :=
  match fs.node p with
  | some (.leaf (.link _)) => env.through fs p
  | _ => some p

/-! ## Looking -/

/-- `symlink_metadata`. -/
def lstat (env : Env) (p : Loc) : Io (Entry Leaf) :=
  query env (.lstat p) fun fs =>
    match fs.node p with
    | some e => .ok e
    | none => .error (.os .enoent)

/-- `metadata(..)?.len()`, of a file. -/
def stat (env : Env) (p : Loc) : Io Nat :=
  query env (.stat p) fun fs =>
    match (env.final fs p).bind fs.node with
    | some (.leaf (.file content)) => .ok content.length
    | some _ => .ok 0
    | none => .error (.os .enoent)

def readDir (env : Env) (p : Loc) : Io (List (Name × Entry Leaf)) :=
  query env (.readDir p) fun fs =>
    match fs.node p with
    | some .dir => .ok ((fs.names p).filterMap fun n => (fs.node (p ++ [n])).map fun e => (n, e))
    | some (.leaf _) => .error (.os .enotdir)
    | none => .error (.os .enoent)

/-- The next entry of a directory that is being read. -/
def nextEntry (env : Env) (p : Loc) : Io Unit := query env (.nextEntry p) fun _ => .ok ()

/-- `DirEntry::file_type`, which the listing has. -/
def fileType (env : Env) (p : Loc) (e : Entry Leaf) : Io (Entry Leaf) :=
  query env (.fileType p) fun _ => .ok e

def readLink (env : Env) (p : Loc) : Io Bytes :=
  query env (.readLink p) fun fs =>
    match fs.node p with
    | some (.leaf (.link text)) => .ok text
    | some _ => .error (.os .einval)
    | none => .error (.os .enoent)

def readFile (env : Env) (p : Loc) : Io Bytes :=
  query env (.read p) fun fs =>
    match (env.final fs p).bind fs.node with
    | some (.leaf (.file content)) => .ok content
    | some .dir => .error (.os .eisdir)
    | some _ => .error (.os .einval)
    | none => .error (.os .enoent)

/-- `set_permissions`: the modes are not part of the tree. -/
def setPermissions (env : Env) (p : Loc) : Io Unit :=
  query env (.setPermissions p) fun fs => if fs.node p = none then .error (.os .enoent) else .ok ()

def syncAll (env : Env) (p : Loc) : Io Unit := query env (.syncAll p) fun _ => .ok ()

/-! ## Changing -/

def createDir (env : Env) (p : Loc) : Io Unit :=
  change env (.createDir p) fun fs => orRefused (fs.mkdirAt p)

/-- `Dir::symlink`, which refuses an absolute text. -/
def symlink (env : Env) (text : Bytes) (p : Loc) : Io Unit :=
  change env (.symlink p) fun fs =>
    if text.head? = some 0x2f then .error (.os .escape)
    else if fs.node p ≠ none then .error (.os .eexist)
    else orRefused (fs.writeAt p (.link text))

/-- What `Dir::copy` makes of the tree: it opens the source, cuts the destination to
nothing and writes the bytes it then reads. -/
def copied (env : Env) (src dst : Loc) (fs : Fs) : Except IoError Fs :=
  match env.final fs src with
  | none => .error (.os .eloop)
  | some s =>
    match fs.node s with
    | none => .error (.os .enoent)
    | some (.leaf (.file content)) =>
      match env.final fs dst with
      | none => .error (.os .eloop)
      | some d => orRefused (fs.writeAt d (.file (if d = s then [] else content)))
    | some _ => .error (.custom .invalidInput "the source path is not an existing regular file")

/-- `Dir::copy`. -/
def copy (env : Env) (src dst : Loc) : Io Unit := change env (.copy src dst) (copied env src dst)

def removeFile (env : Env) (p : Loc) : Io Unit :=
  change env (.removeFile p) fun fs => orRefused (fs.unlink p)

/-- Part of the tree at `p` is gone. -/
def removeSome (p : Loc) (removed : List Loc) (fs : Fs) : Fs :=
  if fs.node p = some .dir then
    (removed.filter fun q => p <+: q).foldl
      (fun fs q => if hq : q = [] then fs else fs.erase q hq) fs
  else fs

def removeDirAll (env : Env) (p : Loc) : Io Unit :=
  change env (.removeDirAll p) (fun fs => orRefused (fs.removeTree p))
    fun fault => removeSome p fault.removed

def rename (env : Env) (src dst : Loc) : Io Unit :=
  change env (.rename src dst) fun fs => orRefused (fs.renameTo src dst)

/-- Open for writing with `create_new`. -/
def createNew (env : Env) (p : Loc) : Io Unit :=
  change env (.createNew p) fun fs =>
    if fs.node p ≠ none then .error (.os .eexist) else orRefused (fs.writeAt p (.file []))

/-- The bytes an open file has behind a write. -/
def written (p : Loc) (bytes : Bytes) (fs : Fs) : Fs :=
  match fs.node p with
  | some (.leaf (.file _)) =>
    match fs.writeAt p (.file bytes) with
    | .ok fs' => fs'
    | .error _ => fs
  | _ => fs

/-- `write_all` to the file opened at `p`. -/
def writeAll (env : Env) (p : Loc) (bytes : Bytes) : Io Unit :=
  change env (.writeAll p) (fun fs => .ok (written p bytes fs))
    fun fault => written p (bytes.take fault.landed)

/-! ## How calls end -/

variable {env : Env} {c : Call} {total : Prop} {w : World} {α : Type}

theorem orRefused_eq_ok {r : Except FileSystem.Refusal Fs} {fs : Fs} :
    orRefused r = .ok fs ↔ r = .ok fs := by
  cases r <;> simp [orRefused]

end Arlen.Files
