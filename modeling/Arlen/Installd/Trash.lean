import Arlen.Forage.Capabilities
import Arlen.Installd.Install

/-!
# Uninstalling and restoring

`stage_for_deletion` and `restore_app` of `trash.rs`, `run_uninstall` of `jobs.rs` and
the install lock of `lock.rs`. Reading and printing the lock is a parameter, and so is
the text of `.trash-info`.
-/

namespace Arlen.Installd

open Arlen.Lib

/-! ## The lock -/

structure LockEntry where
  sourceLayer : String
  version : String
  recipeCommit : String := ""
  recipeRevision : Nat := 0
  installedAt : Int
  granted : Forage.Capabilities
deriving DecidableEq

/-- The entries by component id, each id once. -/
abbrev Lock := List (String × LockEntry)

def Lock.get (l : Lock) (id : String) : Option LockEntry := l.lookup id

def Lock.remove (l : Lock) (id : String) : Lock := l.filter (·.1 ≠ id)

def Lock.record (l : Lock) (id : String) (e : LockEntry) : Lock := (id, e) :: l.remove id

/-- Reading and printing the lock as TOML. -/
structure LockText where
  parse : String → Except String Lock
  print : Lock → Except String String

def lockPath : Loc := Shelf.apps.at [utf8 "installed.lock"]

def lockTmp : Loc := Shelf.apps.at [utf8 "installed.lock.tmp"]

inductive LockError where
  | corrupt (detail : String)
  | io (error : IoError)
deriving DecidableEq

/-- `Lock::load`: a missing file is an empty lock. -/
def loadLock (plan : Plan) (text : LockText) : Action World LockError Lock := do
  match ← (read plan lockPath).attempt with
  | .error (.refused .noEntry) => return []
  | .error e => Action.fail (.io e)
  | .ok content =>
    match decodeUtf8 content with
    | none => Action.fail (.io .invalidData)
    | some s =>
      match text.parse s with
      | .error detail => Action.fail (.corrupt detail)
      | .ok l => return l

/-- `Lock::save`; the directory's `fsync` does not count. -/
def saveLock (plan : Plan) (text : LockText) (l : Lock) : Action World LockError Unit := do
  (createDirAll plan (Shelf.apps.at [])).mapError .io
  match text.print l with
  | .error _ => Action.fail (.io .invalidData)
  | .ok s =>
    (write plan lockTmp (utf8 s)).mapError .io
    (rename plan lockTmp lockPath).mapError .io

structure TrashInfo where
  appId : String
  appName : String
  appVersion : String
  deletedAt : String
  originalPath : String
deriving DecidableEq

/-- What uninstalling needs beside the rest: the time, and the text of a `.trash-info`. -/
structure TrashEnv extends Env where
  lock : LockText
  now : String
  infoText : TrashInfo → String

def trashEntry (id : String) : Loc := Shelf.trash.at [utf8 id]

def trashInfoName : Name := utf8 ".trash-info"

/-- The registrations beside the app's directory; what goes wrong does not count. -/
def unregister (env : Env) (m : Manifest) : Install Unit := do
  ignore (removeSchemas env m)
  ignore (removeModules env m)
  ignore (removeKeybindingsFragment env m.package.id)
  ignore (removeSettingsSchema env m.package.id)

/-- `load_manifest(..).ok()`. -/
def loadManifestOk (env : Env) (dir : Loc) : Install (Option Manifest) := do
  match ← (loadManifest env dir).attempt with
  | .ok m => return some m
  | .error _ => return none

/-- Moving the app's directory into the trash. -/
def moveToTrash (env : TrashEnv) (id : String) (info : TrashInfo) : Install Unit := do
  if ← pathExists env.plan (trashEntry id) then
    (removeDirAll env.plan (trashEntry id)).mapError .io
  (createDirAll env.plan (Shelf.trash.at [])).mapError .io
  (rename env.plan (appDir id) (trashEntry id)).mapError .io
  (write env.plan (trashEntry id ++ [trashInfoName]) (utf8 (env.infoText info))).mapError .io

def trashInfoOf (env : TrashEnv) (id : String) (m : Option Manifest) : TrashInfo :=
  { appId := id
    appName := (m.map (·.package.name)).getD ""
    appVersion := (m.map (·.package.version)).getD ""
    deletedAt := env.now
    originalPath := joinText env.appsDir id }

def stageForDeletion (env : TrashEnv) (id : String) : Install TrashInfo := do
  (Action.ofExcept (validateAppId id) : Install Unit)
  if ← pathExists env.plan (appDir id) then
    let m ← loadManifestOk env.toEnv (appDir id)
    match m with
    | some m => unregister env.toEnv m
    | none => pure ()
    let info := trashInfoOf env id m
    moveToTrash env id info
    return info
  else Action.fail (.notInstalled id)

inductive TrashError where
  | notInTrash (id : String)
  | alreadyInstalled (id : String)
  | io (error : IoError)
  | install (error : InstallError)
deriving DecidableEq

end Arlen.Installd
