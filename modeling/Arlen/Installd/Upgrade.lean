import Arlen.Installd.Transaction
import Arlen.Installd.Trash
import Mathlib.Data.List.Sort
import Mathlib.Data.String.Basic

/-!
# Upgrading an app

`run_install_package` and `run_upgrade` of `jobs.rs`, the gate of `consent.rs` and
`record_in_lock`. The gate and the installation each extract the package at the path for
themselves, so an extraction is a parameter with its turn. Verifying the signature is a
parameter as well.
-/

namespace Arlen.Installd

open Arlen.Lib

/-! ## The gate -/

/-- `capabilities_from`; of the open categories, the keys in their order. -/
def capabilitiesFrom (p : PermissionInfo) : Forage.Capabilities where
  filesystem := p.filesystem
  network := p.network
  graph := p.graphRead.map ("read:" ++ ·) ++ p.graphWrite.map ("write:" ++ ·)
  notifications := p.notifications
  clipboard := p.clipboard
  audio := false
  extra := (p.input.map ("input:" ++ ·)).dedup.insertionSort (· ≤ ·)

inductive UpgradeConsent where
  | autoApply
  | consentRequired (deltas : List String)
deriving DecidableEq

def upgradeConsentFromCaps (old new : Forage.Capabilities) : UpgradeConsent :=
  let diff := Forage.diffCapabilities old new
  if diff.requiresConsent then
    .consentRequired ((diff.added.filter (·.highImpact)).map (·.description))
  else .autoApply

inductive UpgradeGate where
  | silent
  | interruptive (widened : List String)
  | unknown (requested : List String)
deriving DecidableEq

def upgradeGate (recorded : Option Forage.Capabilities) (new : PermissionInfo) : UpgradeGate :=
  match recorded with
  | none => .unknown ((Forage.diffCapabilities {} (capabilitiesFrom new)).added.map (·.description))
  | some old =>
    match upgradeConsentFromCaps old (capabilitiesFrom new) with
    | .autoApply => .silent
    | .consentRequired widened => .interruptive widened

/-! ## Opening a package -/

/-- `is_reserved_app_id`. -/
def isReservedAppId (id : String) : Bool :=
  id = "system" || startsWith id "system." || startsWith id "org.arlen." ||
    startsWith id "dev.arlen." ||
    id ∈ ["ai-daemon", "ai-agent", "settings", "xdg-desktop-portal", "modulesd"]

def validateManifest (m : Manifest) : Except InstallError Unit := do
  validateAppId m.package.id
  if isReservedAppId m.package.id then
    .error (.invalidAppId (m.package.id ++ ": reserved for system apps, cannot be installed for a user"))
  else if m.package.name = "" then .error (.invalidManifest "empty package name")
  else if m.package.version = "" then .error (.invalidManifest "empty version")
  else if m.binaryPath = "" then .error (.invalidManifest "empty binary path")
  else if hasDotDot m.binaryPath then .error (.invalidManifest "binary path contains '..'")
  else .ok ()

/-- What an upgrade needs beside the rest: the extraction of what is at the path by then,
the verification of a signature, whether the disk has room, the time in seconds and the
texts of errors. -/
structure UpgradeEnv extends TrashEnv where
  extract : Nat → Install Unit
  verify : Fs → Except String Unit
  fits : Bool
  nowSecs : Int
  describe : InstallError → String

def validatePackageStructure (env : Env) : Install Unit := do
  if ← pathExists env.plan (Shelf.package.at [utf8 "signature.sig"]) then return ()
  else Action.fail .signatureNotFound

def verifySignature (env : UpgradeEnv) : Install Unit := fun w =>
  match env.verify w.fs with
  | .ok () => some (.ok (), w)
  | .error reason => some (.error (.signatureVerificationFailed reason), w)

/-- A package extracted, verified and read. -/
def openPackage (env : UpgradeEnv) (turn : Nat) : Install Manifest := do
  env.extract turn
  validatePackageStructure env.toEnv
  verifySignature env
  let m ← loadManifest env.toEnv (Shelf.package.at [])
  (Action.ofExcept (validateManifest m) : Install Unit)
  return m

structure UpgradePreview where
  appId : String
  gate : UpgradeGate
deriving DecidableEq

/-- What the lock has of the app, if it can be read. -/
def recordedGrants (env : TrashEnv) (id : String) : Install (Option Forage.Capabilities) := do
  match ← (loadLock env.plan env.lock).attempt with
  | .ok l => return (l.get id).map (·.granted)
  | .error _ => return none

def previewUpgrade (env : UpgradeEnv) : Install UpgradePreview := do
  let m ← openPackage env 0
  let recorded ← recordedGrants env.toTrashEnv m.package.id
  return ⟨m.package.id, upgradeGate recorded m.permissions⟩

/-! ## Installing and replacing -/

/-- `record_in_lock`, which logs what goes wrong. -/
def recordInLock (env : UpgradeEnv) (id version : String) (granted : Forage.Capabilities) :
    Install Unit := do
  match ← (loadLock env.plan env.lock).attempt with
  | .error _ => return ()
  | .ok l =>
    ignore (saveLock env.plan env.lock (l.record id
      { sourceLayer := "lunpkg", version, installedAt := env.nowSecs, granted }))

/-- `run_install_package`; the broker's registry of identities is not part of the tree. -/
def runInstallPackage (env : UpgradeEnv) (depth turn : Nat) : Install Unit := do
  let m ← openPackage env turn
  runTransaction env.toEnv depth env.fits m
  recordInLock env m.package.id m.package.version (capabilitiesFrom m.permissions)

/-- The installed version staged out of the way, and the package installed. -/
def replaceInstalled (env : UpgradeEnv) (depth : Nat) (id : String) : Install Unit := do
  match ← (stageForDeletion env.toTrashEnv id).attempt with
  | .error e => Action.fail (.trashFailed (env.describe e))
  | .ok _ => runInstallPackage env depth 1

def runUpgrade (env : UpgradeEnv) (depth : Nat) : Install Unit := do
  let preview ← previewUpgrade env
  match preview.gate with
  | .silent => replaceInstalled env depth preview.appId
  | .interruptive widened => Action.fail (.consentRequired (String.intercalate ", " widened))
  | .unknown requested => Action.fail (.consentRequired (String.intercalate ", " requested))

end Arlen.Installd
