import Arlen.Installd.Install

/-!
# The install transaction

`transaction.rs`: the steps of an installation with what each records of itself, and the
rollback of a transaction that is dropped uncommitted. A step records itself once it has
done all its work, and the rollback removes by name.
-/

namespace Arlen.Installd

open Arlen.Lib

/-- What the steps have recorded. -/
structure InstallTransaction where
  appDir : Bool := false
  installedSchemas : Bool := false
  installedModules : List Name := []
  desktopEntry : Bool := false
  keybindingsFragment : Bool := false
  settingsSchema : Bool := false
deriving DecidableEq

/-- A transaction at work. -/
structure Job where
  world : World
  txn : InstallTransaction

abbrev Step := Action Job InstallError Unit

/-- An action, with what the transaction records once it has succeeded. -/
def recording {α : Type} (act : Install α)
    (note : α → InstallTransaction → InstallTransaction) : Step := fun j =>
  match act j.world with
  | none => none
  | some (.ok a, w) => some (.ok (), ⟨w, note a j.txn⟩)
  | some (.error e, w) => some (.error e, ⟨w, j.txn⟩)

namespace InstallTransaction

/-- `check_disk_space`: whether the disk has room is a parameter. -/
def checkDiskSpace (fits : Bool) : Step :=
  if fits then return () else Action.fail .insufficientDiskSpace

def installFiles (env : Env) (depth : Nat) (m : Manifest) : Step :=
  recording (installToUser env depth m) fun _ t => { t with appDir := true }

def installSchemas (env : Env) (m : Manifest) : Step :=
  recording (Installd.installSchemas env m) fun _ t =>
    if m.schemas = [] then t else { t with installedSchemas := true }

def installModules (env : Env) (depth : Nat) (m : Manifest) : Step :=
  recording (Installd.installModules env depth m) fun ids t => { t with installedModules := ids }

def writeKeybindings (env : Env) (m : Manifest) : Step :=
  recording (writeKeybindingsFragment env m) fun wrote t => { t with keybindingsFragment := wrote }

def writeSettingsSchema (env : Env) (m : Manifest) : Step :=
  recording (Installd.writeSettingsSchema env m) fun wrote t => { t with settingsSchema := wrote }

def createDesktopEntry (env : Env) (m : Manifest) : Step :=
  recording (Installd.createDesktopEntry env m) fun _ t => { t with desktopEntry := true }

end InstallTransaction

/-- A file that is there is removed, whatever comes of it. -/
def dropFile (env : Env) (p : Loc) : Install Unit := do
  if ← pathExists env.plan p then ignore (removeFile env.plan p) else return ()

def dropTree (env : Env) (p : Loc) : Install Unit := do
  if ← pathExists env.plan p then ignore (removeDirAll env.plan p) else return ()

/-- The rollback of one step. -/
def undo (env : Env) (m : Manifest) (t : InstallTransaction) : Shelf → Install Unit
  | .desktop =>
    if t.desktopEntry then dropFile env (Shelf.desktop.at [utf8 (desktopFile m.package.id)])
    else return ()
  | .settings =>
    if t.settingsSchema then dropFile env (Shelf.settings.at [utf8 (tomlFile m.package.id)])
    else return ()
  | .keybindings =>
    if t.keybindingsFragment then dropFile env (Shelf.keybindings.at [utf8 (tomlFile m.package.id)])
    else return ()
  | .modules => if t.installedModules ≠ [] then ignore (removeModules env m) else return ()
  | .schemas => if t.installedSchemas then ignore (removeSchemas env m) else return ()
  | .apps => if t.appDir then dropTree env (Installd.appDir m.package.id) else return ()
  | _ => return ()

/-- `rollback`, the steps in reverse order and then the directory of the package. -/
def rollback (env : Env) (m : Manifest) (t : InstallTransaction) : Install Unit := do
  Action.forEach [.desktop, .settings, .keybindings, .modules, .schemas, .apps] (undo env m t)
  dropTree env (Shelf.package.at [])

/-- The steps of `run_install_package` from its transaction on, but the check for space. -/
def installSteps (env : Env) (depth : Nat) (m : Manifest) : List Step :=
  [InstallTransaction.installFiles env depth m, InstallTransaction.installSchemas env m,
    InstallTransaction.installModules env depth m, InstallTransaction.writeKeybindings env m,
    InstallTransaction.writeSettingsSchema env m, InstallTransaction.createDesktopEntry env m]

def transact (env : Env) (depth : Nat) (fits : Bool) (m : Manifest) : Step := do
  InstallTransaction.checkDiskSpace fits
  Action.forEach (installSteps env depth m) id

/-- The transaction is committed, or dropped and rolled back. The removals of the rollback
do not fail by themselves. -/
def runTransaction (env : Env) (depth : Nat) (fits : Bool) (m : Manifest) : Install Unit := fun w =>
  match transact env depth fits m ⟨w, {}⟩ with
  | none => none
  | some (.ok (), j) => (ignore (removeDirAll env.plan (Shelf.package.at [])) : Install Unit) j.world
  | some (.error e, j) =>
    match rollback { env with plan := noFault } m j.txn j.world with
    | none => none
    | some (_, w') => some (.error e, w')

end Arlen.Installd
