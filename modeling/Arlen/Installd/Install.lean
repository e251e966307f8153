import Arlen.Installd.Calls
import Arlen.Lib.Path
import Arlen.Lib.Str
import Arlen.Lib.Utf8

/-!
# Installing and removing what a package brings

`install.rs` of `daemons/installd/installd`: the manifest, the app's own directory, its
schemas, modules, keybindings, settings schema and desktop entry, each with what writes
and what removes it. Reading TOML is a parameter. The commands that rebuild the caches
of the schemas and the desktop entries are left out, and so are their caches.
-/

namespace Arlen.Installd

open Arlen.Lib

/-! ## The manifest -/

structure PackageInfo where
  id : String
  name : String
  version : String
  description : String := ""
deriving DecidableEq

structure DesktopInfo where
  categories : List String := []
  keywords : List String := []
deriving DecidableEq

structure PermissionInfo where
  graphRead : List String := []
  graphWrite : List String := []
  filesystem : List String := []
  network : List String := []
  notifications : Bool := false
  clipboard : Bool := false
  input : List String := []
deriving DecidableEq

def PermissionInfo.canRegisterGlobalBindings (p : PermissionInfo) : Bool :=
  p.input.any (· = "register_global_bindings")

structure KeybindingEntry where
  id : String
  label : String
  defaultBinding : String
  action : Option String := none
  scope : String := "global"
deriving DecidableEq

def KeybindingEntry.effectiveAction (kb : KeybindingEntry) (packageId : String) : String :=
  kb.action.getD ("module:" ++ packageId ++ ":" ++ kb.id)

/-- `manifest.toml`; of the settings, what `toml::to_string` makes of their schema. -/
structure Manifest where
  package : PackageInfo
  binaryPath : String
  desktop : DesktopInfo := {}
  permissions : PermissionInfo := {}
  schemas : List String := []
  modules : List String := []
  keybindings : List KeybindingEntry := []
  settings : Option (Except String String) := none
deriving DecidableEq

inductive InstallError where
  | invalidAppId (id : String)
  | consentRequired (wants : String)
  | packageNotFound (path : String)
  | manifestNotFound
  | signatureNotFound
  | invalidManifest (reason : String)
  | alreadyInstalled (id : String)
  | notInstalled (id : String)
  | insufficientDiskSpace
  | trashFailed (reason : String)
  | signatureVerificationFailed (reason : String)
  | io (error : IoError)
deriving DecidableEq

/-- What surrounds the daemon: which calls fail, the readers and writers of TOML, the
profile of a module's manifest, the path of the apps directory and the name of the
directory a package is extracted to. -/
structure Env where
  plan : Plan
  parse : String → Except String Manifest
  profile : Bytes → Option (String × Bytes)
  appsDir : String
  tempName : Name

abbrev Install := Action World InstallError

/-- `arlen_permissions::is_valid_app_id`. -/
def isValidAppId (id : String) : Bool :=
  id ≠ "" && id ≠ ".." && !startsWith id "." && !endsWith id "." &&
    !Text.contains ['.', '.'] id.toList &&
    id.toList.all fun c => c.isAlphanum || c = '.' || c = '_' || c = '-' || c = '+'

def validateAppId (id : String) : Except InstallError Unit :=
  if isValidAppId id then .ok () else .error (.invalidAppId id)

/-- `load_manifest`. -/
def loadManifest (env : Env) (dir : Loc) : Install Manifest := do
  if ← pathExists env.plan (dir ++ [utf8 "manifest.toml"]) then
    let content ← (read env.plan (dir ++ [utf8 "manifest.toml"])).mapError .io
    match decodeUtf8 content with
    | none => Action.fail (.io .invalidData)
    | some text =>
      match env.parse text with
      | .error reason => Action.fail (.invalidManifest reason)
      | .ok manifest => return manifest
  else Action.fail .manifestNotFound

/-! ## Paths of a package -/

/-- The names of the path's components. -/
def namesOf (p : Path.PathBuf) : List Name :=
  (Path.components p).filterMap fun c =>
    match c with
    | .normal n => some n
    | _ => none

/-- `extracted_dir.join(rel)`. -/
def packagePath (rel : String) : Loc :=
  if Path.isAbsolute (utf8 rel) then Shelf.host.at (namesOf (utf8 rel))
  else Shelf.package.at (namesOf (utf8 rel))

/-- `Path::new(rel).file_name()`. -/
def ownName (rel : String) : Option Name := Path.fileName (utf8 rel)

/-- `extracted_dir.join(rel).file_name()`: of a path without a name, that of the directory
the package was extracted to. -/
def joinedName (env : Env) (rel : String) : Option Name :=
  match Path.components (utf8 rel) with
  | [] => some env.tempName
  | [.curDir] => some env.tempName
  | _ => ownName rel

def hasDotDot (rel : String) : Bool := Text.contains ['.', '.'] rel.toList

/-! ## Schemas -/

def installSchema (env : Env) (rel : String) : Install Unit := do
  if hasDotDot rel then
    Action.fail (.invalidManifest ("schema path contains '..': " ++ rel))
  else if ← pathExists env.plan (packagePath rel) then
    match joinedName env rel with
    | none => Action.fail (.invalidManifest "invalid schema path")
    | some n => (copy env.plan (packagePath rel) (Shelf.schemas.at [n])).mapError .io
  else return ()

def installSchemas (env : Env) (m : Manifest) : Install Unit := do
  if m.schemas = [] then return ()
  else
    (createDirAll env.plan (Shelf.schemas.at [])).mapError .io
    Action.forEach m.schemas (installSchema env)

def removeSchema (env : Env) (rel : String) : Install Unit := do
  match ownName rel with
  | none => return ()
  | some n =>
    if ← pathExists env.plan (Shelf.schemas.at [n]) then
      (removeFile env.plan (Shelf.schemas.at [n])).mapError .io
    else return ()

def removeSchemas (env : Env) (m : Manifest) : Install Unit :=
  Action.forEach m.schemas (removeSchema env)

/-! ## Modules -/

/-- `copy_dir_recursive`, to a depth. -/
def copyDirRecursive (env : Env) : Nat → Loc → Loc → Install Unit
  | 0, _, _ => Action.outOfFuel
  | depth + 1, src, dst => do
    (createDirAll env.plan dst).mapError .io
    let entries ← (readDir env.plan src).mapError .io
    Action.forEach entries fun n => do
      if ← isDir env.plan (src ++ [n]) then copyDirRecursive env depth (src ++ [n]) (dst ++ [n])
      else (copy env.plan (src ++ [n]) (dst ++ [n])).mapError .io

/-- `write_profile`, of an id that is a valid one. -/
def writeProfile (env : Env) (id : String) (text : Bytes) : Install Unit := do
  (createDirAll env.plan (Shelf.permissions.at [])).mapError .io
  (write env.plan (Shelf.permissions.at [utf8 (id ++ ".toml.tmp")]) text).mapError .io
  (rename env.plan (Shelf.permissions.at [utf8 (id ++ ".toml.tmp")])
    (Shelf.permissions.at [utf8 (id ++ ".toml")])).mapError .io

/-- The profile a module's manifest asks for; what goes wrong is only logged. -/
def grantModule (env : Env) (dest : Loc) : Install Unit := do
  if ← pathExists env.plan (dest ++ [utf8 "manifest.toml"]) then
    match ← ((read env.plan (dest ++ [utf8 "manifest.toml"])).mapError InstallError.io).attempt with
    | .error _ => return ()
    | .ok content =>
      match env.profile content with
      | none => return ()
      | some (id, text) =>
        if isValidAppId id then ignore (writeProfile env id text) else return ()
  else return ()

/-- A module that is there already makes room. -/
def clearModule (env : Env) (id : Name) : Install Unit := do
  if ← pathExists env.plan (Shelf.modules.at [id]) then
    (removeDirAll env.plan (Shelf.modules.at [id])).mapError .io
  else return ()

/-- The module of one path, with its id; a path that is no directory is passed over. -/
def installModule (env : Env) (depth : Nat) (rel : String) : Install (Option Name) := do
  if hasDotDot rel then
    Action.fail (.invalidManifest ("module path contains '..': " ++ rel))
  else if ← isDir env.plan (packagePath rel) then
    match joinedName env rel with
    | none => Action.fail (.invalidManifest "invalid module path")
    | some n =>
      clearModule env n
      copyDirRecursive env depth (packagePath rel) (Shelf.modules.at [n])
      grantModule env (Shelf.modules.at [n])
      return some n
  else return none

def installEachModule (env : Env) (depth : Nat) : List String → Install (List Name)
  | [] => return []
  | rel :: rest => do
    let id ← installModule env depth rel
    let ids ← installEachModule env depth rest
    return id.toList ++ ids

/-- `install_modules`, with the ids of the modules. -/
def installModules (env : Env) (depth : Nat) (m : Manifest) : Install (List Name) := do
  if m.modules = [] then return []
  else
    (createDirAll env.plan (Shelf.modules.at [])).mapError .io
    installEachModule env depth m.modules

/-- `remove_profile`. -/
def removeProfile (env : Env) (id : String) : Install Unit := do
  if isValidAppId id then
    if ← pathExists env.plan (Shelf.permissions.at [utf8 (id ++ ".toml")]) then
      (removeFile env.plan (Shelf.permissions.at [utf8 (id ++ ".toml")])).mapError .io
    else return ()
  else Action.fail (.invalidAppId id)

def removeModule (env : Env) (rel : String) : Install Unit := do
  match ownName rel with
  | none => return ()
  | some n =>
    if ← pathExists env.plan (Shelf.modules.at [n]) then
      (removeDirAll env.plan (Shelf.modules.at [n])).mapError .io
    ignore (removeProfile env (fromUtf8Lossy n))

def removeModules (env : Env) (m : Manifest) : Install Unit :=
  Action.forEach m.modules (removeModule env)

/-! ## The app's own files -/

def copyPart (env : Env) (depth : Nat) (dest : Loc) (part : String) : Install Unit := do
  if ← pathExists env.plan (Shelf.package.at [utf8 part]) then
    copyDirRecursive env depth (Shelf.package.at [utf8 part]) (dest ++ [utf8 part])
  else return ()

def copyFile (env : Env) (dest : Loc) (part : String) : Install Unit := do
  if ← pathExists env.plan (Shelf.package.at [utf8 part]) then
    (copy env.plan (Shelf.package.at [utf8 part]) (dest ++ [utf8 part])).mapError .io
  else return ()

/-- The directory of an app. -/
def appDir (id : String) : Loc := Shelf.apps.at [utf8 id]

/-- `install_to_user`; the modes of the binaries are not part of the tree. -/
def installToUser (env : Env) (depth : Nat) (m : Manifest) : Install Unit := do
  let dest := appDir m.package.id
  if ← pathExists env.plan dest then Action.fail (.alreadyInstalled m.package.id)
  else
    (createDirAll env.plan dest).mapError .io
    Action.forEach ["bin", "lib", "share"] (copyPart env depth dest)
    Action.forEach ["manifest.toml", "signature.sig"] (copyFile env dest)

/-! ## Files of one name -/

/-- Write a file of its own name through a temporary one beside it. -/
def place (env : Env) (s : Shelf) (file : String) (text : String) : Install Unit := do
  (createDirAll env.plan (s.at [])).mapError .io
  (write env.plan (s.at [utf8 (file ++ ".tmp")]) (utf8 text)).mapError .io
  (rename env.plan (s.at [utf8 (file ++ ".tmp")]) (s.at [utf8 file])).mapError .io

/-- Remove a file if it is there. -/
def removePlaced (env : Env) (s : Shelf) (file : String) : Install Unit := do
  if ← pathExists env.plan (s.at [utf8 file]) then
    (removeFile env.plan (s.at [utf8 file])).mapError .io
  else return ()

def escapeQuotes (s : String) : String :=
  String.ofList (s.toList.flatMap fun c => if c = '"' then ['\\', '"'] else [c])

/-- The bindings the package may register. -/
def shippable (m : Manifest) : List KeybindingEntry :=
  m.keybindings.filter fun kb =>
    kb.scope ≠ "global" || m.permissions.canRegisterGlobalBindings

def bindingLine (m : Manifest) (kb : KeybindingEntry) : String :=
  "\"" ++ escapeQuotes kb.defaultBinding ++ "\" = \"" ++
    escapeQuotes (kb.effectiveAction m.package.id) ++ "\"  # " ++ kb.label ++ "\n"

def keybindingsText (m : Manifest) : String :=
  "# Auto-generated keybindings for " ++ m.package.id ++ "\n" ++
    "# Managed by installd — do not edit manually.\n\n" ++ "[keybindings]\n" ++
    String.join ((shippable m).map (bindingLine m))

def tomlFile (id : String) : String := id ++ ".toml"

/-- `write_keybindings_fragment`, with whether it wrote one. The directory is made before
the bindings are counted. -/
def writeKeybindingsFragment (env : Env) (m : Manifest) : Install Bool := do
  if m.keybindings = [] then return false
  else if shippable m = [] then
    (createDirAll env.plan (Shelf.keybindings.at [])).mapError .io
    return false
  else
    place env .keybindings (tomlFile m.package.id) (keybindingsText m)
    return true

def removeKeybindingsFragment (env : Env) (id : String) : Install Unit :=
  removePlaced env .keybindings (tomlFile id)

def settingsText (id body : String) : String :=
  "# Settings schema for " ++ id ++ ", installed from its package.\n" ++
    "         # Managed by installd, do not edit manually.\n\n" ++ body

/-- `write_settings_schema`, with whether it wrote one. -/
def writeSettingsSchema (env : Env) (m : Manifest) : Install Bool :=
  match m.settings with
  | none => return false
  | some (.error reason) => do
    (createDirAll env.plan (Shelf.settings.at [])).mapError .io
    Action.fail (.invalidManifest ("settings schema for " ++ m.package.id ++ ": " ++ reason))
  | some (.ok body) => do
    place env .settings (tomlFile m.package.id) (settingsText m.package.id body)
    return true

def removeSettingsSchema (env : Env) (id : String) : Install Unit :=
  removePlaced env .settings (tomlFile id)

/-- `Path::join`, of texts. -/
def joinText (dir p : String) : String :=
  if startsWith p "/" then p
  else if dir = "" || endsWith dir "/" then dir ++ p
  else dir ++ "/" ++ p

def desktopList (key : String) (l : List String) : String :=
  if l = [] then "" else key ++ "=" ++ String.intercalate ";" l ++ "\n"

def desktopText (env : Env) (m : Manifest) : String :=
  "[Desktop Entry]\nType=Application\nName=" ++ m.package.name ++ "\nComment=" ++
    m.package.description ++ "\nExec=" ++
    joinText (joinText env.appsDir m.package.id) m.binaryPath ++ "\nIcon=" ++ m.package.id ++
    "\nTerminal=false\nStartupWMClass=" ++ m.package.id ++ "\n" ++
    desktopList "Categories" m.desktop.categories ++ desktopList "Keywords" m.desktop.keywords

def desktopFile (id : String) : String := id ++ ".desktop"

/-- `create_desktop_entry`, which sets the mode of the temporary file as well. -/
def createDesktopEntry (env : Env) (m : Manifest) : Install Unit := do
  let file := desktopFile m.package.id
  (createDirAll env.plan (Shelf.desktop.at [])).mapError .io
  (write env.plan (Shelf.desktop.at [utf8 (file ++ ".tmp")]) (utf8 (desktopText env m))).mapError .io
  (setPermissions env.plan (Shelf.desktop.at [utf8 (file ++ ".tmp")])).mapError .io
  (rename env.plan (Shelf.desktop.at [utf8 (file ++ ".tmp")])
    (Shelf.desktop.at [utf8 file])).mapError .io

end Arlen.Installd
