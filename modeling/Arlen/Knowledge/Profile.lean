import Arlen.Lib.Toml
import Mathlib.Data.Finset.Card
import Mathlib.Data.Finset.Image

/-!
# Permission profiles and the scope they come to

`PermissionProfile` of `sdk/permissions/src/lib.rs`, as far as a scope is made of it,
and `ScopeSummary` of `daemons/knowledge/src/revoke.rs` with its two gates. A section
of flags is the set of the flags that are on.
-/

namespace Arlen.Knowledge

open Arlen.Lib.Toml

structure RelationPermission where
  «from» : String
  «to» : String
  relationType : String
deriving DecidableEq, Repr

inductive InstanceScopeConfig where
  | own
  | all
deriving DecidableEq, Repr

structure GraphPermissions where
  read : List String
  write : List String
  relations : List RelationPermission
  readSensitive : List String
  instanceScope : InstanceScopeConfig
  required : List String
deriving DecidableEq

structure EventBusPermissions where
  publish : List String
  subscribe : Option (List String)
deriving DecidableEq

structure FilesystemPermissions where
  dirs : Finset String
  custom : List String
deriving DecidableEq

structure NetworkPermissions where
  allowAll : Bool
  allowedDomains : List String
deriving DecidableEq

structure SystemPermissions where
  caps : Finset String
  power : Finset String
deriving DecidableEq

structure PermissionProfile where
  graph : GraphPermissions
  eventBus : EventBusPermissions
  filesystem : FilesystemPermissions
  network : NetworkPermissions
  notifications : Bool
  clipboard : Finset String
  system : SystemPermissions
  input : Finset String
  search : Finset String
  intents : Finset String
deriving DecidableEq

/-! ## Flags -/

def clipboardCaps : List String := ["read", "write", "read_sensitive", "history"]

def inputCaps : List String := ["register_focused_bindings", "register_global_bindings"]

def searchCaps : List String := ["open", "register_handler", "intercept_all"]

def intentsCaps : List String := ["dispatch", "register", "preferences"]

def fsDirs : List String := ["home", "documents", "downloads", "pictures", "music", "videos"]

def systemCaps : List String := ["autostart", "background", "suspend", "set_profile"]

/-- Whether a system cap lives under `[system.power]`. -/
def systemCapIsPower (cap : String) : Bool := cap = "suspend" || cap = "set_profile"

/-! ## Reading -/

def graphFields : List String :=
  ["read", "write", "app_isolated", "annotations_read_cross_namespace", "relations",
    "read_sensitive", "instance_scope", "delegated_namespaces", "required"]

def readRelation (n : Node) : Option RelationPermission :=
  (n.fields ["from", "to", "type"]).bind fun s =>
    (s.str "from").bind fun from' => (s.str "to").bind fun to' =>
      (s.str "type").map fun type => ⟨from', to', type⟩

def readRelations : Option Node → Option (List RelationPermission)
  | none => some []
  | some (.array vs) => vs.mapM readRelation
  | some (.tables ts) => ts.mapM fun t => readRelation (.table t)
  | _ => none

def scopeNamed (name : String) : Option InstanceScopeConfig :=
  if name = "own" then some .own else if name = "all" then some .all else none

/-- A variant by its name, or as a table with the name for its one key. -/
def readInstanceScope : Option Node → Option InstanceScopeConfig
  | none => some .own
  | some (.string name) => scopeNamed name
  | some (.table [(name, .table [])]) => scopeNamed name
  | some (.table [(name, .array [])]) => scopeNamed name
  | some (.table [(name, .tables [])]) => scopeNamed name
  | _ => none

def readGraph (s : Fields) : Option GraphPermissions :=
  (s.strings "read").bind fun read => (s.strings "write").bind fun write =>
    (readRelations (s "relations")).bind fun relations =>
      (s.strings "read_sensitive").bind fun readSensitive =>
        (readInstanceScope (s "instance_scope")).bind fun instanceScope =>
          (s.strings "required").map fun required =>
            ⟨read, write, relations, readSensitive, instanceScope, required⟩

def readEventBus (s : Fields) : Option EventBusPermissions :=
  (s.strings "publish").bind fun publish => (s.strings "subscribe").map fun subscribe =>
    ⟨publish, (s "subscribe").map fun _ => subscribe⟩

def readFilesystem (s : Fields) : Option FilesystemPermissions :=
  (s.flags fsDirs).bind fun dirs => (s.strings "custom").map fun custom => ⟨dirs, custom⟩

def readNetwork (s : Fields) : Option NetworkPermissions :=
  (s.flag "allow_all").bind fun allowAll =>
    (s.strings "allowed_domains").map fun allowedDomains => ⟨allowAll, allowedDomains⟩

def readSystem (s : Fields) : Option SystemPermissions :=
  (s.flags ["autostart", "background"]).bind fun caps =>
    (s.record "power" ["suspend", "set_profile", "schedule_wake"]).bind fun power =>
      (power.flags ["suspend", "set_profile"]).map fun power => ⟨caps, power⟩

/-- `toml::from_str`. -/
def PermissionProfile.fromDoc (s : Fields) : Option PermissionProfile :=
  ((s.record "graph" graphFields).bind readGraph).bind fun graph =>
  ((s.record "event_bus" ["publish", "subscribe"]).bind readEventBus).bind fun eventBus =>
  ((s.record "filesystem" (fsDirs ++ ["custom", "read_only"])).bind readFilesystem).bind
    fun filesystem =>
  ((s.record "network" ["allow_all", "allowed_domains"]).bind readNetwork).bind fun network =>
  ((s.record "notifications" ["enabled"]).bind (·.flag "enabled")).bind fun notifications =>
  ((s.record "clipboard" ["read", "read_sensitive", "write", "history"]).bind
    (·.flags clipboardCaps)).bind fun clipboard =>
  ((s.record "system" ["autostart", "background", "power"]).bind readSystem).bind fun system =>
  ((s.record "input" inputCaps).bind (·.flags inputCaps)).bind fun input =>
  ((s.record "search" searchCaps).bind (·.flags searchCaps)).bind fun search =>
  ((s.record "intents" intentsCaps).bind (·.flags intentsCaps)).map fun intents =>
    ⟨graph, eventBus, filesystem, network, notifications, clipboard, system, input, search,
      intents⟩

/-! ## The summary -/

structure ScopeSummary where
  read : Finset String
  write : Finset String
  readSensitive : Finset String
  relations : Finset (String × String × String)
  instanceAll : Bool
  networkDomains : Finset String
  networkAll : Bool
  clipboardCaps : Finset String
  notificationsOn : Bool
  inputCaps : Finset String
  searchCaps : Finset String
  intentsCaps : Finset String
  filesystemDirs : Finset String
  filesystemPaths : Finset String
  eventBusSubscribe : Finset String
  eventBusPublish : Finset String
  systemCaps : Finset String
deriving DecidableEq

def ScopeSummary.fromProfile (p : PermissionProfile) : ScopeSummary where
  read := p.graph.read.toFinset
  write := p.graph.write.toFinset
  readSensitive := p.graph.readSensitive.toFinset
  relations := (p.graph.relations.map fun r => (r.from, r.to, r.relationType)).toFinset
  instanceAll := p.graph.instanceScope = .all
  networkDomains := p.network.allowedDomains.toFinset
  networkAll := p.network.allowAll
  clipboardCaps := p.clipboard
  notificationsOn := p.notifications
  inputCaps := p.input
  searchCaps := p.search
  intentsCaps := p.intents
  filesystemDirs := p.filesystem.dirs
  filesystemPaths := p.filesystem.custom.toFinset
  eventBusSubscribe := (p.eventBus.subscribe.getD []).toFinset
  eventBusPublish := p.eventBus.publish.toFinset
  systemCaps := p.system.caps ∪ p.system.power

/-! ## The gates -/

def networkIsSubset (old new : ScopeSummary) : Bool :=
  if new.networkAll then old.networkAll
  else if old.networkAll then true
  else new.networkDomains ⊆ old.networkDomains

def networkStrictlySmaller (old new : ScopeSummary) : Bool :=
  if old.networkAll then !new.networkAll
  else !new.networkAll && new.networkDomains.card < old.networkDomains.card

/-- Every dimension of `new` lies in that of `old`, the network by its reach. -/
def everyDimensionSubset (old new : ScopeSummary) : Bool :=
  new.read ⊆ old.read && new.write ⊆ old.write && new.readSensitive ⊆ old.readSensitive &&
    new.relations ⊆ old.relations && (!new.instanceAll || old.instanceAll) &&
    networkIsSubset old new && new.clipboardCaps ⊆ old.clipboardCaps &&
    (!new.notificationsOn || old.notificationsOn) && new.inputCaps ⊆ old.inputCaps &&
    new.searchCaps ⊆ old.searchCaps && new.intentsCaps ⊆ old.intentsCaps &&
    new.filesystemDirs ⊆ old.filesystemDirs && new.filesystemPaths ⊆ old.filesystemPaths &&
    new.eventBusSubscribe ⊆ old.eventBusSubscribe && new.eventBusPublish ⊆ old.eventBusPublish &&
    new.systemCaps ⊆ old.systemCaps

def strictlySmaller (old new : ScopeSummary) : Bool :=
  new.read.card < old.read.card || new.write.card < old.write.card ||
    new.readSensitive.card < old.readSensitive.card || new.relations.card < old.relations.card ||
    (old.instanceAll && !new.instanceAll) || networkStrictlySmaller old new ||
    new.clipboardCaps.card < old.clipboardCaps.card ||
    (old.notificationsOn && !new.notificationsOn) || new.inputCaps.card < old.inputCaps.card ||
    new.searchCaps.card < old.searchCaps.card || new.intentsCaps.card < old.intentsCaps.card ||
    new.filesystemDirs.card < old.filesystemDirs.card ||
    new.filesystemPaths.card < old.filesystemPaths.card ||
    new.eventBusSubscribe.card < old.eventBusSubscribe.card ||
    new.eventBusPublish.card < old.eventBusPublish.card ||
    new.systemCaps.card < old.systemCaps.card

def isStrictNarrowing (old new : ScopeSummary) : Bool :=
  everyDimensionSubset old new && strictlySmaller old new

/-- The mirror image: the checks of the source with the two sides exchanged. -/
def isStrictWidening (old new : ScopeSummary) : Bool :=
  everyDimensionSubset new old && strictlySmaller new old

end Arlen.Knowledge
