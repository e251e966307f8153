import Arlen.Knowledge.Revoke
import Arlen.Lib.Sort
import Arlen.Lib.Str
import Arlen.Lib.Utf8
import Mathlib.Data.String.Basic

/-!
# Giving up everything an app is shown to hold

`contracts/extensions`: the labels an app's permission profile is shown under
(`profile_labels`), the reaches that giving up labels comes to (`resolve_reaches`), and what
cannot be given up (`unrevocable`). Three lists are kept by hand, over a profile of many
fields. What no label covers stays behind: relations, the reach into other apps' instances,
the clipboard's sensitive entries and its history, read-only paths, and the graph's sensitive
reads, foreign annotations and delegated namespaces.
-/

namespace Arlen.Extensions

open Arlen.Lib
open Arlen.Knowledge (RevokedReach RelationPermission InstanceScopeConfig)

/-! ## The profile -/

structure GraphPermissions where
  read : List String := []
  write : List String := []
  appIsolated : Bool := false
  annotationsReadCrossNamespace : List String := []
  relations : List RelationPermission := []
  readSensitive : List String := []
  instanceScope : InstanceScopeConfig := .own
  delegatedNamespaces : List String := []
  required : List String := []

structure EventBusPermissions where
  publish : List String := []
  subscribe : Option (List String) := none

/-- The paths are bytes, which need not be text. -/
structure FilesystemPermissions where
  home : Bool := false
  documents : Bool := false
  downloads : Bool := false
  pictures : Bool := false
  music : Bool := false
  videos : Bool := false
  custom : List Bytes := []
  readOnly : List Bytes := []

structure NetworkPermissions where
  allowAll : Bool := false
  allowedDomains : List String := []

structure ClipboardPermissions where
  read : Bool := false
  readSensitive : Bool := false
  write : Bool := false
  history : Bool := false

structure PowerPermissions where
  suspend : Bool := false
  setProfile : Bool := false
  scheduleWake : Bool := false

structure SystemPermissions where
  autostart : Bool := false
  background : Bool := false
  power : PowerPermissions := {}

structure InputPermissions where
  registerFocusedBindings : Bool := false
  registerGlobalBindings : Bool := false

structure SearchPermissions where
  «open» : Bool := false
  registerHandler : Bool := false
  interceptAll : Bool := false

structure IntentsPermissions where
  dispatch : Bool := false
  register : Bool := false
  preferences : Bool := false

structure PermissionProfile where
  graph : GraphPermissions := {}
  eventBus : EventBusPermissions := {}
  filesystem : FilesystemPermissions := {}
  network : NetworkPermissions := {}
  notifications : Bool := false
  clipboard : ClipboardPermissions := {}
  system : SystemPermissions := {}
  input : InputPermissions := {}
  search : SearchPermissions := {}
  intents : IntentsPermissions := {}

/-! ## Flags by their names -/

/-- Flags of a section, each under the name a revoke gives it. -/
abbrev Flags := List (String × Bool)

def FilesystemPermissions.dirs (fs : FilesystemPermissions) : Flags :=
  [("home", fs.home), ("documents", fs.documents), ("downloads", fs.downloads),
    ("pictures", fs.pictures), ("music", fs.music), ("videos", fs.videos)]

def InputPermissions.caps (i : InputPermissions) : Flags :=
  [("register_focused_bindings", i.registerFocusedBindings),
    ("register_global_bindings", i.registerGlobalBindings)]

def SearchPermissions.caps (s : SearchPermissions) : Flags :=
  [("open", s.open), ("register_handler", s.registerHandler), ("intercept_all", s.interceptAll)]

def IntentsPermissions.caps (i : IntentsPermissions) : Flags :=
  [("dispatch", i.dispatch), ("register", i.register), ("preferences", i.preferences)]

def SystemPermissions.caps (s : SystemPermissions) : Flags :=
  [("autostart", s.autostart), ("background", s.background), ("suspend", s.power.suspend),
    ("set_profile", s.power.setProfile)]

/-- The clipboard's flags, as many as a label stands for. -/
def ClipboardPermissions.shownCaps (c : ClipboardPermissions) : Flags :=
  [("read", c.read), ("write", c.write)]

def ClipboardPermissions.caps (c : ClipboardPermissions) : Flags :=
  [("read", c.read), ("write", c.write), ("read_sensitive", c.readSensitive),
    ("history", c.history)]

def Flags.any (f : Flags) : Bool := List.any f (·.2)

/-! ## What is shown -/

/-- `BTreeSet`: in order, each once. -/
def btreeSet (l : List String) : List String := sortBy id l.dedup

def profileLabels (p : PermissionProfile) : List String :=
  let shown (label : String) (on : Bool) : List String := if on then [label] else []
  btreeSet <|
    shown "network" (p.network.allowAll || !p.network.allowedDomains.isEmpty)
    ++ shown "filesystem" (p.filesystem.dirs.any || !p.filesystem.custom.isEmpty)
    ++ shown "notifications" p.notifications
    ++ shown "clipboard" (p.clipboard.read || p.clipboard.write)
    ++ shown "system" (p.system.autostart || p.system.background || p.system.power.suspend
        || p.system.power.setProfile)
    ++ shown "input" (p.input.registerFocusedBindings || p.input.registerGlobalBindings)
    ++ shown "search" (p.search.open || p.search.registerHandler || p.search.interceptAll)
    ++ shown "intents" (p.intents.dispatch || p.intents.register || p.intents.preferences)
    ++ shown "events" (!p.eventBus.publish.isEmpty || p.eventBus.subscribe.any (!·.isEmpty))
    ++ p.graph.read.map ("read:" ++ ·)
    ++ p.graph.write.map ("write:" ++ ·)

/-! ## What giving it up comes to -/

/-- The reaches of the flags that are on. -/
def flagReaches (mk : String → RevokedReach) (f : Flags) : List RevokedReach :=
  f.filterMap fun flag => if flag.2 then some (mk flag.1) else none

/-- The reaches of one label. -/
def reachesOf (p : PermissionProfile) (label : String) : List RevokedReach :=
  if label = "network" ∧ p.network.allowAll = false then
    p.network.allowedDomains.map .networkDomain
  else if label = "filesystem" then
    flagReaches .filesystemDir p.filesystem.dirs
      ++ (p.filesystem.custom.filterMap decodeUtf8).map .filesystemPath
  else if label = "input" then flagReaches .inputCap p.input.caps
  else if label = "search" then flagReaches .searchCap p.search.caps
  else if label = "intents" then flagReaches .intentsCap p.intents.caps
  else if label = "events" then
    (p.eventBus.subscribe.getD []).map .eventBusSubscribe
      ++ p.eventBus.publish.map .eventBusPublish
  else if label = "system" then flagReaches .systemCap p.system.caps
  else if label = "notifications" ∧ p.notifications = true then [.notificationsOff]
  else if label = "clipboard" then flagReaches .clipboardCap p.clipboard.shownCaps
  else
    match stripPrefix label "read:" with
    | some pattern => [.read pattern]
    | none =>
      match stripPrefix label "write:" with
      | some pattern => [.write pattern]
      | none => []

def resolveReaches (p : PermissionProfile) (labels : List String) : List RevokedReach :=
  labels.flatMap (reachesOf p)

def unrevocable (p : PermissionProfile) (labels : List String) : List String :=
  if p.network.allowAll && labels.any (· = "network") then
    ["This app has blanket network access, which cannot be narrowed one domain at a time."]
  else []

/-! ## A reach given up -/

/-- The flag stays on unless it is the one named. -/
def keeps (on : Bool) (flag named : String) : Bool := on && flag ≠ named

/-- The entry is removed, or the flag is off. -/
def PermissionProfile.revoke (p : PermissionProfile) : RevokedReach → PermissionProfile
  | .read e => { p with graph.read := p.graph.read.filter (· ≠ e) }
  | .write e => { p with graph.write := p.graph.write.filter (· ≠ e) }
  | .relation r => { p with graph.relations := p.graph.relations.filter (· ≠ r) }
  | .instanceAll => { p with graph.instanceScope := .own }
  | .networkDomain d => { p with network.allowedDomains := p.network.allowedDomains.filter (· ≠ d) }
  | .clipboardCap c => { p with clipboard :=
      { read := keeps p.clipboard.read "read" c
        write := keeps p.clipboard.write "write" c
        readSensitive := keeps p.clipboard.readSensitive "read_sensitive" c
        history := keeps p.clipboard.history "history" c } }
  | .notificationsOff => { p with notifications := false }
  | .inputCap c => { p with input :=
      { registerFocusedBindings := keeps p.input.registerFocusedBindings "register_focused_bindings" c
        registerGlobalBindings := keeps p.input.registerGlobalBindings "register_global_bindings" c } }
  | .searchCap c => { p with search :=
      { «open» := keeps p.search.open "open" c
        registerHandler := keeps p.search.registerHandler "register_handler" c
        interceptAll := keeps p.search.interceptAll "intercept_all" c } }
  | .intentsCap c => { p with intents :=
      { dispatch := keeps p.intents.dispatch "dispatch" c
        register := keeps p.intents.register "register" c
        preferences := keeps p.intents.preferences "preferences" c } }
  | .filesystemDir d => { p with filesystem :=
      { p.filesystem with
        home := keeps p.filesystem.home "home" d
        documents := keeps p.filesystem.documents "documents" d
        downloads := keeps p.filesystem.downloads "downloads" d
        pictures := keeps p.filesystem.pictures "pictures" d
        music := keeps p.filesystem.music "music" d
        videos := keeps p.filesystem.videos "videos" d } }
  | .filesystemPath s =>
    { p with filesystem.custom := p.filesystem.custom.filter fun path => decodeUtf8 path ≠ some s }
  | .eventBusSubscribe x =>
    { p with eventBus.subscribe := p.eventBus.subscribe.map fun l => l.filter (· ≠ x) }
  | .eventBusPublish x => { p with eventBus.publish := p.eventBus.publish.filter (· ≠ x) }
  | .systemCap c => { p with system :=
      { autostart := keeps p.system.autostart "autostart" c
        background := keeps p.system.background "background" c
        power := { p.system.power with
          suspend := keeps p.system.power.suspend "suspend" c
          setProfile := keeps p.system.power.setProfile "set_profile" c } } }

/-- The profile behind giving up everything that is shown. -/
def PermissionProfile.narrowed (p : PermissionProfile) : PermissionProfile :=
  (resolveReaches p (profileLabels p)).foldl PermissionProfile.revoke p

/-- The profile grants what the reach names. -/
def PermissionProfile.Holds (p : PermissionProfile) : RevokedReach → Prop
  | .read e => e ∈ p.graph.read
  | .write e => e ∈ p.graph.write
  | .relation r => r ∈ p.graph.relations
  | .instanceAll => p.graph.instanceScope = .all
  | .networkDomain d => d ∈ p.network.allowedDomains
  | .clipboardCap c => (c, true) ∈ p.clipboard.caps
  | .notificationsOff => p.notifications = true
  | .inputCap c => (c, true) ∈ p.input.caps
  | .searchCap c => (c, true) ∈ p.search.caps
  | .intentsCap c => (c, true) ∈ p.intents.caps
  | .filesystemDir d => (d, true) ∈ p.filesystem.dirs
  | .filesystemPath s => s ∈ p.filesystem.custom.filterMap decodeUtf8
  | .eventBusSubscribe x => x ∈ p.eventBus.subscribe.getD []
  | .eventBusPublish x => x ∈ p.eventBus.publish
  | .systemCap c => (c, true) ∈ p.system.caps

/-- Nothing is left: no grant a revoke can name, and no filesystem reach and no graph reach
that it cannot. -/
structure Bare (p : PermissionProfile) : Prop where
  named : ∀ r, ¬ p.Holds r
  custom : p.filesystem.custom = []
  readOnly : p.filesystem.readOnly = []
  readSensitive : p.graph.readSensitive = []
  annotations : p.graph.annotationsReadCrossNamespace = []
  delegated : p.graph.delegatedNamespaces = []

/-- Giving up what is shown leaves nothing behind, and every label gives something up or is
reported. -/
structure LeavesNothing (p : PermissionProfile) : Prop where
  bare : unrevocable p (profileLabels p) = [] → Bare p.narrowed ∧ profileLabels p.narrowed = []
  resolves : ∀ label ∈ profileLabels p,
    resolveReaches p [label] ≠ [] ∨ unrevocable p [label] ≠ []

/-- What the profile holds, a label covers. -/
structure Covered (p : PermissionProfile) : Prop where
  relations : p.graph.relations = []
  instances : p.graph.instanceScope = .own
  clipboard : p.clipboard.readSensitive = false ∧ p.clipboard.history = false
  readOnly : p.filesystem.readOnly = []
  readSensitive : p.graph.readSensitive = []
  annotations : p.graph.annotationsReadCrossNamespace = []
  delegated : p.graph.delegatedNamespaces = []
  text : ∀ path ∈ p.filesystem.custom, decodeUtf8 path ≠ none

variable {p : PermissionProfile} {r r' : RevokedReach} {label : String}

/-! ### One reach, and many -/

theorem mem_flags_keeps {f : Flags} {flag named : String} :
    (flag, true) ∈ f.map (fun x => (x.1, keeps x.2 x.1 named)) ↔ (flag, true) ∈ f ∧ flag ≠ named := by
  simp only [List.mem_map, Prod.exists, Prod.mk.injEq, keeps, Bool.and_eq_true, decide_eq_true_eq]
  constructor
  · rintro ⟨x, on, hmem, rfl, rfl, hne⟩
    exact ⟨hmem, hne⟩
  · rintro ⟨hmem, hne⟩
    exact ⟨flag, true, hmem, rfl, rfl, hne⟩

/-- **Giving up a reach** takes this reach and no other. -/
theorem holds_revoke : (p.revoke r).Holds r' ↔ p.Holds r' ∧ r' ≠ r := by
  cases r with
  | filesystemPath s =>
    cases r' with
    | filesystemPath s' =>
      simp only [PermissionProfile.revoke, PermissionProfile.Holds, List.mem_filterMap,
        List.mem_filter, decide_eq_true_eq, ne_eq, RevokedReach.filesystemPath.injEq]
      constructor
      · rintro ⟨path, ⟨hmem, hne⟩, hs⟩
        exact ⟨⟨path, hmem, hs⟩, fun heq => hne (heq ▸ hs)⟩
      · rintro ⟨⟨path, hmem, hs⟩, hne⟩
        exact ⟨path, ⟨hmem, fun heq => hne (Option.some.inj (hs.symm.trans heq))⟩, hs⟩
    | _ => simp [PermissionProfile.revoke, PermissionProfile.Holds, FilesystemPermissions.dirs]
  | eventBusSubscribe x =>
    cases r' with
    | eventBusSubscribe x' =>
      simp only [PermissionProfile.revoke, PermissionProfile.Holds]
      cases p.eventBus.subscribe <;> simp
    | _ => simp [PermissionProfile.revoke, PermissionProfile.Holds]
  | clipboardCap c =>
    cases r' with
    | clipboardCap c' =>
      rw [ne_eq, RevokedReach.clipboardCap.injEq]
      exact mem_flags_keeps (f := p.clipboard.caps)
    | _ => simp [PermissionProfile.revoke, PermissionProfile.Holds]
  | inputCap c =>
    cases r' with
    | inputCap c' =>
      rw [ne_eq, RevokedReach.inputCap.injEq]
      exact mem_flags_keeps (f := p.input.caps)
    | _ => simp [PermissionProfile.revoke, PermissionProfile.Holds]
  | searchCap c =>
    cases r' with
    | searchCap c' =>
      rw [ne_eq, RevokedReach.searchCap.injEq]
      exact mem_flags_keeps (f := p.search.caps)
    | _ => simp [PermissionProfile.revoke, PermissionProfile.Holds]
  | intentsCap c =>
    cases r' with
    | intentsCap c' =>
      rw [ne_eq, RevokedReach.intentsCap.injEq]
      exact mem_flags_keeps (f := p.intents.caps)
    | _ => simp [PermissionProfile.revoke, PermissionProfile.Holds]
  | filesystemDir c =>
    cases r' with
    | filesystemDir c' =>
      rw [ne_eq, RevokedReach.filesystemDir.injEq]
      exact mem_flags_keeps (f := p.filesystem.dirs)
    | _ => simp [PermissionProfile.revoke, PermissionProfile.Holds]
  | systemCap c =>
    cases r' with
    | systemCap c' =>
      rw [ne_eq, RevokedReach.systemCap.injEq]
      exact mem_flags_keeps (f := p.system.caps)
    | _ => simp [PermissionProfile.revoke, PermissionProfile.Holds]
  | _ => cases r' <;> simp [PermissionProfile.revoke, PermissionProfile.Holds]

/-- What giving up reaches leaves alone. -/
structure SameRest (p p' : PermissionProfile) : Prop where
  allowAll : p'.network.allowAll = p.network.allowAll
  readOnly : p'.filesystem.readOnly = p.filesystem.readOnly
  readSensitive : p'.graph.readSensitive = p.graph.readSensitive
  annotations : p'.graph.annotationsReadCrossNamespace = p.graph.annotationsReadCrossNamespace
  delegated : p'.graph.delegatedNamespaces = p.graph.delegatedNamespaces
  noText : ∀ path, decodeUtf8 path = none →
    (path ∈ p'.filesystem.custom ↔ path ∈ p.filesystem.custom)

theorem sameRest_revoke (p : PermissionProfile) (r : RevokedReach) : SameRest p (p.revoke r) := by
  cases r with
  | filesystemPath s =>
    refine ⟨rfl, rfl, rfl, rfl, rfl, fun path hpath => ?_⟩
    simp [PermissionProfile.revoke, hpath]
  | _ => exact ⟨rfl, rfl, rfl, rfl, rfl, fun _ _ => Iff.rfl⟩

theorem holds_foldl_revoke (reaches : List RevokedReach) (p : PermissionProfile) :
    (reaches.foldl PermissionProfile.revoke p).Holds r ↔ p.Holds r ∧ r ∉ reaches := by
  induction reaches generalizing p with
  | nil => simp
  | cons r' reaches ih =>
    rw [List.foldl_cons, ih, holds_revoke, List.mem_cons, not_or, and_assoc]

theorem sameRest_foldl_revoke (reaches : List RevokedReach) (p : PermissionProfile) :
    SameRest p (reaches.foldl PermissionProfile.revoke p) := by
  induction reaches generalizing p with
  | nil => exact ⟨rfl, rfl, rfl, rfl, rfl, fun _ _ => Iff.rfl⟩
  | cons r reaches ih =>
    have hrest := ih (p.revoke r)
    have hstep := sameRest_revoke p r
    exact ⟨hrest.allowAll.trans hstep.allowAll, hrest.readOnly.trans hstep.readOnly,
      hrest.readSensitive.trans hstep.readSensitive, hrest.annotations.trans hstep.annotations,
      hrest.delegated.trans hstep.delegated,
      fun path hpath => (hrest.noText path hpath).trans (hstep.noText path hpath)⟩

/-! ### Labels and their reaches -/

section Labels

variable (p : PermissionProfile)

theorem reachesOf_network : reachesOf p "network" =
    if p.network.allowAll = false then p.network.allowedDomains.map .networkDomain else [] := by
  unfold reachesOf
  cases p.network.allowAll <;> rfl

theorem reachesOf_filesystem : reachesOf p "filesystem" =
    flagReaches .filesystemDir p.filesystem.dirs
      ++ (p.filesystem.custom.filterMap decodeUtf8).map .filesystemPath := rfl

theorem reachesOf_input : reachesOf p "input" = flagReaches .inputCap p.input.caps := rfl

theorem reachesOf_search : reachesOf p "search" = flagReaches .searchCap p.search.caps := rfl

theorem reachesOf_intents : reachesOf p "intents" = flagReaches .intentsCap p.intents.caps := rfl

theorem reachesOf_events : reachesOf p "events" =
    (p.eventBus.subscribe.getD []).map .eventBusSubscribe
      ++ p.eventBus.publish.map .eventBusPublish := rfl

theorem reachesOf_system : reachesOf p "system" = flagReaches .systemCap p.system.caps := rfl

theorem reachesOf_clipboard : reachesOf p "clipboard" =
    flagReaches .clipboardCap p.clipboard.shownCaps := rfl

theorem reachesOf_notifications : reachesOf p "notifications" =
    if p.notifications = true then [.notificationsOff] else [] := by
  unfold reachesOf
  cases p.notifications <;> rfl

theorem reachesOf_read (e : String) : reachesOf p ("read:" ++ e) = [.read e] := by
  have hstrip : stripPrefix ("read:" ++ e) "read:" = some e := stripPrefix_eq_some.2 rfl
  have hne : ∀ s, stripPrefix s "read:" = none → "read:" ++ e ≠ s := by
    rintro s hs rfl
    rw [hstrip] at hs
    cases hs
  unfold reachesOf
  rw [if_neg fun h => hne "network" rfl h.1, if_neg (hne "filesystem" rfl), if_neg (hne "input" rfl),
    if_neg (hne "search" rfl), if_neg (hne "intents" rfl), if_neg (hne "events" rfl),
    if_neg (hne "system" rfl), if_neg fun h => hne "notifications" rfl h.1,
    if_neg (hne "clipboard" rfl), hstrip]

theorem reachesOf_write (e : String) : reachesOf p ("write:" ++ e) = [.write e] := by
  have hstrip : stripPrefix ("write:" ++ e) "write:" = some e := stripPrefix_eq_some.2 rfl
  have hread : stripPrefix ("write:" ++ e) "read:" = none := by
    cases h : stripPrefix ("write:" ++ e) "read:" with
    | none => rfl
    | some e' =>
      have := congrArg (fun s => s.toList.head?) (stripPrefix_eq_some.1 h)
      simp at this
  have hne : ∀ s, stripPrefix s "write:" = none → "write:" ++ e ≠ s := by
    rintro s hs rfl
    rw [hstrip] at hs
    cases hs
  unfold reachesOf
  rw [if_neg fun h => hne "network" rfl h.1, if_neg (hne "filesystem" rfl), if_neg (hne "input" rfl),
    if_neg (hne "search" rfl), if_neg (hne "intents" rfl), if_neg (hne "events" rfl),
    if_neg (hne "system" rfl), if_neg fun h => hne "notifications" rfl h.1,
    if_neg (hne "clipboard" rfl), hread, hstrip]

end Labels

theorem mem_btreeSet {l : List String} : label ∈ btreeSet l ↔ label ∈ l := by
  unfold btreeSet
  rw [(sortBy_perm id _).mem_iff, List.mem_dedup]

/-- The coarse labels, each with whether it is shown. -/
def coarse (p : PermissionProfile) : Flags :=
  [("network", p.network.allowAll || !p.network.allowedDomains.isEmpty),
    ("filesystem", p.filesystem.dirs.any || !p.filesystem.custom.isEmpty),
    ("notifications", p.notifications),
    ("clipboard", p.clipboard.shownCaps.any),
    ("system", p.system.caps.any),
    ("input", p.input.caps.any),
    ("search", p.search.caps.any),
    ("intents", p.intents.caps.any),
    ("events", !p.eventBus.publish.isEmpty || p.eventBus.subscribe.any (!·.isEmpty))]

theorem mem_profileLabels : label ∈ profileLabels p ↔
    (label, true) ∈ coarse p ∨ (∃ e ∈ p.graph.read, "read:" ++ e = label) ∨
      ∃ e ∈ p.graph.write, "write:" ++ e = label := by
  have hshown : ∀ (name : String) (on : Bool),
      label ∈ (if on then [name] else []) ↔ (label, true) = (name, on) := by
    intro name on
    cases on <;> simp
  unfold profileLabels
  dsimp only
  simp only [mem_btreeSet, List.mem_append, List.mem_map, hshown, coarse, List.mem_cons,
    List.not_mem_nil, or_false, or_assoc]
  simp only [ClipboardPermissions.shownCaps, SystemPermissions.caps, InputPermissions.caps,
    SearchPermissions.caps, IntentsPermissions.caps, Flags.any, List.any_cons, List.any_nil,
    Bool.or_false, Bool.or_assoc]

theorem any_of_mem {f : Flags} {c : String} (h : (c, true) ∈ f) : f.any = true :=
  List.any_eq_true.2 ⟨_, h, rfl⟩

theorem exists_of_any {f : Flags} (h : f.any = true) : ∃ c, (c, true) ∈ f := by
  obtain ⟨⟨c, on⟩, hmem, hon⟩ := List.any_eq_true.1 h
  simp only at hon
  exact ⟨c, hon ▸ hmem⟩

theorem mem_flagReaches {mk : String → RevokedReach} {f : Flags} :
    r ∈ flagReaches mk f ↔ ∃ c, (c, true) ∈ f ∧ mk c = r := by
  unfold flagReaches
  rw [List.mem_filterMap]
  constructor
  · rintro ⟨⟨c, on⟩, hmem, hr⟩
    cases on with
    | false => simp at hr
    | true => exact ⟨c, hmem, by simpa using hr⟩
  · rintro ⟨c, hmem, rfl⟩
    exact ⟨(c, true), hmem, by simp⟩

theorem shownCaps_iff {c : String} (clip : ClipboardPermissions) :
    (c, true) ∈ clip.shownCaps ↔ (c, true) ∈ clip.caps ∧ (c = "read" ∨ c = "write") := by
  simp only [ClipboardPermissions.shownCaps, ClipboardPermissions.caps, List.mem_cons,
    Prod.mk.injEq, List.not_mem_nil, or_false]
  constructor
  · rintro (⟨rfl, h⟩ | ⟨rfl, h⟩)
    · exact ⟨.inl ⟨rfl, h⟩, .inl rfl⟩
    · exact ⟨.inr (.inl ⟨rfl, h⟩), .inr rfl⟩
  · rintro ⟨h | h | ⟨rfl, -⟩ | ⟨rfl, -⟩, hc⟩
    · exact .inl h
    · exact .inr h
    · exact absurd hc (by decide)
    · exact absurd hc (by decide)

/-- The reach stands under a label. -/
def Labelled : RevokedReach → Prop
  | .relation _ => False
  | .instanceAll => False
  | .clipboardCap c => c = "read" ∨ c = "write"
  | _ => True

/-- A reach of a shown label is one the profile holds, and a label covers. -/
theorem holds_of_mem_resolveReaches (h : r ∈ resolveReaches p (profileLabels p)) :
    p.Holds r ∧ Labelled r := by
  obtain ⟨label, hlabel, hr⟩ := List.mem_flatMap.1 h
  rw [mem_profileLabels] at hlabel
  rcases hlabel with hcoarse | ⟨e, he, rfl⟩ | ⟨e, he, rfl⟩
  · simp only [coarse, List.mem_cons, Prod.mk.injEq, List.not_mem_nil, or_false] at hcoarse
    rcases hcoarse with ⟨rfl, -⟩ | ⟨rfl, -⟩ | ⟨rfl, -⟩ | ⟨rfl, -⟩ | ⟨rfl, -⟩ | ⟨rfl, -⟩ |
      ⟨rfl, -⟩ | ⟨rfl, -⟩ | ⟨rfl, -⟩
    · rw [reachesOf_network] at hr
      split at hr
      · obtain ⟨d, hd, rfl⟩ := List.mem_map.1 hr
        exact ⟨hd, trivial⟩
      · cases hr
    · rw [reachesOf_filesystem, List.mem_append, mem_flagReaches, List.mem_map] at hr
      rcases hr with ⟨c, hc, rfl⟩ | ⟨s, hs, rfl⟩
      · exact ⟨hc, trivial⟩
      · exact ⟨hs, trivial⟩
    · rw [reachesOf_notifications] at hr
      split at hr
      · next hon =>
        obtain rfl := List.mem_singleton.1 hr
        exact ⟨hon, trivial⟩
      · cases hr
    · rw [reachesOf_clipboard, mem_flagReaches] at hr
      obtain ⟨c, hc, rfl⟩ := hr
      exact (shownCaps_iff p.clipboard).1 hc
    · rw [reachesOf_system, mem_flagReaches] at hr
      obtain ⟨c, hc, rfl⟩ := hr
      exact ⟨hc, trivial⟩
    · rw [reachesOf_input, mem_flagReaches] at hr
      obtain ⟨c, hc, rfl⟩ := hr
      exact ⟨hc, trivial⟩
    · rw [reachesOf_search, mem_flagReaches] at hr
      obtain ⟨c, hc, rfl⟩ := hr
      exact ⟨hc, trivial⟩
    · rw [reachesOf_intents, mem_flagReaches] at hr
      obtain ⟨c, hc, rfl⟩ := hr
      exact ⟨hc, trivial⟩
    · rw [reachesOf_events, List.mem_append, List.mem_map, List.mem_map] at hr
      rcases hr with ⟨x, hx, rfl⟩ | ⟨x, hx, rfl⟩
      · exact ⟨hx, trivial⟩
      · exact ⟨hx, trivial⟩
  · rw [reachesOf_read] at hr
    obtain rfl := List.mem_singleton.1 hr
    exact ⟨he, trivial⟩
  · rw [reachesOf_write] at hr
    obtain rfl := List.mem_singleton.1 hr
    exact ⟨he, trivial⟩

theorem mem_resolveReaches_of_coarse (label : String) (hlabel : (label, true) ∈ coarse p) (hr : r ∈ reachesOf p label) :
    r ∈ resolveReaches p (profileLabels p) :=
  List.mem_flatMap.2 ⟨label, mem_profileLabels.2 (.inl hlabel), hr⟩

theorem not_isEmpty_of_mem {α : Type} {l : List α} {x : α} (h : x ∈ l) : (!l.isEmpty) = true := by
  cases l with
  | nil => cases h
  | cons y l => rfl

/-- What the profile holds and a label covers is among the reaches of the labels. -/
theorem mem_resolveReaches_of_holds (h : p.Holds r) (hlabelled : Labelled r)
    (hall : p.network.allowAll = false) : r ∈ resolveReaches p (profileLabels p) := by
  cases r with
  | read e =>
    refine List.mem_flatMap.2 ⟨"read:" ++ e, mem_profileLabels.2 (.inr (.inl ⟨e, h, rfl⟩)), ?_⟩
    rw [reachesOf_read]
    exact List.mem_singleton_self _
  | write e =>
    refine List.mem_flatMap.2 ⟨"write:" ++ e, mem_profileLabels.2 (.inr (.inr ⟨e, h, rfl⟩)), ?_⟩
    rw [reachesOf_write]
    exact List.mem_singleton_self _
  | relation rel => exact absurd hlabelled id
  | instanceAll => exact absurd hlabelled id
  | networkDomain d =>
    refine mem_resolveReaches_of_coarse "network" ?_ ?_
    · simp [coarse, not_isEmpty_of_mem (show d ∈ p.network.allowedDomains from h)]
    · rw [reachesOf_network, if_pos hall]
      exact List.mem_map_of_mem h
  | clipboardCap c =>
    have hshown := (shownCaps_iff p.clipboard).2 ⟨h, hlabelled⟩
    refine mem_resolveReaches_of_coarse "clipboard" ?_
      (mem_flagReaches.2 ⟨c, hshown, rfl⟩)
    simp [coarse, any_of_mem hshown]
  | notificationsOff =>
    have hon : p.notifications = true := h
    refine mem_resolveReaches_of_coarse "notifications" ?_ ?_
    · simp [coarse, hon]
    · rw [reachesOf_notifications, if_pos hon]
      exact List.mem_singleton_self _
  | inputCap c =>
    refine mem_resolveReaches_of_coarse "input" ?_ (mem_flagReaches.2 ⟨c, h, rfl⟩)
    simp [coarse, any_of_mem (show (c, true) ∈ p.input.caps from h)]
  | searchCap c =>
    refine mem_resolveReaches_of_coarse "search" ?_ (mem_flagReaches.2 ⟨c, h, rfl⟩)
    simp [coarse, any_of_mem (show (c, true) ∈ p.search.caps from h)]
  | intentsCap c =>
    refine mem_resolveReaches_of_coarse "intents" ?_ (mem_flagReaches.2 ⟨c, h, rfl⟩)
    simp [coarse, any_of_mem (show (c, true) ∈ p.intents.caps from h)]
  | systemCap c =>
    refine mem_resolveReaches_of_coarse "system" ?_ (mem_flagReaches.2 ⟨c, h, rfl⟩)
    simp [coarse, any_of_mem (show (c, true) ∈ p.system.caps from h)]
  | filesystemDir d =>
    refine mem_resolveReaches_of_coarse "filesystem" ?_
      (List.mem_append_left _ (mem_flagReaches.2 ⟨d, h, rfl⟩))
    simp [coarse, any_of_mem (show (d, true) ∈ p.filesystem.dirs from h)]
  | filesystemPath s =>
    refine mem_resolveReaches_of_coarse "filesystem" ?_
      (List.mem_append_right _ (List.mem_map_of_mem h))
    obtain ⟨path, hpath, -⟩ := List.mem_filterMap.1 (show s ∈ p.filesystem.custom.filterMap _ from h)
    simp [coarse, not_isEmpty_of_mem hpath]
  | eventBusSubscribe x =>
    refine mem_resolveReaches_of_coarse "events" ?_
      (List.mem_append_left _ (List.mem_map_of_mem h))
    have hx : x ∈ p.eventBus.subscribe.getD [] := h
    cases hs : p.eventBus.subscribe with
    | none => simp [hs] at hx
    | some l =>
      rw [hs, Option.getD_some] at hx
      simp [coarse, hs, not_isEmpty_of_mem hx]
  | eventBusPublish x =>
    refine mem_resolveReaches_of_coarse "events" ?_
      (List.mem_append_right _ (List.mem_map_of_mem h))
    simp [coarse, not_isEmpty_of_mem (show x ∈ p.eventBus.publish from h)]

/-- A coarse label is shown for the whole network, for custom paths, or for a reach it
expands to. -/
theorem coarse_cases (h : (label, true) ∈ coarse p) :
    (label = "network" ∧ p.network.allowAll = true) ∨
      (label = "filesystem" ∧ p.filesystem.custom ≠ []) ∨ ∃ r ∈ reachesOf p label, p.Holds r := by
  simp only [coarse, List.mem_cons, Prod.mk.injEq, List.not_mem_nil, or_false] at h
  rcases h with ⟨rfl, h⟩ | ⟨rfl, h⟩ | ⟨rfl, h⟩ | ⟨rfl, h⟩ | ⟨rfl, h⟩ | ⟨rfl, h⟩ | ⟨rfl, h⟩ |
    ⟨rfl, h⟩ | ⟨rfl, h⟩
  · cases hall : p.network.allowAll with
    | true => exact .inl ⟨rfl, rfl⟩
    | false =>
      rw [hall, Bool.false_or] at h
      obtain ⟨d, hd⟩ := List.exists_mem_of_ne_nil p.network.allowedDomains (by
        rintro heq
        simp [heq] at h)
      refine .inr (.inr ⟨.networkDomain d, ?_, hd⟩)
      rw [reachesOf_network, if_pos hall]
      exact List.mem_map_of_mem hd
  · rcases Bool.or_eq_true_iff.1 h.symm with hdir | hcustom
    · obtain ⟨d, hd⟩ := exists_of_any hdir
      exact .inr (.inr ⟨.filesystemDir d,
        List.mem_append_left _ (mem_flagReaches.2 ⟨d, hd, rfl⟩), hd⟩)
    · refine .inr (.inl ⟨rfl, ?_⟩)
      rintro heq
      simp [heq] at hcustom
  · refine .inr (.inr ⟨.notificationsOff, ?_, h.symm⟩)
    rw [reachesOf_notifications, if_pos h.symm]
    exact List.mem_singleton_self _
  · obtain ⟨c, hc⟩ := exists_of_any h.symm
    exact .inr (.inr ⟨.clipboardCap c, mem_flagReaches.2 ⟨c, hc, rfl⟩,
      ((shownCaps_iff p.clipboard).1 hc).1⟩)
  · obtain ⟨c, hc⟩ := exists_of_any h.symm
    exact .inr (.inr ⟨.systemCap c, mem_flagReaches.2 ⟨c, hc, rfl⟩, hc⟩)
  · obtain ⟨c, hc⟩ := exists_of_any h.symm
    exact .inr (.inr ⟨.inputCap c, mem_flagReaches.2 ⟨c, hc, rfl⟩, hc⟩)
  · obtain ⟨c, hc⟩ := exists_of_any h.symm
    exact .inr (.inr ⟨.searchCap c, mem_flagReaches.2 ⟨c, hc, rfl⟩, hc⟩)
  · obtain ⟨c, hc⟩ := exists_of_any h.symm
    exact .inr (.inr ⟨.intentsCap c, mem_flagReaches.2 ⟨c, hc, rfl⟩, hc⟩)
  · rcases Bool.or_eq_true_iff.1 h.symm with hpublish | hsubscribe
    · obtain ⟨x, hx⟩ := List.exists_mem_of_ne_nil p.eventBus.publish (by
        rintro heq
        simp [heq] at hpublish)
      exact .inr (.inr ⟨.eventBusPublish x, List.mem_append_right _ (List.mem_map_of_mem hx), hx⟩)
    · cases hs : p.eventBus.subscribe with
      | none => simp [hs] at hsubscribe
      | some l =>
        obtain ⟨x, hx⟩ := List.exists_mem_of_ne_nil l (by
          rintro rfl
          simp [hs] at hsubscribe)
        have hx' : x ∈ p.eventBus.subscribe.getD [] := by rw [hs]; exact hx
        exact .inr (.inr ⟨.eventBusSubscribe x,
          List.mem_append_left _ (List.mem_map_of_mem hx'), hx'⟩)

/-! ### What is left -/

theorem unrevocable_eq_nil_iff :
    unrevocable p (profileLabels p) = [] ↔ p.network.allowAll = false := by
  have hshown : p.network.allowAll = true → "network" ∈ profileLabels p := fun hall =>
    mem_profileLabels.2 (.inl (by simp [coarse, hall]))
  unfold unrevocable
  cases hall : p.network.allowAll with
  | false => simp
  | true =>
    have hany : (profileLabels p).any (· = "network") = true :=
      List.any_eq_true.2 ⟨_, hshown hall, by simp⟩
    simp [hany]

/-- **What is left is what no label covers.** -/
theorem holds_narrowed (hall : p.network.allowAll = false) :
    p.narrowed.Holds r ↔ p.Holds r ∧ ¬ Labelled r := by
  unfold PermissionProfile.narrowed
  rw [holds_foldl_revoke]
  refine and_congr_right fun hholds => not_congr ?_
  exact ⟨fun hmem => (holds_of_mem_resolveReaches hmem).2,
    fun hlabelled => mem_resolveReaches_of_holds hholds hlabelled hall⟩

theorem sameRest_narrowed (p : PermissionProfile) : SameRest p p.narrowed :=
  sameRest_foldl_revoke _ p

theorem covered_of_bare (hall : p.network.allowAll = false) (h : Bare p.narrowed) : Covered p := by
  have hrest := sameRest_narrowed p
  have hcovered : ∀ r, p.Holds r → Labelled r := fun r hr => by
    by_contra hlabelled
    exact h.named r ((holds_narrowed hall).2 ⟨hr, hlabelled⟩)
  refine ⟨?_, ?_, ⟨?_, ?_⟩, hrest.readOnly ▸ h.readOnly, hrest.readSensitive ▸ h.readSensitive,
    hrest.annotations ▸ h.annotations, hrest.delegated ▸ h.delegated, ?_⟩
  · exact List.eq_nil_iff_forall_not_mem.2 fun rel hrel => hcovered (.relation rel) hrel
  · cases hscope : p.graph.instanceScope with
    | own => rfl
    | all => exact absurd (hcovered .instanceAll hscope) id
  · refine Bool.eq_false_iff.2 fun hon => ?_
    have hc : "read_sensitive" = "read" ∨ "read_sensitive" = "write" :=
      hcovered (.clipboardCap "read_sensitive") (by
        simp [PermissionProfile.Holds, ClipboardPermissions.caps, hon])
    exact absurd hc (by decide)
  · refine Bool.eq_false_iff.2 fun hon => ?_
    have hc : "history" = "read" ∨ "history" = "write" :=
      hcovered (.clipboardCap "history") (by
        simp [PermissionProfile.Holds, ClipboardPermissions.caps, hon])
    exact absurd hc (by decide)
  · intro path hpath hnone
    have := (hrest.noText path hnone).2 hpath
    rw [h.custom] at this
    cases this

theorem bare_of_covered (hall : p.network.allowAll = false) (h : Covered p) : Bare p.narrowed := by
  have hrest := sameRest_narrowed p
  have hnamed : ∀ r, ¬ p.narrowed.Holds r := by
    intro r hr
    obtain ⟨hholds, hlabelled⟩ := (holds_narrowed hall).1 hr
    cases r with
    | relation rel =>
      have : rel ∈ p.graph.relations := hholds
      rw [h.relations] at this
      cases this
    | instanceAll =>
      have : p.graph.instanceScope = .all := hholds
      rw [h.instances] at this
      cases this
    | clipboardCap c =>
      refine hlabelled ?_
      have hc : (c, true) ∈ p.clipboard.caps := hholds
      simp only [ClipboardPermissions.caps, h.clipboard.1, h.clipboard.2, List.mem_cons,
        Prod.mk.injEq, List.not_mem_nil, or_false] at hc
      rcases hc with ⟨rfl, -⟩ | ⟨rfl, -⟩ | ⟨-, hc⟩ | ⟨-, hc⟩
      · exact .inl rfl
      · exact .inr rfl
      · cases hc
      · cases hc
    | _ => exact hlabelled trivial
  refine ⟨hnamed, ?_, hrest.readOnly.trans h.readOnly, hrest.readSensitive.trans h.readSensitive,
    hrest.annotations.trans h.annotations, hrest.delegated.trans h.delegated⟩
  refine List.eq_nil_iff_forall_not_mem.2 fun path hpath => ?_
  cases hs : decodeUtf8 path with
  | none => exact h.text path ((hrest.noText path hs).1 hpath) hs
  | some s => exact hnamed (.filesystemPath s) (List.mem_filterMap.2 ⟨path, hpath, hs⟩)

/-- A profile with nothing left shows nothing. -/
theorem profileLabels_of_bare (hall : p.network.allowAll = false) (h : Bare p) :
    profileLabels p = [] := by
  refine List.eq_nil_iff_forall_not_mem.2 fun label hlabel => ?_
  rcases mem_profileLabels.1 hlabel with hcoarse | ⟨e, he, -⟩ | ⟨e, he, -⟩
  · rcases coarse_cases hcoarse with ⟨-, hon⟩ | ⟨-, hcustom⟩ | ⟨r, -, hr⟩
    · rw [hall] at hon
      cases hon
    · exact hcustom h.custom
    · exact h.named r hr
  · exact h.named (.read e) he
  · exact h.named (.write e) he

/-- The label of the filesystem gives something up. -/
def FilesystemResolves (p : PermissionProfile) : Prop :=
  p.filesystem.dirs.any = true ∨ p.filesystem.custom = [] ∨
    ∃ path ∈ p.filesystem.custom, decodeUtf8 path ≠ none

theorem resolves_iff : (∀ label ∈ profileLabels p,
    resolveReaches p [label] ≠ [] ∨ unrevocable p [label] ≠ []) ↔ FilesystemResolves p := by
  have hone : ∀ label, resolveReaches p [label] = reachesOf p label := fun label => by
    simp [resolveReaches]
  have hfs : ∀ r ∈ reachesOf p "filesystem", FilesystemResolves p := by
    intro r hr
    rw [reachesOf_filesystem, List.mem_append, mem_flagReaches, List.mem_map] at hr
    rcases hr with ⟨d, hd, -⟩ | ⟨s, hs, -⟩
    · exact .inl (any_of_mem hd)
    · obtain ⟨path, hpath, hdecode⟩ := List.mem_filterMap.1 hs
      exact .inr (.inr ⟨path, hpath, by simp [hdecode]⟩)
  constructor
  · intro h
    by_cases hcustom : p.filesystem.custom = []
    · exact .inr (.inl hcustom)
    · have hlabel : "filesystem" ∈ profileLabels p := by
        refine mem_profileLabels.2 (.inl ?_)
        simp [coarse, hcustom]
      rcases h _ hlabel with hne | hne
      · rw [hone] at hne
        obtain ⟨r, hr⟩ := List.exists_mem_of_ne_nil _ hne
        exact hfs r hr
      · exact absurd (by simp [unrevocable]) hne
  · intro h label hlabel
    rw [hone]
    rcases mem_profileLabels.1 hlabel with hcoarse | ⟨e, he, rfl⟩ | ⟨e, he, rfl⟩
    · rcases coarse_cases hcoarse with ⟨rfl, hon⟩ | ⟨rfl, hcustom⟩ | ⟨r, hr, -⟩
      · exact .inr (by simp [unrevocable, hon])
      · rcases h with hdir | hnil | ⟨path, hpath, htext⟩
        · obtain ⟨d, hd⟩ := exists_of_any hdir
          exact .inl (List.ne_nil_of_mem
            (List.mem_append_left _ (mem_flagReaches.2 ⟨d, hd, rfl⟩)))
        · exact absurd hnil hcustom
        · obtain ⟨s, hs⟩ := Option.ne_none_iff_exists'.1 htext
          exact .inl (List.ne_nil_of_mem (List.mem_append_right _
            (List.mem_map_of_mem (List.mem_filterMap.2 ⟨path, hpath, hs⟩))))
      · exact .inl (List.ne_nil_of_mem hr)
    · exact .inl (by simp [reachesOf_read])
    · exact .inl (by simp [reachesOf_write])

/-- **Giving up everything shown leaves nothing behind** exactly when a label covers what the
profile holds, or its blanket network access is reported; and where the filesystem's label
stands for custom paths alone, one of them has to be text. -/
theorem leavesNothing_iff (p : PermissionProfile) :
    LeavesNothing p ↔
      (p.network.allowAll = true ∨ Covered p) ∧ FilesystemResolves p := by
  have hallowAll : p.narrowed.network.allowAll = p.network.allowAll := (sameRest_narrowed p).allowAll
  constructor
  · rintro ⟨hbare, hresolves⟩
    refine ⟨?_, resolves_iff.1 hresolves⟩
    cases hall : p.network.allowAll with
    | true => exact .inl rfl
    | false => exact .inr (covered_of_bare hall (hbare (unrevocable_eq_nil_iff.2 hall)).1)
  · rintro ⟨hcovered, hfs⟩
    refine ⟨fun hnone => ?_, resolves_iff.2 hfs⟩
    have hall := unrevocable_eq_nil_iff.1 hnone
    have hbare := bare_of_covered hall (hcovered.resolve_left (by simp [hall]))
    exact ⟨hbare, profileLabels_of_bare (hallowAll.trans hall) hbare⟩

/-- An app that reads the clipboard, its sensitive entries and its history. -/
def clipboardReader : PermissionProfile :=
  { clipboard := { read := true, readSensitive := true, history := true } }

/-- The sensitive entries are still its own behind giving up the clipboard. -/
theorem clipboard_history_stays : ¬ LeavesNothing clipboardReader := by
  intro h
  have hheld : clipboardReader.narrowed.Holds (.clipboardCap "read_sensitive") := by
    have hcaps : clipboardReader.narrowed.clipboard.caps =
        [("read", false), ("write", false), ("read_sensitive", true), ("history", true)] := by
      decide +kernel
    show ("read_sensitive", true) ∈ clipboardReader.narrowed.clipboard.caps
    rw [hcaps]
    decide
  exact (h.bare (by decide +kernel)).1.named _ hheld

end Arlen.Extensions
