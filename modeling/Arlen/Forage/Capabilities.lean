import Arlen.Knowledge.Profile
import Arlen.Lib.Bytes
import Arlen.Lib.Str
import Arlen.Lib.Text

/-!
# Declared capabilities, their profile and their gate

`capabilities_to_profile` and `diff_capabilities` of `forage/capabilities/src/lib.rs`
over `parse_graph_scope` of `contracts/forage-recipe`. The mapper reads a scope, the
gate of an upgrade compares its spelling: a scope that was there before grants what it
granted before, and a new one is high impact where the gate says so. The two meet on
every scope but a graph write padded with blanks.
-/

namespace Arlen.Forage

open Arlen.Lib Arlen.Knowledge

/-! ## Capabilities -/

/-- The `[capabilities]` of a recipe; of the open categories only the keys are read. -/
structure Capabilities where
  filesystem : List String := []
  network : List String := []
  graph : List String := []
  notifications : Bool := false
  clipboard : Bool := false
  audio : Bool := false
  extra : List String := []
deriving DecidableEq, Repr

inductive GraphScope where
  | read (type : String)
  | write (type : String)
deriving DecidableEq, Repr

/-- `str::trim`. -/
def trimmed (s : String) : String := String.ofList (Text.trim s.toList)

/-- `parse_graph_scope`. -/
def parseGraphScope (scope : String) : Option GraphScope :=
  match splitOnce scope ':' with
  | none => none
  | some (pre, ty) =>
    if trimmed ty = "" then none
    else if trimmed pre = "read" then some (.read (trimmed ty))
    else if trimmed pre = "write" then some (.write (trimmed ty))
    else none

/-! ## The profile -/

inductive AppTier where
  | system
  | firstParty
  | thirdParty
deriving DecidableEq, Repr

structure ProfileInfo where
  appId : String
  tier : AppTier
deriving DecidableEq, Repr

/-- The profile with its `[info]`, and the declarations that have no counterpart. -/
structure CapabilityMapping where
  info : ProfileInfo
  profile : PermissionProfile
  unmapped : List String

/-- `to_ascii_lowercase`. -/
def toAsciiLowercase (s : String) : String := String.ofList (s.toList.map Char.toLower)

/-- A round of the loop of `map_filesystem`. -/
def mapDir (fs : FilesystemPermissions) (s : String) : FilesystemPermissions :=
  if toAsciiLowercase s ∈ fsDirs then { fs with dirs := insert (toAsciiLowercase s) fs.dirs }
  else { fs with custom := fs.custom ++ [s] }

def mapFilesystem (scopes : List String) : FilesystemPermissions :=
  scopes.foldl mapDir ⟨∅, []⟩

/-- The host of a network scope, without a trailing numeric port. -/
def hostOf (s : String) : String :=
  match rsplitOnce s ':' with
  | some (h, port) => if port ≠ "" ∧ port.toList.all Char.isDigit then h else s
  | none => s

def everywhere (s : String) : Bool := s = "*" || s = "*:*"

/-- A round of the loop of `map_network`. -/
def mapHost (acc : NetworkPermissions × List String) (s : String) :
    NetworkPermissions × List String :=
  if everywhere s then ({ acc.1 with allowAll := true }, acc.2)
  else if hostOf s = "" then (acc.1, acc.2 ++ ["network:" ++ s])
  else ({ acc.1 with allowedDomains := acc.1.allowedDomains ++ [hostOf s] }, acc.2)

def mapNetwork (scopes unmapped : List String) : NetworkPermissions × List String :=
  scopes.foldl mapHost (⟨false, []⟩, unmapped)

/-- A round of the loop of `map_graph`. -/
def mapScope (acc : GraphPermissions × List String) (s : String) :
    GraphPermissions × List String :=
  match parseGraphScope s with
  | some (.read t) => ({ acc.1 with read := acc.1.read ++ [t] }, acc.2)
  | some (.write t) => ({ acc.1 with write := acc.1.write ++ [t] }, acc.2)
  | none => (acc.1, acc.2 ++ ["graph:" ++ s])

def mapGraph (scopes unmapped : List String) : GraphPermissions × List String :=
  scopes.foldl mapScope (⟨[], [], [], [], .own, []⟩, unmapped)

/-- `capabilities_to_profile`. -/
def capabilitiesToProfile (appId : String) (tier : AppTier) (caps : Capabilities) :
    CapabilityMapping :=
  let (network, unmapped) := mapNetwork caps.network []
  let (graph, unmapped) := mapGraph caps.graph unmapped
  { info := ⟨appId, tier⟩
    profile :=
      { graph
        eventBus := ⟨[], none⟩
        filesystem := mapFilesystem caps.filesystem
        network
        notifications := caps.notifications
        clipboard := if caps.clipboard then {"read", "write"} else ∅
        system := ⟨∅, ∅⟩
        input := ∅
        search := ∅
        intents := ∅ }
    unmapped := unmapped ++ (if caps.audio then ["audio"] else []) ++ caps.extra }

/-! ## The gate -/

structure CapabilityChange where
  description : String
  highImpact : Bool
deriving DecidableEq, Repr

structure CapabilityDiff where
  added : List CapabilityChange := []
  removed : List String := []
deriving DecidableEq, Repr

def CapabilityDiff.requiresConsent (d : CapabilityDiff) : Bool := d.added.any (·.highImpact)

/-- Adds a change unless one of its description is there. -/
def CapabilityDiff.add (d : CapabilityDiff) (c : CapabilityChange) : CapabilityDiff :=
  if d.added.any (·.description = c.description) then d else { d with added := d.added ++ [c] }

def CapabilityDiff.remove (d : CapabilityDiff) (description : String) : CapabilityDiff :=
  if description ∈ d.removed then d else { d with removed := d.removed ++ [description] }

def additions (old new : List String) (label : String) (impact : String → Bool)
    (d : CapabilityDiff) : CapabilityDiff :=
  new.foldl (fun d s => if s ∈ old then d else d.add ⟨label ++ " " ++ s, impact s⟩) d

def removals (old new : List String) (label : String) (d : CapabilityDiff) : CapabilityDiff :=
  old.foldl (fun d s => if s ∈ new then d else d.remove (label ++ " " ++ s)) d

/-- The two loops `diff_list` and `diff_graph` share; `impact` is that of an addition. -/
def diffScopes (old new : List String) (label : String) (impact : String → Bool)
    (d : CapabilityDiff) : CapabilityDiff :=
  removals old new label (additions old new label impact d)

def diffList (old new : List String) (label : String) (highImpact : Bool) :
    CapabilityDiff → CapabilityDiff :=
  diffScopes old new label fun _ => highImpact

def diffGraph (old new : List String) : CapabilityDiff → CapabilityDiff :=
  diffScopes old new "graph" fun s => startsWith s "write:"

def diffFlag (old new : Bool) (label : String) (d : CapabilityDiff) : CapabilityDiff :=
  match old, new with
  | false, true => { d with added := d.added ++ [⟨label, false⟩] }
  | true, false => { d with removed := d.removed ++ [label] }
  | _, _ => d

/-- The open categories of the two sets. -/
def diffExtra (old new : List String) (d : CapabilityDiff) : CapabilityDiff :=
  { added := d.added ++ (new.filter (· ∉ old)).map fun key => ⟨"capability " ++ key, true⟩
    removed := d.removed ++ (old.filter (· ∉ new)).map ("capability " ++ ·) }

def diffCapabilities (old new : Capabilities) : CapabilityDiff :=
  let d := diffList old.network new.network "network host" true {}
  let d := diffList old.filesystem new.filesystem "filesystem" true d
  let d := diffGraph old.graph new.graph d
  let d := diffFlag old.notifications new.notifications "notifications" d
  let d := diffFlag old.clipboard new.clipboard "clipboard" d
  let d := diffFlag old.audio new.audio "audio" d
  diffExtra old.extra new.extra d

/-- The upgrade declares a network, filesystem or open entry, or a graph write spelled
`write:`, that was not declared before. -/
def NewlyHigh (old new : Capabilities) : Prop :=
  (∃ s ∈ new.network, s ∉ old.network) ∨ (∃ s ∈ new.filesystem, s ∉ old.filesystem) ∨
    (∃ s ∈ new.graph, s ∉ old.graph ∧ startsWith s "write:" = true) ∨
    (∃ key ∈ new.extra, key ∉ old.extra)

/-! ## What the gate asks about -/

variable {d : CapabilityDiff} {c e : CapabilityChange} {old new : List String} {label s : String}
  {impact : String → Bool}

/-- A change the diff describes as one of this category has the impact of its scope. -/
def Labelled (label : String) (impact : String → Bool) (d : CapabilityDiff) : Prop :=
  ∀ c ∈ d.added, ∀ s, c.description = label ++ " " ++ s → c.highImpact = impact s

theorem mem_added_add (h : c ∈ (d.add e).added) : c ∈ d.added ∨ c = e := by
  unfold CapabilityDiff.add at h
  split at h
  · exact .inl h
  · simpa using h

@[simp] theorem added_remove : (d.remove s).added = d.added := by
  unfold CapabilityDiff.remove
  split <;> rfl

theorem Labelled.add (h : Labelled label impact d) :
    Labelled label impact (d.add ⟨label ++ " " ++ s, impact s⟩) := by
  intro c hc t ht
  rcases mem_added_add hc with hc | rfl
  · exact h c hc t ht
  · have hst : s = t := by simpa using ht
    rw [hst]

/-- An addition asks where it is high impact: its description is new, or stands for the
same scope. -/
theorem requiresConsent_add (h : Labelled label impact d) :
    (d.add ⟨label ++ " " ++ s, impact s⟩).requiresConsent =
      (d.requiresConsent || impact s) := by
  unfold CapabilityDiff.add
  split
  · next hany =>
    obtain ⟨c, hc, hdesc⟩ := List.any_eq_true.1 hany
    have himp := h c hc s (of_decide_eq_true hdesc)
    cases hi : impact s with
    | false => simp
    | true =>
      have : d.requiresConsent = true := List.any_eq_true.2 ⟨c, hc, himp.trans hi⟩
      simp [this]
  · simp [CapabilityDiff.requiresConsent]

theorem requiresConsent_additions (h : Labelled label impact d) :
    (additions old new label impact d).requiresConsent =
      (d.requiresConsent || new.any fun s => decide (s ∉ old) && impact s) := by
  induction new generalizing d with
  | nil => simp [additions]
  | cons s new ih =>
    by_cases hs : s ∈ old
    · have := ih h
      simpa [additions, hs] using this
    · have := ih (h.add (s := s))
      simpa [additions, hs, requiresConsent_add h, Bool.or_assoc] using this

theorem mem_added_additions (h : c ∈ (additions old new label impact d).added) :
    c ∈ d.added ∨ ∃ s, c.description = label ++ " " ++ s := by
  induction new generalizing d with
  | nil => exact .inl h
  | cons s new ih =>
    simp only [additions, List.foldl_cons] at h
    rcases ih h with hc | hc
    · split at hc
      · exact .inl hc
      · rcases mem_added_add hc with hc | rfl
        · exact .inl hc
        · exact .inr ⟨s, rfl⟩
    · exact .inr hc

@[simp] theorem added_removals : (removals old new label d).added = d.added := by
  unfold removals
  induction old generalizing d with
  | nil => rfl
  | cons s old ih =>
    rw [List.foldl_cons, ih]
    split
    · rfl
    · exact added_remove

theorem requiresConsent_diffScopes (h : Labelled label impact d) :
    (diffScopes old new label impact d).requiresConsent =
      (d.requiresConsent || new.any fun s => decide (s ∉ old) && impact s) := by
  rw [← requiresConsent_additions h]
  simp only [CapabilityDiff.requiresConsent, diffScopes, added_removals]

/-- A diff over categories of other labels says nothing of this one. -/
theorem Labelled.diffScopes {label' : String} {impact' : String → Bool}
    (h : Labelled label impact d) (hlabel : ∀ s t : String, label' ++ " " ++ s ≠ label ++ " " ++ t) :
    Labelled label impact (diffScopes old new label' impact' d) := by
  intro c hc t ht
  rw [Forage.diffScopes, added_removals] at hc
  rcases mem_added_additions hc with hc | ⟨s, hs⟩
  · exact h c hc t ht
  · exact absurd (hs.symm.trans ht) (hlabel s t)

theorem label_ne {label' : String} (h : label'.toList.head? ≠ label.toList.head?)
    (hne : label.toList ≠ []) (hne' : label'.toList ≠ []) (s t : String) :
    label' ++ " " ++ s ≠ label ++ " " ++ t := by
  intro heq
  apply h
  have := congrArg (List.head? ·.toList) heq
  simpa [List.head?_append_of_ne_nil _ hne, List.head?_append_of_ne_nil _ hne'] using this

@[simp] theorem requiresConsent_diffFlag {old new : Bool} :
    (diffFlag old new label d).requiresConsent = d.requiresConsent := by
  unfold diffFlag
  split <;> simp [CapabilityDiff.requiresConsent]

theorem requiresConsent_diffExtra :
    (diffExtra old new d).requiresConsent =
      (d.requiresConsent || new.any fun key => decide (key ∉ old)) := by
  simp [diffExtra, CapabilityDiff.requiresConsent, List.any_map, List.any_filter, Function.comp_def]

/-- The gate asks exactly about the entries it reads as newly high impact. -/
theorem requiresConsent_iff {old new : Capabilities} :
    (diffCapabilities old new).requiresConsent = true ↔ NewlyHigh old new := by
  have hnet : Labelled "network host" (fun _ => true) {} := by
    intro c hc
    cases hc
  have hfs : Labelled "filesystem" (fun _ => true)
      (diffList old.network new.network "network host" true {}) :=
    Labelled.diffScopes (fun c hc => by cases hc)
      (label_ne (by decide) (by decide) (by decide))
  have hgraph : Labelled "graph" (fun s => startsWith s "write:")
      (diffList old.filesystem new.filesystem "filesystem" true
        (diffList old.network new.network "network host" true {})) :=
    Labelled.diffScopes (Labelled.diffScopes (fun c hc => by cases hc)
      (label_ne (by decide) (by decide) (by decide)))
      (label_ne (by decide) (by decide) (by decide))
  simp only [diffCapabilities, requiresConsent_diffExtra, requiresConsent_diffFlag, diffGraph]
  rw [requiresConsent_diffScopes hgraph]
  simp only [diffList] at hfs ⊢
  rw [requiresConsent_diffScopes hfs, requiresConsent_diffScopes hnet]
  simp [NewlyHigh, CapabilityDiff.requiresConsent, or_assoc]

/-! ## What the mapper grants -/

theorem mem_dirs_mapFilesystem {scopes : List String} {dir : String} :
    dir ∈ (mapFilesystem scopes).dirs ↔ ∃ s ∈ scopes, toAsciiLowercase s ∈ fsDirs ∧
      toAsciiLowercase s = dir := by
  have hfold : ∀ fs : FilesystemPermissions, dir ∈ (scopes.foldl mapDir fs).dirs ↔
      dir ∈ fs.dirs ∨ ∃ s ∈ scopes, toAsciiLowercase s ∈ fsDirs ∧ toAsciiLowercase s = dir := by
    induction scopes with
    | nil => simp
    | cons s scopes ih =>
      intro fs
      rw [List.foldl_cons, ih]
      by_cases hs : toAsciiLowercase s ∈ fsDirs
      · simp only [mapDir, hs, if_true, Finset.mem_insert, List.mem_cons, exists_eq_or_imp,
          true_and]
        grind
      · simp [mapDir, hs]
  simpa [mapFilesystem] using hfold ⟨∅, []⟩

theorem mem_custom_mapFilesystem {scopes : List String} {path : String} :
    path ∈ (mapFilesystem scopes).custom ↔ path ∈ scopes ∧ toAsciiLowercase path ∉ fsDirs := by
  have hfold : ∀ fs : FilesystemPermissions, path ∈ (scopes.foldl mapDir fs).custom ↔
      path ∈ fs.custom ∨ path ∈ scopes ∧ toAsciiLowercase path ∉ fsDirs := by
    induction scopes with
    | nil => simp
    | cons s scopes ih =>
      intro fs
      rw [List.foldl_cons, ih]
      by_cases hs : toAsciiLowercase s ∈ fsDirs
      · simp only [mapDir, hs, if_true, List.mem_cons]
        grind
      · simp only [mapDir, hs, if_false, List.mem_append, List.mem_cons, List.not_mem_nil]
        grind
  simpa [mapFilesystem] using hfold ⟨∅, []⟩

theorem allowAll_mapNetwork {scopes unmapped : List String} :
    (mapNetwork scopes unmapped).1.allowAll = true ↔ ∃ s ∈ scopes, everywhere s = true := by
  have hfold : ∀ acc, (scopes.foldl mapHost acc).1.allowAll = true ↔
      acc.1.allowAll = true ∨ ∃ s ∈ scopes, everywhere s = true := by
    induction scopes with
    | nil => simp
    | cons s scopes ih =>
      intro acc
      rw [List.foldl_cons, ih]
      unfold mapHost
      split
      · next hs => simp [hs]
      · next hs => split <;> simp [hs]
  simpa [mapNetwork] using hfold (⟨false, []⟩, unmapped)

theorem mem_allowedDomains_mapNetwork {scopes unmapped : List String} {host : String} :
    host ∈ (mapNetwork scopes unmapped).1.allowedDomains ↔
      ∃ s ∈ scopes, everywhere s = false ∧ hostOf s = host ∧ host ≠ "" := by
  have hfold : ∀ acc, host ∈ (scopes.foldl mapHost acc).1.allowedDomains ↔
      host ∈ acc.1.allowedDomains ∨
        ∃ s ∈ scopes, everywhere s = false ∧ hostOf s = host ∧ host ≠ "" := by
    induction scopes with
    | nil => simp
    | cons s scopes ih =>
      intro acc
      rw [List.foldl_cons, ih]
      unfold mapHost
      split
      · next hs => simp [hs]
      · next hs =>
        split
        · next hempty => 
          simp only [List.mem_cons, exists_eq_or_imp]
          grind
        · next hhost =>
          simp only [List.mem_append, List.mem_cons, List.not_mem_nil, exists_eq_or_imp]
          grind
  simpa [mapNetwork] using hfold (⟨false, []⟩, unmapped)

theorem mem_write_mapGraph {scopes unmapped : List String} {type : String} :
    type ∈ (mapGraph scopes unmapped).1.write ↔
      ∃ s ∈ scopes, parseGraphScope s = some (.write type) := by
  have hfold : ∀ acc, type ∈ (scopes.foldl mapScope acc).1.write ↔
      type ∈ acc.1.write ∨ ∃ s ∈ scopes, parseGraphScope s = some (.write type) := by
    induction scopes with
    | nil => simp
    | cons s scopes ih =>
      intro acc
      rw [List.foldl_cons, ih]
      unfold mapScope
      split
      · next hs => simp [hs]
      · next t hs =>
        simp only [List.mem_append, List.mem_cons, List.not_mem_nil, exists_eq_or_imp, hs]
        grind
      · next hs => simp [hs]
  simpa [mapGraph] using hfold (⟨[], [], [], [], .own, []⟩, unmapped)

/-! ## The gate and the mapper -/

/-- The first profile grants no network domain, no directory or custom path and no graph
write beyond the second. -/
structure Within (p q : PermissionProfile) : Prop where
  allowAll : p.network.allowAll = true → q.network.allowAll = true
  domains : ∀ host ∈ p.network.allowedDomains, host ∈ q.network.allowedDomains
  dirs : ∀ dir ∈ p.filesystem.dirs, dir ∈ q.filesystem.dirs
  custom : ∀ path ∈ p.filesystem.custom, path ∈ q.filesystem.custom
  write : ∀ type ∈ p.graph.write, type ∈ q.graph.write

/-- The prefix before the colon is `write` once it is trimmed, and not before. -/
def Padded (s : String) : Prop :=
  ∃ pre rest, splitOnce s ':' = some (pre, rest) ∧ pre ≠ "write" ∧ trimmed pre = "write"

theorem startsWith_or_padded {type : String} (h : parseGraphScope s = some (.write type)) :
    startsWith s "write:" = true ∨ Padded s := by
  unfold parseGraphScope at h
  split at h
  · cases h
  · next pre rest hsplit =>
    have hpre : trimmed pre = "write" := by
      split at h
      · cases h
      · split at h
        · cases h
        · split at h
          · assumption
          · cases h
    by_cases hw : pre = "write"
    · refine .inl (startsWith_iff.2 ⟨rest, ?_⟩)
      rw [(splitOnce_eq_some.1 hsplit).1, hw, ← String.append_assoc]
      rfl
    · exact .inr ⟨pre, rest, hsplit, hw, hpre⟩

/-- **The gate is not out-spelled** exactly where it asks anyway, or every new write padded
with blanks is of a type the old set writes. -/
theorem not_outspelled_iff (old new : Capabilities) (appId : String) (tier : AppTier) :
    ((diffCapabilities old new).requiresConsent = false →
      Within (capabilitiesToProfile appId tier new).profile
        (capabilitiesToProfile appId tier old).profile) ↔
    NewlyHigh old new ∨ ∀ s ∈ new.graph, s ∉ old.graph → Padded s →
      ∀ type, parseGraphScope s = some (.write type) →
        ∃ s' ∈ old.graph, parseGraphScope s' = some (.write type) := by
  rw [← Bool.not_eq_true, requiresConsent_iff]
  constructor
  · intro h
    by_cases hnew : NewlyHigh old new
    · exact .inl hnew
    · refine .inr fun s hs _ _ type htype => ?_
      exact mem_write_mapGraph.1 ((h hnew).write type (mem_write_mapGraph.2 ⟨s, hs, htype⟩))
  · rintro (hnew | hpad) hquiet
    · exact absurd hnew hquiet
    · simp only [NewlyHigh, not_or, not_exists, not_and, Decidable.not_not,
        Bool.not_eq_true] at hquiet
      obtain ⟨hnet, hfs, hgraph, -⟩ := hquiet
      refine ⟨?_, ?_, ?_, ?_, ?_⟩
      · intro h
        obtain ⟨s, hs, hall⟩ := allowAll_mapNetwork.1 h
        exact allowAll_mapNetwork.2 ⟨s, hnet s hs, hall⟩
      · intro host h
        obtain ⟨s, hs, hhost⟩ := mem_allowedDomains_mapNetwork.1 h
        exact mem_allowedDomains_mapNetwork.2 ⟨s, hnet s hs, hhost⟩
      · intro dir h
        obtain ⟨s, hs, hdir⟩ := mem_dirs_mapFilesystem.1 h
        exact mem_dirs_mapFilesystem.2 ⟨s, hfs s hs, hdir⟩
      · intro path h
        obtain ⟨hs, hpath⟩ := mem_custom_mapFilesystem.1 h
        exact mem_custom_mapFilesystem.2 ⟨hfs path hs, hpath⟩
      · intro type h
        obtain ⟨s, hs, htype⟩ := mem_write_mapGraph.1 h
        refine mem_write_mapGraph.2 ?_
        by_cases hold : s ∈ old.graph
        · exact ⟨s, hold, htype⟩
        · rcases startsWith_or_padded htype with hw | hp
          · exact absurd hw (by simp [hgraph s hs hold])
          · exact hpad s hs hold hp type htype

/-- A blank before `write:Tag` grants the write and asks nobody. -/
theorem padded_write_unasked :
    (diffCapabilities {} { graph := [" write:Tag"] }).requiresConsent = false ∧
      ¬ Within (capabilitiesToProfile "app" .thirdParty { graph := [" write:Tag"] }).profile
        (capabilitiesToProfile "app" .thirdParty {}).profile := by
  refine ⟨by decide, fun h => ?_⟩
  have := h.write "Tag" (by decide)
  exact absurd this (by decide)

end Arlen.Forage
