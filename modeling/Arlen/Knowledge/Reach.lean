import Arlen.Knowledge.Revoke

/-!
# What one edit does to the scope

A revoke takes one reach out of the summary and a restore puts one in, each in its own
dimension. An edit touches one key of one table, so everything read from another key
reads as before.
-/

namespace Arlen.Knowledge

open Arlen.Lib.Toml

variable {doc doc' t t' u u' : Table} {sec key v cap : String} {s s' : Fields} {p : PermissionProfile}
  {S S' : ScopeSummary} {r : RevokedReach} {f : Table → Bool × Table} {l : List String}

/-! ## Reaches of a summary -/

namespace ScopeSummary

def Holds (S : ScopeSummary) : RevokedReach → Prop
  | .read pattern => pattern ∈ S.read
  | .write pattern => pattern ∈ S.write
  | .relation r => (r.from, r.to, r.relationType) ∈ S.relations
  | .instanceAll => S.instanceAll = true
  | .networkDomain domain => domain ∈ S.networkDomains
  | .clipboardCap cap => cap ∈ S.clipboardCaps
  | .notificationsOff => S.notificationsOn = true
  | .inputCap cap => cap ∈ S.inputCaps
  | .searchCap cap => cap ∈ S.searchCaps
  | .intentsCap cap => cap ∈ S.intentsCaps
  | .filesystemDir dir => dir ∈ S.filesystemDirs
  | .filesystemPath path => path ∈ S.filesystemPaths
  | .eventBusSubscribe pattern => pattern ∈ S.eventBusSubscribe
  | .eventBusPublish pattern => pattern ∈ S.eventBusPublish
  | .systemCap cap => cap ∈ S.systemCaps

/-- The summary without a reach. -/
def remove (S : ScopeSummary) : RevokedReach → ScopeSummary
  | .read pattern => { S with read := S.read.erase pattern }
  | .write pattern => { S with write := S.write.erase pattern }
  | .relation r => { S with relations := S.relations.erase (r.from, r.to, r.relationType) }
  | .instanceAll => { S with instanceAll := false }
  | .networkDomain domain => { S with networkDomains := S.networkDomains.erase domain }
  | .clipboardCap cap => { S with clipboardCaps := S.clipboardCaps.erase cap }
  | .notificationsOff => { S with notificationsOn := false }
  | .inputCap cap => { S with inputCaps := S.inputCaps.erase cap }
  | .searchCap cap => { S with searchCaps := S.searchCaps.erase cap }
  | .intentsCap cap => { S with intentsCaps := S.intentsCaps.erase cap }
  | .filesystemDir dir => { S with filesystemDirs := S.filesystemDirs.erase dir }
  | .filesystemPath path => { S with filesystemPaths := S.filesystemPaths.erase path }
  | .eventBusSubscribe pattern => { S with eventBusSubscribe := S.eventBusSubscribe.erase pattern }
  | .eventBusPublish pattern => { S with eventBusPublish := S.eventBusPublish.erase pattern }
  | .systemCap cap => { S with systemCaps := S.systemCaps.erase cap }

/-- The summary with a reach. -/
def add (S : ScopeSummary) : RevokedReach → ScopeSummary
  | .read pattern => { S with read := insert pattern S.read }
  | .write pattern => { S with write := insert pattern S.write }
  | .relation r => { S with relations := insert (r.from, r.to, r.relationType) S.relations }
  | .instanceAll => { S with instanceAll := true }
  | .networkDomain domain => { S with networkDomains := insert domain S.networkDomains }
  | .clipboardCap cap => { S with clipboardCaps := insert cap S.clipboardCaps }
  | .notificationsOff => { S with notificationsOn := true }
  | .inputCap cap => { S with inputCaps := insert cap S.inputCaps }
  | .searchCap cap => { S with searchCaps := insert cap S.searchCaps }
  | .intentsCap cap => { S with intentsCaps := insert cap S.intentsCaps }
  | .filesystemDir dir => { S with filesystemDirs := insert dir S.filesystemDirs }
  | .filesystemPath path => { S with filesystemPaths := insert path S.filesystemPaths }
  | .eventBusSubscribe pattern => { S with eventBusSubscribe := insert pattern S.eventBusSubscribe }
  | .eventBusPublish pattern => { S with eventBusPublish := insert pattern S.eventBusPublish }
  | .systemCap cap => { S with systemCaps := insert cap S.systemCaps }

theorem add_of_holds (h : S.Holds r) : S.add r = S := by
  cases S
  cases r <;> simp_all [Holds, add]

/-- Put back what was taken out. -/
theorem add_remove (h : S.Holds r) : (S.remove r).add r = S := by
  cases S
  cases r <;> simp_all [Holds, remove, add]

end ScopeSummary

/-! ## Edits of one table -/

theorem removeString_spec (h : removeStringFromArray key v u = (true, u'))
    (hl : Fields.strings u.get key = some l) :
    Fields.AgreesBut key u.get u'.get ∧ u'.get key ≠ none ∧
      Fields.strings u'.get key = some (l.filter (· ≠ v)) ∧ v ∈ l := by
  unfold removeStringFromArray at h
  split at h
  · next arr harr =>
    obtain ⟨hne, rfl⟩ := Prod.mk.inj h
    obtain ⟨n, hn, hna⟩ := Option.bind_eq_some_iff.1 harr
    rw [Node.asArray_eq_some] at hna
    subst hna
    have hmap := Fields.strings_of_array hn hl
    have hkept : arr.filter (·.asStr ≠ some v) = (l.filter (· ≠ v)).map .string := by
      rw [hmap, List.filter_map]
      congr 1
      refine List.filter_congr fun w _ => ?_
      simp [Node.asStr]
    refine ⟨Fields.agreesBut_insert, by simp, ?_, ?_⟩
    · rw [hkept]
      exact Fields.strings_map_string Table.get_insert_self
    · by_contra hv
      have hall : l.filter (· ≠ v) = l := List.filter_eq_self.2 fun w hw => by
        have hwv : w ≠ v := fun heq => hv (heq ▸ hw)
        simpa using hwv
      rw [hkept, hall, ← hmap] at hne
      simp at hne
  · cases h

theorem addString_spec (h : addStringToArray key v u = (true, u'))
    (hl : Fields.strings u.get key = some l) :
    Fields.AgreesBut key u.get u'.get ∧ u'.get key ≠ none ∧
      Fields.strings u'.get key = some (l ++ [v]) ∧ v ∉ l := by
  unfold addStringToArray at h
  split at h
  · next arr harr =>
    obtain ⟨n, hn, hna⟩ := Option.bind_eq_some_iff.1 harr
    rw [Node.asArray_eq_some] at hna
    subst hna
    have hmap := Fields.strings_of_array hn hl
    split at h
    · cases h
    · next hany =>
      obtain ⟨-, rfl⟩ := Prod.mk.inj h
      refine ⟨Fields.agreesBut_insert, by simp, ?_, ?_⟩
      · refine Fields.strings_map_string ?_
        rw [Table.get_insert_self, hmap, List.map_append]
        rfl
      · intro hv
        refine hany (List.any_eq_true.2 ⟨.string v, ?_, by simp [Node.asStr]⟩)
        rw [hmap]
        exact List.mem_map_of_mem hv
  · split at h
    · next hnone =>
      obtain ⟨-, rfl⟩ := Prod.mk.inj h
      have hnil : l = [] := by
        simpa [Fields.strings, hnone] using hl.symm
      subst hnil
      refine ⟨Fields.agreesBut_insert, by simp, ?_, by simp⟩
      exact Fields.strings_map_string Table.get_insert_self
    · cases h

theorem setBoolFlag_spec {b : Bool} (h : setBoolFlag key b u = (true, u')) :
    Fields.AgreesBut key u.get u'.get ∧ u'.get key = some (.boolean b) ∧
      ((u.get key).bind Node.asBool).getD false = !b := by
  unfold setBoolFlag at h
  split at h
  · cases h
  · next hne =>
    obtain ⟨-, rfl⟩ := Prod.mk.inj h
    refine ⟨Fields.agreesBut_insert, Table.get_insert_self, ?_⟩
    cases b <;> simpa using hne

/-! ## Edits of a document -/

/-- The document after an edit of one section, from `u` to `u'`. -/
structure Edits (doc : Table) (sec : String) (u u' doc' : Table) : Prop where
  here : ∀ order, Fields.record doc.get sec order = some u.get
  after : doc'.get sec = some (.table u')
  frame : Fields.AgreesBut sec doc.get doc'.get

/-- A table, or nothing. -/
def Plain (t : Table) (k : String) : Prop := ∀ n, t.get k = some n → ∃ u, n = .table u

theorem edits_inTable (h : doc.inTable sec f = (true, doc')) :
    ∃ u u', doc.get sec = some (.table u) ∧ f u = (true, u') ∧ Edits doc sec u u' doc' := by
  obtain ⟨u, u', hu, hf, rfl⟩ := Table.inTable_eq_true h
  exact ⟨u, u', hu, hf, fun _ => Fields.record_of_table hu, Table.get_insert_self,
    Fields.agreesBut_insert⟩

theorem edits_inEnsured (hplain : Plain doc sec) (h : inEnsured doc sec f = (true, doc')) :
    ∃ u u', (u = [] ∨ doc.get sec = some (.table u)) ∧ f u = (true, u') ∧
      Edits doc sec u u' doc' := by
  unfold inEnsured at h
  cases hn : doc.get sec with
  | none =>
    have hens : doc.ensureTable sec = doc.insert sec (.table []) := by
      simp [Table.ensureTable, hn]
    rw [hens] at h
    obtain ⟨u, u', hu, hf, rfl⟩ := Table.inTable_eq_true h
    rw [Table.get_insert_self] at hu
    obtain rfl : u = [] := by simpa using hu.symm
    refine ⟨[], u', Or.inl rfl, hf, ?_, Table.get_insert_self, ?_⟩
    · intro order
      simp only [Fields.record, hn]
      rfl
    · intro k hk
      rw [Table.get_insert_of_ne hk, Table.get_insert_of_ne hk]
  | some n =>
    obtain ⟨u₀, rfl⟩ := hplain n hn
    rw [Table.ensureTable_of_get hn] at h
    obtain ⟨u, u', hu, hf, hedits⟩ := edits_inTable h
    exact ⟨u, u', Or.inr (hn.symm.trans hu), hf, hedits⟩

/-! ## Sections -/

/-- The sections of a profile. -/
inductive Section
  | graph
  | eventBus
  | filesystem
  | network
  | notifications
  | clipboard
  | system
  | input
  | search
  | intents
deriving DecidableEq

namespace Section

def name : Section → String
  | graph => "graph"
  | eventBus => "event_bus"
  | filesystem => "filesystem"
  | network => "network"
  | notifications => "notifications"
  | clipboard => "clipboard"
  | system => "system"
  | input => "input"
  | search => "search"
  | intents => "intents"

/-- The fields of its record, in their order. -/
def fields : Section → List String
  | graph => graphFields
  | eventBus => ["publish", "subscribe"]
  | filesystem => fsDirs ++ ["custom", "read_only"]
  | network => ["allow_all", "allowed_domains"]
  | notifications => ["enabled"]
  | clipboard => ["read", "read_sensitive", "write", "history"]
  | system => ["autostart", "background", "power"]
  | input => inputCaps
  | search => searchCaps
  | intents => intentsCaps

abbrev Value : Section → Type
  | graph => GraphPermissions
  | eventBus => EventBusPermissions
  | filesystem => FilesystemPermissions
  | network => NetworkPermissions
  | notifications => Bool
  | system => SystemPermissions
  | clipboard => Finset String
  | input => Finset String
  | search => Finset String
  | intents => Finset String

def read : (sec : Section) → Fields → Option sec.Value
  | graph => readGraph
  | eventBus => readEventBus
  | filesystem => readFilesystem
  | network => readNetwork
  | notifications => (·.flag "enabled")
  | clipboard => (·.flags clipboardCaps)
  | system => readSystem
  | input => (·.flags inputCaps)
  | search => (·.flags searchCaps)
  | intents => (·.flags intentsCaps)

/-- What the profile holds of it. -/
def get (p : PermissionProfile) : (sec : Section) → sec.Value
  | graph => p.graph
  | eventBus => p.eventBus
  | filesystem => p.filesystem
  | network => p.network
  | notifications => p.notifications
  | clipboard => p.clipboard
  | system => p.system
  | input => p.input
  | search => p.search
  | intents => p.intents

def set (p : PermissionProfile) : (sec : Section) → sec.Value → PermissionProfile
  | graph, v => { p with graph := v }
  | eventBus, v => { p with eventBus := v }
  | filesystem, v => { p with filesystem := v }
  | network, v => { p with network := v }
  | notifications, v => { p with notifications := v }
  | clipboard, v => { p with clipboard := v }
  | system, v => { p with system := v }
  | input, v => { p with input := v }
  | search, v => { p with search := v }
  | intents, v => { p with intents := v }

variable {sec sec' : Section}

theorem name_inj (h : sec.name = sec'.name) : sec = sec' := by
  revert h
  cases sec <;> cases sec' <;> decide

@[simp] theorem get_set_self (v : sec.Value) : get (set p sec v) sec = v := by
  cases sec <;> rfl

theorem get_set_of_ne (v : sec.Value) (h : sec' ≠ sec) : get (set p sec v) sec' = get p sec' := by
  cases sec <;> cases sec' <;> first | rfl | exact absurd rfl h

end Section

/-- A profile is read section by section. -/
theorem fromDoc_eq_some : PermissionProfile.fromDoc s = some p ↔
    ∀ sec : Section, (s.record sec.name sec.fields).bind sec.read = some (sec.get p) := by
  unfold PermissionProfile.fromDoc
  constructor
  · intro h
    obtain ⟨_, h₁, h⟩ := Option.bind_eq_some_iff.1 h
    obtain ⟨_, h₂, h⟩ := Option.bind_eq_some_iff.1 h
    obtain ⟨_, h₃, h⟩ := Option.bind_eq_some_iff.1 h
    obtain ⟨_, h₄, h⟩ := Option.bind_eq_some_iff.1 h
    obtain ⟨_, h₅, h⟩ := Option.bind_eq_some_iff.1 h
    obtain ⟨_, h₆, h⟩ := Option.bind_eq_some_iff.1 h
    obtain ⟨_, h₇, h⟩ := Option.bind_eq_some_iff.1 h
    obtain ⟨_, h₈, h⟩ := Option.bind_eq_some_iff.1 h
    obtain ⟨_, h₉, h⟩ := Option.bind_eq_some_iff.1 h
    obtain ⟨_, h₁₀, rfl⟩ := Option.map_eq_some_iff.1 h
    intro sec
    cases sec <;> assumption
  · intro h
    have h₁ : (s.record "graph" graphFields).bind readGraph = some p.graph := h .graph
    have h₂ : (s.record "event_bus" ["publish", "subscribe"]).bind readEventBus = some p.eventBus :=
      h .eventBus
    have h₃ : (s.record "filesystem" (fsDirs ++ ["custom", "read_only"])).bind readFilesystem =
      some p.filesystem := h .filesystem
    have h₄ : (s.record "network" ["allow_all", "allowed_domains"]).bind readNetwork =
      some p.network := h .network
    have h₅ : (s.record "notifications" ["enabled"]).bind (·.flag "enabled") = some p.notifications :=
      h .notifications
    have h₆ : (s.record "clipboard" ["read", "read_sensitive", "write", "history"]).bind
      (·.flags clipboardCaps) = some p.clipboard := h .clipboard
    have h₇ : (s.record "system" ["autostart", "background", "power"]).bind readSystem =
      some p.system := h .system
    have h₈ : (s.record "input" inputCaps).bind (·.flags inputCaps) = some p.input := h .input
    have h₉ : (s.record "search" searchCaps).bind (·.flags searchCaps) = some p.search := h .search
    have h₁₀ : (s.record "intents" intentsCaps).bind (·.flags intentsCaps) = some p.intents :=
      h .intents
    simp only [h₁, h₂, h₃, h₄, h₅, h₆, h₇, h₈, h₉, h₁₀, Option.bind_some, Option.map_some]

/-- An edit of one section sets what the profile holds of it, and nothing else. -/
theorem Edits.section (sec : Section) (h : Edits doc sec.name u u' doc')
    (hp : PermissionProfile.fromDoc doc.get = some p) :
    sec.read u.get = some (sec.get p) ∧ ∀ {v}, sec.read u'.get = some v →
      PermissionProfile.fromDoc doc'.get = some (sec.set p v) := by
  rw [fromDoc_eq_some] at hp
  refine ⟨?_, fun {v} hv => fromDoc_eq_some.2 fun sec' => ?_⟩
  · have hread := hp sec
    rw [h.here, Option.bind_some] at hread
    exact hread
  · by_cases heq : sec' = sec
    · subst heq
      rw [Fields.record_of_table h.after, Option.bind_some, hv, Section.get_set_self]
    · rw [h.frame.record fun hname => heq (Section.name_inj hname), Section.get_set_of_ne v heq]
      exact hp sec'

/-! ## Fields -/

theorem readGraph_eq_some {g : GraphPermissions} : readGraph s = some g ↔
    s.strings "read" = some g.read ∧ s.strings "write" = some g.write ∧
    readRelations (s "relations") = some g.relations ∧
    s.strings "read_sensitive" = some g.readSensitive ∧
    readInstanceScope (s "instance_scope") = some g.instanceScope ∧
    s.strings "required" = some g.required := by
  unfold readGraph
  constructor
  · intro h
    obtain ⟨_, h₁, h⟩ := Option.bind_eq_some_iff.1 h
    obtain ⟨_, h₂, h⟩ := Option.bind_eq_some_iff.1 h
    obtain ⟨_, h₃, h⟩ := Option.bind_eq_some_iff.1 h
    obtain ⟨_, h₄, h⟩ := Option.bind_eq_some_iff.1 h
    obtain ⟨_, h₅, h⟩ := Option.bind_eq_some_iff.1 h
    obtain ⟨_, h₆, rfl⟩ := Option.map_eq_some_iff.1 h
    exact ⟨h₁, h₂, h₃, h₄, h₅, h₆⟩
  · rintro ⟨h₁, h₂, h₃, h₄, h₅, h₆⟩
    simp only [h₁, h₂, h₃, h₄, h₅, h₆, Option.bind_some, Option.map_some]

theorem readFilesystem_eq_some {g : FilesystemPermissions} : readFilesystem s = some g ↔
    s.flags fsDirs = some g.dirs ∧ s.strings "custom" = some g.custom := by
  obtain ⟨dirs, custom⟩ := g
  simp [readFilesystem, Option.bind_eq_some_iff]

theorem readNetwork_eq_some {g : NetworkPermissions} : readNetwork s = some g ↔
    s.flag "allow_all" = some g.allowAll ∧
      s.strings "allowed_domains" = some g.allowedDomains := by
  obtain ⟨allowAll, domains⟩ := g
  simp [readNetwork, Option.bind_eq_some_iff]

theorem readSystem_eq_some {g : SystemPermissions} : readSystem s = some g ↔
    s.flags ["autostart", "background"] = some g.caps ∧
      (s.record "power" ["suspend", "set_profile", "schedule_wake"]).bind
        (·.flags ["suspend", "set_profile"]) = some g.power := by
  obtain ⟨caps, power⟩ := g
  simp [readSystem, Option.bind_eq_some_iff]

/-- A subscription that is not declared reads as an empty one. -/
theorem readEventBus_eq_some {publish : List String} {subscribe : Option (List String)} :
    readEventBus s = some ⟨publish, subscribe⟩ ↔ s.strings "publish" = some publish ∧
      s.strings "subscribe" = some (subscribe.getD []) ∧
        (s "subscribe" = none ↔ subscribe = none) := by
  unfold readEventBus
  cases h : s "subscribe" with
  | none =>
    have hnil : s.strings "subscribe" = some [] := by simp [Fields.strings, h]
    simp only [hnil, Option.map_some, Option.map_none, Option.bind_eq_some_iff]
    cases subscribe <;> simp
  | some n =>
    cases subscribe with
    | none => simp [Option.bind_eq_some_iff]
    | some l => simp [Option.bind_eq_some_iff]

/-! ## What each reach's edit does -/

theorem toFinset_filter_ne (l : List String) (v : String) :
    (l.filter (· ≠ v)).toFinset = l.toFinset.erase v := by
  ext w
  simp [and_comm]

theorem toFinset_concat (l : List String) (v : String) :
    (l ++ [v]).toFinset = insert v l.toFinset := by
  ext w
  simp

section
variable (hp : PermissionProfile.fromDoc doc.get = some p)
include hp

theorem edit_read (h : Edits doc "graph" u u' doc') :
    Fields.strings u.get "read" = some p.graph.read ∧
      ∀ {l}, Fields.AgreesBut "read" u.get u'.get → Fields.strings u'.get "read" = some l →
        PermissionProfile.fromDoc doc'.get = some { p with graph := { p.graph with read := l } } := by
  obtain ⟨hg, hset⟩ := Edits.section .graph h hp
  replace hg := (readGraph_eq_some (g := p.graph)).1 hg
  refine ⟨hg.1, fun hag hl => hset (readGraph_eq_some.2 ⟨hl, ?_⟩)⟩
  simpa (disch := decide) only [hag.strings, hag "relations" (by decide),
    hag "instance_scope" (by decide)] using hg.2

theorem edit_write (h : Edits doc "graph" u u' doc') :
    Fields.strings u.get "write" = some p.graph.write ∧
      ∀ {l}, Fields.AgreesBut "write" u.get u'.get → Fields.strings u'.get "write" = some l →
        PermissionProfile.fromDoc doc'.get =
          some { p with graph := { p.graph with write := l } } := by
  obtain ⟨hg, hset⟩ := Edits.section .graph h hp
  replace hg := (readGraph_eq_some (g := p.graph)).1 hg
  refine ⟨hg.2.1, fun hag hl => hset (readGraph_eq_some.2 ⟨?_, hl, ?_⟩)⟩
  · rw [hag.strings (by decide)]
    exact hg.1
  · simpa (disch := decide) only [hag.strings, hag "relations" (by decide),
      hag "instance_scope" (by decide)] using hg.2.2

theorem edit_relations (h : Edits doc "graph" u u' doc') :
    readRelations (u.get "relations") = some p.graph.relations ∧
      ∀ {l}, Fields.AgreesBut "relations" u.get u'.get →
        readRelations (u'.get "relations") = some l →
        PermissionProfile.fromDoc doc'.get =
          some { p with graph := { p.graph with relations := l } } := by
  obtain ⟨hg, hset⟩ := Edits.section .graph h hp
  replace hg := (readGraph_eq_some (g := p.graph)).1 hg
  refine ⟨hg.2.2.1, fun hag hl => hset (readGraph_eq_some.2 ⟨?_, ?_, hl, ?_⟩)⟩
  · rw [hag.strings (by decide)]
    exact hg.1
  · rw [hag.strings (by decide)]
    exact hg.2.1
  · simpa (disch := decide) only [hag.strings, hag "instance_scope" (by decide)] using hg.2.2.2

theorem edit_instance (h : Edits doc "graph" u u' doc') :
    readInstanceScope (u.get "instance_scope") = some p.graph.instanceScope ∧
      ∀ {x}, Fields.AgreesBut "instance_scope" u.get u'.get →
        readInstanceScope (u'.get "instance_scope") = some x →
        PermissionProfile.fromDoc doc'.get =
          some { p with graph := { p.graph with instanceScope := x } } := by
  obtain ⟨hg, hset⟩ := Edits.section .graph h hp
  replace hg := (readGraph_eq_some (g := p.graph)).1 hg
  refine ⟨hg.2.2.2.2.1, fun hag hx => hset (readGraph_eq_some.2 ⟨?_, ?_, ?_, ?_, hx, ?_⟩)⟩
  · rw [hag.strings (by decide)]
    exact hg.1
  · rw [hag.strings (by decide)]
    exact hg.2.1
  · rw [hag "relations" (by decide)]
    exact hg.2.2.1
  · rw [hag.strings (by decide)]
    exact hg.2.2.2.1
  · rw [hag.strings (by decide)]
    exact hg.2.2.2.2.2

theorem edit_domains (h : Edits doc "network" u u' doc') :
    Fields.strings u.get "allowed_domains" = some p.network.allowedDomains ∧
      ∀ {l}, Fields.AgreesBut "allowed_domains" u.get u'.get →
        Fields.strings u'.get "allowed_domains" = some l →
        PermissionProfile.fromDoc doc'.get =
          some { p with network := { p.network with allowedDomains := l } } := by
  obtain ⟨hg, hset⟩ := Edits.section .network h hp
  replace hg := (readNetwork_eq_some (g := p.network)).1 hg
  refine ⟨hg.2, fun hag hl => hset (readNetwork_eq_some.2 ⟨?_, hl⟩)⟩
  rw [hag.flag (by decide)]
  exact hg.1

theorem edit_custom (h : Edits doc "filesystem" u u' doc') :
    Fields.strings u.get "custom" = some p.filesystem.custom ∧
      ∀ {l}, Fields.AgreesBut "custom" u.get u'.get →
        Fields.strings u'.get "custom" = some l →
        PermissionProfile.fromDoc doc'.get =
          some { p with filesystem := { p.filesystem with custom := l } } := by
  obtain ⟨hg, hset⟩ := Edits.section .filesystem h hp
  replace hg := (readFilesystem_eq_some (g := p.filesystem)).1 hg
  refine ⟨hg.2, fun hag hl => hset (readFilesystem_eq_some.2 ⟨?_, hl⟩)⟩
  rw [hag.flags (by decide)]
  exact hg.1

theorem edit_dirs (h : Edits doc "filesystem" u u' doc') :
    Fields.flags u.get fsDirs = some p.filesystem.dirs ∧
      ∀ {key c}, Fields.AgreesBut key u.get u'.get → key ≠ "custom" →
        Fields.flags u'.get fsDirs = some c →
        PermissionProfile.fromDoc doc'.get =
          some { p with filesystem := { p.filesystem with dirs := c } } := by
  obtain ⟨hg, hset⟩ := Edits.section .filesystem h hp
  replace hg := (readFilesystem_eq_some (g := p.filesystem)).1 hg
  refine ⟨hg.1, fun hag hkey hc => hset (readFilesystem_eq_some.2 ⟨hc, ?_⟩)⟩
  rw [hag.strings (Ne.symm hkey)]
  exact hg.2

theorem edit_subscribe (h : Edits doc "event_bus" u u' doc') :
    Fields.strings u.get "subscribe" = some (p.eventBus.subscribe.getD []) ∧
      ∀ {l}, Fields.AgreesBut "subscribe" u.get u'.get → u'.get "subscribe" ≠ none →
        Fields.strings u'.get "subscribe" = some l →
        PermissionProfile.fromDoc doc'.get =
          some { p with eventBus := { p.eventBus with subscribe := some l } } := by
  obtain ⟨hg, hset⟩ := Edits.section .eventBus h hp
  obtain ⟨hpub, hsub, -⟩ := readEventBus_eq_some.1 hg
  refine ⟨hsub, fun hag hne hl => hset (readEventBus_eq_some.2 ⟨?_, hl, by simpa using hne⟩)⟩
  rw [hag.strings (by decide)]
  exact hpub

theorem edit_publish (h : Edits doc "event_bus" u u' doc') :
    Fields.strings u.get "publish" = some p.eventBus.publish ∧
      ∀ {l}, Fields.AgreesBut "publish" u.get u'.get →
        Fields.strings u'.get "publish" = some l →
        PermissionProfile.fromDoc doc'.get =
          some { p with eventBus := { p.eventBus with publish := l } } := by
  obtain ⟨hg, hset⟩ := Edits.section .eventBus h hp
  obtain ⟨hpub, hsub, hnone⟩ := readEventBus_eq_some.1 hg
  refine ⟨hpub, fun hag hl => hset (readEventBus_eq_some.2 ⟨hl, ?_, ?_⟩)⟩
  · rw [hag.strings (by decide)]
    exact hsub
  · rw [hag "subscribe" (by decide)]
    exact hnone

theorem edit_system (h : Edits doc "system" u u' doc') :
    Fields.flags u.get ["autostart", "background"] = some p.system.caps ∧
      ∀ {key c}, Fields.AgreesBut key u.get u'.get → key ≠ "power" →
        Fields.flags u'.get ["autostart", "background"] = some c →
        PermissionProfile.fromDoc doc'.get =
          some { p with system := { p.system with caps := c } } := by
  obtain ⟨hg, hset⟩ := Edits.section .system h hp
  replace hg := (readSystem_eq_some (g := p.system)).1 hg
  refine ⟨hg.1, fun hag hkey hc => hset (readSystem_eq_some.2 ⟨hc, ?_⟩)⟩
  rw [hag.record (Ne.symm hkey)]
  exact hg.2

theorem edit_power {w w' : Table} (h : Edits doc "system" u u' doc')
    (hw : Edits u "power" w w' u') :
    Fields.flags w.get ["suspend", "set_profile"] = some p.system.power ∧
      ∀ {c}, Fields.flags w'.get ["suspend", "set_profile"] = some c →
        PermissionProfile.fromDoc doc'.get =
          some { p with system := { p.system with power := c } } := by
  obtain ⟨hg, hset⟩ := Edits.section .system h hp
  replace hg := (readSystem_eq_some (g := p.system)).1 hg
  refine ⟨?_, fun hc => hset (readSystem_eq_some.2 ⟨?_, ?_⟩)⟩
  · simpa only [hw.here, Option.bind_some] using hg.2
  · rw [hw.frame.flags (by decide)]
    exact hg.1
  · rw [Fields.record_of_table hw.after]
    exact hc

end

/-! ## Relations -/

section
variable {α : Type} {rel : RelationPermission} {rs : List RelationPermission}
  {g : α → Option RelationPermission} {arr : List α}

/-- Elements that read as one relation, taken out. -/
theorem mapM_filter (is : α → Bool) (his : ∀ n, is n = true → g n = some rel) (h : arr.mapM g = some rs) :
    ∃ rs', (arr.filter (!is ·)).mapM g = some rs' ∧ (∀ x ∈ rs', x ∈ rs) ∧
      (∀ x ∈ rs, x = rel ∨ x ∈ rs') ∧
      ((arr.filter (!is ·)).length ≠ arr.length → rel ∈ rs) := by
  induction arr generalizing rs with
  | nil =>
    obtain rfl : [] = rs := by simpa using h
    exact ⟨[], rfl, by simp, by simp, by simp⟩
  | cons n arr ih =>
    simp only [List.mapM_cons, bind, pure, Option.bind_eq_some_iff, Option.some.injEq] at h
    obtain ⟨x, hx, rs₀, hrs, rfl⟩ := h
    obtain ⟨rs', hrs', hsub, hsup, hlen⟩ := ih hrs
    by_cases hn : is n = true
    · obtain rfl : x = rel := by
        have := hx.symm.trans (his n hn)
        simpa using this
      rw [List.filter_cons_of_neg (by simpa using hn)]
      refine ⟨rs', hrs', fun y hy => List.mem_cons_of_mem _ (hsub y hy), ?_, ?_⟩
      · intro y hy
        rcases List.mem_cons.1 hy with rfl | hy
        · exact Or.inl rfl
        · exact hsup y hy
      · exact fun _ => List.mem_cons_self ..
    · rw [List.filter_cons_of_pos (by simpa using hn)]
      refine ⟨x :: rs', ?_, ?_, ?_, ?_⟩
      · simp [hx, hrs']
      · intro y hy
        rcases List.mem_cons.1 hy with rfl | hy
        · exact List.mem_cons_self ..
        · exact List.mem_cons_of_mem _ (hsub y hy)
      · intro y hy
        rcases List.mem_cons.1 hy with rfl | hy
        · exact Or.inr (List.mem_cons_self ..)
        · exact (hsup y hy).imp id (List.mem_cons_of_mem _)
      · intro hne
        exact List.mem_cons_of_mem _ (hlen fun heq => hne (by simp [heq]))

end

theorem readRelation_table {rel : RelationPermission} :
    readRelation (.table t) = some rel ↔ isRelation rel t = true := by
  obtain ⟨from', to', type⟩ := rel
  simp [readRelation, isRelation, Node.fields, Fields.str, Option.bind_eq_some_iff, and_assoc]

theorem readRelation_of_inline {rel : RelationPermission} {n : Node}
    (h : isInlineRelation rel n = true) : readRelation n = some rel := by
  unfold isInlineRelation at h
  split at h
  · next t ht =>
    rw [Node.asTable_eq_some] at ht
    rw [ht, readRelation_table]
    exact h
  · cases h

theorem readRelation_relationEntry (rel : RelationPermission) :
    readRelation (relationEntry rel) = some rel := by
  rw [relationEntry, readRelation_table]
  simp [isRelation, Table.get, Node.asStr]

/-- Removing a relation leaves the others, and perhaps the relation written as an array. -/
theorem removeRelation_spec {rel : RelationPermission} {rs : List RelationPermission}
    (h : removeRelation rel u = (true, u')) (hrs : readRelations (u.get "relations") = some rs) :
    Fields.AgreesBut "relations" u.get u'.get ∧ rel ∈ rs ∧
      ∃ rs', readRelations (u'.get "relations") = some rs' ∧ (∀ x ∈ rs', x ∈ rs) ∧
        ∀ x ∈ rs, x = rel ∨ x ∈ rs' := by
  unfold removeRelation at h
  split at h
  · next arr harr =>
    obtain ⟨n, hn, hna⟩ := Option.bind_eq_some_iff.1 harr
    rw [Node.asArray_eq_some] at hna
    subst hna
    obtain ⟨hlen, rfl⟩ := Prod.mk.inj h
    rw [hn] at hrs
    obtain ⟨rs', hrs', hsub, hsup, hmem⟩ :=
      mapM_filter (isInlineRelation rel) (fun _ => readRelation_of_inline) hrs
    refine ⟨Fields.agreesBut_insert, hmem (by simpa using hlen), rs', ?_, hsub, hsup⟩
    rw [Table.get_insert_self]
    exact hrs'
  · split at h
    · next tables htables =>
      obtain ⟨n, hn, hna⟩ := Option.bind_eq_some_iff.1 htables
      rw [Node.asTables_eq_some] at hna
      subst hna
      obtain ⟨hlen, rfl⟩ := Prod.mk.inj h
      rw [hn] at hrs
      obtain ⟨rs', hrs', hsub, hsup, hmem⟩ :=
        mapM_filter (isRelation rel) (fun _ => readRelation_table.2) hrs
      refine ⟨Fields.agreesBut_insert, hmem (by simpa using hlen), rs', ?_, hsub, hsup⟩
      rw [Table.get_insert_self]
      exact hrs'
    · cases h

theorem addRelation_spec {rel : RelationPermission} {rs : List RelationPermission}
    (h : addRelation rel u = (true, u')) (hrs : readRelations (u.get "relations") = some rs) :
    Fields.AgreesBut "relations" u.get u'.get ∧
      readRelations (u'.get "relations") = some (rs ++ [rel]) := by
  unfold addRelation at h
  simp only at h
  split at h
  · cases h
  split at h
  · next arr harr =>
    obtain ⟨n, hn, hna⟩ := Option.bind_eq_some_iff.1 harr
    rw [Node.asArray_eq_some] at hna
    subst hna
    obtain ⟨-, rfl⟩ := Prod.mk.inj h
    rw [hn] at hrs
    refine ⟨Fields.agreesBut_insert, ?_⟩
    rw [Table.get_insert_self]
    simp only [readRelations] at hrs ⊢
    rw [List.mapM_append, hrs]
    simp [readRelation_relationEntry]
  · split at h
    · next hnone =>
      obtain ⟨-, rfl⟩ := Prod.mk.inj h
      rw [hnone] at hrs
      obtain rfl : rs = [] := by simpa [readRelations] using hrs.symm
      refine ⟨Fields.agreesBut_insert, ?_⟩
      rw [Table.get_insert_self]
      simp [readRelations, readRelation_relationEntry]
    · cases h

/-! ## Instance scope -/

theorem demoteInstance_spec {x : InstanceScopeConfig} (h : demoteInstance u = (true, u'))
    (hx : readInstanceScope (u.get "instance_scope") = some x) :
    Fields.AgreesBut "instance_scope" u.get u'.get ∧ x = .all ∧
      readInstanceScope (u'.get "instance_scope") = some .own := by
  unfold demoteInstance at h
  split at h
  · next hall =>
    obtain ⟨-, rfl⟩ := Prod.mk.inj h
    refine ⟨Fields.agreesBut_insert, ?_, by rw [Table.get_insert_self]; decide⟩
    unfold instanceIsAll at hall
    cases hn : (u.get "instance_scope").bind Node.asStr with
    | none => simp [hn] at hall
    | some name =>
      obtain ⟨n, hu, hns⟩ := Option.bind_eq_some_iff.1 hn
      rw [Node.asStr_eq_some] at hns
      rw [hu, hns] at hx
      simp only [hn, Option.map_some, Option.getD_some] at hall
      simp only [readInstanceScope, scopeNamed] at hx
      split_ifs at hx with h₁ h₂
      · rw [h₁] at hall
        exact absurd hall (by decide)
      · exact (Option.some.inj hx).symm
  · cases h

theorem promoteInstance_spec (h : promoteInstance u = (true, u')) :
    Fields.AgreesBut "instance_scope" u.get u'.get ∧
      readInstanceScope (u'.get "instance_scope") = some .all := by
  unfold promoteInstance at h
  split at h
  · cases h
  · obtain ⟨-, rfl⟩ := Prod.mk.inj h
    exact ⟨Fields.agreesBut_insert, by rw [Table.get_insert_self]; decide⟩

/-! ## Flags -/

/-- A flag set in a section: what the section's flags read as. -/
theorem setBoolFlag_flags {names : List String} {c : Finset String} {b : Bool}
    (h : setBoolFlag cap b u = (true, u')) (hmem : cap ∈ names)
    (hc : Fields.flags u.get names = some c) :
    Fields.AgreesBut cap u.get u'.get ∧
      Fields.flags u'.get names = some (if b then insert cap c else c.erase cap) ∧
      (b = false → cap ∈ c) := by
  obtain ⟨hag, hset, hwas⟩ := setBoolFlag_spec h
  refine ⟨hag, hag.flags_set hset hmem hc, ?_⟩
  rintro rfl
  rw [Fields.mem_of_flags hc hmem]
  cases hn : u.get cap with
  | none => simp [hn] at hwas
  | some n =>
    cases n with
    | boolean b => simpa [hn, Node.asBool] using hwas
    | _ => simp [hn, Node.asBool] at hwas

theorem setCap_eq_true {caps : List String} {b : Bool}
    {inSection : (Table → Bool × Table) → Bool × Table}
    (h : setCap doc caps cap b inSection = (true, doc')) :
    cap ∈ caps ∧ inSection (setBoolFlag cap b) = (true, doc') := by
  unfold setCap at h
  split at h
  · next hmem => exact ⟨hmem, h⟩
  · cases h

end Arlen.Knowledge
