import Arlen.Knowledge.Reach

/-!
# The way back from a revoke

A revoke that was written took its reach out of the summary and nothing else. Handed
the document the revoke left, a restore puts the reach back, unless the reach is a
relation and the profile has its relations as an array of tables: that form is read
by a revoke and not extended by a restore.
-/

namespace Arlen.Knowledge

open Arlen.Lib.Toml

variable {doc doc' u : Table} {p : PermissionProfile} {r : RevokedReach}

/-! ## One revoke -/

/-- A revoke of a string, in a section whose edit sets a list. -/
theorem revoke_string {sec key v : String} {l : List String} {set : List String → PermissionProfile}
    (h : doc.inTable sec (removeStringFromArray key v) = (true, doc'))
    (hedit : ∀ {u u'}, Edits doc sec u u' doc' → Fields.strings u.get key = some l ∧
      ∀ {l'}, Fields.AgreesBut key u.get u'.get → u'.get key ≠ none →
        Fields.strings u'.get key = some l' →
        PermissionProfile.fromDoc doc'.get = some (set l')) :
    v ∈ l ∧ PermissionProfile.fromDoc doc'.get = some (set (l.filter (· ≠ v))) := by
  obtain ⟨u, u', -, hf, he⟩ := edits_inTable h
  obtain ⟨hl, hset⟩ := hedit he
  obtain ⟨hag, hne, hl', hv⟩ := removeString_spec hf hl
  exact ⟨hv, hset hag hne hl'⟩

/-- A revoke of a flag, in a section whose edit sets the flags. -/
theorem revoke_flag {sec cap : String} {names : List String} {c : Finset String}
    {set : Finset String → PermissionProfile}
    (h : setCap doc names cap false (doc.inTable sec) = (true, doc'))
    (hedit : ∀ {u u'}, Edits doc sec u u' doc' → Fields.flags u.get names = some c ∧
      ∀ {c'}, Fields.AgreesBut cap u.get u'.get → Fields.flags u'.get names = some c' →
        PermissionProfile.fromDoc doc'.get = some (set c')) :
    cap ∈ c ∧ PermissionProfile.fromDoc doc'.get = some (set (c.erase cap)) := by
  obtain ⟨hmem, h⟩ := setCap_eq_true h
  obtain ⟨u, u', -, hf, he⟩ := edits_inTable h
  obtain ⟨hc, hset⟩ := hedit he
  obtain ⟨hag, hc', hon⟩ := setBoolFlag_flags hf hmem hc
  exact ⟨hon rfl, hset hag hc'⟩

theorem revoke_notifications (h : applyRevoke doc .notificationsOff = (true, doc'))
    (hp : PermissionProfile.fromDoc doc.get = some p) : p.notifications = true ∧
      PermissionProfile.fromDoc doc'.get = some { p with notifications := false } := by
  obtain ⟨u, u', -, hf, he⟩ := edits_inTable h
  obtain ⟨hflag, hset⟩ := Edits.section .notifications he hp
  change Fields.flag (Table.get u) "enabled" = some p.notifications at hflag
  obtain ⟨-, hnew, hwas⟩ := setBoolFlag_spec hf
  refine ⟨?_, hset ?_⟩
  · unfold Fields.flag at hflag
    cases hn : Table.get u "enabled" with
    | none => simp [hn] at hwas
    | some n =>
      simp only [hn] at hflag
      simp only [hn, Option.bind_some, hflag, Option.getD_some] at hwas
      simpa using hwas
  · have hoff : Fields.flag (Table.get u') "enabled" = some false := by
      simp [Fields.flag, hnew, Node.asBool]
    exact hoff

theorem mem_systemCaps {cap : String} (h : cap ∈ systemCaps) :
    if systemCapIsPower cap then cap ∈ ["suspend", "set_profile"]
    else cap ∈ ["autostart", "background"] ∧ cap ≠ "power" := by
  unfold systemCaps at h
  simp only [List.mem_cons, List.not_mem_nil, or_false] at h
  rcases h with rfl | rfl | rfl | rfl <;> decide

/-- The flags of one table of `[system]` are not those of the other. -/
theorem union_flags {c power : Finset String} {s w : Fields}
    (hc : s.flags ["autostart", "background"] = some c)
    (hpower : w.flags ["suspend", "set_profile"] = some power) (cap : String) :
    (cap ∈ ["autostart", "background"] → cap ∉ power) ∧
      (cap ∈ ["suspend", "set_profile"] → cap ∉ c) := by
  constructor
  · intro hmem hin
    have := Fields.mem_names_of_flags hpower hin
    revert hmem this
    simp only [List.mem_cons, List.not_mem_nil, or_false]
    rintro (rfl | rfl) <;> decide
  · intro hmem hin
    have := Fields.mem_names_of_flags hc hin
    revert hmem this
    simp only [List.mem_cons, List.not_mem_nil, or_false]
    rintro (rfl | rfl) <;> decide

theorem erase_union_left {c power : Finset String} {cap : String} (h : cap ∉ power) :
    c.erase cap ∪ power = (c ∪ power).erase cap := by
  rw [Finset.erase_union_distrib, Finset.erase_eq_of_notMem h]

theorem erase_union_right {c power : Finset String} {cap : String} (h : cap ∉ c) :
    c ∪ power.erase cap = (c ∪ power).erase cap := by
  rw [Finset.erase_union_distrib, Finset.erase_eq_of_notMem h]

/-- The caps a profile reads are apart from its power caps. -/
theorem system_apart (hp : PermissionProfile.fromDoc doc.get = some p) (cap : String) :
    (cap ∈ ["autostart", "background"] → cap ∉ p.system.power) ∧
      (cap ∈ ["suspend", "set_profile"] → cap ∉ p.system.caps) := by
  obtain ⟨s, -, hs⟩ := Option.bind_eq_some_iff.1 (fromDoc_eq_some.1 hp .system)
  obtain ⟨hc, hpower⟩ := readSystem_eq_some.1 hs
  obtain ⟨w, -, hw⟩ := Option.bind_eq_some_iff.1 hpower
  exact union_flags hc hw cap

theorem revoke_system {cap : String} (h : applyRevoke doc (.systemCap cap) = (true, doc'))
    (hp : PermissionProfile.fromDoc doc.get = some p) :
    ∃ p', PermissionProfile.fromDoc doc'.get = some p' ∧
      cap ∈ (ScopeSummary.fromProfile p).systemCaps ∧
      ScopeSummary.fromProfile p' = (ScopeSummary.fromProfile p).remove (.systemCap cap) := by
  simp only [applyRevoke] at h
  obtain ⟨hmem, h⟩ := setCap_eq_true h
  have hplace := mem_systemCaps hmem
  obtain ⟨u, u', -, hf, he⟩ := edits_inTable h
  cases hpow : systemCapIsPower cap with
  | true =>
    simp only [hpow, if_true] at hf hplace
    obtain ⟨w, w', -, hf, hw⟩ := edits_inTable hf
    obtain ⟨hc, hset⟩ := edit_power hp he hw
    obtain ⟨-, hc', hon⟩ := setBoolFlag_flags hf hplace hc
    refine ⟨_, hset hc', Finset.mem_union_right _ (hon rfl), ?_⟩
    simp only [ScopeSummary.fromProfile, ScopeSummary.remove, Bool.false_eq_true, if_false,
      erase_union_right ((system_apart hp cap).2 hplace)]
  | false =>
    simp only [hpow, Bool.false_eq_true, if_false] at hf hplace
    obtain ⟨hc, hset⟩ := edit_system hp he
    obtain ⟨hag, hc', hon⟩ := setBoolFlag_flags hf hplace.1 hc
    refine ⟨_, hset hag hplace.2 hc', Finset.mem_union_left _ (hon rfl), ?_⟩
    simp only [ScopeSummary.fromProfile, ScopeSummary.remove, Bool.false_eq_true, if_false,
      erase_union_left ((system_apart hp cap).1 hplace.1)]

/-- A relation as the summary has it. -/
def triple (rel : RelationPermission) : String × String × String := (rel.from, rel.to, rel.relationType)

theorem triple_injective : Function.Injective triple := by
  rintro ⟨_, _, _⟩ ⟨_, _, _⟩ h
  simpa [triple] using h

theorem triples_of_removed {rel : RelationPermission} {rs rs' : List RelationPermission}
    (hsub : ∀ x ∈ rs', x ∈ rs) (hsup : ∀ x ∈ rs, x = rel ∨ x ∈ rs') :
    (rs'.map triple).toFinset = (rs.map triple).toFinset ∨
      (rs'.map triple).toFinset = (rs.map triple).toFinset.erase (triple rel) := by
  by_cases hrel : rel ∈ rs'
  · left
    ext x
    simp only [List.mem_toFinset, List.mem_map]
    constructor
    · rintro ⟨y, hy, rfl⟩
      exact ⟨y, hsub y hy, rfl⟩
    · rintro ⟨y, hy, rfl⟩
      rcases hsup y hy with rfl | hy
      · exact ⟨y, hrel, rfl⟩
      · exact ⟨y, hy, rfl⟩
  · right
    ext x
    simp only [List.mem_toFinset, List.mem_map, Finset.mem_erase]
    constructor
    · rintro ⟨y, hy, rfl⟩
      refine ⟨fun heq => hrel ?_, y, hsub y hy, rfl⟩
      exact triple_injective heq ▸ hy
    · rintro ⟨hne, y, hy, rfl⟩
      rcases hsup y hy with rfl | hy
      · exact absurd rfl hne
      · exact ⟨y, hy, rfl⟩

theorem revoke_relation {rel : RelationPermission}
    (h : applyRevoke doc (.relation rel) = (true, doc'))
    (hp : PermissionProfile.fromDoc doc.get = some p) :
    ∃ p', PermissionProfile.fromDoc doc'.get = some p' ∧
      (ScopeSummary.fromProfile p).Holds (.relation rel) ∧
      (ScopeSummary.fromProfile p' = ScopeSummary.fromProfile p ∨
        ScopeSummary.fromProfile p' = (ScopeSummary.fromProfile p).remove (.relation rel)) := by
  obtain ⟨u, u', -, hf, he⟩ := edits_inTable h
  obtain ⟨hrs, hset⟩ := edit_relations hp he
  obtain ⟨hag, hmem, rs', hrs', hsub, hsup⟩ := removeRelation_spec hf hrs
  refine ⟨_, hset hag hrs', ?_, ?_⟩
  · exact List.mem_toFinset.2 (List.mem_map_of_mem hmem)
  · refine (triples_of_removed hsub hsup).imp (fun heq => ?_) fun heq => ?_
    · simp only [ScopeSummary.fromProfile]
      exact congrArg (ScopeSummary.mk _ _ _ · _ _ _ _ _ _ _ _ _ _ _ _ _) heq
    · simp only [ScopeSummary.fromProfile, ScopeSummary.remove]
      exact congrArg (ScopeSummary.mk _ _ _ · _ _ _ _ _ _ _ _ _ _ _ _ _) heq

/-- What a revoke's edit comes to: the reach was held, and it is gone or, for a relation
that stands in the profile a second time as an array, the summary is the same. -/
theorem revoke_effect (h : applyRevoke doc r = (true, doc'))
    (hp : PermissionProfile.fromDoc doc.get = some p) :
    ∃ p', PermissionProfile.fromDoc doc'.get = some p' ∧ (ScopeSummary.fromProfile p).Holds r ∧
      (ScopeSummary.fromProfile p' = ScopeSummary.fromProfile p ∨
        ScopeSummary.fromProfile p' = (ScopeSummary.fromProfile p).remove r) := by
  cases r with
  | read v =>
    obtain ⟨hv, hp'⟩ := revoke_string h fun he =>
      ⟨(edit_read hp he).1, fun hag _ hl => (edit_read hp he).2 hag hl⟩
    refine ⟨_, hp', List.mem_toFinset.2 hv, Or.inr ?_⟩
    simp only [ScopeSummary.fromProfile, ScopeSummary.remove, toFinset_filter_ne]
  | write v =>
    obtain ⟨hv, hp'⟩ := revoke_string h fun he =>
      ⟨(edit_write hp he).1, fun hag _ hl => (edit_write hp he).2 hag hl⟩
    refine ⟨_, hp', List.mem_toFinset.2 hv, Or.inr ?_⟩
    simp only [ScopeSummary.fromProfile, ScopeSummary.remove, toFinset_filter_ne]
  | networkDomain v =>
    obtain ⟨hv, hp'⟩ := revoke_string h fun he =>
      ⟨(edit_domains hp he).1, fun hag _ hl => (edit_domains hp he).2 hag hl⟩
    refine ⟨_, hp', List.mem_toFinset.2 hv, Or.inr ?_⟩
    simp only [ScopeSummary.fromProfile, ScopeSummary.remove, toFinset_filter_ne]
  | filesystemPath v =>
    obtain ⟨hv, hp'⟩ := revoke_string h fun he =>
      ⟨(edit_custom hp he).1, fun hag _ hl => (edit_custom hp he).2 hag hl⟩
    refine ⟨_, hp', List.mem_toFinset.2 hv, Or.inr ?_⟩
    simp only [ScopeSummary.fromProfile, ScopeSummary.remove, toFinset_filter_ne]
  | eventBusSubscribe v =>
    obtain ⟨hv, hp'⟩ := revoke_string h fun he =>
      ⟨(edit_subscribe hp he).1, fun hag hne hl => (edit_subscribe hp he).2 hag hne hl⟩
    refine ⟨_, hp', List.mem_toFinset.2 hv, Or.inr ?_⟩
    simp only [ScopeSummary.fromProfile, ScopeSummary.remove, Option.getD_some, toFinset_filter_ne]
  | eventBusPublish v =>
    obtain ⟨hv, hp'⟩ := revoke_string h fun he =>
      ⟨(edit_publish hp he).1, fun hag _ hl => (edit_publish hp he).2 hag hl⟩
    refine ⟨_, hp', List.mem_toFinset.2 hv, Or.inr ?_⟩
    simp only [ScopeSummary.fromProfile, ScopeSummary.remove, toFinset_filter_ne]
  | clipboardCap cap =>
    obtain ⟨hv, hp'⟩ := revoke_flag h fun he =>
      ⟨(Edits.section .clipboard he hp).1, fun _ => (Edits.section .clipboard he hp).2⟩
    exact ⟨_, hp', hv, Or.inr rfl⟩
  | inputCap cap =>
    obtain ⟨hv, hp'⟩ := revoke_flag h fun he =>
      ⟨(Edits.section .input he hp).1, fun _ => (Edits.section .input he hp).2⟩
    exact ⟨_, hp', hv, Or.inr rfl⟩
  | searchCap cap =>
    obtain ⟨hv, hp'⟩ := revoke_flag h fun he =>
      ⟨(Edits.section .search he hp).1, fun _ => (Edits.section .search he hp).2⟩
    exact ⟨_, hp', hv, Or.inr rfl⟩
  | intentsCap cap =>
    obtain ⟨hv, hp'⟩ := revoke_flag h fun he =>
      ⟨(Edits.section .intents he hp).1, fun _ => (Edits.section .intents he hp).2⟩
    exact ⟨_, hp', hv, Or.inr rfl⟩
  | filesystemDir dir =>
    have hdir := (setCap_eq_true h).1
    have hne : dir ≠ "custom" := by
      rintro rfl
      exact absurd hdir (by decide)
    obtain ⟨hv, hp'⟩ := revoke_flag h fun he =>
      ⟨(edit_dirs hp he).1, fun hag hc => (edit_dirs hp he).2 hag hne hc⟩
    exact ⟨_, hp', hv, Or.inr rfl⟩
  | notificationsOff =>
    obtain ⟨hon, hp'⟩ := revoke_notifications h hp
    exact ⟨_, hp', hon, Or.inr rfl⟩
  | systemCap cap =>
    obtain ⟨p', hp', hmem, heq⟩ := revoke_system h hp
    exact ⟨p', hp', hmem, Or.inr heq⟩
  | relation rel => exact revoke_relation h hp
  | instanceAll =>
    obtain ⟨u, u', -, hf, he⟩ := edits_inTable h
    obtain ⟨hx, hset⟩ := edit_instance hp he
    obtain ⟨hag, hall, hown⟩ := demoteInstance_spec hf hx
    refine ⟨_, hset hag hown, ?_, Or.inr ?_⟩
    · simp [ScopeSummary.Holds, ScopeSummary.fromProfile, hall]
    · simp [ScopeSummary.remove, ScopeSummary.fromProfile]

/-! ## One restore -/

/-- The section of the profile a reach is kept in. -/
def sectionOf : RevokedReach → String
  | .read _ | .write _ | .relation _ | .instanceAll => "graph"
  | .networkDomain _ => "network"
  | .clipboardCap _ => "clipboard"
  | .notificationsOff => "notifications"
  | .inputCap _ => "input"
  | .searchCap _ => "search"
  | .intentsCap _ => "intents"
  | .filesystemDir _ | .filesystemPath _ => "filesystem"
  | .eventBusSubscribe _ | .eventBusPublish _ => "event_bus"
  | .systemCap _ => "system"

/-- A reach kept under `[system.power]`. -/
def inPower : RevokedReach → Bool
  | .systemCap cap => systemCapIsPower cap
  | _ => false

/-- The tables a reach is kept in are tables, where they are there. -/
structure PlainFor (doc : Table) (r : RevokedReach) : Prop where
  outer : Plain doc (sectionOf r)
  inner : inPower r = true → ∀ u, doc.get "system" = some (.table u) → Plain u "power"

theorem restore_string {sec key v : String} {l : List String}
    {set : List String → PermissionProfile} (hplain : Plain doc sec)
    (h : inEnsured doc sec (addStringToArray key v) = (true, doc'))
    (hedit : ∀ {u u'}, Edits doc sec u u' doc' → Fields.strings u.get key = some l ∧
      ∀ {l'}, Fields.AgreesBut key u.get u'.get → u'.get key ≠ none →
        Fields.strings u'.get key = some l' →
        PermissionProfile.fromDoc doc'.get = some (set l')) :
    PermissionProfile.fromDoc doc'.get = some (set (l ++ [v])) := by
  obtain ⟨u, u', -, hf, he⟩ := edits_inEnsured hplain h
  obtain ⟨hl, hset⟩ := hedit he
  obtain ⟨hag, hne, hl', -⟩ := addString_spec hf hl
  exact hset hag hne hl'

theorem restore_flag {sec cap : String} {names : List String} {c : Finset String}
    {set : Finset String → PermissionProfile} (hplain : Plain doc sec)
    (h : setCap doc names cap true (inEnsured doc sec) = (true, doc'))
    (hedit : ∀ {u u'}, Edits doc sec u u' doc' → Fields.flags u.get names = some c ∧
      ∀ {c'}, Fields.AgreesBut cap u.get u'.get → Fields.flags u'.get names = some c' →
        PermissionProfile.fromDoc doc'.get = some (set c')) :
    PermissionProfile.fromDoc doc'.get = some (set (insert cap c)) := by
  obtain ⟨hmem, h⟩ := setCap_eq_true h
  obtain ⟨u, u', -, hf, he⟩ := edits_inEnsured hplain h
  obtain ⟨hc, hset⟩ := hedit he
  obtain ⟨hag, hc', -⟩ := setBoolFlag_flags hf hmem hc
  exact hset hag hc'

theorem restore_system {cap : String} (hplain : PlainFor doc (.systemCap cap))
    (h : applyRestore doc (.systemCap cap) = (true, doc'))
    (hp : PermissionProfile.fromDoc doc.get = some p) :
    ∃ p', PermissionProfile.fromDoc doc'.get = some p' ∧
      ScopeSummary.fromProfile p' = (ScopeSummary.fromProfile p).add (.systemCap cap) := by
  simp only [applyRestore] at h
  obtain ⟨hmem, h⟩ := setCap_eq_true h
  have hplace := mem_systemCaps hmem
  obtain ⟨u, u', hu, hf, he⟩ := edits_inEnsured hplain.outer h
  cases hpow : systemCapIsPower cap with
  | true =>
    simp only [hpow, if_true] at hf hplace
    have hpower : Plain u "power" := by
      rcases hu with rfl | hu
      · nofun
      · exact hplain.inner hpow u hu
    obtain ⟨w, w', -, hf, hw⟩ := edits_inEnsured hpower hf
    obtain ⟨hc, hset⟩ := edit_power hp he hw
    obtain ⟨-, hc', -⟩ := setBoolFlag_flags hf hplace hc
    refine ⟨_, hset hc', ?_⟩
    simp only [ScopeSummary.fromProfile, ScopeSummary.add, if_true, Finset.union_insert]
  | false =>
    simp only [hpow, Bool.false_eq_true, if_false] at hf hplace
    obtain ⟨hc, hset⟩ := edit_system hp he
    obtain ⟨hag, hc', -⟩ := setBoolFlag_flags hf hplace.1 hc
    refine ⟨_, hset hag hplace.2 hc', ?_⟩
    simp only [ScopeSummary.fromProfile, ScopeSummary.add, if_true, Finset.insert_union]

/-- What a restore's edit comes to: the reach is in the summary, and nothing else is new. -/
theorem restore_effect (hplain : PlainFor doc r) (h : applyRestore doc r = (true, doc'))
    (hp : PermissionProfile.fromDoc doc.get = some p) :
    ∃ p', PermissionProfile.fromDoc doc'.get = some p' ∧
      ScopeSummary.fromProfile p' = (ScopeSummary.fromProfile p).add r := by
  have hout := hplain.outer
  cases r with
  | read v =>
    refine ⟨_, restore_string hout h fun he =>
      ⟨(edit_read hp he).1, fun hag _ hl => (edit_read hp he).2 hag hl⟩, ?_⟩
    simp only [ScopeSummary.fromProfile, ScopeSummary.add, toFinset_concat]
  | write v =>
    refine ⟨_, restore_string hout h fun he =>
      ⟨(edit_write hp he).1, fun hag _ hl => (edit_write hp he).2 hag hl⟩, ?_⟩
    simp only [ScopeSummary.fromProfile, ScopeSummary.add, toFinset_concat]
  | networkDomain v =>
    refine ⟨_, restore_string hout h fun he =>
      ⟨(edit_domains hp he).1, fun hag _ hl => (edit_domains hp he).2 hag hl⟩, ?_⟩
    simp only [ScopeSummary.fromProfile, ScopeSummary.add, toFinset_concat]
  | filesystemPath v =>
    refine ⟨_, restore_string hout h fun he =>
      ⟨(edit_custom hp he).1, fun hag _ hl => (edit_custom hp he).2 hag hl⟩, ?_⟩
    simp only [ScopeSummary.fromProfile, ScopeSummary.add, toFinset_concat]
  | eventBusSubscribe v =>
    refine ⟨_, restore_string hout h fun he =>
      ⟨(edit_subscribe hp he).1, fun hag hne hl => (edit_subscribe hp he).2 hag hne hl⟩, ?_⟩
    simp only [ScopeSummary.fromProfile, ScopeSummary.add, Option.getD_some, toFinset_concat]
  | eventBusPublish v =>
    refine ⟨_, restore_string hout h fun he =>
      ⟨(edit_publish hp he).1, fun hag _ hl => (edit_publish hp he).2 hag hl⟩, ?_⟩
    simp only [ScopeSummary.fromProfile, ScopeSummary.add, toFinset_concat]
  | clipboardCap cap =>
    exact ⟨_, restore_flag hout h fun he =>
      ⟨(Edits.section .clipboard he hp).1, fun _ => (Edits.section .clipboard he hp).2⟩, rfl⟩
  | inputCap cap =>
    exact ⟨_, restore_flag hout h fun he =>
      ⟨(Edits.section .input he hp).1, fun _ => (Edits.section .input he hp).2⟩, rfl⟩
  | searchCap cap =>
    exact ⟨_, restore_flag hout h fun he =>
      ⟨(Edits.section .search he hp).1, fun _ => (Edits.section .search he hp).2⟩, rfl⟩
  | intentsCap cap =>
    exact ⟨_, restore_flag hout h fun he =>
      ⟨(Edits.section .intents he hp).1, fun _ => (Edits.section .intents he hp).2⟩, rfl⟩
  | filesystemDir dir =>
    have hdir := (setCap_eq_true h).1
    have hne : dir ≠ "custom" := by
      rintro rfl
      exact absurd hdir (by decide)
    exact ⟨_, restore_flag hout h fun he =>
      ⟨(edit_dirs hp he).1, fun hag hc => (edit_dirs hp he).2 hag hne hc⟩, rfl⟩
  | notificationsOff =>
    obtain ⟨u, u', -, hf, he⟩ := edits_inEnsured hout h
    obtain ⟨-, hnew, -⟩ := setBoolFlag_spec hf
    have hflag : Fields.flag u'.get "enabled" = some true := by
      simp [Fields.flag, hnew, Node.asBool]
    exact ⟨_, (Edits.section .notifications he hp).2 hflag, rfl⟩
  | systemCap cap => exact restore_system hplain h hp
  | relation rel =>
    obtain ⟨u, u', -, hf, he⟩ := edits_inEnsured hout h
    obtain ⟨hrs, hset⟩ := edit_relations hp he
    obtain ⟨hag, hrs'⟩ := addRelation_spec hf hrs
    refine ⟨_, hset hag hrs', ?_⟩
    have hconcat : ((p.graph.relations ++ [rel]).map triple).toFinset =
        insert (triple rel) (p.graph.relations.map triple).toFinset := by
      ext x
      simp
    simp only [ScopeSummary.fromProfile, ScopeSummary.add]
    exact congrArg (ScopeSummary.mk _ _ _ · _ _ _ _ _ _ _ _ _ _ _ _ _) hconcat
  | instanceAll =>
    obtain ⟨u, u', -, hf, he⟩ := edits_inEnsured hout h
    obtain ⟨-, hset⟩ := edit_instance hp he
    obtain ⟨hag, hall⟩ := promoteInstance_spec hf
    refine ⟨_, hset hag hall, ?_⟩
    simp [ScopeSummary.add, ScopeSummary.fromProfile]

/-! ## Documents as they are written -/

theorem written_eq (doc : Table) : written doc = doc ∨ ∃ graph : Table,
    doc.get "graph" = some (.table graph) ∧
    graph.get "relations" = some (.tables []) ∧
    written doc = doc.insert "graph" (.table (graph.remove "relations")) := by
  unfold written
  split
  · next graph hgraph =>
    split
    · next hrel =>
      obtain ⟨n, hn, hng⟩ := Option.bind_eq_some_iff.1 hgraph
      obtain ⟨m, hm, hmt⟩ := Option.bind_eq_some_iff.1 hrel
      rw [Node.asTable_eq_some] at hng
      rw [Node.asTables_eq_some] at hmt
      exact Or.inr ⟨graph, hng ▸ hn, hmt ▸ hm, rfl⟩
    · exact Or.inl rfl
  · exact Or.inl rfl

/-- A profile reads from its text as it did from the document. -/
theorem fromDoc_written (hp : PermissionProfile.fromDoc doc.get = some p) :
    PermissionProfile.fromDoc (written doc).get = some p := by
  rcases written_eq doc with heq | ⟨graph, hgraph, hrel, heq⟩
  · rw [heq]
    exact hp
  · rw [heq]
    have he : Edits doc "graph" graph (graph.remove "relations")
        (doc.insert "graph" (.table (graph.remove "relations"))) :=
      ⟨fun _ => Fields.record_of_table hgraph, Table.get_insert_self, Fields.agreesBut_insert⟩
    obtain ⟨hrs, hset⟩ := edit_relations hp he
    have hnil : p.graph.relations = [] := by
      rw [hrel] at hrs
      simpa [readRelations] using hrs.symm
    have hp' := hset (l := []) (fun _ hk => Table.get_remove_of_ne hk) (by
      rw [Table.get_remove_self]
      rfl)
    rw [hp', ← hnil]

/-! ## Undoing -/

def keyOf : RevokedReach → String
  | .read _ => "read"
  | .write _ => "write"
  | .relation _ => "relations"
  | .instanceAll => "instance_scope"
  | .networkDomain _ => "allowed_domains"
  | .notificationsOff => "enabled"
  | .filesystemPath _ => "custom"
  | .eventBusSubscribe _ => "subscribe"
  | .eventBusPublish _ => "publish"
  | .clipboardCap cap | .inputCap cap | .searchCap cap | .intentsCap cap | .filesystemDir cap
  | .systemCap cap => cap

/-- What is left at a reach's key when the reach has been taken out: a list without it, a
flag that is off, the narrower scope. -/
def Out : RevokedReach → Option Node → Prop
  | .read v | .write v | .networkDomain v | .filesystemPath v | .eventBusSubscribe v
  | .eventBusPublish v => fun n => ∃ arr, n = some (.array arr) ∧ ∀ x ∈ arr, x.asStr ≠ some v
  | .relation rel => fun n => n = none ∨
      ∃ arr, n = some (.array arr) ∧ ∀ x ∈ arr, isInlineRelation rel x = false
  | .instanceAll => fun n => n = some (.string "own")
  | .notificationsOff => fun n => n = some (.boolean false)
  | .clipboardCap cap => fun n => cap ∈ clipboardCaps ∧ n = some (.boolean false)
  | .inputCap cap => fun n => cap ∈ inputCaps ∧ n = some (.boolean false)
  | .searchCap cap => fun n => cap ∈ searchCaps ∧ n = some (.boolean false)
  | .intentsCap cap => fun n => cap ∈ intentsCaps ∧ n = some (.boolean false)
  | .filesystemDir dir => fun n => dir ∈ fsDirs ∧ n = some (.boolean false)
  | .systemCap cap => fun n => cap ∈ systemCaps ∧ n = some (.boolean false)

/-- The reach is out of the table it is kept in. -/
inductive IsOut (doc : Table) (r : RevokedReach) : Prop where
  | outer (u : Table) : inPower r = false → doc.get (sectionOf r) = some (.table u) →
      Out r (u.get (keyOf r)) → IsOut doc r
  | inner (u w : Table) : inPower r = true → doc.get "system" = some (.table u) →
      u.get "power" = some (.table w) → Out r (w.get (keyOf r)) → IsOut doc r

/-- A relation kept in an array of tables. -/
def InTables (doc : Table) (r : RevokedReach) : Prop :=
  (∃ rel, r = .relation rel) ∧
    ∃ (graph : Table) (ts : List Table), doc.get "graph" = some (.table graph) ∧
      graph.get "relations" = some (.tables ts)

theorem removeString_out {key v : String} {u u' : Table}
    (h : removeStringFromArray key v u = (true, u')) :
    ∃ arr, u'.get key = some (.array arr) ∧ ∀ x ∈ arr, x.asStr ≠ some v := by
  unfold removeStringFromArray at h
  split at h
  · obtain ⟨-, rfl⟩ := Prod.mk.inj h
    refine ⟨_, Table.get_insert_self, fun x hx => ?_⟩
    simpa using (List.mem_filter.1 hx).2
  · cases h

theorem removeRelation_out {rel : RelationPermission} {u u' : Table}
    (h : removeRelation rel u = (true, u')) :
    (∃ ts, u.get "relations" = some (.tables ts)) ∨
      ∃ arr, u'.get "relations" = some (.array arr) ∧ ∀ x ∈ arr, isInlineRelation rel x = false := by
  unfold removeRelation at h
  split at h
  · obtain ⟨-, rfl⟩ := Prod.mk.inj h
    refine Or.inr ⟨_, Table.get_insert_self, fun x hx => ?_⟩
    simpa using (List.mem_filter.1 hx).2
  · split at h
    · next ts hts =>
      obtain ⟨n, hn, hnt⟩ := Option.bind_eq_some_iff.1 hts
      rw [Node.asTables_eq_some] at hnt
      exact Or.inl ⟨ts, hnt ▸ hn⟩
    · cases h

theorem isOut_string {sec key v : String}
    (h : doc.inTable sec (removeStringFromArray key v) = (true, doc')) :
    ∃ u : Table, doc'.get sec = some (.table u) ∧
      ∃ arr, u.get key = some (.array arr) ∧ ∀ x ∈ arr, x.asStr ≠ some v := by
  obtain ⟨u, u', -, hf, he⟩ := edits_inTable h
  exact ⟨u', he.after, removeString_out hf⟩

theorem isOut_flag {sec cap : String} {names : List String}
    (h : setCap doc names cap false (doc.inTable sec) = (true, doc')) :
    ∃ u : Table, doc'.get sec = some (.table u) ∧
      cap ∈ names ∧ u.get cap = some (.boolean false) := by
  obtain ⟨hmem, h⟩ := setCap_eq_true h
  obtain ⟨u, u', -, hf, he⟩ := edits_inTable h
  exact ⟨u', he.after, hmem, (setBoolFlag_spec hf).2.1⟩

/-- A revoke leaves its reach out of the document. -/
theorem isOut_of_revoke (h : applyRevoke doc r = (true, doc')) (hnot : ¬ InTables doc r) :
    IsOut doc' r := by
  cases r with
  | read v | write v | networkDomain v | filesystemPath v | eventBusSubscribe v
  | eventBusPublish v =>
    obtain ⟨u, hu, hout⟩ := isOut_string h
    exact .outer u rfl hu hout
  | clipboardCap cap | inputCap cap | searchCap cap | intentsCap cap | filesystemDir cap =>
    obtain ⟨u, hu, hout⟩ := isOut_flag h
    exact .outer u rfl hu hout
  | notificationsOff =>
    obtain ⟨u, u', -, hf, he⟩ := edits_inTable h
    exact .outer u' rfl he.after (setBoolFlag_spec hf).2.1
  | systemCap cap =>
    simp only [applyRevoke] at h
    obtain ⟨hmem, h⟩ := setCap_eq_true h
    obtain ⟨u, u', -, hf, he⟩ := edits_inTable h
    cases hpow : systemCapIsPower cap with
    | true =>
      simp only [hpow, if_true] at hf
      obtain ⟨w, w', -, hf, hw⟩ := edits_inTable hf
      exact .inner u' w' hpow he.after hw.after ⟨hmem, (setBoolFlag_spec hf).2.1⟩
    | false =>
      simp only [hpow, Bool.false_eq_true, if_false] at hf
      exact .outer u' hpow he.after ⟨hmem, (setBoolFlag_spec hf).2.1⟩
  | relation rel =>
    obtain ⟨u, u', hu, hf, he⟩ := edits_inTable h
    rcases removeRelation_out hf with ⟨ts, hts⟩ | hout
    · exact absurd ⟨⟨rel, rfl⟩, u, ts, hu, hts⟩ hnot
    · exact .outer u' rfl he.after (Or.inr hout)
  | instanceAll =>
    obtain ⟨u, u', -, hf, he⟩ := edits_inTable h
    refine .outer u' rfl he.after ?_
    unfold demoteInstance at hf
    split at hf
    · obtain ⟨-, rfl⟩ := Prod.mk.inj hf
      exact Table.get_insert_self
    · cases hf

theorem sectionOf_systemCap {r : RevokedReach} (h : inPower r = true) :
    ∃ cap, r = .systemCap cap ∧ systemCapIsPower cap = true := by
  cases r with
  | systemCap cap => exact ⟨cap, rfl, h⟩
  | _ => cases h

theorem plainFor_of_isOut (h : IsOut doc r) : PlainFor doc r := by
  cases h with
  | outer u hin hu _ =>
    refine ⟨fun n hn => ⟨u, ?_⟩, fun hpow => ?_⟩
    · rw [hu] at hn
      exact (Option.some.inj hn).symm
    · rw [hin] at hpow
      cases hpow
  | inner u w hin hu hw _ =>
    obtain ⟨cap, rfl, -⟩ := sectionOf_systemCap hin
    refine ⟨fun n hn => ⟨u, ?_⟩, fun _ u' hu' n hn => ⟨w, ?_⟩⟩
    · rw [show sectionOf (.systemCap cap) = "system" from rfl, hu] at hn
      exact (Option.some.inj hn).symm
    · rw [hu] at hu'
      obtain rfl : u = u' := by simpa using hu'
      rw [hw] at hn
      exact (Option.some.inj hn).symm

theorem fst_inEnsured {sec : String} {f : Table → Bool × Table} {u : Table}
    (h : doc.get sec = some (.table u)) :
    (inEnsured doc sec f).1 = (f u).1 := by
  unfold inEnsured
  rw [Table.ensureTable_of_get h, Table.inTable_of_get h]

theorem addString_of_out {key v : String} {arr : List Node} (h : u.get key = some (.array arr))
    (hout : ∀ x ∈ arr, x.asStr ≠ some v) : (addStringToArray key v u).1 = true := by
  unfold addStringToArray
  simp only [h, Option.bind_some, Node.asArray]
  rw [if_neg]
  intro hany
  obtain ⟨x, hx, hv⟩ := List.any_eq_true.1 hany
  exact hout x hx (by simpa using hv)

theorem setBoolFlag_of_off {key : String} (h : u.get key = some (.boolean false)) :
    (setBoolFlag key true u).1 = true := by
  simp [setBoolFlag, h, Node.asBool]

theorem addRelation_of_out {rel : RelationPermission} (h : Out (.relation rel) (u.get "relations")) :
    (addRelation rel u).1 = true := by
  unfold addRelation
  rcases h with hnone | ⟨arr, harr, hout⟩
  · simp [hnone]
  · have hany : arr.any (isInlineRelation rel) = false := List.any_eq_false.2 fun x hx => by
      simp [hout x hx]
    simp [harr, Node.asArray, Node.asTables, hany]

/-- A reach that is out of the document can be put back. -/
theorem restore_of_isOut (h : IsOut doc r) : (applyRestore doc r).1 = true := by
  cases h with
  | outer u hin hu hout =>
    cases r with
    | read v | write v | networkDomain v | filesystemPath v | eventBusSubscribe v
    | eventBusPublish v =>
      obtain ⟨arr, harr, hv⟩ := hout
      exact (fst_inEnsured hu).trans (addString_of_out harr hv)
    | clipboardCap cap | inputCap cap | searchCap cap | intentsCap cap | filesystemDir cap =>
      simp only [applyRestore, setCap, if_pos hout.1]
      exact (fst_inEnsured hu).trans (setBoolFlag_of_off hout.2)
    | notificationsOff => exact (fst_inEnsured hu).trans (setBoolFlag_of_off hout)
    | systemCap cap =>
      simp only [applyRestore, setCap, if_pos hout.1]
      refine (fst_inEnsured hu).trans ?_
      simp only [show systemCapIsPower cap = false from hin, Bool.false_eq_true, if_false]
      exact setBoolFlag_of_off hout.2
    | relation rel => exact (fst_inEnsured hu).trans (addRelation_of_out hout)
    | instanceAll =>
      refine (fst_inEnsured hu).trans ?_
      have hown : instanceIsAll u = false := by
        simp only [instanceIsAll, show u.get "instance_scope" = some (.string "own") from hout]
        decide
      simp [promoteInstance, hown]
  | inner u w hin hu hw hout =>
    obtain ⟨cap, rfl, hpow⟩ := sectionOf_systemCap hin
    simp only [applyRestore, setCap, if_pos hout.1]
    refine (fst_inEnsured hu).trans ?_
    simp only [hpow, if_true]
    exact (fst_inEnsured hw).trans (setBoolFlag_of_off hout.2)

theorem get_written_of_ne {sec : String} (h : sec ≠ "graph") :
    (written doc).get sec = doc.get sec := by
  rcases written_eq doc with heq | ⟨graph, -, -, heq⟩
  · rw [heq]
  · rw [heq, Table.get_insert_of_ne h]

/-- What is out of a document is out of its text. -/
theorem isOut_written (h : IsOut doc r) : IsOut (written doc) r := by
  cases h with
  | inner u w hin hu hw hout =>
    exact .inner u w hin (by rw [get_written_of_ne (by decide), hu]) hw hout
  | outer u hin hu hout =>
    by_cases hsec : sectionOf r = "graph"
    · rcases written_eq doc with heq | ⟨graph, hgraph, hrel, heq⟩
      · rw [heq]
        exact .outer u hin hu hout
      · rw [heq]
        have hu' : (doc.insert "graph" (.table (graph.remove "relations"))).get (sectionOf r) =
            some (.table (graph.remove "relations")) := by
          rw [hsec, Table.get_insert_self]
        refine .outer _ hin hu' ?_
        rw [hsec, hgraph] at hu
        obtain rfl : graph = u := by simpa using hu
        by_cases hkey : keyOf r = "relations"
        · cases r with
          | relation rel => exact Or.inl Table.get_remove_self
          | _ => simp_all [sectionOf, keyOf]
        · rw [Table.get_remove_of_ne hkey]
          exact hout
    · exact .outer u hin (by rw [get_written_of_ne hsec, hu]) hout

/-! ## Revokes that were written -/

theorem isStrictNarrowing_irrefl (S : ScopeSummary) : isStrictNarrowing S S = false := by
  have hnet : networkStrictlySmaller S S = false := by
    unfold networkStrictlySmaller
    cases S.networkAll <;> simp
  have hsmaller : strictlySmaller S S = false := by
    simp [strictlySmaller, hnet]
  simp [isStrictNarrowing, hsmaller]

/-- **What a revoke that was written did**: it took its reach, held until then, out of the
summary and left the rest. -/
theorem revokeAt_revoked {file file' : ProfileFile} {fault : IoFault}
    (h : revokeAt file fault r = (.ok .revoked, file')) :
    ∃ doc doc' p p', file = .doc doc ∧ file' = .doc (written doc') ∧
      applyRevoke doc r = (true, doc') ∧ PermissionProfile.fromDoc doc.get = some p ∧
      PermissionProfile.fromDoc doc'.get = some p' ∧
      isStrictNarrowing (.fromProfile p) (.fromProfile p') = true ∧
      (ScopeSummary.fromProfile p).Holds r ∧
      ScopeSummary.fromProfile p' = (ScopeSummary.fromProfile p).remove r := by
  unfold revokeAt at h
  split at h
  · cases h
  · cases h
  · next doc =>
    split at h
    · cases h
    split at h
    · cases h
    next p hp =>
    split at h
    · cases h
    split at h
    · cases h
    next doc' happ =>
    split at h
    · cases h
    next p'' hp'' =>
    obtain ⟨p', hp', hheld, heffect⟩ := revoke_effect happ hp
    obtain rfl : p' = p'' := by
      have := (fromDoc_written hp').symm.trans hp''
      simpa using this
    split at h
    · cases h
    next hgate =>
    split at h
    · cases h
    obtain ⟨-, rfl⟩ := Prod.mk.inj h
    have hgate : isStrictNarrowing (.fromProfile p) (.fromProfile p') = true := by simpa using hgate
    refine ⟨doc, doc', p, p', rfl, rfl, happ, hp, hp', hgate, hheld, ?_⟩
    refine heffect.resolve_left fun heq => ?_
    rw [heq, isStrictNarrowing_irrefl] at hgate
    cases hgate

/-! ## The way back -/

/-- A relation kept in an array of tables that has others. -/
def InOtherTables (doc : Table) (r : RevokedReach) : Prop :=
  ∃ rel, r = .relation rel ∧ ∃ (graph : Table) (ts : List Table),
    doc.get "graph" = some (.table graph) ∧ graph.get "relations" = some (.tables ts) ∧
      ∃ t ∈ ts, isRelation rel t = false

/-- Put back, a reach makes the summary what it was. -/
theorem summarize_restored {p' : PermissionProfile}
    (hp : PermissionProfile.fromDoc doc.get = some p)
    (hp' : PermissionProfile.fromDoc doc'.get = some p') (hout : IsOut doc' r)
    (hheld : (ScopeSummary.fromProfile p).Holds r)
    (hremoved : ScopeSummary.fromProfile p' = (ScopeSummary.fromProfile p).remove r) :
    ∃ back, applyRestore doc' r = (true, back) ∧
      summarize (.doc back) = summarize (.doc doc) := by
  have hdone : applyRestore doc' r = (true, (applyRestore doc' r).2) :=
    Prod.ext (restore_of_isOut hout) rfl
  obtain ⟨q, hq, hadd⟩ := restore_effect (plainFor_of_isOut hout) hdone hp'
  refine ⟨_, hdone, ?_⟩
  simp only [summarize, profileOf, hq, hp, Option.map_some, hadd, hremoved,
    ScopeSummary.add_remove hheld]

/-- A relation among tables is not put back. -/
theorem restore_inTables (rel : RelationPermission) {graph : Table} {ts : List Table}
    (hgraph : doc.get "graph" = some (.table graph))
    (hts : graph.get "relations" = some (.tables ts)) :
    (applyRestore doc (.relation rel)).1 = false := by
  refine (fst_inEnsured hgraph).trans ?_
  unfold addRelation
  simp [hts, Node.asArray]

/-- A revoke of a relation among tables leaves the others. -/
theorem revoke_inTables {rel : RelationPermission} {graph : Table} {ts : List Table}
    (h : applyRevoke doc (.relation rel) = (true, doc'))
    (hgraph : doc.get "graph" = some (.table graph))
    (hts : graph.get "relations" = some (.tables ts)) :
    ∃ graph' : Table, doc'.get "graph" = some (.table graph') ∧
      graph'.get "relations" = some (.tables (ts.filter fun t => !isRelation rel t)) := by
  obtain ⟨u, u', hu, hf, he⟩ := edits_inTable h
  rw [hgraph] at hu
  obtain rfl : graph = u := by simpa using hu
  refine ⟨u', he.after, ?_⟩
  unfold removeRelation at hf
  simp only [hts, Option.bind_some, Node.asArray, Node.asTables] at hf
  obtain ⟨-, rfl⟩ := Prod.mk.inj hf
  exact Table.get_insert_self

/-- With no other tables left, the text has no relations. -/
theorem isOut_written_inTables (h : applyRevoke doc r = (true, doc')) (hin : InTables doc r)
    (hother : ¬ InOtherTables doc r) : IsOut (written doc') r := by
  obtain ⟨⟨rel, rfl⟩, graph, ts, hgraph, hts⟩ := hin
  obtain ⟨graph', hgraph', hts'⟩ := revoke_inTables h hgraph hts
  have hnil : (ts.filter fun t => !isRelation rel t) = [] := by
    refine List.filter_eq_nil_iff.2 fun t ht => ?_
    by_contra hrel
    exact hother ⟨rel, rfl, graph, ts, hgraph, hts, t, ht, by simpa using hrel⟩
  rw [hnil] at hts'
  have hwritten : written doc' = doc'.insert "graph" (.table (graph'.remove "relations")) := by
    simp only [written, hgraph', Option.bind_some, Node.asTable, hts', Node.asTables]
  rw [hwritten]
  exact .outer _ rfl Table.get_insert_self (Or.inl Table.get_remove_self)

theorem written_of_other {graph : Table} {ts : List Table}
    (hgraph : doc.get "graph" = some (.table graph))
    (hts : graph.get "relations" = some (.tables ts)) (hne : ts ≠ []) : written doc = doc := by
  cases ts with
  | nil => exact absurd rfl hne
  | cons t ts => simp only [written, hgraph, Option.bind_some, Node.asTable, hts, Node.asTables]

/-- **A revoke can be undone exactly when its reach is not a relation in an array of
tables**: handed the document the revoke left, a restore answers that it added the reach
and the summary is what it was. Handed the document read from the profile the revoke
wrote, it does so exactly when the array has no other relation. -/
theorem restore_undoes_iff (doc doc' : Table) (r : RevokedReach)
    (happ : applyRevoke doc r = (true, doc'))
    (hrevoked : (revokeAt (.doc doc) .none r).1 = .ok .revoked) :
    ((∃ back, applyRestore doc' r = (true, back) ∧
        summarize (.doc back) = summarize (.doc doc)) ↔ ¬ InTables doc r) ∧
      ((∃ back, applyRestore (written doc') r = (true, back) ∧
        summarize (.doc back) = summarize (.doc doc)) ↔ ¬ InOtherTables doc r) := by
  obtain ⟨doc₀, doc₀', p, p', hdoc, -, happ', hp, hp', -, hheld, hremoved⟩ :=
    revokeAt_revoked (Prod.ext hrevoked rfl)
  obtain rfl : doc = doc₀ := by simpa using hdoc
  obtain rfl : doc' = doc₀' := by
    have := happ.symm.trans happ'
    simpa using this
  refine ⟨⟨?_, fun hnot => ?_⟩, ⟨?_, fun hnot => ?_⟩⟩
  · rintro ⟨back, hback, -⟩ ⟨⟨rel, rfl⟩, graph, ts, hgraph, hts⟩
    obtain ⟨graph', hgraph', hts'⟩ := revoke_inTables happ hgraph hts
    have hfalse := restore_inTables rel hgraph' hts'
    rw [hback] at hfalse
    cases hfalse
  · exact summarize_restored hp hp' (isOut_of_revoke happ hnot) hheld hremoved
  · rintro ⟨back, hback, -⟩ ⟨rel, rfl, graph, ts, hgraph, hts, t, ht, hother⟩
    obtain ⟨graph', hgraph', hts'⟩ := revoke_inTables happ hgraph hts
    have hne : (ts.filter fun t => !isRelation rel t) ≠ [] :=
      List.ne_nil_of_mem (List.mem_filter.2 ⟨ht, by simp [hother]⟩)
    have hfalse := restore_inTables rel hgraph' hts'
    rw [written_of_other hgraph' hts' hne] at hback
    rw [hback] at hfalse
    cases hfalse
  · by_cases hin : InTables doc r
    · exact summarize_restored hp (fromDoc_written hp') (isOut_written_inTables happ hin hnot)
        hheld hremoved
    · exact summarize_restored hp (fromDoc_written hp') (isOut_written (isOut_of_revoke happ hin))
        hheld hremoved

/-- The two relations of the source's test of the array-of-tables form. -/
def references : RelationPermission := ⟨"com.test.Note", "system.File", "REFERENCES"⟩

def partOf : RelationPermission := ⟨"system.File", "system.Project", "FILE_PART_OF"⟩

def relationTable (rel : RelationPermission) : Table :=
  [("from", .string rel.from), ("to", .string rel.to), ("type", .string rel.relationType)]

def inlineProfile : Table :=
  [("graph", .table [("relations", .array [relationEntry references, relationEntry partOf])])]

def tablesProfile : Table :=
  [("graph", .table [("relations", .tables [relationTable references, relationTable partOf])])]

/-- The relation is put back into an inline array. -/
theorem restore_undoes_inline :
    (revokeAt (.doc inlineProfile) .none (.relation references)).1 = .ok .revoked ∧
      ∃ back, applyRestore (applyRevoke inlineProfile (.relation references)).2
          (.relation references) = (true, back) ∧
        summarize (.doc back) = summarize (.doc inlineProfile) := by
  have hrevoked : (revokeAt (.doc inlineProfile) .none (.relation references)).1 = .ok .revoked := by
    decide +kernel
  refine ⟨hrevoked, (restore_undoes_iff inlineProfile _ (.relation references) ?_ hrevoked).1.2 ?_⟩
  · exact Prod.ext (by decide +kernel) rfl
  · rintro ⟨-, graph, ts, hgraph, hts⟩
    obtain rfl : [("relations", Node.array [relationEntry references, relationEntry partOf])] =
        graph := by
      simpa [inlineProfile, Table.get] using hgraph
    cases hts

/-- The relation is taken out of an array of tables and cannot be put back. -/
theorem restore_refused_in_tables :
    (revokeAt (.doc tablesProfile) .none (.relation references)).1 = .ok .revoked ∧
      (applyRevoke tablesProfile (.relation references)).1 = true ∧
      (applyRestore (applyRevoke tablesProfile (.relation references)).2
        (.relation references)).1 = false ∧
      (applyRestore (written (applyRevoke tablesProfile (.relation references)).2)
        (.relation references)).1 = false := by
  decide +kernel

end Arlen.Knowledge
