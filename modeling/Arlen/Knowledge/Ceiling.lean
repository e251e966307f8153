import Arlen.Knowledge.WayBack
import Arlen.Lib.Machine

/-!
# Restoring never gains

Over any run of revokes and restores of one profile, the scope on disk stays within
the scope it began with. What ties the two is the removal ledger: every reach in it
was held at the start, so the one reach a restore adds is not a new one. A record of
a change may be lost on its way to the ledger, and the ledger may be out of reach
when a restore asks for it.
-/

namespace Arlen.Knowledge

open Arlen.Lib Arlen.Lib.Toml

variable {doc doc' u u' : Table} {p p' : PermissionProfile} {r r' : RevokedReach}
  {S S' S₀ : ScopeSummary} {file file' : ProfileFile} {fault : IoFault} {removed : RemovalLedger}

/-! ## Containment -/

/-- Every dimension of `S` lies in that of `S₀`. -/
def Contained (S S₀ : ScopeSummary) : Prop :=
  S.read ⊆ S₀.read ∧ S.write ⊆ S₀.write ∧ S.readSensitive ⊆ S₀.readSensitive ∧
    S.relations ⊆ S₀.relations ∧ (S.instanceAll = true → S₀.instanceAll = true) ∧
    S.networkDomains ⊆ S₀.networkDomains ∧ (S.networkAll = true → S₀.networkAll = true) ∧
    S.clipboardCaps ⊆ S₀.clipboardCaps ∧
    (S.notificationsOn = true → S₀.notificationsOn = true) ∧ S.inputCaps ⊆ S₀.inputCaps ∧
    S.searchCaps ⊆ S₀.searchCaps ∧ S.intentsCaps ⊆ S₀.intentsCaps ∧
    S.filesystemDirs ⊆ S₀.filesystemDirs ∧ S.filesystemPaths ⊆ S₀.filesystemPaths ∧
    S.eventBusSubscribe ⊆ S₀.eventBusSubscribe ∧ S.eventBusPublish ⊆ S₀.eventBusPublish ∧
    S.systemCaps ⊆ S₀.systemCaps

theorem Contained.refl (S : ScopeSummary) : Contained S S := by
  simp [Contained]

theorem Contained.holds (h : Contained S S₀) (hr : S.Holds r) : S₀.Holds r := by
  obtain ⟨h₁, h₂, -, h₄, h₅, h₆, -, h₈, h₉, h₁₀, h₁₁, h₁₂, h₁₃, h₁₄, h₁₅, h₁₆, h₁₇⟩ := h
  cases r with
  | read => exact h₁ hr
  | write => exact h₂ hr
  | relation => exact h₄ hr
  | instanceAll => exact h₅ hr
  | networkDomain => exact h₆ hr
  | clipboardCap => exact h₈ hr
  | notificationsOff => exact h₉ hr
  | inputCap => exact h₁₀ hr
  | searchCap => exact h₁₁ hr
  | intentsCap => exact h₁₂ hr
  | filesystemDir => exact h₁₃ hr
  | filesystemPath => exact h₁₄ hr
  | eventBusSubscribe => exact h₁₅ hr
  | eventBusPublish => exact h₁₆ hr
  | systemCap => exact h₁₇ hr

theorem Contained.remove (h : Contained S S₀) : Contained (S.remove r) S₀ := by
  obtain ⟨h₁, h₂, h₃, h₄, h₅, h₆, h₇, h₈, h₉, h₁₀, h₁₁, h₁₂, h₁₃, h₁₄, h₁₅, h₁₆, h₁₇⟩ := h
  have herase : ∀ {α : Type} [DecidableEq α] {s t : Finset α} (a : α), s ⊆ t → s.erase a ⊆ t :=
    fun a hst => (Finset.erase_subset a _).trans hst
  cases r <;> simp_all [Contained, ScopeSummary.remove]

theorem Contained.add (h : Contained S S₀) (hr : S₀.Holds r) : Contained (S.add r) S₀ := by
  obtain ⟨h₁, h₂, h₃, h₄, h₅, h₆, h₇, h₈, h₉, h₁₀, h₁₁, h₁₂, h₁₃, h₁₄, h₁₅, h₁₆, h₁₇⟩ := h
  cases r <;> simp_all [Contained, ScopeSummary.add, ScopeSummary.Holds, Finset.insert_subset_iff]

/-! ## Tables stay tables -/

theorem edits_of_revoke (h : applyRevoke doc r = (true, doc')) :
    ∃ u u', (u = [] ∨ doc.get (sectionOf r) = some (.table u)) ∧
      Edits doc (sectionOf r) u u' doc' ∧
      (sectionOf r = "system" → Plain u "power" → Plain u' "power") := by
  cases r with
  | systemCap cap =>
    simp only [applyRevoke] at h
    obtain ⟨hmem, h⟩ := setCap_eq_true h
    obtain ⟨u, u', hu, hf, he⟩ := edits_inTable h
    refine ⟨u, u', Or.inr hu, he, fun _ hplain n hn => ?_⟩
    cases hpow : systemCapIsPower cap with
    | true =>
      simp only [hpow, if_true] at hf
      obtain ⟨w, w', -, -, hw⟩ := edits_inTable hf
      rw [hw.after] at hn
      exact ⟨w', (Option.some.inj hn).symm⟩
    | false =>
      simp only [hpow, Bool.false_eq_true, if_false] at hf
      have hplace := mem_systemCaps hmem
      simp only [hpow, Bool.false_eq_true, if_false] at hplace
      rw [(setBoolFlag_spec hf).1 "power" (Ne.symm hplace.2)] at hn
      exact hplain n hn
  | clipboardCap cap | inputCap cap | searchCap cap | intentsCap cap | filesystemDir cap =>
    obtain ⟨u, u', hu, -, he⟩ := edits_inTable (setCap_eq_true h).2
    exact ⟨u, u', Or.inr hu, he, fun hsec => absurd hsec (by simp [sectionOf])⟩
  | _ =>
    obtain ⟨u, u', hu, -, he⟩ := edits_inTable h
    exact ⟨u, u', Or.inr hu, he, fun hsec => absurd hsec (by simp [sectionOf])⟩

theorem edits_of_restore (hplain : PlainFor doc r) (h : applyRestore doc r = (true, doc')) :
    ∃ u u', (u = [] ∨ doc.get (sectionOf r) = some (.table u)) ∧
      Edits doc (sectionOf r) u u' doc' ∧
      (sectionOf r = "system" → Plain u "power" → Plain u' "power") := by
  cases r with
  | systemCap cap =>
    simp only [applyRestore] at h
    obtain ⟨hmem, h⟩ := setCap_eq_true h
    obtain ⟨u, u', hu, hf, he⟩ := edits_inEnsured hplain.outer h
    refine ⟨u, u', hu, he, fun _ hpower n hn => ?_⟩
    cases hpow : systemCapIsPower cap with
    | true =>
      simp only [hpow, if_true] at hf
      obtain ⟨w, w', -, -, hw⟩ := edits_inEnsured hpower hf
      rw [hw.after] at hn
      exact ⟨w', (Option.some.inj hn).symm⟩
    | false =>
      simp only [hpow, Bool.false_eq_true, if_false] at hf
      have hplace := mem_systemCaps hmem
      simp only [hpow, Bool.false_eq_true, if_false] at hplace
      rw [(setBoolFlag_spec hf).1 "power" (Ne.symm hplace.2)] at hn
      exact hpower n hn
  | clipboardCap cap | inputCap cap | searchCap cap | intentsCap cap | filesystemDir cap =>
    obtain ⟨u, u', hu, -, he⟩ := edits_inEnsured hplain.outer (setCap_eq_true h).2
    exact ⟨u, u', hu, he, fun hsec => absurd hsec (by simp [sectionOf])⟩
  | _ =>
    obtain ⟨u, u', hu, -, he⟩ := edits_inEnsured hplain.outer h
    exact ⟨u, u', hu, he, fun hsec => absurd hsec (by simp [sectionOf])⟩

theorem plain_of_edits {sec k : String} (he : Edits doc sec u u' doc') (h : Plain doc k) :
    Plain doc' k := by
  intro n hn
  by_cases hk : k = sec
  · subst hk
    rw [he.after] at hn
    exact ⟨u', (Option.some.inj hn).symm⟩
  · rw [he.frame k hk] at hn
    exact h n hn

/-- An edit leaves the tables of every reach tables. -/
theorem plainFor_of_edits {sec : String} (hu : u = [] ∨ doc.get sec = some (.table u))
    (he : Edits doc sec u u' doc') (hpower : sec = "system" → Plain u "power" → Plain u' "power")
    (h : PlainFor doc r') : PlainFor doc' r' := by
  refine ⟨plain_of_edits he h.outer, fun hin v hv => ?_⟩
  by_cases hsec : sec = "system"
  · subst hsec
    rw [he.after] at hv
    obtain rfl : u' = v := by simpa using hv
    refine hpower rfl ?_
    rcases hu with rfl | hu
    · nofun
    · exact h.inner hin u hu
  · rw [he.frame "system" (Ne.symm hsec)] at hv
    exact h.inner hin v hv

theorem plainFor_written (h : PlainFor doc r) : PlainFor (written doc) r := by
  rcases written_eq doc with heq | ⟨graph, hgraph, -, heq⟩
  · rw [heq]
    exact h
  · rw [heq]
    have he : Edits doc "graph" graph (graph.remove "relations")
        (doc.insert "graph" (.table (graph.remove "relations"))) :=
      ⟨fun _ => Fields.record_of_table hgraph, Table.get_insert_self, Fields.agreesBut_insert⟩
    exact plainFor_of_edits (Or.inr hgraph) he (fun hsec => absurd hsec (by decide)) h

/-- A revoke finds its reach in tables. -/
theorem plainFor_of_revoke (h : applyRevoke doc r = (true, doc')) : PlainFor doc' r := by
  by_cases hin : InTables doc r
  · obtain ⟨⟨rel, rfl⟩, graph, ts, hgraph, hts⟩ := hin
    obtain ⟨graph', hgraph', -⟩ := revoke_inTables h hgraph hts
    refine ⟨fun n hn => ⟨graph', ?_⟩, nofun⟩
    rw [show sectionOf (.relation rel) = "graph" from rfl, hgraph'] at hn
    exact (Option.some.inj hn).symm
  · exact plainFor_of_isOut (isOut_of_revoke h hin)

/-! ## The two requests -/

theorem revokeAt_unchanged (h : (revokeAt file fault r).1 ≠ .ok .revoked) :
    (revokeAt file fault r).2 = file := by
  unfold revokeAt at h ⊢
  split
  · rfl
  · rfl
  · split
    · rfl
    split
    · rfl
    split
    · rfl
    split
    · rfl
    split
    · rfl
    split
    · rfl
    split
    · rfl
    · simp_all

theorem restoreAt_unchanged (h : (restoreAt file fault r removed).1 ≠ .ok .restored) :
    (restoreAt file fault r removed).2 = file := by
  unfold restoreAt at h ⊢
  split
  · rfl
  · split
    · rfl
    · rfl
  · split
    · rfl
    split
    · rfl
    split
    · rfl
    split
    · rfl
    split
    · rfl
    split
    · rfl
    split
    · rfl
    · simp_all

theorem isStrictWidening_irrefl (S : ScopeSummary) : isStrictWidening S S = false :=
  isStrictNarrowing_irrefl S

theorem mem_of_restored (h : restoreAt file fault r removed = (.ok .restored, file')) :
    r ∈ removed := by
  by_contra hr
  cases file with
  | absent => cases h
  | garbled =>
    simp only [restoreAt, if_pos hr] at h
    cases h
  | doc doc =>
    simp only [restoreAt, if_pos hr] at h
    cases h

/-- **What a restore that was written did**: it added its reach, not held until then, and
left the rest. -/
theorem restoreAt_restored (h : restoreAt file fault r removed = (.ok .restored, file'))
    (hplain : ∀ doc, file = .doc doc → PlainFor doc r) :
    ∃ doc doc' p p', file = .doc doc ∧ file' = .doc (written doc') ∧
      applyRestore doc r = (true, doc') ∧ PermissionProfile.fromDoc doc.get = some p ∧
      PermissionProfile.fromDoc doc'.get = some p' ∧
      ¬ (ScopeSummary.fromProfile p).Holds r ∧
      ScopeSummary.fromProfile p' = (ScopeSummary.fromProfile p).add r := by
  cases file with
  | absent => cases h
  | garbled =>
    simp only [restoreAt] at h
    split at h <;> cases h
  | doc doc =>
    simp only [restoreAt] at h
    split at h
    · cases h
    split at h
    · cases h
    split at h
    · cases h
    next p hp =>
    split at h
    · cases h
    next doc' happ =>
    split at h
    · cases h
    next p'' hp'' =>
    obtain ⟨p', hp', hadd⟩ := restore_effect (hplain doc rfl) happ hp
    obtain rfl : p' = p'' := by
      have := (fromDoc_written hp').symm.trans hp''
      simpa using this
    split at h
    · cases h
    next hgate =>
    split at h
    · cases h
    obtain ⟨-, rfl⟩ := Prod.mk.inj h
    refine ⟨doc, doc', p, p', rfl, rfl, happ, hp, hp', fun hheld => hgate ?_, hadd⟩
    rw [hadd, ScopeSummary.add_of_holds hheld]
    exact isStrictWidening_irrefl _

/-! ## Runs -/

/-- The profile on disk and the records of its changes. -/
structure Held where
  file : ProfileFile
  records : List (String × RevokedReach)

/-- A request, with the fault it meets, whether the record of its change is kept and, for
a restore, whether the ledger can be read. -/
inductive Request where
  | revoke (reach : RevokedReach) (fault : IoFault) (recorded : Bool)
  | restore (reach : RevokedReach) (fault : IoFault) (ledgerRead recorded : Bool)
deriving DecidableEq

inductive Reply where
  | revoke (result : Except IoErrorKind RevokeOutcome)
  | restore (result : Except IoErrorKind RestoreOutcome)
deriving DecidableEq

def Held.ledger (s : Held) : RemovalLedger := foldRemovalLedger s.records

/-- What a restore finds of the ledger. -/
def Held.readLedger (s : Held) (ledgerRead : Bool) : RemovalLedger :=
  if ledgerRead then s.ledger else []

def handle (s : Held) : Request → Reply × Held
  | .revoke reach fault recorded =>
    let done := revokeAt s.file fault reach
    (.revoke done.1, ⟨done.2,
      if done.1 = .ok .revoked ∧ recorded then s.records ++ [(outcomeRevoked, reach)]
      else s.records⟩)
  | .restore reach fault ledgerRead recorded =>
    let done := restoreAt s.file fault reach (s.readLedger ledgerRead)
    (.restore done.1, ⟨done.2,
      if done.1 = .ok .restored ∧ recorded then s.records ++ [(outcomeRestored, reach)]
      else s.records⟩)

/-- Requests about one profile, from the first on. -/
def requests (file : ProfileFile) : Machine Held Request Reply where
  init := ⟨file, []⟩
  step := fun s a => some (handle s a)

/-! ## The ledger -/

theorem foldRemovalLedger_concat (records : List (String × RevokedReach)) (outcome : String)
    (reach : RevokedReach) : foldRemovalLedger (records ++ [(outcome, reach)]) =
      if outcome = outcomeRevoked then (foldRemovalLedger records).record reach
      else if outcome = outcomeRestored then (foldRemovalLedger records).clear reach
      else foldRemovalLedger records := by
  simp [foldRemovalLedger]

theorem mem_record : r ∈ removed.record r' ↔ r ∈ removed ∨ r = r' := by
  unfold RemovalLedger.record
  split
  · next h =>
    refine ⟨Or.inl, ?_⟩
    rintro (hr | rfl)
    · exact hr
    · exact h
  · simp

theorem mem_clear : r ∈ removed.clear r' ↔ r ∈ removed ∧ r ≠ r' := by
  simp [RemovalLedger.clear]

/-- The ledger holds what was recorded as revoked and not as restored since. -/
theorem mem_foldRemovalLedger {records : List (String × RevokedReach)}
    (h : r ∈ foldRemovalLedger records) : ∃ before after,
      records = before ++ (outcomeRevoked, r) :: after ∧ (outcomeRestored, r) ∉ after := by
  induction records using List.reverseRecOn with
  | nil => cases h
  | append_singleton records e ih =>
    obtain ⟨outcome, reach⟩ := e
    rw [foldRemovalLedger_concat] at h
    have hearlier : r ∈ foldRemovalLedger records → (outcomeRestored, r) ≠ (outcome, reach) →
        ∃ before after, records ++ [(outcome, reach)] = before ++ (outcomeRevoked, r) :: after ∧
          (outcomeRestored, r) ∉ after := by
      intro hr hne
      obtain ⟨before, after, rfl, hafter⟩ := ih hr
      refine ⟨before, after ++ [(outcome, reach)], by simp, ?_⟩
      simp only [List.mem_append, List.mem_singleton, not_or]
      exact ⟨hafter, hne⟩
    split_ifs at h with h₁ h₂
    · rcases mem_record.1 h with hr | rfl
      · refine hearlier hr fun heq => ?_
        have houtcome : outcomeRestored = outcome := congrArg Prod.fst heq
        rw [h₁] at houtcome
        exact absurd houtcome (by decide)
      · exact ⟨records, [], by rw [h₁], List.not_mem_nil⟩
    · obtain ⟨hr, hne⟩ := mem_clear.1 h
      exact hearlier hr fun heq => hne (congrArg Prod.snd heq)
    · exact hearlier h fun heq => h₂ (congrArg Prod.fst heq).symm

theorem mem_readLedger {s : Held} {ledgerRead : Bool} (h : r ∈ s.readLedger ledgerRead) :
    r ∈ s.ledger := by
  unfold Held.readLedger at h
  split at h
  · exact h
  · cases h

/-! ## The ceiling -/

/-- The scope on disk is within the first one, and so is all the ledger has. -/
structure Ceiling (file : ProfileFile) (s : Held) : Prop where
  kept : ∀ S₀, summarize file = some S₀ → ∃ S, summarize s.file = some S ∧ Contained S S₀
  bare : summarize file = none → s.file = file
  held : ∀ r ∈ s.ledger, ∃ S₀, summarize file = some S₀ ∧ S₀.Holds r
  plain : ∀ r ∈ s.ledger, ∀ doc, s.file = .doc doc → PlainFor doc r

theorem summarize_of_fromDoc (hp : PermissionProfile.fromDoc doc.get = some p) :
    summarize (.doc doc) = some (.fromProfile p) := by
  simp [summarize, profileOf, hp]

theorem ceiling_init (file : ProfileFile) : Ceiling file ⟨file, []⟩ where
  kept := fun S₀ h => ⟨S₀, h, Contained.refl S₀⟩
  bare := fun _ => rfl
  held := nofun
  plain := nofun

/-- A profile that was never readable has never been changed. -/
theorem Ceiling.readable {s : Held} (h : Ceiling file s) (hS : summarize s.file = some S) :
    ∃ S₀, summarize file = some S₀ ∧ Contained S S₀ := by
  cases h₀ : summarize file with
  | none =>
    rw [h.bare h₀, h₀] at hS
    cases hS
  | some S₀ =>
    obtain ⟨S', hS', hc⟩ := h.kept S₀ h₀
    rw [hS] at hS'
    obtain rfl := Option.some.inj hS'
    exact ⟨S₀, rfl, hc⟩

theorem ceiling_revoke {s : Held} (h : Ceiling file s) (reach : RevokedReach) (fault : IoFault)
    (recorded : Bool) : Ceiling file (handle s (.revoke reach fault recorded)).2 := by
  by_cases hdone : (revokeAt s.file fault reach).1 = .ok .revoked
  · have hrun : revokeAt s.file fault reach = (.ok .revoked, (revokeAt s.file fault reach).2) :=
      Prod.ext hdone rfl
    obtain ⟨doc, doc', p, p', hfile, hfile', happ, hp, hp', -, hheld, heq⟩ := revokeAt_revoked hrun
    have hS : summarize s.file = some (.fromProfile p) := hfile ▸ summarize_of_fromDoc hp
    have hS' : summarize (revokeAt s.file fault reach).2 =
        some ((ScopeSummary.fromProfile p).remove reach) := by
      rw [hfile', summarize_of_fromDoc (fromDoc_written hp'), heq]
    obtain ⟨S₀, h₀, hc⟩ := h.readable hS
    have hledger : ∀ r ∈ (handle s (.revoke reach fault recorded)).2.ledger,
        r ∈ s.ledger ∨ r = reach := by
      intro r hr
      simp only [handle, Held.ledger] at hr ⊢
      split at hr
      · rw [foldRemovalLedger_concat, if_pos rfl] at hr
        exact mem_record.1 hr
      · exact Or.inl hr
    refine ⟨fun S₁ h₁ => ?_, fun hnone => ?_, fun r hr => ?_, fun r hr d hd => ?_⟩
    · rw [h₀] at h₁
      obtain rfl := Option.some.inj h₁
      exact ⟨_, hS', hc.remove⟩
    · rw [h₀] at hnone
      cases hnone
    · rcases hledger r hr with hr | rfl
      · exact h.held r hr
      · exact ⟨S₀, h₀, hc.holds hheld⟩
    · obtain rfl : written doc' = d := by
        have := hfile'.symm.trans hd
        simpa using this
      refine plainFor_written ?_
      rcases hledger r hr with hr | rfl
      · obtain ⟨u, u', hu, he, hpower⟩ := edits_of_revoke happ
        exact plainFor_of_edits hu he hpower (h.plain r hr doc hfile)
      · exact plainFor_of_revoke happ
  · have hfile := revokeAt_unchanged hdone
    simp only [handle, hfile, hdone, false_and, if_false]
    exact h

theorem ceiling_restore {s : Held} (h : Ceiling file s) (reach : RevokedReach) (fault : IoFault)
    (ledgerRead recorded : Bool) :
    Ceiling file (handle s (.restore reach fault ledgerRead recorded)).2 := by
  have hledger : ∀ r ∈ (handle s (.restore reach fault ledgerRead recorded)).2.ledger,
      r ∈ s.ledger := by
    intro r hr
    simp only [handle, Held.ledger] at hr ⊢
    split at hr
    · rw [foldRemovalLedger_concat, if_neg (by decide), if_pos rfl] at hr
      exact (mem_clear.1 hr).1
    · exact hr
  by_cases hdone : (restoreAt s.file fault reach (s.readLedger ledgerRead)).1 = .ok .restored
  · have hrun : restoreAt s.file fault reach (s.readLedger ledgerRead) =
        (.ok .restored, (restoreAt s.file fault reach (s.readLedger ledgerRead)).2) :=
      Prod.ext hdone rfl
    have hin := mem_readLedger (mem_of_restored hrun)
    obtain ⟨doc, doc', p, p', hfile, hfile', happ, hp, hp', -, heq⟩ :=
      restoreAt_restored hrun (h.plain reach hin)
    have hS : summarize s.file = some (.fromProfile p) := hfile ▸ summarize_of_fromDoc hp
    have hS' : summarize (restoreAt s.file fault reach (s.readLedger ledgerRead)).2 =
        some ((ScopeSummary.fromProfile p).add reach) := by
      rw [hfile', summarize_of_fromDoc (fromDoc_written hp'), heq]
    obtain ⟨S₀, h₀, hheld⟩ := h.held reach hin
    refine ⟨fun S₁ h₁ => ?_, fun hnone => ?_, fun r hr => h.held r (hledger r hr),
      fun r hr d hd => ?_⟩
    · rw [h₀] at h₁
      obtain rfl := Option.some.inj h₁
      obtain ⟨S, hS₁, hc⟩ := h.kept S₀ h₀
      rw [hS] at hS₁
      obtain rfl := Option.some.inj hS₁
      exact ⟨_, hS', hc.add hheld⟩
    · rw [h₀] at hnone
      cases hnone
    · obtain rfl : written doc' = d := by
        have := hfile'.symm.trans hd
        simpa using this
      obtain ⟨u, u', hu, he, hpower⟩ := edits_of_restore (h.plain reach hin doc hfile) happ
      exact plainFor_written (plainFor_of_edits hu he hpower (h.plain r (hledger r hr) doc hfile))
  · have hfile := restoreAt_unchanged hdone
    simp only [handle, hfile, hdone, false_and, if_false]
    exact h

theorem ceiling_run {τ : List (Request × Reply)} {s : Held}
    (h : (requests file).Run Machine.anyStep τ s) : Ceiling file s := by
  refine Machine.Run.inv (I := fun _ s => Ceiling file s) (ceiling_init file) ?_ h
  intro τ s a reply s' hs _ hstep
  obtain rfl : (handle s a).2 = s' := by
    have := congrArg Prod.snd (Option.some.inj hstep)
    exact this
  cases a with
  | revoke reach fault recorded => exact ceiling_revoke hs reach fault recorded
  | restore reach fault ledgerRead recorded =>
    exact ceiling_restore hs reach fault ledgerRead recorded

/-- **Restoring never gains**: after any run of requests the scope on disk is within the
first one. A restore that is answered `restored` adds one reach, recorded as revoked and
not as restored since; a revoke answered `revoked` takes one away, strictly narrowing the
scope and changing no other dimension; any other answer leaves the profile as it was. -/
theorem restore_never_gains (file : ProfileFile) (τ : List (Request × Reply)) (s : Held)
    (h : (requests file).Run Machine.anyStep τ s) :
    (∀ S₀, summarize file = some S₀ → ∃ S, summarize s.file = some S ∧ Contained S S₀) ∧
      (summarize file = none → s.file = file) ∧
      (∀ reach fault ledgerRead recorded s',
        handle s (.restore reach fault ledgerRead recorded) = (.restore (.ok .restored), s') →
        (∃ before after, s.records = before ++ (outcomeRevoked, reach) :: after ∧
          (outcomeRestored, reach) ∉ after) ∧
        ∃ S, summarize s.file = some S ∧ ¬ S.Holds reach ∧
          summarize s'.file = some (S.add reach)) ∧
      (∀ reach fault recorded s',
        handle s (.revoke reach fault recorded) = (.revoke (.ok .revoked), s') →
        ∃ S, summarize s.file = some S ∧ S.Holds reach ∧
          isStrictNarrowing S (S.remove reach) = true ∧
          summarize s'.file = some (S.remove reach)) ∧
      ∀ a, (handle s a).1 ≠ .revoke (.ok .revoked) → (handle s a).1 ≠ .restore (.ok .restored) →
        (handle s a).2.file = s.file := by
  have hceil := ceiling_run h
  refine ⟨hceil.kept, hceil.bare, ?_, ?_, ?_⟩
  · intro reach fault ledgerRead recorded s' hstep
    obtain ⟨hreply, rfl⟩ := Prod.mk.inj hstep
    have hrun : restoreAt s.file fault reach (s.readLedger ledgerRead) =
        (.ok .restored, (restoreAt s.file fault reach (s.readLedger ledgerRead)).2) :=
      Prod.ext (Reply.restore.inj hreply) rfl
    have hin := mem_readLedger (mem_of_restored hrun)
    obtain ⟨doc, doc', p, p', hfile, hfile', -, hp, hp', hnot, heq⟩ :=
      restoreAt_restored hrun (hceil.plain reach hin)
    refine ⟨mem_foldRemovalLedger hin, _, hfile ▸ summarize_of_fromDoc hp, hnot, ?_⟩
    simp only [hfile', summarize_of_fromDoc (fromDoc_written hp'), heq]
  · intro reach fault recorded s' hstep
    obtain ⟨hreply, rfl⟩ := Prod.mk.inj hstep
    have hrun : revokeAt s.file fault reach = (.ok .revoked, (revokeAt s.file fault reach).2) :=
      Prod.ext (Reply.revoke.inj hreply) rfl
    obtain ⟨doc, doc', p, p', hfile, hfile', -, hp, hp', hgate, hheld, heq⟩ := revokeAt_revoked hrun
    refine ⟨_, hfile ▸ summarize_of_fromDoc hp, hheld, heq ▸ hgate, ?_⟩
    simp only [hfile', summarize_of_fromDoc (fromDoc_written hp'), heq]
  · intro a hrevoke hrestore
    cases a with
    | revoke reach fault recorded =>
      exact revokeAt_unchanged fun heq => hrevoke (congrArg Reply.revoke heq)
    | restore reach fault ledgerRead recorded =>
      exact restoreAt_unchanged fun heq => hrestore (congrArg Reply.restore heq)

def reader : Held := ⟨.doc [("graph", .table [("read", .array [.string "system.File"])])], []⟩

/-- One reach revoked and restored. -/
theorem restore_never_gains_reader :
    (handle reader (.revoke (.read "system.File") .none true)).1 = .revoke (.ok .revoked) ∧
      (handle (handle reader (.revoke (.read "system.File") .none true)).2
        (.restore (.read "system.File") .none true true)).1 = .restore (.ok .restored) ∧
      ∃ S, summarize (handle reader (.revoke (.read "system.File") .none true)).2.file = some S ∧
        ¬ S.Holds (.read "system.File") ∧
        summarize (handle (handle reader (.revoke (.read "system.File") .none true)).2
          (.restore (.read "system.File") .none true true)).2.file =
            some (S.add (.read "system.File")) := by
  have hrestored : (handle (handle reader (.revoke (.read "system.File") .none true)).2
      (.restore (.read "system.File") .none true true)).1 = .restore (.ok .restored) := by
    decide +kernel
  have hrun : (requests reader.file).Run Machine.anyStep
      [(.revoke (.read "system.File") .none true,
        (handle reader (.revoke (.read "system.File") .none true)).1)]
      (handle reader (.revoke (.read "system.File") .none true)).2 :=
    .step .start trivial rfl
  refine ⟨by decide +kernel, hrestored, ?_⟩
  exact ((restore_never_gains _ _ _ hrun).2.2.1 _ _ _ _ _ (Prod.ext hrestored rfl)).2

end Arlen.Knowledge
