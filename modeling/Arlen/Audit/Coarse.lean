import Arlen.Audit.Restart

/-!
# How coarse the readable tier stays (`IngestRequest::validate`)

The structural record of an entry is always readable. `validate` caps its subject, its
outcome, its labels and the ids before the append. It does not look at the reach a
capability change carries: what stands there, and under which kind, is the caller's.
-/

namespace Arlen.Audit

open Arlen.Lib

/-- The texts a reach carries. -/
def CapabilityReach.texts : CapabilityReach → List String
  | read pattern | write pattern => [pattern]
  | relation source target relationType => [source, target, relationType]
  | instanceAll | notificationsOff => []
  | networkDomain domain => [domain]
  | clipboardCap cap | inputCap cap | searchCap cap | intentsCap cap | systemCap cap => [cap]
  | filesystemDir dir => [dir]
  | filesystemPath path => [path]
  | eventBusSubscribe pattern | eventBusPublish pattern => [pattern]

/-- Every text of the record that comes from the caller. -/
def StructuralRecord.texts (r : StructuralRecord) : List String :=
  r.subject :: r.outcome :: (r.nodeTypes ++ r.relations) ++
    (r.capabilityChange.map CapabilityReach.texts).getD []

/-- The most bytes a caller's text takes in the readable tier. -/
def maxTextLen : Nat := 256

/-- The entry is coarse: it has a reach only as a capability change, and its texts, lists
and ids are within the caps. -/
structure AuditEntry.Coarse (e : AuditEntry) : Prop where
  reach : e.structural.capabilityChange.isSome = true → e.kind = .capabilityChange
  texts : ∀ t ∈ e.structural.texts, t.utf8ByteSize ≤ maxTextLen
  labels : e.structural.nodeTypes.length ≤ maxLabels ∧ e.structural.relations.length ≤ maxLabels
  ids : ∀ i ∈ e.callChainId.toList ++ e.projectId.toList, i.utf8ByteSize ≤ maxIdLen

/-- A reach stands in the request only as a capability change, and its texts are short. -/
def IngestRequest.ReachFits (r : IngestRequest) : Prop :=
  ∀ reach, r.structural.capabilityChange = some reach →
    r.kind = .capabilityChange ∧ ∀ t ∈ reach.texts, t.utf8ByteSize ≤ maxTextLen

/-- What `validate` accepts is within the caps, the reach aside. -/
theorem validate_eq_ok {r : IngestRequest} (h : r.validate = .ok ()) :
    (r.structural.subject.utf8ByteSize ≤ maxSubjectLen ∧
        r.structural.outcome.utf8ByteSize ≤ maxOutcomeLen) ∧
      (r.structural.nodeTypes.length ≤ maxLabels ∧ r.structural.relations.length ≤ maxLabels) ∧
      (∀ l ∈ r.structural.nodeTypes ++ r.structural.relations, l.utf8ByteSize ≤ maxLabelLen) ∧
      ∀ i ∈ r.callChainId.toList ++ r.projectId.toList, i.utf8ByteSize ≤ maxIdLen := by
  unfold IngestRequest.validate at h
  simp only at h
  split at h
  · cases h
  · next hsubject =>
    split at h
    · cases h
    · next houtcome =>
      split at h
      · cases h
      · next hlabels =>
        split at h
        · cases h
        · next hlabel =>
          split at h
          · cases h
          · next hid =>
            rw [not_or, not_lt, not_lt] at hlabels
            refine ⟨⟨not_lt.1 hsubject, not_lt.1 houtcome⟩, hlabels, fun l hl => ?_, fun i hi => ?_⟩
            · rw [List.any_eq_true] at hlabel
              by_contra hlong
              exact hlabel ⟨l, hl, decide_eq_true (not_le.1 hlong)⟩
            · rw [List.any_eq_true] at hid
              by_contra hlong
              exact hid ⟨i, hi, decide_eq_true (not_le.1 hlong)⟩

variable {D : DaemonDeps} {w w' : World} {p : Process} {actor body : String} {now : Int}
  {io : AppendIo} {i : Nat} {req : IngestRequest} {s : Submission}

theorem accept_eq_ok (h : accept D p actor body now = .ok s)
    (hreq : D.request.fromStr body = .ok req) :
    req.validate = .ok () ∧ s = req.submission actor now := by
  unfold accept at h
  split at h
  · cases h
  · rw [hreq] at h
    simp only at h
    split at h
    · cases h
    · next hvalid =>
      cases h
      exact ⟨hvalid, rfl⟩

/-- A recorded request is a new row for what `record` made of it. -/
theorem row_of_appended (hreq : D.request.fromStr body = .ok req)
    (h : w.step D (.record actor body now io) = some (.response (.appended i), w')) :
    req.validate = .ok () ∧ ∃ e : AuditEntry, e.toSubmission = req.submission actor now ∧
      e.index = i ∧ w'.disk.table = w.disk.table ++ [Row.ofEntry D.toDeps e] := by
  obtain ⟨p, -, ⟨reason, hrefused, -⟩ | ⟨s, a, proc, haccept, happend, rfl, -, hresult⟩⟩ :=
    record_cases h
  · cases hrefused
  obtain ⟨hvalid, rfl⟩ := accept_eq_ok haccept hreq
  refine ⟨hvalid, p.head.sealEntry D.toDeps (req.submission actor now), rfl, ?_⟩
  have hok := hresult i rfl
  rcases append_cases happend with ⟨-, -, hnot⟩ | ⟨disk', hinsert, -, hcases⟩
  · exact absurd hok (hnot i)
  rcases hcases with ⟨-, hnot⟩ | ⟨hdisk, hindex⟩
  · exact absurd hok (hnot i)
  refine ⟨(hindex i hok).symm, ?_⟩
  have htable : a.disk.table = disk'.table := by rw [hdisk]
  show a.disk.table = _
  rw [htable]
  unfold Disk.insertRow Table.insert at hinsert
  split at hinsert
  · next t ht =>
    cases hinsert
    split at ht
    · cases ht
    · split at ht
      · cases ht
      · cases ht
        rfl
  · cases hinsert

/-- **The readable tier stays coarse** exactly if the request's reach is a capability
change's and short: `validate` sees to everything else. -/
theorem stays_coarse_iff (hreq : D.request.fromStr body = .ok req)
    (h : w.step D (.record actor body now io) = some (.response (.appended i), w')) :
    ∃ e : AuditEntry, e.toSubmission = req.submission actor now ∧ e.index = i ∧
      w'.disk.table = w.disk.table ++ [Row.ofEntry D.toDeps e] ∧ (e.Coarse ↔ req.ReachFits) := by
  obtain ⟨hvalid, e, hsub, hindex, htable⟩ := row_of_appended hreq h
  obtain ⟨⟨hsubject, houtcome⟩, hcount, hlabels, hids⟩ := validate_eq_ok hvalid
  have hstructural : e.structural = req.structural := congrArg Submission.structural hsub
  have hkind : e.kind = req.kind := congrArg Submission.kind hsub
  have hcall : e.callChainId = req.callChainId := congrArg Submission.callChainId hsub
  have hproject : e.projectId = req.projectId := congrArg Submission.projectId hsub
  refine ⟨e, hsub, hindex, htable, ?_⟩
  constructor
  · intro hcoarse reach hreach
    rw [← hstructural] at hreach
    refine ⟨hkind ▸ hcoarse.reach (by rw [hreach]; rfl), fun t ht => hcoarse.texts t ?_⟩
    refine List.mem_append_right _ ?_
    rw [hreach]
    exact ht
  · intro hfits
    refine ⟨fun hsome => ?_, fun t ht => ?_, ?_, ?_⟩
    · obtain ⟨reach, hreach⟩ := Option.isSome_iff_exists.1 hsome
      rw [hkind]
      exact (hfits reach (hstructural ▸ hreach)).1
    · rw [hstructural] at ht
      rcases List.mem_append.1 ht with ht | ht
      · rcases List.mem_cons.1 ht with rfl | ht
        · exact hsubject
        · rcases List.mem_cons.1 ht with rfl | ht
          · exact Nat.le_trans houtcome (by decide)
          · exact Nat.le_trans (hlabels t ht) (by decide)
      · cases hreach : req.structural.capabilityChange with
        | none =>
          rw [hreach] at ht
          cases ht
        | some reach =>
          rw [hreach] at ht
          exact (hfits reach hreach).2 t ht
    · rw [hstructural]
      exact hcount
    · rw [hcall, hproject]
      exact hids

/-- The call of the small ledger is recorded and coarse. -/
theorem first_call_coarse : ∃ w' e, w'.disk.table = [Row.ofEntry smallDeps e] ∧
    World.step smallDaemon { proc := some ⟨.genesis, false⟩ } (.record "agent" requestJson 1000 {}) =
      some (.response (.appended 0), w') ∧ AuditEntry.Coarse e := by
  have hstep : ∃ w', World.step smallDaemon { proc := some ⟨.genesis, false⟩ }
      (.record "agent" requestJson 1000 {}) = some (.response (.appended 0), w') :=
    ⟨_, by simp only [World.step, smallDaemon_accept]; rfl⟩
  obtain ⟨w', hstep⟩ := hstep
  have hreq : smallDaemon.request.fromStr requestJson = .ok toolCall := serdeOf_roundTrips _ _
  obtain ⟨e, -, -, htable, hiff⟩ := stays_coarse_iff hreq hstep
  refine ⟨w', e, htable, hstep, hiff.2 fun reach hreach => ?_⟩
  cases hreach

/-- A tool call that carries a reach. -/
def reachingCall : IngestRequest where
  kind := .toolCall
  structural := { subject := "files", outcome := "ok", capabilityChange := some (.read "diary 2024-01-01") }

def reachingStructuralJson : String :=
  "\x7b\"subject\":\"files\",\"node_types\":[],\"relations\":[],\"result_count\":null," ++
    "\"duration_ms\":null,\"outcome\":\"ok\",\"depth\":null," ++
    "\"capability_change\":\x7b\"read\":\x7b\"entity_pattern\":\"diary 2024-01-01\"\x7d\x7d\x7d"

def reachingJson : String :=
  "\x7b\"kind\":\"tool_call\",\"structural\":" ++ reachingStructuralJson ++
    ",\"forensic\":null,\"call_chain_id\":null,\"project_id\":null\x7d"

def reachingDaemon : DaemonDeps where
  toDeps := { smallDeps with structural := serdeOf reachingCall.structural fun _ => reachingStructuralJson }
  request := serdeOf reachingCall fun _ => reachingJson
  checkpoint := smallDaemon.checkpoint

/-- It is recorded, with its reach. -/
theorem reaching_call_recorded : ∃ w' e, w'.disk.table = [Row.ofEntry reachingDaemon.toDeps e] ∧
    World.step reachingDaemon { proc := some ⟨.genesis, false⟩ }
      (.record "agent" reachingJson 1000 {}) = some (.response (.appended 0), w') ∧
    e.structural = reachingCall.structural ∧ e.kind = .toolCall ∧ ¬ AuditEntry.Coarse e := by
  have haccept : accept reachingDaemon ⟨.genesis, false⟩ "agent" reachingJson 1000 =
      .ok (reachingCall.submission "agent" 1000) := by decide +kernel
  have hstep : ∃ w', World.step reachingDaemon { proc := some ⟨.genesis, false⟩ }
      (.record "agent" reachingJson 1000 {}) = some (.response (.appended 0), w') :=
    ⟨_, by simp only [World.step, haccept]; rfl⟩
  obtain ⟨w', hstep⟩ := hstep
  have hreq : reachingDaemon.request.fromStr reachingJson = .ok reachingCall :=
    serdeOf_roundTrips _ _
  obtain ⟨-, e, hsub, -, htable⟩ := row_of_appended hreq hstep
  have hstructural : e.structural = reachingCall.structural := congrArg Submission.structural hsub
  have hkind : e.kind = .toolCall := congrArg Submission.kind hsub
  refine ⟨w', e, htable, hstep, hstructural, hkind, fun hcoarse => ?_⟩
  have hreach := hcoarse.reach (by rw [hstructural]; rfl)
  rw [hkind] at hreach
  cases hreach

end Arlen.Audit
