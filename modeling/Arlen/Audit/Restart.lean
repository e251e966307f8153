import Arlen.Audit.Honest
import Arlen.Lib.Sha256

/-!
# Restarts, and what a checkpoint protects

With serialisers that undo themselves on what the run serialises (`serdeOk`),
the checkpoint file, when there is one, names an entry of the table
(`World.Witnessed`). So a restart over an untouched disk verifies and finds its
witness; the exception is a table with rows and no checkpoint file yet. And an
acknowledged entry lies at or below the checkpoint for good, so cutting the
table below it is noticed at the next start.
-/

namespace Arlen.Audit

open Arlen.Lib

/-- The serialisers undo themselves on what this step stores. -/
def serdeOk (D : DaemonDeps) (w : World) (a : Action) : Prop :=
  (∀ s ∈ offered D w a, s.RoundTrips D.toDeps) ∧
    ∀ cp ∈ toWrite D w a, D.checkpoint.RoundTrips cp

/-- The checkpoint names an entry of the chain and carries its hash. -/
def Names (D : DaemonDeps) (ss : List Submission) (cp : Checkpoint) : Prop :=
  ∃ e, (sealAll D.toDeps .genesis ss)[cp.index]? = some e ∧
    cp.entryHashHex = hex e.entryHash.bytes

theorem AtTop.index {D : DaemonDeps} {ss : List Submission} {cp : Checkpoint}
    (h : AtTop D ss cp) : cp.index + 1 = ss.length := by
  obtain ⟨e, he, hi, _⟩ := h
  rw [List.getLast?_eq_getElem?, length_sealAll] at he
  have hlt := (List.getElem?_eq_some_iff.1 he).1
  have := index_of_getElem? he
  simp only [Head.genesis, length_sealAll] at this hlt
  omega

theorem AtTop.names {D : DaemonDeps} {ss : List Submission} {cp : Checkpoint}
    (h : AtTop D ss cp) : Names D ss cp := by
  have hlen := h.index
  obtain ⟨e, he, _, hx⟩ := h
  refine ⟨e, ?_, hx⟩
  rw [List.getLast?_eq_getElem?, length_sealAll] at he
  rw [← he]
  congr 1
  omega

theorem Names.lt {D : DaemonDeps} {ss : List Submission} {cp : Checkpoint} (h : Names D ss cp) :
    cp.index < ss.length := by
  obtain ⟨e, he, _⟩ := h
  simpa using (List.getElem?_eq_some_iff.1 he).1

theorem Names.append {D : DaemonDeps} {ss : List Submission} {cp : Checkpoint} (h : Names D ss cp)
    (ts : List Submission) : Names D (ss ++ ts) cp := by
  obtain ⟨e, he, hx⟩ := h
  refine ⟨e, ?_, hx⟩
  rw [sealAll_append, List.getElem?_append_left (List.getElem?_eq_some_iff.1 he).1, he]

namespace World

/-- An honest disk whose records read back and whose checkpoint file, when
there is one, names an entry of the table. -/
structure Witnessed (D : DaemonDeps) (ss : List Submission) (w : World) : Prop
    extends Honest D ss w where
  roundTrips : ∀ s ∈ ss, s.RoundTrips D.toDeps
  checkpoint : ∀ text ∈ w.disk.checkpoint, ∃ cp,
    D.checkpoint.fromStr text = .ok cp ∧ Names D ss cp

variable {D : DaemonDeps} {ss : List Submission} {w w' : World} {a : Action} {rep : Reply}

theorem Witnessed.step (hw : Witnessed D ss w) (hok : serdeOk D w a)
    (h : w.step D a = some (rep, w')) :
    ∃ ts, Witnessed D (ss ++ ts) w' ∧
      (w'.disk.checkpoint = w.disk.checkpoint ∧ (∀ i, rep ≠ .response (.appended i)) ∨
        ∃ cp, Checkpoint.read D.checkpoint w'.disk.checkpoint = .ok (some cp) ∧
          cp.index + 1 = (ss ++ ts).length ∧
          ∀ i, rep = .response (.appended i) → i = cp.index) := by
  obtain ⟨ts, hon, hoff, hcp⟩ := hw.toHonest.step h
  have hrt : ∀ s ∈ ss ++ ts, s.RoundTrips D.toDeps := by
    intro s hs
    rcases List.mem_append.1 hs with hs | hs
    · exact hw.roundTrips s hs
    · exact hok.1 s (hoff s hs)
  rcases hcp with ⟨hsame, hrep⟩ | ⟨cp, hm, htop, hnew, hrep⟩
  · refine ⟨ts, ⟨hon, hrt, fun text ht => ?_⟩, .inl ⟨hsame, hrep⟩⟩
    obtain ⟨cp, hparse, hnames⟩ := hw.checkpoint text (hsame ▸ ht)
    exact ⟨cp, hparse, hnames.append ts⟩
  · have hparse : D.checkpoint.fromStr (D.checkpoint.toStr cp) = .ok cp := hok.2 cp hm
    refine ⟨ts, ⟨hon, hrt, fun text ht => ?_⟩, .inr ⟨cp, ?_, htop.index, hrep⟩⟩
    · rw [hnew] at ht
      cases ht
      exact ⟨cp, hparse, htop.names⟩
    · simp [hnew, Checkpoint.read, hparse]

/-- What the checkpoint file reads as names an entry. -/
theorem Witnessed.names (hw : Witnessed D ss w) {cp : Checkpoint}
    (hread : Checkpoint.read D.checkpoint w.disk.checkpoint = .ok (some cp)) : Names D ss cp := by
  cases htext : w.disk.checkpoint with
  | none => rw [htext] at hread; cases hread
  | some text =>
    obtain ⟨cp', hparse, hnames⟩ := hw.checkpoint text htext
    simp only [htext, Checkpoint.read, hparse, Except.ok.injEq, Option.some.injEq] at hread
    exact hread ▸ hnames

theorem witnessed_init (D : DaemonDeps) : Witnessed D [] (daemon D).init :=
  ⟨⟨rfl, rfl, Nat.zero_le _, by simp [daemon]⟩, by simp, by simp [daemon]⟩

end World

theorem witnessed_of_run {D : DaemonDeps} {τ : List (Action × Reply)} {w : World}
    (h : (daemon D).Run (serdeOk D) τ w) : ∃ ss, w.Witnessed D ss := by
  refine h.inv (I := fun _ w => ∃ ss, w.Witnessed D ss) ⟨[], World.witnessed_init D⟩ ?_
  rintro τ w a rep w' ⟨ss, hw⟩ hok hs
  obtain ⟨ts, hw', _⟩ := hw.step hok hs
  exact ⟨_, hw'⟩

/-! ## The verdict of a restart -/

section

variable {D : DaemonDeps} {ss : List Submission} {disk : Disk}

theorem forCheckpoint_isNone (D : Deps) (ss : List Submission) :
    (Head.genesis.after D ss).forCheckpoint.isNone = decide (ss = []) := by
  unfold Head.forCheckpoint
  rw [Head.after_nextIndex]
  cases ss <;> simp [Head.genesis]

/-- The verdict over a chain's table without a checkpoint file. -/
theorem assess_absent (D : DaemonDeps) (ss : List Submission) (hcp : disk.checkpoint = none) :
    ∃ check, assess D disk (Head.genesis.after D.toDeps ss) = .ok check ∧
      (check.isTampered = false ↔ ss = []) := by
  refine ⟨_, by simp only [assess, hcp, Checkpoint.read]; rfl, ?_⟩
  simp only [Checkpoint.assessStartup, forCheckpoint_isNone]
  by_cases hss : ss = [] <;> simp [hss, StartupCheck.isTampered]

/-- The verdict over a chain's table with a checkpoint that names an entry. -/
theorem assess_named (ht : disk.table = rowsOf D.toDeps .genesis ss) (hsize : ss.length ≤ maxRows)
    {cp : Checkpoint} (hcp : Checkpoint.read D.checkpoint disk.checkpoint = .ok (some cp))
    (hnames : Names D ss cp) (head : Head) : assess D disk head = .ok .consistent := by
  have hmax : maxRows < 2 ^ 63 := by decide
  have hlt := hnames.lt
  obtain ⟨e, he, hx⟩ := hnames
  have hat := entryHashHexAt_rowsOf (D := D.toDeps) (i := cp.index)
    (show ss.length ≤ 2 ^ 63 by omega) (by omega)
  simp [assess, hcp, ht, hat, he, Checkpoint.assessStartup, hx]

/-- The verdict over a chain's table that ends below the checkpoint. -/
theorem assess_cut (ht : disk.table = rowsOf D.toDeps .genesis ss) (hsize : ss.length ≤ maxRows)
    {cp : Checkpoint} (hcp : Checkpoint.read D.checkpoint disk.checkpoint = .ok (some cp))
    (hcut : ss.length ≤ cp.index) (hidx : cp.index < 2 ^ 63) (head : Head) :
    assess D disk head = .ok (.tampered
      s!"ledger has no entry at checkpoint index {cp.index} (truncated)") := by
  have hmax : maxRows < 2 ^ 63 := by decide
  have hat := entryHashHexAt_rowsOf (D := D.toDeps) (i := cp.index)
    (show ss.length ≤ 2 ^ 63 by omega) hidx
  have hnone : (sealAll D.toDeps .genesis ss)[cp.index]? = none := by
    rw [List.getElem?_eq_none_iff, length_sealAll]
    exact hcut
  simp [assess, hcp, ht, hat, hnone, Checkpoint.assessStartup]

end

/-- A restart over this disk verifies every row and does not report tampering. -/
def RestartClean (D : DaemonDeps) (disk : Disk) : Prop :=
  disk.table.verify D.toDeps = .ok disk.table.length ∧
    ∃ head check, disk.table.loadHead = .ok head ∧ assess D disk head = .ok check ∧
      check.isTampered = false

namespace World

variable {D : DaemonDeps} {ss : List Submission} {w w' : World} {a : Action} {rep : Reply}

theorem Witnessed.verify (hw : Witnessed D ss w) :
    w.disk.table.verify D.toDeps = .ok w.disk.table.length := by
  have hmax : maxRows < 2 ^ 63 := by decide
  have hsize := hw.size
  rw [hw.table, verify_rowsOf (by omega) hw.roundTrips, length_rowsOf]

/-- The verdict: clean unless there are rows and no checkpoint file. -/
theorem Witnessed.assess (hw : Witnessed D ss w) :
    ∃ check, assess D w.disk (Head.genesis.after D.toDeps ss) = .ok check ∧
      (check.isTampered = false ↔ w.disk.table = [] ∨ w.disk.checkpoint.isSome = true) := by
  have hempty : w.disk.table = [] ↔ ss = [] := by
    rw [hw.table, ← List.length_eq_zero_iff, length_rowsOf, List.length_eq_zero_iff]
  cases hcp : w.disk.checkpoint with
  | none =>
    obtain ⟨check, hassess, hiff⟩ := assess_absent D ss hcp
    exact ⟨check, hassess, by simp [hiff, hempty]⟩
  | some text =>
    obtain ⟨cp, hparse, hnames⟩ := hw.checkpoint text hcp
    have hread : Checkpoint.read D.checkpoint w.disk.checkpoint = .ok (some cp) := by
      simp [hcp, Checkpoint.read, hparse]
    refine ⟨_, assess_named hw.table hw.size hread hnames _, ?_⟩
    simp [StartupCheck.isTampered]

theorem Witnessed.restartClean_iff (hw : Witnessed D ss w) :
    RestartClean D w.disk ↔ w.disk.table = [] ∨ w.disk.checkpoint.isSome = true := by
  obtain ⟨check, hassess, hiff⟩ := hw.assess
  constructor
  · rintro ⟨_, head, check', hload, hassess', hclean⟩
    rw [hw.loadHead] at hload
    cases hload
    rw [hassess] at hassess'
    cases hassess'
    exact hiff.1 hclean
  · intro h
    exact ⟨hw.verify, _, check, hw.loadHead, hassess, hiff.2 h⟩

end World

/-- A start finds its witness, and its own checkpoint write reports no error. -/
def cleanStart (w : World) : Action → Prop
  | .start io => (w.disk.table = [] ∨ w.disk.checkpoint.isSome = true) ∧
    ∀ e landed, io ≠ .failed e landed
  | _ => True

theorem reseed_unfrozen {D : DaemonDeps} {disk disk' : Disk} {head : Head} {io : Write AuditError}
    {rep : Reply} {proc : Option Process} (hio : ∀ e landed, io ≠ .failed e landed)
    (h : reseed D disk head io = (rep, disk', proc)) : ∀ p ∈ proc, p.tampered = false := by
  unfold reseed at h
  split at h
  · cases h; simp
  · split at h
    · cases h; simp
    · next e d hrun =>
      cases io with
      | done => cases hrun
      | failed e landed => exact absurd rfl (hio e landed)
      | crashed landed => cases hrun
    · cases h; simp

theorem startup_unfrozen {D : DaemonDeps} {disk disk' : Disk} {io : Write AuditError} {rep : Reply}
    {proc : Option Process} (hclean : RestartClean D disk)
    (hio : ∀ e landed, io ≠ .failed e landed)
    (h : startup D disk io = (rep, disk', proc)) : ∀ p ∈ proc, p.tampered = false := by
  obtain ⟨hverify, head, check, hload, hassess, hcheck⟩ := hclean
  simp only [startup, hload, hverify, hassess] at h
  cases check with
  | consistent => exact reseed_unfrozen hio h
  | genesis => cases h; simp
  | tampered detail => cases hcheck

/-- **The verdict of a restart.** In every run, under any crashes and any failed
inserts, attestations and checkpoint writes: the table on disk verifies to its
number of rows; a restart over it is clean exactly when the table is empty or a
checkpoint file is there; and if every start of the run found it so, and none
had its own checkpoint write fail, ingest is not frozen. -/
theorem restart_clean_iff {D : DaemonDeps} {τ : List (Action × Reply)} {w : World}
    (h : (daemon D).Run (serdeOk D) τ w) :
    w.disk.table.verify D.toDeps = .ok w.disk.table.length ∧
    (RestartClean D w.disk ↔ w.disk.table = [] ∨ w.disk.checkpoint.isSome = true) ∧
    ((daemon D).Run (fun w a => serdeOk D w a ∧ cleanStart w a) τ w →
      ∀ p ∈ w.proc, p.tampered = false) := by
  obtain ⟨ss, hw⟩ := witnessed_of_run h
  refine ⟨hw.verify, hw.restartClean_iff, fun hclean => ?_⟩
  refine (hclean.inv (I := fun _ w => (∃ ss, w.Witnessed D ss) ∧ ∀ p ∈ w.proc, p.tampered = false)
    ⟨⟨[], World.witnessed_init D⟩, by simp [daemon]⟩ ?_).2
  rintro τ w a rep w' ⟨⟨ss, hw⟩, hfree⟩ ⟨hok, hstart⟩ hs
  obtain ⟨ts, hw', _⟩ := hw.step hok hs
  refine ⟨⟨_, hw'⟩, ?_⟩
  cases a with
  | start io =>
    obtain ⟨_, disk, proc, hboot, rfl⟩ := start_cases hs
    exact startup_unfrozen (hw.restartClean_iff.2 hstart.1) hstart.2 hboot
  | record actor body now io =>
    obtain ⟨p, hp, ⟨reason, _, rfl⟩ | ⟨s, a, proc, _, _, rfl, hproc, _⟩⟩ := record_cases hs
    · exact hfree
    · intro q hq
      rw [hproc q hq]
      exact hfree p hp
  | crash => cases hs; simp

/-! ### A ledger of one entry -/

def toolCall : IngestRequest where
  kind := .toolCall
  structural := { subject := "files", outcome := "ok" }

/-- Its structural record, as the serialiser prints it. -/
def structuralJson : String :=
  "\x7b\"subject\":\"files\",\"node_types\":[],\"relations\":[],\"result_count\":null," ++
    "\"duration_ms\":null,\"outcome\":\"ok\",\"depth\":null,\"capability_change\":null\x7d"

def requestJson : String :=
  "\x7b\"kind\":\"tool_call\",\"structural\":" ++ structuralJson ++
    ",\"forensic\":null,\"call_chain_id\":null,\"project_id\":null\x7d"

def smallDeps : Deps where
  mac := hmacSha256 (utf8 "audit-test-key-0123456789")
  structural := serdeOf toolCall.structural fun _ => structuralJson
  forensic := ⟨fun _ => "null", fun _ => .error "expected value at line 1 column 1"⟩

/-- The one submission of the small ledger. -/
def firstCall : Submission := toolCall.submission "agent" 1000

def printCheckpoint (c : Checkpoint) : String :=
  let (index, hash, attestation) := (c.index, c.entryHashHex, c.attestationHex)
  s!"\x7b\"index\":{index},\"entry_hash_hex\":\"{hash}\",\"attestation_hex\":\"{attestation}\"\x7d"

def smallDaemon : DaemonDeps where
  toDeps := smallDeps
  request := serdeOf toolCall fun _ => requestJson
  checkpoint := serdeOf ((Head.genesis.sealEntry smallDeps firstCall).checkpoint "") printCheckpoint

theorem smallDaemon_accept :
    accept smallDaemon ⟨.genesis, false⟩ "agent" requestJson 1000 = .ok firstCall := by
  decide +kernel

theorem smallDaemon_started : (daemon smallDaemon).Run (serdeOk smallDaemon)
    [(.start .done, .started (some .genesis))] { proc := some ⟨.genesis, false⟩ } :=
  .step .start ⟨by simp [offered], by simp [toWrite, daemon, Table.loadHead, Table.ordered,
    Head.checkpoint, Head.forCheckpoint, Head.genesis, Except.toOption]⟩ rfl

theorem smallDaemon_serdeOk (io : Write AuditError) :
    serdeOk smallDaemon { proc := some ⟨.genesis, false⟩ }
      (.record "agent" requestJson 1000 { checkpoint := io }) := by
  refine ⟨?_, ?_⟩
  · simp only [offered, Option.bind_some, smallDaemon_accept, Except.toOption,
      Option.mem_some_iff, forall_eq']
    exact ⟨serdeOf_roundTrips _ _, by simp [firstCall, toolCall, IngestRequest.submission]⟩
  · simp only [toWrite, Option.bind_some, smallDaemon_accept, Except.toOption, Option.map_some,
      Option.mem_some_iff, forall_eq']
    exact serdeOf_roundTrips _ _

/-- The first call is recorded. -/
theorem smallDaemon_recorded : ∃ τ w, (daemon smallDaemon).Run (serdeOk smallDaemon) τ w ∧
    (.record "agent" requestJson 1000 {}, .response (.appended 0)) ∈ τ ∧
    w.disk.checkpoint.isSome = true ∧ w.sealed = [Head.genesis.sealEntry smallDeps firstCall] :=
  ⟨_, _, smallDaemon_started.step (smallDaemon_serdeOk .done)
    (by simp only [daemon, World.step, smallDaemon_accept]; rfl),
    List.mem_append_right _ List.mem_cons_self, rfl, rfl⟩

/-- A restart after the first call is clean. -/
theorem restart_clean_iff_recorded : ∃ τ w,
    (daemon smallDaemon).Run (serdeOk smallDaemon) τ w ∧ RestartClean smallDaemon w.disk := by
  obtain ⟨τ, w, hrun, _, hcp, _⟩ := smallDaemon_recorded
  exact ⟨τ, w, hrun, (restart_clean_iff hrun).2.1.2 (.inr hcp)⟩

/-- A crash after the first row is committed and before its checkpoint is
written leaves a disk whose next start reports tampering. -/
theorem restart_after_first_crash : ¬ ∀ (D : DaemonDeps) (τ : List (Action × Reply)) (w : World),
    (daemon D).Run (serdeOk D) τ w → RestartClean D w.disk := by
  intro hall
  obtain ⟨τ, w, hrun, hrows, hcp⟩ : ∃ τ w, (daemon smallDaemon).Run (serdeOk smallDaemon) τ w ∧
      w.disk.table.length = 1 ∧ w.disk.checkpoint = none :=
    ⟨_, _, smallDaemon_started.step (smallDaemon_serdeOk (.crashed false))
      (by simp only [daemon, World.step, smallDaemon_accept]; rfl), rfl, rfl⟩
  obtain ⟨ss, hw⟩ := witnessed_of_run hrun
  rcases hw.restartClean_iff.1 (hall _ _ _ hrun) with hempty | hsome
  · rw [hempty] at hrows
    cases hrows
  · rw [hcp] at hsome
    cases hsome

/-! ## Truncation -/

/-- The rows at and above `j` deleted. -/
def Disk.truncate (disk : Disk) (j : Nat) : Disk :=
  { disk with table := disk.table.filter fun r => r.idx < (j : Int) }

theorem filter_rowsOf {D : Deps} {ss : List Submission} (hb : ss.length ≤ 2 ^ 63) {j : Nat}
    (hj : j ≤ ss.length) :
    (rowsOf D .genesis ss).filter (fun r => r.idx < (j : Int)) =
      rowsOf D .genesis (ss.take j) := by
  have hsplit : rowsOf D .genesis ss = rowsOf D .genesis (ss.take j) ++
      rowsOf D (Head.genesis.after D (ss.take j)) (ss.drop j) := by
    rw [← rowsOf_append, List.take_append_drop]
  rw [hsplit, List.filter_append, List.filter_eq_self.2, List.filter_eq_nil_iff.2,
    List.append_nil]
  · intro r hr
    obtain ⟨i, hi⟩ := List.mem_iff_getElem?.1 hr
    have hidx := idx_of_getElem? (by
      rw [Head.after_nextIndex, List.length_take, List.length_drop]
      simp only [Head.genesis]
      omega) hi
    rw [Head.after_nextIndex, List.length_take, Nat.min_eq_left hj] at hidx
    simp only [Head.genesis] at hidx
    simp only [decide_eq_true_eq]
    omega
  · intro r hr
    obtain ⟨i, hi⟩ := List.mem_iff_getElem?.1 hr
    have hlt : i < (ss.take j).length := by simpa using (List.getElem?_eq_some_iff.1 hi).1
    rw [List.length_take] at hlt
    have hidx := idx_of_getElem? (by
      rw [List.length_take]
      simp only [Head.genesis]
      omega) hi
    simp only [Head.genesis] at hidx
    simp only [decide_eq_true_eq]
    omega

/-- The file names an index at or above every acknowledged one. -/
def Acknowledged (D : DaemonDeps) (τ : List (Action × Reply)) (w : World) : Prop :=
  ∀ a i, (a, .response (.appended i)) ∈ τ →
    ∃ cp, Checkpoint.read D.checkpoint w.disk.checkpoint = .ok (some cp) ∧ i ≤ cp.index

theorem acknowledged_of_run {D : DaemonDeps} {τ : List (Action × Reply)} {w : World}
    (h : (daemon D).Run (serdeOk D) τ w) :
    (∃ ss, w.Witnessed D ss) ∧ Acknowledged D τ w := by
  refine h.inv (I := fun τ w => (∃ ss, w.Witnessed D ss) ∧ Acknowledged D τ w)
    ⟨⟨[], World.witnessed_init D⟩, by simp [Acknowledged]⟩ ?_
  rintro τ w a rep w' ⟨⟨ss, hw⟩, hack⟩ hok hs
  obtain ⟨ts, hw', hcp⟩ := hw.step hok hs
  refine ⟨⟨_, hw'⟩, fun b i hm => ?_⟩
  rcases hcp with ⟨hsame, hrep⟩ | ⟨cp, hread, htop, hrep⟩
  · rcases List.mem_append.1 hm with hm | hm
    · rw [hsame]
      exact hack b i hm
    · cases List.mem_singleton.1 hm
      exact absurd rfl (hrep i)
  · refine ⟨cp, hread, ?_⟩
    rcases List.mem_append.1 hm with hm | hm
    · -- the old checkpoint named an entry of the chain, the new one names its last
      obtain ⟨cp₀, hread₀, hle⟩ := hack b i hm
      have := (hw.names hread₀).lt
      rw [List.length_append] at htop
      omega
    · cases List.mem_singleton.1 hm
      exact (hrep i rfl).le

/-- **No acknowledged entry can be cut away unnoticed.** Once some call of a run
has answered `Appended { index }`, the checkpoint file names an index at or
above it in every later state, and a start over the disk with the rows at and
above any `j ≤ index` deleted reports tampering and freezes ingest. -/
theorem acknowledged_not_truncatable {D : DaemonDeps} {τ : List (Action × Reply)} {w : World}
    (h : (daemon D).Run (serdeOk D) τ w) {a : Action} {index : Nat}
    (hack : (a, .response (.appended index)) ∈ τ) :
    (∃ cp, Checkpoint.read D.checkpoint w.disk.checkpoint = .ok (some cp) ∧ index ≤ cp.index) ∧
    ∀ j ≤ index, ∀ io, ∃ head detail, startup D (w.disk.truncate j) io =
      (.started (some (.tampered detail)), w.disk.truncate j, some ⟨head, true⟩) := by
  obtain ⟨⟨ss, hw⟩, hall⟩ := acknowledged_of_run h
  obtain ⟨cp, hread, hle⟩ := hall a index hack
  refine ⟨⟨cp, hread, hle⟩, fun j hj io => ?_⟩
  have hmax : maxRows < 2 ^ 63 := by decide
  have hsize := hw.size
  have hlt := (hw.names hread).lt
  have htable : (w.disk.truncate j).table = rowsOf D.toDeps .genesis (ss.take j) := by
    simp only [Disk.truncate, hw.table]
    exact filter_rowsOf (by omega) (by omega)
  have hlen : (ss.take j).length = j := by
    rw [List.length_take]
    omega
  have hload : (w.disk.truncate j).table.loadHead =
      .ok (Head.genesis.after D.toDeps (ss.take j)) := by
    rw [htable]
    exact loadHead_rowsOf (by omega)
  have hverify : (w.disk.truncate j).table.verify D.toDeps = .ok (ss.take j).length := by
    rw [htable]
    exact verify_rowsOf (by omega) fun s hs => hw.roundTrips s (List.mem_of_mem_take hs)
  have hassess := assess_cut htable (by omega) hread (by omega) (by omega)
    (Head.genesis.after D.toDeps (ss.take j))
  simp only [startup, hload, hverify, hassess]
  exact ⟨_, _, rfl⟩

/-- The one entry of the small ledger cannot be dropped. -/
theorem acknowledged_not_truncatable_recorded : ∃ (w : World) (head : Head) (detail : String),
    startup smallDaemon (w.disk.truncate 0) .done =
      (.started (some (.tampered detail)), w.disk.truncate 0, some ⟨head, true⟩) := by
  obtain ⟨τ, w, hrun, hack, _⟩ := smallDaemon_recorded
  obtain ⟨head, detail, h⟩ := (acknowledged_not_truncatable hrun hack).2 0 (Nat.le_refl _) .done
  exact ⟨w, head, detail, h⟩

end Arlen.Audit
