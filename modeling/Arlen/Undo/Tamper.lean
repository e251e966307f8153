import Arlen.Undo.Recovery

/-!
# What an accepted directory can hold

An editor without the key can only reuse chain hashes that the signer made. Then
a log file that an open accepts holds a first part of a log the signer wrote:
its last hash is one of that log's, and the chain pins down every record below.
The checkpoint, left as the signer wrote it, bounds how much may be missing.
-/

namespace Arlen.Undo

open Arlen.Lib

/-- The directory with other bytes in place of the log file. -/
def Disk.edited (disk : Disk) (content : Bytes) : Disk := { disk with log := some content }

@[simp] theorem content_edited (disk : Disk) (content : Bytes) :
    (disk.edited content).content = content := rfl

/-! ## Assumptions on the hash -/

/-- The lines a log stands for. -/
def FileUndoLog.lines (f : FileUndoLog) : List ChainedLine := List.zipWith .mk f.log f.hashes

/-- The strings that are hashed for these lines, from the hash before them. -/
def hashedFrom (D : Deps) : Digest → List ChainedLine → List Bytes
  | _, [] => []
  | prev, c :: cs => chainInput D prev c.record :: hashedFrom D c.hash cs

/-- Every hash in the file is one of a log that the signer wrote. -/
def ReusesHashes (D : Deps) (w : World) (content : Bytes) : Prop :=
  ∀ c ∈ storedLines D content, ∃ g ∈ w.wrote, c.hash ∈ g.hashes

/-- The keyed hash has no collision between a string of the file and one that
the signer hashed. -/
def CollisionFree (D : Deps) (w : World) (content : Bytes) : Prop :=
  ∀ g ∈ w.wrote, ∀ s ∈ hashedFrom D genesisPrevHash (storedLines D content),
    ∀ t ∈ hashedFrom D genesisPrevHash g.lines,
      D.mac g.key.bytes s = D.mac g.key.bytes t → s = t

/-- No string that the signer hashed gives the 32 zero bytes a chain starts at. -/
def AnchorFree (w : World) : Prop := ∀ g ∈ w.wrote, genesisPrevHash ∉ g.hashes

/-- The records of the file and of the signer's logs are told apart by their
JSON. -/
def RecordsRoundTrip (D : Deps) (w : World) (content : Bytes) : Prop :=
  (∀ c ∈ storedLines D content, D.record.RoundTrips c.record) ∧
    ∀ g ∈ w.wrote, ∀ r ∈ g.log, D.record.RoundTrips r

section

variable {D : Deps} {key : Key} {rs : List LogRecord} {h : Digest}

theorem lines_logOf : (logOf D key rs).lines = chainedLines D key genesisPrevHash rs := by
  simp only [FileUndoLog.lines, logOf]
  generalize genesisPrevHash = h
  induction rs generalizing h with
  | nil => rfl
  | cons r rs ih => simp [chain, chainedLines, ih]

theorem hashedFrom_chainedLines : hashedFrom D h (chainedLines D key h rs) =
    (links (link D key) h rs).map fun x => chainInput D x.1 x.2 := by
  induction rs generalizing h with
  | nil => rfl
  | cons r rs ih => simp [chainedLines, hashedFrom, links, ih]

theorem map_hash_chainedLines :
    (chainedLines D key h rs).map ChainedLine.hash = chain (link D key) h rs := by
  induction rs generalizing h with
  | nil => rfl
  | cons r rs ih => simp [chainedLines, chain, ih]

theorem map_record_chainedLines : (chainedLines D key h rs).map ChainedLine.record = rs := by
  induction rs generalizing h with
  | nil => rfl
  | cons r rs ih => simp [chainedLines, ih]

theorem mem_of_mem_links {x : Digest × LogRecord} (hx : x ∈ links (link D key) h rs) :
    x.2 ∈ rs := by
  induction rs generalizing h with
  | nil => cases hx
  | cons r rs ih =>
    rcases List.mem_cons.1 hx with rfl | hx
    · exact List.mem_cons_self
    · exact List.mem_cons_of_mem _ (ih hx)

/-- The hashed string splits into the hash before and the record. -/
theorem chainInput_inj {d d' : Digest} {r r' : LogRecord} (hr : D.record.RoundTrips r)
    (hr' : D.record.RoundTrips r') (heq : chainInput D d r = chainInput D d' r') :
    d = d' ∧ r = r' := by
  obtain ⟨hd, hs⟩ := List.append_inj heq (by rw [d.size, d'.size])
  refine ⟨?_, ?_⟩
  · cases d
    cases d'
    cases hd
    rfl
  · have hstr := congrArg D.record.fromStr (utf8_inj hs)
    rw [hr, hr'] at hstr
    exact Except.ok.inj hstr

/-- A log whose hashes are reused from a chain, without collisions, is a first
part of it. -/
theorem prefix_of_reused {ss : List LogRecord}
    (hlast : rs ≠ [] → chainHead (link D key) genesisPrevHash rs ∈
      chain (link D key) genesisPrevHash ss)
    (hfree : ∀ s ∈ hashedFrom D genesisPrevHash (chainedLines D key genesisPrevHash rs),
      ∀ t ∈ hashedFrom D genesisPrevHash (chainedLines D key genesisPrevHash ss),
        D.mac key.bytes s = D.mac key.bytes t → s = t)
    (hr : genesisPrevHash ∉ chain (link D key) genesisPrevHash rs)
    (hs : genesisPrevHash ∉ chain (link D key) genesisPrevHash ss)
    (hrt : ∀ r ∈ rs, D.record.RoundTrips r) (hst : ∀ r ∈ ss, D.record.RoundTrips r) :
    rs <+: ss := by
  by_cases hnil : rs = []
  · rw [hnil]
    exact List.nil_prefix
  obtain ⟨qs, ⟨ms, rfl⟩, _, hhead⟩ := mem_chain (hlast hnil)
  rw [hashedFrom_chainedLines, hashedFrom_chainedLines, links_append] at hfree
  have hqs : rs = qs := by
    refine eq_of_chainHead_eq (fun x hx y hy heq => ?_) hr (fun hm => hs ?_) hhead
    · have hxy := hfree _ (List.mem_map_of_mem hx) _
        (List.mem_map_of_mem (List.mem_append_left _ hy)) heq
      obtain ⟨h1, h2⟩ := chainInput_inj (hrt _ (mem_of_mem_links hx))
        (hst _ (List.mem_append_left _ (mem_of_mem_links hy))) hxy
      exact Prod.ext h1 h2
    · rw [chain_append]
      exact List.mem_append_left _ hm
  rw [hqs]
  exact List.prefix_append _ _

end

/-! ## Every run -/

namespace World

/-- The running log and every log written are chains under the key on disk. -/
structure Chained (D : Deps) (w : World) : Prop where
  proc : ∀ f ∈ w.proc, f = logOf D f.key f.log ∧ w.disk.key = some f.key.bytes
  wrote : ∀ g ∈ w.wrote, g = logOf D g.key g.log ∧ w.disk.key = some g.key.bytes

variable {D : Deps} {w w' : World} {a : Action} {rep : Reply}

/-- The key an open uses is the one on disk, when there is one. -/
theorem loadOrCreate_key {disk : Disk} {fresh key : Key} {bytes : Bytes}
    (hkey : disk.key = some bytes) (h : loadOrCreate D disk fresh = .ok key) :
    key.bytes = bytes := by
  rw [loadOrCreate, hkey] at h
  simp only [readKey] at h
  split at h
  · cases h
    rfl
  · cases h

/-- An open keeps the key file and serves a chain under it. -/
theorem openIn_key {disk disk' : Disk} {fresh : Key} {io : Write SignerError}
    {outcome : Outcome FileUndoLog} (h : openIn D disk fresh io = (outcome, disk')) :
    (∀ bytes, disk.key = some bytes → disk'.key = some bytes) ∧
      ∀ f, outcome = .ok f → f = logOf D f.key f.log ∧ disk'.key = some f.key.bytes := by
  rcases openIn_cases h with ⟨rfl, hne⟩ | ⟨key, hkey, hrest⟩
  · exact ⟨fun _ hb => hb, fun f hf => absurd hf (hne f)⟩
  have hsame : ∀ bytes, disk.key = some bytes → some key.bytes = some bytes :=
    fun bytes hb => congrArg some (loadOrCreate_key hb hkey)
  rcases hrest with ⟨rfl, hne⟩ | ⟨f, hload, _, hout, hd⟩
  · exact ⟨hsame, fun f hf => absurd hf (hne f)⟩
  have hf := (load_ok hload).1
  have hfkey : f.key = key := by
    rw [hf]
    rfl
  have hdisk : disk'.key = some key.bytes := by
    rcases hd with rfl | ⟨_, rfl⟩ <;> rfl
  refine ⟨fun bytes hb => hdisk.trans (hsame bytes hb), fun f' hf' => ?_⟩
  rw [hout f' hf', hfkey]
  exact ⟨hf, hdisk⟩

theorem Chained.step (hw : Chained D w) (h : w.step D a = some (rep, w')) : Chained D w' := by
  cases a with
  | start fresh io =>
    obtain ⟨hnone, outcome, disk, hopen, hw'⟩ := start_cases h
    obtain ⟨hkeep, hserve⟩ := openIn_key hopen
    have hwrote : ∀ g ∈ w.wrote, g = logOf D g.key g.log ∧ disk.key = some g.key.bytes :=
      fun g hg => ⟨(hw.wrote g hg).1, hkeep _ (hw.wrote g hg).2⟩
    rcases hw' with ⟨f, rfl, _, rfl⟩ | ⟨e, _, _, rfl⟩ | ⟨_, _, rfl⟩
    · refine ⟨?_, hwrote⟩
      rintro p ⟨⟩
      exact hserve f rfl
    · exact ⟨by simp [hnone], hwrote⟩
    · exact ⟨by simp [hnone], hwrote⟩
  | request request now io =>
    obtain ⟨f, hf, ⟨_, _, rfl⟩ | ⟨r, what, s, proc, _, hs, rfl, hproc, _⟩⟩ := request_cases h
    · exact hw
    obtain ⟨hchain, hkey⟩ := hw.proc f hf
    have hpush : f.push D r = logOf D f.key (f.log ++ [r]) := by
      rw [hchain]
      exact push_logOf
    obtain ⟨hdisk, hstore⟩ : s.disk.key = w.disk.key ∧ (s.store = f ∨ s.store = f.push D r) := by
      rcases sealRecord_cases hs with
        ⟨_, hstore, hd | ⟨_, _, _, hd, _⟩⟩ | ⟨hstore, _, _, _, rfl, ⟨_, hd⟩ | hd⟩
      · exact ⟨by rw [hd], .inl hstore⟩
      · exact ⟨by rw [hd], .inl hstore⟩
      · exact ⟨by rw [hd], .inr hstore⟩
      · exact ⟨by rw [hd], .inr hstore⟩
    refine ⟨fun p hp => ?_, fun g hg => ?_⟩
    · rcases hstore with hstore | hstore
      · rw [hproc p hp, hstore]
        exact ⟨hchain, hdisk.trans hkey⟩
      · rw [hproc p hp, hstore, hpush]
        exact ⟨rfl, hdisk.trans hkey⟩
    · have hold : ∀ g ∈ w.wrote, g = logOf D g.key g.log ∧ s.disk.key = some g.key.bytes :=
        fun g hg => ⟨(hw.wrote g hg).1, hdisk.trans (hw.wrote g hg).2⟩
      simp only [written] at hg
      split at hg
      · exact hold g hg
      · rcases List.mem_append.1 hg with hg | hg
        · exact hold g hg
        · rw [List.mem_singleton.1 hg, hpush]
          exact ⟨rfl, hdisk.trans hkey⟩
  | crash =>
    cases h
    exact ⟨by simp, hw.wrote⟩

end World

theorem chained_of_run {D : Deps} {ok : World → Action → Prop} {τ : List (Action × Reply)}
    {w : World} (h : (signer D).Run ok τ w) : w.Chained D := by
  refine h.inv (I := fun _ w => w.Chained D) ⟨by simp [signer], by simp [signer]⟩ ?_
  intro τ w a rep w' hw _ hs
  exact hw.step hs

section

variable {D : Deps} {w : World} {content : Bytes} {fresh : Key} {io : Write SignerError}
  {f : FileUndoLog} {disk disk' : Disk}

/-- The records of a reused file that loads are a prefix of a log the signer
wrote. -/
theorem reused_prefix (hw : w.Chained D) (hreuse : ReusesHashes D w content)
    (hfree : CollisionFree D w content) (hanchor : AnchorFree w)
    (hserde : RecordsRoundTrip D w content) {key : Key}
    (hkey : loadOrCreate D (w.disk.edited content) fresh = .ok key)
    (hload : load D key content = .ok f) :
    f.log = [] ∨ ∃ g ∈ w.wrote, f.log <+: g.log := by
  obtain ⟨_, hlines⟩ := load_ok hload
  by_cases hnil : f.log = []
  · exact .inl hnil
  have hreused : ∀ d ∈ chain (link D key) genesisPrevHash f.log, ∃ g ∈ w.wrote, d ∈ g.hashes := by
    intro d hd
    rw [← map_hash_chainedLines, ← hlines] at hd
    obtain ⟨c, hc, rfl⟩ := List.mem_map.1 hd
    exact hreuse c hc
  have hrecords : ∀ r ∈ f.log, D.record.RoundTrips r := by
    have hmap := @map_record_chainedLines D key f.log genesisPrevHash
    intro r hr
    rw [← hmap, ← hlines] at hr
    obtain ⟨c, hc, rfl⟩ := List.mem_map.1 hr
    exact hserde.1 c hc
  -- the last hash of the file lies on a chain that the signer wrote
  have hlast : chainHead (link D key) genesisPrevHash f.log ∈
      chain (link D key) genesisPrevHash f.log := by
    obtain ⟨qs, r, hqs⟩ := (List.eq_nil_or_concat f.log).resolve_left hnil
    rw [hqs, List.concat_eq_append, chain_snoc, chainHead_snoc]
    simp
  obtain ⟨g, hg, hin⟩ := hreused _ hlast
  obtain ⟨hgchain, hgkey⟩ := hw.wrote g hg
  have hgk : g.key = key := by
    have hedited : (w.disk.edited content).key = some g.key.bytes := hgkey
    exact Key.ext (World.loadOrCreate_key hedited hkey).symm
  rw [hgk] at hgchain
  have hghashes : g.hashes = chain (link D key) genesisPrevHash g.log := by
    rw [hgchain]
    rfl
  have hgfree := hfree g hg
  rw [hlines, hgk, hgchain, lines_logOf] at hgfree
  refine .inr ⟨g, hg, prefix_of_reused (fun _ => hghashes ▸ hin) hgfree ?_ ?_ hrecords ?_⟩
  · intro hz
    obtain ⟨g', hg', hz'⟩ := hreused _ hz
    exact hanchor g' hg' hz'
  · rw [← hghashes]
    exact hanchor g hg
  · exact hserde.2 g hg

/-- An accepted log reaches up to its checkpoint. -/
theorem accepted_count (hopen : openIn D disk fresh io = (.ok f, disk')) :
    (∀ cp, Checkpoint.read D disk = .ok (some cp) → 1 ≤ cp.count ∧ cp.count ≤ f.log.length) ∧
      (disk.checkpoint = none → f.log = []) := by
  obtain ⟨key, _, hload, hclean⟩ := openIn_ok hopen
  rw [(load_ok hload).1] at hclean
  rcases names_of_assess hclean with ⟨hnone, hnil⟩ | ⟨cp, hread, hn⟩
  · have hread : Checkpoint.read D disk = .ok none := read_eq_none.2 hnone
    refine ⟨fun cp hcp => ?_, fun _ => hnil⟩
    rw [hread] at hcp
    cases hcp
  · have hread' : Checkpoint.read D disk = .ok (some cp) := hread
    refine ⟨fun cp' hcp => ?_, fun hnone => ?_⟩
    · rw [hread'] at hcp
      cases hcp
      exact ⟨hn.pos, hn.le⟩
    · rw [read_eq_none.2 hnone] at hread'
      cases hread'

/-- **An accepted log is a prefix of the sealed one.** Take any directory the
signer made, under any faults, and any bytes in place of its log file, with the
checkpoint file as it was. If the file reuses the signer's hashes and collides
with none of its strings, and an open accepts the directory, then the loaded
records are a prefix of a log that the signer wrote; the record the checkpoint
counts up to is among them, and without a checkpoint there are none. Where no
append was cut short or made over a file that memory did not agree with, they
are a prefix of what the signer's own file holds. -/
theorem accepted_is_prefix {τ : List (Action × Reply)}
    (h : (signer D).Run Machine.anyStep τ w) (hreuse : ReusesHashes D w content)
    (hfree : CollisionFree D w content) (hanchor : AnchorFree w)
    (hserde : RecordsRoundTrip D w content)
    (hopen : openIn D (w.disk.edited content) fresh io = (.ok f, disk)) :
    (f.log = [] ∨ ∃ g ∈ w.wrote, f.log <+: g.log) ∧
    (∀ cp, Checkpoint.read D w.disk = .ok (some cp) → 1 ≤ cp.count ∧ cp.count ≤ f.log.length) ∧
    (w.disk.checkpoint = none → f.log = []) ∧
    ((signer D).Run (settled D) τ w → ∃ key own, load D key w.disk.content = .ok own ∧
      f.log <+: own.log) := by
  obtain ⟨key, hkey, hload, _⟩ := openIn_ok hopen
  have hpart := reused_prefix (chained_of_run h) hreuse hfree hanchor hserde hkey hload
  obtain ⟨hcount, hnone⟩ := accepted_count hopen
  refine ⟨hpart, hcount, hnone, fun hsettled => ?_⟩
  obtain ⟨key₀, rs, hk, _, _⟩ := kept_of_run hsettled
  refine ⟨key₀, _, hk.load, ?_⟩
  rcases hpart with hnil | ⟨g, hg, hpre⟩
  · rw [hnil]
    exact List.nil_prefix
  · exact hpre.trans (hk.wrote g hg)

end

/-! ### The small signer's file with a blank line added -/

/-- Blank lines do not count. -/
theorem load_blank_tail {D : Deps} {key : Key} {rs : List LogRecord} (hok : Readable D key rs) :
    load D key (fileOf D key rs ++ utf8 "\n") = .ok (logOf D key rs) := by
  rw [fileOf, ← utf8_append, load, decodeUtf8_utf8]
  simp only [recordLines_file hok, show recordLines "\n" = [] from rfl, List.append_nil,
    loadFrom_chainedLines hok]
  rfl

theorem firstHash_ne_genesis : ¬ genesisPrevHash = firstHash := by
  decide +kernel

/-- The file of the one record, with a blank line after it. -/
def blankEdited : Bytes := fileOf smallSigner smallKey [firstRecord] ++ utf8 "\n"

theorem blankEdited_load :
    load smallSigner smallKey blankEdited = .ok (logOf smallSigner smallKey [firstRecord]) :=
  load_blank_tail readable_first

theorem blankEdited_lines : storedLines smallSigner blankEdited = [⟨firstRecord, firstHash⟩] := by
  rw [(load_ok blankEdited_load).2]
  simp only [logOf, chainedLines, firstHash_eq]

theorem firstLog_lines :
    (logOf smallSigner smallKey [firstRecord]).lines = [⟨firstRecord, firstHash⟩] := by
  rw [lines_logOf]
  simp only [chainedLines, firstHash_eq]

theorem firstLog_hashes : (logOf smallSigner smallKey [firstRecord]).hashes = [firstHash] := by
  simp only [logOf, chain, firstHash_eq]

/-- The assumptions hold of the edited file. -/
theorem blankEdited_assumptions {w : World}
    (hwrote : w.wrote = [logOf smallSigner smallKey [firstRecord]]) :
    ReusesHashes smallSigner w blankEdited ∧ CollisionFree smallSigner w blankEdited ∧
      AnchorFree w ∧ RecordsRoundTrip smallSigner w blankEdited := by
  have hrecord : smallSigner.record.RoundTrips firstRecord := serdeOf_roundTrips _ _
  unfold ReusesHashes CollisionFree AnchorFree RecordsRoundTrip
  simp only [hwrote, blankEdited_lines, List.mem_singleton, forall_eq, exists_eq_left,
    firstLog_hashes, firstLog_lines, hashedFrom]
  refine ⟨trivial, fun _ => trivial, firstHash_ne_genesis, hrecord, fun r hr => ?_⟩
  rw [List.mem_singleton.1 hr]
  exact hrecord

/-- The edited file is accepted, and holds the one sealed record. -/
theorem accepted_is_prefix_blank : ∃ (w : World) (f : FileUndoLog) (disk : Disk),
    openIn smallSigner (w.disk.edited blankEdited) smallKey .done = (.ok f, disk) ∧
      f.log = [firstRecord] ∧ ∃ g ∈ w.wrote, f.log <+: g.log := by
  obtain ⟨τ, w, hrun, _, _, hkey, _, hcp, hwrote⟩ := smallSigner_one
  have hkeyed : loadOrCreate smallSigner (w.disk.edited blankEdited) smallKey = .ok smallKey := by
    simp [loadOrCreate, Disk.edited, hkey, readKey, smallKey]
  have hparse : smallSigner.checkpoint.RoundTrips
      (.ofLog (logOf smallSigner smallKey [firstRecord])) := by
    rw [firstCheckpoint_eq]
    exact serdeOf_roundTrips _ _
  have hread : Checkpoint.read smallSigner ((w.disk.edited blankEdited).prepare smallKey) =
      .ok (some (.ofLog (logOf smallSigner smallKey [firstRecord]))) := read_eq_some hcp hparse
  have hload : load smallSigner smallKey (w.disk.edited blankEdited).content =
      .ok (logOf smallSigner smallKey [firstRecord]) := by
    rw [content_edited]
    exact blankEdited_load
  have hclean := congrArg StartupCheck.isTampered (assess_named hread (names_ofLog (by simp)))
  obtain ⟨disk, hopen⟩ := World.openIn_done hkeyed hload hclean
  have hany : (signer smallSigner).Run Machine.anyStep τ w := hrun.weaken fun _ _ _ => trivial
  obtain ⟨hreuse, hfree, hanchor, hserde⟩ := blankEdited_assumptions hwrote
  obtain ⟨hpart, _⟩ := accepted_is_prefix hany hreuse hfree hanchor hserde hopen
  exact ⟨w, _, disk, hopen, rfl, hpart.resolve_left (List.cons_ne_nil _ _)⟩

end Arlen.Undo
