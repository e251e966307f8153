import Arlen.Undo.Lifecycle

/-!
# Reopening after faults

Under serialisers that undo themselves on what the run serialises (`serdeOk`)
and appends that are `steady`, the log file is the file of some records and the
store in memory holds a first part of them (`World.Kept`). So an open verifies
the chain and recovers every acknowledged record; it refuses in one case only,
a log with records and no checkpoint file yet.
-/

namespace Arlen.Undo

open Arlen.Lib

/-- The serialisers behave on what this step writes and reads back. -/
def serdeOk (D : Deps) (w : World) : Action → Prop
  | .start fresh _ => ∀ key f, loadOrCreate D w.disk fresh = .ok key →
      load D key w.disk.content = .ok f → 0 < f.recordCount → D.checkpoint.RoundTrips (.ofLog f)
  | .request request now _ => ∀ f ∈ w.proc, ∀ r ∈ offered f now request,
      LineOk D ⟨r, computeChainHash D f.key.bytes f.headHash r⟩ ∧
        D.checkpoint.RoundTrips (.ofLog (f.push D r))
  | .crash => True

/-- A record is appended to a file that holds what memory holds, and its line
lands whole or not at all. -/
def steady (D : Deps) (w : World) : Action → Prop
  | .request request now io => ∀ f ∈ w.proc, ∀ r ∈ offered f now request,
      w.disk.log = some (fileOf D f.key f.log) ∧ io.append.Whole (utf8 (f.lineFor D r))
  | _ => True

/-- The guard of the runs considered here. -/
def settled (D : Deps) (w : World) (a : Action) : Prop := serdeOk D w a ∧ steady D w a

namespace World

/-- The log file is that of the records `rs`, memory and every log written so
far hold a first part of them, and the checkpoint file, when there is one, names
one of them. -/
structure Kept (D : Deps) (key : Key) (rs : List LogRecord) (w : World) : Prop where
  keyFile : w.disk.key = some key.bytes ∨ w.disk.key = none ∧ w.proc = none ∧ rs = []
  file : w.disk.content = fileOf D key rs
  readable : Readable D key rs
  proc : ∀ f ∈ w.proc, ∃ qs, qs <+: rs ∧ f = logOf D key qs
  checkpoint : ∀ text ∈ w.disk.checkpoint, ∃ cp,
    D.checkpoint.fromStr text = .ok cp ∧ Names D key rs cp
  wrote : ∀ g ∈ w.wrote, g.log <+: rs

variable {D : Deps} {key : Key} {rs : List LogRecord} {w w' : World} {a : Action} {rep : Reply}

theorem Kept.no_checkpoint (hw : Kept D key [] w) : w.disk.checkpoint = none := by
  refine Option.eq_none_iff_forall_not_mem.2 fun text ht => ?_
  obtain ⟨cp, _, hn⟩ := hw.checkpoint text ht
  have hpos := hn.pos
  have hle := hn.le
  rw [List.length_nil] at hle
  omega

/-- An open uses the key of the log; only an empty log may get a new one. -/
theorem Kept.loadOrCreate (hw : Kept D key rs w) (fresh : Key) :
    ∃ key', loadOrCreate D w.disk fresh = .ok key' ∧ Kept D key' rs w := by
  rcases hw.keyFile with hkey | ⟨hkey, hproc, rfl⟩
  · refine ⟨key, ?_, hw⟩
    simp [Undo.loadOrCreate, hkey, readKey, key.size]
  · refine ⟨fresh, ?_, .inr ⟨hkey, hproc, rfl⟩, ?_, ?_, ?_, ?_, hw.wrote⟩
    · have hfile : w.disk.content = [] := hw.file
      simp [Undo.loadOrCreate, hkey, logHasRecords, hfile]
    · exact hw.file
    · simp [Readable, chainedLines]
    · simp [hproc]
    · simp [hw.no_checkpoint]

theorem Kept.load (hw : Kept D key rs w) : load D key w.disk.content = .ok (logOf D key rs) := by
  rw [hw.file]
  exact load_fileOf hw.readable

theorem fileOf_eq_nil : fileOf D key rs = [] ↔ rs = [] := by
  constructor
  · intro h
    rcases List.eq_nil_or_concat rs with rfl | ⟨qs, r, rfl⟩
    · rfl
    · rw [List.concat_eq_append, fileOf_snoc, List.append_eq_nil_iff] at h
      exact absurd h.2 lineFor_ne_nil
  · rintro rfl
    rfl

/-- The verdict: clean unless there are records and no checkpoint file. -/
theorem Kept.assess_iff (hw : Kept D key rs w) :
    (assess D (w.disk.prepare key) (logOf D key rs)).isTampered = false ↔
      w.disk.content = [] ∨ w.disk.checkpoint.isSome = true := by
  rw [hw.file, fileOf_eq_nil]
  cases hcp : w.disk.checkpoint with
  | none =>
    rw [assess_absent (show (w.disk.prepare key).checkpoint = none from hcp)]
    simp
  | some text =>
    obtain ⟨cp, hparse, hn⟩ := hw.checkpoint text hcp
    have hread : Checkpoint.read D (w.disk.prepare key) = .ok (some cp) := read_eq_some hcp hparse
    simp [assess_named hread hn, StartupCheck.isTampered]

/-- A loaded log with a clean verdict is opened when its checkpoint write goes
through. -/
theorem openIn_done {fresh : Key} {f : FileUndoLog} {disk : Disk}
    (hkey : Undo.loadOrCreate D disk fresh = .ok key) (hload : Undo.load D key disk.content = .ok f)
    (hclean : (assess D (disk.prepare key) f).isTampered = false) :
    ∃ disk', openIn D disk fresh .done = (.ok f, disk') := by
  have hseed : ∃ disk', reseed D (disk.prepare key) f .done = (.ok f, disk') := by
    unfold reseed
    split
    · exact ⟨_, rfl⟩
    · exact ⟨_, rfl⟩
  simp only [openIn, hkey, content_prepare, hload]
  cases hc : assess D (disk.prepare key) f with
  | tampered detail => rw [hc] at hclean; cases hclean
  | genesis => exact hseed
  | consistent => exact hseed

theorem Kept.start (hw : Kept D key rs w) {fresh : Key} {io : Write SignerError}
    (hok : serdeOk D w (.start fresh io)) (h : w.step D (.start fresh io) = some (rep, w')) :
    ∃ key', Kept D key' rs w' ∧ ∀ f ∈ w'.proc, f.log = rs := by
  obtain ⟨hnone, outcome, disk, hopen, hw'⟩ := start_cases h
  obtain ⟨key', hkey', hk⟩ := hw.loadOrCreate fresh
  have hload := hk.load
  -- the disk an open leaves, and the log it serves
  have hdisk : Kept D key' rs ⟨disk, none, w.wrote⟩ ∧ ∀ f, outcome = .ok f →
      f = logOf D key' rs ∧ disk.key = some key'.bytes := by
    rcases openIn_cases hopen with ⟨rfl, hne⟩ | ⟨key₂, hkey₂, hrest⟩
    · refine ⟨⟨?_, hk.file, hk.readable, by simp, hk.checkpoint, hk.wrote⟩, fun f hf => absurd hf (hne f)⟩
      exact hk.keyFile.imp id fun hn => ⟨hn.1, rfl, hn.2.2⟩
    · rw [hkey'] at hkey₂
      cases hkey₂
      rcases hrest with ⟨rfl, hne⟩ | ⟨f, hf, _, hout, hd⟩
      · exact ⟨⟨.inl rfl, hk.file, hk.readable, by simp, hk.checkpoint, hk.wrote⟩,
          fun f hf => absurd hf (hne f)⟩
      · rw [hload] at hf
        cases hf
        rcases hd with rfl | ⟨hpos, rfl⟩
        · exact ⟨⟨.inl rfl, hk.file, hk.readable, by simp, hk.checkpoint, hk.wrote⟩,
            fun f hf => ⟨hout f hf, rfl⟩⟩
        · refine ⟨⟨.inl rfl, hk.file, hk.readable, by simp, ?_, hk.wrote⟩,
            fun f hf => ⟨hout f hf, rfl⟩⟩
          rintro text ⟨⟩
          refine ⟨_, hok key' _ hkey' hload hpos, names_ofLog ?_⟩
          rintro rfl
          simp at hpos
  obtain ⟨hk', hserve⟩ := hdisk
  rcases hw' with ⟨f, rfl, _, rfl⟩ | ⟨e, _, _, rfl⟩ | ⟨_, _, rfl⟩
  · obtain ⟨rfl, hkey⟩ := hserve f rfl
    refine ⟨key', ⟨.inl hkey, hk'.file, hk'.readable, ?_, hk'.checkpoint, hk'.wrote⟩, ?_⟩
    · rintro f ⟨⟩
      exact ⟨rs, List.prefix_refl _, rfl⟩
    · rintro f ⟨⟩
      rfl
  · refine ⟨key', ⟨?_, hk'.file, hk'.readable, by simp [hnone], hk'.checkpoint, hk'.wrote⟩, by simp [hnone]⟩
    exact hk'.keyFile.imp id fun hn => ⟨hn.1, hnone, hn.2.2⟩
  · refine ⟨key', ⟨?_, hk'.file, hk'.readable, by simp [hnone], hk'.checkpoint, hk'.wrote⟩, by simp [hnone]⟩
    exact hk'.keyFile.imp id fun hn => ⟨hn.1, hnone, hn.2.2⟩

theorem prefix_fileOf (D : Deps) (key : Key) (qs ms : List LogRecord) :
    fileOf D key qs <+: fileOf D key (qs ++ ms) := by
  induction ms using List.reverseRecOn with
  | nil => simp
  | append_singleton ms r ih =>
    rw [← List.append_assoc, fileOf_snoc]
    exact ih.trans (List.prefix_append _ _)

/-- Logs that extend each other and have one file are the same. -/
theorem eq_of_fileOf_eq {qs : List LogRecord} (hpre : qs <+: rs)
    (h : fileOf D key rs = fileOf D key qs) : rs = qs := by
  obtain ⟨ms, rfl⟩ := hpre
  rcases List.eq_nil_or_concat ms with rfl | ⟨ms', r, rfl⟩
  · simp
  · have hle := (prefix_fileOf D key qs ms').length_le
    rw [List.concat_eq_append, ← List.append_assoc, fileOf_snoc] at h
    have hlen := congrArg List.length h
    have hpos := List.length_pos_iff.2
      (lineFor_ne_nil (D := D) (f := logOf D key (qs ++ ms')) (r := r))
    rw [List.length_append] at hlen
    omega

/-- A sealing by a store that is in step with its file: the file is left that
way, with or without the record; the record is acknowledged only when it is in
memory and in the file, and the checkpoint is at it. -/
theorem sealRecord_steady {what : String} {disk : Disk} {r : LogRecord} {io : SealIo} {s : Sealed}
    (hlog : disk.log = some (fileOf D key rs))
    (hwhole : io.append.Whole (utf8 ((logOf D key rs).lineFor D r)))
    (h : sealRecord D what disk (logOf D key rs) r io = s) :
    ∃ ts, (ts = [] ∨ ts = [r]) ∧ s.disk.key = disk.key ∧
      s.disk.log = some (fileOf D key (rs ++ ts)) ∧
      (s.outcome ≠ .ok () ∧ s.store = logOf D key rs ∧ s.disk.checkpoint = disk.checkpoint ∨
        ts = [r] ∧ s.store = logOf D key (rs ++ ts) ∧
          (s.disk.checkpoint = disk.checkpoint ∨ s.disk.checkpoint =
            some (D.checkpoint.toStr (.ofLog (logOf D key (rs ++ ts)))))) := by
  rcases sealRecord_cases h with
    ⟨hout, hstore, hd | ⟨content, kept, hlog', hd, hk⟩⟩ | ⟨hstore, content, disk', hlog', rfl, hd⟩
  · exact ⟨[], .inl rfl, by rw [hd], by rw [hd, hlog, List.append_nil],
      .inl ⟨hout, hstore, by rw [hd]⟩⟩
  · rw [hlog] at hlog'
    cases hlog'
    rcases AppendWrite.take_whole (hk hwhole) (fileOf D key rs) with htake | htake
    · exact ⟨[], .inl rfl, by rw [hd], by rw [hd, htake, List.append_nil],
        .inl ⟨hout, hstore, by rw [hd]⟩⟩
    · exact ⟨[r], .inr rfl, by rw [hd], by rw [hd, htake, fileOf_snoc],
        .inl ⟨hout, hstore, by rw [hd]⟩⟩
  · rw [hlog] at hlog'
    cases hlog'
    rw [push_logOf] at hstore hd
    rcases hd with ⟨_, hd⟩ | hd
    · exact ⟨[r], .inr rfl, by rw [hd], by rw [hd, fileOf_snoc],
        .inr ⟨rfl, hstore, .inl (by rw [hd])⟩⟩
    · exact ⟨[r], .inr rfl, by rw [hd], by rw [hd, fileOf_snoc],
        .inr ⟨rfl, hstore, .inr (by rw [hd])⟩⟩

/-- A running store has its key on disk. -/
theorem Kept.key_of_proc (hw : Kept D key rs w) {f : FileUndoLog} (hf : w.proc = some f) :
    w.disk.key = some key.bytes := by
  rcases hw.keyFile with h | ⟨_, hnone, _⟩
  · exact h
  · rw [hf] at hnone
    cases hnone

theorem Kept.request (hw : Kept D key rs w) {request : Request} {now : Option Nat} {io : SealIo}
    (hok : settled D w (.request request now io))
    (h : w.step D (.request request now io) = some (rep, w')) :
    ∃ ts, Kept D key (rs ++ ts) w' ∧
      ((∀ f' ∈ w'.proc, f'.log = rs ++ ts) ∧ request.record now = ts.head? ∧ ts.length = 1 ∨
        rep ≠ .response .sealed ∧ ∀ f' ∈ w'.proc, ∃ f ∈ w.proc, f'.log = f.log) := by
  obtain ⟨f, hf, ⟨_, hrep, rfl⟩ | ⟨r, what, s, proc, hoff, hs, rfl, hproc, hack⟩⟩ := request_cases h
  · exact ⟨[], by simpa using hw, .inr ⟨hrep, fun f' hf' => ⟨f', hf', rfl⟩⟩⟩
  obtain ⟨qs, hpre, rfl⟩ := hw.proc f hf
  obtain ⟨hline, hcp⟩ := hok.1 _ hf r hoff
  have hsync : w.disk.log = some (fileOf D key qs) := (hok.2 _ hf r hoff).1
  have hwhole := (hok.2 _ hf r hoff).2
  -- memory has all the records of the file
  have hqs : rs = qs := by
    have hfile : fileOf D key rs = fileOf D key qs := by
      rw [← hw.file, Disk.content, hsync, Option.getD_some]
    exact eq_of_fileOf_eq hpre hfile
  subst hqs
  obtain ⟨ts, hts, hkey, hlog, hcases⟩ := sealRecord_steady hsync hwhole hs
  have hread : Readable D key (rs ++ ts) := by
    rcases hts with rfl | rfl
    · simpa using hw.readable
    · refine readable_snoc.2 ⟨hw.readable, ?_⟩
      rw [headHash_logOf] at hline
      exact hline
  have hold : ∀ text ∈ w.disk.checkpoint, ∃ cp,
      D.checkpoint.fromStr text = .ok cp ∧ Names D key (rs ++ ts) cp := by
    intro text ht
    obtain ⟨cp, hparse, hn⟩ := hw.checkpoint text ht
    exact ⟨cp, hparse, hn.append ts⟩
  have hfile : s.disk.content = fileOf D key (rs ++ ts) := by simp [Disk.content, hlog]
  have hwrote : ∀ g ∈ w.written D (logOf D key rs) (some r) s.disk, g.log <+: rs ++ ts := by
    intro g hg
    have hbefore : ∀ g ∈ w.wrote, g.log <+: rs ++ ts :=
      fun g hg => (hw.wrote g hg).trans (List.prefix_append _ _)
    simp only [written, hlog, hsync] at hg
    rcases hts with rfl | rfl
    · rw [List.append_nil, if_pos rfl] at hg
      exact hbefore g hg
    · rw [if_neg (by simpa using fileOf_snoc_ne), List.mem_append, List.mem_singleton] at hg
      rcases hg with hg | rfl
      · exact hbefore g hg
      · rw [push_logOf]
        exact List.prefix_refl _
  have hkey' : s.disk.key = some key.bytes := hkey.trans (hw.key_of_proc hf)
  refine ⟨ts, ?_⟩
  rcases hcases with ⟨hout, hstore, hcp'⟩ | ⟨rfl, hstore, hcp'⟩
  · refine ⟨⟨.inl hkey', hfile, hread, fun f' hf' => ?_, by rw [hcp']; exact hold, hwrote⟩,
      .inr ⟨?_, ?_⟩⟩
    · exact ⟨rs, List.prefix_append _ _, by rw [hproc f' hf', hstore]⟩
    · exact fun hrep => hout (hack hrep)
    · exact fun f' hf' => ⟨_, hf, by rw [hproc f' hf', hstore]⟩
  · refine ⟨⟨.inl hkey', hfile, hread, fun f' hf' => ?_, ?_, hwrote⟩,
      .inl ⟨fun f' hf' => ?_, ?_, rfl⟩⟩
    · exact ⟨rs ++ [r], List.prefix_refl _, by rw [hproc f' hf', hstore]⟩
    · rcases hcp' with hcp' | hcp'
      · rw [hcp']
        exact hold
      · rw [hcp']
        rintro text ⟨⟩
        rw [push_logOf] at hcp
        exact ⟨_, hcp, names_ofLog (by simp)⟩
    · rw [hproc f' hf', hstore]
      rfl
    · exact record_of_offered hoff

/-- **Every step keeps the file in order**, and the records acknowledged so far
in memory and in the file. -/
theorem Kept.step {ls : List LogRecord} (hw : Kept D key rs w) (hfile : ls.Sublist rs)
    (hmem : ∀ f ∈ w.proc, ls.Sublist f.log) (hok : settled D w a)
    (h : w.step D a = some (rep, w')) :
    ∃ key' rs', Kept D key' rs' w' ∧ (ls ++ (ackedBy a rep).toList).Sublist rs' ∧
      ∀ f ∈ w'.proc, (ls ++ (ackedBy a rep).toList).Sublist f.log := by
  cases a with
  | start fresh io =>
    obtain ⟨key', hk, hlog⟩ := hw.start hok.1 h
    refine ⟨key', rs, hk, by simpa [ackedBy] using hfile, fun f hf => ?_⟩
    rw [hlog f hf]
    simpa [ackedBy] using hfile
  | request request now io =>
    obtain ⟨ts, hk, ⟨hlog, hrec, hlen⟩ | ⟨hrep, hlog⟩⟩ := hw.request hok h
    · obtain ⟨r, rfl⟩ := List.length_eq_one_iff.1 hlen
      have hack : (ackedBy (.request request now io) rep).toList.Sublist [r] := by
        by_cases hrep : rep = .response .sealed
        · rw [hrep, ackedBy, hrec]
          exact List.Sublist.refl _
        · simp [ackedBy_of_ne hrep]
      refine ⟨key, rs ++ [r], hk, hfile.append hack, fun f hf => ?_⟩
      rw [hlog f hf]
      exact hfile.append hack
    · rw [ackedBy_of_ne hrep, Option.toList_none, List.append_nil]
      refine ⟨key, rs ++ ts, hk, hfile.trans (List.sublist_append_left _ _), fun f hf => ?_⟩
      obtain ⟨f', hf', heq⟩ := hlog f hf
      rw [heq]
      exact hmem f' hf'
  | crash =>
    cases h
    refine ⟨key, rs, ⟨?_, hw.file, hw.readable, by simp, hw.checkpoint, hw.wrote⟩,
      by simpa [ackedBy] using hfile, by simp⟩
    exact hw.keyFile.imp id fun hn => ⟨hn.1, rfl, hn.2.2⟩

end World

theorem kept_of_run {D : Deps} {τ : List (Action × Reply)} {w : World}
    (h : (signer D).Run (settled D) τ w) :
    ∃ key rs, w.Kept D key rs ∧ (acked τ).Sublist rs ∧ ∀ f ∈ w.proc, (acked τ).Sublist f.log := by
  refine h.inv (I := fun τ w => ∃ key rs, w.Kept D key rs ∧ (acked τ).Sublist rs ∧
    ∀ f ∈ w.proc, (acked τ).Sublist f.log) ?_ ?_
  · refine ⟨⟨List.replicate 32 0, rfl⟩, [], ⟨.inr ⟨rfl, rfl, rfl⟩, rfl, ?_, ?_, ?_, ?_⟩, ?_, ?_⟩
    · simp [Readable, chainedLines]
    all_goals simp [signer, acked]
  · rintro τ w a rep w' ⟨key, rs, hw, hfile, hmem⟩ hok hs
    rw [acked_snoc]
    exact hw.step hfile hmem hok hs

/-- **Reopening.** In every run whose appends land whole or not at all, each on
top of a file that memory agrees with, under any crashes and any failed writes,
fsyncs and checkpoint writes: an open of the directory succeeds exactly when the
log is empty or there is a checkpoint file; and a log that an open returns has
verified, passes the checkpoint, and contains every acknowledged record in
order. -/
theorem reopen_iff {D : Deps} {τ : List (Action × Reply)} {w : World}
    (h : (signer D).Run (settled D) τ w) (fresh : Key) :
    ((∃ f disk, openIn D w.disk fresh .done = (.ok f, disk)) ↔
      w.disk.content = [] ∨ w.disk.checkpoint.isSome = true) ∧
    ∀ io f disk, openIn D w.disk fresh io = (.ok f, disk) → (acked τ).Sublist f.log ∧
      ∃ key, load D key w.disk.content = .ok f ∧
        (assess D (w.disk.prepare key) f).isTampered = false := by
  obtain ⟨key₀, rs, hw₀, hfile, _⟩ := kept_of_run h
  obtain ⟨key, hkey, hw⟩ := hw₀.loadOrCreate fresh
  have hload := hw.load
  -- what an open returns is the log of the file, accepted
  have hopened : ∀ io f disk, openIn D w.disk fresh io = (.ok f, disk) →
      f = logOf D key rs ∧ (assess D (w.disk.prepare key) f).isTampered = false := by
    intro io f disk hopen
    obtain ⟨key', hkey', hload', hclean⟩ := openIn_ok hopen
    rw [hkey] at hkey'
    cases hkey'
    rw [hload] at hload'
    cases hload'
    exact ⟨rfl, hclean⟩
  refine ⟨⟨?_, fun hcond => ?_⟩, ?_⟩
  · rintro ⟨f, disk, hopen⟩
    obtain ⟨rfl, hclean⟩ := hopened _ f disk hopen
    exact hw.assess_iff.1 hclean
  · obtain ⟨disk, hopen⟩ := World.openIn_done hkey hload (hw.assess_iff.2 hcond)
    exact ⟨_, disk, hopen⟩
  · intro io f disk hopen
    obtain ⟨rfl, hclean⟩ := hopened io f disk hopen
    exact ⟨hfile, key, hload, hclean⟩

/-! ### The small signer's file -/

/-- No line break among these characters. -/
def plain (cs : List Char) : Bool := cs.all fun c => c != '\n' && c != '\r'

theorem plain_append (cs ds : List Char) : plain (cs ++ ds) = (plain cs && plain ds) := by
  simp [plain]

theorem plain_decimalDigit (n : Nat) : plain [decimalDigit n] = true := by
  have hlt : n % 10 < 10 := Nat.mod_lt _ (by decide)
  unfold decimalDigit
  generalize n % 10 = m at hlt
  revert m
  decide

theorem plain_decimal (b : UInt8) : plain (decimal b) = true := by
  have htwo : ∀ m n, plain [decimalDigit m, decimalDigit n] = true := fun m n =>
    (plain_append [_] [_]).trans (by rw [plain_decimalDigit, plain_decimalDigit]; rfl)
  unfold decimal
  simp only
  split
  · exact plain_decimalDigit _
  · split
    · exact htwo _ _
    · exact (plain_append [_] [_, _]).trans (by rw [plain_decimalDigit, htwo]; rfl)

/-- The digits of a hash hold no line break. -/
theorem plain_decimals (bs : Bytes) : plain (decimals bs) = true := by
  induction bs using decimals.induct with
  | case1 => rfl
  | case2 b => exact plain_decimal b
  | case3 b b' bs ih =>
    rw [decimals, show ',' :: decimals (b' :: bs) = [','] ++ decimals (b' :: bs) from rfl,
      plain_append, plain_append, plain_decimal, ih]
    rfl

theorem plain_printLine (h : Digest) : plain (printLine ⟨firstRecord, h⟩).toList = true := by
  have hrecord : plain (printRecord firstRecord).toList = true := by decide +kernel
  simp only [printLine, String.toList_append, String.toList_ofList, plain_append, hrecord,
    plain_decimals, Bool.and_true]
  decide

theorem printLine_oneLine (h : Digest) : OneLine (printLine ⟨firstRecord, h⟩) := by
  have hplain : ∀ c ∈ (printLine ⟨firstRecord, h⟩).toList, c ≠ '\n' ∧ c ≠ '\r' := by
    intro c hc
    simpa using List.all_eq_true.1 (plain_printLine h) c hc
  refine ⟨fun hm => (hplain _ hm).1 rfl, fun hm => (hplain _ hm).2 rfl, ?_⟩
  -- the line begins with a brace
  have hbrace : "\x7b\"record\":".toList.all isWhitespace = false := by decide
  simp only [isBlank, printLine, String.toList_append, List.all_append, hbrace, Bool.false_and]

theorem firstHash_eq : link smallSigner smallKey genesisPrevHash firstRecord = firstHash := by
  simp only [link, computeChainHash, chainInput, smallSigner, serdeOf, firstHash]

theorem firstLine_ok : LineOk smallSigner ⟨firstRecord, firstHash⟩ :=
  ⟨serdeOf_roundTrips _ _, printLine_oneLine _⟩

theorem firstCheckpoint_eq :
    Checkpoint.ofLog (logOf smallSigner smallKey [firstRecord]) = ⟨1, hex firstHash.bytes⟩ := by
  simp only [Checkpoint.ofLog, recordCount_logOf, headHash_logOf, chainHead_cons, chainHead_nil,
    firstHash_eq, List.length_singleton]

theorem readable_first : Readable smallSigner smallKey [firstRecord] := by
  intro c hc
  rw [chainedLines, firstHash_eq, chainedLines, List.mem_singleton] at hc
  exact hc ▸ firstLine_ok

/-- The first operation is created and acknowledged. -/
theorem smallSigner_one : ∃ τ w, (signer smallSigner).Run (settled smallSigner) τ w ∧
    acked τ = [firstRecord] ∧ w.proc = some (logOf smallSigner smallKey [firstRecord]) ∧
    w.disk.key = some smallKey.bytes ∧
    w.disk.log = some (fileOf smallSigner smallKey [firstRecord]) ∧
    w.disk.checkpoint = some (smallSigner.checkpoint.toStr
      (.ofLog (logOf smallSigner smallKey [firstRecord]))) ∧
    w.wrote = [logOf smallSigner smallKey [firstRecord]] := by
  have h0 := step_start smallSigner smallKey
  obtain ⟨w1, h1, hp1, hd1, hw1⟩ := step_submit smallSigner (some 1000) (w :=
    { disk := Disk.prepare {} smallKey, proc := some (logOf smallSigner smallKey []) }) rfl rfl
    (show UndoLog.entry [] (sampleEntry "op-1").opId = none from rfl)
  have hopened : (signer smallSigner).Run (settled smallSigner) [(.start smallKey .done, .opened)]
      { disk := Disk.prepare {} smallKey, proc := some (logOf smallSigner smallKey []) } := by
    refine .step .start ⟨?_, trivial⟩ h0
    intro key f _ hload hpos
    rw [show (signer smallSigner).init.disk.content = [] from rfl, load_nil] at hload
    cases hload
    simp at hpos
  have hok : settled smallSigner
      { disk := Disk.prepare {} smallKey, proc := some (logOf smallSigner smallKey []) }
      (.request (.submitCreated (sampleEntry "op-1")) (some 1000) {}) := by
    refine ⟨?_, ?_⟩
    · rintro f ⟨⟩ r ⟨⟩
      rw [← firstRecord, push_logOf, headHash_logOf, chainHead_nil, List.nil_append,
        firstCheckpoint_eq]
      have hhash : computeChainHash smallSigner (logOf smallSigner smallKey []).key.bytes
        genesisPrevHash firstRecord = firstHash := firstHash_eq
      rw [hhash]
      exact ⟨firstLine_ok, serdeOf_roundTrips _ _⟩
    · rintro f ⟨⟩ r ⟨⟩
      exact ⟨rfl, trivial⟩
  rw [push_logOf, List.nil_append, ← firstRecord] at hp1 hd1 hw1
  refine ⟨_, w1, hopened.step hok h1, rfl, hp1, by rw [hd1]; rfl, ?_, by rw [hd1], hw1⟩
  rw [hd1, show [firstRecord] = [] ++ [firstRecord] from rfl, fileOf_snoc]
  rfl

theorem reopen_iff_one : ∃ f disk disk', openIn smallSigner disk smallKey .done = (.ok f, disk') ∧
    firstRecord ∈ f.log := by
  obtain ⟨τ, w, hrun, hacked, _, _, _, hcp, _⟩ := smallSigner_one
  obtain ⟨hiff, hlog⟩ := reopen_iff hrun smallKey
  obtain ⟨f, disk', hopen⟩ := hiff.2 (.inr (by simp [hcp]))
  have hsub := (hlog _ f disk' hopen).1
  rw [hacked] at hsub
  exact ⟨f, w.disk, disk', hopen, List.singleton_sublist.1 hsub⟩

/-- The bytes of a line begin with a brace. -/
theorem lineFor_take_one (f : FileUndoLog) (r : LogRecord) :
    (utf8 (f.lineFor smallSigner r)).take 1 = utf8 "\x7b" := by
  have hsplit : "\x7b\"record\":" = "\x7b" ++ "\"record\":" := rfl
  simp only [FileUndoLog.lineFor, smallSigner, serdeOf, printLine, hsplit, utf8_append,
    List.append_assoc]
  exact List.take_left' rfl

theorem brace_unparsed :
    smallSigner.line.fromStr "\x7b" = .error "expected value at line 1 column 1" := by
  simp only [smallSigner, serdeOf]
  refine if_neg fun heq => ?_
  have hlen := congrArg (fun s => s.toList.length) heq
  simp only [printLine, String.toList_append, List.length_append,
    show "\x7b".toList.length = 1 from rfl, show "\x7b\"record\":".toList.length = 10 from rfl] at hlen
  omega

/-- One acknowledged record, then a crash one byte into the next line: no open
succeeds any more. -/
theorem reopen_after_torn_line : ∃ τ w, (signer smallSigner).Run Machine.anyStep τ w ∧
    acked τ = [firstRecord] ∧
    ∀ fresh io, ∃ e, (openIn smallSigner w.disk fresh io).1 = .error e := by
  obtain ⟨τ, w, hrun, hacked, hproc, hkey, hlog, _⟩ := smallSigner_one
  obtain ⟨w', hs, hd⟩ := step_submit_torn smallSigner (some 2000) 1 hproc hlog
    (show UndoLog.entry [firstRecord] (sampleEntry "op-2").opId = none by decide)
  have hany : (signer smallSigner).Run Machine.anyStep τ w := hrun.weaken fun _ _ _ => trivial
  refine ⟨_, w', hany.step trivial hs, by rw [acked_snoc, hacked]; rfl, fun fresh io => ?_⟩
  rw [lineFor_take_one] at hd
  have hload : loadOrCreate smallSigner w'.disk fresh = .ok smallKey := by
    rw [hd]
    simp [loadOrCreate, hkey, readKey, smallKey]
  have hcontent : w'.disk.content = fileOf smallSigner smallKey [firstRecord] ++ utf8 "\x7b" := by
    rw [hd]
    rfl
  have htorn := load_torn readable_first (show recordLines "\x7b" = ["\x7b"] from rfl) brace_unparsed
  rw [← hcontent] at htorn
  simp [openIn, hload, htorn]

end Arlen.Undo
