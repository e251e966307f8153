import Arlen.Undo.Store

/-!
# The chain a store builds

`logOf D key rs` is the log after the records `rs`, and `fileOf D key rs` the
bytes it has written. The file loads back as that log, whatever loads is the log
of its own records, and the startup check accepts a log exactly when there is a
checkpoint naming one of its records, or neither records nor a checkpoint.
-/

namespace Arlen.Undo

open Arlen.Lib

/-- The hash of a record on top of the one before, under a key. -/
def link (D : Deps) (key : Key) : Digest → LogRecord → Digest := computeChainHash D key.bytes

/-- The log after these records. -/
def logOf (D : Deps) (key : Key) (rs : List LogRecord) : FileUndoLog where
  key := key
  hashes := chain (link D key) genesisPrevHash rs
  log := rs

section

variable {D : Deps} {key : Key} {rs ss : List LogRecord} {r : LogRecord} {f : FileUndoLog}
  {disk : Disk}

@[simp] theorem recordCount_logOf : (logOf D key rs).recordCount = rs.length := by
  simp [FileUndoLog.recordCount, logOf]

@[simp] theorem headHash_logOf :
    (logOf D key rs).headHash = chainHead (link D key) genesisPrevHash rs :=
  getLastD_chain

@[simp] theorem push_logOf : (logOf D key rs).push D r = logOf D key (rs ++ [r]) := by
  simp only [FileUndoLog.push, headHash_logOf]
  simp [logOf, link]

/-! ## The file -/

/-- The lines of a log, from the head before them. -/
def chainedLines (D : Deps) (key : Key) : Digest → List LogRecord → List ChainedLine
  | _, [] => []
  | h, r :: rs => ⟨r, link D key h r⟩ :: chainedLines D key (link D key h r) rs

/-- The bytes of a log file with these records. -/
def fileOf (D : Deps) (key : Key) (rs : List LogRecord) : Bytes :=
  utf8 (textOf ((chainedLines D key genesisPrevHash rs).map D.line.toStr))

theorem chainedLines_snoc (h : Digest) : chainedLines D key h (rs ++ [r]) =
    chainedLines D key h rs ++ [⟨r, link D key (chainHead (link D key) h rs) r⟩] := by
  induction rs generalizing h with
  | nil => rfl
  | cons r' rs ih => simp [chainedLines, ih]

theorem fileOf_snoc : fileOf D key (rs ++ [r]) =
    fileOf D key rs ++ utf8 ((logOf D key rs).lineFor D r) := by
  unfold fileOf FileUndoLog.lineFor
  rw [chainedLines_snoc, List.map_append, textOf_append, utf8_append, headHash_logOf]
  simp [textOf, logOf, link]

@[simp] theorem fileOf_nil : fileOf D key [] = [] := rfl

theorem lineFor_ne_nil : utf8 (f.lineFor D r) ≠ [] := by
  intro h
  have hempty : f.lineFor D r = "" := utf8_inj (h.trans rfl)
  have := congrArg (fun s => s.toList.length) hempty
  simp [FileUndoLog.lineFor] at this

/-- A file with another record is another file. -/
theorem fileOf_snoc_ne : fileOf D key (rs ++ [r]) ≠ fileOf D key rs := by
  intro h
  rw [fileOf_snoc, List.append_right_eq_self] at h
  exact lineFor_ne_nil h

/-- The serialiser undoes itself on a line and keeps it on one line. -/
structure LineOk (D : Deps) (c : ChainedLine) : Prop where
  roundTrips : D.line.RoundTrips c
  oneLine : OneLine (D.line.toStr c)

/-- Every line of the log's file is well formed. -/
def Readable (D : Deps) (key : Key) (rs : List LogRecord) : Prop :=
  ∀ c ∈ chainedLines D key genesisPrevHash rs, LineOk D c

theorem readable_snoc : Readable D key (rs ++ [r]) ↔ Readable D key rs ∧
    LineOk D ⟨r, link D key (chainHead (link D key) genesisPrevHash rs) r⟩ := by
  unfold Readable
  rw [chainedLines_snoc]
  simp [or_imp, forall_and]

theorem loadFrom_chainedLines {h : Digest} {i : Nat}
    (hok : ∀ c ∈ chainedLines D key h rs, LineOk D c) :
    loadFrom D key.bytes i h ((chainedLines D key h rs).map D.line.toStr) =
      .ok (rs, chain (link D key) h rs) := by
  induction rs generalizing h i with
  | nil => rfl
  | cons r rs ih =>
    have hline := (hok _ List.mem_cons_self).roundTrips
    unfold Serde.RoundTrips at hline
    have hrec := ih (h := link D key h r) (i := i + 1)
      fun c hc => hok c (List.mem_cons_of_mem _ hc)
    have hlink : computeChainHash D key.bytes h r = link D key h r := rfl
    simp only [chainedLines, List.map_cons, loadFrom, hline, chain, hlink, hrec, ne_eq,
      not_true_eq_false, ↓reduceIte]

/-- The lines of a log's file are its own, whatever follows. -/
theorem recordLines_file (hok : Readable D key rs) (t : String) :
    recordLines (textOf ((chainedLines D key genesisPrevHash rs).map D.line.toStr) ++ t) =
      (chainedLines D key genesisPrevHash rs).map D.line.toStr ++ recordLines t := by
  have hone : ∀ l ∈ (chainedLines D key genesisPrevHash rs).map D.line.toStr, OneLine l := by
    intro l hl
    obtain ⟨c, hc, rfl⟩ := List.mem_map.1 hl
    exact (hok c hc).oneLine
  rw [recordLines, lines_textOf hone, List.filter_append]
  refine congrArg (· ++ recordLines t) (List.filter_eq_self.2 fun l hl => ?_)
  simp [(hone l hl).notBlank]

/-- **The file loads back** as the log that wrote it. -/
theorem load_fileOf (hok : Readable D key rs) :
    load D key (fileOf D key rs) = .ok (logOf D key rs) := by
  have hlines := recordLines_file hok ""
  rw [String.append_empty, show recordLines "" = [] from rfl, List.append_nil] at hlines
  simp only [load, fileOf, decodeUtf8_utf8, hlines, loadFrom_chainedLines hok]
  rfl

theorem loadFrom_torn {h : Digest} {i : Nat} (hok : ∀ c ∈ chainedLines D key h rs, LineOk D c)
    {tail e : String} (ht : D.line.fromStr tail = .error e) :
    loadFrom D key.bytes i h ((chainedLines D key h rs).map D.line.toStr ++ [tail]) = .error e := by
  induction rs generalizing h i with
  | nil => simp [chainedLines, loadFrom, ht]
  | cons r rs ih =>
    have hline := (hok _ List.mem_cons_self).roundTrips
    unfold Serde.RoundTrips at hline
    have hrec := ih (h := link D key h r) (i := i + 1)
      fun c hc => hok c (List.mem_cons_of_mem _ hc)
    have hlink : computeChainHash D key.bytes h r = link D key h r := rfl
    simp only [chainedLines, List.map_cons, List.cons_append, loadFrom, hline, hlink, hrec, ne_eq,
      not_true_eq_false, ↓reduceIte]

/-- A file that ends in a line which does not parse is refused. -/
theorem load_torn (hok : Readable D key rs) {tail e : String} (hline : recordLines tail = [tail])
    (ht : D.line.fromStr tail = .error e) :
    load D key (fileOf D key rs ++ utf8 tail) = .error e := by
  rw [fileOf, ← utf8_append, load, decodeUtf8_utf8]
  simp only [recordLines_file hok, hline, loadFrom_torn hok ht]

/-- The lines of a log file that parse. -/
def storedLines (D : Deps) (content : Bytes) : List ChainedLine :=
  match decodeUtf8 content with
  | none => []
  | some text => (recordLines text).filterMap fun l => (D.line.fromStr l).toOption

/-- What the walk has checked: every line parses, to a record with its hash on
top of the hash before. -/
theorem loadFrom_ok {h : Digest} {i : Nat} {ls : List String} {hashes : List Digest}
    (hl : loadFrom D key.bytes i h ls = .ok (rs, hashes)) :
    hashes = chain (link D key) h rs ∧
      ls.filterMap (fun l => (D.line.fromStr l).toOption) = chainedLines D key h rs := by
  induction ls generalizing h i rs hashes with
  | nil =>
    cases hl
    exact ⟨rfl, rfl⟩
  | cons l ls ih =>
    simp only [loadFrom] at hl
    split at hl
    · cases hl
    · next chained hparse =>
      split at hl
      · cases hl
      · next hhash =>
        have hlink : link D key h chained.record = chained.hash := by
          simpa [link] using hhash
        split at hl
        · cases hl
        · next rs' hs' hrec =>
          cases hl
          obtain ⟨hhashes, hlines⟩ := ih hrec
          refine ⟨by rw [chain, hlink, hhashes], ?_⟩
          rw [List.filterMap_cons, hparse, chainedLines, hlink]
          exact congrArg (chained :: ·) hlines

/-- **Whatever loads is a chain**: the log of its own records, line by line. -/
theorem load_ok {content : Bytes} (h : load D key content = .ok f) :
    f = logOf D key f.log ∧ storedLines D content = chainedLines D key genesisPrevHash f.log := by
  unfold load at h
  split at h
  · cases h
  · next text htext =>
    split at h
    · cases h
    · next rs hs hload =>
      cases h
      obtain ⟨rfl, hlines⟩ := loadFrom_ok hload
      refine ⟨rfl, ?_⟩
      simp only [storedLines, htext]
      exact hlines

@[simp] theorem load_nil : load D key [] = .ok (logOf D key []) := by
  have hok : Readable D key [] := by simp [Readable, chainedLines]
  exact load_fileOf hok

/-! ## The startup check -/

/-- The checkpoint names a record of the log and carries its hash. -/
structure Names (D : Deps) (key : Key) (rs : List LogRecord) (cp : Checkpoint) : Prop where
  pos : 1 ≤ cp.count
  le : cp.count ≤ rs.length
  head : cp.headHex = hex (chainHead (link D key) genesisPrevHash (rs.take cp.count)).bytes

theorem Names.append {cp : Checkpoint} (h : Names D key rs cp) (ss : List LogRecord) :
    Names D key (rs ++ ss) cp := by
  refine ⟨h.pos, ?_, ?_⟩
  · rw [List.length_append]
    exact Nat.le_add_right_of_le h.le
  · rw [List.take_append_of_le_length h.le]
    exact h.head

theorem names_ofLog (h : rs ≠ []) : Names D key rs (.ofLog (logOf D key rs)) := by
  refine ⟨?_, ?_, ?_⟩
  · simpa [Checkpoint.ofLog] using Nat.succ_le_of_lt (List.length_pos_iff.2 h)
  · simp [Checkpoint.ofLog]
  · simp [Checkpoint.ofLog]

theorem hashAt_logOf {n : Nat} (hpos : 1 ≤ n) (hle : n ≤ rs.length) :
    (logOf D key rs).hashAt (n - 1) =
      some (chainHead (link D key) genesisPrevHash (rs.take n)) := by
  have hlt : n - 1 < rs.length := by omega
  have hat := @getElem?_chain _ _ (link D key) genesisPrevHash rs _ hlt
  rw [Nat.sub_add_cancel hpos] at hat
  exact hat

theorem assess_named {cp : Checkpoint} (hread : Checkpoint.read D disk = .ok (some cp))
    (hn : Names D key rs cp) : assess D disk (logOf D key rs) = .consistent := by
  simp [assess, hread, Checkpoint.headAt, hn.pos, hashAt_logOf hn.pos hn.le,
    Checkpoint.assessStartup, hn.head]

/-- Without a checkpoint only an empty log is accepted. -/
theorem assess_absent (h : disk.checkpoint = none) :
    (assess D disk (logOf D key rs)).isTampered = false ↔ rs = [] := by
  simp only [assess, Checkpoint.read, h, Checkpoint.assessStartup, recordCount_logOf]
  by_cases hrs : rs = [] <;> simp [hrs, StartupCheck.isTampered]

theorem assessStartup_clean {read : Except SignerError (Option Checkpoint)} {logEmpty : Bool}
    {headAt : Option String}
    (h : (Checkpoint.assessStartup read logEmpty headAt).isTampered = false) :
    read = .ok none ∨ ∃ cp, read = .ok (some cp) ∧ headAt = some cp.headHex := by
  unfold Checkpoint.assessStartup at h
  split at h
  · exact .inl rfl
  · next cp =>
    split at h
    · cases h
    · next hash =>
      split at h
      · cases h
      · next heq => exact .inr ⟨cp, rfl, by simpa using heq⟩
  · cases h

theorem read_eq_none : Checkpoint.read D disk = .ok none ↔ disk.checkpoint = none := by
  unfold Checkpoint.read
  split
  · next h => simp [h]
  · next text h => split <;> simp [h]

theorem read_eq_some {text : String} {cp : Checkpoint} (ht : disk.checkpoint = some text)
    (hp : D.checkpoint.fromStr text = .ok cp) : Checkpoint.read D disk = .ok (some cp) := by
  simp [Checkpoint.read, ht, hp]

/-- **What an accepted log has shown**: its checkpoint names one of its records,
or there is no checkpoint and no record. -/
theorem names_of_assess (h : (assess D disk (logOf D key rs)).isTampered = false) :
    disk.checkpoint = none ∧ rs = [] ∨
      ∃ cp, Checkpoint.read D disk = .ok (some cp) ∧ Names D key rs cp := by
  rcases assessStartup_clean h with hread | ⟨cp, hread, hat⟩
  · have hnone := read_eq_none.1 hread
    exact .inl ⟨hnone, (assess_absent hnone).1 h⟩
  · refine .inr ⟨cp, hread, ?_⟩
    rw [hread, Checkpoint.headAt] at hat
    split at hat
    · next hpos =>
      obtain ⟨d, hd, hhex⟩ := Option.map_eq_some_iff.1 hat
      have hle : cp.count ≤ rs.length := by
        have hlt := (List.getElem?_eq_some_iff.1 hd).1
        simp only [logOf, length_chain] at hlt
        omega
      rw [hashAt_logOf hpos hle] at hd
      exact ⟨hpos, hle, by rw [← hhex, Option.some.inj hd]⟩
    · cases hat

end

end Arlen.Undo
