import Arlen.Lib.Sha256
import Arlen.Undo.Server

/-!
# The lifecycle of every operation

`UndoLog.Legal`: each operation is created at most once, its transitions come
after that, and its records fold to a state. The guards of `submit_created` and
`transition` keep this, whatever is dispatched and whatever the writes do; so
the fold never fails, terminal states stay, and each listing shows exactly the
operations it is for.
-/

namespace Arlen.Undo

open Arlen.Lib

namespace UndoLog

structure Legal (log : UndoLog) : Prop where
  /-- No operation is created twice. -/
  once : (log.createdEntries.map UndoEntry.opId).Nodup
  /-- A transition comes after the creation of its operation. -/
  after : ∀ before op state rest, log = before ++ LogRecord.transition op state :: rest →
    op ∈ (createdEntries before).map UndoEntry.opId
  /-- The records of an operation fold to a state. -/
  folds : ∀ op, log.currentState op = none ∨ ∃ state, log.currentState op = some (.ok state)

variable {log log' : UndoLog} {op : String} {e : UndoEntry} {t : Int} {s : UndoState}

theorem legal_nil : Legal [] :=
  ⟨by simp [createdEntries], by simp, fun op => .inl rfl⟩

/-- An operation that was not created has no records. -/
theorem Legal.states_eq_nil (h : Legal log)
    (hop : op ∉ log.createdEntries.map UndoEntry.opId) : log.states op = [] := by
  refine List.filterMap_eq_nil_iff.2 fun r hr => ?_
  cases r with
  | created e t =>
    have hne : e.opId ≠ op := by
      rintro rfl
      exact hop (List.mem_map_of_mem (mem_createdEntries.2 ⟨t, hr⟩))
    simp [LogRecord.stateOf, hne]
  | transition id state =>
    obtain ⟨before, rest, hsplit⟩ := List.append_of_mem hr
    have hid := h.after before id state rest hsplit
    have hne : id ≠ op := by
      rintro rfl
      refine hop ?_
      rw [hsplit, createdEntries_append, List.map_append]
      exact List.mem_append_left _ hid
    simp [LogRecord.stateOf, hne]

/-- A later record's transition was there before, or is the new one. -/
theorem Legal.after_snoc (h : Legal log) {r : LogRecord}
    (hr : ∀ id state, r = .transition id state → id ∈ log.createdEntries.map UndoEntry.opId)
    {before rest : List LogRecord} {id : String} {state : UndoState}
    (hsplit : log ++ [r] = before ++ LogRecord.transition id state :: rest) :
    id ∈ (createdEntries before).map UndoEntry.opId := by
  rcases List.eq_nil_or_concat rest with rfl | ⟨rest', x, rfl⟩
  · obtain ⟨rfl, hlast⟩ := List.append_inj' hsplit rfl
    exact hr id state (List.singleton_inj.1 hlast)
  · rw [List.concat_eq_append, ← List.cons_append, ← List.append_assoc] at hsplit
    exact h.after before id state rest' (List.append_inj' hsplit rfl).1

/-- The state of an operation that the new record is not about. -/
theorem currentState_snoc_other {r : LogRecord} (h : r.stateOf op = none) :
    currentState (log ++ [r]) op = log.currentState op := by
  have hstates : states (log ++ [r]) op = states log op := by
    simp [states, h]
  have hcreated : (createdEntries (log ++ [r])).any (fun e => e.opId = op) =
      (createdEntries log).any fun e => e.opId = op := by
    cases r with
    | created e t =>
      have hne : e.opId ≠ op := by
        rintro rfl
        simp [LogRecord.stateOf] at h
      simp [hne]
    | transition id state => simp
  simp only [currentState, hstates, hcreated]

theorem Legal.created (h : Legal log) (hnew : log.entry e.opId = none) :
    Legal (log ++ [.created e t]) := by
  have hop := entry_eq_none.1 hnew
  refine ⟨?_, fun before id state rest hsplit => ?_, fun op => ?_⟩
  · rw [createdEntries_append, List.map_append]
    refine h.once.append (by simp) ?_
    simpa [List.disjoint_singleton] using hop
  · exact h.after_snoc (by simp) hsplit
  · by_cases heq : e.opId = op
    · subst heq
      right
      have hmem : e.opId ∈ (createdEntries (log ++ [.created e t])).map UndoEntry.opId := by
        simp
      refine ⟨.inFlight, ?_⟩
      rw [currentState_of_created hmem, states_append, h.states_eq_nil hop]
      simp [states, LogRecord.stateOf, foldState, foldFrom]
    · rw [currentState_snoc_other (by simp [LogRecord.stateOf, heq])]
      exact h.folds op

/-- A legal transition moves the folded state. -/
theorem currentState_transition {next : UndoState} (hs : log.currentState op = some (.ok s))
    (hnext : s.canTransitionTo next = true) :
    currentState (log ++ [.transition op next]) op = some (.ok next) := by
  obtain ⟨hmem, hfold⟩ := currentState_eq_some hs
  have hmem' : op ∈ (createdEntries (log ++ [.transition op next])).map UndoEntry.opId := by
    rw [createdEntries_append, List.map_append]
    exact List.mem_append_left _ hmem
  rw [currentState_of_created hmem', states_append, foldState_append hfold]
  simp [states, LogRecord.stateOf, foldFrom, hnext]

theorem Legal.transition (h : Legal log) {next : UndoState}
    (hs : log.currentState op = some (.ok s)) (hnext : s.canTransitionTo next = true) :
    Legal (log ++ [.transition op next]) := by
  refine ⟨?_, fun before id state rest hsplit => ?_, fun op' => ?_⟩
  · simpa using h.once
  · refine h.after_snoc (fun id state heq => ?_) hsplit
    cases heq
    exact (currentState_eq_some hs).1
  · by_cases heq : op = op'
    · subst heq
      exact .inr ⟨next, currentState_transition hs hnext⟩
    · rw [currentState_snoc_other (by simp [LogRecord.stateOf, heq])]
      exact h.folds op'

/-- What a store offers to seal keeps its log legal. -/
theorem Legal.offered {f : FileUndoLog} (h : Legal f.log) {now : Option Nat} {request : Request}
    {r : LogRecord} (ho : Undo.offered f now request = some r) : Legal (f.log ++ [r]) := by
  unfold Undo.offered at ho
  split at ho
  · split at ho
    · cases ho
    · next hnew =>
      cases ho
      exact h.created (by simpa using hnew)
  · split at ho
    · next hs =>
      split at ho
      · next hnext =>
        cases ho
        exact h.transition hs hnext
      · cases ho
    · cases ho
  · cases ho

/-- A terminal state outlives every legal extension of the log. -/
theorem Legal.terminal (h' : Legal log') (hpre : log <+: log')
    (hs : log.currentState op = some (.ok s)) (hterm : s.isTerminal = true) :
    log'.currentState op = some (.ok s) := by
  obtain ⟨more, rfl⟩ := hpre
  obtain ⟨hmem, hfold⟩ := currentState_eq_some hs
  have hmem' : op ∈ (createdEntries (log ++ more)).map UndoEntry.opId := by
    rw [createdEntries_append, List.map_append]
    exact List.mem_append_left _ hmem
  have hcur := currentState_of_created hmem'
  rcases h'.folds op with hnone | ⟨t, ht⟩
  · rw [hcur] at hnone
    cases hnone
  · rw [hcur, states_append] at ht
    have hok : foldState (states log op ++ states more op) = .ok t := Option.some.inj ht
    rw [foldState_append hfold] at hok
    have hnil := foldFrom_terminal hterm hok
    rw [hcur, states_append, hnil, List.append_nil, hfold]

/-! ## The listings -/

/-- The entries `es` are one for each operation whose folded state satisfies
`P`, and no others. -/
def Lists (log : UndoLog) (P : UndoState → Prop) (es : List UndoEntry) : Prop :=
  (es.map UndoEntry.opId).Nodup ∧
    ∀ op, op ∈ es.map UndoEntry.opId ↔ ∃ s, log.currentState op = some (.ok s) ∧ P s

/-- A legal log's operations with a folded state are the created ones. -/
theorem Legal.mem_created (h : Legal log) : op ∈ log.createdEntries.map UndoEntry.opId ↔
    ∃ s, log.currentState op = some (.ok s) := by
  constructor
  · intro hmem
    rcases h.folds op with hnone | hs
    · exact absurd hmem (currentState_eq_none.1 hnone)
    · exact hs
  · rintro ⟨s, hs⟩
    exact (currentState_eq_some hs).1

theorem Legal.lists_created (h : Legal log) : Lists log (fun _ => True) log.createdEntries :=
  ⟨h.once, fun op => by simpa using h.mem_created⟩

/-- A scan that keeps the entries whose state satisfies `P` lists those. -/
theorem Legal.lists_scan (h : Legal log) {P : UndoState → Prop}
    {keep : UndoEntry → Option UndoEntry} (hsome : ∀ e e', keep e = some e' → e' = e)
    (hkeep : ∀ e s, log.currentState e.opId = some (.ok s) → ((keep e).isSome ↔ P s)) :
    Lists log P (scan keep [] log) := by
  rw [scan_eq h.once (by simp)]
  have hfilter : log.createdEntries.filterMap keep =
      log.createdEntries.filter fun e => (keep e).isSome := by
    rw [← List.filterMap_eq_filter]
    refine List.filterMap_congr fun e _ => ?_
    cases hk : keep e with
    | none => simp [Option.guard, hk]
    | some e' => simp [Option.guard, hk, hsome e e' hk]
  rw [hfilter]
  refine ⟨h.once.sublist (List.filter_sublist.map _), fun op => ?_⟩
  simp only [List.mem_map, List.mem_filter]
  constructor
  · rintro ⟨e, ⟨he, hk⟩, rfl⟩
    obtain ⟨s, hs⟩ := h.mem_created.1 (List.mem_map_of_mem he)
    exact ⟨s, hs, (hkeep e s hs).1 hk⟩
  · rintro ⟨s, hs, hP⟩
    obtain ⟨e, he, rfl⟩ := List.mem_map.1 (h.mem_created.2 ⟨s, hs⟩)
    exact ⟨e, ⟨he, (hkeep e s hs).2 hP⟩, rfl⟩

theorem Legal.lists_live (h : Legal log) :
    Lists log (fun s => s.isTerminal = false) log.liveEntries := by
  refine h.lists_scan (fun e e' hk => ?_) fun e s hs => ?_
  · unfold keepLive at hk
    split at hk
    · split at hk <;> cases hk
      rfl
    · cases hk
  · cases ht : s.isTerminal <;> simp [keepLive, hs, ht]

theorem Legal.lists_compensating (h : Legal log) :
    Lists log (fun s => s = .compensating) log.compensatingEntries := by
  refine h.lists_scan (fun e e' hk => ?_) fun e s hs => ?_
  · unfold keepCompensating at hk
    split at hk <;> cases hk
    rfl
  · cases s <;> simp [keepCompensating, hs]

/-- The recent entries are the newest ones created, with their states. -/
theorem Legal.recent (h : Legal log) (limit : Nat) :
    (log.recentEntries limit).map Prod.fst = log.createdEntries.reverse.take limit ∧
      ∀ x ∈ log.recentEntries limit, log.currentState x.1.opId = some (.ok x.2) := by
  have hrev : createdEntries log.reverse = log.createdEntries.reverse := by
    simp [createdEntries, List.filterMap_reverse]
  have hscan : scan log.keepFolded [] log.reverse =
      log.createdEntries.reverse.filterMap log.keepFolded := by
    rw [scan_eq ?_ (by simp), hrev]
    rw [hrev, List.map_reverse]
    exact List.nodup_reverse.2 h.once
  have hkept : ∀ x, x ∈ log.createdEntries.reverse.filterMap log.keepFolded →
      log.currentState x.1.opId = some (.ok x.2) := by
    intro x hx
    obtain ⟨e, _, hk⟩ := List.mem_filterMap.1 hx
    unfold keepFolded at hk
    split at hk
    · next s hs =>
      cases hk
      exact hs
    · cases hk
  rw [recentEntries_eq, hscan, List.map_take]
  refine ⟨congrArg (List.take limit) ?_, fun x hx => hkept x (List.mem_of_mem_take hx)⟩
  -- every created entry is kept
  rw [List.map_filterMap]
  refine (List.filterMap_congr (g := some) fun e he => ?_).trans (List.filterMap_some)
  obtain ⟨s, hs⟩ := h.mem_created.1 (List.mem_map_of_mem (List.mem_reverse.1 he))
  simp [keepFolded, hs]

end UndoLog

/-! ## Every run -/

/-- The store is only ever opened on an empty log. -/
def fromEmpty (w : World) : Action → Prop
  | .start _ _ => w.disk.content = []
  | _ => True

section

variable {D : Deps} {w w' : World} {a : Action} {rep : Reply} {τ τ' : List (Action × Reply)}

/-- A sealing leaves the file it found, perhaps with more behind it. -/
theorem sealRecord_content {what : String} {disk : Disk} {f : FileUndoLog} {r : LogRecord}
    {io : SealIo} {s : Sealed} (h : sealRecord D what disk f r io = s) :
    disk.content <+: s.disk.content ∧
      (s.store = f ∨ s.store = f.push D r ∧ s.disk.content ≠ []) := by
  rcases sealRecord_cases h with
    ⟨_, hstore, hdisk | ⟨content, kept, hlog, hdisk, _⟩⟩ | ⟨hstore, content, _, hlog, rfl, hdisk⟩
  · exact ⟨by rw [hdisk], .inl hstore⟩
  · refine ⟨?_, .inl hstore⟩
    rw [hdisk]
    simp [Disk.content, hlog]
  · have hcontent : s.disk.content = content ++ utf8 (f.lineFor D r) := by
      rcases hdisk with ⟨_, hd⟩ | hd <;> rw [hd] <;> rfl
    rw [hcontent]
    refine ⟨by simp [Disk.content, hlog], .inr ⟨hstore, fun hnil => ?_⟩⟩
    exact lineFor_ne_nil (List.append_eq_nil_iff.1 hnil).2

theorem openIn_content {disk disk' : Disk} {fresh : Key} {io : Write SignerError}
    {outcome : Outcome FileUndoLog} (h : openIn D disk fresh io = (outcome, disk')) :
    disk'.content = disk.content := by
  rcases openIn_cases h with ⟨rfl, _⟩ | ⟨key, _, ⟨rfl, _⟩ | ⟨f, _, _, _, rfl | ⟨_, rfl⟩⟩⟩ <;> rfl

/-- The log file only grows. -/
theorem step_content (h : w.step D a = some (rep, w')) : w.disk.content <+: w'.disk.content := by
  cases a with
  | start fresh io =>
    obtain ⟨_, outcome, disk, hopen, ⟨f, _, _, rfl⟩ | ⟨e, _, _, rfl⟩ | ⟨_, _, rfl⟩⟩ := start_cases h
    all_goals exact (openIn_content hopen).symm ▸ List.prefix_refl _
  | request request now io =>
    obtain ⟨f, _, ⟨_, _, rfl⟩ | ⟨r, what, s, proc, _, hs, rfl, _, _⟩⟩ := request_cases h
    · exact List.prefix_refl _
    · exact (sealRecord_content hs).1
  | crash =>
    cases h
    exact List.prefix_refl _

/-- The running log is legal, and is in the file. -/
def World.Orderly (w : World) : Prop :=
  ∀ f ∈ w.proc, f.log.Legal ∧ (f.log ≠ [] → w.disk.content ≠ [])

theorem World.Orderly.step (hw : w.Orderly) (hok : fromEmpty w a)
    (h : w.step D a = some (rep, w')) : w'.Orderly := by
  cases a with
  | start fresh io =>
    obtain ⟨hp, outcome, disk, hopen, ⟨f, rfl, _, rfl⟩ | ⟨e, _, _, rfl⟩ | ⟨_, _, rfl⟩⟩ :=
      start_cases h
    · rintro p ⟨⟩
      have hempty : f.log = [] := by
        obtain ⟨key, _, hload, _⟩ := openIn_ok hopen
        rw [show w.disk.content = [] from hok, load_nil] at hload
        cases hload
        rfl
      exact ⟨hempty ▸ UndoLog.legal_nil, fun hne => absurd hempty hne⟩
    · simp [Orderly, hp]
    · simp [Orderly, hp]
  | request request now io =>
    obtain ⟨f, hf, ⟨_, _, rfl⟩ | ⟨r, what, s, proc, hoff, hs, rfl, hproc, _⟩⟩ := request_cases h
    · exact hw
    · intro p hp
      obtain ⟨hlegal, hfile⟩ := hw f hf
      obtain ⟨hgrow, hstore | ⟨hstore, hne⟩⟩ := sealRecord_content hs
      · rw [hproc p hp, hstore]
        refine ⟨hlegal, fun hlog hnil => hfile hlog ?_⟩
        exact List.prefix_nil.1 (hnil ▸ hgrow)
      · rw [hproc p hp, hstore]
        exact ⟨hlegal.offered hoff, fun _ => hne⟩
  | crash =>
    cases h
    simp [Orderly]

theorem orderly_of_run (h : (signer D).Run fromEmpty τ w) : w.Orderly := by
  refine h.inv (I := fun _ w => w.Orderly) (by simp [World.Orderly, signer]) ?_
  intro τ w a rep w' hw hok hs
  exact hw.step hok hs

/-- A log with records in it only grows from there on. -/
theorem log_grows {f : FileUndoLog} (hw : w.Orderly) (hf : w.proc = some f) (hne : f.log ≠ [])
    (hpath : (signer D).Path fromEmpty w τ' w') :
    w.disk.content <+: w'.disk.content ∧ ∀ f' ∈ w'.proc, f.log <+: f'.log := by
  induction hpath with
  | refl =>
    refine ⟨List.prefix_refl _, fun f' hf' => ?_⟩
    rw [Option.mem_def, hf] at hf'
    cases hf'
    exact List.prefix_refl _
  | @step τ t t' a r _ hok hs ih =>
    refine ⟨ih.1.trans (step_content hs), ?_⟩
    cases a with
    | start fresh io =>
      -- the log file is not empty any more
      refine absurd (List.prefix_nil.1 ((show t.disk.content = [] from hok) ▸ ih.1)) ?_
      exact (hw f hf).2 hne
    | request request now io =>
      obtain ⟨g, hg, ⟨_, _, rfl⟩ | ⟨r, what, s, proc, _, hseal, rfl, hproc, _⟩⟩ := request_cases hs
      · exact ih.2
      · intro p hp
        obtain ⟨_, hstore | ⟨hstore, _⟩⟩ := sealRecord_content hseal
        · rw [hproc p hp, hstore]
          exact ih.2 g hg
        · rw [hproc p hp, hstore]
          exact (ih.2 g hg).trans (List.prefix_append _ _)
    | crash =>
      cases hs
      simp

/-- **Every operation has a lifecycle.** However requests are dispatched from an
empty log and whatever their writes do: each operation is created at most once,
its transitions come later, and its records fold to a state; a terminal state is
the state from then on; the live and the compensating entries are one for each
operation in such a state; and the recent entries are the newest ones created,
with their states, which is one for each operation if the limit lets them all
in. -/
theorem dispatched_lifecycle (h : (signer D).Run fromEmpty τ w) {f : FileUndoLog}
    (hf : w.proc = some f) :
    f.log.Legal ∧
    (∀ τ' w' f', (signer D).Path fromEmpty w τ' w' → w'.proc = some f' →
      ∀ op s, f.log.currentState op = some (.ok s) → s.isTerminal = true →
        f'.log.currentState op = some (.ok s)) ∧
    f.log.Lists (fun s => s.isTerminal = false) f.log.liveEntries ∧
    f.log.Lists (fun s => s = .compensating) f.log.compensatingEntries ∧
    ∀ limit, (f.log.recentEntries limit).map Prod.fst = f.log.createdEntries.reverse.take limit ∧
      (∀ x ∈ f.log.recentEntries limit, f.log.currentState x.1.opId = some (.ok x.2)) ∧
      (((f.log.recentEntries limit).map fun x => x.1.opId).Nodup) ∧
      (f.log.createdEntries.length ≤ limit →
        f.log.Lists (fun _ => True) ((f.log.recentEntries limit).map Prod.fst)) := by
  have hw := orderly_of_run h
  have hlegal := (hw f hf).1
  refine ⟨hlegal, ?_, hlegal.lists_live, hlegal.lists_compensating, fun limit => ?_⟩
  · intro τ' w' f' hpath hf' op s hs hterm
    have hne : f.log ≠ [] := by
      intro hnil
      rw [hnil] at hs
      cases hs
    have hgrow := (log_grows hw hf hne hpath).2 f' hf'
    exact ((orderly_of_run (h.along hpath)) f' hf').1.terminal hgrow hs hterm
  · obtain ⟨hmap, hstates⟩ := hlegal.recent limit
    have hids : (f.log.recentEntries limit).map (fun x => x.1.opId) =
        (f.log.createdEntries.map UndoEntry.opId).reverse.take limit := by
      rw [← List.map_reverse, ← List.map_take, ← hmap, List.map_map]
      rfl
    refine ⟨hmap, hstates, ?_, fun hall => ?_⟩
    · rw [hids]
      exact (List.nodup_reverse.2 hlegal.once).sublist (List.take_sublist _ _)
    · rw [hmap, List.take_of_length_le (by simpa using hall)]
      obtain ⟨hnodup, hiff⟩ := hlegal.lists_created
      refine ⟨?_, fun op => ?_⟩
      · rw [List.map_reverse]
        exact List.nodup_reverse.2 hnodup
      · rw [List.map_reverse, List.mem_reverse]
        exact hiff op

/-! ### A small signer -/

/-- The first open, of an empty directory. -/
theorem step_start (D : Deps) (fresh : Key) :
    (signer D).step {} (.start fresh .done) = some (.opened,
      { disk := Disk.prepare {} fresh, proc := some (logOf D fresh []) }) := by
  simp [signer, World.step, openIn, loadOrCreate, logHasRecords, Disk.content, Disk.prepare, assess,
    Checkpoint.read, Checkpoint.assessStartup, reseed]

/-- A submission of a new operation whose writes go through. -/
theorem step_submit (D : Deps) {w : World} {f : FileUndoLog} {content : Bytes} {e : UndoEntry}
    (now : Option Nat) (hf : w.proc = some f) (hlog : w.disk.log = some content)
    (hnew : f.log.entry e.opId = none) :
    ∃ w', (signer D).step w (.request (.submitCreated e) now {}) = some (.response .sealed, w') ∧
      w'.proc = some (f.push D (.created e (sealTime now))) ∧
      w'.disk = { w.disk with
        log := some (content ++ utf8 (f.lineFor D (.created e (sealTime now))))
        checkpoint := some (D.checkpoint.toStr (.ofLog (f.push D (.created e (sealTime now))))) } ∧
      w'.wrote = w.wrote ++ [f.push D (.created e (sealTime now))] := by
  have hgrew : content ++ utf8 (f.lineFor D (.created e (sealTime now))) ≠ content := by
    simpa using lineFor_ne_nil
  simp [signer, World.step, hf, dispatch, submitCreated, hnew, sealRecord, hlog, Sealed.respond,
    AppendWrite.run, Write.run, Checkpoint.write, offered, World.written, hgrew]

/-- A submission of a new operation that the process does not survive. -/
theorem step_submit_torn (D : Deps) {w : World} {f : FileUndoLog} {content : Bytes} {e : UndoEntry}
    (now : Option Nat) (kept : Nat) (hf : w.proc = some f) (hlog : w.disk.log = some content)
    (hnew : f.log.entry e.opId = none) :
    ∃ w', (signer D).step w (.request (.submitCreated e) now { append := .crashed kept }) =
        some (.crashed, w') ∧
      w'.disk = { w.disk with
        log := some (content ++ (utf8 (f.lineFor D (.created e (sealTime now)))).take kept) } := by
  simp [signer, World.step, hf, dispatch, submitCreated, hnew, sealRecord, hlog, Sealed.respond,
    AppendWrite.run]

def sampleEntry (op : String) : UndoEntry where
  opId := op
  correlationId := "run"
  inverse := .restorePath ⟨"/b/x", by decide⟩ ⟨"/a/x", by decide⟩

def firstRecord : LogRecord := .created (sampleEntry "op-1") (sealTime (some 1000))

/-- The JSON of a record that creates a sample entry, and of a transition. -/
def printRecord : LogRecord → String
  | .created e t => "\x7b\"Created\":\x7b\"entry\":\x7b\"op_id\":\"" ++ e.opId ++
      "\",\"correlation_id\":\"" ++ e.correlationId ++
      "\",\"inverse\":\x7b\"RestorePath\":\x7b\"now\":\"/b/x\",\"prior\":\"/a/x\"\x7d\x7d\x7d," ++
      "\"sealed_at_micros\":" ++ toString t ++ "\x7d\x7d"
  | .transition op s =>
    "\x7b\"Transition\":\x7b\"op_id\":\"" ++ op ++ "\",\"state\":\"" ++ s.debug ++ "\"\x7d\x7d"

def decimalDigit (n : Nat) : Char := Char.ofNat (48 + n % 10)

/-- A byte in decimal. -/
def decimal (b : UInt8) : List Char :=
  let n := b.toNat
  if n < 10 then [decimalDigit n]
  else if n < 100 then [decimalDigit (n / 10), decimalDigit n]
  else [decimalDigit (n / 100), decimalDigit (n / 10), decimalDigit n]

/-- Bytes in decimal, with commas between them. -/
def decimals : Bytes → List Char
  | [] => []
  | [b] => decimal b
  | b :: b' :: bs => decimal b ++ ',' :: decimals (b' :: bs)

def printLine (c : ChainedLine) : String :=
  "\x7b\"record\":" ++ printRecord c.record ++ ",\"hash\":[" ++
    String.ofList (decimals c.hash.bytes) ++ "]\x7d"

def printCheckpoint (cp : Checkpoint) : String :=
  "\x7b\"count\":" ++ toString cp.count ++ ",\"head_hex\":\"" ++ cp.headHex ++ "\"\x7d"

def smallKey : Key := ⟨List.replicate 32 7, rfl⟩

/-- The hash of the first record. -/
def firstHash : Digest :=
  hmacSha256 smallKey.bytes (genesisPrevHash.bytes ++ utf8 (printRecord firstRecord))

def smallSigner : Deps where
  mac := hmacSha256
  record := serdeOf firstRecord printRecord
  line := serdeOf ⟨firstRecord, firstHash⟩ printLine
  checkpoint := serdeOf ⟨1, hex firstHash.bytes⟩ printCheckpoint
  printable := fun c => 32 ≤ c.toNat && c.toNat < 127
  dir := "/state/arlen/agent/undo-log"

/-- Two operations are created. -/
theorem smallSigner_two : ∃ τ w, (signer smallSigner).Run fromEmpty τ w ∧
    w.proc = some (logOf smallSigner smallKey
      [firstRecord, .created (sampleEntry "op-2") (sealTime (some 2000))]) := by
  have h0 := step_start smallSigner smallKey
  obtain ⟨w1, h1, hp1, hd1, _⟩ := step_submit smallSigner (some 1000) (w :=
    { disk := Disk.prepare {} smallKey, proc := some (logOf smallSigner smallKey []) }) rfl rfl
    (show UndoLog.entry [] (sampleEntry "op-1").opId = none from rfl)
  rw [push_logOf] at hp1
  obtain ⟨w2, h2, hp2, _⟩ := step_submit smallSigner (some 2000) hp1 (congrArg Disk.log hd1)
    (show UndoLog.entry _ (sampleEntry "op-2").opId = none by decide)
  rw [push_logOf] at hp2
  have hopened : (signer smallSigner).Run fromEmpty _ _ :=
    .step .start (show fromEmpty _ (.start smallKey .done) from rfl) h0
  have hfirst := hopened.step (show fromEmpty _ (.request _ _ _) from trivial) h1
  exact ⟨_, w2, hfirst.step (show fromEmpty _ (.request _ _ _) from trivial) h2, hp2⟩

theorem dispatched_lifecycle_two : ∃ (w : World) (f : FileUndoLog), w.proc = some f ∧
    f.log.currentState "op-1" = some (.ok .inFlight) ∧ f.log.Legal ∧
    (f.log.recentEntries 2).map (fun x => x.1.opId) = ["op-2", "op-1"] := by
  obtain ⟨τ, w, hrun, hw⟩ := smallSigner_two
  obtain ⟨hlegal, _⟩ := dispatched_lifecycle hrun hw
  exact ⟨w, _, hw, by decide, hlegal, by decide⟩

/-- A page shorter than the history leaves operations out. -/
theorem recent_omits_older : ∃ τ w f, (signer smallSigner).Run fromEmpty τ w ∧ w.proc = some f ∧
    f.log.currentState "op-1" = some (.ok .inFlight) ∧
    "op-1" ∉ (f.log.recentEntries 1).map fun x => x.1.opId := by
  obtain ⟨τ, w, hrun, hw⟩ := smallSigner_two
  exact ⟨τ, w, _, hrun, hw, by decide, by decide⟩

end

end Arlen.Undo
