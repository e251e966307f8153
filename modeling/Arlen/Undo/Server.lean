import Arlen.Lib.Machine
import Arlen.Undo.Chain

/-!
# The undo signer (`ai-undo-signer/src/server.rs`, `ai-undo-proto`)

`dispatch` maps one request to its response; the signer is the machine that
opens the store, dispatches requests one at a time (the store is locked for
each) and may crash. Every step carries how its writes went. The wire loop
around `dispatch` only bounds ids and page sizes, so its requests are among
these.
-/

namespace Arlen.Undo

open Arlen.Lib

inductive Request where
  | submitCreated (entry : UndoEntry)
  | transition (opId : String) (state : UndoState)
  | lookupState (opId : String)
  | lookupEntry (opId : String)
  | listRecent (limit : UInt32)
  | liveEntries
  | compensatingEntries
  deriving DecidableEq, Repr

inductive StateReply where
  | absent
  | present (state : UndoState)
  | corrupt
  deriving DecidableEq, Repr

structure RecentEntry where
  entry : UndoEntry
  state : UndoState
  sealedAtMicros : Int
  deriving DecidableEq, Repr

inductive Response where
  | sealed
  | state (reply : StateReply)
  | entry (entry : Option UndoEntry)
  | entries (entries : List UndoEntry)
  | recent (entries : List RecentEntry)
  | error (message : String)
  deriving DecidableEq, Repr

/-- `SignerStore::recent_entries`. -/
def recentEntries (f : FileUndoLog) (limit : Nat) : List RecentEntry :=
  (f.log.recentEntries limit).map fun x =>
    { entry := x.1, state := x.2, sealedAtMicros := (f.log.sealedAt x.1.opId).getD 0 }

def stateReply (f : FileUndoLog) (opId : String) : StateReply :=
  match f.log.currentState opId with
  | none => .absent
  | some (.ok state) => .present state
  | some (.error _) => .corrupt

/-- What one request leaves; there is no response when the process stopped. -/
structure Dispatched where
  response : Option Response
  disk : Disk
  store : FileUndoLog
  deriving DecidableEq, Repr

/-- The response to a submission. -/
def Sealed.respond (s : Sealed) : Dispatched where
  response := match s.outcome with
    | .ok () => some .sealed
    | .error e => some (.error e.toStr)
    | .crashed => none
  disk := s.disk
  store := s.store

/-- The response to a read. -/
def answer (disk : Disk) (f : FileUndoLog) (r : Response) : Dispatched :=
  { response := some r, disk, store := f }

def dispatch (D : Deps) (disk : Disk) (f : FileUndoLog) (request : Request) (now : Option Nat)
    (io : SealIo) : Dispatched :=
  match request with
  | .submitCreated entry => (submitCreated D disk f entry now io).respond
  | .transition opId state => (transition D disk f opId state io).respond
  | .lookupState opId => answer disk f (.state (stateReply f opId))
  | .lookupEntry opId => answer disk f (.entry (f.log.entry opId))
  | .liveEntries => answer disk f (.entries f.log.liveEntries)
  | .listRecent limit => answer disk f (.recent (recentEntries f limit.toNat))
  | .compensatingEntries => answer disk f (.entries f.log.compensatingEntries)

/-! ## The machine -/

inductive Action where
  | start (fresh : Key) (io : Write SignerError)
  | request (request : Request) (now : Option Nat) (io : SealIo)
  | crash
  deriving DecidableEq, Repr

inductive Reply where
  | opened
  | refused (e : SignerError)
  | response (r : Response)
  | crashed
  deriving DecidableEq, Repr

/-- The record a request asks to seal. -/
def Request.record (now : Option Nat) : Request → Option LogRecord
  | submitCreated entry => some (.created entry (sealTime now))
  | transition opId state => some (.transition opId state)
  | _ => none

/-- The record a request seals unless its writes fail. -/
def offered (f : FileUndoLog) (now : Option Nat) : Request → Option LogRecord
  | .submitCreated entry =>
    if (f.log.entry entry.opId).isSome then none else some (.created entry (sealTime now))
  | .transition opId state =>
    match f.log.currentState opId with
    | some (.ok current) =>
      if current.canTransitionTo state then some (.transition opId state) else none
    | _ => none
  | _ => none

/-- The signer's state directory and its process. `wrote` keeps every log the
signer has put on disk, in part or whole: one for each append that left
something in the file. -/
structure World where
  disk : Disk := {}
  proc : Option FileUndoLog := none
  wrote : List FileUndoLog := []
  deriving DecidableEq, Repr

namespace World

/-- The logs written after a request has left `disk`. -/
def written (D : Deps) (w : World) (f : FileUndoLog) (record : Option LogRecord) (disk : Disk) :
    List FileUndoLog :=
  match record with
  | some r => if disk.log = w.disk.log then w.wrote else w.wrote ++ [f.push D r]
  | none => w.wrote

def step (D : Deps) (w : World) : Action → Option (Reply × World)
  | .start fresh io =>
    match w.proc with
    | some _ => none
    | none =>
      match openIn D w.disk fresh io with
      | (.ok f, disk) => some (.opened, { w with disk, proc := some f })
      | (.error e, disk) => some (.refused e, { w with disk })
      | (.crashed, disk) => some (.crashed, { w with disk })
  | .request request now io =>
    match w.proc with
    | none => none
    | some f =>
      let d := dispatch D w.disk f request now io
      let wrote := w.written D f (offered f now request) d.disk
      match d.response with
      | some r => some (.response r, { disk := d.disk, proc := some d.store, wrote })
      | none => some (.crashed, { disk := d.disk, proc := none, wrote })
  | .crash => some (.crashed, { w with proc := none })

end World

def signer (D : Deps) : Machine World Action Reply where
  init := {}
  step := World.step D

/-- The record a step acknowledges. -/
def ackedBy : Action → Reply → Option LogRecord
  | .request request now _, .response .sealed => request.record now
  | _, _ => none

/-- The records acknowledged in a trace, oldest first. -/
def acked (τ : List (Action × Reply)) : List LogRecord := τ.filterMap fun x => ackedBy x.1 x.2

/-- Only a `Sealed` response acknowledges. -/
theorem ackedBy_of_ne {a : Action} {rep : Reply} (h : rep ≠ .response .sealed) :
    ackedBy a rep = none := by
  unfold ackedBy
  split
  · exact absurd rfl h
  · rfl

theorem acked_snoc (τ : List (Action × Reply)) (a : Action) (rep : Reply) :
    acked (τ ++ [(a, rep)]) = acked τ ++ (ackedBy a rep).toList := by
  cases h : ackedBy a rep <;> simp [acked, h]

/-! ## What one step can do -/

section

variable {D : Deps} {disk : Disk} {f : FileUndoLog} {request : Request} {now : Option Nat}
  {io : SealIo} {r : LogRecord}

theorem record_of_offered (h : offered f now request = some r) : request.record now = some r := by
  unfold offered at h
  split at h
  · split at h
    · cases h
    · exact h
  · split at h
    · split at h
      · exact h
      · cases h
    · cases h
  · cases h

/-- A sealing leaves part of its line and a log in memory that lacks the record,
or the whole line, the record in memory and perhaps its checkpoint. -/
theorem sealRecord_cases {what : String} {s : Sealed}
    (h : sealRecord D what disk f r io = s) :
    (s.outcome ≠ .ok () ∧ s.store = f ∧ (s.disk = disk ∨ ∃ content kept, disk.log = some content ∧
      s.disk = { disk with log := some (content ++ (utf8 (f.lineFor D r)).take kept) } ∧
      (io.append.Whole (utf8 (f.lineFor D r)) →
        kept = 0 ∨ (utf8 (f.lineFor D r)).length ≤ kept))) ∨
    s.store = f.push D r ∧ ∃ content disk', disk.log = some content ∧
      disk' = { disk with log := some (content ++ utf8 (f.lineFor D r)) } ∧
      (s.outcome ≠ .ok () ∧ s.disk = disk' ∨
        s.disk = { disk' with checkpoint := some (D.checkpoint.toStr (.ofLog (f.push D r))) }) := by
  unfold sealRecord at h
  split at h
  · subst h
    exact .inl ⟨by simp, rfl, .inl rfl⟩
  · next content hlog =>
    cases happ : io.append with
    | failed e kept =>
      simp only [happ, AppendWrite.run] at h
      subst h
      exact .inl ⟨by simp, rfl, .inr ⟨content, kept, hlog, rfl, id⟩⟩
    | crashed kept =>
      simp only [happ, AppendWrite.run] at h
      subst h
      exact .inl ⟨by simp, rfl, .inr ⟨content, kept, hlog, rfl, id⟩⟩
    | done =>
      simp only [happ, AppendWrite.run] at h
      right
      split at h
      · next d hrun =>
        cases Write.run_done hrun
        subst h
        exact ⟨rfl, content, _, hlog, rfl, .inr rfl⟩
      · next e d hrun =>
        subst h
        refine ⟨rfl, content, _, hlog, rfl, ?_⟩
        rcases Write.run_failed hrun with rfl | hw
        · exact .inl ⟨by simp, rfl⟩
        · cases hw
          exact .inr rfl
      · next d hrun =>
        subst h
        refine ⟨rfl, content, _, hlog, rfl, ?_⟩
        rcases Write.run_crashed hrun with rfl | hw
        · exact .inl ⟨by simp, rfl⟩
        · cases hw
          exact .inr rfl

/-- Nothing changed, and the response is not an acknowledgement. -/
def Dispatched.Unchanged (disk : Disk) (f : FileUndoLog) (d : Dispatched) : Prop :=
  d.disk = disk ∧ d.store = f ∧ ∃ resp, d.response = some resp ∧ resp ≠ .sealed

theorem unchanged_refuse (message : String) :
    (refuse disk f message).respond.Unchanged disk f :=
  ⟨rfl, rfl, _, rfl, by simp⟩

theorem unchanged_answer {resp : Response} (h : resp ≠ .sealed) :
    (answer disk f resp).Unchanged disk f :=
  ⟨rfl, rfl, _, rfl, h⟩

/-- A request that offers no record changes nothing; any other is a sealing. -/
theorem dispatch_cases (D : Deps) (disk : Disk) (f : FileUndoLog) (request : Request)
    (now : Option Nat) (io : SealIo) : (offered f now request = none ∧
      (dispatch D disk f request now io).Unchanged disk f) ∨
    ∃ r what, offered f now request = some r ∧
      dispatch D disk f request now io = (sealRecord D what disk f r io).respond := by
  cases request with
  | submitCreated entry =>
    simp only [dispatch, submitCreated, offered]
    split
    · exact .inl ⟨rfl, unchanged_refuse _⟩
    · exact .inr ⟨_, _, rfl, rfl⟩
  | transition opId state =>
    simp only [dispatch, transition, offered]
    cases f.log.currentState opId with
    | none => exact .inl ⟨rfl, unchanged_refuse _⟩
    | some folded =>
      cases folded with
      | error e => exact .inl ⟨rfl, unchanged_refuse _⟩
      | ok current =>
        simp only
        split
        · exact .inr ⟨_, _, rfl, rfl⟩
        · exact .inl ⟨rfl, unchanged_refuse _⟩
  | lookupState opId => exact .inl ⟨rfl, unchanged_answer (by simp)⟩
  | lookupEntry opId => exact .inl ⟨rfl, unchanged_answer (by simp)⟩
  | listRecent limit => exact .inl ⟨rfl, unchanged_answer (by simp)⟩
  | liveEntries => exact .inl ⟨rfl, unchanged_answer (by simp)⟩
  | compensatingEntries => exact .inl ⟨rfl, unchanged_answer (by simp)⟩

end

/-! ### Opening -/

@[simp] theorem content_prepare (disk : Disk) (key : Key) :
    (disk.prepare key).content = disk.content := rfl

theorem reseed_cases {D : Deps} {disk disk' : Disk} {f : FileUndoLog} {io : Write SignerError}
    {outcome : Outcome FileUndoLog} (h : reseed D disk f io = (outcome, disk')) :
    (∀ f', outcome = .ok f' → f' = f) ∧ (disk' = disk ∨ 0 < f.recordCount ∧
      disk' = { disk with checkpoint := some (D.checkpoint.toStr (.ofLog f)) }) := by
  unfold reseed at h
  split at h
  · next hpos =>
    split at h
    · next d hrun =>
      cases h
      cases Write.run_done hrun
      exact ⟨by simp, .inr ⟨hpos, rfl⟩⟩
    · next e d hrun =>
      cases h
      refine ⟨by simp, (Write.run_failed hrun).imp id fun hw => ?_⟩
      cases hw
      exact ⟨hpos, rfl⟩
    · next d hrun =>
      cases h
      refine ⟨by simp, (Write.run_crashed hrun).imp id fun hw => ?_⟩
      cases hw
      exact ⟨hpos, rfl⟩
  · cases h
    exact ⟨by simp, .inl rfl⟩

/-- An open fails at the key and changes nothing; it fails at the log and leaves
the prepared files; or it loads and accepts a log, and may put its checkpoint at
the head. -/
theorem openIn_cases {D : Deps} {disk disk' : Disk} {fresh : Key} {io : Write SignerError}
    {outcome : Outcome FileUndoLog} (h : openIn D disk fresh io = (outcome, disk')) :
    (disk' = disk ∧ ∀ f, outcome ≠ .ok f) ∨ ∃ key, loadOrCreate D disk fresh = .ok key ∧
      ((disk' = disk.prepare key ∧ ∀ f, outcome ≠ .ok f) ∨
        ∃ f, load D key disk.content = .ok f ∧
          (assess D (disk.prepare key) f).isTampered = false ∧
          (∀ f', outcome = .ok f' → f' = f) ∧
          (disk' = disk.prepare key ∨ 0 < f.recordCount ∧ disk' =
            { disk.prepare key with checkpoint := some (D.checkpoint.toStr (.ofLog f)) })) := by
  unfold openIn at h
  split at h
  · cases h
    exact .inl ⟨rfl, by simp⟩
  · next key hkey =>
    refine .inr ⟨key, hkey, ?_⟩
    simp only [content_prepare] at h
    split at h
    · cases h
      exact .inl ⟨rfl, by simp⟩
    · next f hload =>
      split at h
      · cases h
        exact .inl ⟨rfl, by simp⟩
      · next hcheck => exact .inr ⟨f, hload, by rw [hcheck]; rfl, reseed_cases h⟩
      · next hcheck => exact .inr ⟨f, hload, by rw [hcheck]; rfl, reseed_cases h⟩

/-- What a successful open has checked. -/
theorem openIn_ok {D : Deps} {disk disk' : Disk} {fresh : Key} {io : Write SignerError}
    {f : FileUndoLog} (h : openIn D disk fresh io = (.ok f, disk')) :
    ∃ key, loadOrCreate D disk fresh = .ok key ∧ load D key disk.content = .ok f ∧
      (assess D (disk.prepare key) f).isTampered = false := by
  rcases openIn_cases h with ⟨_, hne⟩ | ⟨key, hkey, ⟨_, hne⟩ | ⟨f', hload, hclean, hf, _⟩⟩
  · exact absurd rfl (hne f)
  · exact absurd rfl (hne f)
  · cases hf f rfl
    exact ⟨key, hkey, hload, hclean⟩

/-! ### Steps -/

variable {D : Deps} {w w' : World} {rep : Reply}

theorem start_cases {fresh : Key} {io : Write SignerError}
    (h : w.step D (.start fresh io) = some (rep, w')) :
    w.proc = none ∧ ∃ outcome disk, openIn D w.disk fresh io = (outcome, disk) ∧
      ((∃ f, outcome = .ok f ∧ rep = .opened ∧ w' = { w with disk, proc := some f }) ∨
        (∃ e, outcome = .error e ∧ rep = .refused e ∧ w' = { w with disk }) ∨
        outcome = .crashed ∧ rep = .crashed ∧ w' = { w with disk }) := by
  simp only [World.step] at h
  split at h
  · cases h
  · next hp =>
    refine ⟨hp, ?_⟩
    split at h
    · next f disk hopen => cases h; exact ⟨_, disk, hopen, .inl ⟨f, rfl, rfl, rfl⟩⟩
    · next e disk hopen => cases h; exact ⟨_, disk, hopen, .inr (.inl ⟨e, rfl, rfl, rfl⟩)⟩
    · next disk hopen => cases h; exact ⟨_, disk, hopen, .inr (.inr ⟨rfl, rfl, rfl⟩)⟩

/-- A request changes nothing and is not acknowledged, or seals the record it
offers; it is acknowledged when the sealing is ok, and the process stays unless
it crashed. -/
theorem request_cases {request : Request} {now : Option Nat} {io : SealIo}
    (h : w.step D (.request request now io) = some (rep, w')) :
    ∃ f, w.proc = some f ∧
      ((offered f now request = none ∧ rep ≠ .response .sealed ∧ w' = w) ∨
        ∃ r what s proc, offered f now request = some r ∧ sealRecord D what w.disk f r io = s ∧
          w' = ⟨s.disk, proc, w.written D f (some r) s.disk⟩ ∧ (∀ p ∈ proc, p = s.store) ∧
          (rep = .response .sealed → s.outcome = .ok ())) := by
  simp only [World.step] at h
  split at h
  · cases h
  · next f hf =>
    refine ⟨f, hf, ?_⟩
    rcases dispatch_cases D w.disk f request now io with
      ⟨hoff, hdisk, hstore, resp, hresp, hne⟩ | ⟨r, what, hoff, hd⟩
    · rw [hresp, hoff, hdisk, hstore] at h
      cases h
      refine .inl ⟨hoff, by simpa using hne, ?_⟩
      cases w
      cases hf
      rfl
    · right
      rw [hd, hoff] at h
      split at h
      · next resp hresp =>
        cases h
        refine ⟨r, what, _, _, hoff, rfl, rfl, by simp [Sealed.respond], fun hack => ?_⟩
        simp only [Reply.response.injEq] at hack
        subst hack
        unfold Sealed.respond at hresp
        simp only at hresp
        split at hresp
        · assumption
        · cases hresp
        · cases hresp
      · cases h
        exact ⟨r, what, _, none, hoff, rfl, rfl, by simp, by simp⟩

end Arlen.Undo
