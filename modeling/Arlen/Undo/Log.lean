import Arlen.Undo.Receipt
import Mathlib.Data.List.Nodup

/-!
# The event-sourced undo log (`ai-undo-core/src/undo_log.rs`)

The lifecycle of an entry, the records of the log and the reads over them. No
state is stored: the state of an operation is the fold of its records, and the
listings scan the records and skip an operation they have met before.
-/

namespace Arlen.Undo

/-! ## The lifecycle -/

inductive UndoState where
  | inFlight
  | committed
  | aborted
  | compensating
  | compensated
  | superseded
  deriving DecidableEq, Repr

namespace UndoState

/-- The variant's name, as `Debug` prints it. -/
def debug : UndoState → String
  | inFlight => "InFlight"
  | committed => "Committed"
  | aborted => "Aborted"
  | compensating => "Compensating"
  | compensated => "Compensated"
  | superseded => "Superseded"

def isTerminal : UndoState → Bool
  | aborted | compensated | superseded => true
  | _ => false

def canTransitionTo (self next : UndoState) : Bool :=
  if self.isTerminal then false
  else if next = superseded then true
  else
    match self, next with
    | inFlight, committed => true
    | inFlight, aborted => true
    | committed, compensating => true
    | compensating, compensated => true
    | _, _ => false

end UndoState

/-- The loop of `fold_state`, from the running state. -/
def foldFrom (current : UndoState) : List UndoState → Except String UndoState
  | [] => .ok current
  | next :: rest =>
    if current.canTransitionTo next then foldFrom next rest
    else .error s!"illegal transition {current.debug} -> {next.debug}"

def foldState : List UndoState → Except String UndoState
  | [] => .error "empty record chain: an entry must begin InFlight"
  | first :: rest =>
    if first ≠ .inFlight then .error s!"first record must be InFlight, was {first.debug}"
    else foldFrom first rest

theorem foldFrom_append {current s : UndoState} {xs ys : List UndoState}
    (h : foldFrom current xs = .ok s) : foldFrom current (xs ++ ys) = foldFrom s ys := by
  induction xs generalizing current with
  | nil => cases h; rfl
  | cons x xs ih =>
    simp only [foldFrom] at h
    split at h
    · next hx =>
      simp only [List.cons_append, foldFrom, hx, ↓reduceIte]
      exact ih h
    · cases h

/-- A legal chain goes on from its folded state. -/
theorem foldState_append {s : UndoState} {xs ys : List UndoState} (h : foldState xs = .ok s) :
    foldState (xs ++ ys) = foldFrom s ys := by
  cases xs with
  | nil => cases h
  | cons x xs =>
    simp only [foldState] at h
    split at h
    · cases h
    · next hx =>
      simp only [List.cons_append, foldState, hx, ↓reduceIte]
      exact foldFrom_append h

/-- Nothing legal follows a terminal state. -/
theorem foldFrom_terminal {s t : UndoState} {ys : List UndoState} (hs : s.isTerminal = true)
    (h : foldFrom s ys = .ok t) : ys = [] := by
  cases ys with
  | nil => rfl
  | cons y ys => simp [foldFrom, UndoState.canTransitionTo, hs] at h

/-! ## Records -/

structure UndoEntry where
  opId : String
  correlationId : String
  inverse : InverseReceipt
  deriving DecidableEq, Repr

inductive LogRecord where
  | created (entry : UndoEntry) (sealedAtMicros : Int)
  | transition (opId : String) (state : UndoState)
  deriving DecidableEq, Repr

namespace LogRecord

/-- The entry a record creates. -/
def entry? : LogRecord → Option UndoEntry
  | created entry _ => some entry
  | transition _ _ => none

/-- The entry a record creates for `opId`. -/
def entryFor (opId : String) : LogRecord → Option UndoEntry
  | created entry _ => if entry.opId = opId then some entry else none
  | transition _ _ => none

/-- When a record that creates `opId`'s entry was sealed. -/
def sealedFor (opId : String) : LogRecord → Option Int
  | created entry sealedAtMicros => if entry.opId = opId then some sealedAtMicros else none
  | transition _ _ => none

/-- What a record adds to the state chain of `opId`. -/
def stateOf (opId : String) : LogRecord → Option UndoState
  | created entry _ => if entry.opId = opId then some .inFlight else none
  | transition id state => if id = opId then some state else none

end LogRecord

/-- The records, oldest first. -/
abbrev UndoLog := List LogRecord

namespace UndoLog

/-- The states of `opId`'s records, oldest first. -/
def states (log : UndoLog) (opId : String) : List UndoState := log.filterMap (·.stateOf opId)

/-- The entries created, oldest first. -/
def createdEntries (log : UndoLog) : List UndoEntry := log.filterMap LogRecord.entry?

def currentState (log : UndoLog) (opId : String) : Option (Except String UndoState) :=
  if log.createdEntries.any fun e => e.opId = opId then some (foldState (log.states opId))
  else none

def entry (log : UndoLog) (opId : String) : Option UndoEntry := log.findSome? (·.entryFor opId)

def sealedAt (log : UndoLog) (opId : String) : Option Int := log.findSome? (·.sealedFor opId)

/-! ## Listings -/

/-- The scan of `live_entries` and `compensating_entries`: `seen` holds the ids
met so far. -/
def scan {β : Type} (keep : UndoEntry → Option β) : List String → List LogRecord → List β
  | _, [] => []
  | seen, .transition _ _ :: rest => scan keep seen rest
  | seen, .created entry _ :: rest =>
    if entry.opId ∈ seen then scan keep seen rest
    else (keep entry).toList ++ scan keep (entry.opId :: seen) rest

def keepLive (log : UndoLog) (e : UndoEntry) : Option UndoEntry :=
  match log.currentState e.opId with
  | some (.ok state) => if state.isTerminal then none else some e
  | _ => none

def keepCompensating (log : UndoLog) (e : UndoEntry) : Option UndoEntry :=
  match log.currentState e.opId with
  | some (.ok .compensating) => some e
  | _ => none

def keepFolded (log : UndoLog) (e : UndoEntry) : Option (UndoEntry × UndoState) :=
  match log.currentState e.opId with
  | some (.ok state) => some (e, state)
  | _ => none

def liveEntries (log : UndoLog) : List UndoEntry := scan log.keepLive [] log

def compensatingEntries (log : UndoLog) : List UndoEntry := scan log.keepCompensating [] log

/-- The scan of `recent_entries`, which stops once `out` is full. -/
def recentFrom (log : UndoLog) (limit : Nat) :
    List String → List (UndoEntry × UndoState) → List LogRecord → List (UndoEntry × UndoState)
  | _, out, [] => out
  | seen, out, record :: rest =>
    if out.length ≥ limit then out
    else
      match record with
      | .transition _ _ => recentFrom log limit seen out rest
      | .created entry _ =>
        if entry.opId ∈ seen then recentFrom log limit seen out rest
        else recentFrom log limit (entry.opId :: seen) (out ++ (log.keepFolded entry).toList) rest

/-- Newest first. -/
def recentEntries (log : UndoLog) (limit : Nat) : List (UndoEntry × UndoState) :=
  recentFrom log limit [] [] log.reverse

/-! ## What the reads say -/

variable {log log' : UndoLog} {r : LogRecord} {op : String}

theorem states_append : states (log ++ log') op = states log op ++ states log' op := by
  simp [states]

@[simp] theorem createdEntries_append :
    createdEntries (log ++ log') = createdEntries log ++ createdEntries log' := by
  simp [createdEntries]

@[simp] theorem createdEntries_created (e : UndoEntry) (t : Int) :
    createdEntries [.created e t] = [e] := rfl

@[simp] theorem createdEntries_transition (id : String) (s : UndoState) :
    createdEntries [.transition id s] = [] := rfl

theorem mem_createdEntries {e : UndoEntry} :
    e ∈ log.createdEntries ↔ ∃ t, LogRecord.created e t ∈ log := by
  simp only [createdEntries, List.mem_filterMap]
  constructor
  · rintro ⟨r, hr, he⟩
    cases r with
    | created e' t => cases he; exact ⟨t, hr⟩
    | transition id st => cases he
  · rintro ⟨t, ht⟩
    exact ⟨_, ht, rfl⟩

theorem currentState_eq_none : log.currentState op = none ↔
    op ∉ log.createdEntries.map UndoEntry.opId := by
  simp [currentState]

theorem currentState_of_created (h : op ∈ log.createdEntries.map UndoEntry.opId) :
    log.currentState op = some (foldState (log.states op)) := by
  obtain ⟨e, he, rfl⟩ := List.mem_map.1 h
  unfold currentState
  rw [if_pos (List.any_eq_true.2 ⟨e, he, by simp⟩)]

/-- A folded state is the fold of the states. -/
theorem currentState_eq_some {x : Except String UndoState} (h : log.currentState op = some x) :
    op ∈ log.createdEntries.map UndoEntry.opId ∧ foldState (log.states op) = x := by
  by_cases hm : op ∈ log.createdEntries.map UndoEntry.opId
  · rw [currentState_of_created hm] at h
    exact ⟨hm, Option.some.inj h⟩
  · rw [currentState_eq_none.2 hm] at h
    cases h

theorem entry_eq_none : log.entry op = none ↔ op ∉ log.createdEntries.map UndoEntry.opId := by
  simp only [entry, List.findSome?_eq_none_iff, List.mem_map, mem_createdEntries, not_exists,
    not_and]
  constructor
  · rintro h e ⟨t, ht⟩ rfl
    have := h _ ht
    simp [LogRecord.entryFor] at this
  · intro h r hr
    cases r with
    | created e t =>
      have := h e ⟨t, hr⟩
      simpa [LogRecord.entryFor] using this
    | transition id st => rfl

/-- Where every id is created once, and none has been seen, the scan keeps what
it should of every entry. -/
theorem scan_eq {β : Type} {keep : UndoEntry → Option β} {seen : List String}
    (hnodup : (createdEntries log).map UndoEntry.opId |>.Nodup)
    (hfresh : ∀ e ∈ log.createdEntries, e.opId ∉ seen) :
    scan keep seen log = log.createdEntries.filterMap keep := by
  induction log generalizing seen with
  | nil => rfl
  | cons r log ih =>
    cases r with
    | transition id st =>
      simp only [scan]
      exact ih hnodup hfresh
    | created e t =>
      have hcons : createdEntries (LogRecord.created e t :: log) = e :: createdEntries log := rfl
      rw [hcons] at hnodup hfresh ⊢
      rw [List.map_cons, List.nodup_cons] at hnodup
      have hnot : e.opId ∉ seen := hfresh e List.mem_cons_self
      have hrec : scan keep (e.opId :: seen) log = (createdEntries log).filterMap keep := by
        refine ih hnodup.2 fun e' he' => ?_
        rw [List.mem_cons, not_or]
        refine ⟨fun heq => hnodup.1 ?_, hfresh e' (List.mem_cons_of_mem _ he')⟩
        exact heq ▸ List.mem_map_of_mem he'
      simp only [scan, hnot, ↓reduceIte, hrec]
      cases hk : keep e <;> simp [hk]

/-- The bounded scan is the first part of the unbounded one. -/
theorem recentFrom_eq {limit : Nat} {seen : List String} {out : List (UndoEntry × UndoState)}
    (hout : out.length ≤ limit) (rest : List LogRecord) :
    recentFrom log limit seen out rest = (out ++ scan log.keepFolded seen rest).take limit := by
  induction rest generalizing seen out with
  | nil => simp [recentFrom, scan, List.take_of_length_le hout]
  | cons r rest ih =>
    simp only [recentFrom]
    by_cases hfull : out.length ≥ limit
    · have hlen : out.length = limit := by omega
      rw [if_pos hfull, ← hlen, List.take_left]
    · rw [if_neg hfull]
      cases r with
      | transition id st => exact ih hout
      | created e t =>
        by_cases hseen : e.opId ∈ seen
        · simp only [scan, hseen, ↓reduceIte]
          exact ih hout
        · simp only [scan, hseen, ↓reduceIte, ← List.append_assoc]
          refine ih ?_
          cases log.keepFolded e <;> simp <;> omega

theorem recentEntries_eq (limit : Nat) :
    log.recentEntries limit = (scan log.keepFolded [] log.reverse).take limit :=
  recentFrom_eq (Nat.zero_le limit) log.reverse

end UndoLog

end Arlen.Undo
