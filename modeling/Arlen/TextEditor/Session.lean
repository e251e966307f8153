import Mathlib.Algebra.Ring.Int.Defs
import Mathlib.Algebra.Ring.Nat
import Mathlib.Logic.Function.Basic
import Arlen.Lib.Machine

/-!
# The client half of a language server session

`Session` is the handshake phase and the open documents with the version last
sent for each. A run is any interleaving of the editor's calls with messages
from the server; its trace carries what each of them handed out. `Ordered` is
what a server may rely on, read off the messages themselves: documents after
`initialized`, for each document open, changes of rising versions and close in
turn, one answer for each request, silence after `shutdown`. A trace is ordered
exactly when every step of its run is `Allowed`.
-/

namespace Arlen.TextEditor

open Arlen.Lib

/-- `serde_json::Value`; a number that is no 64 bit integer keeps its text. -/
inductive Json
  | null
  | bool (b : Bool)
  | int (i : Int)
  | float (text : String)
  | string (s : String)
  | array (items : List Json)
  | object (fields : List (String × Json))

namespace Json

def get (key : String) : Json → Option Json
  | object fields => fields.lookup key
  | _ => none

def asStr : Json → Option String
  | string s => some s
  | _ => none

def asI64 : Json → Option Int
  | int i => if -2 ^ 63 ≤ i ∧ i < 2 ^ 63 then some i else none
  | _ => none

def asU64 : Json → Option Nat
  | int i => if 0 ≤ i ∧ i < 2 ^ 64 then some i.toNat else none
  | _ => none

def asArray : Json → Option (List Json)
  | array items => some items
  | _ => none

end Json

/-- A message as it goes out. -/
structure Outgoing where
  id : Option Int
  method : String
  params : Option Json

def Outgoing.request (id : Int) (method : String) (params : Json) : Outgoing :=
  { id := some id, method := method, params := some params }

def Outgoing.notification (method : String) (params : Json) : Outgoing :=
  { id := none, method := method, params := some params }

/-- A message from the server; a member that is `null` reads as absent. -/
structure Incoming where
  id : Option Json
  method : Option String
  params : Option Json
  result : Option Json
  error : Option Json

inductive Phase
  | handshaking
  | ready
  | failed
  | shuttingDown
deriving DecidableEq

structure Diagnostic where
  line : Nat
  character : Nat
  severity : Nat
  message : String

inductive Event
  | ready
  | diagnostics (uri : String) (items : List Diagnostic)
  | serverError (text : String)
  | unhandled (method : String)

inductive SessionError
  | notReady (phase : Phase)
  | notOpen (uri : String)

structure Session where
  phase : Phase
  nextId : Int
  opened : String → Option Int

/-- What a call returns: the messages to send and what the surface is told, or a refusal. -/
abbrev Reply := Except SessionError (List Outgoing × List Event)

def Reply.sent : Reply → List Outgoing
  | .error _ => []
  | .ok (out, _) => out

def parseDiagnostic (d : Json) : Option Diagnostic := do
  let start ← (← d.get "range").get "start"
  let line ← (← start.get "line").asU64
  let character ← (← start.get "character").asU64
  let message ← (← d.get "message").asStr
  some
    { line := line % 2 ^ 32
      character := character % 2 ^ 32
      severity := (((d.get "severity").bind Json.asU64).getD 3) % 2 ^ 8
      message := message }

def parseDiagnostics (params : Json) : List Diagnostic :=
  match (params.get "diagnostics").bind Json.asArray with
  | none => []
  | some items => items.filterMap parseDiagnostic

namespace Session

def initializeParams (rootUri : String) : Json :=
  .object [("processId", .null), ("rootUri", .string rootUri),
    ("capabilities", .object [("textDocument", .object
      [("synchronization", .object [("didSave", .bool false), ("willSave", .bool false)]),
        ("publishDiagnostics", .object [])])])]

/-- `take_id`. -/
def takeId (s : Session) : Int × Session := (s.nextId, { s with nextId := s.nextId + 1 })

def start (rootUri : String) : Session × Outgoing :=
  let (id, s) := takeId { phase := .handshaking, nextId := 1, opened := fun _ => none }
  (s, .request id "initialize" (initializeParams rootUri))

def initializedNote : Outgoing := .notification "initialized" (.object [])

/-- The reply to a request this client does not implement. -/
def answer (id : Int) : Outgoing := { id := some id, method := "", params := none }

/-- A message by its method, once the handshake does not take it. -/
def dispatch (s : Session) (msg : Incoming) : (List Outgoing × List Event) × Session :=
  match msg.method with
  | some method =>
    if method = "textDocument/publishDiagnostics" then
      let p := msg.params.getD (.object [])
      let uri := ((p.get "uri").bind Json.asStr).getD ""
      (([], [.diagnostics uri (parseDiagnostics p)]), s)
    else
      match msg.id with
      | some id => (([answer (id.asI64.getD 0)], [.unhandled method]), s)
      | none => (([], [.unhandled method]), s)
  | none => (([], []), s)

def receive (s : Session) (msg : Incoming) : (List Outgoing × List Event) × Session :=
  if s.phase = .handshaking ∧ msg.id.isSome then
    match msg.error with
    | some err =>
      let text := ((err.get "message").bind Json.asStr).getD "the server refused to initialize"
      (([], [.serverError text]), { s with phase := .failed })
    | none =>
      if msg.result.isSome then
        (([initializedNote], [.ready]), { s with phase := .ready })
      else dispatch s msg
  else dispatch s msg

def openNote (uri languageId text : String) : Outgoing :=
  .notification "textDocument/didOpen" (.object [("textDocument", .object
    [("uri", .string uri), ("languageId", .string languageId), ("version", .int 1),
      ("text", .string text)])])

def changeNote (uri : String) (version : Int) (text : String) : Outgoing :=
  .notification "textDocument/didChange" (.object
    [("textDocument", .object [("uri", .string uri), ("version", .int version)]),
      ("contentChanges", .array [.object [("text", .string text)]])])

def closeNote (uri : String) : Outgoing :=
  .notification "textDocument/didClose" (.object [("textDocument", .object [("uri", .string uri)])])

def didOpen (s : Session) (uri languageId text : String) : Except SessionError Outgoing × Session :=
  if s.phase ≠ .ready then (.error (.notReady s.phase), s)
  else
    (.ok (openNote uri languageId text),
      { s with opened := Function.update s.opened uri (some 1) })

def didChange (s : Session) (uri text : String) : Except SessionError Outgoing × Session :=
  if s.phase ≠ .ready then (.error (.notReady s.phase), s)
  else
    match s.opened uri with
    | none => (.error (.notOpen uri), s)
    | some version =>
      (.ok (changeNote uri (version + 1) text),
        { s with opened := Function.update s.opened uri (some (version + 1)) })

def didClose (s : Session) (uri : String) : Except SessionError Outgoing × Session :=
  if s.phase ≠ .ready then (.error (.notReady s.phase), s)
  else
    (.ok (closeNote uri), { s with opened := Function.update s.opened uri none })

def shutdown (s : Session) : Outgoing × Session :=
  let (id, s) := s.takeId
  (.request id "shutdown" .null, { s with phase := .shuttingDown })

end Session

/-- What the editor calls, and what the server sends. -/
inductive Call
  | didOpen (uri languageId text : String)
  | didChange (uri text : String)
  | didClose (uri : String)
  | shutdown
  | receive (msg : Incoming)

def one : Except SessionError Outgoing → Reply
  | .error e => .error e
  | .ok out => .ok ([out], [])

def Session.call (s : Session) : Call → Reply × Session
  | .didOpen uri languageId text =>
    (one (s.didOpen uri languageId text).1, (s.didOpen uri languageId text).2)
  | .didChange uri text => (one (s.didChange uri text).1, (s.didChange uri text).2)
  | .didClose uri => (one (s.didClose uri).1, (s.didClose uri).2)
  | .shutdown => (.ok ([s.shutdown.1], []), s.shutdown.2)
  | .receive msg => (.ok (s.receive msg).1, (s.receive msg).2)

/-- A session with one server. -/
def session (rootUri : String) : Machine Session Call Reply where
  init := (Session.start rootUri).1
  step s a := some (s.call a)

abbrev Trace := List (Call × Reply)

/-! ### What the server sees -/

/-- A document notification, without its document. -/
inductive DocNote
  | opened (version : Int)
  | changed (version : Int)
  | closed

def Outgoing.textDocument (key : String) (o : Outgoing) : Option Json :=
  (o.params.bind (Json.get "textDocument")).bind (Json.get key)

def Outgoing.version (o : Outgoing) : Option Int :=
  match o.textDocument "version" with
  | some (.int v) => some v
  | _ => none

/-- The document notification a message is. -/
def Outgoing.docNote (o : Outgoing) : Option (String × DocNote) :=
  match (o.textDocument "uri").bind Json.asStr with
  | none => none
  | some uri =>
    if o.method = "textDocument/didOpen" then o.version.map fun v => (uri, .opened v)
    else if o.method = "textDocument/didChange" then o.version.map fun v => (uri, .changed v)
    else if o.method = "textDocument/didClose" then some (uri, .closed)
    else none

/-- The notification of one document a message is. -/
def Outgoing.noteFor (uri : String) (o : Outgoing) : Option DocNote :=
  match o.docNote with
  | some (u, note) => if u = uri then some note else none
  | none => none

/-- The id a message answers. -/
def Outgoing.answers (o : Outgoing) : Option Json :=
  if o.method = "" then o.id.map Json.int else none

def Outgoing.isInitialized (o : Outgoing) : Prop := o.method = "initialized" ∧ o.id = none

/-- The id of a request from the server. -/
def Incoming.request (msg : Incoming) : Option Json :=
  match msg.method with
  | none => none
  | some _ => msg.id

def Call.request : Call → Option Json
  | .receive msg => msg.request
  | _ => none

/-- One notification more: the version the server then holds, or `none` out of order. -/
def DocNote.next : Option Int → DocNote → Option (Option Int)
  | none, .opened v => some (some v)
  | some v, .changed w => if v < w then some (some w) else none
  | some _, .closed => some none
  | _, _ => none

/-- Open, changes with strictly increasing versions, close, repeated. -/
def track (notes : List DocNote) : Option (Option Int) := notes.foldlM DocNote.next none

namespace Trace

def handed (τ : Trace) : List Outgoing := τ.flatMap fun e => Reply.sent e.2

def notes (uri : String) (τ : Trace) : List DocNote := (handed τ).filterMap (Outgoing.noteFor uri)

def answers (τ : Trace) : List Json := (handed τ).filterMap Outgoing.answers

def requests (τ : Trace) : List Json := τ.filterMap fun e => e.1.request

end Trace

/-- What a server may rely on. -/
structure Ordered (τ : Trace) : Prop where
  initialized : ∀ before o after, τ.handed = before ++ o :: after → o.docNote ≠ none →
    ∃ m ∈ before, m.isInitialized
  documents : ∀ uri, track (τ.notes uri) ≠ none
  answered : τ.answers = τ.requests
  silent : ∀ before r after, τ = before ++ (Call.shutdown, r) :: after → Trace.handed after = []

/-! ### What a step can do -/

open Session

/-- What one call hands out, and the session it leaves. -/
inductive Step (s : Session) : Call → List Outgoing → Session → Prop
  | refusedOpen {uri languageId text : String} : s.phase ≠ .ready →
      Step s (.didOpen uri languageId text) [] s
  | refusedChange {uri text : String} : Step s (.didChange uri text) [] s
  | refusedClose {uri : String} : s.phase ≠ .ready → Step s (.didClose uri) [] s
  | opened {uri languageId text : String} : s.phase = .ready →
      Step s (.didOpen uri languageId text) [openNote uri languageId text]
        { s with opened := Function.update s.opened uri (some 1) }
  | changed {uri text : String} {version : Int} : s.phase = .ready → s.opened uri = some version →
      Step s (.didChange uri text) [changeNote uri (version + 1) text]
        { s with opened := Function.update s.opened uri (some (version + 1)) }
  | closed {uri : String} : s.phase = .ready →
      Step s (.didClose uri) [closeNote uri]
        { s with opened := Function.update s.opened uri none }
  | shutdown : Step s .shutdown [.request s.nextId "shutdown" .null]
      { s with nextId := s.nextId + 1, phase := .shuttingDown }
  | initialized {msg : Incoming} : s.phase = .handshaking → msg.error = none →
      msg.result.isSome → Step s (.receive msg) [initializedNote] { s with phase := .ready }
  | failed {msg : Incoming} : s.phase = .handshaking → msg.error.isSome →
      Step s (.receive msg) [] { s with phase := .failed }
  | answered {msg : Incoming} {id : Json} : msg.request = some id →
      msg.method ≠ some "textDocument/publishDiagnostics" →
      (s.phase = .handshaking → msg.error = none ∧ msg.result = none) →
      Step s (.receive msg) [answer (id.asI64.getD 0)] s
  | noted {msg : Incoming} : (∀ id, msg.request = some id →
      msg.method = some "textDocument/publishDiagnostics") → Step s (.receive msg) [] s

theorem step_dispatch (s : Session) (msg : Incoming)
    (h : msg.id.isSome → s.phase = .handshaking → msg.error = none ∧ msg.result = none) :
    Step s (.receive msg) (s.dispatch msg).1.1 (s.dispatch msg).2 := by
  unfold dispatch
  cases hmethod : msg.method with
  | none =>
    refine .noted fun id hid => ?_
    rw [Incoming.request, hmethod] at hid
    cases hid
  | some method =>
    have hreq : msg.request = msg.id := by rw [Incoming.request, hmethod]
    dsimp only
    split
    case isTrue hpub => exact .noted fun _ _ => by rw [hmethod, hpub]
    case isFalse hpub =>
      cases hid : msg.id with
      | none =>
        refine .noted fun id hsome => ?_
        rw [hreq, hid] at hsome
        cases hsome
      | some id =>
        refine .answered (hreq.trans hid) ?_ (h (by rw [hid]; rfl))
        rw [hmethod]
        exact fun heq => hpub (Option.some.inj heq)

theorem step_receive (s : Session) (msg : Incoming) :
    Step s (.receive msg) (s.receive msg).1.1 (s.receive msg).2 := by
  unfold receive
  split
  case isFalse h => exact step_dispatch s msg fun hid hphase => absurd ⟨hphase, hid⟩ h
  case isTrue h =>
    cases herr : msg.error with
    | some err => exact .failed h.1 (by rw [herr]; rfl)
    | none =>
      dsimp only
      split
      case isTrue hres => exact .initialized h.1 herr hres
      case isFalse hres =>
        exact step_dispatch s msg fun _ _ => ⟨herr, Option.not_isSome_iff_eq_none.mp hres⟩

/-- **Every call is one of these steps.** -/
theorem step_call (s : Session) (a : Call) : Step s a (s.call a).1.sent (s.call a).2 := by
  cases a with
  | shutdown => exact .shutdown
  | receive msg => exact step_receive s msg
  | didOpen uri languageId text =>
    show Step s _ (Reply.sent (one (s.didOpen uri languageId text).1))
      (s.didOpen uri languageId text).2
    unfold didOpen
    split
    case isTrue h => exact .refusedOpen h
    case isFalse h => exact .opened (not_not.mp h)
  | didClose uri =>
    show Step s _ (Reply.sent (one (s.didClose uri).1)) (s.didClose uri).2
    unfold didClose
    split
    case isTrue h => exact .refusedClose h
    case isFalse h => exact .closed (not_not.mp h)
  | didChange uri text =>
    show Step s _ (Reply.sent (one (s.didChange uri text).1)) (s.didChange uri text).2
    unfold didChange
    split
    case isTrue h => exact .refusedChange
    case isFalse h =>
      cases hopen : s.opened uri with
      | none => exact .refusedChange
      | some version => exact .changed (not_not.mp h) hopen

/-! ### What the messages say -/

section Messages

variable (uri languageId text : String) (i : Int)

theorem docNote_openNote : (openNote uri languageId text).docNote = some (uri, .opened 1) := rfl

theorem docNote_changeNote : (changeNote uri i text).docNote = some (uri, .changed i) := rfl

theorem docNote_closeNote : (closeNote uri).docNote = some (uri, .closed) := rfl

theorem docNote_shutdown : (Outgoing.request i "shutdown" .null).docNote = none := rfl

theorem docNote_initializedNote : initializedNote.docNote = none := rfl

theorem docNote_answer : (answer i).docNote = none := rfl

end Messages

/-- The steps the order survives: nothing is opened twice or closed unopened, the
session is shut down once, and a request from the server comes before that, under a 64 bit
integer, for something this client does not take for a notification or for the answer to
its handshake. -/
def Allowed (s : Session) : Call → Prop
  | .didOpen uri _ _ => s.phase = .ready → s.opened uri = none
  | .didChange _ _ => True
  | .didClose uri => s.phase = .ready → s.opened uri ≠ none
  | .shutdown => s.phase ≠ .shuttingDown
  | .receive msg => ∀ id, msg.request = some id → s.phase ≠ .shuttingDown ∧
      id.asI64.isSome ∧ msg.method ≠ some "textDocument/publishDiagnostics" ∧
      (s.phase = .handshaking → msg.error = none ∧ msg.result = none)

instance (s : Session) (a : Call) : Decidable (Allowed s a) := by
  cases a with
  | didOpen uri languageId text => exact inferInstanceAs (Decidable (_ → _))
  | didChange uri text => exact .isTrue trivial
  | didClose uri => exact inferInstanceAs (Decidable (_ → _))
  | shutdown => exact inferInstanceAs (Decidable (_ ≠ _))
  | receive msg => exact inferInstanceAs (Decidable (∀ id, id ∈ msg.request → _))

variable {s s' : Session} {a : Call} {r : Reply} {out : List Outgoing} {τ : Trace} {o : Outgoing}

theorem filterMap_noteFor_other (h : o.docNote = none) (uri : String) :
    [o].filterMap (Outgoing.noteFor uri) = [] := by
  rw [List.filterMap_cons, List.filterMap_nil, Outgoing.noteFor, h]

theorem filterMap_noteFor_same {uri : String} {note : DocNote} (h : o.docNote = some (uri, note)) :
    [o].filterMap (Outgoing.noteFor uri) = [note] := by
  have hnote : o.noteFor uri = some note := by
    rw [Outgoing.noteFor, h]
    exact if_pos rfl
  rw [List.filterMap_cons_some hnote, List.filterMap_nil]

/-- One notification moves its document and no other. -/
theorem track_note {u uri : String} {note : DocNote} {v : Option Int} {docs : String → Option Int}
    (h : o.docNote = some (u, note)) (hnext : DocNote.next (docs u) note = some v) :
    ([o].filterMap (Outgoing.noteFor uri)).foldlM DocNote.next (docs uri) =
      some (Function.update docs u v uri) := by
  by_cases huri : uri = u
  · subst huri
    rw [filterMap_noteFor_same h, Function.update_self]
    simpa [List.foldlM] using hnext
  · have hnote : o.noteFor uri = none := by
      rw [Outgoing.noteFor, h]
      exact if_neg fun heq => huri heq.symm
    rw [List.filterMap_cons_none hnote, Function.update_of_ne huri]
    rfl

/-- The notifications of an allowed step follow the open documents. -/
theorem Step.track (h : Step s a out s') (ok : Allowed s a) (uri : String) :
    (out.filterMap (Outgoing.noteFor uri)).foldlM DocNote.next (s.opened uri) =
      some (s'.opened uri) := by
  cases h with
  | refusedOpen _ | refusedChange | refusedClose _ | failed _ _ | noted _ => rfl
  | opened hready =>
    refine track_note (docNote_openNote _ _ _) ?_
    rw [ok hready]
    rfl
  | changed _ hopen =>
    refine track_note (docNote_changeNote _ _ _) ?_
    rw [hopen]
    exact if_pos (Int.lt_succ _)
  | closed hready =>
    refine track_note (docNote_closeNote _) ?_
    obtain ⟨v, hv⟩ := Option.ne_none_iff_exists'.mp (ok hready)
    rw [hv]
    rfl
  | shutdown => rw [filterMap_noteFor_other (docNote_shutdown _)]; rfl
  | initialized _ _ _ => rw [filterMap_noteFor_other docNote_initializedNote]; rfl
  | answered _ _ _ => rw [filterMap_noteFor_other (docNote_answer _)]; rfl

theorem filterMap_answers_answer (i : Int) :
    [answer i].filterMap Outgoing.answers = [Json.int i] := rfl

/-- What is answered by a step, whatever it is. -/
theorem Step.answers (h : Step s a out s') : out.filterMap Outgoing.answers = [] ∨
    ∃ msg id, a = .receive msg ∧ msg.request = some id ∧
      out.filterMap Outgoing.answers = [Json.int (id.asI64.getD 0)] := by
  cases h with
  | answered hreq _ _ => exact .inr ⟨_, _, rfl, hreq, rfl⟩
  | refusedOpen _ | refusedChange | refusedClose _ | failed _ _ | noted _ => exact .inl rfl
  | opened _ | changed _ _ | closed _ | shutdown | initialized _ _ _ => exact .inl rfl

theorem Step.length_answers_le (h : Step s a out s') :
    (out.filterMap Outgoing.answers).length ≤ a.request.toList.length := by
  obtain hnone | ⟨msg, id, rfl, hreq, hone⟩ := h.answers
  · rw [hnone]
    exact Nat.zero_le _
  · rw [hone, Call.request, hreq]
    exact Nat.le_refl _

theorem eq_int_of_asI64 {id : Json} (h : id.asI64.isSome) : Json.int (id.asI64.getD 0) = id := by
  cases id with
  | int i =>
    unfold Json.asI64 at h ⊢
    dsimp only at h ⊢
    split_ifs at h ⊢ with hi
    · rfl
    · cases h
  | null => cases h
  | bool _ => cases h
  | float _ => cases h
  | string _ => cases h
  | array _ => cases h
  | object _ => cases h

/-- A request that is answered under its own id has a 64 bit integer for it. -/
theorem asI64_isSome_of_eq_int {id : Json} (h : Json.int (id.asI64.getD 0) = id) :
    id.asI64.isSome := by
  cases hid : id.asI64 with
  | some i => rfl
  | none =>
    rw [hid] at h
    rw [← h] at hid
    cases hid

/-- An allowed step answers the request it is. -/
theorem Step.answered_of_allowed (h : Step s a out s') (ok : Allowed s a) :
    out.filterMap Outgoing.answers = a.request.toList := by
  cases h with
  | answered hreq _ _ =>
    rw [filterMap_answers_answer, eq_int_of_asI64 (ok _ hreq).2.1, Call.request, hreq]
    rfl
  | initialized hphase _ hres =>
    show [] = _
    rw [Call.request]
    cases hreq : Incoming.request _ with
    | none => rfl
    | some id =>
      rw [((ok id hreq).2.2.2 hphase).2] at hres
      cases hres
  | failed hphase herr =>
    rw [Call.request]
    cases hreq : Incoming.request _ with
    | none => rfl
    | some id =>
      rw [((ok id hreq).2.2.2 hphase).1] at herr
      cases herr
  | noted hpub =>
    rw [Call.request]
    cases hreq : Incoming.request _ with
    | none => rfl
    | some id => exact absurd (hpub id hreq) (ok id hreq).2.2.1
  | opened _ | changed _ _ | closed _ | shutdown => rfl
  | refusedOpen _ | refusedChange | refusedClose _ => rfl

/-- After `shutdown` an allowed step hands out nothing. -/
theorem Step.silent (h : Step s a out s') (ok : Allowed s a) (hdown : s.phase = .shuttingDown) :
    out = [] := by
  cases h with
  | opened hready | changed hready _ | closed hready =>
    rw [hdown] at hready
    cases hready
  | shutdown => exact absurd hdown ok
  | initialized hphase _ _ =>
    rw [hdown] at hphase
    cases hphase
  | answered hreq _ _ => exact absurd hdown (ok _ hreq).1
  | refusedOpen _ | refusedChange | refusedClose _ | failed _ _ | noted _ => rfl

/-- **A step that keeps the order is allowed.** -/
theorem Step.allowed (h : Step s a out s')
    (htrack : ∀ uri, (out.filterMap (Outgoing.noteFor uri)).foldlM DocNote.next
      (s.opened uri) ≠ none)
    (hanswers : out.filterMap Outgoing.answers = a.request.toList)
    (hsilent : s.phase = .shuttingDown → out = []) : Allowed s a := by
  cases h with
  | refusedOpen hphase => exact fun hready => absurd hready hphase
  | refusedClose hphase => exact fun hready => absurd hready hphase
  | refusedChange => trivial
  | changed _ _ => trivial
  | @opened uri languageId text hready =>
    intro _
    have hnext := htrack uri
    rw [filterMap_noteFor_same (docNote_openNote uri languageId text)] at hnext
    cases hopen : s.opened uri with
    | none => rfl
    | some v =>
      rw [hopen] at hnext
      exact absurd rfl hnext
  | @closed uri hready =>
    intro _ hopen
    have hnext := htrack uri
    rw [filterMap_noteFor_same (docNote_closeNote uri), hopen] at hnext
    exact absurd rfl hnext
  | shutdown =>
    intro hdown
    cases hsilent hdown
  | initialized _ _ _ =>
    intro id hid
    rw [Call.request, hid] at hanswers
    cases hanswers
  | failed _ _ =>
    intro id hid
    rw [Call.request, hid] at hanswers
    cases hanswers
  | noted _ =>
    intro id hid
    rw [Call.request, hid] at hanswers
    cases hanswers
  | answered hreq hpub hshake =>
    intro id hid
    cases hreq.symm.trans hid
    rw [filterMap_answers_answer, Call.request, hreq] at hanswers
    refine ⟨fun hdown => ?_, asI64_isSome_of_eq_int (List.head_eq_of_cons_eq hanswers), hpub, hshake⟩
    cases hsilent hdown

/-! ### Runs -/

namespace Trace

variable (τ : Trace) (a : Call) (r : Reply)

theorem handed_append : handed (τ ++ [(a, r)]) = τ.handed ++ r.sent := by
  rw [handed, List.flatMap_append, List.flatMap_singleton]
  rfl

theorem notes_append (uri : String) :
    notes uri (τ ++ [(a, r)]) = τ.notes uri ++ r.sent.filterMap (Outgoing.noteFor uri) := by
  rw [notes, handed_append, List.filterMap_append]
  rfl

theorem answers_append :
    answers (τ ++ [(a, r)]) = τ.answers ++ r.sent.filterMap Outgoing.answers := by
  rw [answers, handed_append, List.filterMap_append]
  rfl

theorem requests_append : requests (τ ++ [(a, r)]) = τ.requests ++ a.request.toList := by
  have hone : [(a, r)].filterMap (fun e : Call × Reply => e.1.request) = a.request.toList := by
    rw [List.filterMap_cons, List.filterMap_nil]
    cases a.request <;> rfl
  rw [requests, List.filterMap_append, hone]
  rfl

end Trace

theorem track_append (ns ms : List DocNote) :
    track (ns ++ ms) = (track ns).bind fun v => ms.foldlM DocNote.next v := by
  rw [track, List.foldlM_append]
  rfl

/-- What every run keeps. -/
structure Seen (τ : Trace) (s : Session) : Prop where
  first : ∀ before o after, τ.handed = before ++ o :: after → o.docNote ≠ none →
    ∃ m ∈ before, m.isInitialized
  ready : s.phase = .ready → ∃ m ∈ τ.handed, m.isInitialized
  down : s.phase = .shuttingDown ↔ ∃ r, (Call.shutdown, r) ∈ τ
  length_le : τ.answers.length ≤ τ.requests.length

/-- A document is spoken of only while the session is ready. -/
theorem Step.ready_of_docNote (h : Step s a out s') (ho : o ∈ out) (hnote : o.docNote ≠ none) :
    s.phase = .ready := by
  cases h with
  | opened hready | changed hready _ | closed hready => exact hready
  | refusedOpen _ | refusedChange | refusedClose _ | failed _ _ | noted _ => cases ho
  | shutdown | initialized _ _ _ | answered _ _ _ =>
    cases List.mem_singleton.mp ho
    exact absurd rfl hnote

theorem Step.phase_ready (h : Step s a out s') (hready : s'.phase = .ready) :
    s.phase = .ready ∨ initializedNote ∈ out := by
  cases h with
  | initialized _ _ _ => exact .inr List.mem_cons_self
  | shutdown | failed _ _ => cases hready
  | refusedOpen _ | refusedChange | refusedClose _ | noted _ | answered _ _ _ => exact .inl hready
  | opened _ | changed _ _ | closed _ => exact .inl hready

theorem Step.phase_down (h : Step s a out s') :
    s'.phase = .shuttingDown ↔ s.phase = .shuttingDown ∨ a = .shutdown := by
  cases h with
  | shutdown => exact ⟨fun _ => .inr rfl, fun _ => rfl⟩
  | initialized hphase _ _ => simp [hphase]
  | failed hphase _ => simp [hphase]
  | refusedOpen _ | refusedChange | refusedClose _ | noted _ | answered _ _ _ => simp
  | opened _ | changed _ _ | closed _ => simp

theorem first_append {l out : List Outgoing}
    (h : ∀ before o after, l = before ++ o :: after → o.docNote ≠ none →
      ∃ m ∈ before, m.isInitialized)
    (hout : ∀ o ∈ out, o.docNote ≠ none → ∃ m ∈ l, m.isInitialized) :
    ∀ before o after, l ++ out = before ++ o :: after → o.docNote ≠ none →
      ∃ m ∈ before, m.isInitialized := by
  intro before o after hsplit hnote
  rcases List.append_eq_append_iff.mp hsplit with ⟨mid, rfl, hmid⟩ | ⟨mid, rfl, hmid⟩
  · obtain ⟨m, hm, hinit⟩ := hout o (hmid ▸ by simp) hnote
    exact ⟨m, List.mem_append_left mid hm, hinit⟩
  · cases mid with
    | nil =>
      rw [List.nil_append] at hmid
      obtain ⟨m, hm, hinit⟩ := hout o (hmid ▸ List.mem_cons_self) hnote
      exact ⟨m, by simpa using hm, hinit⟩
    | cons x mid =>
      obtain ⟨rfl, -⟩ := List.cons.inj hmid
      exact h before _ mid rfl hnote

theorem Seen.step (seen : Seen τ s) (h : Step s a r.sent s') : Seen (τ ++ [(a, r)]) s' where
  first := by
    rw [Trace.handed_append]
    exact first_append seen.first fun o ho hnote => seen.ready (h.ready_of_docNote ho hnote)
  ready hready := by
    rw [Trace.handed_append]
    rcases h.phase_ready hready with hwas | hnow
    · obtain ⟨m, hm, hinit⟩ := seen.ready hwas
      exact ⟨m, List.mem_append_left _ hm, hinit⟩
    · exact ⟨initializedNote, List.mem_append_right _ hnow, rfl, rfl⟩
  down := by
    rw [h.phase_down, seen.down]
    constructor
    · rintro (⟨r', hr'⟩ | rfl)
      · exact ⟨r', List.mem_append_left _ hr'⟩
      · exact ⟨r, List.mem_append_right _ List.mem_cons_self⟩
    · rintro ⟨r', hr'⟩
      rcases List.mem_append.mp hr' with hr' | hr'
      · exact .inl ⟨r', hr'⟩
      · exact .inr (congrArg Prod.fst (List.mem_singleton.mp hr')).symm
  length_le := by
    rw [Trace.answers_append, Trace.requests_append, List.length_append, List.length_append]
    exact Nat.add_le_add seen.length_le h.length_answers_le

theorem step_session {root : String} (h : (session root).step s a = some (r, s')) :
    Step s a r.sent s' := by
  have hcall : s.call a = (r, s') := Option.some.inj h
  have hstep := step_call s a
  rwa [hcall] at hstep

theorem seen_run {root : String} (h : (session root).Run Machine.anyStep τ s) : Seen τ s := by
  refine h.inv ⟨?_, ?_, ?_, Nat.le_refl _⟩ fun {τ s a r s'} seen _ hs => ?_
  · intro before o after hsplit
    cases before <;> cases hsplit
  · intro hready
    cases hready
  · constructor
    · intro hdown
      cases hdown
    · rintro ⟨_, hr⟩
      cases hr
  · exact seen.step (step_session hs)

/-- What a trace keeps when one more call is answered. -/
theorem Ordered.append (h : Ordered τ) (seen : Seen τ s) (hstep : Step s a r.sent s')
    (htrack : ∀ uri, track (τ.notes uri) = some (s.opened uri)) (ok : Allowed s a) :
    Ordered (τ ++ [(a, r)]) where
  initialized := (seen.step hstep).first
  documents uri := by
    rw [Trace.notes_append, track_append, htrack uri, Option.bind_some, hstep.track ok uri]
    exact Option.some_ne_none _
  answered := by
    rw [Trace.answers_append, Trace.requests_append, h.answered, hstep.answered_of_allowed ok]
  silent before r' after hsplit := by
    rcases List.eq_nil_or_concat after with rfl | ⟨after, e, rfl⟩
    · rfl
    · rw [List.concat_eq_append] at hsplit ⊢
      rw [← List.cons_append, ← List.append_assoc] at hsplit
      obtain ⟨hτ, he⟩ := List.append_inj' hsplit rfl
      cases (List.cons.inj he).1
      have hdown : s.phase = .shuttingDown := seen.down.mpr ⟨r', hτ ▸ by simp⟩
      rw [Trace.handed_append, h.silent before r' after hτ, hstep.silent ok hdown]
      rfl

theorem Ordered.of_append (h : Ordered (τ ++ [(a, r)])) (seen : Seen τ s)
    (hstep : Step s a r.sent s') : Ordered τ where
  initialized := seen.first
  documents uri hnone := by
    refine h.documents uri ?_
    rw [Trace.notes_append, track_append, hnone]
    rfl
  answered := by
    have hall := h.answered
    rw [Trace.answers_append, Trace.requests_append] at hall
    have hlen := congrArg List.length hall
    rw [List.length_append, List.length_append] at hlen
    have hle := seen.length_le
    have hone := hstep.length_answers_le
    exact (List.append_inj hall (by omega)).1
  silent before r' after hsplit := by
    have hall := h.silent before r' (after ++ [(a, r)]) (by rw [hsplit]; simp)
    rw [Trace.handed_append] at hall
    exact (List.append_eq_nil_iff.mp hall).1

/-- **Allowed steps keep the order**, and the server's view of each document is ours. -/
theorem ordered_of_allowed {root : String} (h : (session root).Run Allowed τ s) :
    Ordered τ ∧ Seen τ s ∧ ∀ uri, track (τ.notes uri) = some (s.opened uri) := by
  have seen₀ : Seen [] (session root).init := seen_run .start
  refine h.inv (I := fun τ s => Ordered τ ∧ Seen τ s ∧
    ∀ uri, track (Trace.notes uri τ) = some (s.opened uri)) ⟨?_, seen₀, fun _ => rfl⟩
    fun {τ s a r s'} inv ok hs => ?_
  · refine ⟨seen₀.first, fun _ => Option.some_ne_none _, rfl, ?_⟩
    intro before r after hsplit
    cases before <;> cases hsplit
  · obtain ⟨ordered, seen, htrack⟩ := inv
    have hstep := step_session hs
    refine ⟨ordered.append seen hstep htrack ok, seen.step hstep, fun uri => ?_⟩
    rw [Trace.notes_append, track_append, htrack uri, Option.bind_some, hstep.track ok uri]

theorem allowed_of_ordered {root : String} (h : (session root).Run Machine.anyStep τ s)
    (ordered : Ordered τ) : (session root).Run Allowed τ s := by
  induction h with
  | start => exact .start
  | @step τ s s' a r hrun _ hs ih =>
    have hstep := step_session hs
    have seen := seen_run hrun
    have before := ordered.of_append seen hstep
    obtain ⟨-, -, htrack⟩ := ordered_of_allowed (ih before)
    refine (ih before).step (hstep.allowed ?_ ?_ ?_) hs
    · intro uri hnone
      refine ordered.documents uri ?_
      rw [Trace.notes_append, track_append, htrack uri, Option.bind_some, hnone]
    · have hall := ordered.answered
      rw [Trace.answers_append, Trace.requests_append, before.answered] at hall
      exact List.append_cancel_left hall
    · intro hdown
      obtain ⟨r', hr'⟩ := seen.down.mp hdown
      obtain ⟨pre, post, rfl⟩ := List.append_of_mem hr'
      have hall := ordered.silent pre r' (post ++ [(a, r)]) (by simp)
      rw [Trace.handed_append] at hall
      exact (List.append_eq_nil_iff.mp hall).2

/-- **What a session hands out is ordered** exactly when every step of its run is allowed. -/
theorem ordered_iff_allowed {root : String} {τ : Trace} {s : Session}
    (h : (session root).Run Machine.anyStep τ s) :
    Ordered τ ↔ (session root).Run Allowed τ s :=
  ⟨allowed_of_ordered h, fun hrun => (ordered_of_allowed hrun).1⟩

/-- A document opened, changed and closed once the server has answered the handshake. -/
theorem ordered_iff_allowed_edit :
    let reply : Incoming := ⟨some (.int 1), none, none, some (.object []), none⟩
    let calls := [Call.receive reply, .didOpen "a" "rust" "", .didChange "a" "x", .didClose "a",
      .shutdown]
    ∃ τ s, (session "w").exec Machine.anyStep (session "w").init calls = some (τ, s) ∧
      (session "w").Run Allowed τ s ∧ Ordered τ := by
  intro reply calls
  have hexec : (session "w").exec Machine.anyStep (session "w").init calls = some (_, _) := rfl
  have hallowed : (session "w").exec Allowed (session "w").init calls = some (_, _) := rfl
  exact ⟨_, _, hexec, Machine.run_of_exec hallowed,
    (ordered_iff_allowed (Machine.run_of_exec hexec)).2 (Machine.run_of_exec hallowed)⟩

/-- A request under a string id is answered under the number zero. -/
theorem string_id_misanswered :
    ¬ ∀ (root : String) (τ : Trace) (s : Session),
      (session root).Run Machine.anyStep τ s → Ordered τ := by
  intro claim
  let ask : Incoming := ⟨some (.string "r"), some "workspace/configuration", none, none, none⟩
  have hrun : (session "w").Run Machine.anyStep ([] ++ [(.receive ask, _)]) _ :=
    .step .start trivial rfl
  have hanswered := (claim "w" _ _ hrun).answered
  have hanswers : Trace.answers ([] ++ [(.receive ask, ((session "w").init.call (.receive ask)).1)]) =
      [.int 0] := rfl
  cases hanswers.symm.trans hanswered

end Arlen.TextEditor
