import Arlen.Audit.Chain
import Arlen.Lib.Except

/-!
# The read API (`audit-daemon/src/read.rs`, `LedgerReader`, `audit-proto/src/read_client.rs`)

A reader asks the daemon for a page: the entries of an index range that match a filter,
ascending, with the head and the number of everything that matches. Request and reply
are JSON in frames of at most 256 KiB; a reply that does not fit ends the connection.
The daemon answers in time and its queries do not fail in the database.
-/

namespace Arlen.Audit

open Arlen.Lib

/-! ## Wire types -/

/-- An entry as the read API shows it: the structural tier only. -/
structure StructuralView where
  index : Nat
  timestampMicros : Int
  kind : AuditKind
  actor : String
  structural : StructuralRecord
  callChainId : Option String
  projectId : Option String
  entryHashHex : String
  deriving DecidableEq, Repr

structure ReadRequest where
  «from» : Nat
  «to» : Nat
  limit : Nat
  projectId : Option String
  callChainId : Option String
  actor : Option String
  deriving DecidableEq, Repr

structure ReadPage where
  entries : List StructuralView
  tampered : Bool
  head : Nat
  matching : Nat
  deriving DecidableEq, Repr

inductive ReadResponse where
  | page (p : ReadPage)
  | error (reason : String)
  deriving DecidableEq, Repr

inductive ReadClientError where
  | transport (text : String)
  | server (reason : String)
  deriving DecidableEq, Repr

/-- The JSON of the two sides. -/
structure Wire where
  request : Serde ReadRequest
  response : Serde ReadResponse

def maxFrame : Nat := 256 * 1024

/-- Whether a text is sent and received as one frame. -/
def FitsFrame (body : String) : Prop := 1 ≤ body.utf8ByteSize ∧ body.utf8ByteSize ≤ maxFrame

instance (body : String) : Decidable (FitsFrame body) := inferInstanceAs (Decidable (_ ∧ _))

/-! ## The ledger reader -/

def maxReadLimit : Nat := 1000

/-- The filters of a read; what is not given does not filter. -/
structure ReadFilter where
  projectId : Option String
  callChainId : Option String
  actor : Option String

def ReadFilter.ofActor (actor : String) : ReadFilter := ⟨none, none, some actor⟩

/-- `?n IS NULL OR column = ?n`. -/
def columnIs (wanted : Option String) (column : Option SqlValue) : Bool :=
  match wanted with
  | none => true
  | some s => column == some (.text s)

def ReadFilter.accepts (f : ReadFilter) (row : Row) : Bool :=
  columnIs f.projectId row.projectId && columnIs f.callChainId row.callChainId &&
    columnIs f.actor (some row.actor)

def decodeStructuralView (D : Deps) (row : Row) : Except AuditError StructuralView := do
  let timestamp ← SqlValue.getInt "timestamp" row.timestamp
  let kindStr ← SqlValue.getString "kind" row.kind
  let kind ← match AuditKind.fromWire kindStr with
    | some k => .ok k
    | none => .error (.storage s!"unknown audit kind '{kindStr}'")
  let actor ← SqlValue.getString "actor" row.actor
  let structuralJson ← SqlValue.getString "structural" row.structural
  let structural ← match D.structural.fromStr structuralJson with
    | .ok s => .ok s
    | .error e => .error (.storage s!"decode structural: {e}")
  let callChainId ← SqlValue.getOptString "call_chain_id" row.callChainId
  let projectId ← SqlValue.getOptString "project_id" row.projectId
  let entryHash ← SqlValue.getBytes "entry_hash" row.entryHash
  return { index := asU64 row.idx, timestampMicros := timestamp, kind, actor, structural,
           callChainId, projectId, entryHashHex := hex entryHash }

/-- `i64::try_from(n).unwrap_or(i64::MAX)`. -/
def clampI64 (n : Nat) : Int := if n < 2 ^ 63 then n else 2 ^ 63 - 1

namespace Table

/-- One past the highest index that matches, 0 when nothing does. -/
def head (t : Table) (f : ReadFilter) : Nat :=
  match ((t.filter f.accepts).map Row.idx).max? with
  | none => 0
  | some m => (asU64 m + 1) % 2 ^ 64

def count (t : Table) (f : ReadFilter) : Nat := (t.filter f.accepts).length

/-- `idx >= from AND idx < to` and the filter, ascending, at most `limit` rows. -/
def readStructural (D : Deps) (t : Table) («from» «to» limit : Nat) (f : ReadFilter) :
    Except AuditError (List StructuralView) :=
  ((t.ordered.filter fun r =>
    decide (clampI64 «from» ≤ r.idx) && decide (r.idx < clampI64 «to») && f.accepts r).take
      (min limit maxReadLimit)).mapM (decodeStructuralView D)

/-- The daemon's answer. The head is at least one past the last index of the page. -/
def serve (D : Deps) (t : Table) (tampered : Bool) (req : ReadRequest) : ReadResponse :=
  let f : ReadFilter := ⟨req.projectId, req.callChainId, req.actor⟩
  match t.readStructural D req.from req.«to» req.limit f with
  | .error e => .error e.toStr
  | .ok entries =>
    let fallback := (entries.getLast?.map fun e => e.index + 1).getD 0
    .page { entries, tampered, head := max (t.head f) fallback, matching := t.count f }

/-- The daemon's side of a connection; `none` when it closes without a reply. -/
def handle (W : Wire) (D : Deps) (t : Table) (tampered : Bool) (body : String) :
    Option String :=
  let response := match W.request.fromStr body with
    | .ok req => t.serve D tampered req
    | .error e => .error s!"malformed read request: {e}"
  let encoded := W.response.toStr response
  if FitsFrame encoded then some encoded else none

/-- The client's side. -/
def exchange (W : Wire) (D : Deps) (t : Table) (tampered : Bool) (req : ReadRequest) :
    Except ReadClientError ReadPage :=
  let body := W.request.toStr req
  if ¬ FitsFrame body then
    .error (.transport s!"frame length {body.utf8ByteSize} out of range (1..={maxFrame})")
  else
    match t.handle W D tampered body with
    | none => .error (.transport "early eof")
    | some reply =>
      match W.response.fromStr reply with
      | .error e => .error (.transport s!"decode response: {e}")
      | .ok (.error reason) => .error (.server reason)
      | .ok (.page p) => .ok p

end Table

/-! ## What is read of a ledger -/

/-- A ledger as the daemon writes it. -/
structure Ledger (D : Deps) where
  submissions : List Submission
  fits : submissions.length ≤ maxRows
  reads : ∀ s ∈ submissions, s.RoundTrips D

variable {D : Deps}

def Ledger.entries (l : Ledger D) : List AuditEntry := sealAll D .genesis l.submissions

def Ledger.table (l : Ledger D) : Table := rowsOf D .genesis l.submissions

def ReadFilter.selects (f : ReadFilter) (e : AuditEntry) : Bool :=
  f.projectId.all (e.projectId == some ·) && f.callChainId.all (e.callChainId == some ·) &&
    f.actor.all (e.actor == ·)

/-- The entries that match. -/
def Ledger.matching (l : Ledger D) (f : ReadFilter) : List AuditEntry :=
  l.entries.filter f.selects

def AuditEntry.view (e : AuditEntry) : StructuralView where
  index := e.index
  timestampMicros := e.timestampMicros
  kind := e.kind
  actor := e.actor
  structural := e.structural
  callChainId := e.callChainId
  projectId := e.projectId
  entryHashHex := hex e.entryHash.bytes

/-- One past the last index that matches. -/
def Ledger.headOf (l : Ledger D) (f : ReadFilter) : Nat :=
  ((l.matching f).getLast?.map fun e => e.index + 1).getD 0

/-- The page of a read to the end: of what matches from an index on, the first. -/
def Ledger.pageFrom (l : Ledger D) (tampered : Bool) (f : ReadFilter) («from» limit : Nat) :
    ReadPage where
  entries := (((l.matching f).filter fun e => «from» ≤ e.index).take limit).map AuditEntry.view
  tampered := tampered
  head := l.headOf f
  matching := (l.matching f).length

/-- The request of everything that matches from an index on. -/
def ReadFilter.toEnd (f : ReadFilter) («from» limit : Nat) : ReadRequest where
  «from» := «from»
  «to» := 2 ^ 64 - 1
  limit := limit
  projectId := f.projectId
  callChainId := f.callChainId
  actor := f.actor

variable {l : Ledger D} {f : ReadFilter} {e : AuditEntry} {c : Nat} {es : List AuditEntry}

theorem Ledger.table_eq (l : Ledger D) : l.table = l.entries.map (Row.ofEntry D) := rfl

/-- Entries stand in the order of their indices. -/
def Ascending (es : List AuditEntry) : Prop := es.Pairwise fun e e' => e.index < e'.index

theorem Ledger.index_eq {i : Nat} (h : l.entries[i]? = some e) : e.index = i :=
  (index_of_getElem? h).trans (Nat.zero_add i)

theorem Ledger.ascending (l : Ledger D) : Ascending l.entries := by
  refine List.pairwise_iff_getElem.2 fun i j hi hj hij => ?_
  rw [l.index_eq (List.getElem?_eq_getElem hi), l.index_eq (List.getElem?_eq_getElem hj)]
  exact hij

theorem Ledger.ascending_matching (l : Ledger D) (f : ReadFilter) :
    Ascending (l.matching f) := l.ascending.filter _

theorem Ledger.index_lt (he : e ∈ l.entries) : e.index < maxRows := by
  obtain ⟨i, hi⟩ := List.mem_iff_getElem?.1 he
  have hlen := (List.getElem?_eq_some_iff.1 hi).1
  rw [Ledger.entries, length_sealAll] at hlen
  rw [l.index_eq hi]
  exact lt_of_lt_of_le hlen l.fits

theorem Ledger.roundTrips (he : e ∈ l.entries) : e.toSubmission.RoundTrips D := by
  obtain ⟨i, hi⟩ := List.mem_iff_getElem?.1 he
  rw [Ledger.entries, getElem?_sealAll] at hi
  obtain ⟨s, hs, rfl⟩ := Option.map_eq_some_iff.1 hi
  exact l.reads s (List.mem_iff_getElem?.2 ⟨i, hs⟩)

/-! ## The reader reads it -/

theorem accepts_ofEntry : f.accepts (Row.ofEntry D e) = f.selects e := by
  have hopt : ∀ (wanted id : Option String),
      columnIs wanted (id.map SqlValue.text) = wanted.all (id == some ·) := by
    intro wanted id
    cases wanted <;> cases id <;> simp [columnIs, Bool.beq_eq_decide_eq]
  have hactor : ∀ (wanted : Option String) (a : String),
      columnIs wanted (some (SqlValue.text a)) = wanted.all (a == ·) := by
    intro wanted a
    cases wanted <;> simp [columnIs, Bool.beq_eq_decide_eq]
  unfold ReadFilter.accepts ReadFilter.selects Row.ofEntry
  rw [hopt, hopt, hactor]

theorem idx_ofEntry (he : e ∈ l.entries) : (Row.ofEntry D e).idx = e.index := by
  have hlt := l.index_lt he
  exact asI64_of_lt (lt_trans hlt (by decide))

theorem decodeStructuralView_ofEntry (he : e ∈ l.entries) :
    decodeStructuralView D (Row.ofEntry D e) = .ok e.view := by
  have hlt := l.index_lt he
  have hidx : asU64 (asI64 e.index) = e.index := by
    rw [asI64_of_lt (lt_trans hlt (by decide)), asU64_ofNat (lt_trans hlt (by decide))]
  have hst : D.structural.fromStr (D.structural.toStr e.structural) = .ok e.structural :=
    (l.roundTrips he).1
  unfold decodeStructuralView
  simp only [Row.ofEntry, SqlValue.getInt, SqlValue.getString, SqlValue.getBytes,
    getOptString_map, AuditKind.fromWire_asStr, hst, hidx, bind, Except.bind, pure, Except.pure]
  rfl

theorem filter_table (l : Ledger D) (f : ReadFilter) :
    l.table.filter f.accepts = (l.matching f).map (Row.ofEntry D) := by
  rw [l.table_eq, List.filter_map, Ledger.matching]
  congr 1
  exact List.filter_congr fun e _ => accepts_ofEntry

theorem count_table (l : Ledger D) (f : ReadFilter) :
    l.table.count f = (l.matching f).length := by
  rw [Table.count, filter_table, List.length_map]

theorem le_getLast_of_ascending {last : AuditEntry} (h : Ascending es)
    (hlast : es.getLast? = some last) (he : e ∈ es) : e.index ≤ last.index := by
  obtain ⟨init, rfl⟩ := List.getLast?_eq_some_iff.1 hlast
  rcases List.mem_append.1 he with he | he
  · exact ((List.pairwise_append.1 h).2.2 e he last List.mem_cons_self).le
  · rw [List.mem_singleton.1 he]

/-- The head of a read is one past the last index that matches. -/
theorem head_table (l : Ledger D) (f : ReadFilter) : l.table.head f = l.headOf f := by
  have hmem : ∀ e ∈ l.matching f, e ∈ l.entries := fun e he => (List.mem_filter.1 he).1
  have hidx : (l.table.filter f.accepts).map Row.idx =
      (l.matching f).map fun e => (e.index : Int) := by
    rw [filter_table, List.map_map]
    exact List.map_congr_left fun e he => idx_ofEntry (hmem e he)
  unfold Table.head Ledger.headOf
  rw [hidx]
  cases hlast : (l.matching f).getLast? with
  | none =>
    rw [List.getLast?_eq_none_iff.1 hlast]
    rfl
  | some last =>
    have hin := List.mem_of_getLast? hlast
    have hmax : ((l.matching f).map fun e => (e.index : Int)).max? = some (last.index : Int) := by
      refine List.max?_eq_some_iff.2 ⟨List.mem_map_of_mem hin, fun i hi => ?_⟩
      obtain ⟨e, he, rfl⟩ := List.mem_map.1 hi
      exact Int.ofNat_le.2 (le_getLast_of_ascending (l.ascending_matching f) hlast he)
    have hlt := l.index_lt (hmem last hin)
    rw [hmax]
    simp only [Option.map_some, Option.getD_some]
    rw [asU64_ofNat (lt_trans hlt (by decide)), Nat.mod_eq_of_lt]
    exact lt_of_le_of_lt hlt (by decide)

theorem mapM_eq_ok {α β ε : Type} {g : α → Except ε β} {h : α → β} {as : List α}
    (hg : ∀ a ∈ as, g a = .ok (h a)) : as.mapM g = .ok (as.map h) := by
  induction as with
  | nil => rfl
  | cons a as ih =>
    rw [List.mapM_cons, hg a List.mem_cons_self, ih fun a ha => hg a (List.mem_cons_of_mem _ ha)]
    rfl

/-- A read to the end returns the first entries that match from an index on. -/
theorem readStructural_table (l : Ledger D) (f : ReadFilter) («from» limit : Nat) :
    l.table.readStructural D «from» (2 ^ 64 - 1) limit f =
      .ok ((((l.matching f).filter fun e => «from» ≤ e.index).take
        (min limit maxReadLimit)).map AuditEntry.view) := by
  have hordered : l.table.ordered = l.table :=
    ordered_rowsOf (by simpa [Head.genesis] using l.fits.trans (by decide))
  have hrows : (l.table.filter fun r => decide (clampI64 «from» ≤ r.idx) &&
      decide (r.idx < clampI64 (2 ^ 64 - 1)) && f.accepts r) =
        ((l.matching f).filter fun e => «from» ≤ e.index).map (Row.ofEntry D) := by
    rw [l.table_eq, List.filter_map, Ledger.matching, List.filter_filter]
    congr 1
    refine List.filter_congr fun e he => ?_
    have hlt := lt_trans (l.index_lt he) (show maxRows < 2 ^ 63 - 1 by decide)
    simp only [Function.comp_apply, accepts_ofEntry, idx_ofEntry he]
    congr 1
    rw [Bool.and_eq_decide, decide_eq_decide]
    unfold clampI64
    split <;> simp <;> omega
  unfold Table.readStructural
  rw [hordered, hrows, ← List.map_take, List.mapM_map]
  refine mapM_eq_ok fun e he => ?_
  have hmem := (List.mem_filter.1 (List.mem_of_mem_take he)).1
  exact decodeStructuralView_ofEntry (List.mem_filter.1 hmem).1

theorem index_lt_headOf (he : e ∈ l.matching f) : e.index < l.headOf f := by
  unfold Ledger.headOf
  cases hlast : (l.matching f).getLast? with
  | none =>
    rw [List.getLast?_eq_none_iff.1 hlast] at he
    cases he
  | some last =>
    exact Nat.lt_succ_of_le (le_getLast_of_ascending (l.ascending_matching f) hlast he)

/-- What the daemon answers to a read to the end. -/
theorem serve_table (l : Ledger D) (tampered : Bool) (f : ReadFilter) («from» limit : Nat) :
    l.table.serve D tampered (f.toEnd «from» limit) =
      .page (l.pageFrom tampered f «from» (min limit maxReadLimit)) := by
  unfold Table.serve ReadFilter.toEnd
  simp only [readStructural_table, head_table, count_table]
  rw [max_eq_left]
  · rfl
  · -- no index of the page is past the head
    rw [List.getLast?_map]
    cases hlast : (((l.matching f).filter fun e => «from» ≤ e.index).take
        (min limit maxReadLimit)).getLast? with
    | none => exact Nat.zero_le _
    | some e =>
      have hmem := List.mem_of_mem_take (List.mem_of_getLast? hlast)
      exact Nat.succ_le_of_lt (index_lt_headOf (List.mem_filter.1 hmem).1)

/-! ## Exchanging it -/

/-- The JSON of a read to the end and of its answer is read back as written. -/
def Wire.Carries (W : Wire) (l : Ledger D) (tampered : Bool) (f : ReadFilter)
    («from» limit : Nat) : Prop :=
  W.request.RoundTrips (f.toEnd «from» limit) ∧
    W.response.RoundTrips (.page (l.pageFrom tampered f «from» (min limit maxReadLimit)))

/-- The request and its answer each fit a frame. -/
def Wire.Fits (W : Wire) (l : Ledger D) (tampered : Bool) (f : ReadFilter)
    («from» limit : Nat) : Prop :=
  FitsFrame (W.request.toStr (f.toEnd «from» limit)) ∧
    FitsFrame (W.response.toStr (.page (l.pageFrom tampered f «from» (min limit maxReadLimit))))

/-- An exchange that fits returns the page; another is an error. -/
theorem exchange_table {W : Wire} {tampered : Bool} {«from» limit : Nat}
    (hW : W.Carries l tampered f «from» limit) :
    (W.Fits l tampered f «from» limit →
      l.table.exchange W D tampered (f.toEnd «from» limit) =
        .ok (l.pageFrom tampered f «from» (min limit maxReadLimit))) ∧
    (¬ W.Fits l tampered f «from» limit →
      ∃ err, l.table.exchange W D tampered (f.toEnd «from» limit) = .error err) := by
  obtain ⟨hreq, hresp⟩ := hW
  have hhandle : l.table.handle W D tampered (W.request.toStr (f.toEnd «from» limit)) =
        if FitsFrame (W.response.toStr
          (.page (l.pageFrom tampered f «from» (min limit maxReadLimit)))) then
          some (W.response.toStr (.page (l.pageFrom tampered f «from» (min limit maxReadLimit))))
        else none := by
    unfold Table.handle
    rw [hreq]
    simp only [serve_table]
  unfold Table.exchange
  simp only [hhandle]
  constructor
  · rintro ⟨h₁, h₂⟩
    rw [if_neg (not_not.2 h₁), if_pos h₂]
    simp only
    rw [hresp]
  · intro hno
    by_cases h₁ : FitsFrame (W.request.toStr (f.toEnd «from» limit))
    · rw [if_neg (not_not.2 h₁), if_neg fun h₂ => hno ⟨h₁, h₂⟩]
      exact ⟨_, rfl⟩
    · rw [if_pos h₁]
      exact ⟨_, rfl⟩

end Arlen.Audit
