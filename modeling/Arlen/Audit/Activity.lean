import Mathlib.Order.Interval.Finset.Nat
import Arlen.Audit.Columns
import Arlen.Audit.Read
import Arlen.Lib.Utf8

/-!
# Recent activity (`contracts/audit-proto/src/activity.rs`)

The newest entries of the ledger, or of one actor. A first read from the start tells
the head; when more matches than is asked for, a second read starts as many indices
before the head. That window holds the newest entries of an actor only if nothing else
stands in it.
-/

namespace Arlen.Audit

open Arlen.Lib

structure ActivityEntry where
  index : Nat
  timestampMicros : Int
  kind : String
  actor : String
  subject : String
  outcome : String
  nodeTypes : List String
  relations : List String
  resultCount : Option UInt64
  durationMs : Option UInt64
  depth : Option UInt8
  callChainId : Option String
  projectId : Option String
  entryRef : String
  deriving DecidableEq, Repr

structure ActivityPage where
  entries : List ActivityEntry
  available : Bool
  tampered : Bool
  total : Nat
  deriving DecidableEq, Repr

/-- The page returned when the daemon could not be reached. -/
def ActivityPage.unavailable : ActivityPage :=
  { entries := [], available := false, tampered := false, total := 0 }

/-- The frontend's label, which is not the wire's. -/
def kindLabel : AuditKind → String
  | .query => "query"
  | .toolCall => "tool-call"
  | .confirm => "confirm"
  | .policyViolation => "policy-violation"
  | .graphAccess => "graph-access"
  | .permission => "permission"
  | .networkCall => "network-call"
  | .appAction => "app-action"
  | .capabilityChange => "capability-change"

def toEntry (view : StructuralView) : ActivityEntry where
  index := view.index
  timestampMicros := view.timestampMicros
  kind := kindLabel view.kind
  actor := view.actor
  subject := view.structural.subject
  outcome := view.structural.outcome
  nodeTypes := view.structural.nodeTypes
  relations := view.structural.relations
  resultCount := view.structural.resultCount
  durationMs := view.structural.durationMs
  depth := view.structural.depth
  callChainId := view.callChainId
  projectId := view.projectId
  entryRef := view.entryHashHex

def maxActivityLimit : Nat := 200

/-- `limit.clamp(1, MAX_ACTIVITY_LIMIT)`. -/
def clampLimit (limit : Nat) : Nat := max 1 (min limit maxActivityLimit)

/-- A page is ascending; an activity view wants newest first. -/
def showPage (page : ReadPage) : ActivityPage where
  entries := (page.entries.map toEntry).reverse
  available := true
  tampered := page.tampered
  total := page.matching

/-- Read from the start, and where the first page asks for it once more from before the
head; a second read that fails leaves the first page. -/
def seekTail (read : Nat → Except ReadClientError ReadPage) (limit : Nat)
    (seeks : ReadPage → Bool) : ActivityPage :=
  match read 0 with
  | .error _ => .unavailable
  | .ok first =>
    showPage (if seeks first then (read (first.head - limit)).toOption.getD first else first)

section SeekTail

variable {read : Nat → Except ReadClientError ReadPage} {limit : Nat}
  {seeks : ReadPage → Bool} {first : ReadPage} {err : ReadClientError}

theorem seekTail_error (h : read 0 = .error err) :
    seekTail read limit seeks = .unavailable := by
  rw [seekTail, h]

theorem seekTail_first (h : read 0 = .ok first) (hs : seeks first = false) :
    seekTail read limit seeks = showPage first := by
  rw [seekTail, h]
  simp only [hs, Bool.false_eq_true, ↓reduceIte]

theorem seekTail_second (h : read 0 = .ok first) (hs : seeks first = true) :
    seekTail read limit seeks =
      showPage ((read (first.head - limit)).toOption.getD first) := by
  rw [seekTail, h]
  simp only [hs, ↓reduceIte]

end SeekTail

section Client

variable (W : Wire) (D : Deps) (t : Table) (tampered : Bool)

def forActor (actor : String) («from» limit : Nat) : Except ReadClientError ReadPage :=
  t.exchange W D tampered
    { «from» := «from», «to» := 2 ^ 64 - 1, limit := limit, projectId := none,
      callChainId := none, actor := some actor }

def read («from» «to» limit : Nat) (projectId : Option String) :
    Except ReadClientError ReadPage :=
  t.exchange W D tampered
    { «from» := «from», «to» := «to», limit := limit, projectId := projectId,
      callChainId := none, actor := none }

def recent (limit : Nat) : ActivityPage :=
  seekTail (fun «from» => read W D t tampered «from» (2 ^ 64 - 1) (clampLimit limit) none)
    (clampLimit limit) fun first => clampLimit limit < first.head

def recentForActor (actor : String) (limit : Nat) : ActivityPage :=
  seekTail (fun «from» => forActor W D t tampered actor «from» (clampLimit limit))
    (clampLimit limit) fun first =>
      clampLimit limit < first.matching && clampLimit limit < first.head

end Client

/-! ## The window before the head -/

variable {D : Deps} {l : Ledger D} {f : ReadFilter} {e : AuditEntry} {c k : Nat}
  {es : List AuditEntry}

/-- Distinct numbers of a window fill it exactly when there are as many as it is long. -/
theorem length_window {ns : List Nat} (hnd : ns.Nodup) (hmem : ∀ n ∈ ns, c ≤ n ∧ n < c + k) :
    ns.length ≤ k ∧ (ns.length = k ↔ ∀ n, c ≤ n → n < c + k → n ∈ ns) := by
  have hsub : ns.toFinset ⊆ Finset.Ico c (c + k) := fun n hn =>
    Finset.mem_Ico.2 (hmem n (List.mem_toFinset.1 hn))
  have hcard : (Finset.Ico c (c + k)).card = k := by simp
  rw [← List.toFinset_card_of_nodup hnd]
  refine ⟨hcard ▸ Finset.card_le_card hsub, fun heq n h₁ h₂ => ?_, fun hall => ?_⟩
  · have hfill := Finset.eq_of_subset_of_card_le hsub (by rw [hcard, heq])
    exact List.mem_toFinset.1 (hfill ▸ Finset.mem_Ico.2 ⟨h₁, h₂⟩)
  · refine (congrArg Finset.card (hsub.antisymm fun n hn => ?_)).trans hcard
    obtain ⟨h₁, h₂⟩ := Finset.mem_Ico.1 hn
    exact List.mem_toFinset.2 (hall n h₁ h₂)

theorem Ascending.nodup (h : Ascending es) : (es.map AuditEntry.index).Nodup :=
  List.nodup_iff_pairwise_ne.2 (List.pairwise_map.2 (h.imp fun hlt => hlt.ne))

/-- What stands from an index on is the end of the list. -/
theorem Ascending.filter_eq_drop (h : Ascending es) (c : Nat) :
    (es.filter fun e => c ≤ e.index) =
      es.drop (es.length - (es.filter fun e => c ≤ e.index).length) := by
  induction es with
  | nil => rfl
  | cons e es ih =>
    obtain ⟨hfirst, hrest⟩ := List.pairwise_cons.1 h
    by_cases hc : c ≤ e.index
    · have hall : ((e :: es).filter fun e => c ≤ e.index) = e :: es := by
        refine List.filter_eq_self.2 fun e' he' => decide_eq_true ?_
        rcases List.mem_cons.1 he' with rfl | he'
        · exact hc
        · exact hc.trans (hfirst e' he').le
      rw [hall, Nat.sub_self, List.drop_zero]
    · have hle := List.length_filter_le (fun e : AuditEntry => decide (c ≤ e.index)) es
      rw [List.filter_cons_of_neg (by simpa using hc), List.length_cons, Nat.sub_add_comm hle,
        List.drop_succ_cons]
      exact ih hrest

theorem Ledger.eq_of_index {e' : AuditEntry} (he : e ∈ l.entries) (he' : e' ∈ l.entries)
    (h : e.index = e'.index) : e = e' := by
  obtain ⟨i, hi⟩ := List.mem_iff_getElem?.1 he
  obtain ⟨j, hj⟩ := List.mem_iff_getElem?.1 he'
  rw [l.index_eq hi, l.index_eq hj] at h
  rw [h, hj] at hi
  exact (Option.some.inj hi).symm

theorem headOf_le (l : Ledger D) (f : ReadFilter) : l.headOf f ≤ l.entries.length := by
  unfold Ledger.headOf
  cases hlast : (l.matching f).getLast? with
  | none => exact Nat.zero_le _
  | some last =>
    obtain ⟨i, hi⟩ := List.mem_iff_getElem?.1 (List.mem_filter.1 (List.mem_of_getLast? hlast)).1
    have hlen := (List.getElem?_eq_some_iff.1 hi).1
    have hidx := l.index_eq hi
    simp only [Option.map_some, Option.getD_some]
    omega

theorem length_matching_le (l : Ledger D) (f : ReadFilter) :
    (l.matching f).length ≤ l.headOf f := by
  have hwindow := length_window (c := 0) (k := l.headOf f) (l.ascending_matching f).nodup
    fun n hn => by
      obtain ⟨e, he, rfl⟩ := List.mem_map.1 hn
      exact ⟨Nat.zero_le _, by simpa using index_lt_headOf he⟩
  simpa using hwindow.1

/-- The window of `k` indices before the head holds `k` entries that match exactly when
whatever stands in it matches. -/
theorem length_tail (l : Ledger D) (f : ReadFilter) (hk : k ≤ l.headOf f) :
    ((l.matching f).filter fun e => l.headOf f - k ≤ e.index).length ≤ k ∧
      (((l.matching f).filter fun e => l.headOf f - k ≤ e.index).length = k ↔
        ∀ e ∈ l.entries, l.headOf f - k ≤ e.index → e.index < l.headOf f →
          f.selects e = true) := by
  have hasc : Ascending ((l.matching f).filter fun e => l.headOf f - k ≤ e.index) :=
    (l.ascending_matching f).filter _
  obtain ⟨hle, hiff⟩ := length_window (c := l.headOf f - k) (k := k) hasc.nodup fun n hn => by
    obtain ⟨e, he, rfl⟩ := List.mem_map.1 hn
    obtain ⟨hmem, hc⟩ := List.mem_filter.1 he
    exact ⟨by simpa using hc, by have := index_lt_headOf hmem; omega⟩
  rw [List.length_map] at hle hiff
  refine ⟨hle, hiff.trans ⟨fun hall e he h₁ h₂ => ?_, fun hall n h₁ h₂ => ?_⟩⟩
  · obtain ⟨e', he', hidx⟩ := List.mem_map.1 (hall e.index h₁ (by omega))
    obtain ⟨hin, hsel⟩ := List.mem_filter.1 (List.mem_filter.1 he').1
    rwa [← l.eq_of_index hin he hidx]
  · have hn : n < l.entries.length := lt_of_lt_of_le (by omega) (headOf_le l f)
    have hget := List.getElem?_eq_getElem hn
    have hidx := l.index_eq hget
    have hin := List.mem_iff_getElem?.2 ⟨n, hget⟩
    refine List.mem_map.2 ⟨_, List.mem_filter.2 ⟨List.mem_filter.2 ⟨hin, ?_⟩, ?_⟩, hidx⟩
    · exact hall _ hin (by omega) (by omega)
    · rw [hidx]
      exact decide_eq_true h₁

/-! ## What the view shows -/

/-- The page shows the newest `L` of these entries, newest first, and counts them all. -/
def ShowsNewest (page : ActivityPage) (es : List AuditEntry) (L : Nat) : Prop :=
  page.entries = ((es.drop (es.length - L)).map fun e => toEntry e.view).reverse ∧
    page.total = es.length

variable {L : Nat} {tampered : Bool} {ps : List AuditEntry}

/-- A page of some entries shows the newest of others only if their indices agree. -/
theorem indices_of_shows {page : ReadPage} (hpage : page.entries = ps.map AuditEntry.view)
    (h : ShowsNewest (showPage page) es L) :
    ps.map AuditEntry.index = (es.drop (es.length - L)).map AuditEntry.index := by
  have hrev := List.reverse_inj.1 h.1
  rw [hpage, List.map_map] at hrev
  simpa [toEntry, AuditEntry.view, Function.comp_def] using
    congrArg (List.map ActivityEntry.index) hrev

theorem shows_of_eq {page : ReadPage} (hpage : page.entries = ps.map AuditEntry.view)
    (hps : ps = es.drop (es.length - L)) (hmatching : page.matching = es.length) :
    ShowsNewest (showPage page) es L := by
  refine ⟨?_, hmatching⟩
  rw [showPage, hpage, hps, List.map_map]
  rfl

/-- The oldest entries are not the newest of more than are asked for. -/
theorem oldest_not_newest {page : ReadPage} (h : Ascending es) (hL : 1 ≤ L)
    (hlt : L < es.length) (hpage : page.entries = (es.take L).map AuditEntry.view) :
    ¬ ShowsNewest (showPage page) es L := by
  intro hshows
  have hidx := congrArg (·[0]?) (indices_of_shows hpage hshows)
  simp only [List.getElem?_map, List.getElem?_drop, Nat.add_zero] at hidx
  rw [List.getElem?_take_of_lt (by omega), List.getElem?_eq_getElem (by omega),
    List.getElem?_eq_getElem (by omega)] at hidx
  have hasc := List.pairwise_iff_getElem.1 h 0 (es.length - L) (by omega) (by omega) (by omega)
  exact hasc.ne (Option.some.inj hidx)

/-- When the tail that is sought shows the newest entries: nothing matches, or the reads
fit and either all of it is one page or the window before the head holds nothing else. -/
theorem seekTail_iff {W : Wire} {seeks : ReadPage → Bool} (l : Ledger D) (f : ReadFilter)
    (hL : 1 ≤ L) (hmax : L ≤ maxReadLimit)
    (hseeks : seeks (l.pageFrom tampered f 0 L) = true ↔ L < (l.matching f).length)
    (hW : W.Carries l tampered f 0 L) (hW' : W.Carries l tampered f (l.headOf f - L) L) :
    ShowsNewest (seekTail (fun «from» => l.table.exchange W D tampered (f.toEnd «from» L)) L
        seeks) (l.matching f) L ↔
      l.matching f = [] ∨ W.Fits l tampered f 0 L ∧
        ((l.matching f).length ≤ L ∨ W.Fits l tampered f (l.headOf f - L) L ∧
          ∀ e ∈ l.entries, l.headOf f - L ≤ e.index → e.index < l.headOf f →
            f.selects e = true) := by
  have hasc := l.ascending_matching f
  have hfirst : (l.pageFrom tampered f 0 L).entries =
      ((l.matching f).take L).map AuditEntry.view := by simp [Ledger.pageFrom]
  obtain ⟨hok, herr⟩ := exchange_table hW
  obtain ⟨hok', herr'⟩ := exchange_table hW'
  rw [min_eq_left hmax] at hok hok'
  by_cases hfits : W.Fits l tampered f 0 L
  · -- the first page is there
    by_cases hlt : L < (l.matching f).length
    · rw [seekTail_second (hok hfits) (hseeks.2 hlt)]
      have hne : l.matching f ≠ [] := List.ne_nil_of_length_pos (by omega)
      by_cases hfits' : W.Fits l tampered f (l.headOf f - L) L
      · -- so is the second
        obtain ⟨hle, hfull⟩ := length_tail l f (hlt.le.trans (length_matching_le l f))
        have hdrop := hasc.filter_eq_drop (l.headOf f - L)
        have hsecond : (l.pageFrom tampered f (l.headOf f - L) L).entries =
            ((l.matching f).filter fun e => l.headOf f - L ≤ e.index).map AuditEntry.view := by
          rw [Ledger.pageFrom, List.take_of_length_le hle]
        have hread : l.table.exchange W D tampered
            (f.toEnd ((l.pageFrom tampered f 0 L).head - L) L) = _ := hok' hfits'
        rw [hread, Except.toOption, Option.getD_some]
        constructor
        · intro hshows
          have hlen := congrArg List.length (indices_of_shows hsecond hshows)
          simp only [List.length_map, List.length_drop] at hlen
          exact .inr ⟨hfits, .inr ⟨hfits', hfull.1 (by omega)⟩⟩
        · rintro (hnil | ⟨-, hm | ⟨-, hwindow⟩⟩)
          · exact absurd hnil hne
          · omega
          · rw [hfull.2 hwindow] at hdrop
            exact shows_of_eq hsecond hdrop rfl
      · -- the second read fails and the oldest page stays
        obtain ⟨err, herr'⟩ := herr' hfits'
        have hread : l.table.exchange W D tampered
            (f.toEnd ((l.pageFrom tampered f 0 L).head - L) L) = .error err := herr'
        rw [hread, Except.toOption, Option.getD_none]
        refine iff_of_false (oldest_not_newest hasc hL hlt hfirst) ?_
        rintro (hnil | ⟨-, hm | ⟨hno, -⟩⟩)
        · exact hne hnil
        · omega
        · exact hfits' hno
    · rw [seekTail_first (hok hfits) (Bool.eq_false_iff.2 fun h => hlt (hseeks.1 h))]
      refine iff_of_true (shows_of_eq hfirst ?_ rfl) (.inr ⟨hfits, .inl (by omega)⟩)
      rw [List.take_of_length_le (by omega), Nat.sub_eq_zero_of_le (by omega), List.drop_zero]
  · -- the first read fails and nothing is shown
    obtain ⟨err, herr⟩ := herr hfits
    rw [seekTail_error herr]
    constructor
    · intro hshows
      exact .inl (List.length_eq_zero_iff.1 hshows.2.symm)
    · rintro (hnil | ⟨hyes, -⟩)
      · rw [hnil]
        exact ⟨by simp [ActivityPage.unavailable], rfl⟩
      · exact absurd hyes hfits

theorem clampLimit_pos (limit : Nat) : 1 ≤ clampLimit limit := le_max_left _ _

theorem clampLimit_le (limit : Nat) : clampLimit limit ≤ maxReadLimit := by
  simp only [clampLimit, maxActivityLimit, maxReadLimit]
  omega

/-- The JSON of the two reads a call may make is read back as written. -/
def Wire.CarriesTail (W : Wire) (l : Ledger D) (tampered : Bool) (f : ReadFilter) (L : Nat) :
    Prop :=
  W.Carries l tampered f 0 L ∧ W.Carries l tampered f (l.headOf f - L) L

/-- Whatever is asked of the whole ledger fills its window, so its newest entries are shown
if the reads fit. -/
theorem recent_iff {W : Wire} (l : Ledger D) (tampered : Bool) (limit : Nat)
    (hW : W.CarriesTail l tampered ⟨none, none, none⟩ (clampLimit limit)) :
    ShowsNewest (recent W D l.table tampered limit) l.entries (clampLimit limit) ↔
      l.entries = [] ∨ W.Fits l tampered ⟨none, none, none⟩ 0 (clampLimit limit) ∧
        (l.entries.length ≤ clampLimit limit ∨
          W.Fits l tampered ⟨none, none, none⟩ (l.entries.length - clampLimit limit)
            (clampLimit limit)) := by
  have hselects : ∀ e, (⟨none, none, none⟩ : ReadFilter).selects e = true := fun _ => rfl
  have hmatching : l.matching ⟨none, none, none⟩ = l.entries :=
    List.filter_eq_self.2 fun e _ => hselects e
  have hhead : l.headOf ⟨none, none, none⟩ = l.entries.length :=
    (headOf_le l _).antisymm (hmatching ▸ length_matching_le l ⟨none, none, none⟩)
  have htail := @seekTail_iff _ _ tampered _ (fun first => clampLimit limit < first.head) l ⟨none, none, none⟩
    (clampLimit_pos limit) (clampLimit_le limit)
    (by simp [Ledger.pageFrom, hhead, hmatching]) hW.1 hW.2
  rw [hmatching, hhead] at htail
  simp only [hselects, implies_true, and_true] at htail
  exact htail

theorem recentForActor_tail {W : Wire} {actor : String} (l : Ledger D) (limit : Nat)
    (hW : W.CarriesTail l tampered (.ofActor actor) (clampLimit limit)) :
    ShowsNewest (recentForActor W D l.table tampered actor limit)
        (l.matching (.ofActor actor)) (clampLimit limit) ↔
      l.matching (.ofActor actor) = [] ∨
        W.Fits l tampered (.ofActor actor) 0 (clampLimit limit) ∧
          ((l.matching (.ofActor actor)).length ≤ clampLimit limit ∨
            W.Fits l tampered (.ofActor actor) (l.headOf (.ofActor actor) - clampLimit limit)
              (clampLimit limit) ∧
            ∀ e ∈ l.entries, l.headOf (.ofActor actor) - clampLimit limit ≤ e.index →
              e.index < l.headOf (.ofActor actor) →
                (ReadFilter.ofActor actor).selects e = true) := by
  have hle := length_matching_le l (.ofActor actor)
  exact @seekTail_iff _ _ tampered _
    (fun first => clampLimit limit < first.matching && clampLimit limit < first.head)
    l (.ofActor actor) (clampLimit_pos limit) (clampLimit_le limit)
    (by simp [Ledger.pageFrom]; omega) hW.1 hW.2

theorem selects_ofActor {actor : String} :
    (ReadFilter.ofActor actor).selects e = true ↔ e.actor = actor := by
  simp [ReadFilter.selects, ReadFilter.ofActor]

/-- When the newest entries of an actor are shown: there are none, or the reads fit and
either one page holds them all or no other actor stands in the window. -/
theorem recentForActor_iff {W : Wire} (l : Ledger D) (tampered : Bool) (actor : String)
    (limit : Nat) (hW : W.CarriesTail l tampered (.ofActor actor) (clampLimit limit)) :
    ShowsNewest (recentForActor W D l.table tampered actor limit)
        (l.matching (.ofActor actor)) (clampLimit limit) ↔
      l.matching (.ofActor actor) = [] ∨
        W.Fits l tampered (.ofActor actor) 0 (clampLimit limit) ∧
          ((l.matching (.ofActor actor)).length ≤ clampLimit limit ∨
            W.Fits l tampered (.ofActor actor) (l.headOf (.ofActor actor) - clampLimit limit)
              (clampLimit limit) ∧
            ∀ e ∈ l.entries, l.headOf (.ofActor actor) - clampLimit limit ≤ e.index →
              e.index < l.headOf (.ofActor actor) → e.actor = actor) := by
  have htail := recentForActor_tail l limit hW
  simp only [selects_ofActor] at htail
  exact htail

/-! ## A sparse actor -/

open Arlen.Lib.Json

/-- A serialiser that reads back what it prints of these values. -/
def serdeAmong {α : Type} [DecidableEq α] (as : List α) (print : α → List Char) : Serde α where
  toStr := fun a => String.ofList (print a)
  fromStr := fun s =>
    match as.find? fun a => String.ofList (print a) = s with
    | some a => .ok a
    | none => .error "expected value at line 1 column 1"

theorem serdeAmong_roundTrips {α : Type} [DecidableEq α] {as : List α}
    {print : α → List Char} {a : α} (ha : a ∈ as)
    (hinj : ∀ b ∈ as, print b = print a → b = a) : (serdeAmong as print).RoundTrips a := by
  unfold Serde.RoundTrips serdeAmong
  cases hfind : as.find? fun b => String.ofList (print b) = String.ofList (print a) with
  | none =>
    have hno := List.find?_eq_none.1 hfind a ha
    simp at hno
  | some b =>
    have hprint := of_decide_eq_true (List.find?_some (p := fun b => decide _) hfind)
    simp only [hfind, hinj b (List.mem_of_find?_eq_some hfind) (String.ofList_injective hprint)]

def printNat (n : Nat) : List Char := Nat.toDigits 10 n

/-- A field of an object, behind its comma. -/
def printNext (name : String) (value : List Char) : List Char :=
  ',' :: printString name ++ ':' :: value

/-- `serde_json::to_vec` of a request. -/
def printRequest (r : ReadRequest) : List Char :=
  "\x7b\"from\":".toList ++ printNat r.from ++ printNext "to" (printNat r.to) ++
    printNext "limit" (printNat r.limit) ++
    printNext "project_id" (printOption [] printString r.projectId) ++
    printNext "call_chain_id" (printOption [] printString r.callChainId) ++
    printNext "actor" (printOption [] printString r.actor) ++ ['\x7d']

def printView (v : StructuralView) : List Char :=
  "\x7b\"index\":".toList ++ printNat v.index ++
    printNext "timestamp_micros" (toString v.timestampMicros).toList ++
    printNext "kind" (printString v.kind.asStr) ++ printNext "actor" (printString v.actor) ++
    printNext "structural" (printStructural v.structural) ++
    printNext "call_chain_id" (printOption [] printString v.callChainId) ++
    printNext "project_id" (printOption [] printString v.projectId) ++
    printNext "entry_hash_hex" (printString v.entryHashHex) ++ ['\x7d']

/-- `serde_json::to_vec` of a reply. -/
def printResponse : ReadResponse → List Char
  | .page p =>
    printVariant "page" ("\x7b\"entries\":".toList ++ printList '[' ']' printView p.entries ++
      printNext "tampered" (if p.tampered then "true" else "false").toList ++
      printNext "head" (printNat p.head) ++ printNext "matching" (printNat p.matching) ++
      ['\x7d', '\x7d'])
  | .error reason =>
    printVariant "error" ("\x7b\"reason\":".toList ++ printString reason ++ ['\x7d', '\x7d'])

/-- The JSON of the two exchanges of a call. -/
def wireFor (l : Ledger D) (f : ReadFilter) (L : Nat) : Wire where
  request := serdeAmong [f.toEnd 0 L, f.toEnd (l.headOf f - L) L] printRequest
  response := serdeAmong
    [.page (l.pageFrom false f 0 L), .page (l.pageFrom false f (l.headOf f - L) L)] printResponse

def plainRecord : StructuralRecord := { subject := "com.arlen.files", outcome := "ok" }

def plainDeps : Deps where
  mac := fun _ => .zero
  structural := serdeOf plainRecord fun r => String.ofList (printStructural r)
  forensic := ⟨fun _ => "null", fun _ => .error "expected value at line 1 column 1"⟩

def plainSubmission (actor : String) : Submission where
  timestampMicros := 1000
  kind := .query
  actor := actor
  structural := plainRecord
  forensic := none
  callChainId := none
  projectId := none

theorem plain_fits : 6 ≤ maxRows := by decide

/-- Two entries of the mail, three of the shell, and one more of the mail. -/
def sparseLedger : Ledger plainDeps where
  submissions := ["mail", "mail", "shell", "shell", "shell", "mail"].map plainSubmission
  fits := plain_fits
  reads := fun s hs => by
    obtain ⟨actor, -, rfl⟩ := List.mem_map.1 hs
    exact ⟨serdeOf_roundTrips _ _, fun f hf => by cases hf⟩

/-- The texts of a call whose two reads differ are read back. -/
theorem carriesTail_wireFor {L : Nat} (l : Ledger D) (f : ReadFilter) (hmax : L ≤ maxReadLimit)
    (hreq : printRequest (f.toEnd 0 L) ≠ printRequest (f.toEnd (l.headOf f - L) L))
    (hresp : printResponse (.page (l.pageFrom false f 0 L)) ≠
      printResponse (.page (l.pageFrom false f (l.headOf f - L) L))) :
    (wireFor l f L).CarriesTail l false f L := by
  have hpair : ∀ {α : Type} [DecidableEq α] {a b : α} {print : α → List Char},
      print a ≠ print b → (serdeAmong [a, b] print).RoundTrips a ∧
        (serdeAmong [a, b] print).RoundTrips b := by
    intro α _ a b print hne
    refine ⟨serdeAmong_roundTrips (by simp) fun c hc h => ?_,
      serdeAmong_roundTrips (by simp) fun c hc h => ?_⟩
    · rcases List.mem_pair.1 hc with rfl | rfl
      · rfl
      · exact absurd h.symm hne
    · rcases List.mem_pair.1 hc with rfl | rfl
      · exact absurd h hne
      · rfl
  unfold Wire.CarriesTail Wire.Carries
  rw [min_eq_left hmax]
  exact ⟨⟨(hpair hreq).1, (hpair hresp).1⟩, (hpair hreq).2, (hpair hresp).2⟩

/-- Of the mail's two newest entries only one is shown: the other stands before the window. -/
theorem sparse_actor_cut_short :
    ¬ ShowsNewest (recentForActor (wireFor sparseLedger (.ofActor "mail") 2) plainDeps
        sparseLedger.table false "mail" 2)
      (sparseLedger.matching (.ofActor "mail")) (clampLimit 2) := by
  have hW := carriesTail_wireFor sparseLedger (.ofActor "mail") (L := 2) (by decide)
    (by decide +kernel) (by decide +kernel)
  intro hshows
  rcases (recentForActor_tail sparseLedger 2 hW).1 hshows with hnil | ⟨-, hm | ⟨-, hwindow⟩⟩
  · exact absurd hnil (by decide +kernel)
  · exact absurd hm (by decide +kernel)
  · exact absurd hwindow (by decide +kernel)

theorem fitsFrame_ofList {cs : List Char} :
    FitsFrame (String.ofList cs) ↔ 1 ≤ Text.byteLen cs ∧ Text.byteLen cs ≤ maxFrame := by
  have hlen : (String.ofList cs).utf8ByteSize = (utf8 (String.ofList cs)).length := by
    simp [utf8, String.utf8ByteSize]
  unfold FitsFrame
  rw [hlen, utf8_ofList, List.length_flatMap, Text.byteLen]
  simp only [String.length_utf8EncodeChar]

/-- The shell's entries stand next to each other, and its newest two are shown. -/
theorem dense_actor_shown :
    ShowsNewest (recentForActor (wireFor sparseLedger (.ofActor "shell") 2) plainDeps
        sparseLedger.table false "shell" 2)
      (sparseLedger.matching (.ofActor "shell")) (clampLimit 2) := by
  have hW := carriesTail_wireFor sparseLedger (.ofActor "shell") (L := 2) (by decide)
    (by decide +kernel) (by decide +kernel)
  refine (recentForActor_iff sparseLedger false "shell" 2 hW).2
    (.inr ⟨⟨?_, ?_⟩, .inr ⟨⟨?_, ?_⟩, by decide +kernel⟩⟩)
  all_goals exact fitsFrame_ofList.2 (by decide +kernel)

end Arlen.Audit
