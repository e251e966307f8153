import Arlen.Audit.Entry
import Arlen.Lib.Json
import Arlen.Lib.Utf8

/-!
# What the chain hash is taken over tells apart

`hashedBytes` writes a missing id as an empty one. Up to that it is injective: two
entries are hashed over the same string exactly when they agree in every column but
that an id may be missing in one and empty in the other.
-/

namespace Arlen.Audit

open Arlen.Lib

/-! ## One field after the other -/

variable {D : Deps}

/-- How the string writes an optional forensic record. -/
def forensicBytes (D : Deps) : Option ForensicRecord → Bytes
  | some f => 1 :: lengthPrefixed (utf8 (D.forensic.toStr f))
  | none => [0]

/-- What the types of the source promise: a `u64`, an `i64` and lengths of strings. -/
structure AuditEntry.Typed (D : Deps) (e : AuditEntry) : Prop where
  index : e.index < 2 ^ 64
  timestamp : -2 ^ 63 ≤ e.timestampMicros ∧ e.timestampMicros < 2 ^ 63
  actor : (utf8 e.actor).length < 2 ^ 64
  structural : (utf8 (D.structural.toStr e.structural)).length < 2 ^ 64
  forensic : ∀ f, e.forensic = some f → (utf8 (D.forensic.toStr f)).length < 2 ^ 64
  callChainId : (utf8 (e.callChainId.getD "")).length < 2 ^ 64
  projectId : (utf8 (e.projectId.getD "")).length < 2 ^ 64

instance (D : Deps) (e : AuditEntry) : Decidable (e.Typed D) :=
  decidable_of_iff
    (e.index < 2 ^ 64 ∧ (-2 ^ 63 ≤ e.timestampMicros ∧ e.timestampMicros < 2 ^ 63) ∧
      (utf8 e.actor).length < 2 ^ 64 ∧
      (utf8 (D.structural.toStr e.structural)).length < 2 ^ 64 ∧
      (∀ f ∈ e.forensic, (utf8 (D.forensic.toStr f)).length < 2 ^ 64) ∧
      (utf8 (e.callChainId.getD "")).length < 2 ^ 64 ∧
      (utf8 (e.projectId.getD "")).length < 2 ^ 64)
    ⟨fun ⟨h1, h2, h3, h4, h5, h6, h7⟩ => ⟨h1, h2, h3, h4, fun f hf => h5 f hf, h6, h7⟩,
      fun h => ⟨h.1, h.2, h.3, h.4, fun f hf => h.5 f hf, h.6, h.7⟩⟩

/-- `serde_json` writes distinct records differently. -/
structure Deps.Distinct (D : Deps) : Prop where
  structural : Function.Injective D.structural.toStr
  forensic : Function.Injective D.forensic.toStr

/-- The columns other than the two ids. -/
structure AuditEntry.AgreeButIds (e f : AuditEntry) : Prop where
  index : e.index = f.index
  timestampMicros : e.timestampMicros = f.timestampMicros
  kind : e.kind = f.kind
  actor : e.actor = f.actor
  structural : e.structural = f.structural
  forensic : e.forensic = f.forensic
  prevHash : e.prevHash = f.prevHash

/-- Every column the hash is to cover. -/
structure AuditEntry.Agree (e f : AuditEntry) : Prop extends AuditEntry.AgreeButIds e f where
  callChainId : e.callChainId = f.callChainId
  projectId : e.projectId = f.projectId

/-- The id is missing in one entry and empty in the other. -/
def NullAgainstEmpty (a b : Option String) : Prop :=
  (a = none ∧ b = some "") ∨ (a = some "" ∧ b = none)

/-- The entries differ, and only by an id that is missing in one and empty in the other. -/
def AuditEntry.DifferInNullOnly (e f : AuditEntry) : Prop :=
  e.AgreeButIds f ∧
    (e.callChainId = f.callChainId ∨ NullAgainstEmpty e.callChainId f.callChainId) ∧
    (e.projectId = f.projectId ∨ NullAgainstEmpty e.projectId f.projectId) ∧
    (NullAgainstEmpty e.callChainId f.callChainId ∨ NullAgainstEmpty e.projectId f.projectId)

theorem getD_eq_iff {a b : Option String} :
    a.getD "" = b.getD "" ↔ a = b ∨ NullAgainstEmpty a b := by
  unfold NullAgainstEmpty
  cases a <;> cases b <;> simp [eq_comm]

theorem NullAgainstEmpty.ne {a b : Option String} (h : NullAgainstEmpty a b) : a ≠ b := by
  rcases h with ⟨rfl, rfl⟩ | ⟨rfl, rfl⟩ <;> simp

theorem AuditEntry.hashed_eq (D : Deps) (e : AuditEntry) :
    e.hashed D = beBytes 8 e.index ++ (beBytes 8 (asU64 e.timestampMicros) ++
      (lengthPrefixed (utf8 e.kind.asStr) ++ (lengthPrefixed (utf8 e.actor) ++
      (lengthPrefixed (utf8 (D.structural.toStr e.structural)) ++
      (forensicBytes D e.forensic ++ (lengthPrefixed (utf8 (e.callChainId.getD "")) ++
      (lengthPrefixed (utf8 (e.projectId.getD "")) ++ e.prevHash.bytes))))))) := by
  unfold AuditEntry.hashed hashedBytes
  cases e.forensic <;> simp only [forensicBytes, List.append_assoc]

theorem asStr_inj {k l : AuditKind} (h : k.asStr = l.asStr) : k = l := by
  have hk := AuditKind.fromWire_asStr k
  rw [h, AuditKind.fromWire_asStr] at hk
  exact (Option.some.inj hk).symm

theorem length_asStr (k : AuditKind) : (utf8 k.asStr).length < 2 ^ 64 := by
  cases k <;> decide

theorem forensicBytes_append_inj {f g : Option ForensicRecord} {x y : Bytes} (hD : D.Distinct)
    (hf : ∀ r, f = some r → (utf8 (D.forensic.toStr r)).length < 2 ^ 64)
    (hg : ∀ r, g = some r → (utf8 (D.forensic.toStr r)).length < 2 ^ 64)
    (h : forensicBytes D f ++ x = forensicBytes D g ++ y) : f = g ∧ x = y := by
  cases f with
  | none =>
    cases g with
    | none => exact ⟨rfl, (List.cons.inj h).2⟩
    | some s => exact absurd (List.cons.inj h).1 (by decide)
  | some r =>
    cases g with
    | none => exact absurd (List.cons.inj h).1 (by decide)
    | some s =>
      obtain ⟨hrs, hxy⟩ :=
        lengthPrefixed_append_inj (hf r rfl) (hg s rfl) (List.cons.inj h).2
      exact ⟨by rw [hD.forensic (utf8_inj hrs)], hxy⟩

/-- What the string tells apart: every column, up to a missing id and an empty one. -/
theorem hashed_eq_iff (hD : D.Distinct) {e f : AuditEntry} (he : e.Typed D) (hf : f.Typed D) :
    e.hashed D = f.hashed D ↔ e.AgreeButIds f ∧ e.callChainId.getD "" = f.callChainId.getD "" ∧
      e.projectId.getD "" = f.projectId.getD "" := by
  rw [AuditEntry.hashed_eq, AuditEntry.hashed_eq]
  constructor
  · intro h
    obtain ⟨hindex, h⟩ := List.append_inj h (by simp)
    obtain ⟨htime, h⟩ := List.append_inj h (by simp)
    obtain ⟨hkind, h⟩ := lengthPrefixed_append_inj (length_asStr _) (length_asStr _) h
    obtain ⟨hactor, h⟩ := lengthPrefixed_append_inj he.actor hf.actor h
    obtain ⟨hstruct, h⟩ := lengthPrefixed_append_inj he.structural hf.structural h
    obtain ⟨hforensic, h⟩ := forensicBytes_append_inj hD he.forensic hf.forensic h
    obtain ⟨hchain, h⟩ := lengthPrefixed_append_inj he.callChainId hf.callChainId h
    obtain ⟨hproject, hprev⟩ := lengthPrefixed_append_inj he.projectId hf.projectId h
    have hts := asU64_inj he.timestamp hf.timestamp (beBytes_inj (asU64_lt _) (asU64_lt _) htime)
    exact ⟨⟨beBytes_inj he.index hf.index hindex, hts, asStr_inj (utf8_inj hkind), utf8_inj hactor,
      hD.structural (utf8_inj hstruct), hforensic, Digest.ext hprev⟩, utf8_inj hchain,
      utf8_inj hproject⟩
  · rintro ⟨⟨h1, h2, h3, h4, h5, h6, h7⟩, h8, h9⟩
    rw [h1, h2, h3, h4, h5, h6, h7, h8, h9]

/-- **The string determines the entry** exactly where the other entry does not differ from it
in a missing id against an empty one and in nothing else. -/
theorem hashed_determines_iff (hD : D.Distinct) (e f : AuditEntry) (he : e.Typed D)
    (hf : f.Typed D) :
    (e.hashed D = f.hashed D → e.Agree f) ↔ ¬ e.DifferInNullOnly f := by
  rw [hashed_eq_iff hD he hf, getD_eq_iff, getD_eq_iff]
  constructor
  · rintro h ⟨hagree, hchain, hproject, hnull⟩
    have hall := h ⟨hagree, hchain, hproject⟩
    rcases hnull with hnull | hnull
    · exact hnull.ne hall.callChainId
    · exact hnull.ne hall.projectId
  · rintro h ⟨hagree, hchain, hproject⟩
    have hcEq : e.callChainId = f.callChainId :=
      hchain.resolve_right fun hn => h ⟨hagree, hchain, hproject, .inl hn⟩
    have hpEq : e.projectId = f.projectId :=
      hproject.resolve_right fun hn => h ⟨hagree, hchain, hproject, .inr hn⟩
    exact ⟨hagree, hcEq, hpEq⟩

/-! ## The JSON of the records -/

open Arlen.Lib.Json

/-- A field of an object of strings. -/
def printField : String × String → List Char := printPair "" ":" "" printString printString

theorem selfDelimiting_printField : SelfDelimiting printField :=
  selfDelimiting_printPair _ _ _ selfDelimiting_printString selfDelimiting_printString

/-- The variant's name and its fields. -/
def CapabilityReach.parts : CapabilityReach → String × List (String × String)
  | .read p => ("read", [("entity_pattern", p)])
  | .write p => ("write", [("entity_pattern", p)])
  | .relation s t r => ("relation", [("from", s), ("to", t), ("relation_type", r)])
  | .instanceAll => ("instance_all", [])
  | .networkDomain d => ("network_domain", [("domain", d)])
  | .clipboardCap c => ("clipboard_cap", [("cap", c)])
  | .notificationsOff => ("notifications_off", [])
  | .inputCap c => ("input_cap", [("cap", c)])
  | .searchCap c => ("search_cap", [("cap", c)])
  | .intentsCap c => ("intents_cap", [("cap", c)])
  | .filesystemDir d => ("filesystem_dir", [("dir", d)])
  | .filesystemPath p => ("filesystem_path", [("path", p)])
  | .eventBusSubscribe p => ("event_bus_subscribe", [("pattern", p)])
  | .eventBusPublish p => ("event_bus_publish", [("pattern", p)])
  | .systemCap c => ("system_cap", [("cap", c)])

theorem parts_injective : Function.Injective CapabilityReach.parts := by
  intro c d h
  cases c <;> cases d <;> simp [CapabilityReach.parts] at h <;> simp [h]

/-- A variant without fields is its name. -/
def printParts : String × List (String × String) → List Char
  | (name, []) => printString name
  | (name, fields) => printVariant name (printList '\x7b' '\x7d' printField fields ++ ['\x7d'])

theorem selfDelimiting_printParts : SelfDelimiting printParts := by
  have hfields : SelfDelimiting (printList '\x7b' '\x7d' printField) :=
    selfDelimiting_printList (by decide) (fun p => ⟨'"', _, rfl, by decide⟩)
      selfDelimiting_printField
  rintro ⟨name, fields⟩ ⟨name', fields'⟩ r s h
  cases fields with
  | nil =>
    cases fields' with
    | nil =>
      obtain ⟨rfl, hr⟩ := selfDelimiting_printString h
      exact ⟨rfl, hr⟩
    | cons p fields' => exact absurd (List.cons.inj h).1 (by decide)
  | cons p fields =>
    cases fields' with
    | nil => exact absurd (List.cons.inj h).1 (by decide)
    | cons p' fields' =>
      obtain ⟨rfl, hrest⟩ := printVariant_inj h
      rw [List.append_assoc, List.append_assoc] at hrest
      obtain ⟨hp, hr⟩ := hfields hrest
      rw [hp]
      exact ⟨rfl, (List.cons.inj hr).2⟩

/-- `null` and what stands behind a value, or the value. -/
def printOption {α : Type} (behind : List Char) (print : α → List Char) : Option α → List Char
  | none => 'n' :: 'u' :: 'l' :: 'l' :: behind
  | some a => print a

theorem selfDelimiting_printOption {α : Type} {behind : List Char} {print : α → List Char}
    (hhead : ∀ a, ∃ c t, print a = c :: t ∧ c ≠ 'n') (h : SelfDelimiting print) :
    SelfDelimiting (printOption behind print) := by
  have hfirst : ∀ a rest t, print a ++ rest ≠ 'n' :: t := by
    intro a rest t heq
    obtain ⟨c, p, hp, hc⟩ := hhead a
    rw [hp, List.cons_append] at heq
    exact hc (List.cons.inj heq).1
  intro x y r s hxy
  cases x with
  | none =>
    cases y with
    | none => exact ⟨rfl, List.append_cancel_left hxy⟩
    | some b => exact absurd hxy.symm (hfirst b _ _)
  | some a =>
    cases y with
    | none => exact absurd hxy (hfirst a _ _)
    | some b =>
      obtain ⟨rfl, hr⟩ := h hxy
      exact ⟨rfl, hr⟩

/-- A number and the comma behind it. -/
def printNatThenComma (n : Nat) : List Char := Nat.toDigits 10 n ++ [',']

theorem selfDelimiting_printNatThenComma : SelfDelimiting printNatThenComma := by
  intro a b r s h
  have hcomma : ∀ n, ',' ∉ Nat.toDigits 10 n := fun n hm =>
    absurd (Nat.isDigit_of_mem_toDigits (by decide) (Nat.le_refl 10) hm) (by decide)
  simp only [printNatThenComma, List.append_assoc, List.singleton_append] at h
  have ha := (Text.splitOnce_eq_some (b := r)).2 ⟨rfl, hcomma a⟩
  have hb := (Text.splitOnce_eq_some (b := s)).2 ⟨rfl, hcomma b⟩
  rw [h, hb, Option.some.injEq, Prod.mk.injEq] at ha
  exact ⟨(toDigits_inj ha.1).symm, ha.2.symm⟩

def printCount : Option Nat → List Char := printOption [','] printNatThenComma

theorem selfDelimiting_printCount : SelfDelimiting printCount := by
  refine selfDelimiting_printOption (fun n => ?_) selfDelimiting_printNatThenComma
  have hne : Nat.toDigits 10 n ≠ [] := Nat.toDigits_ne_nil
  obtain ⟨c, t, hct⟩ := List.exists_cons_of_ne_nil hne
  refine ⟨c, t ++ [','], by rw [printNatThenComma, hct]; rfl, ?_⟩
  rintro rfl
  have hdigit := Nat.isDigit_of_mem_toDigits (by decide) (Nat.le_refl 10) (hct ▸ List.mem_cons_self)
  exact absurd hdigit (by decide)

def printReach : Option CapabilityReach → List Char := printOption [] (printParts ∘ CapabilityReach.parts)

theorem selfDelimiting_printReach : SelfDelimiting printReach := by
  refine selfDelimiting_printOption (fun c => ?_) (selfDelimiting_printParts.comp parts_injective)
  cases c <;> exact ⟨_, _, rfl, by decide⟩

def printNames : List String → List Char := printList '[' ']' printString

theorem selfDelimiting_printNames : SelfDelimiting printNames :=
  selfDelimiting_printList (by decide) (fun s => ⟨'"', _, rfl, by decide⟩)
    selfDelimiting_printString

/-- The fields of a structural record, in the order they are written. -/
def StructuralRecord.parts (r : StructuralRecord) : String × List String × List String ×
    Option Nat × Option Nat × String × Option Nat × Option CapabilityReach :=
  (r.subject, r.nodeTypes, r.relations, r.resultCount.map UInt64.toNat,
    r.durationMs.map UInt64.toNat, r.outcome, r.depth.map UInt8.toNat, r.capabilityChange)

theorem structuralParts_injective : Function.Injective StructuralRecord.parts := by
  have h64 : Function.Injective (Option.map UInt64.toNat) :=
    Option.map_injective fun _ _ h => UInt64.toNat_inj.1 h
  have h8 : Function.Injective (Option.map UInt8.toNat) :=
    Option.map_injective fun _ _ h => UInt8.toNat_inj.1 h
  rintro ⟨s1, n1, r1, c1, d1, o1, p1, k1⟩ ⟨s2, n2, r2, c2, d2, o2, p2, k2⟩ h
  simp only [StructuralRecord.parts, Prod.mk.injEq] at h
  obtain ⟨rfl, rfl, rfl, hc, hd, rfl, hp, rfl⟩ := h
  rw [h64 hc, h64 hd, h8 hp]

/-- `serde_json::to_vec` of a structural record. -/
def printStructural : StructuralRecord → List Char :=
  printPair "\x7b\"subject\":" ",\"node_types\":" "\x7d" printString
    (printPair "" ",\"relations\":" "" printNames
    (printPair "" ",\"result_count\":" "" printNames
    (printPair "" "\"duration_ms\":" "" printCount
    (printPair "" "\"outcome\":" "" printCount
    (printPair "" ",\"depth\":" "" printString
    (printPair "" "\"capability_change\":" "" printCount printReach)))))) ∘ StructuralRecord.parts

theorem selfDelimiting_printStructural : SelfDelimiting printStructural := by
  refine SelfDelimiting.comp ?_ structuralParts_injective
  refine selfDelimiting_printPair _ _ _ selfDelimiting_printString ?_
  refine selfDelimiting_printPair _ _ _ selfDelimiting_printNames ?_
  refine selfDelimiting_printPair _ _ _ selfDelimiting_printNames ?_
  refine selfDelimiting_printPair _ _ _ selfDelimiting_printCount ?_
  refine selfDelimiting_printPair _ _ _ selfDelimiting_printCount ?_
  refine selfDelimiting_printPair _ _ _ selfDelimiting_printString ?_
  exact selfDelimiting_printPair _ _ _ selfDelimiting_printCount selfDelimiting_printReach

/-- `serde_json::to_vec` of a forensic record. -/
def printForensic (r : ForensicRecord) : List Char :=
  printPair "\x7b\"query_string\":" ",\"parameters\":" "\x7d" printString
    (printPair "" ",\"stack_trace\":" "" printString printString)
    (r.queryString, r.parameters, r.stackTrace)

theorem selfDelimiting_printForensic : SelfDelimiting printForensic := by
  have hpair := selfDelimiting_printPair "\x7b\"query_string\":" ",\"parameters\":" "\x7d"
    selfDelimiting_printString (selfDelimiting_printPair "" ",\"stack_trace\":" ""
      selfDelimiting_printString selfDelimiting_printString)
  rintro ⟨q, p, t⟩ ⟨q', p', t'⟩ r s h
  obtain ⟨heq, hr⟩ := hpair h
  simp only [Prod.mk.injEq] at heq
  obtain ⟨rfl, rfl, rfl⟩ := heq
  exact ⟨rfl, hr⟩

/-- The daemon's own serialisers; what reads them back is not used here. -/
def jsonDeps : Deps where
  mac := fun _ => .zero
  structural := { toStr := fun r => String.ofList (printStructural r), fromStr := fun _ => .error "" }
  forensic := { toStr := fun r => String.ofList (printForensic r), fromStr := fun _ => .error "" }

theorem distinct_jsonDeps : jsonDeps.Distinct where
  structural := fun _ _ h => selfDelimiting_printStructural.injective (String.ofList_injective h)
  forensic := fun _ _ h => selfDelimiting_printForensic.injective (String.ofList_injective h)

/-! ## A missing id and an empty one -/

/-- An entry with the given ids. -/
def sampleEntry (callChainId projectId : Option String) : AuditEntry where
  timestampMicros := 1000
  kind := .query
  actor := "ai-daemon"
  structural := { subject := "com.arlen.files", nodeTypes := ["File"], resultCount := some 7,
                  durationMs := some 12, outcome := "ok" }
  forensic := none
  callChainId := callChainId
  projectId := projectId
  index := 0
  prevHash := genesisPrevHash
  entryHash := .zero

example : jsonDeps.structural.toStr (sampleEntry none none).structural =
    "\x7b\"subject\":\"com.arlen.files\",\"node_types\":[\"File\"],\"relations\":[]," ++
    "\"result_count\":7,\"duration_ms\":12,\"outcome\":\"ok\",\"depth\":null," ++
    "\"capability_change\":null\x7d" := by decide +kernel

/-- Two entries whose ids differ, and both there, are hashed over different strings. -/
theorem present_ids_tell_apart :
    (sampleEntry (some "chain-1") none).Typed jsonDeps ∧
    (sampleEntry (some "chain-2") none).Typed jsonDeps ∧
    ((sampleEntry (some "chain-1") none).hashed jsonDeps =
      (sampleEntry (some "chain-2") none).hashed jsonDeps →
      (sampleEntry (some "chain-1") none).Agree (sampleEntry (some "chain-2") none)) := by
  have h1 : (sampleEntry (some "chain-1") none).Typed jsonDeps := by decide +kernel
  have h2 : (sampleEntry (some "chain-2") none).Typed jsonDeps := by decide +kernel
  refine ⟨h1, h2, (hashed_determines_iff distinct_jsonDeps _ _ h1 h2).2 ?_⟩
  simp [AuditEntry.DifferInNullOnly, NullAgainstEmpty, sampleEntry]

/-- A change of one column, from a missing id to an empty one, that the string does not show. -/
theorem empty_id_hashed_as_missing :
    (sampleEntry none none).hashed jsonDeps = (sampleEntry (some "") none).hashed jsonDeps ∧
    ¬ (sampleEntry none none).Agree (sampleEntry (some "") none) := by
  refine ⟨rfl, fun h => ?_⟩
  cases h.callChainId

end Arlen.Audit
