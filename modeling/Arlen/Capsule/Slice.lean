import Arlen.Capsule.Scope
import Arlen.Lib.Json
import Arlen.Lib.Sort
import Arlen.Lib.Utf8
import Mathlib.Data.Prod.Lex

/-!
# The frozen slice

`contracts/capsule/src/slice.rs`: the nodes and relations of a slice and the bytes
its identity hashes. The bytes are compact JSON of the nodes sorted by id and the
relations sorted by their three fields, so that they say neither more nor less
than which nodes there are and how often each relation occurs.
-/

namespace Arlen.Capsule

open Arlen.Lib

inductive SliceValue where
  | text (s : String)
  | int (i : Int)
  | bool (b : Bool)
  | null
deriving DecidableEq, Repr

/-- `BTreeMap<String, SliceValue>`: one entry a key, in the order of the keys. -/
structure FieldMap where
  entries : List (String × SliceValue)
  sorted : entries.Pairwise (·.1 < ·.1)
deriving DecidableEq

structure SliceNode where
  id : String
  label : String
  fields : FieldMap
deriving DecidableEq

structure SliceRelation where
  «from» : String
  relType : String
  «to» : String
deriving DecidableEq, Repr

structure FrozenSlice where
  nodes : List SliceNode
  relations : List SliceRelation
deriving DecidableEq

/-- The derived order: by source, then type, then target. -/
def SliceRelation.key (r : SliceRelation) : String ×ₗ String ×ₗ String :=
  toLex (r.from, toLex (r.relType, r.to))

/-! ## Serialisation -/

def printBool (b : Bool) : List Char :=
  if b then ['t', 'r', 'u', 'e', '\x7d'] else ['f', 'a', 'l', 's', 'e', '\x7d']

/-- The derived `Serialize` of a value: a variant with a payload is an object of one
field, one without is its name. -/
def printValue : SliceValue → List Char
  | .text s => Json.printVariant "text" (Json.printString s ++ ['\x7d'])
  | .int i => Json.printVariant "int" (Json.printIntThenBrace i)
  | .bool b => Json.printVariant "bool" (printBool b)
  | .null => Json.printString "null"

def printField : String × SliceValue → List Char :=
  Json.printPair "" ":" "" Json.printString printValue

def printFields (m : FieldMap) : List Char := Json.printList '\x7b' '\x7d' printField m.entries

def printNode (n : SliceNode) : List Char :=
  Json.printPair "\x7b\"id\":" ",\"label\":" "\x7d" Json.printString
    (Json.printPair "" ",\"fields\":" "" Json.printString printFields) (n.id, n.label, n.fields)

def printRelation (r : SliceRelation) : List Char :=
  Json.printPair "\x7b\"from\":" ",\"rel_type\":" "\x7d" Json.printString
    (Json.printPair "" ",\"to\":" "" Json.printString Json.printString) (r.from, r.relType, r.to)

/-- The JSON of the `Canonical` wire shape. -/
def printCanonical : List SliceNode × List SliceRelation → List Char :=
  Json.printPair "\x7b\"nodes\":" ",\"relations\":" "\x7d" (Json.printList '[' ']' printNode)
    (Json.printList '[' ']' printRelation)

def FrozenSlice.canonicalBytes (s : FrozenSlice) : Bytes :=
  utf8 (String.ofList (printCanonical
    (sortBy SliceNode.id s.nodes, sortBy SliceRelation.key s.relations)))

/-! ## Serialisation loses nothing -/

theorem selfDelimiting_printBool : Json.SelfDelimiting printBool := by
  intro a b r s h
  cases a <;> cases b <;> simp_all [printBool]

theorem selfDelimiting_printValue : Json.SelfDelimiting printValue := by
  intro a b r s h
  cases a with
  | text x =>
    cases b with
    | text y =>
      have hxy := (Json.printVariant_inj h).2
      rw [List.append_assoc, List.append_assoc] at hxy
      obtain ⟨rfl, hr⟩ := Json.selfDelimiting_printString hxy
      exact ⟨rfl, (List.cons.inj hr).2⟩
    | int j => exact absurd (Json.printVariant_inj h).1 (by decide)
    | bool y => exact absurd (Json.printVariant_inj h).1 (by decide)
    | null => cases (List.cons.inj h).1
  | int i =>
    cases b with
    | text y => exact absurd (Json.printVariant_inj h).1 (by decide)
    | int j =>
      obtain ⟨rfl, hr⟩ := Json.selfDelimiting_printIntThenBrace (Json.printVariant_inj h).2
      exact ⟨rfl, hr⟩
    | bool y => exact absurd (Json.printVariant_inj h).1 (by decide)
    | null => cases (List.cons.inj h).1
  | bool x =>
    cases b with
    | text y => exact absurd (Json.printVariant_inj h).1 (by decide)
    | int j => exact absurd (Json.printVariant_inj h).1 (by decide)
    | bool y =>
      obtain ⟨rfl, hr⟩ := selfDelimiting_printBool (Json.printVariant_inj h).2
      exact ⟨rfl, hr⟩
    | null => cases (List.cons.inj h).1
  | null =>
    cases b with
    | text y => cases (List.cons.inj h).1
    | int j => cases (List.cons.inj h).1
    | bool y => cases (List.cons.inj h).1
    | null => exact ⟨rfl, List.append_cancel_left h⟩

theorem selfDelimiting_printFields : Json.SelfDelimiting printFields := by
  have hfield : Json.SelfDelimiting printField :=
    Json.selfDelimiting_printPair _ _ _ Json.selfDelimiting_printString selfDelimiting_printValue
  have hhead : ∀ f, ∃ c t, printField f = c :: t ∧ c ≠ '\x7d' := fun f =>
    ⟨'"', _, by rw [printField, Json.printPair, String.toList_empty]; rfl, by decide⟩
  have hlist := @Json.selfDelimiting_printList _ '\x7b' '\x7d' printField (by decide) hhead hfield
  refine hlist.comp (f := FieldMap.entries) ?_
  rintro ⟨a, ha⟩ ⟨b, hb⟩ h
  cases h
  rfl

theorem selfDelimiting_printNode : Json.SelfDelimiting printNode := by
  have hparts := Json.selfDelimiting_printPair "\x7b\"id\":" ",\"label\":" "\x7d"
    Json.selfDelimiting_printString (Json.selfDelimiting_printPair "" ",\"fields\":" ""
      Json.selfDelimiting_printString selfDelimiting_printFields)
  refine hparts.comp (f := fun n : SliceNode => (n.id, n.label, n.fields)) ?_
  rintro ⟨a, b, c⟩ ⟨a', b', c'⟩ h
  cases h
  rfl

theorem selfDelimiting_printRelation : Json.SelfDelimiting printRelation := by
  have hparts := Json.selfDelimiting_printPair "\x7b\"from\":" ",\"rel_type\":" "\x7d"
    Json.selfDelimiting_printString (Json.selfDelimiting_printPair "" ",\"to\":" ""
      Json.selfDelimiting_printString Json.selfDelimiting_printString)
  refine hparts.comp (f := fun r : SliceRelation => (r.from, r.relType, r.to)) ?_
  rintro ⟨a, b, c⟩ ⟨a', b', c'⟩ h
  cases h
  rfl

theorem selfDelimiting_printCanonical : Json.SelfDelimiting printCanonical := by
  refine Json.selfDelimiting_printPair _ _ _ ?_ ?_
  · refine Json.selfDelimiting_printList (by decide) (fun n => ?_) selfDelimiting_printNode
    exact ⟨'\x7b', _, by simp [printNode, Json.printPair]; rfl, by decide⟩
  · refine Json.selfDelimiting_printList (by decide) (fun r => ?_) selfDelimiting_printRelation
    exact ⟨'\x7b', _, by simp [printRelation, Json.printPair]; rfl, by decide⟩

/-! ## The identity of a slice -/

/-- The ids of the nodes are distinct. -/
def FrozenSlice.DistinctIds (s : FrozenSlice) : Prop := (s.nodes.map SliceNode.id).Nodup

instance (s : FrozenSlice) : Decidable s.DistinctIds := inferInstanceAs (Decidable (List.Nodup _))

theorem SliceRelation.key_inj {r r' : SliceRelation} (h : r.key = r'.key) : r = r' := by
  cases r
  cases r'
  cases h
  rfl

variable {s t : FrozenSlice}

/-- Slices have the same bytes when their nodes and relations sort alike. -/
theorem canonicalBytes_eq_iff_sorted : s.canonicalBytes = t.canonicalBytes ↔
    sortBy SliceNode.id s.nodes = sortBy SliceNode.id t.nodes ∧
      sortBy SliceRelation.key s.relations = sortBy SliceRelation.key t.relations := by
  unfold FrozenSlice.canonicalBytes
  constructor
  · intro h
    have hchars := congrArg String.toList (utf8_inj h)
    rw [String.toList_ofList, String.toList_ofList] at hchars
    exact Prod.mk.inj (selfDelimiting_printCanonical.injective hchars)
  · rintro ⟨hn, hr⟩
    rw [hn, hr]

/-- **The bytes of a slice** say which nodes it has and how often each relation
occurs, and nothing else. -/
theorem canonicalBytes_eq_iff (hs : s.DistinctIds) (ht : t.DistinctIds) :
    s.canonicalBytes = t.canonicalBytes ↔
      (∀ n, n ∈ s.nodes ↔ n ∈ t.nodes) ∧ s.relations.Perm t.relations := by
  have hid : ∀ a ∈ s.nodes, ∀ b ∈ s.nodes, a.id = b.id → a = b :=
    fun a ha b hb => List.inj_on_of_nodup_map hs ha hb
  rw [canonicalBytes_eq_iff_sorted, sortBy_eq_iff hid,
    sortBy_eq_iff fun _ _ _ _ => SliceRelation.key_inj,
    List.perm_ext_iff_of_nodup (List.Nodup.of_map _ hs) (List.Nodup.of_map _ ht)]

/-! ## Manifest and identity -/

/-- **The manifest of a scope** is what lies within its hops, whatever the order and
repetition of roots and neighbours, and grows with both; the live walk returns it
or refuses one past its bound; and the bytes of a slice are its content. -/
theorem manifest_and_identity :
    (∀ scope neighbors x,
      x ∈ expandScope scope neighbors ↔ Within neighbors scope.roots scope.expandHops x) ∧
    (∀ (query : Query) (rows : String → List (List String)) (scope : CapsuleScope),
      (∀ id, query id = .ok (rows id)) →
        capsuleExpand query scope =
          let manifest := expandScope scope fun id => capsuleIds (rows id)
          if maxCapsuleManifest < manifest.card then .error tooLarge
          else .ok (manifest.sort (· ≤ ·))) ∧
    (∀ (roots roots' : List String) (neighbors neighbors' : String → List String) (hops : Nat),
      (∀ r, r ∈ roots ↔ r ∈ roots') → (∀ y z, z ∈ neighbors y ↔ z ∈ neighbors' y) →
        expandScope ⟨roots, hops⟩ neighbors = expandScope ⟨roots', hops⟩ neighbors') ∧
    (∀ (roots roots' : List String) (neighbors : String → List String) (hops hops' : Nat),
      hops ≤ hops' → (∀ r ∈ roots, r ∈ roots') →
        expandScope ⟨roots, hops⟩ neighbors ⊆ expandScope ⟨roots', hops'⟩ neighbors) ∧
    (∀ s t : FrozenSlice, s.DistinctIds → t.DistinctIds →
      (s.canonicalBytes = t.canonicalBytes ↔
        (∀ n, n ∈ s.nodes ↔ n ∈ t.nodes) ∧ s.relations.Perm t.relations)) := by
  refine ⟨fun _ _ _ => mem_expandScope, fun _ _ _ hq => capsuleExpand_eq hq, ?_, ?_, ?_⟩
  · intro roots roots' neighbors neighbors' hops hroots hne
    exact expandScope_congr hroots hne
  · intro roots roots' neighbors hops hops' hhops hroots
    exact expandScope_subset hhops hroots fun _ _ hz => hz
  · intro s t hs ht
    exact canonicalBytes_eq_iff hs ht

/-- A file and its project. -/
def fileNode : SliceNode := ⟨"f1", "File", ⟨[("path", .text "/a")], by decide⟩⟩

def projectNode : SliceNode := ⟨"p1", "Project", ⟨[("name", .text "X"), ("size", .int 3)], by decide⟩⟩

/-- Two roots that are each other's neighbours, in either order, and one slice with
its rows in either order. -/
theorem manifest_and_identity_cycle :
    expandScope ⟨["a", "b"], 10⟩ (fun id => if id = "a" then ["b", "b"] else ["a"]) =
        expandScope ⟨["b", "a", "a"], 10⟩ (fun id => if id = "a" then ["b"] else ["a"]) ∧
      FrozenSlice.canonicalBytes ⟨[projectNode, fileNode],
          [⟨"f1", "FILE_PART_OF", "p1"⟩, ⟨"f1", "ACCESSED_BY", "app"⟩]⟩ =
        FrozenSlice.canonicalBytes ⟨[fileNode, projectNode],
          [⟨"f1", "ACCESSED_BY", "app"⟩, ⟨"f1", "FILE_PART_OF", "p1"⟩]⟩ := by
  obtain ⟨-, -, horder, -, hbytes⟩ := manifest_and_identity
  refine ⟨horder _ _ _ _ _ (fun r => ?_) (fun y z => ?_), ?_⟩
  · simp only [List.mem_cons, List.not_mem_nil, or_false]
    tauto
  · split <;> simp
  · refine (hbytes _ _ (by decide) (by decide)).2 ⟨fun n => ?_, by decide⟩
    simp only [List.mem_cons, List.not_mem_nil, or_false]
    exact or_comm

end Arlen.Capsule
