import Arlen.Graph.Cypher

/-!
# The Knowledge Graph schema (`contracts/graph-schema/src/lib.rs`)

The node tables with their typed columns and the relationship tables with their
end points. The source keeps the tables private and `knowledge_graph` is the
only constructor. What the query builder relies on when it writes a name into
the text is that the name is a plain word and not a write keyword, so that is
what a `GraphSchema` carries here.
-/

namespace Arlen.Graph

open Arlen.Lib

inductive FieldType where
  | text
  | int
  | bool
  deriving DecidableEq, Repr

structure NodeSchema where
  label : String
  fields : List (String × FieldType)
  deriving Repr

structure EdgeSchema where
  label : String
  fromLabel : String
  toLabel : String
  deriving Repr

/-- Letters, digits and `_`, at least one. -/
def isWord (name : String) : Bool := !(utf8 name).isEmpty && (utf8 name).all isWordByte

/-- A forbidden keyword in any mix of cases. -/
def spellsForbidden (name : String) : Bool :=
  forbidden.any fun kw => utf8 kw == (utf8 name).map toAsciiUppercase

/-- A name that may be written into a query as it is. -/
def isSafeName (name : String) : Bool := isWord name && !spellsForbidden name

def NodeSchema.isSafe (n : NodeSchema) : Bool :=
  isSafeName n.label && n.fields.all fun f => isSafeName f.1

structure GraphSchema where
  nodes : List NodeSchema
  edges : List EdgeSchema
  nodesSafe : nodes.all NodeSchema.isSafe = true
  edgesSafe : (edges.all fun e => isSafeName e.label) = true

namespace GraphSchema

def node (g : GraphSchema) (label : String) : Option NodeSchema :=
  g.nodes.find? fun n => n.label == label

def edge (g : GraphSchema) (label : String) : Option EdgeSchema :=
  g.edges.find? fun e => e.label == label

/-- The type of a field of a node label, if both are known. -/
def fieldType (g : GraphSchema) (label field : String) : Option FieldType := do
  let n ← g.node label
  let f ← n.fields.find? fun f => f.1 == field
  return f.2

variable {g : GraphSchema} {label field : String}

theorem isSafe_of_node {n : NodeSchema} (h : g.node label = some n) :
    isSafeName label = true ∧ n.isSafe = true := by
  have hmem := List.mem_of_find?_eq_some h
  have hsafe := List.all_eq_true.1 g.nodesSafe n hmem
  have heq : n.label = label := by simpa using List.find?_some h
  refine ⟨?_, hsafe⟩
  rw [← heq]
  exact (Bool.and_eq_true_iff.1 hsafe).1

theorem isSafe_of_edge {e : EdgeSchema} (h : g.edge label = some e) : isSafeName label = true := by
  have heq : e.label = label := by simpa using List.find?_some h
  rw [← heq]
  exact List.all_eq_true.1 g.edgesSafe e (List.mem_of_find?_eq_some h)

theorem isSafe_of_fieldType {ty : FieldType} (h : g.fieldType label field = some ty) :
    isSafeName field = true := by
  simp only [fieldType, Option.bind_eq_bind, Option.bind_eq_some_iff] at h
  obtain ⟨n, hn, f, hf, -⟩ := h
  have hfields := (Bool.and_eq_true_iff.1 (isSafe_of_node hn).2).2
  have heq : f.1 = field := by simpa using List.find?_some hf
  rw [← heq]
  exact List.all_eq_true.1 hfields f (List.mem_of_find?_eq_some hf)

end GraphSchema

/-! ## The tables -/

/-- `NODES`. -/
def knowledgeNodes : List NodeSchema := [
  { label := "File"
    fields := [("id", .text), ("path", .text), ("app_id", .text), ("last_accessed", .int),
      ("last_cgroup_id", .int)] },
  { label := "App"
    fields := [("id", .text), ("name", .text)] },
  { label := "Session"
    fields := [("id", .text), ("started_at", .int)] },
  { label := "Event"
    fields := [("id", .text), ("type", .text), ("timestamp", .int), ("source", .text),
      ("title", .text), ("app_id", .text), ("service", .text), ("kind", .text)] },
  { label := "UserAction"
    fields := [("id", .text), ("category", .text), ("action", .text), ("subject", .text),
      ("timestamp", .int), ("app_id", .text), ("pid", .int), ("inferred", .bool)] },
  { label := "Project"
    fields := [("id", .text), ("name", .text), ("description", .text), ("root_path", .text),
      ("accent_color", .text), ("icon", .text), ("status", .text), ("created_at", .int),
      ("last_accessed", .int), ("inferred", .bool), ("confidence", .int), ("promoted", .bool),
      ("archived_at", .int), ("expired_at", .int)] },
  { label := "Directory"
    fields := [("id", .text), ("path", .text), ("name", .text), ("project_id", .text),
      ("created_at", .int)] },
  { label := "Annotation"
    fields := [("id", .text), ("namespace", .text), ("target_type", .text), ("target_id", .text),
      ("data", .text), ("created_at", .int), ("last_modified", .int)] },
  { label := "Summary"
    fields := [("id", .text), ("type", .text), ("app_id", .text), ("access_count", .int),
      ("primary_application", .text), ("active_period_start", .int), ("active_period_end", .int)] },
  { label := "PinnedMarker"
    fields := [("id", .text), ("node_id", .text), ("node_type", .text), ("pinned_at", .int)] },
  { label := "CodeSymbol"
    fields := [("id", .text), ("name", .text), ("source_file", .text),
      ("source_location", .text), ("language", .text), ("kind", .text)] },
  { label := "Commit"
    fields := [("id", .text), ("message", .text), ("author", .text), ("author_email", .text),
      ("committed_at", .int), ("authored_at", .int)] },
  { label := "Branch"
    fields := [("id", .text), ("name", .text), ("head", .text)] },
  { label := "NetworkEndpoint"
    fields := [("id", .text), ("protocol", .text)] },
  { label := "AnnotationVersion"
    fields := [("id", .text), ("data", .text), ("recorded_at", .int)] },
  { label := "Command"
    fields := [("id", .text), ("command", .text), ("cwd", .text), ("exit_code", .int),
      ("duration_ms", .int), ("origin", .text), ("ran_at", .int)] },
  { label := "Meeting"
    fields := [("id", .text), ("title", .text), ("summary", .text), ("participants", .text),
      ("started_at", .int)] },
  { label := "Mention"
    fields := [("id", .text), ("source_id", .text), ("span_start", .int), ("span_end", .int),
      ("text", .text), ("label", .text), ("score", .int), ("extractor", .text),
      ("extractor_version", .text)] },
  { label := "ActionItem"
    fields := [("id", .text), ("text", .text), ("owner", .text)] }]

/-- `EDGES`. -/
def knowledgeEdges : List EdgeSchema := [
  ⟨"ACCESSED_BY", "File", "App"⟩,
  ⟨"ACTIVE_IN", "App", "Session"⟩,
  ⟨"EMITTED_BY", "Event", "App"⟩,
  ⟨"DERIVED_FROM", "UserAction", "Event"⟩,
  ⟨"FILE_PART_OF", "File", "Project"⟩,
  ⟨"DIR_PART_OF", "Directory", "Project"⟩,
  ⟨"SUMMARIZES", "Summary", "App"⟩,
  ⟨"DEFINES", "File", "CodeSymbol"⟩,
  ⟨"CALLS", "CodeSymbol", "CodeSymbol"⟩,
  ⟨"IMPORTS", "CodeSymbol", "CodeSymbol"⟩,
  ⟨"REFERENCES", "CodeSymbol", "CodeSymbol"⟩,
  ⟨"ACCESSED_IN", "File", "Session"⟩,
  ⟨"MODIFIED_BY", "File", "App"⟩,
  ⟨"PERFORMED_IN", "UserAction", "Session"⟩,
  ⟨"CO_ACCESSED", "File", "File"⟩,
  ⟨"LINKS_TO", "File", "File"⟩,
  ⟨"LAUNCHED", "App", "App"⟩,
  ⟨"CONNECTED_TO", "App", "NetworkEndpoint"⟩,
  ⟨"COMMITTED_IN", "Commit", "Project"⟩,
  ⟨"HEAD_AT", "Branch", "Commit"⟩,
  ⟨"PARENT_OF", "Commit", "Commit"⟩,
  ⟨"HAS_VERSION", "Annotation", "AnnotationVersion"⟩,
  ⟨"HAS_ACTION_ITEM", "Meeting", "ActionItem"⟩]

def GraphSchema.knowledgeGraph : GraphSchema where
  nodes := knowledgeNodes
  edges := knowledgeEdges
  nodesSafe := by decide +kernel
  edgesSafe := by decide +kernel

end Arlen.Graph
