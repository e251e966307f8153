import Arlen.Graph.Schema
import Arlen.Lib.Except

/-!
# The structured graph query (`ai/ai-core/src/graph_query.rs`)

The typed query, its validation against a schema and a scope, and the Cypher
text built from it. `HashMap` and `BTreeSet` are lists of which only membership
and look-up are asked; a filter's integer and the limit are unbounded here,
which covers `i64` and `u32`.
-/

namespace Arlen.Graph

open Arlen.Lib

def maxTraverseSteps : Nat := 5
def maxFiltersPerNode : Nat := 20
def maxSelectFields : Nat := 50
def maxLimit : Nat := 1000
def maxCypherBytes : Nat := 60 * 1024

inductive Direction where
  | outgoing
  | incoming
  deriving DecidableEq, Repr

inductive FilterOp where
  | eq
  | ne
  | lt
  | le
  | gt
  | ge
  | contains
  | startsWith
  deriving DecidableEq, Repr

inductive TypedValue where
  | bool (b : Bool)
  | int (n : Int)
  | text (s : String)
  deriving DecidableEq, Repr

def TypedValue.matches : TypedValue → FieldType → Bool
  | .bool _, .bool => true
  | .int _, .int => true
  | .text _, .text => true
  | _, _ => false

structure Filter where
  field : String
  op : FilterOp
  value : TypedValue
  deriving Repr

/-- `bind` is the one string of a query that reaches the Cypher verbatim without
being looked up in the schema. -/
structure NodePattern where
  bind : String
  label : String
  filters : List Filter
  deriving Repr

structure TraverseStep where
  edge : String
  direction : Direction
  toNode : NodePattern
  deriving Repr

structure FieldRef where
  bind : String
  field : String
  deriving Repr

structure OrderSpec where
  bind : String
  field : String
  descending : Bool
  deriving Repr

structure GraphQuery where
  fromNode : NodePattern
  traverse : List TraverseStep
  select : List FieldRef
  orderBy : Option OrderSpec
  limit : Nat
  deriving Repr

/-- The project a project-scoped read is anchored to. -/
structure ProjectAnchor where
  projectId : String
  deriving Repr

/-- The labels the anchor's own pattern refers to. -/
def projectAnchorLabels : List String := ["Project", "FILE_PART_OF", "DIR_PART_OF"]

structure QueryScope where
  allowed : List String
  projectAnchor : Option ProjectAnchor
  deriving Repr

def QueryScope.permits (scope : QueryScope) (label : String) : Bool := scope.allowed.contains label

/-! ## Validation -/

inductive DslError where
  | unknownLabel (label : String)
  | unknownEdge (edge : String)
  | unknownField (label field : String)
  | labelNotInScope (label : String)
  | edgeEndpointMismatch (edge fromLabel toLabel : String)
  | filterTypeMismatch (label field : String)
  | invalidBinding (value : String)
  | duplicateBinding (bind : String)
  | unknownBinding (bind : String)
  | emptySelect
  | tooManyTraverseSteps (count : Nat)
  | tooManyFilters (bind : String) (count : Nat)
  | tooManySelectFields (count : Nat)
  deriving DecidableEq, Repr

/-- The bindings collected so far, each with its label. -/
abbrev Bindings := List (String × String)

/-- `char::is_ascii_alphabetic`. -/
def isAlphabeticChar (c : Char) : Bool := ('A' ≤ c && c ≤ 'Z') || ('a' ≤ c && c ≤ 'z')

/-- `char::is_ascii_alphanumeric`. -/
def isAlphanumericChar (c : Char) : Bool := isAlphabeticChar c || ('0' ≤ c && c ≤ '9')

def isValidIdentifier (s : String) : Bool :=
  (utf8 s).length ≤ 64 &&
    match s.toList with
    | [] => false
    | first :: rest =>
      (isAlphabeticChar first || first == '_') && rest.all fun c => isAlphanumericChar c || c == '_'

/-- The value has the field's type and the operator is one for that type. -/
def filterIsWellTyped (filter : Filter) (fieldTy : FieldType) : Bool :=
  filter.value.matches fieldTy &&
    match filter.op with
    | .eq | .ne => true
    | .lt | .le | .gt | .ge => fieldTy == .int
    | .contains | .startsWith => fieldTy == .text

/-- One filter of a node pattern with this label. -/
def checkFilter (schema : GraphSchema) (label : String) (filter : Filter) : Except DslError Unit :=
  match schema.fieldType label filter.field with
  | none => .error (.unknownField label filter.field)
  | some fieldTy =>
    if !filterIsWellTyped filter fieldTy then .error (.filterTypeMismatch label filter.field)
    else .ok ()

def checkNodePattern (pattern : NodePattern) (schema : GraphSchema) (scope : QueryScope)
    (bindings : Bindings) : Except DslError Bindings := do
  if !isValidIdentifier pattern.bind then throw (.invalidBinding pattern.bind)
  if (bindings.lookup pattern.bind).isSome then throw (.duplicateBinding pattern.bind)
  if (schema.node pattern.label).isNone then throw (.unknownLabel pattern.label)
  if !scope.permits pattern.label then throw (.labelNotInScope pattern.label)
  if pattern.filters.length > maxFiltersPerNode then
    throw (.tooManyFilters pattern.bind pattern.filters.length)
  pattern.filters.forM (checkFilter schema pattern.label)
  return (pattern.bind, pattern.label) :: bindings

def checkFieldRef (bind field : String) (bindings : Bindings) (schema : GraphSchema) :
    Except DslError Unit :=
  match bindings.lookup bind with
  | none => .error (.unknownBinding bind)
  | some label =>
    if (schema.fieldType label field).isNone then .error (.unknownField label field) else .ok ()

/-- One hop: its edge, its node, and that the edge joins the two labels in the
requested direction. -/
def checkStep (schema : GraphSchema) (scope : QueryScope) (prevLabel : String)
    (bindings : Bindings) (step : TraverseStep) : Except DslError Bindings := do
  match schema.edge step.edge with
  | none => throw (.unknownEdge step.edge)
  | some edge =>
    if !scope.permits step.edge then throw (.labelNotInScope step.edge)
    let bindings ← checkNodePattern step.toNode schema scope bindings
    let (wantFrom, wantTo) :=
      match step.direction with
      | .outgoing => (prevLabel, step.toNode.label)
      | .incoming => (step.toNode.label, prevLabel)
    if edge.fromLabel ≠ wantFrom ∨ edge.toLabel ≠ wantTo then
      throw (.edgeEndpointMismatch step.edge prevLabel step.toNode.label)
    return bindings

/-- The traversal chain; each hop departs from the node the last one reached. -/
def checkTraverse (schema : GraphSchema) (scope : QueryScope) :
    String → Bindings → List TraverseStep → Except DslError Bindings
  | _, bindings, [] => .ok bindings
  | prevLabel, bindings, step :: steps => do
    let bindings ← checkStep schema scope prevLabel bindings step
    checkTraverse schema scope step.toNode.label bindings steps

namespace GraphQuery

def validate (q : GraphQuery) (schema : GraphSchema) (scope : QueryScope) :
    Except DslError Unit := do
  if q.traverse.length > maxTraverseSteps then throw (.tooManyTraverseSteps q.traverse.length)
  if q.select.isEmpty then throw .emptySelect
  if q.select.length > maxSelectFields then throw (.tooManySelectFields q.select.length)
  let bindings ← checkNodePattern q.fromNode schema scope []
  let bindings ← checkTraverse schema scope q.fromNode.label bindings q.traverse
  q.select.forM fun f => checkFieldRef f.bind f.field bindings schema
  match q.orderBy with
  | some order => checkFieldRef order.bind order.field bindings schema
  | none => return ()

/-- The node labels and edge types a query refers to. -/
def referencedLabels (q : GraphQuery) : List String :=
  q.fromNode.label :: q.traverse.flatMap fun step => [step.edge, step.toNode.label]

/-- The node patterns in the order they are written. -/
def patterns (q : GraphQuery) : List NodePattern := q.fromNode :: q.traverse.map (·.toNode)

def binds (q : GraphQuery) : List String := q.patterns.map (·.bind)

end GraphQuery

/-! ## What validation establishes

Every name of an accepted query that is written into the text comes from the
schema, or is one of the query's own bindings. -/

structure NodePattern.WellFormed (p : NodePattern) : Prop where
  bind : isValidIdentifier p.bind = true
  label : isSafeName p.label = true
  filters : ∀ f ∈ p.filters, isSafeName f.field = true

structure GraphQuery.WellFormed (q : GraphQuery) : Prop where
  patterns : ∀ p ∈ q.patterns, p.WellFormed
  edges : ∀ s ∈ q.traverse, isSafeName s.edge = true
  nonempty : q.select ≠ []
  select : ∀ f ∈ q.select, f.bind ∈ q.binds ∧ isSafeName f.field = true
  orderBy : ∀ o ∈ q.orderBy, o.bind ∈ q.binds ∧ isSafeName o.field = true

section Validate

variable {schema : GraphSchema} {scope : QueryScope} {b b' : Bindings}

theorem checkFilter_ok {label : String} {f : Filter}
    (h : checkFilter schema label f = .ok ()) : isSafeName f.field = true := by
  unfold checkFilter at h
  split at h
  · cases h
  · next ty hty => exact GraphSchema.isSafe_of_fieldType hty

theorem checkNodePattern_ok {p : NodePattern} (h : checkNodePattern p schema scope b = .ok b') :
    p.WellFormed ∧ b' = (p.bind, p.label) :: b := by
  simp only [checkNodePattern, throw_bind, guard_eq_ok, bind_eq_ok, forM_eq_ok, pure_eq_ok] at h
  obtain ⟨hbind, -, hnode, -, -, -, hfilters, rfl⟩ := h
  obtain ⟨n, hn⟩ : ∃ n, schema.node p.label = some n := by
    rw [Option.isNone_iff_eq_none] at hnode
    exact Option.ne_none_iff_exists'.1 hnode
  exact ⟨⟨by simpa using hbind, (GraphSchema.isSafe_of_node hn).1,
    fun f hf => checkFilter_ok (hfilters f hf)⟩, rfl⟩

theorem checkFieldRef_ok {bind field : String} (h : checkFieldRef bind field b schema = .ok ()) :
    bind ∈ b.map Prod.fst ∧ isSafeName field = true := by
  unfold checkFieldRef at h
  split at h
  · cases h
  · next label hl =>
    obtain ⟨hty, -⟩ := guard_eq_ok.1 h
    obtain ⟨ty, hty⟩ : ∃ ty, schema.fieldType label field = some ty := by
      rw [Option.isNone_iff_eq_none] at hty
      exact Option.ne_none_iff_exists'.1 hty
    obtain ⟨l₁, l₂, rfl, -⟩ := List.lookup_eq_some_iff.1 hl
    exact ⟨by simp, GraphSchema.isSafe_of_fieldType hty⟩

theorem checkStep_ok {prev : String} {s : TraverseStep}
    (h : checkStep schema scope prev b s = .ok b') :
    isSafeName s.edge = true ∧ s.toNode.WellFormed ∧
      b' = (s.toNode.bind, s.toNode.label) :: b := by
  unfold checkStep at h
  split at h
  · cases h
  · next e he =>
    simp only [throw_bind, guard_eq_ok, bind_eq_ok, pure_eq_ok] at h
    obtain ⟨-, b'', hnode, -, rfl⟩ := h
    obtain ⟨hwf, hb⟩ := checkNodePattern_ok hnode
    exact ⟨GraphSchema.isSafe_of_edge he, hwf, hb⟩

theorem checkTraverse_ok {prev : String} {steps : List TraverseStep}
    (h : checkTraverse schema scope prev b steps = .ok b') :
    (∀ s ∈ steps, isSafeName s.edge = true ∧ s.toNode.WellFormed) ∧
      ∀ x ∈ b'.map Prod.fst, x ∈ b.map Prod.fst ∨ x ∈ steps.map (·.toNode.bind) := by
  induction steps generalizing prev b with
  | nil =>
    obtain rfl := Except.ok.inj h
    exact ⟨by simp, fun x hx => .inl hx⟩
  | cons s steps ih =>
    obtain ⟨b₁, hs, hrest⟩ := bind_eq_ok.1 h
    obtain ⟨hedge, hwf, rfl⟩ := checkStep_ok hs
    obtain ⟨hall, hkeys⟩ := ih hrest
    refine ⟨by simpa using ⟨⟨hedge, hwf⟩, hall⟩, fun x hx => ?_⟩
    rcases hkeys x hx with hmem | hmem
    · rcases List.mem_cons.1 hmem with rfl | hmem
      · exact .inr (by simp)
      · exact .inl hmem
    · exact .inr (List.mem_cons_of_mem _ hmem)

/-- **An accepted query is well formed.** -/
theorem GraphQuery.wellFormed_of_validate {q : GraphQuery}
    (h : q.validate schema scope = .ok ()) : q.WellFormed := by
  simp only [validate, throw_bind, guard_eq_ok, bind_eq_ok, forM_eq_ok] at h
  obtain ⟨-, hne, -, b₀, hfrom, b₁, htrav, -, hselect, horder⟩ := h
  obtain ⟨hwf, rfl⟩ := checkNodePattern_ok hfrom
  obtain ⟨hsteps, hkeys⟩ := checkTraverse_ok htrav
  have hbinds : ∀ x ∈ b₁.map Prod.fst, x ∈ q.binds := by
    intro x hx
    simpa [binds, patterns, Function.comp_def] using hkeys x hx
  have href : ∀ bind field, checkFieldRef bind field b₁ schema = .ok () →
      bind ∈ q.binds ∧ isSafeName field = true := by
    intro bind field hok
    obtain ⟨hmem, hsafe⟩ := checkFieldRef_ok hok
    exact ⟨hbinds _ hmem, hsafe⟩
  exact {
    patterns := by
      simp only [patterns, List.forall_mem_cons, List.forall_mem_map]
      exact ⟨hwf, fun s hs => (hsteps s hs).2⟩
    edges := fun s hs => (hsteps s hs).1
    nonempty := by simpa using hne
    select := fun f hf => href _ _ (hselect f hf)
    orderBy := by
      intro o ho
      rw [Option.mem_def] at ho
      rw [ho] at horder
      exact href _ _ horder }

end Validate

end Arlen.Graph
