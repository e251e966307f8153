import Arlen.Graph.Query

/-!
# Building the Cypher text (`ai/ai-core/src/graph_query.rs`)

One `MATCH` over the traversal, the filters and the project anchor joined in a
`WHERE`, then `RETURN`, an optional `ORDER BY` and a final `LIMIT`. Values go in
as literals: text between single quotes with backslash escapes, any control
character without an escape refused.
-/

namespace Arlen.Graph

open Arlen.Lib

inductive BuildError where
  | unencodableValue
  | cypherTooLong
  deriving DecidableEq, Repr

/-! ## Literals -/

/-- One character of a text literal. -/
def escapeChar (c : Char) : Except BuildError String :=
  if c = '\\' then .ok "\\\\"
  else if c = '\'' then .ok "\\'"
  else if c = '\n' then .ok "\\n"
  else if c = '\r' then .ok "\\r"
  else if c = '\t' then .ok "\\t"
  else if c.toNat < 0x20 then .error .unencodableValue
  else .ok c.toString

def encodeLiteral : TypedValue → Except BuildError String
  | .bool b => .ok (if b then "true" else "false")
  | .int n => .ok (toString n)
  | .text s => do
    let out ← s.toList.foldlM (fun out c => return out ++ (← escapeChar c)) "'"
    return out ++ "'"

/-! ## Clauses -/

def nodePatternCypher (pattern : NodePattern) : String :=
  "(" ++ pattern.bind ++ ":" ++ pattern.label ++ ")"

def edgeCypher (step : TraverseStep) : String :=
  match step.direction with
  | .outgoing => "-[:" ++ step.edge ++ "]->"
  | .incoming => "<-[:" ++ step.edge ++ "]-"

def FilterOp.symbol : FilterOp → String
  | .eq => "="
  | .ne => "<>"
  | .lt => "<"
  | .le => "<="
  | .gt => ">"
  | .ge => ">="
  | .contains => "CONTAINS"
  | .startsWith => "STARTS WITH"

def filterCondition (bind : String) (filter : Filter) : Except BuildError String := do
  let literal ← encodeLiteral filter.value
  return bind ++ "." ++ filter.field ++ " " ++ filter.op.symbol ++ " " ++ literal

def collectConditions (pattern : NodePattern) : Except BuildError (List String) :=
  pattern.filters.mapM (filterCondition pattern.bind)

/-- The text of the anchor on a pattern that is part of the project by `edge`. -/
def existsCondition (edge bind lit : String) : String :=
  "EXISTS \x7b MATCH (" ++ bind ++ ")-[:" ++ edge ++ "]->(:Project \x7bid: " ++ lit ++ "\x7d) \x7d"

/-- The project anchor of one node pattern. The id is encoded even where the
label takes no anchor. -/
def anchorCondition (pattern : NodePattern) (anchor : ProjectAnchor) :
    Except BuildError (Option String) := do
  let lit ← encodeLiteral (.text anchor.projectId)
  return if pattern.label = "File" then some (existsCondition "FILE_PART_OF" pattern.bind lit)
    else if pattern.label = "Directory" then some (existsCondition "DIR_PART_OF" pattern.bind lit)
    else if pattern.label = "Project" then some (pattern.bind ++ ".id = " ++ lit)
    else none

namespace GraphQuery

/-- Every filter of every node, then the anchor of every node. -/
def conditions (q : GraphQuery) (anchor : Option ProjectAnchor) :
    Except BuildError (List String) := do
  let filters ← q.patterns.mapM collectConditions
  match anchor with
  | none => return filters.flatten
  | some anchor =>
    let anchors ← q.patterns.mapM (anchorCondition · anchor)
    return filters.flatten ++ anchors.filterMap id

def orderClause : Option OrderSpec → String
  | none => ""
  | some order =>
    "ORDER BY " ++ order.bind ++ "." ++ order.field ++ " " ++
      (if order.descending then "DESC" else "ASC") ++ "\n"

/-- `limit.clamp(1, MAX_LIMIT)`. -/
def clampLimit (limit : Nat) : Nat := max 1 (min limit maxLimit)

def toCypher (q : GraphQuery) (anchor : Option ProjectAnchor) : Except BuildError String := do
  let matchClause := "MATCH " ++ nodePatternCypher q.fromNode ++
    String.join (q.traverse.map fun step => edgeCypher step ++ nodePatternCypher step.toNode) ++ "\n"
  let conditions ← q.conditions anchor
  let whereClause :=
    if conditions.isEmpty then "" else "WHERE " ++ String.intercalate " AND " conditions ++ "\n"
  let returns := q.select.map fun f => f.bind ++ "." ++ f.field
  let returnClause := "RETURN " ++ String.intercalate ", " returns ++ "\n"
  let cypher := matchClause ++ whereClause ++ returnClause ++ orderClause q.orderBy ++
    "LIMIT " ++ toString (clampLimit q.limit)
  if (utf8 cypher).length > maxCypherBytes then throw .cypherTooLong
  return cypher

end GraphQuery

end Arlen.Graph
