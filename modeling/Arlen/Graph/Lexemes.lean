import Arlen.Graph.Build
import Arlen.Graph.Scan

/-!
# The lexemes a query is built from

The built text as words, symbols and literals, clause by clause in the order of
the builder. The text of the lexemes is the text of the builder, whatever the
values are; a value's own text appears only inside literals.
-/

namespace Arlen.Graph

open Arlen.Lib

abbrev Lex := List (Lexeme UInt8)

def word (s : String) : Lexeme UInt8 := .word (utf8 s)

def syms (s : String) : Lex := (utf8 s).map .sym

def colon : Lexeme UInt8 := .sym 58

/-! ## Literals -/

/-- The bytes an encodable character becomes inside a literal. -/
def escapedChar (c : Char) : Bytes :=
  match escapeChar c with
  | .ok e => utf8 e
  | .error _ => []

def intLexemes : Int → Lex
  | .ofNat n => [word n.repr]
  | .negSucc n => syms "-" ++ [word (n + 1).repr]

def literalLexemes : TypedValue → Lex
  | .bool b => [word (if b then "true" else "false")]
  | .int n => intLexemes n
  | .text s => [.str (s.toList.flatMap escapedChar)]

/-! ## Clauses -/

def patternLexemes (p : NodePattern) : Lex :=
  syms "(" ++ [word p.bind, colon, word p.label] ++ syms ")"

def edgeLexemes (step : TraverseStep) : Lex :=
  match step.direction with
  | .outgoing => syms "-[" ++ [colon, word step.edge] ++ syms "]->"
  | .incoming => syms "<-[" ++ [colon, word step.edge] ++ syms "]-"

def opLexemes : FilterOp → Lex
  | .eq => syms "="
  | .ne => syms "<>"
  | .lt => syms "<"
  | .le => syms "<="
  | .gt => syms ">"
  | .ge => syms ">="
  | .contains => [word "CONTAINS"]
  | .startsWith => [word "STARTS"] ++ syms " " ++ [word "WITH"]

def fieldLexemes (bind field : String) : Lex := [word bind] ++ syms "." ++ [word field]

def filterLexemes (bind : String) (f : Filter) : Lex :=
  fieldLexemes bind f.field ++ syms " " ++ opLexemes f.op ++ syms " " ++ literalLexemes f.value

def existsLexemes (edge bind : String) (lit : Lex) : Lex :=
  [word "EXISTS"] ++ syms " \x7b " ++ [word "MATCH"] ++ syms " (" ++ [word bind] ++ syms ")-[" ++
    [colon, word edge] ++ syms "]->(" ++ [colon, word "Project"] ++ syms " \x7b" ++
    [word "id", colon] ++ syms " " ++ lit ++ syms "\x7d) \x7d"

def anchorLexemes (anchor : ProjectAnchor) (p : NodePattern) : Option Lex :=
  let lit := literalLexemes (.text anchor.projectId)
  if p.label = "File" then some (existsLexemes "FILE_PART_OF" p.bind lit)
  else if p.label = "Directory" then some (existsLexemes "DIR_PART_OF" p.bind lit)
  else if p.label = "Project" then some (fieldLexemes p.bind "id" ++ syms " = " ++ lit)
  else none

namespace GraphQuery

def conditionLexemes (q : GraphQuery) (anchor : Option ProjectAnchor) : List Lex :=
  (q.patterns.flatMap fun p => p.filters.map (filterLexemes p.bind)) ++
    match anchor with
    | none => []
    | some anchor => q.patterns.filterMap (anchorLexemes anchor)

def matchLexemes (q : GraphQuery) : Lex :=
  [word "MATCH"] ++ syms " " ++ patternLexemes q.fromNode ++
    q.traverse.flatMap fun step => edgeLexemes step ++ patternLexemes step.toNode

def whereLexemes (conditions : List Lex) : Lex :=
  if conditions = [] then []
  else [word "WHERE"] ++ syms " " ++
    (syms " " ++ [word "AND"] ++ syms " ").intercalate conditions ++ syms "\n"

def returnLexemes (q : GraphQuery) : Lex :=
  [word "RETURN"] ++ syms " " ++
    (syms ", ").intercalate (q.select.map fun f => fieldLexemes f.bind f.field)

def orderLexemes : Option OrderSpec → Lex
  | none => []
  | some order =>
    syms "\n" ++ [word "ORDER"] ++ syms " " ++ [word "BY"] ++ syms " " ++
      fieldLexemes order.bind order.field ++ syms " " ++
      [word (if order.descending then "DESC" else "ASC")]

def limitLexemes (q : GraphQuery) : Lex :=
  [.sym 10, word "LIMIT", .sym 32, word (clampLimit q.limit).repr]

def lexemes (q : GraphQuery) (anchor : Option ProjectAnchor) : Lex :=
  q.matchLexemes ++ syms "\n" ++ whereLexemes (q.conditionLexemes anchor) ++ q.returnLexemes ++
    orderLexemes q.orderBy ++ q.limitLexemes

end GraphQuery

/-! ## The text of the lexemes -/

@[simp] theorem render_word (s : String) : cypherLexis.render (word s) = utf8 s := rfl

@[simp] theorem render_sym (b : UInt8) : cypherLexis.render (.sym b) = [b] := rfl

@[simp] theorem text_syms (s : String) : cypherLexis.text (syms s) = utf8 s :=
  Lexis.text_syms _

@[simp] theorem render_colon : cypherLexis.render colon = utf8 ":" := by decide

theorem utf8_nodePatternCypher (p : NodePattern) :
    utf8 (nodePatternCypher p) = cypherLexis.text (patternLexemes p) := by
  simp [nodePatternCypher, patternLexemes]

theorem utf8_edgeCypher (step : TraverseStep) :
    utf8 (edgeCypher step) = cypherLexis.text (edgeLexemes step) := by
  have hout : utf8 "-[:" = utf8 "-[" ++ utf8 ":" := by decide
  have hin : utf8 "<-[:" = utf8 "<-[" ++ utf8 ":" := by decide
  cases hd : step.direction <;> simp [edgeCypher, edgeLexemes, hd, hout, hin]

theorem utf8_symbol (op : FilterOp) : utf8 op.symbol = cypherLexis.text (opLexemes op) := by
  have hstarts : utf8 "STARTS WITH" = utf8 "STARTS" ++ (utf8 " " ++ utf8 "WITH") := by
    decide
  cases op <;> simp [FilterOp.symbol, opLexemes, hstarts]

theorem utf8_toString_int (n : Int) : utf8 (toString n) = cypherLexis.text (intLexemes n) := by
  cases n with
  | ofNat n => simp [intLexemes, toString, Int.repr]
  | negSucc n => simp [intLexemes, toString, Int.repr]

theorem utf8_toString (c : Char) : utf8 c.toString = String.utf8EncodeChar c := by
  rw [utf8_eq_flatMap]
  simp

/-- The escaping loop of a text literal, from the text it has pushed so far. -/
theorem utf8_escape {cs : List Char} {s out : String}
    (h : cs.foldlM (fun out c => return out ++ (← escapeChar c)) s = .ok out) :
    utf8 out = utf8 s ++ cs.flatMap escapedChar := by
  induction cs generalizing s with
  | nil =>
    obtain rfl := pure_eq_ok.1 h
    simp
  | cons c cs ih =>
    simp only [List.foldlM_cons, bind_eq_ok, pure_eq_ok] at h
    obtain ⟨_, ⟨e, he, rfl⟩, hrest⟩ := h
    rw [ih hrest, utf8_append, List.flatMap_cons, escapedChar, he, List.append_assoc]

theorem utf8_encodeLiteral {v : TypedValue} {l : String} (h : encodeLiteral v = .ok l) :
    utf8 l = cypherLexis.text (literalLexemes v) := by
  cases v with
  | bool b =>
    obtain rfl := Except.ok.inj h
    simp [literalLexemes]
  | int n =>
    obtain rfl := Except.ok.inj h
    exact utf8_toString_int n
  | text s =>
    simp only [encodeLiteral, bind_eq_ok, pure_eq_ok] at h
    obtain ⟨out, hout, rfl⟩ := h
    have hquote : utf8 "'" = [cypherLexis.quote] := by decide
    rw [utf8_append, utf8_escape hout, hquote]
    simp [literalLexemes, Lexis.render]

theorem utf8_filterCondition {bind c : String} {f : Filter} (h : filterCondition bind f = .ok c) :
    utf8 c = cypherLexis.text (filterLexemes bind f) := by
  simp only [filterCondition, bind_eq_ok, pure_eq_ok] at h
  obtain ⟨lit, hlit, rfl⟩ := h
  simp [filterLexemes, fieldLexemes, utf8_encodeLiteral hlit, utf8_symbol]

theorem utf8_existsCondition {edge bind lit : String} {ts : Lex} (h : utf8 lit = cypherLexis.text ts) :
    utf8 (existsCondition edge bind lit) = cypherLexis.text (existsLexemes edge bind ts) := by
  have h₁ : utf8 "EXISTS \x7b MATCH (" =
      utf8 "EXISTS" ++ (utf8 " \x7b " ++ (utf8 "MATCH" ++ utf8 " (")) := by decide
  have h₂ : utf8 ")-[:" = utf8 ")-[" ++ utf8 ":" := by decide
  have h₃ : utf8 "]->(:Project \x7bid: " = utf8 "]->(" ++ (utf8 ":" ++ (utf8 "Project" ++
      (utf8 " \x7b" ++ (utf8 "id" ++ (utf8 ":" ++ utf8 " "))))) := by decide
  unfold existsCondition existsLexemes
  simp [h, h₁, h₂, h₃]

theorem utf8_anchorCondition {p : NodePattern} {anchor : ProjectAnchor} {c : Option String}
    (h : anchorCondition p anchor = .ok c) :
    c.map utf8 = (anchorLexemes anchor p).map cypherLexis.text := by
  simp only [anchorCondition, bind_eq_ok, pure_eq_ok] at h
  obtain ⟨lit, hlit, rfl⟩ := h
  have hlit := utf8_encodeLiteral hlit
  have hid : utf8 ".id = " = utf8 "." ++ (utf8 "id" ++ utf8 " = ") := by decide
  unfold anchorLexemes
  split_ifs
  · exact congrArg some (utf8_existsCondition hlit)
  · exact congrArg some (utf8_existsCondition hlit)
  · simp [fieldLexemes, hlit, hid]
  · rfl

namespace GraphQuery

variable {q : GraphQuery} {anchor : Option ProjectAnchor}

theorem utf8_collectConditions {p : NodePattern} {cs : List String}
    (h : collectConditions p = .ok cs) :
    cs.map utf8 = (p.filters.map (filterLexemes p.bind)).map cypherLexis.text := by
  rw [List.map_map]
  exact map_eq_of_mapM_ok h fun _ _ => utf8_filterCondition

theorem utf8_conditions {cs : List String} (h : q.conditions anchor = .ok cs) :
    cs.map utf8 = (q.conditionLexemes anchor).map cypherLexis.text := by
  obtain ⟨filters, hfilters, h⟩ := bind_eq_ok.1 h
  have hflat : filters.flatten.map utf8 =
      (q.patterns.flatMap fun p => p.filters.map (filterLexemes p.bind)).map cypherLexis.text := by
    have := map_eq_of_mapM_ok hfilters fun _ _ => utf8_collectConditions
    rw [List.map_flatten, this, List.map_flatMap, List.flatMap_def]
  cases anchor with
  | none =>
    obtain rfl := pure_eq_ok.1 h
    simpa [conditionLexemes] using hflat
  | some anchor =>
    obtain ⟨anchors, hanchors, h⟩ := bind_eq_ok.1 h
    obtain rfl := pure_eq_ok.1 h
    have hanchor : (anchors.filterMap id).map utf8 =
        (q.patterns.filterMap (anchorLexemes anchor)).map cypherLexis.text := by
      have hmap := map_eq_of_mapM_ok hanchors fun _ _ => utf8_anchorCondition
      have := congrArg (List.filterMap id) hmap
      simpa [List.filterMap_map, List.map_filterMap, Function.comp_def] using this
    rw [List.map_append, hflat, hanchor, conditionLexemes, List.map_append]

theorem utf8_matchClause : utf8 ("MATCH " ++ nodePatternCypher q.fromNode ++ String.join
      (q.traverse.map fun step => edgeCypher step ++ nodePatternCypher step.toNode)) =
    cypherLexis.text q.matchLexemes := by
  have hmatch : utf8 "MATCH " = utf8 "MATCH" ++ utf8 " " := by decide
  unfold matchLexemes
  simp only [utf8_append, utf8_join, List.flatMap_map, utf8_edgeCypher, utf8_nodePatternCypher,
    hmatch]
  simp [Lexis.text_flatMap]

theorem utf8_whereClause {cs : List String} {conditions : List Lex}
    (h : cs.map utf8 = conditions.map cypherLexis.text) :
    utf8 (if cs.isEmpty then "" else "WHERE " ++ String.intercalate " AND " cs ++ "\n") =
      cypherLexis.text (whereLexemes conditions) := by
  have hwhere : utf8 "WHERE " = utf8 "WHERE" ++ utf8 " " := by decide
  have hand : utf8 " AND " = utf8 " " ++ (utf8 "AND" ++ utf8 " ") := by decide
  cases cs with
  | nil =>
    obtain rfl : conditions = [] := List.map_eq_nil_iff.1 h.symm
    rfl
  | cons c cs =>
    have hne : conditions ≠ [] := by
      rintro rfl
      cases h
    rw [whereLexemes, if_neg hne, List.isEmpty_cons, if_neg Bool.false_ne_true]
    simp [utf8_intercalate, Lexis.text_intercalate, ← h, hwhere, hand]

theorem utf8_returnClause : utf8 ("RETURN " ++ String.intercalate ", "
      (q.select.map fun f => f.bind ++ "." ++ f.field)) = cypherLexis.text q.returnLexemes := by
  have hreturn : utf8 "RETURN " = utf8 "RETURN" ++ utf8 " " := by decide
  unfold returnLexemes
  simp [utf8_intercalate, Lexis.text_intercalate, hreturn, fieldLexemes, Function.comp_def]

theorem utf8_orderClause (o : Option OrderSpec) :
    utf8 "\n" ++ utf8 (orderClause o) = cypherLexis.text (orderLexemes o) ++ utf8 "\n" := by
  have horder : utf8 "ORDER BY " = utf8 "ORDER" ++ (utf8 " " ++ (utf8 "BY" ++ utf8 " ")) := by
    decide
  cases o with
  | none => simp [orderClause, orderLexemes, utf8]
  | some o =>
    unfold orderClause orderLexemes
    simp [horder, fieldLexemes]

theorem utf8_limitClause :
    utf8 "\n" ++ (utf8 "LIMIT " ++ utf8 (toString (clampLimit q.limit))) =
      cypherLexis.text q.limitLexemes := by
  have hlimit : utf8 "LIMIT " = utf8 "LIMIT" ++ [32] := by decide
  have hline : utf8 "\n" = [10] := by decide
  simp [limitLexemes, hlimit, hline, toString]

/-- **The built text is the text of the lexemes.** -/
theorem utf8_toCypher {c : String} (h : q.toCypher anchor = .ok c) :
    utf8 c = cypherLexis.text (q.lexemes anchor) := by
  simp only [toCypher, throw_bind, guard_eq_ok, bind_eq_ok, pure_eq_ok] at h
  obtain ⟨cs, hcs, -, rfl⟩ := h
  have hwhere := utf8_whereClause (utf8_conditions hcs)
  have hline : cypherLexis.text (syms "\n") = utf8 "\n" := text_syms _
  rw [lexemes, Lexis.text_append, Lexis.text_append, Lexis.text_append, Lexis.text_append,
    Lexis.text_append, ← hwhere, ← utf8_matchClause, ← utf8_returnClause, ← utf8_limitClause, hline]
  simp only [utf8_append, List.append_assoc]
  rw [← List.append_assoc (utf8 "\n") (utf8 (orderClause _)), utf8_orderClause]
  simp only [List.append_assoc]

end GraphQuery

end Arlen.Graph
