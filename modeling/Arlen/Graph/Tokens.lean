import Arlen.Graph.SelfCheck

/-!
# Values do not change the structure

A tokeniser by the scanner's own rules, and what it gives on a built text: the
lexemes the text was built from. Two queries that differ only in text values
then have the same tokens up to the contents of their string tokens, each of
which unescapes to the value that was put in.
-/

namespace Arlen.Graph

open Arlen.Lib

/-! ## The tokeniser -/

/-- Words, symbols and string literals as the scanner tells them apart: what it
passes over is a literal's token or, for a comment, none. -/
def tokenise (bytes : Bytes) : Lex :=
  match _h : skipInert bytes with
  | some rest =>
    let piece := bytes.take (bytes.length - rest.length)
    if piece.head? = some 47 then tokenise rest
    else .str (piece.drop 1).dropLast :: tokenise rest
  | none =>
    match bytes with
    | [] => []
    | b :: rest =>
      if isWordByte b then
        .word (b :: rest.takeWhile isWordByte) :: tokenise (rest.dropWhile isWordByte)
      else .sym b :: tokenise rest
termination_by bytes.length
decreasing_by
  · exact length_skipInert _h
  · exact length_skipInert _h
  · rw [List.length_cons, Nat.lt_succ_iff]
    exact (List.dropWhile_sublist _).length_le
  · simp

theorem tokenise_str {s : Bytes} (h : Closed 39 92 s) (r : Bytes) :
    tokenise (39 :: (s ++ 39 :: r)) = .str s :: tokenise r := by
  have hskip := skipInert_str h r
  rw [tokenise]
  split
  · next rest h' =>
    obtain rfl := Option.some.inj (hskip.symm.trans h')
    have hpiece : (39 :: (s ++ 39 :: r)).take ((39 :: (s ++ 39 :: r)).length - r.length) =
        39 :: (s ++ [39]) := by
      have hlen : (39 :: (s ++ 39 :: r)).length - r.length = (39 :: (s ++ [39])).length := by
        simp
        omega
      rw [hlen, show 39 :: (s ++ 39 :: r) = 39 :: (s ++ [39]) ++ r by simp, List.take_left]
    rw [hpiece]
    simp
  · next h' =>
    rw [hskip] at h'
    cases h'

theorem tokenise_sym {b : UInt8} (h : isSymByte b = true) (r : Bytes) :
    tokenise (b :: r) = .sym b :: tokenise r := by
  have hnone := skipInert_plain (.inr h) r
  have hword : isWordByte b = false := cypherLexis.sym_sep b h
  rw [tokenise]
  split
  · next h' =>
    rw [hnone] at h'
    cases h'
  · simp [hword]

theorem tokenise_word {w r : Bytes} (hne : w ≠ []) (hw : ∀ b ∈ w, isWordByte b = true)
    (hr : ∀ b ∈ r.head?, isWordByte b = false) :
    tokenise (w ++ r) = .word w :: tokenise r := by
  obtain ⟨b, w, rfl⟩ := List.exists_cons_of_ne_nil hne
  have hb := hw b List.mem_cons_self
  have hw' : ∀ c ∈ w, isWordByte c = true := fun c hc => hw c (List.mem_cons_of_mem _ hc)
  have hnone := skipInert_plain (.inl hb) (w ++ r)
  have htake : r.takeWhile isWordByte = [] ∧ r.dropWhile isWordByte = r := by
    cases r with
    | nil => simp
    | cons c r => simp [hr c rfl]
  rw [List.cons_append, tokenise]
  split
  · next h' =>
    rw [hnone] at h'
    cases h'
  · simp [hb, List.takeWhile_append_of_pos hw', List.dropWhile_append_of_pos hw', htake]

/-- **The tokeniser reads a text of lexemes back.** -/
theorem tokenise_text {ts : Lex} (hok : ∀ t ∈ ts, cypherLexis.Ok t) (hapart : Lexis.Apart ts) :
    tokenise (cypherLexis.text ts) = ts := by
  induction ts with
  | nil =>
    rw [Lexis.text_nil, tokenise]
    rfl
  | cons t ts ih =>
    have ht := hok t List.mem_cons_self
    have htail := ih (fun t' hm => hok t' (List.mem_cons_of_mem _ hm)) hapart.of_cons
    rw [Lexis.text_cons]
    cases t with
    | sym b =>
      have hsym := tokenise_sym (b := b) ht (cypherLexis.text ts)
      rw [render_sym, List.singleton_append, hsym, htail]
    | str s =>
      have htext : cypherLexis.render (.str s) ++ cypherLexis.text ts =
          39 :: (s ++ 39 :: cypherLexis.text ts) := by
        simp [Lexis.render, cypherLexis]
      rw [htext, tokenise_str ht, htail]
    | word w =>
      have hnext : ∀ b ∈ (cypherLexis.text ts).head?, isWordByte b = false := by
        cases ts with
        | nil => simp
        | cons t' ts =>
          have ht' := hok t' (by simp)
          cases t' with
          | word v => exact absurd ⟨rfl, rfl⟩ (hapart.rel w v)
          | sym b =>
            have hb : isWordByte b = false := cypherLexis.sym_sep b ht'
            simpa using hb
          | str s =>
            intro b hb
            obtain rfl : 39 = b := by simpa [Lexis.render, cypherLexis] using hb
            decide
      have hword := tokenise_word ht.1 ht.2 hnext
      rw [Lexis.render, hword, htail]

/-! ## Unescaping -/

/-- The byte an escape stands for. -/
def unescapeByte (b : UInt8) : UInt8 :=
  if b = 110 then 10 else if b = 114 then 13 else if b = 116 then 9 else b

/-- The text between the quotes of a literal. -/
def unescape : Bytes → Bytes
  | [] => []
  | [b] => [b]
  | b :: c :: rest =>
    if b = 92 then unescapeByte c :: unescape rest else b :: unescape (c :: rest)

theorem unescape_cons {b : UInt8} (h : b ≠ 92) (s : Bytes) : unescape (b :: s) = b :: unescape s := by
  cases s with
  | nil => rfl
  | cons c s => simp [unescape, h]

theorem unescape_append {b : Bytes} (h : ∀ x ∈ b, x ≠ 92) (s : Bytes) :
    unescape (b ++ s) = b ++ unescape s := by
  induction b with
  | nil => rfl
  | cons x b ih =>
    rw [List.cons_append, unescape_cons (h x List.mem_cons_self),
      ih fun y hy => h y (List.mem_cons_of_mem _ hy), List.cons_append]

theorem unescape_escapedChar {c : Char} {e : String} (h : escapeChar c = .ok e) (s : Bytes) :
    unescape (escapedChar c ++ s) = String.utf8EncodeChar c ++ unescape s := by
  have hpair : ∀ {e : String} {c : Char} {b : UInt8}, utf8 e = [92, b] →
      String.utf8EncodeChar c = [unescapeByte b] →
      unescape (utf8 e ++ s) = String.utf8EncodeChar c ++ unescape s := by
    intro e c b he hc
    rw [he, hc]
    simp [unescape]
  unfold escapedChar
  rw [h]
  unfold escapeChar at h
  split_ifs at h with hback hquote hlf hcr htab <;> obtain rfl := Except.ok.inj h
  · exact hpair (b := 92) (by decide) (by rw [hback]; decide)
  · exact hpair (b := 39) (by decide) (by rw [hquote]; decide)
  · exact hpair (b := 110) (by decide) (by rw [hlf]; decide)
  · exact hpair (b := 114) (by decide) (by rw [hcr]; decide)
  · exact hpair (b := 116) (by decide) (by rw [htab]; decide)
  · simp only [utf8_toString]
    exact unescape_append (fun b hb => ne_of_mem_utf8EncodeChar (n := 92) (by decide) hback hb) s

theorem unescape_escaped {cs : List Char} (h : ∀ c ∈ cs, ∃ e, escapeChar c = .ok e) :
    unescape (cs.flatMap escapedChar) = cs.flatMap String.utf8EncodeChar := by
  induction cs with
  | nil => rfl
  | cons c cs ih =>
    obtain ⟨e, he⟩ := h c List.mem_cons_self
    rw [List.flatMap_cons, List.flatMap_cons, unescape_escapedChar he,
      ih fun c' hc => h c' (List.mem_cons_of_mem _ hc)]

/-! ## Shapes -/

/-- A token up to the contents of a literal. -/
def shape : Lexeme UInt8 → Lexeme UInt8
  | .str _ => .str []
  | t => t

def strBody : Lexeme UInt8 → Option Bytes
  | .str s => some s
  | _ => none

def TypedValue.eraseText : TypedValue → TypedValue
  | .text _ => .text ""
  | v => v

def Filter.eraseText (f : Filter) : Filter := { f with value := f.value.eraseText }

def NodePattern.eraseText (p : NodePattern) : NodePattern :=
  { p with filters := p.filters.map Filter.eraseText }

def TraverseStep.eraseText (s : TraverseStep) : TraverseStep :=
  { s with toNode := s.toNode.eraseText }

/-- The query with every text value emptied: what two queries share that differ
only in those values. -/
def GraphQuery.eraseText (q : GraphQuery) : GraphQuery :=
  { q with fromNode := q.fromNode.eraseText, traverse := q.traverse.map TraverseStep.eraseText }

@[simp] theorem shape_word (s : String) : shape (word s) = word s := rfl

@[simp] theorem shape_colon : shape colon = colon := rfl

@[simp] theorem shape_syms (s : String) : (syms s).map shape = syms s := by
  simp [syms, shape]

/-- The bodies of the literals of a text, in order. -/
def bodies (ts : Lex) : List Bytes := ts.filterMap strBody

@[simp] theorem bodies_nil : bodies [] = [] := rfl

@[simp] theorem bodies_append (ts us : Lex) : bodies (ts ++ us) = bodies ts ++ bodies us :=
  List.filterMap_append

@[simp] theorem bodies_word (s : String) (ts : Lex) : bodies (word s :: ts) = bodies ts := rfl

@[simp] theorem bodies_colon (ts : Lex) : bodies (colon :: ts) = bodies ts := rfl

@[simp] theorem bodies_syms (s : String) : bodies (syms s) = [] := by
  simp [bodies, syms, strBody]

theorem bodies_intercalate (sep : Lex) (h : bodies sep = []) (l : List Lex) :
    bodies (sep.intercalate l) = l.flatMap bodies := filterMap_intercalate h l

theorem shape_literal (v : TypedValue) :
    (literalLexemes v.eraseText).map shape = (literalLexemes v).map shape := by
  cases v <;> rfl

theorem shape_filter (bind : String) (f : Filter) :
    (filterLexemes bind f.eraseText).map shape = (filterLexemes bind f).map shape := by
  simp only [filterLexemes, List.map_append, Filter.eraseText, shape_literal]

theorem shape_exists (edge bind : String) {lit lit' : Lex} (h : lit.map shape = lit'.map shape) :
    (existsLexemes edge bind lit).map shape = (existsLexemes edge bind lit').map shape := by
  simp only [existsLexemes, List.map_append, h]

theorem shape_anchor (a b : ProjectAnchor) (p : NodePattern) :
    (anchorLexemes b p.eraseText).map (List.map shape) =
      (anchorLexemes a p).map (List.map shape) := by
  have hlit : (literalLexemes (.text b.projectId)).map shape =
      (literalLexemes (.text a.projectId)).map shape := rfl
  have hlabel : p.eraseText.label = p.label := rfl
  have hbind : p.eraseText.bind = p.bind := rfl
  unfold anchorLexemes
  rw [hlabel, hbind]
  split_ifs
  · exact congrArg some (shape_exists _ _ hlit)
  · exact congrArg some (shape_exists _ _ hlit)
  · simp only [Option.map_some, List.map_append, hlit]
  · rfl

namespace GraphQuery

theorem patterns_eraseText (q : GraphQuery) :
    q.eraseText.patterns = q.patterns.map NodePattern.eraseText := by
  simp [patterns, eraseText, TraverseStep.eraseText, Function.comp_def]

theorem shape_conditions (q : GraphQuery) {anchor anchor' : Option ProjectAnchor}
    (h : anchor.isSome = anchor'.isSome) :
    (q.eraseText.conditionLexemes anchor').map (List.map shape) =
      (q.conditionLexemes anchor).map (List.map shape) := by
  have hfilters : (q.eraseText.patterns.flatMap fun p => p.filters.map (filterLexemes p.bind)).map
      (List.map shape) = (q.patterns.flatMap fun p => p.filters.map (filterLexemes p.bind)).map
      (List.map shape) := by
    simp only [patterns_eraseText, List.map_flatMap, List.flatMap_map, NodePattern.eraseText,
      List.map_map, Function.comp_def, shape_filter]
  cases anchor with
  | none =>
    obtain rfl : anchor' = none := by simpa using h.symm
    simpa [conditionLexemes] using hfilters
  | some a =>
    obtain ⟨b, rfl⟩ : ∃ b, anchor' = some b := Option.isSome_iff_exists.1 h.symm
    have hanchors : (q.eraseText.patterns.filterMap (anchorLexemes b)).map (List.map shape) =
        (q.patterns.filterMap (anchorLexemes a)).map (List.map shape) := by
      simp only [patterns_eraseText, List.map_filterMap, List.filterMap_map, Function.comp_def,
        shape_anchor a b]
    simp only [conditionLexemes, List.map_append, hfilters, hanchors]

theorem shape_where (conditions : List Lex) :
    (whereLexemes conditions).map shape = whereLexemes (conditions.map (List.map shape)) := by
  unfold whereLexemes
  simp only [List.map_eq_nil_iff]
  split
  · rfl
  · simp [map_intercalate]

/-- **The shape of a built query does not depend on its text values.** -/
theorem shape_lexemes (q : GraphQuery) {anchor anchor' : Option ProjectAnchor}
    (h : anchor.isSome = anchor'.isSome) :
    (q.eraseText.lexemes anchor').map shape = (q.lexemes anchor).map shape := by
  have hmatch : q.eraseText.matchLexemes = q.matchLexemes := by
    simp [matchLexemes, eraseText, List.flatMap_map, TraverseStep.eraseText, edgeLexemes,
      patternLexemes, NodePattern.eraseText]
  have hreturn : q.eraseText.returnLexemes = q.returnLexemes := rfl
  have horder : q.eraseText.orderBy = q.orderBy := rfl
  have hlimit : q.eraseText.limitLexemes = q.limitLexemes := rfl
  simp only [lexemes, List.map_append, shape_where, q.shape_conditions h, hmatch, hreturn, horder,
    hlimit]

/-! ## Texts -/

end GraphQuery

/-- The texts of a value. -/
def TypedValue.texts : TypedValue → List String
  | .text s => [s]
  | _ => []

/-- The project id, where the label takes an anchor. -/
def ProjectAnchor.texts (anchor : ProjectAnchor) (p : NodePattern) : List String :=
  if p.label = "File" ∨ p.label = "Directory" ∨ p.label = "Project" then [anchor.projectId] else []

namespace GraphQuery

/-- The texts a build puts in, in the order of the conditions. -/
def texts (q : GraphQuery) (anchor : Option ProjectAnchor) : List String :=
  (q.patterns.flatMap fun p => p.filters.flatMap fun f => f.value.texts) ++
    match anchor with
    | none => []
    | some anchor => q.patterns.flatMap anchor.texts

end GraphQuery

/-- The body of a text's literal. -/
def escaped (s : String) : Bytes := s.toList.flatMap escapedChar

theorem bodies_literal (v : TypedValue) :
    bodies (literalLexemes v) = v.texts.map escaped := by
  cases v with
  | bool b => rfl
  | int n => cases n <;> simp [literalLexemes, intLexemes, TypedValue.texts]
  | text s => rfl

@[simp] theorem bodies_op (op : FilterOp) : bodies (opLexemes op) = [] := by
  cases op <;> simp [opLexemes]

@[simp] theorem bodies_field (bind field : String) :
    bodies (fieldLexemes bind field) = [] := by
  simp [fieldLexemes]

theorem bodies_filter (bind : String) (f : Filter) :
    bodies (filterLexemes bind f) = f.value.texts.map escaped := by
  simp [filterLexemes, bodies_literal]

theorem bodies_exists (edge bind : String) (lit : Lex) :
    bodies (existsLexemes edge bind lit) = bodies lit := by
  simp [existsLexemes]

theorem bodies_anchor (anchor : ProjectAnchor) (p : NodePattern) :
    (anchorLexemes anchor p).toList.flatMap bodies =
      (anchor.texts p).map escaped := by
  unfold anchorLexemes ProjectAnchor.texts
  split_ifs <;> simp_all [bodies_exists, bodies_literal, TypedValue.texts]

@[simp] theorem bodies_pattern (p : NodePattern) : bodies (patternLexemes p) = [] := by
  simp [patternLexemes]

@[simp] theorem bodies_edge (step : TraverseStep) : bodies (edgeLexemes step) = [] := by
  unfold edgeLexemes
  split <;> simp

namespace GraphQuery

theorem bodies_conditions (q : GraphQuery) (anchor : Option ProjectAnchor) :
    (q.conditionLexemes anchor).flatMap bodies =
      (q.texts anchor).map escaped := by
  have hfilters : (q.patterns.flatMap fun p => p.filters.map (filterLexemes p.bind)).flatMap
      bodies =
      (q.patterns.flatMap fun p => p.filters.flatMap fun f => f.value.texts).map escaped := by
    simp only [List.flatMap_assoc, List.flatMap_map, bodies_filter, List.map_flatMap]
  cases anchor with
  | none => simpa [conditionLexemes, texts] using hfilters
  | some anchor =>
    have hanchors : ∀ ps : List NodePattern,
        (ps.filterMap (anchorLexemes anchor)).flatMap bodies =
          (ps.flatMap anchor.texts).map escaped := by
      intro ps
      induction ps with
      | nil => rfl
      | cons p ps ih =>
        rw [List.flatMap_cons, List.map_append, ← bodies_anchor, ← ih]
        cases h : anchorLexemes anchor p <;> simp [h]
    simp only [conditionLexemes, texts, List.flatMap_append, List.map_append, hfilters, hanchors]

/-- The literals of a built query are the escaped texts, in order. -/
theorem bodies_lexemes (q : GraphQuery) (anchor : Option ProjectAnchor) :
    bodies (q.lexemes anchor) = (q.texts anchor).map escaped := by
  have hwhere : bodies (whereLexemes (q.conditionLexemes anchor)) =
      (q.texts anchor).map escaped := by
    rw [← bodies_conditions]
    unfold whereLexemes
    split
    · next h => simp [h]
    · simp [bodies_intercalate (syms " " ++ word "AND" :: syms " ") (by simp)]
  have hsteps : ∀ steps : List TraverseStep, bodies
      (steps.flatMap fun step => edgeLexemes step ++ patternLexemes step.toNode) = [] := by
    intro steps
    induction steps with
    | nil => rfl
    | cons step steps ih => simp [ih]
  have hmatch : bodies q.matchLexemes = [] := by
    simp [matchLexemes, hsteps]
  have hreturn : bodies q.returnLexemes = [] := by
    simp [returnLexemes, bodies_intercalate (syms ", ") (by simp), List.flatMap_map]
  have horder : bodies (orderLexemes q.orderBy) = [] := by
    unfold orderLexemes
    split <;> simp
  have hlimit : bodies q.limitLexemes = [] := by
    rfl
  simp [lexemes, hmatch, hwhere, hreturn, horder, hlimit]

end GraphQuery

/-! ## Encodable texts -/

theorem encodable_of_fold {cs : List Char} {s out : String}
    (h : cs.foldlM (fun out c => return out ++ (← escapeChar c)) s = .ok out) :
    ∀ c ∈ cs, ∃ e, escapeChar c = .ok e := by
  induction cs generalizing s with
  | nil => simp
  | cons c cs ih =>
    simp only [List.foldlM_cons, bind_eq_ok, pure_eq_ok] at h
    obtain ⟨_, ⟨e, he, -⟩, hrest⟩ := h
    exact List.forall_mem_cons.2 ⟨⟨e, he⟩, ih hrest⟩

/-- A text that was encoded is read back from its literal. -/
theorem unescape_of_encodeLiteral {s l : String} (h : encodeLiteral (.text s) = .ok l) :
    unescape (escaped s) = utf8 s := by
  simp only [encodeLiteral, bind_eq_ok, pure_eq_ok] at h
  obtain ⟨out, hout, -⟩ := h
  rw [escaped, unescape_escaped (encodable_of_fold hout), ← utf8_eq_flatMap]

namespace GraphQuery

variable {q : GraphQuery} {anchor : Option ProjectAnchor}

/-- Every text of a query that was built had an encoding. -/
theorem encoded_of_conditions {cs : List String} (h : q.conditions anchor = .ok cs) :
    ∀ s ∈ q.texts anchor, ∃ l, encodeLiteral (.text s) = .ok l := by
  obtain ⟨filters, hfilters, h⟩ := bind_eq_ok.1 h
  intro s hs
  rcases List.mem_append.1 hs with hs | hs
  · obtain ⟨p, hp, hs⟩ := List.mem_flatMap.1 hs
    obtain ⟨f, hf, hs⟩ := List.mem_flatMap.1 hs
    obtain ⟨fs, hfs⟩ := exists_ok_of_mapM hfilters p hp
    obtain ⟨c, hc⟩ := exists_ok_of_mapM hfs f hf
    simp only [filterCondition, bind_eq_ok] at hc
    obtain ⟨l, hl, -⟩ := hc
    refine ⟨l, ?_⟩
    cases hv : f.value <;> simp_all [TypedValue.texts]
  · cases anchor with
    | none => cases hs
    | some anchor =>
      obtain ⟨anchors, hanchors, -⟩ := bind_eq_ok.1 h
      obtain ⟨p, hp, hs⟩ := List.mem_flatMap.1 hs
      obtain ⟨c, hc⟩ := exists_ok_of_mapM hanchors p hp
      simp only [anchorCondition, bind_eq_ok] at hc
      obtain ⟨l, hl, -⟩ := hc
      unfold ProjectAnchor.texts at hs
      split at hs
      · obtain rfl := List.mem_singleton.1 hs
        exact ⟨l, hl⟩
      · cases hs

/-! ## The structure of a built text -/

/-- The tokens of a text end in a line of `LIMIT` and a number in range. -/
def EndsInLimit (ts : Lex) : Prop :=
  ∃ us n, ts = us ++ [.sym 10, word "LIMIT", .sym 32, word n.repr] ∧ 1 ≤ n ∧ n ≤ maxLimit

/-- The texts the string tokens stand for. -/
def stringTexts (ts : Lex) : List (Option String) := (bodies ts).map fun b => decodeUtf8 (unescape b)

theorem WellFormed.tokenise_toCypher (h : q.WellFormed) {c : String}
    (hc : q.toCypher anchor = .ok c) : tokenise (utf8 c) = q.lexemes anchor := by
  rw [utf8_toCypher hc]
  exact tokenise_text (fun t ht => (h.emitted t ht).ok) (q.apart_lexemes anchor)

theorem endsInLimit_lexemes : EndsInLimit (q.lexemes anchor) := by
  refine ⟨_, clampLimit q.limit, rfl, ?_, ?_⟩
  · exact Nat.le_max_left _ _
  · exact Nat.max_le.2 ⟨by decide, Nat.min_le_right _ _⟩

theorem stringTexts_lexemes {c : String} (hc : q.toCypher anchor = .ok c) :
    stringTexts (q.lexemes anchor) = (q.texts anchor).map some := by
  simp only [toCypher, bind_eq_ok] at hc
  obtain ⟨cs, hcs, -⟩ := hc
  rw [stringTexts, bodies_lexemes, List.map_map]
  refine List.map_congr_left fun s hs => ?_
  obtain ⟨l, hl⟩ := encoded_of_conditions hcs s hs
  rw [Function.comp_apply, unescape_of_encodeLiteral hl, decodeUtf8_utf8]

/-- **No value changes the structure**: the texts built from two validated queries
that differ only in text values, under anchors that differ only in their project,
have the same tokens up to the contents of string tokens; these unescape to the
texts put in, and both end in a `LIMIT` within bounds. -/
theorem tokens_independent_of_texts {schema schema' : GraphSchema} {scope scope' : QueryScope}
    {q' : GraphQuery} {anchor' : Option ProjectAnchor} {c c' : String}
    (hv : q.validate schema scope = .ok ()) (hv' : q'.validate schema' scope' = .ok ())
    (hq : q.eraseText = q'.eraseText) (ha : anchor.isSome = anchor'.isSome)
    (hc : q.toCypher anchor = .ok c) (hc' : q'.toCypher anchor' = .ok c') :
    (tokenise (utf8 c)).map shape = (tokenise (utf8 c')).map shape ∧
      stringTexts (tokenise (utf8 c)) = (q.texts anchor).map some ∧
      stringTexts (tokenise (utf8 c')) = (q'.texts anchor').map some ∧
      EndsInLimit (tokenise (utf8 c)) ∧ EndsInLimit (tokenise (utf8 c')) := by
  rw [(wellFormed_of_validate hv).tokenise_toCypher hc,
    (wellFormed_of_validate hv').tokenise_toCypher hc']
  refine ⟨?_, stringTexts_lexemes hc, stringTexts_lexemes hc', endsInLimit_lexemes,
    endsInLimit_lexemes⟩
  rw [← q.shape_lexemes ha, hq, q'.shape_lexemes rfl]

/-- A file with this path, in a project. -/
def ofPath (path : String) : GraphQuery where
  fromNode := ⟨"f", "File", [⟨"path", .eq, .text path⟩]⟩
  traverse := []
  select := [⟨"f", "path"⟩]
  orderBy := none
  limit := 0

theorem tokens_independent_of_texts_quote :
    ∃ c c', (ofPath "a").toCypher (some ⟨"p"⟩) = .ok c ∧
      (ofPath "' OR 1=1 // ").toCypher (some ⟨"\\'"⟩) = .ok c' ∧
      (tokenise (utf8 c)).map shape = (tokenise (utf8 c')).map shape ∧
      stringTexts (tokenise (utf8 c')) = [some "' OR 1=1 // ", some "\\'"] := by
  have hv : (ofPath "a").validate .knowledgeGraph ⟨["File"], none⟩ = .ok () := by decide +kernel
  have hv' : (ofPath "' OR 1=1 // ").validate .knowledgeGraph ⟨["File"], none⟩ = .ok () := by
    decide +kernel
  have hbuilt : ∀ path id, ((ofPath path).toCypher (some ⟨id⟩)).isOk = true →
      ∃ c, (ofPath path).toCypher (some ⟨id⟩) = .ok c := by
    intro path id h
    cases hc : (ofPath path).toCypher (some ⟨id⟩) with
    | error e =>
      rw [hc] at h
      cases h
    | ok c => exact ⟨c, rfl⟩
  obtain ⟨c, hc⟩ := hbuilt "a" "p" (by decide +kernel)
  obtain ⟨c', hc'⟩ := hbuilt "' OR 1=1 // " "\\'" (by decide +kernel)
  have hsame : (ofPath "a").eraseText = (ofPath "' OR 1=1 // ").eraseText := rfl
  have htexts : (ofPath "' OR 1=1 // ").texts (some ⟨"\\'"⟩) = ["' OR 1=1 // ", "\\'"] := rfl
  have hanchors : (some (⟨"p"⟩ : ProjectAnchor)).isSome = (some (⟨"\\'"⟩ : ProjectAnchor)).isSome := rfl
  have h := tokens_independent_of_texts hv hv' hsame hanchors hc hc'
  refine ⟨c, c', hc, hc', h.1, ?_⟩
  rw [h.2.2.1, htexts]
  rfl

end GraphQuery

end Arlen.Graph
