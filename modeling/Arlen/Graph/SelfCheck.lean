import Arlen.Graph.Lexemes

/-!
# The builder against its own check

Every lexeme of a validated query is of a kind the scanner reads exactly: names
of the schema, the builder's keywords, numbers, literals closed by their quote,
and the bindings. Words stand apart and colons stand before declared labels. So
the self-check passes exactly when no binding spells a forbidden keyword; the
identifier check of `validate` does not exclude those.
-/

namespace Arlen.Graph

open Arlen.Lib

/-! ## Lexemes the builder may emit -/

/-- A lexeme of the right characters; a word is a binding or no forbidden keyword. -/
def Emitted (binds : List String) : Lexeme UInt8 → Prop
  | .word w => cypherLexis.Ok (.word w) ∧
      ((∃ x ∈ binds, utf8 x = w) ∨ ∀ kw ∈ forbidden, utf8 kw ≠ w.map toAsciiUppercase)
  | t => cypherLexis.Ok t

theorem Emitted.ok {binds : List String} {t : Lexeme UInt8} (h : Emitted binds t) :
    cypherLexis.Ok t := by
  cases t with
  | word w => exact h.1
  | sym b => exact h
  | str s => exact h

theorem spellsForbidden_eq_false {s : String} :
    spellsForbidden s = false ↔ ∀ kw ∈ forbidden, utf8 kw ≠ (utf8 s).map toAsciiUppercase := by
  simp [spellsForbidden]

theorem ok_word {s : String} (h : isWord s = true) : cypherLexis.Ok (word s) := by
  simp only [isWord, Bool.and_eq_true, Bool.not_eq_true', List.isEmpty_eq_false_iff,
    List.all_eq_true] at h
  exact h

theorem emitted_name {binds : List String} {s : String} (h : isSafeName s = true) :
    Emitted binds (word s) := by
  simp only [isSafeName, Bool.and_eq_true, Bool.not_eq_true'] at h
  exact ⟨ok_word h.1, .inr (spellsForbidden_eq_false.1 h.2)⟩

/-- A character of an identifier is one word byte. -/
theorem isWordByte_of_char {c : Char} (h : (isAlphanumericChar c || c == '_') = true) :
    c.toNat < 128 ∧ isWordByte (UInt8.ofNat c.toNat) = true := by
  have hc : (65 ≤ c.toNat ∧ c.toNat ≤ 90) ∨ (97 ≤ c.toNat ∧ c.toNat ≤ 122) ∨
      (48 ≤ c.toNat ∧ c.toNat ≤ 57) ∨ c.toNat = 95 := by
    simpa [isAlphanumericChar, isAlphabeticChar, Char.le_def, UInt32.le_iff_toNat_le,
      Char.ext_iff, ← UInt32.toNat_inj, or_assoc] using h
  refine ⟨by omega, isWordByte_iff.2 ?_⟩
  rw [UInt8.toNat_ofNat', Nat.mod_eq_of_lt (by omega)]
  exact hc

theorem isWord_of_isValidIdentifier {s : String} (h : isValidIdentifier s = true) :
    isWord s = true := by
  obtain ⟨hne, hchars⟩ : s.toList ≠ [] ∧
      ∀ c ∈ s.toList, (isAlphanumericChar c || c == '_') = true := by
    rw [isValidIdentifier, Bool.and_eq_true] at h
    cases hs : s.toList with
    | nil => simp [hs] at h
    | cons first rest =>
      simp only [hs, Bool.and_eq_true, List.all_eq_true] at h
      refine ⟨by simp, List.forall_mem_cons.2 ⟨?_, h.2.2⟩⟩
      have hfirst := h.2.1
      simp only [Bool.or_eq_true] at hfirst ⊢
      exact hfirst.imp_left fun ha => by simp [isAlphanumericChar, ha]
  have hbytes := utf8_of_ascii fun c hc => (isWordByte_of_char (hchars c hc)).1
  rw [isWord, hbytes, Bool.and_eq_true, List.all_map]
  refine ⟨by simpa using hne, List.all_eq_true.2 fun c hc => ?_⟩
  exact (isWordByte_of_char (hchars c hc)).2

theorem emitted_bind {binds : List String} {s : String} (hs : isValidIdentifier s = true)
    (hmem : s ∈ binds) : Emitted binds (word s) :=
  ⟨ok_word (isWord_of_isValidIdentifier hs), .inl ⟨s, hmem, rfl⟩⟩

theorem emitted_syms {binds : List String} {s : String} (h : (utf8 s).all isSymByte = true) :
    ∀ t ∈ syms s, Emitted binds t := by
  intro t ht
  obtain ⟨b, hb, rfl⟩ := List.mem_map.1 ht
  exact List.all_eq_true.1 h b hb

theorem utf8_repr (n : Nat) :
    ∃ x d, utf8 n.repr = x :: d ∧ ∀ b ∈ x :: d, isAsciiDigit b = true := by
  have hdigit : ∀ c ∈ n.repr.toList, 48 ≤ c.toNat ∧ c.toNat ≤ 57 := by
    intro c hc
    rw [Nat.toList_repr] at hc
    have := Nat.isDigit_of_mem_toDigits (by decide) (by decide) hc
    simpa [Char.isDigit, UInt32.le_iff_toNat_le] using this
  have hbytes := utf8_of_ascii fun c hc => Nat.lt_of_le_of_lt (hdigit c hc).2 (by decide)
  have hne : utf8 n.repr ≠ [] := by
    rw [hbytes]
    simp
  obtain ⟨x, d, hxd⟩ := List.exists_cons_of_ne_nil hne
  refine ⟨x, d, hxd, ?_⟩
  rw [← hxd, hbytes]
  intro b hb
  obtain ⟨c, hc, rfl⟩ := List.mem_map.1 hb
  have := hdigit c hc
  have hnat : (UInt8.ofNat c.toNat).toNat = c.toNat := by
    rw [UInt8.toNat_ofNat', Nat.mod_eq_of_lt (by omega)]
  simp [isAsciiDigit, UInt8.le_iff_toNat_le, hnat, this]

/-- A decimal number is a name like any other. -/
theorem isSafeName_repr (n : Nat) : isSafeName n.repr = true := by
  obtain ⟨x, d, hxd, hdigit⟩ := utf8_repr n
  have hword : isWord n.repr = true := by
    rw [isWord, hxd, Bool.and_eq_true]
    refine ⟨rfl, List.all_eq_true.2 fun b hb => ?_⟩
    simp [isWordByte, isAsciiAlphanumeric, hdigit b hb]
  -- a keyword starts with a letter, a number with a digit, and case does not matter to it
  have hletter : (forbidden.all fun kw => !((utf8 kw).head?.any isAsciiDigit)) = true := by
    decide
  have hx := hdigit x List.mem_cons_self
  have hspell : spellsForbidden n.repr = false := by
    rw [spellsForbidden_eq_false]
    intro kw hkw heq
    have hkw := List.all_eq_true.1 hletter kw hkw
    rw [heq, hxd, List.map_cons, toAsciiUppercase_digit hx] at hkw
    simp [hx] at hkw
  rw [isSafeName, hword, hspell]
  rfl

theorem closed_escapedChar (c : Char) : Closed 39 92 (escapedChar c) := by
  have hpair : ∀ {s : String} {b : UInt8}, utf8 s = [92, b] → Closed 39 92 (utf8 s) := by
    intro s b h
    rw [h]
    exact .escaped .nil
  unfold escapedChar escapeChar
  split_ifs with hback hquote
  · exact hpair (b := 92) (by decide)
  · exact hpair (b := 39) (by decide)
  · exact hpair (b := 110) (by decide)
  · exact hpair (b := 114) (by decide)
  · exact hpair (b := 116) (by decide)
  · exact .nil
  · simp only [utf8_toString]
    exact .of_plain fun b hb => ⟨ne_of_mem_utf8EncodeChar (n := 39) (by decide) hquote hb,
      ne_of_mem_utf8EncodeChar (n := 92) (by decide) hback hb⟩

theorem closed_escape (cs : List Char) : Closed 39 92 (cs.flatMap escapedChar) := by
  induction cs with
  | nil => exact .nil
  | cons c cs ih =>
    rw [List.flatMap_cons]
    exact (closed_escapedChar c).append ih

section Emitted

variable {binds : List String} {p : NodePattern}

theorem emitted_colon : Emitted binds colon :=
  show isSymByte 58 = true by decide

theorem emitted_literal (v : TypedValue) : ∀ t ∈ literalLexemes v, Emitted binds t := by
  cases v with
  | bool b => cases b <;> simpa [literalLexemes] using emitted_name (by decide)
  | int n =>
    cases n with
    | ofNat n => simpa [literalLexemes, intLexemes] using emitted_name (isSafeName_repr n)
    | negSucc n =>
      simp only [literalLexemes, intLexemes, List.forall_mem_append, List.forall_mem_singleton]
      exact ⟨emitted_syms (by decide), emitted_name (isSafeName_repr _)⟩
  | text s =>
    rw [literalLexemes, List.forall_mem_singleton]
    exact closed_escape s.toList

theorem emitted_op (op : FilterOp) : ∀ t ∈ opLexemes op, Emitted binds t := by
  cases op with
  | contains => simpa [opLexemes] using emitted_name (by decide)
  | startsWith =>
    simp only [opLexemes, List.forall_mem_append, List.forall_mem_singleton]
    exact ⟨⟨emitted_name (by decide), emitted_syms (by decide)⟩,
      emitted_name (by decide)⟩
  | _ => exact emitted_syms (by decide)

theorem emitted_field {bind field : String} (hb : Emitted binds (word bind))
    (hf : isSafeName field = true) : ∀ t ∈ fieldLexemes bind field, Emitted binds t := by
  simp only [fieldLexemes, List.forall_mem_append, List.forall_mem_singleton]
  exact ⟨⟨hb, emitted_syms (by decide)⟩, emitted_name hf⟩

theorem emitted_pattern (hb : Emitted binds (word p.bind)) (hl : isSafeName p.label = true) :
    ∀ t ∈ patternLexemes p, Emitted binds t := by
  simp only [patternLexemes, List.forall_mem_append, List.forall_mem_cons]
  exact ⟨⟨emitted_syms (by decide), hb, emitted_colon, emitted_name hl, by simp⟩,
    emitted_syms (by decide)⟩

theorem emitted_edge {step : TraverseStep} (h : isSafeName step.edge = true) :
    ∀ t ∈ edgeLexemes step, Emitted binds t := by
  unfold edgeLexemes
  split <;> simp only [List.forall_mem_append, List.forall_mem_cons] <;>
    exact ⟨⟨emitted_syms (by decide), emitted_colon, emitted_name h, by simp⟩,
      emitted_syms (by decide)⟩

theorem emitted_filter {f : Filter} (hb : Emitted binds (word p.bind))
    (hf : isSafeName f.field = true) : ∀ t ∈ filterLexemes p.bind f, Emitted binds t := by
  simp only [filterLexemes, List.forall_mem_append]
  exact ⟨⟨⟨⟨emitted_field hb hf, emitted_syms (by decide)⟩, emitted_op _⟩,
    emitted_syms (by decide)⟩, emitted_literal _⟩

theorem emitted_exists {edge : String} {lit : Lex} (hb : Emitted binds (word p.bind))
    (he : isSafeName edge = true) (hlit : ∀ t ∈ lit, Emitted binds t) :
    ∀ t ∈ existsLexemes edge p.bind lit, Emitted binds t := by
  have hsyms : ∀ s : String, (utf8 s).all isSymByte = true → ∀ t ∈ syms s, Emitted binds t :=
    fun _ => emitted_syms
  have hname : ∀ s : String, isSafeName s = true → Emitted binds (word s) := fun _ => emitted_name
  simp only [existsLexemes, List.append_assoc, List.cons_append, List.nil_append,
    List.forall_mem_append, List.forall_mem_cons]
  exact ⟨hname _ (by decide), hsyms _ (by decide), hname _ (by decide),
    hsyms _ (by decide), hb, hsyms _ (by decide), emitted_colon, hname _ he,
    hsyms _ (by decide), emitted_colon, hname _ (by decide),
    hsyms _ (by decide), hname _ (by decide), emitted_colon,
    hsyms _ (by decide), hlit, hsyms _ (by decide)⟩

theorem emitted_anchor {anchor : ProjectAnchor} {ts : Lex} (hb : Emitted binds (word p.bind))
    (h : anchorLexemes anchor p = some ts) : ∀ t ∈ ts, Emitted binds t := by
  have hlit : ∀ t ∈ literalLexemes (.text anchor.projectId), Emitted binds t :=
    emitted_literal _
  unfold anchorLexemes at h
  split_ifs at h <;> obtain rfl := Option.some.inj h
  · exact emitted_exists hb (by decide) hlit
  · exact emitted_exists hb (by decide) hlit
  · simp only [List.forall_mem_append]
    exact ⟨⟨emitted_field hb (by decide), emitted_syms (by decide)⟩, hlit⟩

end Emitted

namespace GraphQuery

variable {q : GraphQuery} {anchor : Option ProjectAnchor}

theorem WellFormed.emitted_bind (h : q.WellFormed) {p : NodePattern} (hp : p ∈ q.patterns) :
    Emitted q.binds (word p.bind) :=
  Graph.emitted_bind (h.patterns p hp).bind (List.mem_map_of_mem hp)

theorem WellFormed.emitted_conditions (h : q.WellFormed) :
    ∀ c ∈ q.conditionLexemes anchor, ∀ t ∈ c, Emitted q.binds t := by
  intro c hc
  rcases List.mem_append.1 hc with hc | hc
  · obtain ⟨p, hp, hc⟩ := List.mem_flatMap.1 hc
    obtain ⟨f, hf, rfl⟩ := List.mem_map.1 hc
    exact emitted_filter (h.emitted_bind hp) ((h.patterns p hp).filters f hf)
  · cases anchor with
    | none => cases hc
    | some anchor =>
      obtain ⟨p, hp, hc⟩ := List.mem_filterMap.1 hc
      exact emitted_anchor (h.emitted_bind hp) hc

/-- A field of the query: its binding is one of the query's, its name the schema's. -/
theorem WellFormed.emitted_ref (h : q.WellFormed) {bind field : String}
    (href : bind ∈ q.binds ∧ isSafeName field = true) :
    ∀ t ∈ fieldLexemes bind field, Emitted q.binds t := by
  obtain ⟨p, hp, rfl⟩ := List.mem_map.1 href.1
  exact emitted_field (h.emitted_bind hp) href.2

theorem emitted_join {binds : List String} {sep : Lex} {l : List Lex}
    (hsep : ∀ t ∈ sep, Emitted binds t) (hl : ∀ ts ∈ l, ∀ t ∈ ts, Emitted binds t) :
    ∀ t ∈ sep.intercalate l, Emitted binds t := by
  refine intercalate_rec (by simp) (fun ts us hts hus => ?_) hl
  simp only [List.forall_mem_append]
  exact ⟨⟨hts, hsep⟩, hus⟩

theorem WellFormed.emitted_match (h : q.WellFormed) :
    ∀ t ∈ q.matchLexemes, Emitted q.binds t := by
  simp only [matchLexemes, List.append_assoc, List.cons_append, List.nil_append,
    List.forall_mem_append, List.forall_mem_cons]
  refine ⟨emitted_name (by decide), emitted_syms (by decide),
    emitted_pattern (h.emitted_bind List.mem_cons_self) (h.patterns _ List.mem_cons_self).label,
    fun t ht => ?_⟩
  obtain ⟨step, hstep, ht⟩ := List.mem_flatMap.1 ht
  have hp : step.toNode ∈ q.patterns := List.mem_cons_of_mem _ (List.mem_map_of_mem hstep)
  rcases List.mem_append.1 ht with ht | ht
  · exact emitted_edge (h.edges step hstep) t ht
  · exact emitted_pattern (h.emitted_bind hp) (h.patterns _ hp).label t ht

theorem WellFormed.emitted_where (h : q.WellFormed) :
    ∀ t ∈ whereLexemes (q.conditionLexemes anchor), Emitted q.binds t := by
  have hand : ∀ t ∈ syms " " ++ word "AND" :: syms " ", Emitted q.binds t := by
    simp only [List.forall_mem_append, List.forall_mem_cons]
    exact ⟨emitted_syms (by decide), emitted_name (by decide),
      emitted_syms (by decide)⟩
  unfold whereLexemes
  split
  · simp
  · simp only [List.append_assoc, List.cons_append, List.nil_append, List.forall_mem_append,
      List.forall_mem_cons]
    exact ⟨emitted_name (by decide), emitted_syms (by decide),
      emitted_join hand h.emitted_conditions, emitted_syms (by decide)⟩

theorem WellFormed.emitted_return (h : q.WellFormed) :
    ∀ t ∈ q.returnLexemes, Emitted q.binds t := by
  have hfields : ∀ ts ∈ q.select.map fun f => fieldLexemes f.bind f.field,
      ∀ t ∈ ts, Emitted q.binds t := by
    simp only [List.forall_mem_map]
    exact fun f hf => h.emitted_ref (h.select f hf)
  simp only [returnLexemes, List.cons_append, List.nil_append, List.forall_mem_append,
    List.forall_mem_cons]
  exact ⟨emitted_name (by decide), emitted_syms (by decide),
    emitted_join (emitted_syms (by decide)) hfields⟩

theorem WellFormed.emitted_order (h : q.WellFormed) :
    ∀ t ∈ orderLexemes q.orderBy, Emitted q.binds t := by
  unfold orderLexemes
  split
  · simp
  · next o ho =>
    have hdir : Emitted q.binds (word (if o.descending then "DESC" else "ASC")) := by
      cases o.descending <;> exact emitted_name (by decide)
    simp only [List.append_assoc, List.cons_append, List.nil_append, List.forall_mem_append,
      List.forall_mem_cons]
    exact ⟨emitted_syms (by decide), emitted_name (by decide),
      emitted_syms (by decide), emitted_name (by decide),
      emitted_syms (by decide), h.emitted_ref (h.orderBy o ho),
      emitted_syms (by decide), hdir, by simp⟩

theorem emitted_limit : ∀ t ∈ q.limitLexemes, Emitted q.binds t := by
  simp only [limitLexemes, List.forall_mem_cons]
  exact ⟨show isSymByte 10 = true by decide, emitted_name (by decide),
    show isSymByte 32 = true by decide, emitted_name (isSafeName_repr _), by simp⟩

/-- **Every lexeme of a validated query is an emitted one.** -/
theorem WellFormed.emitted (h : q.WellFormed) :
    ∀ t ∈ q.lexemes anchor, Emitted q.binds t := by
  simp only [lexemes, List.append_assoc, List.forall_mem_append]
  exact ⟨h.emitted_match, emitted_syms (by decide), h.emitted_where, h.emitted_return,
    h.emitted_order, emitted_limit⟩

/-! ## Words stand apart -/

end GraphQuery

section Apart

open Lexis

variable {ts us : Lex} {s w : String}

theorem utf8_ne_nil (h : s ≠ "") : utf8 s ≠ [] := by
  intro hnil
  exact h (utf8_inj (t := "") (by rw [hnil]; rfl))

@[simp] theorem apart_syms : Apart (syms s) := by
  have h : Apart (syms s ++ []) ↔ Apart ([] : Lex) := apart_syms_append
  simpa using h

@[simp] theorem apart_syms_cons : Apart (syms s ++ ts) ↔ Apart ts := apart_syms_append

@[simp] theorem apart_of_syms (h : s ≠ "") : Apart (ts ++ (syms s ++ us)) ↔ Apart ts ∧ Apart us :=
  apart_append_syms (utf8_ne_nil h)

@[simp] theorem apart_word_syms' (h : s ≠ "") : Apart (word w :: (syms s ++ us)) ↔ Apart us :=
  apart_word_syms (utf8_ne_nil h)

@[simp] theorem apart_colon_cons : Apart (colon :: ts) ↔ Apart ts := apart_sym_cons

@[simp] theorem apart_word_colon : Apart (word w :: colon :: ts) ↔ Apart ts := apart_word_sym

@[simp] theorem apart_pattern (p : NodePattern) : Apart (patternLexemes p ++ ts) ↔ Apart ts := by
  simp [patternLexemes]

@[simp] theorem apart_edge (step : TraverseStep) : Apart (edgeLexemes step ++ ts) ↔ Apart ts := by
  unfold edgeLexemes
  split <;> simp

@[simp] theorem apart_single : Apart [word w] := apart_word

@[simp] theorem apart_literal (v : TypedValue) : Apart (literalLexemes v) := by
  cases v with
  | bool b => simp [literalLexemes]
  | int n => cases n <;> simp [literalLexemes, intLexemes]
  | text s => simp [literalLexemes]

@[simp] theorem apart_op (op : FilterOp) : Apart (opLexemes op) := by
  cases op <;> simp [opLexemes]

@[simp] theorem apart_field (bind field : String) : Apart (fieldLexemes bind field) := by
  simp [fieldLexemes]

theorem apart_filter (bind : String) (f : Filter) : Apart (filterLexemes bind f) := by
  simp [filterLexemes]

theorem apart_exists (edge bind : String) {lit : Lex} (h : Apart lit) :
    Apart (existsLexemes edge bind lit) := by
  have hlast : Apart (lit ++ syms "\x7d) \x7d") := by
    have hsyms : Apart (lit ++ (syms "\x7d) \x7d" ++ [])) ↔ Apart lit ∧ Apart ([] : Lex) :=
      apart_of_syms (by decide)
    simpa [h] using hsyms
  simp [existsLexemes, hlast]

theorem apart_anchor {anchor : ProjectAnchor} {p : NodePattern} {c : Lex}
    (h : anchorLexemes anchor p = some c) : Apart c := by
  unfold anchorLexemes at h
  split_ifs at h <;> obtain rfl := Option.some.inj h
  · exact apart_exists _ _ (apart_literal _)
  · exact apart_exists _ _ (apart_literal _)
  · simp

theorem apart_join {sep : Lex} {l : List Lex}
    (hsep : ∀ ts us, Apart ts → Apart us → Apart (ts ++ sep ++ us)) (h : ∀ c ∈ l, Apart c) :
    Apart (sep.intercalate l) :=
  intercalate_rec apart_nil hsep h

end Apart

namespace GraphQuery

open Lexis

variable (q : GraphQuery) (anchor : Option ProjectAnchor)

theorem apart_conditions : ∀ c ∈ q.conditionLexemes anchor, Apart c := by
  intro c hc
  rcases List.mem_append.1 hc with hc | hc
  · obtain ⟨p, -, hc⟩ := List.mem_flatMap.1 hc
    obtain ⟨f, -, rfl⟩ := List.mem_map.1 hc
    exact apart_filter p.bind f
  · cases anchor with
    | none => cases hc
    | some anchor =>
      obtain ⟨p, -, hc⟩ := List.mem_filterMap.1 hc
      exact apart_anchor hc

theorem apart_steps (steps : List TraverseStep) {ts : Lex} :
    Apart ((steps.flatMap fun step => edgeLexemes step ++ patternLexemes step.toNode) ++ ts) ↔
      Apart ts := by
  induction steps with
  | nil => simp
  | cons step steps ih => simpa using ih

theorem apart_where {conditions : List Lex} (h : ∀ c ∈ conditions, Apart c) {ts : Lex} :
    Apart (whereLexemes conditions ++ ts) ↔ Apart ts := by
  unfold whereLexemes
  split
  · simp
  · have hjoin : Apart ((syms " " ++ [word "AND"] ++ syms " ").intercalate conditions) := by
      refine apart_join (fun ts us hts hus => ?_) h
      simp [hts, hus]
    simpa using fun _ => hjoin

/-- **No two words of a built query touch.** -/
theorem apart_lexemes : Apart (q.lexemes anchor) := by
  have hreturn : Apart ((syms ", ").intercalate
      (q.select.map fun f => fieldLexemes f.bind f.field)) := by
    refine apart_join (fun ts us hts hus => ?_) (by simp)
    simp [hts, hus]
  have hlimit : ∀ ts, Apart ts → Apart (ts ++ q.limitLexemes) := by
    intro ts hts
    simp [limitLexemes, hts, word]
  have horder : Apart (q.returnLexemes ++ orderLexemes q.orderBy) := by
    unfold returnLexemes orderLexemes
    split
    · simpa using hreturn
    · simp [hreturn]
  have hbody : Apart (q.returnLexemes ++ (orderLexemes q.orderBy ++ q.limitLexemes)) := by
    rw [← List.append_assoc]
    exact hlimit _ horder
  have hsteps : Apart
      (q.traverse.flatMap fun step => edgeLexemes step ++ patternLexemes step.toNode) := by
    have h := (apart_steps q.traverse).2 apart_nil
    simpa using h
  simp [lexemes, matchLexemes, hsteps, apart_where (q.apart_conditions anchor), hbody]

/-! ## Labels -/

end GraphQuery

section Labels

variable {ok : Bytes → Prop} {ts : Lex} {s w : String}

/-- A list without colons has no labels. -/
theorem labelled_of_not_mem (h : colon ∉ ts) : Labelled ok ts := by
  induction ts with
  | nil => exact .nil
  | cons t ts ih =>
    rw [List.mem_cons, not_or] at h
    exact .other (fun heq => h.1 heq.symm) (ih h.2)

theorem labelled_word : Labelled ok [word w] := labelled_of_not_mem (by simp [word, colon])

theorem labelled_syms (h : (utf8 s).contains 58 = false) : Labelled ok (syms s) := by
  refine labelled_of_not_mem fun hmem => ?_
  obtain ⟨b, hb, heq⟩ := List.mem_map.1 hmem
  obtain rfl := Lexeme.sym.inj heq
  rw [List.contains_iff_mem.2 hb] at h
  cases h

/-- Symbols that start with one which ends a label. -/
def endsLabel (s : String) : Bool :=
  !(utf8 s).contains 58 && ((utf8 s).head?.any fun b => !isLabelChar b)

theorem endsLabel_spec (ok : Bytes → Prop) (h : endsLabel s = true) : ∃ b bytes, syms s = .sym b :: bytes ∧
    b ≠ 58 ∧ isLabelChar b = false ∧ Labelled ok (.sym b :: bytes) := by
  simp only [endsLabel, Bool.and_eq_true, Bool.not_eq_true'] at h
  have hrest : Labelled ok (syms s) := labelled_syms h.1
  unfold syms at hrest ⊢
  cases hb : utf8 s with
  | nil => simp [hb] at h
  | cons b bytes =>
    rw [hb] at hrest
    simp only [hb, List.head?_cons, Option.any_some, Bool.not_eq_true'] at h
    refine ⟨b, bytes.map .sym, rfl, ?_, h.2, hrest⟩
    rintro rfl
    simp at h

theorem labelled_label (hw : ok (utf8 w)) (hs : endsLabel s = true) :
    Labelled ok (colon :: word w :: syms s) := by
  obtain ⟨b, bytes, heq, -, hb, hrest⟩ := endsLabel_spec ok hs
  rw [heq]
  exact .label hw hb hrest

theorem labelled_bare (hs : endsLabel s = true) : Labelled ok (colon :: syms s) := by
  obtain ⟨b, bytes, heq, hcolon, hb, hrest⟩ := endsLabel_spec ok hs
  rw [heq]
  exact .bare hcolon hb hrest

theorem labelled_join {sep : Lex} {l : List Lex} (hsep : Labelled ok sep)
    (h : ∀ c ∈ l, Labelled ok c) : Labelled ok (sep.intercalate l) :=
  intercalate_rec .nil (fun _ _ hts hus => (hts.append hsep).append hus) h

theorem labelled_literal (v : TypedValue) : Labelled ok (literalLexemes v) := by
  cases v with
  | bool b => exact labelled_word
  | int n =>
    cases n with
    | ofNat n => exact labelled_word
    | negSucc n => exact (labelled_syms (by decide)).append labelled_word
  | text s => exact labelled_of_not_mem (by simp [literalLexemes, colon])

theorem labelled_op (op : FilterOp) : Labelled ok (opLexemes op) := by
  cases op with
  | contains => exact labelled_word
  | startsWith =>
    exact (labelled_word.append (labelled_syms (by decide))).append labelled_word
  | _ => exact labelled_syms (by decide)

theorem labelled_field (bind field : String) : Labelled ok (fieldLexemes bind field) :=
  (labelled_word.append (labelled_syms (by decide))).append labelled_word

theorem labelled_filter (bind : String) (f : Filter) : Labelled ok (filterLexemes bind f) := by
  have hblank : Labelled ok (syms " ") := labelled_syms (by decide)
  exact ((((labelled_field _ _).append hblank).append (labelled_op _)).append hblank).append
    (labelled_literal _)

theorem labelled_pattern {p : NodePattern} (h : ok (utf8 p.label)) :
    Labelled ok (patternLexemes p) := by
  have hopen : Labelled ok (syms "(") := labelled_syms (by decide)
  have hlabel := labelled_label h (s := ")") (by decide)
  simpa [patternLexemes] using hopen.append (labelled_word (w := p.bind) |>.append hlabel)

theorem labelled_edge {step : TraverseStep} (h : ok (utf8 step.edge)) :
    Labelled ok (edgeLexemes step) := by
  unfold edgeLexemes
  split
  · have hopen : Labelled ok (syms "-[") := labelled_syms (by decide)
    simpa using hopen.append (labelled_label h (s := "]->") (by decide))
  · have hopen : Labelled ok (syms "<-[") := labelled_syms (by decide)
    simpa using hopen.append (labelled_label h (s := "]-") (by decide))

theorem labelled_exists {edge bind : String} {lit : Lex} (he : ok (utf8 edge))
    (hp : ok (utf8 "Project")) (hlit : Labelled ok lit) :
    Labelled ok (existsLexemes edge bind lit) := by
  have hhead : Labelled ok ([word "EXISTS"] ++ syms " \x7b " ++ [word "MATCH"] ++ syms " (" ++
      [word bind] ++ syms ")-[") :=
    ((((labelled_word.append (labelled_syms (by decide))).append labelled_word).append
      (labelled_syms (by decide))).append labelled_word).append
      (labelled_syms (by decide))
  have hedge := labelled_label he (s := "]->(") (by decide)
  have hproject := labelled_label hp (s := " \x7b") (by decide)
  have hid : Labelled ok ([word "id"] ++ colon :: syms " ") :=
    labelled_word.append (labelled_bare (by decide))
  have htail := hlit.append (labelled_syms (s := "\x7d) \x7d") (by decide))
  simpa [existsLexemes] using (((hhead.append hedge).append hproject).append hid).append htail

theorem labelled_anchor {anchor : ProjectAnchor} {p : NodePattern} {c : Lex}
    (hanchor : ∀ l ∈ projectAnchorLabels, ok (utf8 l)) (h : anchorLexemes anchor p = some c) :
    Labelled ok c := by
  have hlit : Labelled ok (literalLexemes (.text anchor.projectId)) := labelled_literal _
  unfold anchorLexemes at h
  split_ifs at h <;> obtain rfl := Option.some.inj h
  · exact labelled_exists (hanchor _ (by decide)) (hanchor _ (by decide)) hlit
  · exact labelled_exists (hanchor _ (by decide)) (hanchor _ (by decide)) hlit
  · exact ((labelled_field _ _).append (labelled_syms (by decide))).append hlit

end Labels

namespace GraphQuery

variable {q : GraphQuery} {anchor : Option ProjectAnchor}

/-- The labels the caller of the self-check expects. -/
def expectedLabels (q : GraphQuery) (anchor : Option ProjectAnchor) : List String :=
  q.referencedLabels ++ if anchor.isSome then projectAnchorLabels else []

theorem labelled_conditions {ok : Bytes → Prop}
    (hanchor : anchor.isSome = true → ∀ l ∈ projectAnchorLabels, ok (utf8 l)) :
    ∀ c ∈ q.conditionLexemes anchor, Labelled ok c := by
  intro c hc
  rcases List.mem_append.1 hc with hc | hc
  · obtain ⟨p, -, hc⟩ := List.mem_flatMap.1 hc
    obtain ⟨f, -, rfl⟩ := List.mem_map.1 hc
    exact labelled_filter p.bind f
  · cases anchor with
    | none => cases hc
    | some anchor =>
      obtain ⟨p, -, hc⟩ := List.mem_filterMap.1 hc
      exact labelled_anchor (hanchor rfl) hc

theorem labelled_match {ok : Bytes → Prop} (h : ∀ l ∈ q.referencedLabels, ok (utf8 l)) :
    Labelled ok q.matchLexemes := by
  have hsteps : ∀ steps : List TraverseStep, (∀ step ∈ steps, step ∈ q.traverse) →
      Labelled ok (steps.flatMap fun step => edgeLexemes step ++ patternLexemes step.toNode) := by
    intro steps hmem
    induction steps with
    | nil => exact .nil
    | cons step steps ih =>
      have hstep := hmem step List.mem_cons_self
      have href : ∀ l ∈ [step.edge, step.toNode.label], ok (utf8 l) := fun l hl =>
        h l (List.mem_cons_of_mem _ (List.mem_flatMap.2 ⟨step, hstep, hl⟩))
      exact ((labelled_edge (href _ (by simp))).append (labelled_pattern (href _ (by simp)))).append
        (ih fun s hs => hmem s (List.mem_cons_of_mem _ hs))
  exact ((labelled_word.append (labelled_syms (by decide))).append
    (labelled_pattern (h _ List.mem_cons_self))).append (hsteps _ fun _ hs => hs)

theorem labelled_where {ok : Bytes → Prop} {conditions : List Lex}
    (h : ∀ c ∈ conditions, Labelled ok c) : Labelled ok (whereLexemes conditions) := by
  have hblank : Labelled ok (syms " ") := labelled_syms (by decide)
  unfold whereLexemes
  split
  · exact .nil
  · have hand := (hblank.append (labelled_word (w := "AND"))).append hblank
    exact ((labelled_word.append hblank).append (labelled_join hand h)).append
      (labelled_syms (by decide))

theorem labelled_return {ok : Bytes → Prop} : Labelled ok q.returnLexemes := by
  refine (labelled_word.append (labelled_syms (by decide))).append
    (labelled_join (labelled_syms (by decide)) ?_)
  simp only [List.forall_mem_map]
  exact fun f _ => labelled_field f.bind f.field

theorem labelled_order {ok : Bytes → Prop} (o : Option OrderSpec) :
    Labelled ok (orderLexemes o) := by
  have hblank : Labelled ok (syms " ") := labelled_syms (by decide)
  cases o with
  | none => exact .nil
  | some o =>
    have hline : Labelled ok (syms "\n") := labelled_syms (by decide)
    have hhead := (((hline.append (labelled_word (w := "ORDER"))).append hblank).append
      (labelled_word (w := "BY"))).append hblank
    exact ((hhead.append (labelled_field o.bind o.field)).append hblank).append labelled_word

theorem labelled_limit {ok : Bytes → Prop} : Labelled ok q.limitLexemes :=
  labelled_of_not_mem (by simp [limitLexemes, word, colon])

/-- **Every colon of a built query stands before an expected label**, or before the
blank of the anchor's property. -/
theorem labelled_lexemes :
    Labelled (fun w => ∃ l ∈ q.expectedLabels anchor, utf8 l = w) (q.lexemes anchor) := by
  have hlabels : ∀ l ∈ q.referencedLabels, ∃ l' ∈ q.expectedLabels anchor, utf8 l' = utf8 l :=
    fun l hl => ⟨l, List.mem_append_left _ hl, rfl⟩
  have hanchor : anchor.isSome = true → ∀ l ∈ projectAnchorLabels,
      ∃ l' ∈ q.expectedLabels anchor, utf8 l' = utf8 l := by
    intro hsome l hl
    exact ⟨l, List.mem_append_right _ (by rwa [if_pos hsome]), rfl⟩
  exact (((((labelled_match hlabels).append (labelled_syms (by decide))).append
    (labelled_where (labelled_conditions hanchor))).append labelled_return).append
    (labelled_order _)).append labelled_limit

/-! ## The self-check of a built query -/

theorem word_bind_mem_lexemes {p : NodePattern} (hp : p ∈ q.patterns) :
    word p.bind ∈ q.lexemes anchor := by
  have hpat : word p.bind ∈ patternLexemes p := by simp [patternLexemes]
  have hmatch : word p.bind ∈ q.matchLexemes := by
    rcases List.mem_cons.1 hp with rfl | hp
    · simp [matchLexemes, hpat]
    · obtain ⟨step, hstep, rfl⟩ := List.mem_map.1 hp
      refine List.mem_append_right _ (List.mem_flatMap.2 ⟨step, hstep, ?_⟩)
      exact List.mem_append_right _ hpat
  simp [lexemes, hmatch]

/-- The self-check of a well-formed query's text, in terms of its words. -/
theorem WellFormed.verify_iff_words (h : q.WellFormed) {c : String}
    (hc : q.toCypher anchor = .ok c) :
    verifyBuiltCypher c (q.expectedLabels anchor) = .ok () ↔
      ∀ w, Lexeme.word w ∈ q.lexemes anchor → ∀ kw ∈ forbidden,
        utf8 kw ≠ w.map toAsciiUppercase := by
  obtain ⟨x, d, hxd, hdigit⟩ := utf8_repr (clampLimit q.limit)
  have hlimit : q.limitLexemes = [.sym 10, .word (utf8 "LIMIT"), .sym 32, .word (x :: d)] := by
    rw [limitLexemes, word, word, hxd]
  have hlex : q.lexemes anchor = _ ++ [.sym 10, .word (utf8 "LIMIT"), .sym 32, .word (x :: d)] :=
    congrArg (_ ++ ·) hlimit
  exact verifyBuiltCypher_iff hlex (hdigit x List.mem_cons_self) (utf8_toCypher hc)
    (fun t ht => (h.emitted t ht).ok) (q.apart_lexemes anchor) labelled_lexemes

/-- **The builder passes its own check unless a binding spells a keyword**: for every
query that `validate` accepts and every anchor, the self-check of the text that
`to_cypher` builds succeeds exactly when no binding is a forbidden keyword in
some mix of cases. -/
theorem verify_built_iff {schema : GraphSchema} {scope : QueryScope} {c : String}
    (hv : q.validate schema scope = .ok ()) (hc : q.toCypher anchor = .ok c) :
    verifyBuiltCypher c (q.expectedLabels anchor) = .ok () ↔
      ∀ b ∈ q.binds, spellsForbidden b = false := by
  have hwf := wellFormed_of_validate hv
  rw [hwf.verify_iff_words hc]
  constructor
  · intro h b hb
    obtain ⟨p, hp, rfl⟩ := List.mem_map.1 hb
    exact spellsForbidden_eq_false.2 (h _ (word_bind_mem_lexemes hp))
  · intro h w hw
    rcases (hwf.emitted _ hw).2 with ⟨b, hb, rfl⟩ | hsafe
    · exact spellsForbidden_eq_false.1 (h b hb)
    · exact hsafe

/-- Paths of files, with the file bound to `bind`. -/
def ofBind (bind : String) : GraphQuery where
  fromNode := ⟨bind, "File", [⟨"path", .contains, .text "SET it's"⟩]⟩
  traverse := []
  select := [⟨bind, "path"⟩]
  orderBy := none
  limit := 10

theorem verify_built_iff_file :
    ∃ c, (ofBind "f").validate .knowledgeGraph ⟨["File"], none⟩ = .ok () ∧
      (ofBind "f").toCypher none = .ok c ∧
      verifyBuiltCypher c ((ofBind "f").expectedLabels none) = .ok () := by
  have hv : (ofBind "f").validate .knowledgeGraph ⟨["File"], none⟩ = .ok () := by decide +kernel
  have hc : (ofBind "f").toCypher none =
      .ok "MATCH (f:File)\nWHERE f.path CONTAINS 'SET it\\'s'\nRETURN f.path\nLIMIT 10" := by
    decide +kernel
  exact ⟨_, hv, hc, (verify_built_iff hv hc).2 (by decide)⟩

/-- A file bound to `set` is accepted and built, and the text is refused. -/
theorem verify_rejects_set_binding :
    (ofBind "set").validate .knowledgeGraph ⟨["File"], none⟩ = .ok () ∧
      ∃ c, (ofBind "set").toCypher none = .ok c ∧
        verifyBuiltCypher c ((ofBind "set").expectedLabels none) =
          .error (.forbiddenKeyword "SET") := by
  refine ⟨by decide +kernel,
    "MATCH (set:File)\nWHERE set.path CONTAINS 'SET it\\'s'\nRETURN set.path\nLIMIT 10", ?_⟩
  decide +kernel

end GraphQuery

end Arlen.Graph
