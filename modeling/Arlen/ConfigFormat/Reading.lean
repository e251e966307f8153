import Arlen.ConfigFormat.Edit

/-!
# What lines are read and written as

The lines of a text, what they can be read as, and what a value is written as. A plain line is
read as pieces of itself, so nothing read has a line break. A Firefox key is unescaped as it is
read and may hold one; but a line break in a new statement cuts it into pieces, and no piece is
long enough to be the statement of the whole key.
-/

namespace Arlen.ConfigFormat

open Arlen.Lib

variable {F : Type} {f64 : Float64 F} {dialect : LineDialect} {currentSection : Option Str}
  {raw text key token : Str} {kv : KeyVal F}

/-! ## The lines of a text -/

theorem raw_of_parsePlainKeyLine (h : parsePlainKeyLine f64 raw dialect currentSection = some kv) :
    kv.raw = raw := by
  obtain ⟨sepPos, -, hkv⟩ := Option.bind_eq_some_iff.1 h
  dsimp only at hkv
  split at hkv
  · cases hkv
  · cases hkv
    rfl

theorem raw_of_parseStatementLine {func : Str} (h : parseStatementLine f64 raw func = some kv) :
    kv.raw = raw := by
  obtain ⟨⟨keyStart, quoted⟩, -, h⟩ := Option.bind_eq_some_iff.1 h
  obtain ⟨keyEndRel, -, h⟩ := Option.bind_eq_some_iff.1 h
  obtain ⟨commaRel, -, h⟩ := Option.bind_eq_some_iff.1 h
  obtain ⟨closeRel, -, rfl⟩ := Option.map_eq_some_iff.1 h
  rfl

theorem raw_of_parseKeyLine (h : parseKeyLine f64 raw dialect currentSection = some kv) :
    kv.raw = raw := by
  unfold parseKeyLine at h
  split at h
  · exact raw_of_parseStatementLine h
  · exact raw_of_parsePlainKeyLine h

theorem raw_parseLine : (parseLine f64 dialect currentSection raw).raw = raw := by
  unfold parseLine
  dsimp only
  split
  · rfl
  · split
    · rfl
    · split
      · next hkv => exact raw_of_parseKeyLine hkv
      · rfl

theorem map_raw_parseLines (ls : List Str) :
    (parseLines f64 dialect currentSection ls).map Line.raw = ls := by
  induction ls generalizing currentSection with
  | nil => rfl
  | cons raw ls ih => rw [parseLines, List.map_cons, ih, raw_parseLine]

theorem stripSuffix_of_not_mem {c : Char} {s : Str} (h : c ∉ s) : Text.stripSuffix [c] s = none := by
  unfold Text.stripSuffix
  rw [if_neg]
  rintro hs
  exact h ((List.isSuffixOf_iff_suffix.1 hs).subset List.mem_cons_self)

theorem stripSuffix_concat (c : Char) (s : Str) : Text.stripSuffix [c] (s ++ [c]) = some s := by
  unfold Text.stripSuffix
  rw [if_pos (List.isSuffixOf_iff_suffix.2 (List.suffix_append s [c]))]
  simp

/-- The last newline, and what stands before it. -/
theorem eq_concat_or_stripSuffix (text : Str) (c : Char) :
    (∃ s, text = s ++ [c] ∧ Text.stripSuffix [c] text = some s ∧ (text.getLast? == some c) = true) ∨
      Text.stripSuffix [c] text = none ∧ (text.getLast? == some c) = false := by
  rcases List.eq_nil_or_concat text with rfl | ⟨s, d, rfl⟩
  · exact .inr ⟨by simp [Text.stripSuffix], rfl⟩
  · by_cases hd : d = c
    · subst hd
      exact .inl ⟨s, by simp, by simpa using stripSuffix_concat d s, by simp⟩
    · refine .inr ⟨?_, by simpa using hd⟩
      unfold Text.stripSuffix
      rw [if_neg]
      intro hs
      obtain ⟨r, hr⟩ := List.isSuffixOf_iff_suffix.1 hs
      rw [List.concat_eq_append] at hr
      exact hd (List.singleton_inj.1 (List.append_inj' hr rfl).2).symm

theorem mem_of_mem_stripSuffix {c x : Char} {s : Str} (h : x ∈ (Text.stripSuffix [c] s).getD s) :
    x ∈ s := by
  rcases eq_concat_or_stripSuffix s c with ⟨r, heq, hr, -⟩ | ⟨hr, -⟩
  · rw [hr] at h
    rw [heq]
    exact List.mem_append_left _ h
  · rw [hr] at h
    exact h

theorem mem_of_mem_splitLines {l : Str} {x : Char} (h : l ∈ splitLines text) (hx : x ∈ l) :
    x ∈ text := by
  unfold splitLines at h
  split at h
  · cases h
  · obtain ⟨p, hp, rfl⟩ := List.mem_map.1 h
    exact mem_of_mem_stripSuffix (Text.mem_of_mem_splitOn hp (mem_of_mem_stripSuffix hx))

theorem not_mem_of_mem_splitLines {l : Str} (h : l ∈ splitLines text) : '\n' ∉ l := by
  unfold splitLines at h
  split at h
  · cases h
  · obtain ⟨p, hp, rfl⟩ := List.mem_map.1 h
    exact fun hmem => Text.not_mem_of_mem_splitOn hp (mem_of_mem_stripSuffix hmem)

theorem splitLines_of_no_cr (hcr : '\r' ∉ text) (hne : text ≠ []) :
    splitLines text = ((Text.stripSuffix ['\n'] text).getD text).splitOn '\n' := by
  unfold splitLines
  rw [if_neg (by simpa using hne)]
  refine (List.map_congr_left fun l hl => ?_).trans (List.map_id _)
  rw [stripSuffix_of_not_mem fun hmem => hcr (mem_of_mem_stripSuffix (Text.mem_of_mem_splitOn hl hmem))]
  rfl

/-- **A text is its lines**: written out as they were cut, they are the text. -/
theorem emitText_splitLines (hcr : '\r' ∉ text) :
    LineModel.emitText (splitLines text) (text.getLast? == some '\n') = text := by
  by_cases hne : text = []
  · subst hne
    rfl
  · have hlines : splitLines text ≠ [] := by
      rw [splitLines_of_no_cr hcr hne]
      exact List.splitOn_ne_nil _ _
    unfold LineModel.emitText
    rw [splitLines_of_no_cr hcr hne, List.intercalate_splitOn]
    rcases eq_concat_or_stripSuffix text '\n' with ⟨s, heq, hs, hlast⟩ | ⟨hs, hlast⟩
    · rw [hs, hlast, Option.getD_some]
      simp [List.splitOn_ne_nil, heq]
    · rw [hs, hlast]
      simp

/-! ## What a plain line is read as -/

section Plain

variable {s t : Str} {c : Char}

theorem mem_of_mem_trimStart (h : c ∈ Text.trimStart s) : c ∈ s :=
  (List.dropWhile_sublist _).subset h

theorem mem_of_mem_trimEnd (h : c ∈ Text.trimEnd s) : c ∈ s := by
  unfold Text.trimEnd List.rdropWhile at h
  rw [List.mem_reverse] at h
  exact List.mem_reverse.1 ((List.dropWhile_sublist _).subset h)

theorem mem_of_mem_trim (h : c ∈ Text.trim s) : c ∈ s :=
  mem_of_mem_trimStart (mem_of_mem_trimEnd h)

theorem mem_of_mem_stripPrefix_getD {p : Str} (h : c ∈ (Text.stripPrefix p s).getD s) : c ∈ s := by
  cases hp : Text.stripPrefix p s with
  | none => rwa [hp] at h
  | some r =>
    rw [hp] at h
    rw [Text.stripPrefix_eq_some.1 hp]
    exact List.mem_append_right _ h

theorem mem_of_mem_stripSurroundingQuotes (h : c ∈ stripSurroundingQuotes s) : c ∈ s := by
  unfold stripSurroundingQuotes at h
  split at h
  · exact h
  · split at h
    · exact List.mem_cons_of_mem _ ((List.dropLast_sublist _).subset h)
    · exact h

theorem mem_of_mem_unescapeShell (h : c ∈ unescapeShell s) : c ∈ s := by
  induction s using unescapeShell.induct with
  | case1 s ih =>
    rw [unescapeShell] at h
    rcases List.mem_cons.1 h with rfl | h
    · simp
    · exact List.mem_cons_of_mem _ (List.mem_cons_of_mem _ (ih h))
  | case2 s ih =>
    rw [unescapeShell] at h
    rcases List.mem_cons.1 h with rfl | h
    · simp
    · exact List.mem_cons_of_mem _ (List.mem_cons_of_mem _ (ih h))
  | case3 d s hq hb ih =>
    rw [unescapeShell.eq_3 _ _ hq hb] at h
    rcases List.mem_cons.1 h with rfl | h
    · simp
    · exact List.mem_cons_of_mem _ (ih h)
  | case4 => exact h

/-- A string that a scalar is read as is made of the scalar's characters. -/
theorem mem_of_parseScalar (h : parseScalar f64 s = .string t) (hc : c ∈ t) : c ∈ s := by
  have hsub : ∀ {t}, t = unescapeShell (stripSurroundingQuotes s) → c ∈ t → c ∈ s := by
    rintro t rfl hc
    exact mem_of_mem_stripSurroundingQuotes (mem_of_mem_unescapeShell hc)
  unfold parseScalar at h
  dsimp only at h
  split at h
  · exact hsub (ConfigValue.string.inj h).symm hc
  · split at h
    · cases h
    · split at h
      · cases h
      · cases hf : parseFloat f64 (stripSurroundingQuotes s) with
        | none =>
          rw [hf] at h
          exact hsub (ConfigValue.string.inj h).symm hc
        | some f =>
          rw [hf] at h
          cases h

/-- The key and the value of a plain line are made of the line and the section. -/
theorem mem_of_parsePlainKeyLine (h : parsePlainKeyLine f64 raw dialect currentSection = some kv) :
    (c ∈ kv.key → c = '.' ∨ c ∈ raw ∨ ∃ name, currentSection = some name ∧ c ∈ name) ∧
      (∀ t, kv.value = .string t → c ∈ t → c ∈ raw) := by
  obtain ⟨sepPos, -, hkv⟩ := Option.bind_eq_some_iff.1 h
  dsimp only at hkv
  split at hkv
  · cases hkv
  · cases hkv
    have hkey : c ∈ Text.trim ((Text.stripPrefix "export ".toList
        (Text.trim (raw.take sepPos))).getD (Text.trim (raw.take sepPos))) → c ∈ raw := by
      intro hc
      have hc := mem_of_mem_stripPrefix_getD (mem_of_mem_trim hc)
      exact List.mem_of_mem_take (mem_of_mem_trim hc)
    constructor
    · intro hc
      dsimp only at hc
      split at hc
      · next name =>
        rcases List.mem_append.1 hc with hc | hc
        · exact .inr (.inr ⟨name, rfl, hc⟩)
        · rcases List.mem_cons.1 hc with rfl | hc
          · exact .inl rfl
          · exact .inr (.inl (hkey hc))
      · exact .inr (.inl (hkey hc))
    · intro t ht hc
      have hc := mem_of_mem_trimEnd (mem_of_parseScalar ht hc)
      exact List.mem_of_mem_drop (List.mem_of_mem_take hc)

theorem mem_of_parseSectionHeader {name : Str} (h : parseSectionHeader s = some name)
    (hc : c ∈ name) : c ∈ s := by
  obtain ⟨rest, hrest, h⟩ := Option.bind_eq_some_iff.1 h
  obtain ⟨stop, -, rfl⟩ := Option.map_eq_some_iff.1 h
  rw [Text.stripPrefix_eq_some.1 hrest]
  exact List.mem_append_right _ (List.mem_of_mem_take (mem_of_mem_trim hc))

/-- An entry of one line: neither the key nor the text has a line break. -/
def OneLined (e : Str × ConfigValue F) : Prop :=
  '\n' ∉ e.1 ∧ ∀ t, e.2 = .string t → '\n' ∉ t

variable (f64) in
theorem oneLined_parseLine (hstatement : dialect.statement = none) (hraw : '\n' ∉ raw)
    (hsection : ∀ name, currentSection = some name → '\n' ∉ name) :
    (∀ kv, parseLine f64 dialect currentSection raw = .keyVal kv → OneLined (kv.key, kv.value)) ∧
      ∀ r name, parseLine f64 dialect currentSection raw = .header r name → '\n' ∉ name := by
  unfold parseLine
  dsimp only
  split
  · exact ⟨nofun, nofun⟩
  · split
    · next name hname =>
      refine ⟨nofun, fun r n h hmem => ?_⟩
      cases h
      split at hname
      · exact hraw (mem_of_mem_trimStart (mem_of_parseSectionHeader hname hmem))
      · cases hname
    · split
      · next kv' hkv =>
        refine ⟨fun kv h => ?_, nofun⟩
        cases h
        rw [parseKeyLine, hstatement] at hkv
        constructor
        · intro hmem
          rcases (mem_of_parsePlainKeyLine hkv).1 hmem with h | h | ⟨name, hname, h⟩
          · cases h
          · exact hraw h
          · exact hsection name hname h
        · exact fun t ht hmem => hraw ((mem_of_parsePlainKeyLine hkv).2 t ht hmem)
      · exact ⟨nofun, nofun⟩

/-- **A plain document reads as single lines.** -/
theorem oneLined_parseLines (hstatement : dialect.statement = none) {ls : List Str}
    (hls : ∀ l ∈ ls, '\n' ∉ l) (hsection : ∀ name, currentSection = some name → '\n' ∉ name) :
    ∀ kv, Line.keyVal kv ∈ parseLines f64 dialect currentSection ls → OneLined (kv.key, kv.value) := by
  induction ls generalizing currentSection with
  | nil => exact fun _ h => by cases h
  | cons raw ls ih =>
    obtain ⟨hkey, hheader⟩ :=
      oneLined_parseLine f64 hstatement (hls raw List.mem_cons_self) hsection
    intro kv hmem
    rw [parseLines] at hmem
    rcases List.mem_cons.1 hmem with heq | hmem
    · exact hkey kv heq.symm
    · refine ih (fun l hl => hls l (List.mem_cons_of_mem _ hl)) ?_ kv hmem
      intro name hname
      split at hname
      · next r n heq =>
        cases hname
        exact hheader r name heq
      · exact hsection name hname

end Plain

/-! ## What a value is written as -/

section Tokens

variable {s : Str}

/-- A printed number is digits and a sign. -/
theorem not_mem_toString_int {c : Char} (hdigit : c.isDigit = false) (hsign : c ≠ '-') (i : Int) :
    c ∉ (toString i).toList := by
  have hdigits : ∀ n, c ∉ Nat.toDigits 10 n := by
    intro n hm
    rw [Nat.isDigit_of_mem_toDigits (by decide) (Nat.le_refl 10) hm] at hdigit
    cases hdigit
  cases i with
  | ofNat n =>
    have : (toString (Int.ofNat n)).toList = Nat.toDigits 10 n := by
      simp [toString, Int.repr, Nat.repr]
    rw [this]
    exact hdigits n
  | negSucc n =>
    have : (toString (Int.negSucc n)).toList = '-' :: Nat.toDigits 10 (n + 1) := by
      simp [toString, Int.repr, Nat.repr]
    rw [this]
    intro hm
    rcases List.mem_cons.1 hm with h | h
    · exact hsign h
    · exact hdigits _ h

theorem newline_not_mem_shellQuote {comment : Char} (h : '\n' ∉ s) :
    '\n' ∉ shellQuote s comment := by
  unfold shellQuote
  dsimp only
  split
  · simp only [List.mem_cons, List.mem_append, List.mem_flatMap, List.not_mem_nil, or_false]
    rintro ((hq | ⟨c, hc, hmem⟩) | hq)
    · cases hq
    · split at hmem
      · simp at hmem
      · split at hmem
        · simp at hmem
        · rw [List.mem_singleton.1 hmem] at h
          exact h hc
    · cases hq
  · exact h

theorem upperHexDigit_ne_newline (n : Nat) : upperHexDigit (n % 16) ≠ '\n' := by
  have h : n % 16 < 16 := Nat.mod_lt _ (by decide)
  generalize n % 16 = k at h
  revert k
  decide

theorem newline_not_mem_jsEscape (c : Char) : '\n' ∉ jsEscape c := by
  unfold jsEscape
  split
  · simp
  · split
    · simp
    · split
      · simp
      · next hc =>
        split
        · simp
        · split
          · simp
          · split
            · simp [(upperHexDigit_ne_newline _).symm]
            · simpa using Ne.symm hc

theorem newline_not_mem_jsQuote (s : Str) : '\n' ∉ jsQuote s := by
  unfold jsQuote
  simp only [List.mem_cons, List.mem_append, List.mem_flatMap, List.not_mem_nil, or_false]
  rintro ((hq | ⟨c, -, hmem⟩) | hq)
  · cases hq
  · exact newline_not_mem_jsEscape c hmem
  · cases hq

/-- **A token is one line** where the value's text is, or where it is a JavaScript literal. -/
theorem newline_not_mem_token {m : LineModel F} {value : ConfigValue F}
    (hfloat : ∀ f, value ≠ .float f)
    (hvalue : m.dialect.quote = .jsLiteral ∨ ∀ s, value = .string s → '\n' ∉ s)
    (h : m.serializeValue f64 value = .ok token) : '\n' ∉ token := by
  cases value with
  | opaqueValue => cases h
  | float f => exact absurd rfl (hfloat f)
  | bool b =>
    cases h
    cases b <;> decide
  | int i =>
    cases h
    exact not_mem_toString_int (by decide) (by decide) i
  | string s =>
    cases h
    cases hquote : m.dialect.quote with
    | jsLiteral => exact newline_not_mem_jsQuote s
    | bare => exact (hvalue.resolve_left (by simp [hquote])) s rfl
    | shell =>
      exact newline_not_mem_shellQuote ((hvalue.resolve_left (by simp [hquote])) s rfl)

end Tokens

/-! ## What a statement is read as -/

section Statement

variable {s func quoted : Str} {q : Char}

/-- An unescaped text is not longer. -/
theorem length_unescapeJs (s : Str) : (unescapeJs s).length ≤ s.length := by
  induction s using unescapeJs.induct with
  | case1 => simp [unescapeJs]
  | case2 c rest hc ih =>
    rw [unescapeJs.eq_def]
    simpa [hc] using ih
  | case3 c hc =>
    rw [unescapeJs.eq_def]
    simp [not_not.1 hc]
  | case9 c hc s ih =>
    have hlen : (s.take 4).length + (s.drop 4).length = s.length := by
      rw [← List.length_append, List.take_append_drop]
    rw [unescapeJs.eq_def]
    simp only [not_not.1 hc, ne_eq, not_true_eq_false, if_false]
    split <;> simp only [List.length_append, List.length_cons, List.length_nil] <;> omega
  | case10 c hc other s _ _ _ _ _ _ ih =>
    rw [unescapeJs.eq_def]
    simpa [not_not.1 hc] using ih
  | case4 c hc s ih | case5 c hc s ih | case6 c hc s ih | case7 c hc s ih | case8 c hc s ih =>
    rw [unescapeJs.eq_def]
    simp only [not_not.1 hc, ne_eq, not_true_eq_false, if_false, List.length_cons]
    omega

/-- A quote that no backslash stands before is not passed over. -/
theorem findUnescapedQuote_le (hq : q ≠ '\\') {c : Char} (hc : c ≠ '\\') {e : Bool} {x y : Str}
    {n : Nat} (h : findUnescapedQuote q e (x ++ c :: q :: y) = some n) : n ≤ x.length + 1 := by
  induction x generalizing e n with
  | nil =>
    cases e with
    | true =>
      simp [findUnescapedQuote, hq] at h
      simp [← h]
    | false =>
      simp only [List.nil_append, findUnescapedQuote, if_neg hc, if_neg hq, if_pos] at h
      split at h <;> simp at h <;> simp [← h]
  | cons d x ih =>
    rw [List.cons_append] at h
    cases e with
    | true =>
      obtain ⟨k, hk, rfl⟩ := Option.map_eq_some_iff.1 h
      have := ih hk
      simp only [List.length_cons]
      omega
    | false =>
      rw [findUnescapedQuote] at h
      split at h
      · obtain ⟨k, hk, rfl⟩ := Option.map_eq_some_iff.1 h
        have := ih hk
        simp only [List.length_cons]
        omega
      · split at h
        · cases h
          exact Nat.zero_le _
        · obtain ⟨k, hk, rfl⟩ := Option.map_eq_some_iff.1 h
          have := ih hk
          simp only [List.length_cons]
          omega

theorem eq_of_findUnescapedQuote {e : Bool} {n : Nat} (h : findUnescapedQuote q e s = some n) :
    ∃ u v, s = u ++ q :: v ∧ u.length = n := by
  induction s generalizing e n with
  | nil => cases e <;> cases h
  | cons c s ih =>
    have hstep : ∀ {e}, (findUnescapedQuote q e s).map (· + 1) = some n →
        ∃ u v, c :: s = u ++ q :: v ∧ u.length = n := by
      intro e he
      obtain ⟨k, hk, rfl⟩ := Option.map_eq_some_iff.1 he
      obtain ⟨u, v, rfl, rfl⟩ := ih hk
      exact ⟨c :: u, v, rfl, rfl⟩
    cases e with
    | true => exact hstep h
    | false =>
      rw [findUnescapedQuote] at h
      split at h
      · exact hstep h
      · split at h
        · next hc =>
          cases h
          exact ⟨[], s, by rw [hc]; rfl, rfl⟩
        · exact hstep h

theorem exists_trimStart (s : Str) : ∃ ws, s = ws ++ Text.trimStart s ∧ '"' ∉ ws := by
  refine ⟨s.takeWhile isWhitespace, (List.takeWhile_append_dropWhile).symm, fun hmem => ?_⟩
  exact absurd (List.mem_takeWhile_imp hmem) (by decide)

/-- Before the key's opening quote stand the function and a parenthesis, and no quote. -/
theorem exists_of_keyQuote (hfunc : '"' ∉ func) {keyStart : Nat}
    (h : keyQuote raw func = some (keyStart, quoted)) :
    ∃ pre, raw = pre ++ '"' :: quoted ∧ '"' ∉ pre ∧ func.length < pre.length := by
  obtain ⟨afterFn, hfn, h⟩ := Option.bind_eq_some_iff.1 h
  obtain ⟨afterParen, hparen, h⟩ := Option.bind_eq_some_iff.1 h
  obtain ⟨quoted', hquote, h⟩ := Option.map_eq_some_iff.1 h
  cases h
  obtain ⟨ws₁, h₁, hno₁⟩ := exists_trimStart raw
  obtain ⟨ws₂, h₂, hno₂⟩ := exists_trimStart afterFn
  obtain ⟨ws₃, h₃, hno₃⟩ := exists_trimStart afterParen
  rw [Text.stripPrefix_eq_some.1 hfn] at h₁
  rw [Text.stripPrefix_eq_some.1 hparen] at h₂
  rw [Text.stripPrefix_eq_some.1 hquote] at h₃
  refine ⟨ws₁ ++ func ++ ws₂ ++ ['('] ++ ws₃, ?_, ?_, ?_⟩
  · rw [h₁, h₂, h₃]
    simp
  · simp [hno₁, hno₂, hno₃, hfunc]
  · simp
    omega

/-- A statement's key is not longer than what its quotes hold. -/
theorem exists_of_parseStatementLine (hfunc : '"' ∉ func)
    (h : parseStatementLine f64 raw func = some kv) :
    ∃ pre quoted n, raw = pre ++ '"' :: quoted ∧ '"' ∉ pre ∧ func.length < pre.length ∧
      findUnescapedQuote '"' false quoted = some n ∧ kv.key.length ≤ n := by
  obtain ⟨⟨keyStart, quoted⟩, hquote, h⟩ := Option.bind_eq_some_iff.1 h
  obtain ⟨n, hn, h⟩ := Option.bind_eq_some_iff.1 h
  obtain ⟨commaRel, -, h⟩ := Option.bind_eq_some_iff.1 h
  obtain ⟨closeRel, -, rfl⟩ := Option.map_eq_some_iff.1 h
  obtain ⟨pre, hraw, hno, hlen⟩ := exists_of_keyQuote hfunc hquote
  refine ⟨pre, quoted, n, hraw, hno, hlen, hn, ?_⟩
  exact Nat.le_trans (length_unescapeJs _) (List.length_take_le _ _)

/-- The key leaves room for the function, the parenthesis and two quotes. -/
theorem length_key_of_parseStatementLine (hfunc : '"' ∉ func)
    (h : parseStatementLine f64 raw func = some kv) :
    kv.key.length + func.length + 3 ≤ raw.length := by
  obtain ⟨pre, quoted, n, rfl, -, hlen, hn, hkey⟩ := exists_of_parseStatementLine hfunc h
  obtain ⟨u, v, rfl, rfl⟩ := eq_of_findUnescapedQuote hn
  simp
  omega

/-- A piece of what is cut at line breaks and ends in `b`: it lies in the text before `b`, or it
takes `b` with it. -/
theorem piece_cases {c : Char} {b p : Str} (hb : c ∉ b) (h : p ∈ (s ++ b).splitOn c) :
    p.length ≤ s.length ∨ ∃ front, p = front ++ b ∧ front.length ≤ s.length := by
  induction hn : s.length using Nat.strongRecOn generalizing s with
  | _ n ih =>
  subst hn
  by_cases hc : c ∈ s
  · obtain ⟨s₀, s₁, rfl, hno⟩ := List.eq_append_cons_of_mem hc
    rw [List.append_assoc, List.cons_append, List.splitOn_append_cons_self_of_not_mem hno] at h
    rcases List.mem_cons.1 h with rfl | h
    · exact .inl (by simp)
    · rcases ih s₁.length (by simp; omega) h rfl with hle | ⟨front, rfl, hle⟩
      · exact .inl (by simp; omega)
      · exact .inr ⟨front, rfl, by simp; omega⟩
  · rw [List.splitOn_eq_singleton (by simp [hc, hb])] at h
    exact .inr ⟨s, List.mem_singleton.1 h, Nat.le_refl _⟩

/-- The closing quote stands no later than the token's own. -/
theorem quote_index_le (hquoted : (∃ t, token = '"' :: t) ∨ '"' ∉ token) {z : Str} {n : Nat}
    (h : findUnescapedQuote '"' false (z ++ ' ' :: (token ++ ");".toList)) = some n) :
    n ≤ z.length + 1 := by
  rcases hquoted with ⟨t, rfl⟩ | hno
  · exact findUnescapedQuote_le (by decide) (by decide) h
  · obtain ⟨u, v, huv, rfl⟩ := eq_of_findUnescapedQuote h
    by_contra hlt
    have hget : (z ++ ' ' :: (token ++ ");".toList))[u.length]? = some '"' := by
      rw [huv]
      simp
    rw [List.getElem?_append_right (by omega)] at hget
    have hmem := List.mem_of_getElem? hget
    simp [hno] at hmem

/-- **No piece of a cut statement carries the whole key.** -/
theorem length_key_of_piece (hfunc : '"' ∉ func) (hfuncLine : '\n' ∉ func) (htoken : '\n' ∉ token)
    (hquoted : (∃ t, token = '"' :: t) ∨ '"' ∉ token) (hlen : 3 ≤ func.length) (hkey : '\n' ∈ key)
    {p : Str}
    (hp : p ∈ (func ++ "(\"".toList ++ key ++ "\", ".toList ++ token ++ ");".toList).splitOn '\n')
    (h : parseStatementLine f64 ((Text.stripSuffix ['\r'] p).getD p) func = some kv) :
    kv.key.length < key.length := by
  obtain ⟨k₀, k₁, rfl, hno⟩ := List.eq_append_cons_of_mem hkey
  have hcut : func ++ "(\"".toList ++ (k₀ ++ '\n' :: k₁) ++ "\", ".toList ++ token ++ ");".toList =
      (func ++ "(\"".toList ++ k₀) ++ '\n' :: (k₁ ++ ("\", ".toList ++ token ++ ");".toList)) := by
    simp
  have hfront : '\n' ∉ func ++ "(\"".toList ++ k₀ := by simp [hfuncLine, hno]
  have hback : '\n' ∉ "\", ".toList ++ token ++ ");".toList := by simp [htoken]
  have hstrip : ((Text.stripSuffix ['\r'] p).getD p).length ≤ p.length := by
    unfold Text.stripSuffix
    split <;> simp
  have hroom := length_key_of_parseStatementLine hfunc h
  rw [hcut, List.splitOn_append_cons_self_of_not_mem hfront] at hp
  rcases List.mem_cons.1 hp with rfl | hp
  · -- The first piece ends inside the key.
    simp at hstrip hroom ⊢
    omega
  · rcases piece_cases hback hp with hle | ⟨front, rfl, hle⟩
    · simp at hroom ⊢
      omega
    · -- The last piece takes the token with it, but the key ends before the token.
      have hend : Text.stripSuffix ['\r'] (front ++ ("\", ".toList ++ token ++ ");".toList)) = none := by
        have hlast : front ++ ("\", ".toList ++ token ++ ");".toList) =
            (front ++ ("\", ".toList ++ token ++ [')'])) ++ [';'] := by simp
        unfold Text.stripSuffix
        rw [if_neg]
        intro hs
        obtain ⟨r, hr⟩ := List.isSuffixOf_iff_suffix.1 hs
        rw [hlast] at hr
        exact absurd (List.singleton_inj.1 (List.append_inj' hr rfl).2) (by decide)
      rw [hend, Option.getD_none] at h
      obtain ⟨pre, quoted, n, hraw, hpre, hprelen, hn, hkeyle⟩ :=
        exists_of_parseStatementLine hfunc h
      have hsplit := Text.splitOnce_eq_some.2 ⟨hraw, hpre⟩
      have hn_le : n ≤ front.length := by
        by_cases hq : '"' ∈ front
        · obtain ⟨f₀, f₁, rfl, hno₀⟩ := List.eq_append_cons_of_mem hq
          have hsplit' : Text.splitOnce '"' (f₀ ++ '"' :: f₁ ++ ("\", ".toList ++ token ++ ");".toList)) =
              some (f₀, f₁ ++ ['"', ','] ++ ' ' :: (token ++ ");".toList)) :=
            Text.splitOnce_eq_some.2 ⟨by simp, hno₀⟩
          rw [hsplit'] at hsplit
          cases hsplit
          have := quote_index_le hquoted hn
          simp at this ⊢
          omega
        · have hsplit' : Text.splitOnce '"' (front ++ ("\", ".toList ++ token ++ ");".toList)) =
              some (front, [','] ++ ' ' :: (token ++ ");".toList)) :=
            Text.splitOnce_eq_some.2 ⟨by simp, hq⟩
          rw [hsplit'] at hsplit
          cases hsplit
          have := quote_index_le hquoted hn
          simp at this
          omega
      simp
      omega

end Statement

end Arlen.ConfigFormat
