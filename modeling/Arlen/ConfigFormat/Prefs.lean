import Arlen.ConfigFormat.Dotenv

/-!
# Strings of a `prefs.js`

`js_quote` writes a string of any characters as one JavaScript literal: the first unescaped
quote of it is its last character, and undoing the escapes gives the string back. So a
preference set to a string is read back, the other preferences are read as before, and one
line of the file is another one or is new.
-/

namespace Arlen.ConfigFormat

open Arlen.Lib

variable {F : Type} {f64 : Float64 F} {s rest key text line : Str} {c : Char}

/-! ## The escapes -/

/-- What a character is written as: with a backslash, as four digits, or as it is. -/
theorem jsEscape_cases (c : Char) :
    (∃ x, jsEscape c = ['\\', x] ∧
        (x = '"' ∧ c = '"' ∨ x = '\\' ∧ c = '\\' ∨ x = 'n' ∧ c = '\n' ∨ x = 'r' ∧ c = '\r' ∨
          x = 't' ∧ c = '\t')) ∨
      (∃ n < 160, c = Char.ofNat n ∧
        jsEscape c = ['\\', 'u', upperHexDigit (n / 4096 % 16), upperHexDigit (n / 256 % 16),
          upperHexDigit (n / 16 % 16), upperHexDigit (n % 16)]) ∨
      jsEscape c = [c] ∧ c ≠ '"' ∧ c ≠ '\\' := by
  by_cases hq : c = '"'
  · exact .inl ⟨'"', by rw [hq]; rfl, .inl ⟨rfl, hq⟩⟩
  by_cases hb : c = '\\'
  · exact .inl ⟨'\\', by rw [hb]; rfl, .inr (.inl ⟨rfl, hb⟩)⟩
  by_cases hn : c = '\n'
  · exact .inl ⟨'n', by rw [hn]; rfl, .inr (.inr (.inl ⟨rfl, hn⟩))⟩
  by_cases hr : c = '\r'
  · exact .inl ⟨'r', by rw [hr]; rfl, .inr (.inr (.inr (.inl ⟨rfl, hr⟩)))⟩
  by_cases ht : c = '\t'
  · exact .inl ⟨'t', by rw [ht]; rfl, .inr (.inr (.inr (.inr ⟨rfl, ht⟩)))⟩
  unfold jsEscape
  rw [if_neg hq, if_neg hb, if_neg hn, if_neg hr, if_neg ht]
  by_cases hcontrol : isControl c = true
  · rw [if_pos hcontrol]
    have hlt : c.toNat < 160 := by
      unfold isControl at hcontrol
      simp only [Bool.or_eq_true, Bool.and_eq_true, decide_eq_true_eq] at hcontrol
      omega
    exact .inr (.inl ⟨c.toNat, hlt, (Char.ofNat_toNat c).symm, rfl⟩)
  · rw [if_neg hcontrol]
    exact .inr (.inr ⟨rfl, hq, hb⟩)

theorem upperHexDigit_solid (n : Nat) :
    upperHexDigit (n % 16) ≠ '"' ∧ upperHexDigit (n % 16) ≠ '\\' := by
  have h : n % 16 < 16 := Nat.mod_lt _ (by decide)
  generalize n % 16 = k at h
  revert k
  decide

theorem hexChar_upperHexDigits : ∀ n < 160, hexChar [upperHexDigit (n / 4096 % 16),
    upperHexDigit (n / 256 % 16), upperHexDigit (n / 16 % 16), upperHexDigit (n % 16)] =
      some (Char.ofNat n) := by
  decide +kernel

theorem unescapeJs_cons (hc : c ≠ '\\') (s : Str) : unescapeJs (c :: s) = c :: unescapeJs s := by
  rw [unescapeJs.eq_def]
  simp [hc]

theorem unescapeJs_of_not_mem (h : '\\' ∉ s) : unescapeJs s = s := by
  induction s with
  | nil => rw [unescapeJs.eq_def]
  | cons c s ih =>
    rw [unescapeJs_cons (fun hc => h (hc ▸ List.mem_cons_self)),
      ih fun hmem => h (List.mem_cons_of_mem _ hmem)]

/-- One escape undone. -/
theorem unescapeJs_jsEscape (c : Char) (t : Str) :
    unescapeJs (jsEscape c ++ t) = c :: unescapeJs t := by
  rcases jsEscape_cases c with ⟨x, hx, hc⟩ | ⟨n, hn, rfl, hx⟩ | ⟨hx, -, hb⟩
  · rw [hx, List.cons_append, List.singleton_append, unescapeJs.eq_def]
    rcases hc with ⟨rfl, rfl⟩ | ⟨rfl, rfl⟩ | ⟨rfl, rfl⟩ | ⟨rfl, rfl⟩ | ⟨rfl, rfl⟩ <;> rfl
  · rw [hx, unescapeJs.eq_def]
    simp only [List.cons_append, List.nil_append, ne_eq, not_true_eq_false, if_false,
      List.take_succ_cons, List.take_zero, List.drop_succ_cons, List.drop_zero,
      hexChar_upperHexDigits n hn]
  · rw [hx, List.singleton_append, unescapeJs_cons hb]

theorem unescapeJs_flatMap (s : Str) : unescapeJs (s.flatMap jsEscape) = s := by
  induction s with
  | nil => rw [List.flatMap_nil, unescapeJs.eq_def]
  | cons c s ih => rw [List.flatMap_cons, unescapeJs_jsEscape, ih]

/-- No quote of an escape is unescaped. -/
theorem findUnescapedQuote_jsEscape (c : Char) (t : Str) :
    findUnescapedQuote '"' false (jsEscape c ++ t) =
      (findUnescapedQuote '"' false t).map (· + (jsEscape c).length) := by
  rcases jsEscape_cases c with ⟨x, hx, -⟩ | ⟨n, -, -, hx⟩ | ⟨hx, hq, hb⟩
  · rw [hx]
    simp [findUnescapedQuote, Option.map_map, Function.comp_def]
  · obtain ⟨h₁, h₂⟩ := upperHexDigit_solid (n / 4096)
    obtain ⟨h₃, h₄⟩ := upperHexDigit_solid (n / 256)
    obtain ⟨h₅, h₆⟩ := upperHexDigit_solid (n / 16)
    obtain ⟨h₇, h₈⟩ := upperHexDigit_solid n
    rw [hx]
    simp [findUnescapedQuote, h₁, h₂, h₃, h₄, h₅, h₆, h₇, h₈, Option.map_map, Function.comp_def]
  · rw [hx]
    simp [findUnescapedQuote, hq, hb]

theorem findUnescapedQuote_flatMap (s rest : Str) :
    findUnescapedQuote '"' false (s.flatMap jsEscape ++ '"' :: rest) =
      some (s.flatMap jsEscape).length := by
  induction s with
  | nil => rfl
  | cons c s ih =>
    rw [List.flatMap_cons, List.append_assoc, findUnescapedQuote_jsEscape, ih, Option.map_some,
      List.length_append, Nat.add_comm]

theorem findUnescapedQuote_plain (hq : '"' ∉ key) (hb : '\\' ∉ key) (rest : Str) :
    findUnescapedQuote '"' false (key ++ '"' :: rest) = some key.length := by
  induction key with
  | nil => rfl
  | cons c key ih =>
    have hcq : c ≠ '"' := fun h => hq (h ▸ List.mem_cons_self)
    have hcb : c ≠ '\\' := fun h => hb (h ▸ List.mem_cons_self)
    rw [List.cons_append, findUnescapedQuote, if_neg hcb, if_neg hcq,
      ih (fun h => hq (List.mem_cons_of_mem _ h)) fun h => hb (List.mem_cons_of_mem _ h)]
    rfl

/-! ## The literal on its line -/

/-- **The literal ends where the string does**, whatever stands behind it. -/
theorem behind_jsQuote (s rest : Str) :
    behind LineFormat.firefoxPrefs.dialect (jsQuote s ++ rest) = some (jsQuote s) := by
  have hend : findStatementValueEnd (jsQuote s ++ rest) = some (jsQuote s).length := by
    unfold jsQuote findStatementValueEnd
    simp only [List.cons_append, List.append_assoc, List.nil_append, true_or, if_true,
      findUnescapedQuote_flatMap, Option.map_some, List.length_cons, List.length_append,
      List.length_nil, Option.some.injEq]
    omega
  show (findStatementValueEnd (jsQuote s ++ rest)).map _ = _
  rw [hend, Option.map_some, List.take_left]
  unfold jsQuote
  rw [Text.trimEnd_append (by simp) (by simp; decide)]

theorem parseJsScalar_jsQuote (s : Str) : parseJsScalar f64 (jsQuote s) = .string s := by
  have hstrip : stripJsString (jsQuote s) = some (s.flatMap jsEscape) := by
    simp [stripJsString, jsQuote]
  unfold parseJsScalar
  rw [hstrip]
  exact congrArg _ (unescapeJs_flatMap s)

theorem token_jsQuote (s : Str) : Token LineFormat.firefoxPrefs.dialect (jsQuote s) :=
  ⟨⟨'"', _, rfl, by decide⟩, fun h => by cases h⟩

/-! ## A new line -/

/-- The statement written for a new preference. -/
def prefLine (key s : Str) : Str :=
  "user_pref".toList ++ "(\"".toList ++ key ++ "\", ".toList ++ jsQuote s ++ ");".toList

theorem keyQuote_userPref (quoted : Str) :
    keyQuote ("user_pref(".toList ++ '"' :: quoted) "user_pref".toList = some (11, quoted) := by
  obtain ⟨front, hfront, -, -, hall⟩ :=
    keyQuote_eq_some ⟨'u', "ser_pref".toList, rfl, by decide⟩
      (show keyQuote "user_pref(\"".toList "user_pref".toList = some (11, []) by decide)
  have hcut : "user_pref(".toList ++ ['"'] = front ++ ['"'] := hfront
  obtain rfl := List.append_cancel_right hcut
  exact hall quoted

/-- The key of a new line is read, and the literal stands in the region behind it. -/
theorem statementHead_prefLine (hq : '"' ∉ key) (hb : '\\' ∉ key) (s : Str) :
    statementHead "user_pref".toList (prefLine key s) =
      some (key, ' ' :: (jsQuote s ++ ");".toList)) := by
  have hline : prefLine key s =
      "user_pref(".toList ++ '"' :: (key ++ '"' :: ',' :: ' ' :: (jsQuote s ++ ");".toList)) := by
    unfold prefLine
    simp
  have hdrop : (key ++ '"' :: ',' :: ' ' :: (jsQuote s ++ ");".toList)).drop (key.length + 1) =
      ',' :: ' ' :: (jsQuote s ++ ");".toList) := by
    rw [List.drop_length_add_append]
    rfl
  have hfind : find ',' (',' :: ' ' :: (jsQuote s ++ ");".toList)) = some 0 := by
    simp [find, List.findIdx?_cons]
  have hregion : (key ++ '"' :: ',' :: ' ' :: (jsQuote s ++ ");".toList)).drop
      (key.length + 1 + (0 + 1)) = ' ' :: (jsQuote s ++ ");".toList) := by
    rw [Nat.add_assoc, List.drop_length_add_append]
    rfl
  unfold statementHead
  rw [hline, keyQuote_userPref, Option.bind_some]
  dsimp only
  rw [findUnescapedQuote_plain hq hb, Option.bind_some, hdrop, hfind, Option.map_some,
    List.take_left, unescapeJs_of_not_mem hb, hregion]

variable (f64) in
theorem entry_prefLine (hq : '"' ∉ key) (hb : '\\' ∉ key) (s : Str) :
    (parseLine f64 LineFormat.firefoxPrefs.dialect none (prefLine key s)).entry =
      some (key, .string s) := by
  obtain ⟨r, hr⟩ : ∃ r, prefLine key s = 'u' :: r := ⟨_, rfl⟩
  have htext : KeyText LineFormat.firefoxPrefs.dialect (prefLine key s) := by
    refine ⟨?_, fun h => by cases h⟩
    rw [hr, Text.trimStart_cons (by decide)]
    simp [LineFormat.dialect, List.isPrefixOf]
  have hhead : head LineFormat.firefoxPrefs.dialect (prefLine key s) =
      some (key, ' ' :: (jsQuote s ++ ");".toList)) := statementHead_prefLine hq hb s
  have htrim : Text.trimStart (' ' :: (jsQuote s ++ ");".toList)) = jsQuote s ++ ");".toList := rfl
  rw [parseLine_of_keyText htext, parseKeyLine_eq LineFormat.firefoxPrefs.proper, hhead,
    Option.bind_some]
  simp only [htrim, behind_jsQuote, Option.map_some]
  have hscalar : scalar f64 LineFormat.firefoxPrefs.dialect (jsQuote s) = .string s :=
    parseJsScalar_jsQuote s
  rw [hscalar]
  rfl

theorem newline_not_mem_prefLine (hkey : '\n' ∉ key) (s : Str) : '\n' ∉ prefLine key s := by
  unfold prefLine
  simp only [List.mem_append, not_or]
  exact ⟨⟨⟨⟨⟨by decide, by decide⟩, hkey⟩, by decide⟩, newline_not_mem_jsQuote s⟩, by decide⟩

theorem insertKey_prefs (lines : List (Line F)) (newline : Bool) (key s : Str) :
    LineModel.insertKey f64 ⟨LineFormat.firefoxPrefs.dialect, lines, newline⟩ key (.string s) =
      .ok (LineModel.emitText (lines.map Line.raw ++ [prefLine key s]) newline) := by
  have hline : LineModel.formatKeyLine (F := F) ⟨LineFormat.firefoxPrefs.dialect, lines, newline⟩
      key (jsQuote s) = prefLine key s := rfl
  have hraws : (lines ++ [Line.other (prefLine key s)]).map Line.raw =
      lines.map Line.raw ++ [prefLine key s] := List.map_append
  rw [← hraws, ← hline]
  rfl

/-! ## A preference set and read -/

/-- The lines of the text with one edit: the first line of the key has the literal in its
value's place; or there is no such line, and the new statement is behind the others. -/
def PrefEdit (f64 : Float64 F) (lines : List Str) (key s : Str) (edited : List Str) : Prop :=
  (∃ pre raw post kv, Carried f64 LineFormat.firefoxPrefs.dialect none lines key pre raw post kv ∧
      edited = pre ++ kv.rewritten (jsQuote s) :: post) ∨
    (∀ line ∈ parseLines f64 LineFormat.firefoxPrefs.dialect none lines,
        LineModel.carries key line = false) ∧
      edited = lines ++ [prefLine key s]

theorem lookup_append_of_ne {m m' : ConfigModel F} {v : ConfigValue F} {other : Str}
    (hne : other ≠ key) : (m ++ (key, v) :: m').get other = (m ++ m').get other := by
  unfold ConfigModel.get
  rw [List.lookup_append, List.lookup_append, List.lookup_cons, beq_eq_false_iff_ne.mpr hne]

/-- One line in the place of another that carries the same key changes no other key. -/
theorem get_rewritten {d : LineDialect} {lines pre post : List Str} {raw raw' : Str}
    {kv : KeyVal F} {v : ConfigValue F} {other : Str} (hd : d.sections = false)
    (hc : Carried f64 d none lines key pre raw post kv)
    (hentry : (parseLine f64 d none raw').entry = some (key, v)) (hne : other ≠ key) :
    (entries f64 d none (pre ++ raw' :: post)).get other =
      (entries f64 d none lines).get other := by
  have hline : (parseLine f64 d none raw).entry = some (key, kv.value) := by
    have hline := hc.line
    rw [sectionAfter_of_no_sections hd] at hline
    rw [hline, ← hc.key_eq]
    rfl
  have hafter : ∀ raw, entries f64 d none (raw :: post) =
      (parseLine f64 d none raw).entry.toList ++ entries f64 d none post := by
    intro raw
    have hsection : sectionAfter f64 d none [raw] = none := sectionAfter_of_no_sections hd
    unfold sectionAfter at hsection
    rw [List.foldl_cons, List.foldl_nil] at hsection
    rw [entries_cons, hsection]
  rw [hc.cut, entries_append, entries_append, sectionAfter_of_no_sections hd, hafter, hafter,
    hentry, hline]
  simp only [Option.toList_some, List.singleton_append]
  rw [lookup_append_of_ne hne, lookup_append_of_ne hne]

variable (f64) in
/-- **What a preference set to a string leaves**: the lines with one edit, where the key has
the string and no other key has changed. -/
theorem prefs_set_reads (hq : '"' ∉ key) (hb : '\\' ∉ key) (hkey : '\n' ∉ key) (s : Str)
    (htext : Text.byteLen text ≤ maxConfigBytes) : ∃ ls,
      LineFormat.firefoxPrefs.set f64 text key (.string s) =
        .ok (LineModel.emitText ls (text.getLast? == some '\n')) ∧
      PrefEdit f64 (splitLines text) key s ls ∧ (∀ l ∈ ls, '\n' ∉ l) ∧
      (entries f64 LineFormat.firefoxPrefs.dialect none ls).get key = some (.string s) ∧
      ∀ other, other ≠ key → (entries f64 LineFormat.firefoxPrefs.dialect none ls).get other =
        (entries f64 LineFormat.firefoxPrefs.dialect none (splitLines text)).get other := by
  have hlines : ∀ l ∈ splitLines text, '\n' ∉ l := fun l hl => not_mem_of_mem_splitLines hl
  unfold LineFormat.set
  rw [parse_of_le htext]
  simp only
  rcases carried_cases f64 LineFormat.firefoxPrefs.dialect none (splitLines text) key with
    hno | ⟨pre, raw, post, kv, hc⟩
  · have hfind : LineModel.findKeyIndex ⟨LineFormat.firefoxPrefs.dialect,
        parseLines f64 LineFormat.firefoxPrefs.dialect none (splitLines text),
        text.getLast? == some '\n'⟩ key = none := List.findIdx?_eq_none_iff.2 hno
    have hnew : (parseLine f64 LineFormat.firefoxPrefs.dialect
        (sectionAfter f64 LineFormat.firefoxPrefs.dialect none (splitLines text))
        (prefLine key s)).entry = some (key, .string s) := by
      rw [sectionAfter_of_no_sections rfl]
      exact entry_prefLine f64 hq hb s
    refine ⟨splitLines text ++ [prefLine key s], ?_, .inr ⟨hno, rfl⟩, ?_,
      Carried.lookup_eq hno hnew, fun other hne => ?_⟩
    · have hset : LineModel.set f64 ⟨LineFormat.firefoxPrefs.dialect,
          parseLines f64 LineFormat.firefoxPrefs.dialect none (splitLines text),
          text.getLast? == some '\n'⟩ key (.string s) =
            .ok (LineModel.emitText (splitLines text ++ [prefLine key s])
              (text.getLast? == some '\n')) := by
        unfold LineModel.set
        rw [hfind]
        simp only
        rw [insertKey_prefs, map_raw_parseLines]
      rw [hset]
    · intro l hl
      rcases List.mem_append.1 hl with hl | hl
      · exact hlines l hl
      · rw [List.mem_singleton.1 hl]
        exact newline_not_mem_prefLine hkey s
    · rw [entries_append, entries_singleton, hnew]
      simp only [Option.toList_some]
      rw [lookup_append_of_ne hne, List.append_nil]
  · have hraw := raw_eq_of_keyVal hc.line
    obtain ⟨name, hname, -, hrewritten⟩ := entry_rewritten LineFormat.firefoxPrefs.proper hc.line
    obtain ⟨hentry, -⟩ := hrewritten _ (token_jsQuote s) none
    rw [behind_jsQuote, Option.map_some] at hentry
    have hscalar : scalar f64 LineFormat.firefoxPrefs.dialect (jsQuote s) = .string s :=
      parseJsScalar_jsQuote s
    have hfull : fullKey LineFormat.firefoxPrefs.dialect none name = key :=
      hname.symm.trans hc.key_eq
    rw [hfull, hscalar] at hentry
    refine ⟨pre ++ kv.rewritten (jsQuote s) :: post, ?_, .inl ⟨pre, raw, post, kv, hc, rfl⟩, ?_,
      Carried.lookup_eq hc.before ?_, fun other hne => get_rewritten rfl hc hentry hne⟩
    · rw [hc.set_eq (jsQuote s) rfl]
    · rw [hc.cut] at hlines
      intro l hl
      rcases List.mem_append.1 hl with hl | hl
      · exact hlines l (List.mem_append_left _ hl)
      · rcases List.mem_cons.1 hl with rfl | hl
        · refine newline_not_mem_rewritten ?_ (newline_not_mem_jsQuote s)
          rw [hraw]
          exact hlines raw (by simp)
        · exact hlines l (List.mem_append_right _ (List.mem_cons_of_mem _ hl))
    · rw [sectionAfter_of_no_sections rfl]
      exact hentry

/-- **A string of a `prefs.js` survives**, and its line is the only one edited: no line of the
edit has a line break in it, and the lines are joined as they were. -/
theorem prefs_string_survives (hq : '"' ∉ key) (hb : '\\' ∉ key) (hkey : '\n' ∉ key) (s : Str)
    (htext : Text.byteLen text ≤ maxConfigBytes) : ∃ out ls,
    LineFormat.firefoxPrefs.set f64 text key (.string s) = .ok out ∧
      out = LineModel.emitText ls (text.getLast? == some '\n') ∧
      PrefEdit f64 (splitLines text) key s ls ∧ (∀ l ∈ ls, '\n' ∉ l) ∧
      (Text.byteLen out ≤ maxConfigBytes → ∃ old new,
        LineFormat.firefoxPrefs.read f64 text = .ok old ∧
        LineFormat.firefoxPrefs.read f64 out = .ok new ∧
        new.get key = some (.string s) ∧ ∀ other, other ≠ key → new.get other = old.get other) := by
  obtain ⟨ls, hset, hedit, hls, hget, hothers⟩ := prefs_set_reads f64 hq hb hkey s htext
  refine ⟨_, ls, hset, rfl, hedit, hls, fun hout => ⟨_, _, ?_, ?_, hget, hothers⟩⟩
  · rw [read_eq, if_neg (Nat.not_lt.2 htext)]
  · rw [read_eq, if_neg (Nat.not_lt.2 hout), entries_emitText LineFormat.firefoxPrefs.proper hls]

/-- A quote, a backslash and a line feed, behind a comment. -/
theorem prefs_string_survives_new :
    LineFormat.firefoxPrefs.set noFloat "// prefs\n".toList "a.b".toList
        (.string ['"', '\\', '\n']) =
          .ok "// prefs\nuser_pref(\"a.b\", \"\\\"\\\\\\n\");\n".toList ∧
      ∃ m, LineFormat.firefoxPrefs.read noFloat
          "// prefs\nuser_pref(\"a.b\", \"\\\"\\\\\\n\");\n".toList = .ok m ∧
        m.get "a.b".toList = some (.string ['"', '\\', '\n']) := by
  have hset : LineFormat.firefoxPrefs.set noFloat "// prefs\n".toList "a.b".toList
      (.string ['"', '\\', '\n']) =
        .ok "// prefs\nuser_pref(\"a.b\", \"\\\"\\\\\\n\");\n".toList := by rfl
  obtain ⟨out, ls, hout, -, -, -, hread⟩ := @prefs_string_survives _ noFloat "a.b".toList
    "// prefs\n".toList (by decide) (by decide) (by decide) ['"', '\\', '\n'] (by decide)
  obtain rfl := Except.ok.inj (hset.symm.trans hout)
  obtain ⟨old, new, -, hnew, hget, -⟩ := hread (by decide)
  exact ⟨hset, new, hnew, hget⟩

end Arlen.ConfigFormat
