import Arlen.ConfigFormat.Reading

/-!
# Reading what was written

What is read from a text stands on one of its lines. A key or a value with a line break is not
read back: as soon as one is written, the line it was to stand on falls into pieces, none of
which carries the key.
-/

namespace Arlen.ConfigFormat

open Arlen.Lib

variable {F : Type} {f64 : Float64 F} {dialect : LineDialect} {currentSection : Option Str}
  {raw text key token : Str} {kv : KeyVal F}

variable {h : LineFormat} {ls : List Str} {new : Str} {newline : Bool}

/-- The lines of a text with a new last line, before carriage returns are dropped. -/
theorem splitOn_intercalate_concat (hls : ∀ l ∈ ls, '\n' ∉ l) (new : Str) :
    (['\n'].intercalate (ls ++ [new])).splitOn '\n' = ls ++ new.splitOn '\n' := by
  induction ls with
  | nil => simp
  | cons l ls ih =>
    obtain ⟨k, ks, hk⟩ : ∃ k ks, ls ++ [new] = k :: ks :=
      List.exists_cons_of_ne_nil (by simp)
    have hrest := ih fun x hx => hls x (List.mem_cons_of_mem _ hx)
    rw [hk] at hrest
    rw [List.cons_append, hk, List.intercalate_cons_cons, List.append_assoc, List.singleton_append,
      List.splitOn_append_cons_self_of_not_mem (hls l List.mem_cons_self), hrest]
    rfl

theorem exists_intercalate_concat (ls : List Str) (new : Str) :
    ∃ front, ['\n'].intercalate (ls ++ [new]) = front ++ new := by
  induction ls with
  | nil => exact ⟨[], by simp⟩
  | cons l ls ih =>
    obtain ⟨front, hfront⟩ := ih
    obtain ⟨k, ks, hk⟩ : ∃ k ks, ls ++ [new] = k :: ks :=
      List.exists_cons_of_ne_nil (by simp)
    refine ⟨l ++ ['\n'] ++ front, ?_⟩
    rw [hk] at hfront
    rw [List.cons_append, hk, List.intercalate_cons_cons, hfront, List.append_assoc _ front]

theorem mem_splitLines_concat (hls : ∀ l ∈ ls, '\n' ∉ l) {x p : Str} (hnew : new = x ++ [';'])
    (hp : p ∈ splitLines (LineModel.emitText (ls ++ [new]) newline)) :
    ∃ r, (r ∈ ls ∨ r ∈ new.splitOn '\n') ∧ p = (Text.stripSuffix ['\r'] r).getD r := by
  obtain ⟨y, hy⟩ : ∃ y, ['\n'].intercalate (ls ++ [new]) = y ++ [';'] := by
    obtain ⟨front, hfront⟩ := exists_intercalate_concat ls new
    exact ⟨front ++ x, by rw [hfront, hnew, List.append_assoc]⟩
  have hcut : (Text.stripSuffix ['\n'] (LineModel.emitText (ls ++ [new]) newline)).getD
      (LineModel.emitText (ls ++ [new]) newline) = ['\n'].intercalate (ls ++ [new]) := by
    unfold LineModel.emitText
    cases newline with
    | true => simp [stripSuffix_concat]
    | false =>
      rcases eq_concat_or_stripSuffix (['\n'].intercalate (ls ++ [new])) '\n' with
        ⟨s, heq, -, -⟩ | ⟨hs, -⟩
      · rw [hy] at heq
        exact absurd (List.singleton_inj.1 (List.append_inj' heq rfl).2) (by decide)
      · simp [hs]
  unfold splitLines at hp
  split at hp
  · cases hp
  · dsimp only at hp
    rw [hcut, splitOn_intercalate_concat hls] at hp
    obtain ⟨r, hr, rfl⟩ := List.mem_map.1 hp
    exact ⟨r, List.mem_append.1 hr, rfl⟩

theorem parseKeyLine_of_parseLine (hline : parseLine f64 dialect currentSection raw = .keyVal kv) :
    parseKeyLine f64 raw dialect currentSection = some kv := by
  unfold parseLine at hline
  dsimp only at hline
  split at hline
  · cases hline
  · split at hline
    · cases hline
    · split at hline
      · next hkv =>
        cases hline
        exact hkv
      · cases hline

/-- Without sections, a line is read the same wherever it stands. -/
theorem parseLines_of_no_sections {d : LineDialect} (hsections : d.sections = false)
    (ls : List Str) : parseLines f64 d none ls = ls.map (parseLine f64 d none) := by
  induction ls with
  | nil => rfl
  | cons raw ls ih =>
    have hnone : ∀ r name, parseLine f64 d none raw ≠ .header r name := by
      intro r name
      unfold parseLine
      simp only [hsections, Bool.false_eq_true, if_false]
      split
      · simp
      · split <;> simp
    rw [parseLines, List.map_cons, ← ih]
    split
    · next hline => exact absurd hline (hnone _ _)
    · rfl

theorem mem_of_get {m : ConfigModel F} {value : ConfigValue F} (hget : m.get key = some value) :
    (key, value) ∈ m := by
  obtain ⟨front, back, hm, -⟩ := List.lookup_eq_some_iff.1 hget
  rw [hm]
  exact List.mem_append_right _ List.mem_cons_self

/-- What is read stands on a line. -/
theorem exists_of_get {m : LineModel F} {value : ConfigValue F}
    (hget : m.toModel.get key = some value) :
    ∃ kv, Line.keyVal kv ∈ m.lines ∧ kv.key = key ∧ kv.value = value := by
  have hmem : (key, value) ∈ m.toModel := mem_of_get hget
  obtain ⟨line, hline, heq⟩ := List.mem_filterMap.1 hmem
  cases line with
  | keyVal kv =>
    cases heq
    exact ⟨kv, hline, rfl, rfl⟩
  | header r name => cases heq
  | other r => cases heq

theorem parse_eq_ok {m : LineModel F} (hparse : LineModel.parse f64 text dialect = .ok m) :
    m = ⟨dialect, parseLines f64 dialect none (splitLines text), text.getLast? == some '\n'⟩ := by
  unfold LineModel.parse at hparse
  split at hparse
  · cases hparse
  · exact (Except.ok.inj hparse).symm

theorem read_eq_ok {candidate : ConfigModel F} (hread : h.read f64 text = .ok candidate) :
    ∃ m, LineModel.parse f64 text h.dialect = .ok m ∧ candidate = m.toModel := by
  unfold LineFormat.read at hread
  split at hread
  · cases hread
  · next m hm => exact ⟨m, hm, (Except.ok.inj hread).symm⟩

/-- **A plain key and value that are read back are one line.** -/
theorem oneLined_of_get (hstatement : h.dialect.statement = none) {candidate : ConfigModel F}
    {value : ConfigValue F} (hread : h.read f64 text = .ok candidate)
    (hget : candidate.get key = some value) : OneLined (key, value) := by
  obtain ⟨m, hm, rfl⟩ := read_eq_ok hread
  obtain ⟨kv, hmem, rfl, rfl⟩ := exists_of_get hget
  rw [parse_eq_ok hm] at hmem
  exact oneLined_parseLines hstatement (fun l hl => not_mem_of_mem_splitLines hl)
    (fun _ hnone => by cases hnone) kv hmem

theorem token_quoted {m : LineModel F} {value : ConfigValue F} (hquote : m.dialect.quote = .jsLiteral)
    (hfloat : ∀ f, value ≠ .float f) (hser : m.serializeValue f64 value = .ok token) :
    (∃ t, token = '"' :: t) ∨ '"' ∉ token := by
  cases value with
  | opaqueValue => cases hser
  | float f => exact absurd rfl (hfloat f)
  | bool b =>
    cases hser
    exact .inr (by cases b <;> decide)
  | int i =>
    cases hser
    exact .inr (not_mem_toString_int (by decide) (by decide) i)
  | string s =>
    cases hser
    rw [hquote]
    exact .inl ⟨_, rfl⟩

/-- **A new Firefox key that is read back is one line.** The statement it is written as is the
only one that could carry it, and a line break in the key cuts that statement up. -/
theorem one_line_of_statement {func : Str} (hdialect : h.dialect.statement = some func)
    (hsections : h.dialect.sections = false) (hfunc : '"' ∉ func) (hfuncLine : '\n' ∉ func)
    (hlen : 3 ≤ func.length) (hcr : '\r' ∉ text) (htoken : '\n' ∉ token)
    (hquoted : (∃ t, token = '"' :: t) ∨ '"' ∉ token)
    (habsent : ∀ kv, Line.keyVal kv ∈ parseLines f64 h.dialect none (splitLines text) → kv.key ≠ key)
    {candidate : ConfigModel F} {value : ConfigValue F}
    (hread : h.read f64 (LineModel.emitText (splitLines text ++
      [func ++ "(\"".toList ++ key ++ "\", ".toList ++ token ++ ");".toList]) newline) = .ok candidate)
    (hget : candidate.get key = some value) : '\n' ∉ key := by
  intro hkey
  obtain ⟨m, hm, rfl⟩ := read_eq_ok hread
  obtain ⟨kv, hmem, hkv, -⟩ := exists_of_get hget
  rw [parse_eq_ok hm] at hmem
  dsimp only at hmem
  rw [parseLines_of_no_sections hsections] at hmem habsent
  obtain ⟨p, hp, hline⟩ := List.mem_map.1 hmem
  obtain ⟨r, hr, rfl⟩ := mem_splitLines_concat (fun l hl => not_mem_of_mem_splitLines hl)
    (show _ = (func ++ "(\"".toList ++ key ++ "\", ".toList ++ token ++ [')']) ++ [';'] by simp) hp
  rcases hr with hr | hr
  · have hnocr : '\r' ∉ r := fun hmem => hcr (mem_of_mem_splitLines hr hmem)
    rw [stripSuffix_of_not_mem hnocr, Option.getD_none] at hline
    exact habsent kv (List.mem_map.2 ⟨r, hr, hline⟩) hkv
  · have hstmt := parseKeyLine_of_parseLine hline
    rw [parseKeyLine, hdialect] at hstmt
    have := length_key_of_piece hfunc hfuncLine htoken hquoted hlen hkey hr hstmt
    rw [hkv] at this
    exact absurd this (Nat.lt_irrefl _)

end Arlen.ConfigFormat
