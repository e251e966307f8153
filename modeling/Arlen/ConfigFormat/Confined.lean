import Arlen.ConfigFormat.ValueRun
import Mathlib.Data.List.InsertIdx

/-!
# Edits are confined

Whatever separators, quotes, brackets or line breaks a key or a value holds, an edit that the
self-check lets through replaces the run of a value on one line, or adds one line and at most one
header, or takes one line away. The check reads the written text again, and a value or a key with
a line break is not read back, so nothing but whole single lines gets through.
-/

namespace Arlen.ConfigFormat

open Arlen.Lib

variable {F : Type} {f64 : Float64 F} {dialect : LineDialect} {currentSection : Option Str}
  {raw text key token : Str} {kv : KeyVal F}

/-! ## Confined edits -/

section Edits

variable {h : LineFormat} {t₂ : Str}

/-- A text of these lines, none of which has a line break. -/
structure IsText (lines : List Str) (newline : Bool) (text : Str) : Prop where
  oneLined : ∀ l ∈ lines, '\n' ∉ l
  emitted : text = LineModel.emitText lines newline

/-- Line `i` is the first that carries the key. -/
structure FirstLine (f64 : Float64 F) (h : LineFormat) (text key : Str) (i : Nat)
    (kv : KeyVal F) : Prop where
  parsed : (parseLines f64 h.dialect none (splitLines text))[i]? = some (.keyVal kv)
  carries : kv.key = key
  first : ∀ j < i, ∀ l, (parseLines f64 h.dialect none (splitLines text))[j]? = some l →
    LineModel.carries key l = false

/-- A new line for the key, in the section its first segment names where there are sections. -/
def IsKeyLine (F : Type) (h : LineFormat) (key line : Str) : Prop :=
  ∃ localKey token, (key = localKey ∨ ∃ name, h.dialect.sections = true ∧ key = name ++ '.' :: localKey) ∧
    line = (⟨h.dialect, [], true⟩ : LineModel F).formatKeyLine localKey token

/-- The text with one value's run replaced, or one line for the key added, behind at most one
new header. -/
inductive Written (f64 : Float64 F) (h : LineFormat) (text key t₂ : Str) : Prop
  | replaced {lines : List Str} {newline : Bool} {i : Nat} {kv : KeyVal F}
      {front run back : Str} (token : Str) (htext : IsText lines newline text)
      (hfirst : FirstLine f64 h text key i kv) (hline : lines[i]? = some (front ++ run ++ back))
      (hrun : ValueRun h.dialect front run back)
      (ht₂ : IsText (lines.set i (front ++ token ++ back)) newline t₂)
  | inserted {lines : List Str} {newline : Bool} (i : Nat) {line : Str}
      (htext : IsText lines newline text) (hi : i ≤ lines.length) (hline : IsKeyLine F h key line)
      (ht₂ : IsText (lines.insertIdx i line) newline t₂)
  | insertedSection {lines : List Str} {newline : Bool} (name : Str) {line : Str}
      (htext : IsText lines newline text) (hline : IsKeyLine F h key line)
      (ht₂ : IsText (lines ++ ['[' :: name ++ [']'], line]) newline t₂)

/-- The text with the key's line deleted, or the text itself where no line carries the key. -/
inductive Deleted (f64 : Float64 F) (h : LineFormat) (text key t₂ : Str) : Prop
  | absent (hnone : ∀ l ∈ parseLines f64 h.dialect none (splitLines text),
      LineModel.carries key l = false) (ht₂ : t₂ = text)
  | line {lines : List Str} {newline : Bool} {i : Nat} {kv : KeyVal F}
      (htext : IsText lines newline text) (hfirst : FirstLine f64 h text key i kv)
      (hline : lines[i]? = some kv.raw) (ht₂ : IsText (lines.eraseIdx i) newline t₂)

/-- What reading shows: the key as it is wanted, and every other key as it was. -/
def Shows (f64 : Float64 F) (h : LineFormat) (text t₂ key : Str) (want : Option (ConfigValue F)) :
    Prop :=
  ∃ original candidate, h.read f64 text = .ok original ∧ h.read f64 t₂ = .ok candidate ∧
    candidate.get key = want ∧ ∀ k, k ≠ key → candidate.get k = original.get k

theorem siblings_of_ok [DecidableEq F] {original candidate : ConfigModel F}
    (hok : checkSiblingsUnchanged original candidate key = .ok ()) :
    ∀ k, k ≠ key → candidate.get k = original.get k := by
  unfold checkSiblingsUnchanged at hok
  split at hok
  · cases hok
  · next horiginal =>
    split at hok
    · cases hok
    · next hcandidate =>
      intro k hk
      have hkept := List.find?_eq_none.1 horiginal
      have hadded := List.find?_eq_none.1 hcandidate
      cases hget : original.get k with
      | some v =>
        have := hkept (k, v) (mem_of_get hget)
        simpa [hk] using this
      | none =>
        cases hget' : candidate.get k with
        | none => rfl
        | some v =>
          have := hadded (k, v) (mem_of_get hget')
          simp [hk, hget] at this

/-- **The self-check shows the edit.** -/
theorem shows_of_verify [DecidableEq F] {original : ConfigModel F} {expected : Option (ConfigValue F)}
    (hread : h.read f64 text = .ok original)
    (hverify : verify f64 h text t₂ original key expected = .ok ()) :
    Shows f64 h text t₂ key expected := by
  unfold verify at hverify
  split at hverify
  · cases hverify
  · next candidate hcandidate =>
    split at hverify
    · cases hverify
    · next happlied =>
      split at hverify
      · cases hverify
      · next hsiblings =>
        refine ⟨original, candidate, hread, hcandidate, ?_, siblings_of_ok hsiblings⟩
        rw [Bool.not_eq_false] at happlied
        unfold editApplied at happlied
        split at happlied
        · simpa using happlied
        · simpa using happlied

theorem isText_splitLines (hcr : '\r' ∉ text) :
    IsText (splitLines text) (text.getLast? == some '\n') text :=
  ⟨fun _ hl => not_mem_of_mem_splitLines hl, (emitText_splitLines hcr).symm⟩

theorem firstLine_of_findKeyIndex {m : LineModel F} {i : Nat} {kv : KeyVal F}
    (hparse : LineModel.parse f64 text h.dialect = .ok m) (hi : m.findKeyIndex key = some i)
    (hkv : m.lines[i]? = some (.keyVal kv)) : FirstLine f64 h text key i kv := by
  obtain rfl := parse_eq_ok hparse
  obtain ⟨hlt, hcarries, hbefore⟩ := List.findIdx?_eq_some_iff_getElem.1 hi
  have hget := List.getElem?_eq_some_iff.1 hkv
  refine ⟨hkv, ?_, fun j hj l hl => ?_⟩
  · rw [hget.2] at hcarries
    exact eq_of_beq hcarries
  · obtain ⟨hjlt, rfl⟩ := List.getElem?_eq_some_iff.1 hl
    exact Bool.not_eq_true _ ▸ hbefore j hj

theorem exists_parseLine {d : LineDialect} {sec : Option Str} {ls : List Str} {i : Nat}
    {l : Line F} (hl : (parseLines f64 d sec ls)[i]? = some l) :
    ∃ raw sec, parseLine f64 d sec raw = l := by
  induction ls generalizing sec i with
  | nil => cases hl
  | cons raw ls ih =>
    cases i with
    | zero => exact ⟨raw, sec, Option.some.inj hl⟩
    | succ i => exact ih hl

/-- The key's line, cut around its value. -/
theorem FirstLine.cut {i : Nat} {kv : KeyVal F} (hfirst : FirstLine f64 h text key i kv) :
    ∃ front run back, kv.raw = front ++ run ++ back ∧ kv.start = front.length ∧
      kv.stop = front.length + run.length ∧ ValueRun h.dialect front run back := by
  obtain ⟨raw, sec, hline⟩ := exists_parseLine hfirst.parsed
  rw [raw_eq_of_keyVal hline]
  exact valueRun_of_parseLine h.proper hline

theorem raw_of_getElem? {m : LineModel F} {i : Nat} {kv : KeyVal F}
    (hparse : LineModel.parse f64 text h.dialect = .ok m)
    (hkv : m.lines[i]? = some (.keyVal kv)) : (splitLines text)[i]? = some kv.raw := by
  obtain rfl := parse_eq_ok hparse
  have hraw : ((parseLines f64 h.dialect none (splitLines text)).map Line.raw)[i]? = some kv.raw := by
    rw [List.getElem?_map, hkv]
    rfl
  rwa [map_raw_parseLines] at hraw

theorem exists_of_findKeyIndex {m : LineModel F} {i : Nat} (hi : m.findKeyIndex key = some i) :
    ∃ kv, m.lines[i]? = some (.keyVal kv) := by
  obtain ⟨hlt, hcarries, -⟩ := List.findIdx?_eq_some_iff_getElem.1 hi
  cases hline : m.lines[i] with
  | keyVal kv => exact ⟨kv, List.getElem?_eq_some_iff.2 ⟨hlt, hline⟩⟩
  | header r name =>
    rw [hline] at hcarries
    cases hcarries
  | other r =>
    rw [hline] at hcarries
    cases hcarries

/-- **What `remove` does** to the lines. -/
theorem deleted_of_remove {m : LineModel F} (hcr : '\r' ∉ text)
    (hparse : LineModel.parse f64 text h.dialect = .ok m) :
    Deleted f64 h text key (m.remove key) := by
  have hm := parse_eq_ok hparse
  unfold LineModel.remove
  cases hi : m.findKeyIndex key with
  | none =>
    refine .absent (fun l hl => ?_) ?_
    · have := List.findIdx?_eq_none_iff.1 hi l (by rw [hm]; exact hl)
      exact this
    · rw [hm]
      show LineModel.emitText _ _ = _
      rw [map_raw_parseLines]
      exact emitText_splitLines hcr
  | some i =>
    obtain ⟨kv, hkv⟩ := exists_of_findKeyIndex hi
    refine .line (isText_splitLines hcr) (firstLine_of_findKeyIndex hparse hi hkv)
      (raw_of_getElem? hparse hkv) ⟨fun l hl => ?_, ?_⟩
    · exact not_mem_of_mem_splitLines (List.mem_of_mem_eraseIdx hl)
    · rw [hm]
      show LineModel.emitText _ _ = _
      rw [← List.eraseIdx_map, map_raw_parseLines]

theorem emit_eq {m : LineModel F} (hparse : LineModel.parse f64 text h.dialect = .ok m)
    (lines : List (Line F)) :
    m.emit lines = LineModel.emitText (lines.map Line.raw) (text.getLast? == some '\n') := by
  rw [parse_eq_ok hparse]
  rfl

theorem raws_eq {m : LineModel F} (hparse : LineModel.parse f64 text h.dialect = .ok m) :
    m.lines.map Line.raw = splitLines text := by
  rw [parse_eq_ok hparse]
  exact map_raw_parseLines _

/-- Replacing the run on the key's line. -/
theorem written_of_replace {m : LineModel F} {i : Nat} {kv : KeyVal F} (hcr : '\r' ∉ text)
    (hparse : LineModel.parse f64 text h.dialect = .ok m) (hi : m.findKeyIndex key = some i)
    (hkv : m.lines[i]? = some (.keyVal kv)) (htoken : '\n' ∉ token) :
    Written f64 h text key (m.emit (m.lines.set i
      (.other (kv.raw.take kv.start ++ token ++ kv.raw.drop kv.stop)))) := by
  have hraw := raw_of_getElem? hparse hkv
  have hfirst := firstLine_of_findKeyIndex hparse hi hkv
  obtain ⟨front, run, back, hcut, hstart, hstop, hrun⟩ := hfirst.cut
  have htake : kv.raw.take kv.start = front := by
    rw [hcut, hstart, List.append_assoc, List.take_left]
  have hdrop : kv.raw.drop kv.stop = back := by
    rw [hcut, hstop, ← List.length_append, List.drop_left]
  rw [hcut] at hraw
  have hrawLine := not_mem_of_mem_splitLines (List.mem_of_getElem? hraw)
  simp only [List.mem_append, not_or] at hrawLine
  rw [htake, hdrop]
  refine .replaced token (isText_splitLines hcr) hfirst hraw hrun ⟨fun l hl => ?_, ?_⟩
  · rcases List.mem_or_eq_of_mem_set hl with hl | rfl
    · exact not_mem_of_mem_splitLines hl
    · simp only [List.mem_append, not_or]
      exact ⟨⟨hrawLine.1.1, htoken⟩, hrawLine.2⟩
  · rw [emit_eq hparse, List.map_set, raws_eq hparse]
    rfl

theorem insertAt_le {m : LineModel F} {name : Str} {i : Nat}
    (hi : m.lastLineOfSection name = some i) : i + 1 ≤ m.lines.length := by
  obtain ⟨header, hheader, rfl⟩ := Option.map_eq_some_iff.1 hi
  obtain ⟨hlt, -⟩ := List.findIdx?_eq_some_iff_getElem.1 hheader
  have hle : ((m.lines.drop (header + 1)).takeWhile (!LineModel.isHeader ·)).length ≤
      (m.lines.drop (header + 1)).length := (List.takeWhile_sublist _).length_le
  rw [List.length_drop] at hle
  omega

/-- Adding the key's line, where key and token are one line. -/
theorem written_of_insert {m : LineModel F} {value : ConfigValue F} (hcr : '\r' ∉ text)
    (hparse : LineModel.parse f64 text h.dialect = .ok m)
    (hinsert : m.insertKey f64 key value = .ok t₂) (hkey : '\n' ∉ key)
    (htoken : ∀ token, m.serializeValue f64 value = .ok token → '\n' ∉ token) :
    Written f64 h text key t₂ := by
  have hm := parse_eq_ok hparse
  have hformat : ∀ localKey token, m.formatKeyLine localKey token =
      (⟨h.dialect, [], true⟩ : LineModel F).formatKeyLine localKey token := by
    intro localKey token
    rw [hm]
    rfl
  have hline : ∀ localKey token, '\n' ∉ localKey → '\n' ∉ token →
      '\n' ∉ m.formatKeyLine localKey token := by
    intro localKey token hlocal htok
    rw [hformat]
    cases h <;> simp [LineModel.formatKeyLine, LineFormat.dialect, hlocal, htok]
  unfold LineModel.insertKey at hinsert
  split at hinsert
  · cases hinsert
  · next token hser =>
    have htok := htoken token hser
    split at hinsert
    · next hsections =>
      split at hinsert
      · cases hinsert
      · next name localKey hsplit =>
        obtain ⟨rfl, -⟩ := Text.splitOnce_eq_some.1 hsplit
        have hname : '\n' ∉ name := fun hmem => hkey (List.mem_append_left _ hmem)
        have hlocal : '\n' ∉ localKey := fun hmem =>
          hkey (List.mem_append_right _ (List.mem_cons_of_mem _ hmem))
        have hkeyLine : IsKeyLine F h (name ++ '.' :: localKey) (m.formatKeyLine localKey token) :=
          ⟨localKey, token, .inr ⟨name, by rw [hm] at hsections; exact hsections, rfl⟩, hformat _ _⟩
        dsimp only at hinsert
        split at hinsert
        · next i hi =>
          cases hinsert
          refine .inserted (i + 1) (isText_splitLines hcr) ?_ hkeyLine ⟨fun l hl => ?_, ?_⟩
          · rw [← raws_eq hparse, List.length_map]
            exact insertAt_le hi
          · rcases List.eq_or_mem_of_mem_insertIdx hl with rfl | hl
            · exact hline _ _ hlocal htok
            · exact not_mem_of_mem_splitLines hl
          · rw [emit_eq hparse, List.map_insertIdx, raws_eq hparse]
            rfl
        · cases hinsert
          refine .insertedSection name (isText_splitLines hcr) hkeyLine ⟨fun l hl => ?_, ?_⟩
          · rcases List.mem_append.1 hl with hl | hl
            · exact not_mem_of_mem_splitLines hl
            · rcases List.mem_cons.1 hl with rfl | hl
              · simp [hname]
              · rw [List.mem_singleton.1 hl]
                exact hline _ _ hlocal htok
          · rw [emit_eq hparse, List.map_append, raws_eq hparse]
            rfl
    · cases hinsert
      refine .inserted (splitLines text).length (isText_splitLines hcr) (Nat.le_refl _)
        ⟨key, token, .inl rfl, hformat _ _⟩ ⟨fun l hl => ?_, ?_⟩
      · rcases List.eq_or_mem_of_mem_insertIdx hl with rfl | hl
        · exact hline _ _ hkey htok
        · exact not_mem_of_mem_splitLines hl
      · rw [emit_eq hparse, List.map_append, raws_eq hparse, List.insertIdx_length_self]
        rfl

/-- A new key that is read back is one line, whatever the format. -/
theorem key_one_line_of_insert {m : LineModel F} {value : ConfigValue F} (hcr : '\r' ∉ text)
    (hfloat : ∀ f, value ≠ .float f) (hparse : LineModel.parse f64 text h.dialect = .ok m)
    (hnone : m.findKeyIndex key = none) (hinsert : m.insertKey f64 key value = .ok t₂)
    {candidate : ConfigModel F} (hread : h.read f64 t₂ = .ok candidate)
    (hget : candidate.get key = some value) : '\n' ∉ key := by
  cases hstatement : h.dialect.statement with
  | none => exact (oneLined_of_get hstatement hread hget).1
  | some func =>
    obtain rfl : h = .firefoxPrefs := by
      cases h <;> first | rfl | cases hstatement
    obtain rfl : "user_pref".toList = func := Option.some.inj hstatement
    have hm := parse_eq_ok hparse
    have hdialect : m.dialect = LineFormat.firefoxPrefs.dialect := by rw [hm]
    unfold LineModel.insertKey at hinsert
    split at hinsert
    · cases hinsert
    · next token hser =>
      rw [if_neg (by rw [hdialect]; decide)] at hinsert
      cases hinsert
      rw [emit_eq hparse, List.map_append, raws_eq hparse] at hread
      have hline : m.formatKeyLine key token =
          "user_pref".toList ++ "(\"".toList ++ key ++ "\", ".toList ++ token ++ ");".toList := by
        unfold LineModel.formatKeyLine
        rw [hdialect]
        rfl
      refine one_line_of_statement hstatement rfl (by decide) (by decide) (by decide) hcr
        (newline_not_mem_token hfloat (.inl (by rw [hdialect]; rfl)) hser)
        (token_quoted (by rw [hdialect]; rfl) hfloat hser) (fun kv hkv hkey => ?_)
        (by rw [← hline]; exact hread) hget
      have hfree := List.findIdx?_eq_none_iff.1 hnone (.keyVal kv) (by rw [hm]; exact hkv)
      simp [LineModel.carries, hkey] at hfree

/-- **What `set` does** to the lines, once the edit shows. -/
theorem written_of_set {m : LineModel F} {value : ConfigValue F} (hcr : '\r' ∉ text)
    (hfloat : ∀ f, value ≠ .float f) (hparse : LineModel.parse f64 text h.dialect = .ok m)
    (hset : m.set f64 key value = .ok t₂) {candidate : ConfigModel F}
    (hread : h.read f64 t₂ = .ok candidate) (hget : candidate.get key = some value) :
    Written f64 h text key t₂ := by
  have htoken : ∀ token, m.serializeValue f64 value = .ok token → '\n' ∉ token := by
    intro token hser
    refine newline_not_mem_token hfloat ?_ hser
    rw [parse_eq_ok hparse]
    cases hstatement : h.dialect.statement with
    | none => exact .inr fun s hs => (oneLined_of_get hstatement hread hget).2 s hs
    | some func =>
      refine .inl ?_
      cases h <;> first | rfl | cases hstatement
  unfold LineModel.set at hset
  cases hi : m.findKeyIndex key with
  | none =>
    rw [hi] at hset
    exact written_of_insert hcr hparse hset
      (key_one_line_of_insert hcr hfloat hparse hi hset hread hget) htoken
  | some i =>
    obtain ⟨kv, hkv⟩ := exists_of_findKeyIndex hi
    simp only [hi, hkv] at hset
    split at hset
    · cases hset
    · next token hser =>
      cases hset
      exact written_of_replace hcr hparse hi hkv (htoken token hser)

/-- **Edits are confined.** A value that the self-check lets through is read at its key, every
other key reads as it did, and the text is the old one with one value's run replaced or one key
line (and at most one header) added; a removal that it lets through takes the key's line. -/
theorem edits_confined [DecidableEq F] (hcr : '\r' ∉ text) :
    (∀ value : ConfigValue F, (∀ f, value ≠ .float f) → checkedSet f64 h text key value = .ok t₂ →
      Shows f64 h text t₂ key (some value) ∧ Written f64 h text key t₂) ∧
    (checkedRemove f64 h text key = .ok t₂ →
      Shows f64 h text t₂ key none ∧ Deleted f64 h text key t₂) := by
  constructor
  · intro value hfloat hset
    unfold checkedSet at hset
    split at hset
    · cases hset
    · next original horiginal =>
      split at hset
      · cases hset
      · split at hset
        · cases hset
        · next candidate hcandidate =>
          split at hset
          · cases hset
          · next hverify =>
            cases hset
            have hshows := shows_of_verify horiginal hverify
            obtain ⟨_, _, -, hread, hget, -⟩ := shows_of_verify horiginal hverify
            unfold LineFormat.set at hcandidate
            split at hcandidate
            · cases hcandidate
            · next m hparse =>
              split at hcandidate
              · cases hcandidate
              · next hset =>
                cases hcandidate
                exact ⟨hshows, written_of_set hcr hfloat hparse hset hread hget⟩
  · intro hremove
    unfold checkedRemove at hremove
    split at hremove
    · cases hremove
    · next original horiginal =>
      split at hremove
      · cases hremove
      · next candidate hcandidate =>
        split at hremove
        · cases hremove
        · next hverify =>
          cases hremove
          refine ⟨shows_of_verify horiginal hverify, ?_⟩
          unfold LineFormat.remove at hcandidate
          split at hcandidate
          · cases hcandidate
          · next m hparse =>
            cases hcandidate
            exact deleted_of_remove hcr hparse

end Edits

/-- The value is set before the comment on its line, and the line goes with its comment. -/
theorem port_is_set :
    Shows noFloat .ini "[web]\nport = 80 # http\nhost = a\n".toList
      "[web]\nport = 8080 # http\nhost = a\n".toList "web.port".toList (some (.int 8080)) ∧
    Written noFloat .ini "[web]\nport = 80 # http\nhost = a\n".toList "web.port".toList
      "[web]\nport = 8080 # http\nhost = a\n".toList ∧
    Deleted noFloat .ini "[web]\nport = 80 # http\nhost = a\n".toList "web.port".toList
      "[web]\nhost = a\n".toList := by
  have hset : checkedSet noFloat .ini "[web]\nport = 80 # http\nhost = a\n".toList
      "web.port".toList (.int 8080) = .ok "[web]\nport = 8080 # http\nhost = a\n".toList := by rfl
  have hremove : checkedRemove noFloat .ini "[web]\nport = 80 # http\nhost = a\n".toList
      "web.port".toList = .ok "[web]\nhost = a\n".toList := by rfl
  obtain ⟨hshows, hwritten⟩ := (edits_confined (by decide)).1 _ (by simp) hset
  exact ⟨hshows, hwritten, ((edits_confined (by decide)).2 hremove).2⟩

end Arlen.ConfigFormat
