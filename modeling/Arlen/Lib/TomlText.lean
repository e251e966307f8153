import Mathlib.Algebra.BigOperators.Group.List.Basic
import Mathlib.Data.List.Forall2
import Mathlib.Data.List.Nodup
import Mathlib.Data.List.Perm.Subperm
import Arlen.Lib.Lines
import Arlen.Lib.Text

/-!
# TOML text of one table

TOML 1.0 as far as it is comments and blank lines, one header `[name]`, and behind it
pairs of strings in quotes, one a line. Reading such a text ends in its pairs, or in the
certainty that the text is no TOML; where the text goes beyond these forms the reader
stops without an answer.

`pairLine` writes a pair with the quotes of its two strings escaped and nothing else, and
a remark behind it. A `Sealed` string ends where it was meant to: no backslash of its own
takes the backslash in front of a quote, or the quote behind the string. What is read of
a sealed string is never longer than the string, and is as long only if it is the string.
-/

namespace Arlen.Lib.TomlText

/-! ## Reading -/

/-- Why reading stops: the text is not TOML, or it is beyond the forms read here. -/
inductive Stop where
  | invalid
  | beyond
deriving DecidableEq

/-- The control characters, but for the tab. -/
def isControl (c : Char) : Bool := (decide (c.toNat < 0x20) && c != '\t') || c.toNat == 0x7F

def isSpace (c : Char) : Bool := c == ' ' || c == '\t'

def skipSpace (t : List Char) : List Char := t.dropWhile isSpace

/-- The character a backslash makes of the one behind it. -/
def shortEscape (c : Char) : Option Char :=
  if c = 'b' then some '\x08'
  else if c = 't' then some '\t'
  else if c = 'n' then some '\n'
  else if c = 'f' then some '\x0c'
  else if c = 'r' then some '\r'
  else if c = '"' then some '"'
  else if c = '\\' then some '\\'
  else none

def hexDigitValue (c : Char) : Option Nat :=
  if '0' ≤ c ∧ c ≤ '9' then some (c.toNat - 48)
  else if 'a' ≤ c ∧ c ≤ 'f' then some (c.toNat - 87)
  else if 'A' ≤ c ∧ c ≤ 'F' then some (c.toNat - 55)
  else none

/-- Where the reader of a string stands: in its text, behind a backslash, or before a digit
of a character's number with `left` more digits behind. -/
inductive Mode where
  | text
  | escape
  | digits (left value : Nat)

/-- The string up to the quote that ends it, and what is behind the quote. -/
def basic : Mode → List Char → Except Stop (List Char × List Char)
  | _, [] => .error .invalid
  | .text, c :: t =>
    if c = '"' then .ok ([], t)
    else if c = '\\' then basic .escape t
    else if isControl c then .error .invalid
    else (basic .text t).map fun r => (c :: r.1, r.2)
  | .escape, c :: t =>
    match shortEscape c with
    | some d => (basic .text t).map fun r => (d :: r.1, r.2)
    | none =>
      if c = 'u' then basic (.digits 3 0) t
      else if c = 'U' then basic (.digits 7 0) t
      else .error .invalid
  | .digits left value, c :: t =>
    match hexDigitValue c with
    | none => .error .invalid
    | some d =>
      match left with
      | left + 1 => basic (.digits left (16 * value + d)) t
      | 0 =>
        if (16 * value + d).isValidChar then
          (basic .text t).map fun r => (Char.ofNat (16 * value + d) :: r.1, r.2)
        else .error .invalid

/-- White space, and then this character. -/
def expect (c : Char) (t : List Char) : Except Stop (List Char) :=
  match skipSpace t with
  | [] => .error .beyond
  | d :: t => if d = c then .ok t else .error .beyond

/-- White space, and perhaps a comment. -/
def remark (t : List Char) : Except Stop Unit :=
  match skipSpace t with
  | [] => .ok ()
  | c :: t =>
    if c = '#' then if t.any isControl then .error .invalid else .ok ()
    else .error .beyond

inductive Item where
  | blank
  | header (name : List Char)
  | pair (key value : List Char)
deriving DecidableEq

def isBareKey (c : Char) : Bool := c.isAlphanum || c == '_' || c == '-'

/-- A header, from behind its bracket. -/
def readHeader (t : List Char) : Except Stop Item :=
  if t.takeWhile isBareKey = [] then .error .beyond
  else do
    remark (← expect ']' (t.dropWhile isBareKey))
    return .header (t.takeWhile isBareKey)

/-- A pair, from behind the quote its key begins with. -/
def readPair (t : List Char) : Except Stop Item := do
  let (key, t) ← basic .text t
  let t ← expect '"' (← expect '=' t)
  -- three quotes begin a string of several lines
  if ['"', '"'].isPrefixOf t then .error .beyond
  else
    let (value, t) ← basic .text t
    remark t
    return .pair key value

def readLine (l : List Char) : Except Stop Item :=
  match skipSpace l with
  | [] => .ok .blank
  | c :: t =>
    if c = '"' then readPair t
    else if c = '[' then readHeader t
    else do
      remark (c :: t)
      return .blank

/-- The table so far: its name and its pairs. -/
abbrev Doc := List Char × List (List Char × List Char)

def addItem : Option Doc → Item → Except Stop (Option Doc)
  | doc, .blank => .ok doc
  | none, .header name => .ok (some (name, []))
  | some (name, pairs), .pair key value =>
    if (pairs.lookup key).isSome then .error .invalid
    else .ok (some (name, pairs ++ [(key, value)]))
  | none, .pair _ _ => .error .beyond
  | some _, .header _ => .error .beyond

def readLines (doc : Option Doc) (ls : List (List Char)) : Except Stop (Option Doc) :=
  ls.foldlM (fun doc l => do addItem doc (← readLine l)) doc

/-- The lines: a carriage return goes with the line feed behind it. -/
def linesOf (text : List Char) : List (List Char) :=
  (text.splitOn '\n').dropLast.map dropCr ++ (text.splitOn '\n').getLast?.toList

/-- The one table of a text. -/
def table (text : List Char) : Except Stop Doc := do
  match ← readLines none (linesOf text) with
  | some doc => .ok doc
  | none => .error .beyond

section
variable {doc doc' : Option Doc} {ls ms : List (List Char)} {l : List Char}

theorem readLines_cons :
    readLines doc (l :: ls) = (do readLines (← addItem doc (← readLine l)) ls) := by
  unfold readLines
  rw [List.foldlM_cons, bind_assoc]

theorem readLines_append :
    readLines doc (ls ++ ms) = (do readLines (← readLines doc ls) ms) := by
  unfold readLines
  rw [List.foldlM_append]

theorem readLines_cons_invalid (h : readLine l = .error .invalid) :
    readLines doc (l :: ls) = .error .invalid := by
  rw [readLines_cons, h]
  rfl

theorem readLines_append_invalid (h : readLines doc ls = .error .invalid) :
    readLines doc (ls ++ ms) = .error .invalid := by
  rw [readLines_append, h]
  rfl

theorem readLines_append_ok (h : readLines doc ls = .ok doc') :
    readLines doc (ls ++ ms) = readLines doc' ms := by
  rw [readLines_append, h]
  rfl

theorem readLines_blank : readLines doc [[]] = .ok doc := by
  cases doc <;> rfl

end

/-! ## Lines of remarks -/

/-- Nothing but a comment stands on the line. -/
def isRemark (l : List Char) : Bool :=
  match skipSpace l with
  | [] => true
  | c :: _ => c == '#'

/-- No character that may not stand in a comment. -/
def isClean (l : List Char) : Bool := !l.any isControl

theorem not_isControl_of_isSpace {c : Char} (h : isSpace c = true) : isControl c = false := by
  rcases Bool.or_eq_true _ _ ▸ h with h | h <;> rw [eq_of_beq h] <;> rfl

theorem any_isControl_skipSpace (l : List Char) :
    (skipSpace l).any isControl = l.any isControl := by
  induction l with
  | nil => rfl
  | cons c l ih =>
    cases hc : isSpace c with
    | false => rw [skipSpace, List.dropWhile_cons_of_neg (by simp [hc])]
    | true =>
      rw [skipSpace, List.dropWhile_cons_of_pos hc, List.any_cons, not_isControl_of_isSpace hc,
        Bool.false_or]
      exact ih

theorem remark_of_isRemark {l : List Char} (h : isRemark l = true) :
    remark l = if isClean l then .ok () else .error .invalid := by
  unfold isRemark at h
  unfold remark isClean
  rw [← any_isControl_skipSpace]
  cases hl : skipSpace l with
  | nil => rfl
  | cons c t =>
    rw [hl] at h
    obtain rfl := eq_of_beq h
    have hhash : isControl '#' = false := rfl
    simp only [↓reduceIte, List.any_cons, hhash, Bool.false_or, Bool.not_eq_true']
    cases t.any isControl <;> rfl

theorem readLine_of_isRemark {l : List Char} (h : isRemark l = true) :
    readLine l = if isClean l then .ok .blank else .error .invalid := by
  have hremark := remark_of_isRemark h
  unfold isRemark at h
  unfold remark at hremark
  unfold readLine
  cases hl : skipSpace l with
  | nil =>
    rw [hl] at hremark
    simp only at hremark ⊢
    cases hc : isClean l with
    | true => rfl
    | false =>
      rw [hc] at hremark
      cases hremark
  | cons c t =>
    rw [hl] at h hremark
    obtain rfl := eq_of_beq h
    have hskip : skipSpace ('#' :: t) = '#' :: t := rfl
    simp only [↓reduceIte, Char.reduceEq] at hremark ⊢
    rw [remark, hskip]
    simp only [↓reduceIte]
    rw [hremark]
    cases isClean l <;> rfl

/-- Lines of remarks change nothing, and are no TOML unless all are clean. -/
theorem readLines_remarks {doc : Option Doc} {ls : List (List Char)}
    (h : ∀ l ∈ ls, isRemark l = true) :
    readLines doc ls = if ls.all isClean then .ok doc else .error .invalid := by
  induction ls with
  | nil => rfl
  | cons l ls ih =>
    rw [readLines_cons, readLine_of_isRemark (h l List.mem_cons_self)]
    cases hl : isClean l with
    | false =>
      rw [List.all_cons, hl]
      rfl
    | true =>
      have hadd : addItem doc .blank = .ok doc := by cases doc <;> rfl
      rw [List.all_cons, hl, Bool.true_and, ← ih fun l' hl' => h l' (List.mem_cons_of_mem _ hl')]
      simp only [↓reduceIte, bind, Except.bind, hadd]

/-! ## Strings -/

/-- A text with its quotes escaped, and nothing else. -/
def escapeQuotes (s : List Char) : List Char := s.flatMap fun c => if c = '"' then ['\\', '"'] else [c]

/-- No backslash of the text stands before a quote or at the end, read from behind a
backslash or not. -/
def isSealed : (escaping : Bool) → List Char → Bool
  | escaping, [] => !escaping
  | true, c :: t => c != '"' && isSealed false t
  | false, c :: t => isSealed (c == '\\') t

/-- Nothing in the text but its quotes needs an escape. -/
def isBare (s : List Char) : Bool := s.all fun c => c != '\\' && !isControl c

def Mode.escaping : Mode → Bool
  | .escape => true
  | _ => false

section
variable {s t u rest : List Char} {c : Char} {m : Mode}

@[simp] theorem escapeQuotes_nil : escapeQuotes [] = [] := rfl

theorem escapeQuotes_quote : escapeQuotes ('"' :: s) = '\\' :: '"' :: escapeQuotes s := rfl

theorem escapeQuotes_cons (h : c ≠ '"') : escapeQuotes (c :: s) = c :: escapeQuotes s := by
  unfold escapeQuotes
  rw [List.flatMap_cons, if_neg h]
  rfl

theorem mem_escapeQuotes (hc : c ≠ '\\') : c ∈ escapeQuotes s ↔ c ∈ s := by
  unfold escapeQuotes
  rw [List.mem_flatMap]
  constructor
  · rintro ⟨d, hd, hm⟩
    split at hm
    · next hq =>
      rcases List.mem_cons.1 hm with rfl | hm
      · exact absurd rfl hc
      · rw [List.mem_singleton.1 hm, ← hq]
        exact hd
    · rw [List.mem_singleton.1 hm]
      exact hd
  · intro hm
    refine ⟨c, hm, ?_⟩
    split
    · next hq => simp [hq]
    · exact List.mem_singleton.2 rfl

theorem basic_text_escaped :
    basic .text ('\\' :: '"' :: t) = (basic .text t).map fun r => ('"' :: r.1, r.2) := rfl

theorem basic_text_cons (hq : c ≠ '"') (hb : c ≠ '\\') (hc : isControl c = false) :
    basic .text (c :: t) = (basic .text t).map fun r => (c :: r.1, r.2) := by
  rw [basic, if_neg hq, if_neg hb, hc]
  rfl

/-- **A bare string** is read as it is. -/
theorem basic_of_isBare (h : isBare s = true) :
    basic .text (escapeQuotes s ++ '"' :: rest) = .ok (s, rest) := by
  induction s with
  | nil => rfl
  | cons c s ih =>
    obtain ⟨hc, hs⟩ := Bool.and_eq_true _ _ ▸ h
    obtain ⟨hb, hctl⟩ := Bool.and_eq_true _ _ ▸ hc
    by_cases hq : c = '"'
    · subst hq
      rw [escapeQuotes_quote, List.cons_append, List.cons_append, basic_text_escaped, ih hs]
      rfl
    · rw [escapeQuotes_cons hq, List.cons_append, basic_text_cons hq (by simpa using hb)
        (by simpa using hctl), ih hs]
      rfl

/-- What was read of a string: itself, or something shorter. -/
def Shrunk (s t : List Char) : Prop := isBare s = true ∧ t = s ∨ t.length < s.length

theorem Shrunk.length_le (h : Shrunk s t) : t.length ≤ s.length := by
  rcases h with ⟨-, rfl⟩ | h
  · exact Nat.le_refl _
  · exact Nat.le_of_lt h

theorem Shrunk.cons (h : Shrunk s t) (hb : c ≠ '\\') (hc : isControl c = false) :
    Shrunk (c :: s) (c :: t) := by
  rcases h with ⟨hs, rfl⟩ | h
  · refine .inl ⟨?_, rfl⟩
    unfold isBare at hs ⊢
    rw [List.all_cons, hs, hc]
    simpa using hb
  · exact .inr (Nat.succ_lt_succ h)

theorem hexDigitValue_quote : hexDigitValue '"' = none := by decide

theorem hexDigitValue_backslash : hexDigitValue '\\' = none := by decide

/-- The reader of a sealed string stops at the quote behind it, or the string is no TOML. -/
theorem basic_of_isSealed (h : isSealed m.escaping s = true) :
    basic m (escapeQuotes s ++ '"' :: rest) = .error .invalid ∨
      ∃ t, basic m (escapeQuotes s ++ '"' :: rest) = .ok (t, rest) ∧ t.length ≤ s.length ∧
        (m = .text → Shrunk s t) := by
  induction s generalizing m with
  | nil =>
    cases m with
    | text => exact .inr ⟨[], rfl, Nat.le_refl _, fun _ => .inl ⟨rfl, rfl⟩⟩
    | escape => cases h
    | digits left value =>
      refine .inl ?_
      rw [escapeQuotes_nil, List.nil_append, basic, hexDigitValue_quote]
  | cons c s ih =>
    cases m with
    | text =>
      by_cases hq : c = '"'
      · subst hq
        rw [escapeQuotes_quote, List.cons_append, List.cons_append, basic_text_escaped]
        rcases ih (m := .text) h with hbad | ⟨t, ht, hlen, hshrunk⟩
        · rw [hbad]
          exact .inl rfl
        · rw [ht]
          exact .inr ⟨'"' :: t, rfl, Nat.succ_le_succ hlen,
            fun _ => (hshrunk rfl).cons (by decide) rfl⟩
      · rw [escapeQuotes_cons hq, List.cons_append]
        by_cases hb : c = '\\'
        · subst hb
          rcases ih (m := .escape) h with hbad | ⟨t, ht, hlen, -⟩
          · exact .inl hbad
          · exact .inr ⟨t, ht, Nat.le_succ_of_le hlen, fun _ => .inr (Nat.lt_succ_of_le hlen)⟩
        · cases hc : isControl c with
          | true =>
            refine .inl ?_
            rw [basic, if_neg hq, if_neg hb, hc]
            rfl
          | false =>
            have hne : (c == '\\') = false := by simpa using hb
            rw [basic_text_cons hq hb hc]
            rcases ih (m := .text) (by simpa [isSealed, Mode.escaping, hne] using h) with
              hbad | ⟨t, ht, hlen, hshrunk⟩
            · rw [hbad]
              exact .inl rfl
            · rw [ht]
              exact .inr ⟨c :: t, rfl, Nat.succ_le_succ hlen, fun _ => (hshrunk rfl).cons hb hc⟩
    | escape =>
      obtain ⟨hq, hs⟩ := Bool.and_eq_true _ _ ▸ h
      have hq : c ≠ '"' := by simpa using hq
      rw [escapeQuotes_cons hq, List.cons_append, basic]
      cases hshort : shortEscape c with
      | some d =>
        simp only
        rcases ih (m := .text) hs with hbad | ⟨t, ht, hlen, -⟩
        · rw [hbad]
          exact .inl rfl
        · rw [ht]
          exact .inr ⟨d :: t, rfl, Nat.succ_le_succ hlen, fun h => (by cases h)⟩
      | none =>
        simp only
        have hdigits (left : Nat) := ih (m := .digits left 0) hs
        split
        · rcases hdigits 3 with hbad | ⟨t, ht, hlen, -⟩
          · exact .inl hbad
          · exact .inr ⟨t, ht, Nat.le_succ_of_le hlen, fun h => (by cases h)⟩
        · split
          · rcases hdigits 7 with hbad | ⟨t, ht, hlen, -⟩
            · exact .inl hbad
            · exact .inr ⟨t, ht, Nat.le_succ_of_le hlen, fun h => (by cases h)⟩
          · exact .inl rfl
    | digits left value =>
      by_cases hq : c = '"'
      · subst hq
        refine .inl ?_
        rw [escapeQuotes_quote, List.cons_append, basic, hexDigitValue_backslash]
      · rw [escapeQuotes_cons hq, List.cons_append, basic]
        cases hd : hexDigitValue c with
        | none => exact .inl rfl
        | some d =>
          have hne : (c == '\\') = false := by
            refine beq_false_of_ne fun hb => ?_
            rw [hb, hexDigitValue_backslash] at hd
            cases hd
          have hs : isSealed false s = true := by
            simpa [isSealed, Mode.escaping, hne] using h
          cases left with
          | succ left =>
            rcases ih (m := .digits left (16 * value + d)) hs with hbad | ⟨t, ht, hlen, -⟩
            · exact .inl hbad
            · exact .inr ⟨t, ht, Nat.le_succ_of_le hlen, fun h => (by cases h)⟩
          | zero =>
            simp only
            split
            · rcases ih (m := .text) hs with hbad | ⟨t, ht, hlen, -⟩
              · rw [hbad]
                exact .inl rfl
              · rw [ht]
                exact .inr ⟨_, rfl, Nat.succ_le_succ hlen, fun h => (by cases h)⟩
            · exact .inl rfl

/-- A sealed string that is cut off is no TOML. -/
theorem basic_of_cut (h : isSealed m.escaping s = true) (hu : u <+: escapeQuotes s) :
    basic m u = .error .invalid := by
  induction s generalizing m u with
  | nil =>
    rw [escapeQuotes_nil, List.prefix_nil] at hu
    subst hu
    cases m <;> rfl
  | cons c s ih =>
    cases u with
    | nil => cases m <;> rfl
    | cons d u =>
      by_cases hq : c = '"'
      · subst hq
        rw [escapeQuotes_quote, List.cons_prefix_cons] at hu
        obtain ⟨rfl, hu⟩ := hu
        cases m with
        | text =>
          cases u with
          | nil => rfl
          | cons d u =>
            obtain ⟨rfl, hu'⟩ := List.cons_prefix_cons.1 hu
            rw [basic_text_escaped, ih (m := .text) h hu']
            rfl
        | escape => cases h
        | digits left value => rw [basic, hexDigitValue_backslash]
      · rw [escapeQuotes_cons hq, List.cons_prefix_cons] at hu
        obtain ⟨rfl, hu⟩ := hu
        cases m with
        | text =>
          by_cases hb : d = '\\'
          · subst hb
            exact ih (m := .escape) h hu
          · have hne : (d == '\\') = false := by simpa using hb
            rw [basic, if_neg hq, if_neg hb]
            split
            · rfl
            · rw [ih (m := .text) (by simpa [isSealed, Mode.escaping, hne] using h) hu]
              rfl
        | escape =>
          obtain ⟨-, hs⟩ := Bool.and_eq_true _ _ ▸ h
          have hdigits (left : Nat) := ih (m := .digits left 0) hs hu
          rw [basic]
          cases shortEscape d with
          | some e =>
            simp only
            rw [ih (m := .text) hs hu]
            rfl
          | none =>
            simp only
            rw [hdigits, hdigits]
            simp
        | digits left value =>
          rw [basic]
          cases hd : hexDigitValue d with
          | none => rfl
          | some n =>
            have hne : (d == '\\') = false := by
              refine beq_false_of_ne fun hb => ?_
              rw [hb, hexDigitValue_backslash] at hd
              cases hd
            have hs : isSealed false s = true := by
              simpa [isSealed, Mode.escaping, hne] using h
            cases left with
            | succ left => exact ih (m := .digits left _) hs hu
            | zero =>
              simp only
              rw [ih (m := .text) hs hu]
              split <;> rfl

end

/-! ## Lines of pairs -/

/-- Two strings in quotes, and a remark behind them. -/
def pairLine (key value label : List Char) : List Char :=
  '"' :: (escapeQuotes key ++ '"' :: ' ' :: '=' :: ' ' :: '"' ::
    (escapeQuotes value ++ '"' :: ' ' :: ' ' :: '#' :: ' ' :: label))

section
variable {k v l s t : List Char}

theorem head_escapeQuotes_ne (v : List Char) : (escapeQuotes v).head? ≠ some '"' := by
  cases v with
  | nil => exact fun h => (by cases h)
  | cons c v =>
    by_cases hq : c = '"'
    · subst hq
      rw [escapeQuotes_quote]
      exact fun h => (by cases h)
    · rw [escapeQuotes_cons hq]
      exact fun h => hq (Option.some.inj h)

theorem isPrefixOf_of_head_ne (h : t.head? ≠ some '"') : ['"', '"'].isPrefixOf t = false := by
  cases t with
  | nil => rfl
  | cons c t =>
    rw [List.isPrefixOf_cons_cons, beq_false_of_ne, Bool.false_and]
    rintro rfl
    exact h rfl

theorem isPrefixOf_escapeQuotes (v l : List Char) :
    ['"', '"'].isPrefixOf (escapeQuotes v ++ '"' :: ' ' :: l) = false := by
  cases v with
  | nil => rfl
  | cons c v =>
    refine isPrefixOf_of_head_ne ?_
    rw [List.head?_append_of_ne_nil]
    · exact head_escapeQuotes_ne _
    · unfold escapeQuotes
      rw [List.flatMap_cons]
      split <;> simp

theorem isPrefixOf_of_cut (hu : t <+: escapeQuotes v) : ['"', '"'].isPrefixOf t = false := by
  refine isPrefixOf_of_head_ne fun h => head_escapeQuotes_ne v ?_
  obtain ⟨r, hr⟩ := hu
  rw [← hr, List.head?_append, h]
  rfl

theorem remark_behind (l : List Char) :
    remark (' ' :: ' ' :: '#' :: ' ' :: l) = if isClean l then .ok () else .error .invalid :=
  remark_of_isRemark (l := ' ' :: ' ' :: '#' :: ' ' :: l) rfl

/-- A pair behind its key. -/
theorem readLine_pairLine {k' : List Char}
    (hk : basic .text (escapeQuotes k ++ '"' :: ' ' :: '=' :: ' ' :: '"' ::
      (escapeQuotes v ++ '"' :: ' ' :: ' ' :: '#' :: ' ' :: l)) =
        .ok (k', ' ' :: '=' :: ' ' :: '"' ::
          (escapeQuotes v ++ '"' :: ' ' :: ' ' :: '#' :: ' ' :: l))) :
    readLine (pairLine k v l) = (do
      let (v', t) ← basic .text (escapeQuotes v ++ '"' :: ' ' :: ' ' :: '#' :: ' ' :: l)
      remark t
      return .pair k' v') := by
  have hread : readLine (pairLine k v l) =
      readPair (escapeQuotes k ++ '"' :: ' ' :: '=' :: ' ' :: '"' ::
        (escapeQuotes v ++ '"' :: ' ' :: ' ' :: '#' :: ' ' :: l)) := rfl
  have hequals (t : List Char) : expect '=' (' ' :: '=' :: t) = .ok t := rfl
  have hquote (t : List Char) : expect '"' (' ' :: '"' :: t) = .ok t := rfl
  rw [hread, readPair, hk]
  simp only [bind, Except.bind, hequals, hquote, isPrefixOf_escapeQuotes]
  rfl

theorem readLine_pairLine_of_isBare (hk : isBare k = true) (hv : isBare v = true)
    (hl : isClean l = true) : readLine (pairLine k v l) = .ok (.pair k v) := by
  rw [readLine_pairLine (basic_of_isBare hk), basic_of_isBare hv]
  simp only [bind, Except.bind, remark_behind, hl]
  rfl

theorem readLine_pairLine_of_isSealed (hk : isSealed false k = true)
    (hv : isSealed false v = true) : readLine (pairLine k v l) = .error .invalid ∨
      ∃ k' v', readLine (pairLine k v l) = .ok (.pair k' v') ∧ Shrunk k k' ∧ Shrunk v v' ∧
        isClean l = true := by
  rcases basic_of_isSealed (m := .text) hk with hbad | ⟨k', hk', -, hks⟩
  · refine .inl ?_
    have hread : readLine (pairLine k v l) =
      readPair (escapeQuotes k ++ '"' :: ' ' :: '=' :: ' ' :: '"' ::
        (escapeQuotes v ++ '"' :: ' ' :: ' ' :: '#' :: ' ' :: l)) := rfl
    rw [hread, readPair, hbad]
    rfl
  · rw [readLine_pairLine hk']
    rcases basic_of_isSealed (m := .text) hv with hbad | ⟨v', hv', -, hvs⟩
    · rw [hbad]
      exact .inl rfl
    · rw [hv']
      simp only [bind, Except.bind, remark_behind]
      cases hl : isClean l with
      | false => exact .inl rfl
      | true => exact .inr ⟨k', v', rfl, hks rfl, hvs rfl, rfl⟩

/-- A line that breaks off in one of its strings is no TOML. -/
theorem readLine_of_cut (hk : isSealed false k = true) (hu : t <+: escapeQuotes k) :
    readLine ('"' :: t) = .error .invalid := by
  have hread : readLine ('"' :: t) = readPair t := rfl
  rw [hread, readPair, basic_of_cut (m := .text) hk hu]
  rfl

theorem readLine_of_cut_value (hk : isSealed false k = true) (hv : isSealed false v = true)
    (hu : t <+: escapeQuotes v) :
    readLine ('"' :: (escapeQuotes k ++ '"' :: ' ' :: '=' :: ' ' :: '"' :: t)) =
      .error .invalid := by
  have hread : readLine ('"' :: (escapeQuotes k ++ '"' :: ' ' :: '=' :: ' ' :: '"' :: t)) =
      readPair (escapeQuotes k ++ '"' :: ' ' :: '=' :: ' ' :: '"' :: t) := rfl
  rw [hread, readPair]
  rcases basic_of_isSealed (m := .text) hk with hbad | ⟨k', hk', -, -⟩
  · rw [hbad]
    rfl
  · have hequals (t : List Char) : expect '=' (' ' :: '=' :: t) = .ok t := rfl
    have hquote (t : List Char) : expect '"' (' ' :: '"' :: t) = .ok t := rfl
    rw [hk']
    simp only [bind, Except.bind, hequals, hquote, basic_of_cut (m := .text) hv hu,
      isPrefixOf_of_cut hu]
    rfl

end

/-! ## Pairs and their lines -/

/-- A pair to be written, and the remark behind it. -/
structure Pair where
  key : List Char
  value : List Char
  label : List Char

section
variable {k v l s t : List Char} {p : Pair} {ps es : List Pair} {name : List Char}
  {kvs pairs : List (List Char × List Char)}

theorem dropCr_isPrefix (l : List Char) : dropCr l <+: l := by
  unfold dropCr
  split
  · exact List.dropLast_prefix _
  · exact List.prefix_refl _

theorem dropCr_append (h : s.getLast? ≠ some '\r') : dropCr (s ++ l) = s ++ dropCr l := by
  unfold dropCr
  cases l with
  | nil =>
    rw [List.append_nil, if_neg h]
    exact (List.append_nil s).symm
  | cons c l =>
    rw [List.getLast?_append_of_ne_nil _ (List.cons_ne_nil _ _)]
    split
    · exact List.dropLast_append_of_ne_nil (List.cons_ne_nil _ _)
    · rfl

theorem splitOn_append (h : '\n' ∉ s) (t : List Char) :
    (s ++ t).splitOn '\n' = (t.splitOn '\n').modifyHead (s ++ ·) := by
  induction s with
  | nil => cases ht : t.splitOn '\n' <;> simp [ht]
  | cons c s ih =>
    have hc : ¬ (c == '\n') = true := by
      simpa using fun heq : c = '\n' => h (heq ▸ List.mem_cons_self)
    rw [List.cons_append, List.splitOn_cons_eq_if_modifyHead, if_neg hc,
      ih fun hm => h (List.mem_cons_of_mem _ hm), List.modifyHead_modifyHead]
    rfl

theorem pairLine_append (k v l : List Char) : pairLine k v l = pairLine k v [] ++ l := by
  simp [pairLine]

theorem escapeQuotes_append (s t : List Char) :
    escapeQuotes (s ++ t) = escapeQuotes s ++ escapeQuotes t := List.flatMap_append

/-- The lines a pair is written on. -/
def Pair.lines (p : Pair) : List (List Char) :=
  ((pairLine p.key p.value p.label).splitOn '\n').map dropCr

/-- The pair and its remark each stay where they are written. -/
structure Pair.Held (p : Pair) : Prop where
  key : isSealed false p.key = true
  value : isSealed false p.value = true
  label : ∀ l ∈ (p.label.splitOn '\n').tail, isRemark (dropCr l) = true

/-- A remark without characters that may not stand in it. -/
def isCleanRemark (label : List Char) : Bool :=
  (label.splitOn '\n').all fun l => isClean (dropCr l)

/-- What is written of the pair says just what the pair is. -/
structure Pair.Faithful (p : Pair) : Prop where
  key : isBare p.key = true
  value : isBare p.value = true
  label : isCleanRemark p.label = true

theorem Pair.lines_eq (hk : '\n' ∉ p.key) (hv : '\n' ∉ p.value) : ∃ l ls,
    p.label.splitOn '\n' = l :: ls ∧
      p.lines = pairLine p.key p.value (dropCr l) :: ls.map dropCr := by
  have hX : '\n' ∉ pairLine p.key p.value [] := by
    simp only [pairLine, List.mem_cons, List.mem_append, mem_escapeQuotes (c := '\n') (by decide)]
    simp [hk, hv]
  have hlast : (pairLine p.key p.value []).getLast? ≠ some '\r' := by
    simp [pairLine, List.getLast?_cons]
  cases hl : p.label.splitOn '\n' with
  | nil => exact absurd hl (List.splitOn_ne_nil _ _)
  | cons l ls =>
    refine ⟨l, ls, rfl, ?_⟩
    rw [Pair.lines, pairLine_append, splitOn_append hX, hl, List.modifyHead_cons, List.map_cons,
      dropCr_append hlast, ← pairLine_append]

/-- A line feed in one of the strings breaks it off. -/
theorem Pair.lines_of_cut (hp : p.Held) (h : '\n' ∈ p.key ∨ '\n' ∈ p.value) : ∃ u ls,
    p.lines = u :: ls ∧ readLine u = .error .invalid := by
  by_cases hk : '\n' ∈ p.key
  · obtain ⟨a, b, hab, ha⟩ := List.eq_append_cons_of_mem hk
    have hfront : '\n' ∉ '"' :: escapeQuotes a := by
      simpa [mem_escapeQuotes (c := '\n') (by decide)] using ha
    have hsplit : pairLine p.key p.value p.label = ('"' :: escapeQuotes a) ++ '\n' ::
        (escapeQuotes b ++ '"' :: ' ' :: '=' :: ' ' :: '"' ::
          (escapeQuotes p.value ++ '"' :: ' ' :: ' ' :: '#' :: ' ' :: p.label)) := by
      rw [pairLine, hab, escapeQuotes_append, escapeQuotes_cons (by decide)]
      simp
    have hdrop : dropCr ('"' :: escapeQuotes a) = '"' :: dropCr (escapeQuotes a) :=
      dropCr_append (s := ['"']) (by simp)
    refine ⟨_, _, by rw [Pair.lines, hsplit, List.splitOn_append_cons_self_of_not_mem hfront,
      List.map_cons, hdrop], readLine_of_cut hp.key ?_⟩
    refine (dropCr_isPrefix _).trans ?_
    rw [hab, escapeQuotes_append]
    exact List.prefix_append _ _
  · have hv : '\n' ∈ p.value := h.resolve_left hk
    obtain ⟨a, b, hab, ha⟩ := List.eq_append_cons_of_mem hv
    have hfront : '\n' ∉ '"' :: (escapeQuotes p.key ++ '"' :: ' ' :: '=' :: ' ' :: '"' ::
        escapeQuotes a) := by
      simpa [mem_escapeQuotes (c := '\n') (by decide)] using ⟨hk, ha⟩
    have hsplit : pairLine p.key p.value p.label =
        ('"' :: (escapeQuotes p.key ++ '"' :: ' ' :: '=' :: ' ' :: '"' :: escapeQuotes a)) ++
          '\n' :: (escapeQuotes b ++ '"' :: ' ' :: ' ' :: '#' :: ' ' :: p.label) := by
      rw [pairLine, hab, escapeQuotes_append, escapeQuotes_cons (by decide)]
      simp
    have hdrop : dropCr ('"' :: (escapeQuotes p.key ++ '"' :: ' ' :: '=' :: ' ' :: '"' ::
        escapeQuotes a)) = '"' :: (escapeQuotes p.key ++ '"' :: ' ' :: '=' :: ' ' :: '"' ::
          dropCr (escapeQuotes a)) := by
      have := dropCr_append (l := escapeQuotes a)
        (s := '"' :: (escapeQuotes p.key ++ ['"', ' ', '=', ' ', '"'])) (by
          simp [List.getLast?_cons])
      simpa using this
    refine ⟨_, _, by rw [Pair.lines, hsplit, List.splitOn_append_cons_self_of_not_mem hfront,
      List.map_cons, hdrop], readLine_of_cut_value hp.key hp.value ?_⟩
    refine (dropCr_isPrefix _).trans ?_
    rw [hab, escapeQuotes_append]
    exact List.prefix_append _ _

theorem isCleanRemark_eq {l : List Char} {ls : List (List Char)} {label : List Char}
    (h : label.splitOn '\n' = l :: ls) :
    isCleanRemark label = (isClean (dropCr l) && (ls.map dropCr).all isClean) := by
  rw [isCleanRemark, h, List.all_cons, List.all_map]
  rfl

/-- What was read of a pair. -/
structure Pair.Read (p : Pair) (kv : List Char × List Char) : Prop where
  key : Shrunk p.key kv.1
  value : Shrunk p.value kv.2

variable (name pairs) in
/-- **One pair**: its lines are no TOML, or they add one pair that is no longer. -/
theorem readLines_pair (hp : p.Held) :
    readLines (some (name, pairs)) p.lines = .error .invalid ∨
      ∃ kv, readLines (some (name, pairs)) p.lines = .ok (some (name, pairs ++ [kv])) ∧
        pairs.lookup kv.1 = none ∧ p.Read kv ∧ isCleanRemark p.label = true := by
  by_cases hcut : '\n' ∈ p.key ∨ '\n' ∈ p.value
  · obtain ⟨u, ls, hlines, hu⟩ := Pair.lines_of_cut hp hcut
    rw [hlines]
    exact .inl (readLines_cons_invalid hu)
  · obtain ⟨hk, hv⟩ := not_or.1 hcut
    obtain ⟨l, ls, hsplit, hlines⟩ := Pair.lines_eq hk hv
    have hrest : ∀ l' ∈ ls.map dropCr, isRemark l' = true := by
      intro l' hl'
      obtain ⟨l₀, hl₀, rfl⟩ := List.mem_map.1 hl'
      exact hp.label l₀ (by rw [hsplit]; exact hl₀)
    rw [hlines, isCleanRemark_eq hsplit]
    rcases readLine_pairLine_of_isSealed (l := dropCr l) hp.key hp.value with
      hbad | ⟨k', v', hread, hk', hv', hl⟩
    · exact .inl (readLines_cons_invalid hbad)
    · rw [readLines_cons, hread]
      simp only [bind, Except.bind, addItem]
      cases hlook : pairs.lookup k' with
      | some v₀ => exact .inl rfl
      | none =>
        simp only [Option.isSome_none, Bool.false_eq_true, ↓reduceIte]
        rw [readLines_remarks hrest, hl, Bool.true_and]
        cases (ls.map dropCr).all isClean with
        | false => exact .inl rfl
        | true => exact .inr ⟨(k', v'), rfl, hlook, ⟨hk', hv'⟩, rfl⟩

theorem not_mem_of_isBare (h : isBare s = true) : '\n' ∉ s := by
  intro hm
  have hctl := (Bool.and_eq_true _ _ ▸ List.all_eq_true.1 h _ hm).2
  exact absurd hctl (by decide)

/-- A faithful pair is added as it is. -/
theorem readLines_pair_of_faithful (hp : p.Held) (hf : p.Faithful)
    (hno : pairs.lookup p.key = none) :
    readLines (some (name, pairs)) p.lines = .ok (some (name, pairs ++ [(p.key, p.value)])) := by
  obtain ⟨l, ls, hsplit, hlines⟩ :=
    Pair.lines_eq (not_mem_of_isBare hf.key) (not_mem_of_isBare hf.value)
  have hrest : ∀ l' ∈ ls.map dropCr, isRemark l' = true := by
    intro l' hl'
    obtain ⟨l₀, hl₀, rfl⟩ := List.mem_map.1 hl'
    exact hp.label l₀ (by rw [hsplit]; exact hl₀)
  have hclean := hf.label
  rw [isCleanRemark_eq hsplit, Bool.and_eq_true] at hclean
  rw [hlines, readLines_cons, readLine_pairLine_of_isBare hf.key hf.value hclean.1]
  simp only [bind, Except.bind, addItem, hno, Option.isSome_none, Bool.false_eq_true, ↓reduceIte]
  rw [readLines_remarks hrest, hclean.2]
  rfl

theorem lookup_eq_none_iff {k : List Char} : pairs.lookup k = none ↔ k ∉ pairs.map Prod.fst := by
  rw [List.lookup_eq_none_iff, List.mem_map]
  constructor
  · rintro h ⟨kv, hkv, rfl⟩
    exact absurd (h kv hkv) (by simp)
  · intro h kv hkv
    exact bne_iff_ne.2 fun heq => h ⟨kv, hkv, heq.symm⟩

theorem lookup_eq_some_iff {k v : List Char} (hnd : (pairs.map Prod.fst).Nodup) :
    pairs.lookup k = some v ↔ (k, v) ∈ pairs := by
  induction pairs with
  | nil => simp
  | cons kv pairs ih =>
    obtain ⟨k₀, v₀⟩ := kv
    rw [List.map_cons, List.nodup_cons] at hnd
    rw [List.lookup_cons, List.mem_cons, Prod.mk.injEq]
    by_cases hk : k = k₀
    · subst hk
      rw [beq_self_eq_true]
      constructor
      · intro h
        exact .inl ⟨rfl, (Option.some.inj h).symm⟩
      · rintro (⟨-, rfl⟩ | hm)
        · rfl
        · exact absurd (List.mem_map_of_mem hm) hnd.1
    · rw [beq_false_of_ne hk]
      simp only [hk, false_and, false_or]
      exact ih hnd.2

theorem nodup_concat {kv : List Char × List Char} (hnd : (pairs.map Prod.fst).Nodup)
    (hno : pairs.lookup kv.1 = none) : ((pairs ++ [kv]).map Prod.fst).Nodup := by
  rw [List.map_append, List.map_singleton]
  refine List.nodup_append.2 ⟨hnd, List.nodup_singleton _, fun a ha b hb heq => ?_⟩
  rw [heq, List.mem_singleton.1 hb] at ha
  exact lookup_eq_none_iff.1 hno ha

variable (name pairs) in
/-- **Pairs one after the other**: their text is no TOML, or each line adds one pair. -/
theorem readLines_pairs (hps : ∀ p ∈ ps, p.Held) (hnd : (pairs.map Prod.fst).Nodup) :
    readLines (some (name, pairs)) (ps.flatMap Pair.lines) = .error .invalid ∨
      ∃ kvs, readLines (some (name, pairs)) (ps.flatMap Pair.lines) =
          .ok (some (name, pairs ++ kvs)) ∧
        List.Forall₂ Pair.Read ps kvs ∧ ((pairs ++ kvs).map Prod.fst).Nodup ∧
        ∀ p ∈ ps, isCleanRemark p.label = true := by
  induction ps generalizing pairs with
  | nil =>
    refine .inr ⟨[], ?_, .nil, ?_, fun _ hp => absurd hp List.not_mem_nil⟩
    · rw [List.append_nil]
      rfl
    · rw [List.append_nil]
      exact hnd
  | cons p ps ih =>
    obtain ⟨hp, hps⟩ := List.forall_mem_cons.1 hps
    rw [List.flatMap_cons]
    rcases readLines_pair name pairs hp with
      hbad | ⟨kv, hok, hno, hread, hclean⟩
    · exact .inl (readLines_append_invalid hbad)
    · rw [readLines_append_ok hok]
      rcases ih (pairs ++ [kv]) hps (nodup_concat hnd hno) with hbad | ⟨kvs, hok', hall, hnd', hcleans⟩
      · exact .inl hbad
      · rw [List.append_assoc] at hok' hnd'
        exact .inr ⟨kv :: kvs, hok', .cons hread hall, hnd',
          List.forall_mem_cons.2 ⟨hclean, hcleans⟩⟩

def Pair.entry (p : Pair) : List Char × List Char := (p.key, p.value)

theorem readLines_pairs_of_faithful (hps : ∀ p ∈ ps, p.Held ∧ p.Faithful)
    (hnd : (pairs.map Prod.fst ++ ps.map Pair.key).Nodup) :
    readLines (some (name, pairs)) (ps.flatMap Pair.lines) =
      .ok (some (name, pairs ++ ps.map Pair.entry)) := by
  induction ps generalizing pairs with
  | nil =>
    rw [List.map_nil, List.append_nil]
    rfl
  | cons p ps ih =>
    obtain ⟨⟨hp, hf⟩, hps⟩ := List.forall_mem_cons.1 hps
    have hno : pairs.lookup p.key = none := by
      refine lookup_eq_none_iff.2 fun hm => ?_
      exact (List.nodup_append.1 hnd).2.2 _ hm _ List.mem_cons_self rfl
    rw [List.flatMap_cons, readLines_append_ok (readLines_pair_of_faithful hp hf hno), ih hps,
      List.append_assoc]
    · rfl
    · rw [List.map_append, List.append_assoc]
      exact hnd

/-! ## Nothing is hidden where nothing is added -/

def size (kv : List Char × List Char) : Nat := kv.1.length + kv.2.length

theorem Pair.Read.size_le {kv : List Char × List Char} (h : p.Read kv) : size kv ≤ size p.entry :=
  Nat.add_le_add h.key.length_le h.value.length_le

theorem Pair.Read.eq_of_size {kv : List Char × List Char} (h : p.Read kv)
    (hs : size p.entry ≤ size kv) : kv = p.entry ∧ isBare p.key = true ∧ isBare p.value = true := by
  have hk := h.key.length_le
  have hv := h.value.length_le
  unfold size Pair.entry at hs
  simp only at hs
  rcases h.key with ⟨hbk, hkey⟩ | hlt
  · rcases h.value with ⟨hbv, hvalue⟩ | hlt
    · exact ⟨Prod.ext hkey hvalue, hbk, hbv⟩
    · omega
  · omega

theorem sum_size_le (h : List.Forall₂ Pair.Read ps kvs) :
    (kvs.map size).sum ≤ (ps.map fun p => size p.entry).sum := by
  induction h with
  | nil => exact Nat.le_refl _
  | cons hread _ ih => exact Nat.add_le_add hread.size_le ih

theorem eq_of_sum_size (h : List.Forall₂ Pair.Read ps kvs)
    (hs : (ps.map fun p => size p.entry).sum ≤ (kvs.map size).sum) :
    kvs = ps.map Pair.entry ∧ ∀ p ∈ ps, isBare p.key = true ∧ isBare p.value = true := by
  induction h with
  | nil => exact ⟨rfl, fun _ hp => absurd hp List.not_mem_nil⟩
  | cons hread hall ih =>
    have hhead := hread.size_le
    have htail := sum_size_le hall
    simp only [List.map_cons, List.sum_cons] at hs
    obtain ⟨hkv, hbare⟩ := hread.eq_of_size (by omega)
    obtain ⟨hkvs, hbares⟩ := ih (by omega)
    exact ⟨by rw [List.map_cons, hkv, hkvs], List.forall_mem_cons.2 ⟨hbare, hbares⟩⟩

/-- **If only pairs of `es` were read**, these were all the pairs, and each was read as it is. -/
theorem eq_of_subset (hall : List.Forall₂ Pair.Read ps kvs) (hnd : (kvs.map Prod.fst).Nodup)
    (hes : es.Sublist ps) (hsub : ∀ kv ∈ kvs, ∃ p ∈ es, p.entry = kv) :
    es = ps ∧ kvs = ps.map Pair.entry ∧ ∀ p ∈ ps, isBare p.key = true ∧ isBare p.value = true := by
  have hsubset : kvs ⊆ es.map Pair.entry := fun kv hkv => List.mem_map.2 (hsub kv hkv)
  have hsubperm := List.subperm_of_subset (List.Nodup.of_map _ hnd) hsubset
  have hlength := hall.length_eq
  have hle : es.length ≤ kvs.length := hlength ▸ hes.length_le
  have hperm := hsubperm.perm_of_length_le (by rw [List.length_map]; exact hle)
  have heq : es = ps := by
    refine hes.eq_of_length_le ?_
    rw [hlength, hperm.length_eq, List.length_map]
  refine ⟨heq, eq_of_sum_size hall ?_⟩
  rw [(hperm.map size).sum_eq, heq, List.map_map]
  exact Nat.le_refl _

/-! ## Texts of whole lines -/

theorem splitOn_flatMap (xs : List (List Char)) :
    (xs.flatMap (· ++ ['\n'])).splitOn '\n' = xs.flatMap (·.splitOn '\n') ++ [[]] := by
  induction xs with
  | nil => rfl
  | cons x xs ih =>
    rw [List.flatMap_cons, List.append_assoc, List.singleton_append, List.splitOn_append_cons_self,
      ih, List.flatMap_cons, List.append_assoc]

theorem linesOf_flatMap (xs : List (List Char)) :
    linesOf (xs.flatMap (· ++ ['\n'])) =
      xs.flatMap (fun x => (x.splitOn '\n').map dropCr) ++ [[]] := by
  rw [linesOf, splitOn_flatMap, List.dropLast_concat, List.getLast?_concat, List.map_flatMap]
  rfl

end

end Arlen.Lib.TomlText
