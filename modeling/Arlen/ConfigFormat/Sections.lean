import Arlen.ConfigFormat.Confined
import Arlen.ConfigFormat.Dotenv

/-!
# The section a key of an INI file lands in

Reading joins a section's name and a local key with a dot; inserting splits the path at its
first dot. Where the name has a dot of its own, the new line goes into another section, and
where two names lie one below the other, two keys have one path. The self-check compares
paths only and sees neither.
-/

namespace Arlen.ConfigFormat

open Arlen.Lib

variable {F : Type} {f64 : Float64 F} {text out path name localKey k k' S S' raw line token : Str}
  {ls pre post body rest : List Str} {sec sec' : Option Str} {value v : ConfigValue F}

/-! ## Lines and the section they stand in -/

/-- What a line reads by itself, its key without the section. -/
def readLine (f64 : Float64 F) (raw : Str) : Option (Str × ConfigValue F) :=
  (parseLine f64 LineFormat.ini.dialect none raw).entry

/-- The section a line opens. -/
def opens (f64 : Float64 F) (raw : Str) : Option Str :=
  (parseLine f64 LineFormat.ini.dialect none raw).heading

/-- The section behind lines. -/
def standing (f64 : Float64 F) (pre : List Str) : Option Str :=
  sectionAfter f64 LineFormat.ini.dialect none pre

/-- The path of a local key. -/
def keyPath (sec : Option Str) (k : Str) : Str := fullKey LineFormat.ini.dialect sec k

@[simp] theorem keyPath_none (k : Str) : keyPath none k = k := rfl

@[simp] theorem keyPath_some (S k : Str) : keyPath (some S) k = S ++ '.' :: k := rfl

/-- A line of the section has the local key. -/
def HasKey (f64 : Float64 F) (ls : List Str) (sec : Option Str) (k : Str) : Prop :=
  ∃ pre raw post v, ls = pre ++ raw :: post ∧ standing f64 pre = sec ∧
    readLine f64 raw = some (k, v)

/-- The section has a header. -/
def HasHeader (f64 : Float64 F) (ls : List Str) (S : Str) : Prop :=
  ∃ header ∈ ls, opens f64 header = some S

theorem keyPath_inj (h : keyPath sec k = keyPath sec k') : k = k' := by
  cases sec with
  | none => exact h
  | some S => exact (List.cons.inj (List.append_cancel_left h)).2

/-- A line reads the same in every section, but for the path of its key. -/
theorem entry_eq (f64 : Float64 F) (sec : Option Str) (raw : Str) :
    (parseLine f64 LineFormat.ini.dialect sec raw).entry =
        (readLine f64 raw).map (fun e => (keyPath sec e.1, e.2)) ∧
      (parseLine f64 LineFormat.ini.dialect sec raw).heading = opens f64 raw := by
  have hkeys : ∀ sec, (parseKeyLine f64 raw LineFormat.ini.dialect sec).map
      (fun kv => (kv.key, kv.value)) =
        (head LineFormat.ini.dialect raw).bind fun p =>
          (behind LineFormat.ini.dialect (Text.trimStart p.2)).map fun t =>
            (keyPath sec p.1, scalar f64 LineFormat.ini.dialect t) := by
    intro sec
    rw [parseKeyLine_eq LineFormat.ini.proper, Option.map_bind]
    rfl
  have hsame : (parseKeyLine f64 raw LineFormat.ini.dialect sec).map
      (fun kv => (kv.key, kv.value)) =
        ((parseKeyLine f64 raw LineFormat.ini.dialect none).map fun kv => (kv.key, kv.value)).map
          fun e => (keyPath sec e.1, e.2) := by
    rw [hkeys, hkeys, Option.map_bind]
    rfl
  unfold readLine opens parseLine
  dsimp only
  split
  · exact ⟨rfl, rfl⟩
  · split
    · exact ⟨rfl, rfl⟩
    · revert hsame
      cases parseKeyLine f64 raw LineFormat.ini.dialect sec with
      | none =>
        cases parseKeyLine f64 raw LineFormat.ini.dialect none with
        | none => exact fun _ => ⟨rfl, rfl⟩
        | some kv => exact fun h => by cases h
      | some kv' =>
        cases parseKeyLine f64 raw LineFormat.ini.dialect none with
        | none => exact fun h => by cases h
        | some kv => exact fun h => ⟨h, rfl⟩

theorem opens_none_of_readLine {e : Str × ConfigValue F} (h : readLine f64 raw = some e) :
    opens f64 raw = none := by
  unfold readLine at h
  unfold opens
  cases hline : parseLine f64 LineFormat.ini.dialect none raw with
  | keyVal kv => rfl
  | header r name =>
    rw [hline] at h
    cases h
  | other r =>
    rw [hline] at h
    cases h

theorem sectionAfter_eq (f64 : Float64 F) (sec : Option Str) (ls : List Str) :
    sectionAfter f64 LineFormat.ini.dialect sec ls =
      ls.foldl (fun sec raw => (opens f64 raw).or sec) sec := by
  unfold sectionAfter
  congr 1
  funext sec raw
  rw [(entry_eq f64 sec raw).2]

theorem standing_append (pre ls : List Str) : standing f64 (pre ++ ls) =
    ls.foldl (fun sec raw => (opens f64 raw).or sec) (standing f64 pre) := by
  unfold standing
  rw [sectionAfter_eq, sectionAfter_eq, List.foldl_append]

theorem foldl_opens_of_none (h : ∀ l ∈ body, opens f64 l = none) (sec : Option Str) :
    body.foldl (fun sec raw => (opens f64 raw).or sec) sec = sec := by
  induction body with
  | nil => rfl
  | cons l body ih =>
    rw [List.foldl_cons, h l List.mem_cons_self, Option.none_or,
      ih fun l hl => h l (List.mem_cons_of_mem _ hl)]

/-- Behind a header and lines that are none, its section stands. -/
theorem standing_section {header : Str} (hheader : opens f64 header = some S)
    (hbody : ∀ l ∈ body, opens f64 l = none) : standing f64 (pre ++ header :: body) = some S := by
  rw [standing_append, List.foldl_cons, hheader, Option.some_or, foldl_opens_of_none hbody]

/-! ## What is read -/

/-- The entries are the lines with a key, each with its path. -/
theorem mem_entries : (path, v) ∈ entries f64 LineFormat.ini.dialect none ls ↔
    ∃ pre raw post k, ls = pre ++ raw :: post ∧ readLine f64 raw = some (k, v) ∧
      keyPath (standing f64 pre) k = path := by
  have hmem : ∀ sec raw, (path, v) ∈ (parseLine f64 LineFormat.ini.dialect sec raw).entry.toList ↔
      ∃ k, readLine f64 raw = some (k, v) ∧ keyPath sec k = path := by
    intro sec raw
    rw [(entry_eq f64 sec raw).1, Option.mem_toList, Option.map_eq_some_iff]
    constructor
    · rintro ⟨⟨k, v'⟩, hread, heq⟩
      obtain ⟨hpath, rfl⟩ := Prod.mk.inj heq
      exact ⟨k, hread, hpath⟩
    · rintro ⟨k, hread, rfl⟩
      exact ⟨(k, v), hread, rfl⟩
  constructor
  · induction ls using List.reverseRecOn with
    | nil => exact fun h => by cases h
    | append_singleton ls raw ih =>
      intro h
      rw [entries_append, List.mem_append, entries_singleton, hmem] at h
      rcases h with h | ⟨k, hread, hpath⟩
      · obtain ⟨pre, raw', post, k, rfl, hread, hpath⟩ := ih h
        exact ⟨pre, raw', post ++ [raw], k, by simp, hread, hpath⟩
      · exact ⟨ls, raw, [], k, rfl, hread, hpath⟩
  · rintro ⟨pre, raw, post, k, rfl, hread, hpath⟩
    rw [entries_append, entries_cons]
    exact List.mem_append_right _ (List.mem_append_left _ ((hmem _ raw).mpr ⟨k, hread, hpath⟩))

/-- A line carries the path if a section with that key does. -/
theorem not_carries_iff : (∀ line ∈ parseLines f64 LineFormat.ini.dialect none ls,
      LineModel.carries path line = false) ↔
    ∀ sec k, HasKey f64 ls sec k → keyPath sec k ≠ path := by
  have hcarries : (∀ line ∈ parseLines f64 LineFormat.ini.dialect none ls,
      LineModel.carries path line = false) ↔
        ∀ v, (path, v) ∉ entries f64 LineFormat.ini.dialect none ls := by
    constructor
    · intro h v hmem
      obtain ⟨line, hline, hentry⟩ := List.mem_filterMap.1 hmem
      have hno := h line hline
      cases line with
      | keyVal kv =>
        cases hentry
        exact absurd hno (by simp [LineModel.carries])
      | header r name => cases hentry
      | other r => cases hentry
    · intro h line hline
      cases line with
      | keyVal kv =>
        refine beq_eq_false_iff_ne.mpr fun hkey => h kv.value ?_
        rw [← hkey]
        exact List.mem_filterMap.2 ⟨_, hline, rfl⟩
      | header r name => rfl
      | other r => rfl
  rw [hcarries]
  constructor
  · rintro h sec k ⟨pre, raw, post, v, hcut, hsec, hread⟩ hpath
    exact h v (mem_entries.mpr ⟨pre, raw, post, k, hcut, hread, by rw [hsec, hpath]⟩)
  · intro h v hmem
    obtain ⟨pre, raw, post, k, hcut, hread, hpath⟩ := mem_entries.mp hmem
    exact h _ k ⟨pre, raw, post, v, hcut, rfl, hread⟩ hpath

/-! ## Shared paths -/

/-- Another section has a key with the path of `k` in `S`: before the first header, in a
section below `S`, or in one above it. -/
def Shared (f64 : Float64 F) (ls : List Str) (S k : Str) : Prop :=
  HasKey f64 ls none (S ++ '.' :: k) ∨
    (∃ m k', k = m ++ '.' :: k' ∧ HasKey f64 ls (some (S ++ '.' :: m)) k') ∨
      ∃ S' m, S = S' ++ '.' :: m ∧ HasKey f64 ls (some S') (m ++ '.' :: k)

/-- Two ways to cut a path at a dot. -/
theorem cut_cases (h : S' ++ '.' :: k' = S ++ '.' :: k) :
    S' = S ∧ k' = k ∨ (∃ m, S' = S ++ '.' :: m ∧ k = m ++ '.' :: k') ∨
      ∃ m, S = S' ++ '.' :: m ∧ k' = m ++ '.' :: k := by
  rcases List.append_eq_append_iff.mp h with ⟨t, ht, htail⟩ | ⟨t, ht, htail⟩
  · cases t with
    | nil => exact .inl ⟨by rw [ht, List.append_nil], (List.cons.inj htail).2⟩
    | cons c t =>
      obtain ⟨rfl, rfl⟩ := List.cons.inj htail
      exact .inr (.inr ⟨t, ht, rfl⟩)
  · cases t with
    | nil => exact .inl ⟨by rw [ht, List.append_nil], (List.cons.inj htail).2.symm⟩
    | cons c t =>
      obtain ⟨rfl, rfl⟩ := List.cons.inj htail
      exact .inr (.inl ⟨t, ht, rfl⟩)

theorem shared_iff : Shared f64 ls S k ↔
    ∃ sec k', HasKey f64 ls sec k' ∧ keyPath sec k' = S ++ '.' :: k ∧
      ¬ (sec = some S ∧ k' = k) := by
  constructor
  · rintro (h | ⟨m, k', rfl, h⟩ | ⟨S', m, rfl, h⟩)
    · exact ⟨none, _, h, rfl, fun hsame => by cases hsame.1⟩
    · refine ⟨some _, k', h, by simp, fun hsame => ?_⟩
      have := congrArg List.length hsame.2
      simp at this
      omega
    · refine ⟨some S', _, h, by simp, fun hsame => ?_⟩
      have := congrArg List.length hsame.2
      simp at this
      omega
  · rintro ⟨sec, k', h, hpath, hne⟩
    cases sec with
    | none =>
      rw [keyPath_none] at hpath
      rw [hpath] at h
      exact .inl h
    | some S' =>
      rw [keyPath_some] at hpath
      rcases cut_cases hpath with ⟨rfl, rfl⟩ | ⟨m, rfl, rfl⟩ | ⟨m, rfl, rfl⟩
      · exact absurd ⟨rfl, rfl⟩ hne
      · exact .inr (.inl ⟨m, k', rfl, h⟩)
      · exact .inr (.inr ⟨S', m, rfl, h⟩)

/-- No other pair of section and key has the path exactly if it is not shared. -/
theorem own_path_iff : (∀ sec k', HasKey f64 ls sec k' → keyPath sec k' = S ++ '.' :: k →
      sec = some S ∧ k' = k) ↔ ¬ Shared f64 ls S k := by
  rw [shared_iff]
  constructor
  · rintro h ⟨sec, k', hkey, hpath, hne⟩
    exact hne (h sec k' hkey hpath)
  · intro h sec k' hkey hpath
    by_contra hne
    exact h ⟨sec, k', hkey, hpath, hne⟩

/-! ## A line inserted -/

/-- The new line stands between a header of the section and the next one, and reads the key
with the value; the other lines are as they were. -/
def Placed (f64 : Float64 F) (text out S k : Str) (value : ConfigValue F) : Prop :=
  ∃ pre header body line rest, splitLines text = pre ++ header :: (body ++ rest) ∧
    opens f64 header = some S ∧ (∀ l ∈ body, opens f64 l = none) ∧ '\n' ∉ line ∧
    readLine f64 line = some (k, value) ∧
    out = LineModel.emitText (pre ++ header :: (body ++ line :: rest)) (text.getLast? == some '\n')

theorem emitText_inj {ls ls' : List Str} {newline : Bool} (hls : ∀ l ∈ ls, '\n' ∉ l)
    (hls' : ∀ l ∈ ls', '\n' ∉ l) (hne : ls ≠ []) (hne' : ls' ≠ [])
    (h : LineModel.emitText ls newline = LineModel.emitText ls' newline) : ls = ls' := by
  have hempty : ls.isEmpty = false := by simpa using hne
  have hempty' : ls'.isEmpty = false := by simpa using hne'
  unfold LineModel.emitText at h
  rw [hempty, hempty'] at h
  have hjoin := congrArg (List.splitOn '\n') (List.append_cancel_right h)
  rwa [List.splitOn_intercalate '\n' hls hne, List.splitOn_intercalate '\n' hls' hne'] at hjoin

theorem oneLined_inserted {body : List Str} {header : Str} (hcut : splitLines text =
    pre ++ header :: (body ++ rest)) (hline : '\n' ∉ line) :
    ∀ l ∈ pre ++ header :: (body ++ line :: rest), '\n' ∉ l := by
  have hlines : ∀ l ∈ pre ++ header :: (body ++ rest), '\n' ∉ l := by
    rw [← hcut]
    exact fun l hl => not_mem_of_mem_splitLines hl
  intro l hl
  simp only [List.mem_append, List.mem_cons] at hl hlines
  rcases hl with hl | rfl | hl | rfl | hl
  · exact hlines l (.inl hl)
  · exact hlines l (.inr (.inl rfl))
  · exact hlines l (.inr (.inr (.inl hl)))
  · exact hline
  · exact hlines l (.inr (.inr (.inr hl)))

/-- Where a text has a new line, the line is determined, and so is its key. -/
theorem placed_key_unique (h : Placed f64 text out S k value) (h' : Placed f64 text out S' k' v) :
    k = k' := by
  obtain ⟨pre, header, body, line, rest, hcut, -, -, hline, hread, rfl⟩ := h
  obtain ⟨pre', header', body', line', rest', hcut', -, -, hline', hread', hout⟩ := h'
  have hlines := emitText_inj (oneLined_inserted hcut hline) (oneLined_inserted hcut' hline')
    (by simp) (by simp) hout
  have hperm : ∀ (p : List Str) (x : Str) (b r : List Str) (y : Str),
      (p ++ x :: (b ++ y :: r)).Perm (y :: (p ++ x :: (b ++ r))) := by
    intro p x b r y
    have hmiddle := @List.perm_middle _ y (p ++ x :: b) r
    simpa only [List.append_assoc, List.cons_append] using hmiddle
  have hsame : (line :: splitLines text).Perm (line' :: splitLines text) := by
    refine (List.Perm.trans ?_ (hperm pre' header' body' rest' line')).trans ?_
    · rw [← hlines, hcut]
      exact (hperm pre header body rest line).symm
    · rw [hcut']
  have hcount := hsame.count_eq line
  rw [List.count_cons_self, List.count_cons] at hcount
  have hlineEq : line' = line := by
    by_contra hne
    rw [if_neg (by simpa using hne)] at hcount
    omega
  rw [hlineEq, hread] at hread'
  exact (Prod.mk.inj (Option.some.inj hread')).1

/-- Where as many lines come out as there were, none is new. -/
theorem not_placed_of_length {ls : List Str} (hls : ∀ l ∈ ls, '\n' ∉ l) (hne : ls ≠ [])
    (hlen : ls.length ≠ (splitLines text).length + 1)
    (hout : out = LineModel.emitText ls (text.getLast? == some '\n')) :
    ¬ Placed f64 text out S k value := by
  rintro ⟨pre, header, body, line, rest, hcut, -, -, hline, -, hout'⟩
  have hlines := emitText_inj hls (oneLined_inserted hcut hline) hne (by simp)
    (hout.symm.trans hout')
  refine hlen ?_
  rw [hlines, hcut]
  simp only [List.length_append, List.length_cons]
  omega

/-! ## Where the line goes -/

theorem isHeader_parseLine (f64 : Float64 F) (sec : Option Str) (raw : Str) :
    LineModel.isHeader (parseLine f64 LineFormat.ini.dialect sec raw) = (opens f64 raw).isSome := by
  rw [← (entry_eq f64 sec raw).2]
  cases parseLine f64 LineFormat.ini.dialect sec raw <;> rfl

theorem length_takeWhile_parseLines (sec : Option Str) (ls : List Str) :
    ((parseLines f64 LineFormat.ini.dialect sec ls).takeWhile (!LineModel.isHeader ·)).length =
      (ls.takeWhile fun l => (opens f64 l).isNone).length := by
  induction ls generalizing sec with
  | nil => rfl
  | cons raw ls ih =>
    rw [parseLines_cons, List.takeWhile_cons, List.takeWhile_cons, isHeader_parseLine]
    cases opens f64 raw with
    | none => exact congrArg Nat.succ (ih _)
    | some name => rfl

/-- The first header of the name, the lines up to the next header, and the lines behind. -/
theorem lastLineOfSection_cases (f64 : Float64 F) (ls : List Str) (newline : Bool) (name : Str) :
    (LineModel.lastLineOfSection
        (⟨LineFormat.ini.dialect, parseLines f64 LineFormat.ini.dialect none ls, newline⟩ :
          LineModel F) name = none ∧ ¬ HasHeader f64 ls name) ∨
      ∃ pre header body rest, ls = pre ++ header :: (body ++ rest) ∧
        opens f64 header = some name ∧ (∀ l ∈ body, opens f64 l = none) ∧
        (∀ l r, rest = l :: r → opens f64 l ≠ none) ∧
        LineModel.lastLineOfSection
          (⟨LineFormat.ini.dialect, parseLines f64 LineFormat.ini.dialect none ls, newline⟩ :
            LineModel F) name = some (pre.length + body.length) := by
  have hfind : ∀ (p : Line F → Bool) (ls : List Str) sec,
      (∀ sec raw, p (parseLine f64 LineFormat.ini.dialect sec raw) = (opens f64 raw == some name)) →
        (parseLines f64 LineFormat.ini.dialect sec ls).findIdx? p =
          ls.findIdx? fun raw => opens f64 raw == some name := by
    intro p ls sec hp
    induction ls generalizing sec with
    | nil => rfl
    | cons raw ls ih => rw [parseLines_cons, List.findIdx?_cons, List.findIdx?_cons, hp, ih]
  unfold LineModel.lastLineOfSection
  dsimp only
  rw [hfind _ ls none fun sec raw => by
    rw [← (entry_eq f64 sec raw).2]
    cases parseLine f64 LineFormat.ini.dialect sec raw <;> rfl]
  cases hidx : ls.findIdx? fun raw => opens f64 raw == some name with
  | none =>
    refine .inl ⟨rfl, ?_⟩
    rintro ⟨header, hmem, hopens⟩
    have := List.findIdx?_eq_none_iff.1 hidx header hmem
    simp [hopens] at this
  | some i =>
    obtain ⟨hlt, hopens, -⟩ := List.findIdx?_eq_some_iff_getElem.1 hidx
    have hlen : (ls.take i).length = i := by
      rw [List.length_take]
      omega
    have hcut : ls = ls.take i ++ ls[i] :: ls.drop (i + 1) := by
      rw [List.getElem_cons_drop, List.take_append_drop]
    refine .inr ⟨ls.take i, ls[i], (ls.drop (i + 1)).takeWhile fun l => (opens f64 l).isNone,
      (ls.drop (i + 1)).dropWhile fun l => (opens f64 l).isNone, ?_, eq_of_beq hopens,
      fun l hl => ?_, fun l r hrest => ?_, ?_⟩
    · rwa [List.takeWhile_append_dropWhile]
    · simpa using List.mem_takeWhile_imp hl
    · have hhead := List.head_dropWhile_not (fun l => (opens f64 l).isNone)
        (l := ls.drop (i + 1)) (by rw [hrest]; simp)
      simp only [hrest, List.head_cons] at hhead
      intro hnone
      rw [hnone] at hhead
      cases hhead
    · have hdrop : (parseLines f64 LineFormat.ini.dialect none ls).drop (i + 1) =
          parseLines f64 LineFormat.ini.dialect
            (sectionAfter f64 LineFormat.ini.dialect none (ls.take (i + 1))) (ls.drop (i + 1)) := by
        conv_lhs => rw [← List.take_append_drop (i + 1) ls]
        have htake :
            (parseLines f64 LineFormat.ini.dialect none (ls.take (i + 1))).length = i + 1 := by
          rw [length_parseLines, List.length_take]
          omega
        rw [parseLines_append]
        exact List.drop_left' htake
      rw [Option.map_some, hdrop, length_takeWhile_parseLines, hlen]

theorem insertIdx_length_append {α : Type*} (a b : List α) (x : α) :
    (a ++ b).insertIdx a.length x = a ++ x :: b := by
  induction a with
  | nil => rfl
  | cons y a ih => exact congrArg (y :: ·) ih

/-- Lines that begin with a header read the same in every section. -/
theorem entries_section (h : ∀ l r, rest = l :: r → opens f64 l ≠ none) (sec sec' : Option Str) :
    entries f64 LineFormat.ini.dialect sec rest = entries f64 LineFormat.ini.dialect sec' rest := by
  cases rest with
  | nil => rfl
  | cons l r =>
    obtain ⟨name, hname⟩ := Option.ne_none_iff_exists'.mp (h l r rfl)
    have hread : readLine f64 l = none := by
      cases hread : readLine f64 l with
      | none => rfl
      | some e =>
        rw [opens_none_of_readLine hread] at hname
        cases hname
    rw [entries_cons, entries_cons, (entry_eq f64 sec l).1, (entry_eq f64 sec l).2,
      (entry_eq f64 sec' l).1, (entry_eq f64 sec' l).2, hread, hname]
    rfl

/-- If no line of the text carries the path, and the new line is among those that do, it is
the new line. -/
theorem readLine_of_entries {header : Str} (hheader : opens f64 header = some name)
    (hbody : ∀ l ∈ body, opens f64 l = none) (hrest : ∀ l r, rest = l :: r → opens f64 l ≠ none)
    (hno : ∀ sec k, HasKey f64 (pre ++ header :: (body ++ rest)) sec k → keyPath sec k ≠ path)
    (hpath : path = name ++ '.' :: localKey)
    (hmem : (path, value) ∈ entries f64 LineFormat.ini.dialect none
      (pre ++ header :: (body ++ line :: rest))) : readLine f64 line = some (localKey, value) := by
  have hnone : (path, value) ∉ entries f64 LineFormat.ini.dialect none
      ((pre ++ header :: body) ++ rest) := by
    intro h
    obtain ⟨p, raw, q, k, hcut, hread, hk⟩ := mem_entries.mp h
    refine hno (standing f64 p) k ⟨p, raw, q, value, ?_, rfl, hread⟩ hk
    rw [← hcut]
    simp
  have hfront : pre ++ header :: (body ++ line :: rest) =
      (pre ++ header :: body) ++ line :: rest := by simp
  have hsection : sectionAfter f64 LineFormat.ini.dialect none (pre ++ header :: body) =
      some name := standing_section hheader hbody
  rw [entries_append, List.mem_append, not_or] at hnone
  rw [hfront, entries_append, List.mem_append, or_iff_right hnone.1, hsection, entries_cons,
    List.mem_append, entries_section hrest _ (some name), ← hsection, or_iff_left hnone.2, hsection,
    (entry_eq f64 _ line).1, Option.mem_toList, Option.map_eq_some_iff] at hmem
  obtain ⟨⟨k, v⟩, hread, heq⟩ := hmem
  obtain ⟨hk, rfl⟩ := Prod.mk.inj heq
  have hkey : k = localKey := @keyPath_inj k localKey (some name) (hk.trans hpath)
  rw [hread, hkey]

/-! ## What the self-check lets through -/

theorem newline_not_mem_formatFloat (hdisplay : ∀ f, '\n' ∉ f64.display f) (f : F) :
    '\n' ∉ formatFloat f64 f := by
  unfold formatFloat
  dsimp only
  split
  · exact hdisplay f
  · rw [List.mem_append, not_or]
    exact ⟨hdisplay f, by decide⟩

theorem newline_not_mem_serialized {m : LineModel F}
    (hdisplay : ∀ f, '\n' ∉ f64.display f) (hvalue : OneLined (path, value))
    (h : m.serializeValue f64 value = .ok token) : '\n' ∉ token := by
  cases value with
  | float f =>
    cases h
    exact newline_not_mem_formatFloat hdisplay f
  | string s => exact newline_not_mem_token (by simp) (.inr fun s' hs => hvalue.2 s' hs) h
  | bool b => exact newline_not_mem_token (by simp) (.inr fun s' hs => by cases hs) h
  | int i => exact newline_not_mem_token (by simp) (.inr fun s' hs => by cases hs) h
  | opaqueValue => cases h

variable [DecidableEq F]

/-- The edit that was let through: what it wrote, and that the path and the value are read. -/
theorem checkedSet_ok (h : checkedSet f64 .ini text path value = .ok out) :
    Text.byteLen text ≤ maxConfigBytes ∧
      LineModel.set f64 ⟨LineFormat.ini.dialect, parseLines f64 LineFormat.ini.dialect none
        (splitLines text), text.getLast? == some '\n'⟩ path value = .ok out ∧
      OneLined (path, value) ∧
      (path, value) ∈ entries f64 LineFormat.ini.dialect none (splitLines out) := by
  unfold checkedSet at h
  cases hread : LineFormat.ini.read f64 text with
  | error e =>
    rw [hread] at h
    cases h
  | ok original =>
    rw [hread] at h
    dsimp only at h
    split at h
    · cases h
    · cases hset : LineFormat.ini.set f64 text path value with
      | error e =>
        rw [hset] at h
        cases h
      | ok candidate =>
        rw [hset] at h
        dsimp only at h
        cases hverify : verify f64 .ini text candidate original path (some value) with
        | error e =>
          rw [hverify] at h
          cases h
        | ok u =>
          rw [hverify] at h
          obtain rfl := Except.ok.inj h
          obtain ⟨-, model, -, hmodel, hget, -⟩ := shows_of_verify hread hverify
          have hsize : Text.byteLen text ≤ maxConfigBytes := by
            by_contra hlarge
            rw [read_eq, if_pos (Nat.not_le.mp hlarge)] at hread
            cases hread
          refine ⟨hsize, ?_, oneLined_of_get rfl hmodel hget, ?_⟩
          · unfold LineFormat.set at hset
            rw [parse_of_le hsize] at hset
            dsimp only at hset
            split at hset
            · cases hset
            · next t ht => rw [← Except.ok.inj hset, ht]
          · have hmem := mem_of_get hget
            rw [read_eq] at hmodel
            split at hmodel
            · cases hmodel
            · rw [← Except.ok.inj hmodel] at hmem
              exact hmem

/-- **A line is inserted where its path is split**: a path that no line carries goes behind
the section of its part before the first dot, under the key that is the part behind it. -/
theorem placed_of_checkedSet (hdisplay : ∀ f, '\n' ∉ f64.display f)
    (hok : checkedSet f64 .ini text path value = .ok out)
    (hno : ∀ sec k, HasKey f64 (splitLines text) sec k → keyPath sec k ≠ path)
    (hsplit : Text.splitOnce '.' path = some (name, localKey)) :
    Placed f64 text out name localKey value ∨
      ∃ line, '\n' ∉ name ∧ '\n' ∉ line ∧
        out = LineModel.emitText (splitLines text ++ ['[' :: name ++ [']'], line])
          (text.getLast? == some '\n') ∧ ¬ HasHeader f64 (splitLines text) name := by
  obtain ⟨-, hset, hone, hmem⟩ := checkedSet_ok hok
  obtain ⟨hpath, -⟩ := Text.splitOnce_eq_some.1 hsplit
  have hname : '\n' ∉ name := fun h => hone.1 (by rw [hpath]; exact List.mem_append_left _ h)
  have hlocal : '\n' ∉ localKey := fun h =>
    hone.1 (by rw [hpath]; exact List.mem_append_right _ (List.mem_cons_of_mem _ h))
  have hfind : LineModel.findKeyIndex ⟨LineFormat.ini.dialect, parseLines f64
      LineFormat.ini.dialect none (splitLines text), text.getLast? == some '\n'⟩ path = none :=
    List.findIdx?_eq_none_iff.2 (not_carries_iff.mpr hno)
  unfold LineModel.set at hset
  rw [hfind] at hset
  dsimp only at hset
  unfold LineModel.insertKey at hset
  cases hser : LineModel.serializeValue f64 ⟨LineFormat.ini.dialect, parseLines f64
      LineFormat.ini.dialect none (splitLines text), text.getLast? == some '\n'⟩ value with
  | error e =>
    rw [hser] at hset
    cases hset
  | ok token =>
    have htoken := newline_not_mem_serialized hdisplay hone hser
    have hline : '\n' ∉ localKey ++ " = ".toList ++ token := by
      simp only [List.mem_append, not_or]
      exact ⟨⟨hlocal, by decide⟩, htoken⟩
    have hformat : LineModel.formatKeyLine (F := F) ⟨LineFormat.ini.dialect, parseLines f64
        LineFormat.ini.dialect none (splitLines text), text.getLast? == some '\n'⟩ localKey token =
          localKey ++ " = ".toList ++ token := rfl
    have hsections : LineFormat.ini.dialect.sections = true := rfl
    rw [hser] at hset
    dsimp only at hset
    rw [hsections, if_pos rfl, hsplit] at hset
    dsimp only at hset
    rw [hformat] at hset
    rcases lastLineOfSection_cases f64 (splitLines text) (text.getLast? == some '\n') name with
      ⟨hlast, habsent⟩ | ⟨pre, header, body, rest, hcut, hheader, hbody, hrest, hlast⟩
    · rw [hlast] at hset
      refine .inr ⟨_, hname, hline, ?_, habsent⟩
      rw [← Except.ok.inj hset]
      unfold LineModel.emit
      rw [List.map_append, map_raw_parseLines]
      rfl
    · rw [hlast] at hset
      dsimp only at hset
      have hinsert : (splitLines text).insertIdx (pre.length + body.length + 1)
          (localKey ++ " = ".toList ++ token) =
            pre ++ header :: (body ++ (localKey ++ " = ".toList ++ token) :: rest) := by
        have hlen : pre.length + body.length + 1 = (pre ++ header :: body).length := by
          simp only [List.length_append, List.length_cons]
          omega
        have hfront : splitLines text = (pre ++ header :: body) ++ rest := by
          rw [hcut]
          simp
        rw [hlen, hfront, insertIdx_length_append]
        simp
      have hout : out = LineModel.emitText
          (pre ++ header :: (body ++ (localKey ++ " = ".toList ++ token) :: rest))
            (text.getLast? == some '\n') := by
        rw [← Except.ok.inj hset, ← hinsert]
        unfold LineModel.emit
        rw [List.map_insertIdx, map_raw_parseLines]
        rfl
      refine .inl ⟨pre, header, body, _, rest, hcut, hheader, hbody, hline, ?_, hout⟩
      -- of the lines that are read, only the new one can carry the path
      rw [hout, entries_emitText LineFormat.ini.proper (oneLined_inserted hcut hline)] at hmem
      exact readLine_of_entries hheader hbody hrest (by rw [← hcut]; exact hno) hpath hmem

/-- A path that a line carries is written in that line's place, and no line is new. -/
theorem not_placed_of_carried (hdisplay : ∀ f, '\n' ∉ f64.display f)
    (hok : checkedSet f64 .ini text path value = .ok out) {kv : KeyVal F}
    (hc : Carried f64 LineFormat.ini.dialect none (splitLines text) path pre raw post kv) :
    ¬ Placed f64 text out S k value := by
  obtain ⟨-, hset, hone, -⟩ := checkedSet_ok hok
  have hlines : ∀ l ∈ pre ++ raw :: post, '\n' ∉ l := by
    rw [← hc.cut]
    exact fun l hl => not_mem_of_mem_splitLines hl
  cases hser : LineModel.serializeValue f64 ⟨LineFormat.ini.dialect, parseLines f64
      LineFormat.ini.dialect none (splitLines text), text.getLast? == some '\n'⟩ value with
  | error e =>
    cases value with
    | opaqueValue =>
      unfold LineModel.set at hset
      rw [hc.findKeyIndex_eq] at hset
      dsimp only at hset
      rw [hser] at hset
      split at hset <;> cases hset
    | string s => cases hser
    | bool b => cases hser
    | int i => cases hser
    | float f => cases hser
  | ok token =>
    have htoken := newline_not_mem_serialized hdisplay hone hser
    rw [hc.set_eq token hser] at hset
    refine not_placed_of_length (fun l hl => ?_) (by simp) ?_ (Except.ok.inj hset).symm
    · rcases List.mem_append.1 hl with hl | hl
      · exact hlines l (List.mem_append_left _ hl)
      · rcases List.mem_cons.1 hl with rfl | hl
        · refine newline_not_mem_rewritten ?_ htoken
          rw [raw_eq_of_keyVal hc.line]
          exact hlines raw (by simp)
        · exact hlines l (List.mem_append_right _ (List.mem_cons_of_mem _ hl))
    · rw [hc.cut]
      simp only [List.length_append, List.length_cons]
      omega

/-- **The new line stands in its own section** exactly if the section's name has no dot and no
other section has a key with its path. -/
theorem placed_iff (hdisplay : ∀ f, '\n' ∉ f64.display f)
    (habsent : ¬ HasKey f64 (splitLines text) (some S) k)
    (hheader : HasHeader f64 (splitLines text) S)
    (hok : checkedSet f64 .ini text (S ++ '.' :: k) value = .ok out) :
    Placed f64 text out S k value ↔ '.' ∉ S ∧ ¬ Shared f64 (splitLines text) S k := by
  rcases carried_cases f64 LineFormat.ini.dialect none (splitLines text) (S ++ '.' :: k) with
    hno | ⟨pre, raw, post, kv, hc⟩
  · have hno := not_carries_iff.mp hno
    have hunshared : ¬ Shared f64 (splitLines text) S k := by
      rw [shared_iff]
      rintro ⟨sec, k', hkey, hpath, -⟩
      exact hno sec k' hkey hpath
    by_cases hdot : '.' ∈ S
    · refine iff_of_false (fun hplaced => ?_) fun h => h.1 hdot
      -- the path is split in the middle of the section's name
      obtain ⟨a, b, rfl, ha⟩ := List.eq_append_cons_of_mem hdot
      have hsplit : Text.splitOnce '.' (a ++ '.' :: b ++ '.' :: k) = some (a, b ++ '.' :: k) :=
        Text.splitOnce_eq_some.2 ⟨by simp, ha⟩
      rcases placed_of_checkedSet hdisplay hok hno hsplit with h | ⟨line, hname, hline, hout, -⟩
      · have hlen := congrArg List.length (placed_key_unique hplaced h)
        simp only [List.length_append, List.length_cons] at hlen
        omega
      · refine not_placed_of_length (fun l hl => ?_) (by simp) ?_ hout hplaced
        · simp only [List.mem_append, List.mem_cons, List.not_mem_nil, or_false] at hl
          rcases hl with hl | rfl | rfl
          · exact not_mem_of_mem_splitLines hl
          · simp [hname]
          · exact hline
        · simp only [List.length_append, List.length_cons, List.length_nil]
          omega
    · refine iff_of_true ?_ ⟨hdot, hunshared⟩
      rcases placed_of_checkedSet hdisplay hok hno (Text.splitOnce_eq_some.2 ⟨rfl, hdot⟩) with
        h | ⟨-, -, -, -, hno⟩
      · exact h
      · exact absurd hheader hno
  · refine iff_of_false (not_placed_of_carried hdisplay hok hc) fun h => h.2 ?_
    have hcarried : ¬ ∀ line ∈ parseLines f64 LineFormat.ini.dialect none (splitLines text),
        LineModel.carries (S ++ '.' :: k) line = false := by
      intro h
      have hkv : LineModel.carries (S ++ '.' :: k) (Line.keyVal kv) = true := beq_iff_eq.2 hc.key_eq
      rw [h _ (by rw [hc.lines_eq]; simp)] at hkv
      cases hkv
    rw [not_carries_iff] at hcarried
    push Not at hcarried
    obtain ⟨sec, k', hkey, hpath⟩ := hcarried
    refine shared_iff.mpr ⟨sec, k', hkey, hpath, ?_⟩
    rintro ⟨rfl, rfl⟩
    exact habsent hkey

/-- **A key of an INI file lands in its own section**, and no other section has its path,
exactly if no two ways to cut the path at a dot meet. -/
theorem ini_key_in_section_iff (hdisplay : ∀ f, '\n' ∉ f64.display f) (text S k : Str) :
    ((∀ sec k', HasKey f64 (splitLines text) sec k' → keyPath sec k' = S ++ '.' :: k →
        sec = some S ∧ k' = k) ↔ ¬ Shared f64 (splitLines text) S k) ∧
      ∀ value out, HasHeader f64 (splitLines text) S →
        ¬ HasKey f64 (splitLines text) (some S) k →
        checkedSet f64 .ini text (S ++ '.' :: k) value = .ok out →
        (Placed f64 text out S k value ↔ '.' ∉ S ∧ ¬ Shared f64 (splitLines text) S k) :=
  ⟨own_path_iff, fun _ _ hheader habsent hok => placed_iff hdisplay habsent hheader hok⟩

/-- A new key of a section whose name has no dot. -/
theorem ini_key_in_section_web :
    checkedSet noFloat .ini "[web]\n".toList "web.port".toList (.int 80) =
        .ok "[web]\nport = 80\n".toList ∧
      Placed noFloat "[web]\n".toList "[web]\nport = 80\n".toList "web".toList "port".toList
        (.int 80) := by
  have hlines : splitLines "[web]\n".toList = ["[web]".toList] := by rfl
  have hopens : opens noFloat "[web]".toList = some "web".toList := by rfl
  have hheader : HasHeader noFloat (splitLines "[web]\n".toList) "web".toList :=
    ⟨_, by rw [hlines]; exact List.mem_cons_self, hopens⟩
  have hnone : ∀ sec k, ¬ HasKey noFloat (splitLines "[web]\n".toList) sec k := by
    rintro sec k ⟨pre, raw, post, v, hcut, -, hread⟩
    obtain rfl : raw = "[web]".toList := by
      have hraw : raw ∈ ["[web]".toList] := by
        rw [← hlines, hcut]
        simp
      exact List.mem_singleton.1 hraw
    rw [opens_none_of_readLine hread] at hopens
    cases hopens
  have hset : checkedSet noFloat .ini "[web]\n".toList "web.port".toList (.int 80) =
      .ok "[web]\nport = 80\n".toList := by rfl
  have hdisplay : ∀ f, '\n' ∉ noFloat.display f := fun _ => by simp [noFloat]
  obtain ⟨hown, hplaced⟩ :=
    ini_key_in_section_iff hdisplay "[web]\n".toList "web".toList "port".toList
  have hunshared := hown.1 fun sec k' hkey _ => absurd hkey (hnone sec k')
  exact ⟨hset, (hplaced _ _ hheader (hnone _ _) hset).2 ⟨by decide, hunshared⟩⟩

/-- The new key of `[a.b]` goes into a new section `[a]`. -/
theorem dotted_section_missed :
    ¬ (∀ (text S k out : Str) (value : ConfigValue Unit), HasHeader noFloat (splitLines text) S →
      ¬ HasKey noFloat (splitLines text) (some S) k →
      checkedSet noFloat .ini text (S ++ '.' :: k) value = .ok out →
      Placed noFloat text out S k value) := by
  intro h
  have hlines : splitLines "[a.b]\nx = 1\n".toList = ["[a.b]".toList, "x = 1".toList] := by rfl
  have hx : readLine noFloat "x = 1".toList = some ("x".toList, .int 1) := by rfl
  have hheader : opens noFloat "[a.b]".toList = some "a.b".toList := by rfl
  have hok : checkedSet noFloat .ini "[a.b]\nx = 1\n".toList "a.b.k".toList (.int 2) =
      .ok "[a.b]\nx = 1\n[a]\nb.k = 2\n".toList := by rfl
  have habsent : ¬ HasKey noFloat (splitLines "[a.b]\nx = 1\n".toList) (some "a.b".toList)
      "k".toList := by
    rintro ⟨pre, raw, post, v, hcut, -, hread⟩
    have hraw : raw ∈ ["[a.b]".toList, "x = 1".toList] := by
      rw [← hlines, hcut]
      simp
    rcases List.mem_pair.mp hraw with rfl | rfl
    · rw [opens_none_of_readLine hread] at hheader
      cases hheader
    · rw [hx] at hread
      exact absurd (Prod.mk.inj (Option.some.inj hread)).1 (by decide)
  have hout : ∀ l ∈ ["[a.b]".toList, "x = 1".toList, "[a]".toList, "b.k = 2".toList], '\n' ∉ l := by
    decide
  exact not_placed_of_length hout (by simp) (by rw [hlines]; decide) (by rfl)
    (h _ "a.b".toList "k".toList _ _ ⟨_, by rw [hlines]; exact List.mem_cons_self, hheader⟩ habsent
      hok)

end Arlen.ConfigFormat
