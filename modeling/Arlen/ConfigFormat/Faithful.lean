import Arlen.ConfigFormat.Dotenv
import Arlen.Lib.Json

/-!
# Which faithful edits are let through

The self-check compares the pieces a text is cut into at line feeds, where the editor works on
lines without their carriage returns and on no line at all for the empty text, and it compares
every line of another key with that key's first line. Here is exactly when it lets the removal
of a key through, and setting a key to a boolean or an integer.
-/

namespace Arlen.ConfigFormat

open Arlen.Lib

variable {F : Type} {f64 : Float64 F} {h : LineFormat} {d : LineDialect}
  {sec : Option Str} {text key raw token t : Str} {pre post ls : List Str} {kv : KeyVal F}

/-! ## The one line of a key -/

/-- The only line that carries the key. -/
structure OnlyLine (f64 : Float64 F) (h : LineFormat) (text key : Str) (pre : List Str) (raw : Str)
    (post : List Str) (kv : KeyVal F) : Prop extends
    Carried f64 h.dialect none (splitLines text) key pre raw post kv where
  after : ∀ line ∈ parseLines f64 h.dialect (sectionAfter f64 h.dialect none pre) post,
    LineModel.carries key line = false

/-- What a document says. -/
def said (f64 : Float64 F) (h : LineFormat) (text : Str) : ConfigModel F :=
  entries f64 h.dialect none (splitLines text)

/-- Every other key has one value, on however many lines it stands. -/
def Agree (f64 : Float64 F) (h : LineFormat) (text key : Str) : Prop :=
  ∀ k v v', k ≠ key → (k, v) ∈ said f64 h text → (k, v') ∈ said f64 h text → v = v'

/-- A piece of the text ends in a carriage return only if the target's own lines do. -/
def Returnless [DecidableEq F] (f64 : Float64 F) (h : LineFormat) (text key : Str) : Prop :=
  ∀ p ∈ text.splitOn '\n', p.getLast? = some '\r' → lineIsTarget f64 h p key = true

/-! ## Siblings -/

theorem not_mem_entries (hno : ∀ line ∈ parseLines f64 d sec ls, LineModel.carries key line = false)
    (v : ConfigValue F) : (key, v) ∉ entries f64 d sec ls := by
  intro hmem
  obtain ⟨line, hline, hentry⟩ := List.mem_filterMap.1 hmem
  have hcarries := hno line hline
  cases line with
  | keyVal kv =>
    cases hentry
    simp [LineModel.carries] at hcarries
  | header r name => cases hentry
  | other r => cases hentry

theorem lookup_of_forall_ne {m : ConfigModel F} (hno : ∀ v, (key, v) ∉ m) : m.get key = none := by
  unfold ConfigModel.get
  rw [List.lookup_eq_none_iff]
  rintro ⟨k, v⟩ hp
  simp only [bne_iff_ne, ne_eq]
  rintro rfl
  exact hno v hp

theorem get_ne_none_of_mem {m : ConfigModel F} {k : Str} {v : ConfigValue F} (hmem : (k, v) ∈ m) :
    m.get k ≠ none := by
  unfold ConfigModel.get
  rw [ne_eq, List.lookup_eq_none_iff]
  intro hall
  have := hall _ hmem
  simp at this

theorem get_append_of_ne {a b mid : ConfigModel F} (hmid : ∀ p ∈ mid, p.1 = key) {k : Str}
    (hk : k ≠ key) : ConfigModel.get (a ++ mid ++ b) k = ConfigModel.get (a ++ b) k := by
  have hnone : mid.lookup k = none := by
    rw [List.lookup_eq_none_iff]
    intro p hp
    rw [hmid p hp]
    simpa using hk
  unfold ConfigModel.get
  rw [List.lookup_append, List.lookup_append, hnone, List.lookup_append, Option.or_none]

theorem siblings_eq_ok [DecidableEq F] {original candidate : ConfigModel F} :
    checkSiblingsUnchanged original candidate key = .ok () ↔
      (∀ p ∈ original, p.1 ≠ key → candidate.get p.1 = some p.2) ∧
        ∀ p ∈ candidate, p.1 ≠ key → original.get p.1 ≠ none := by
  unfold checkSiblingsUnchanged
  split
  case h_1 k v horiginal =>
    have hp := List.find?_some horiginal
    simp only [Bool.and_eq_true, bne_iff_ne, ne_eq] at hp
    refine iff_of_false (fun h => by cases h) fun h => hp.2 ?_
    exact h.1 (k, v) (List.mem_of_find?_eq_some horiginal) hp.1
  case h_2 horiginal =>
    have hkept := List.find?_eq_none.1 horiginal
    simp only [Bool.and_eq_true, bne_iff_ne, ne_eq, not_and, not_not] at hkept
    split
    case h_1 k v hcandidate =>
      have hp := List.find?_some hcandidate
      simp only [Bool.and_eq_true, bne_iff_ne, ne_eq, Option.isNone_iff_eq_none] at hp
      exact iff_of_false (fun h => by cases h) fun h =>
        h.2 (k, v) (List.mem_of_find?_eq_some hcandidate) hp.1 hp.2
    case h_2 hcandidate =>
      have hadded := List.find?_eq_none.1 hcandidate
      simp only [Bool.and_eq_true, bne_iff_ne, ne_eq, Option.isNone_iff_eq_none, not_and] at hadded
      exact iff_of_true rfl ⟨hkept, hadded⟩

/-- **Between models that differ in entries of the target alone.** -/
theorem siblings_iff [DecidableEq F] {a b mid mid' : ConfigModel F} (hmid : ∀ p ∈ mid, p.1 = key)
    (hmid' : ∀ p ∈ mid', p.1 = key) :
    checkSiblingsUnchanged (a ++ mid ++ b) (a ++ mid' ++ b) key = .ok () ↔
      ∀ k v v', k ≠ key → (k, v) ∈ a ++ mid ++ b → (k, v') ∈ a ++ mid ++ b → v = v' := by
  have hrest : ∀ {mid : ConfigModel F}, (∀ p ∈ mid, p.1 = key) → ∀ {p}, p.1 ≠ key →
      (p ∈ a ++ mid ++ b ↔ p ∈ a ++ b) := by
    intro mid hmid p hp
    simp only [List.mem_append]
    have hno : p ∉ mid := fun h => hp (hmid p h)
    tauto
  rw [siblings_eq_ok]
  constructor
  · rintro ⟨hkept, -⟩ k v v' hk hv hv'
    exact Option.some.inj ((hkept _ hv hk).symm.trans (hkept _ hv' hk))
  · intro hagree
    constructor
    · rintro ⟨k, v⟩ hp hk
      rw [get_append_of_ne hmid' hk]
      cases hget : ConfigModel.get (a ++ b) k with
      | none => exact absurd hget (get_ne_none_of_mem ((hrest hmid hk).1 hp))
      | some v' =>
        rw [hagree k v v' hk hp ((hrest (p := (k, v')) hmid hk).2 (mem_of_get hget))]
    · rintro ⟨k, v⟩ hp hk
      rw [get_append_of_ne hmid hk]
      exact get_ne_none_of_mem ((hrest hmid' hk).1 hp)

/-! ## The target's own lines -/

/-- The name is the target, or its last segment. -/
def namesTarget (target only : Str) : Bool :=
  only == target ||
    match rsplitOnce '.' target with
    | some (_, last) => only == last
    | none => false

theorem entries_splitLines_line {l : Str} (hl : '\n' ∉ l) :
    entries f64 h.dialect none (splitLines l) = (parseLine f64 h.dialect none l).entry.toList := by
  by_cases hnil : l = []
  · rw [hnil]
    rfl
  · rw [splitLines_eq hnil, stripSuffix_of_not_mem hl, Option.getD_none, List.splitOn_eq_singleton hl,
      List.map_singleton, entries_singleton, (parseLine_stripReturn _ _ _ h.proper).1]

theorem lineIsTarget_eq [DecidableEq F] {l : Str} (hl : '\n' ∉ l)
    (hsize : Text.byteLen l ≤ maxConfigBytes) : lineIsTarget f64 h l key =
      match (parseLine f64 h.dialect none l).entry with
      | some (only, _) => namesTarget key only
      | none => false := by
  unfold lineIsTarget
  rw [read_eq, if_neg (Nat.not_lt.2 hsize), entries_splitLines_line hl]
  cases (parseLine f64 h.dialect none l).entry <;> rfl

def endsInReturn (l : Str) : Bool := l.getLast? == some '\r'

theorem byteLen_stripReturn (l : Str) : Text.byteLen l =
    Text.byteLen (stripReturn l) + if endsInReturn l = true then 1 else 0 := by
  rcases stripReturn_cases l with heq | ⟨heq, hlast⟩
  · have hlast : endsInReturn l = true := by
      rw [heq]
      simp [endsInReturn]
    rw [hlast, if_pos rfl]
    conv_lhs => rw [heq, Text.byteLen_append]
    rfl
  · have hlast : endsInReturn l = false := hlast
    rw [hlast, heq]
    rfl

theorem stripReturn_eq_self_iff (l : Str) : stripReturn l = l ↔ l.getLast? ≠ some '\r' := by
  rcases stripReturn_cases l with heq | ⟨heq, hlast⟩
  · refine iff_of_false (fun hsame => ?_) fun hlast => hlast ?_
    · rw [hsame] at heq
      simpa using congrArg List.length heq
    · rw [heq]
      simp
  · exact iff_of_true heq (by simpa using hlast)

theorem lineIsTarget_stripReturn [DecidableEq F] {l : Str} (hl : '\n' ∉ l)
    (hsize : Text.byteLen l ≤ maxConfigBytes) :
    lineIsTarget f64 h (stripReturn l) key = lineIsTarget f64 h l key := by
  have hl' : '\n' ∉ stripReturn l := fun hmem => hl (mem_of_mem_stripSuffix hmem)
  have hsize' : Text.byteLen (stripReturn l) ≤ maxConfigBytes := by
    have := byteLen_stripReturn l
    omega
  rw [lineIsTarget_eq hl hsize, lineIsTarget_eq hl' hsize', (parseLine_stripReturn _ _ _ h.proper).1]

theorem lineIsTarget_nil [DecidableEq F] : lineIsTarget f64 h [] key = false := rfl

/-! ## Pieces -/

/-- The piece behind a last line feed. -/
def lastPiece (newline : Bool) : List Str := if newline then [[]] else []

theorem exists_pieces (hne : text ≠ []) : ∃ qs,
    text.splitOn '\n' = qs ++ lastPiece (text.getLast? == some '\n') ∧
      splitLines text = qs.map stripReturn := by
  refine ⟨((Text.stripSuffix ['\n'] text).getD text).splitOn '\n', ?_, splitLines_eq hne⟩
  rcases eq_concat_or_stripSuffix text '\n' with ⟨t, ht, hs, hlast⟩ | ⟨hs, hlast⟩
  · rw [hs, hlast, Option.getD_some]
    conv_lhs => rw [ht, List.splitOn_append_cons_self, List.splitOn_nil]
    rfl
  · rw [hs, hlast, Option.getD_none]
    exact (List.append_nil _).symm

theorem splitOn_emitText (newline : Bool) (hls : ∀ l ∈ ls, '\n' ∉ l) (hne : ls ≠ []) :
    (LineModel.emitText ls newline).splitOn '\n' = ls ++ lastPiece newline := by
  have hempty : ls.isEmpty = false := by simpa using hne
  unfold LineModel.emitText lastPiece
  rw [hempty, Bool.not_false, Bool.and_true]
  cases newline with
  | true =>
    rw [if_pos rfl, List.splitOn_append_cons_self, List.splitOn_intercalate '\n' hls hne,
      List.splitOn_nil]
    rfl
  | false =>
    rw [if_neg (by decide), List.append_nil, List.splitOn_intercalate '\n' hls hne]
    exact (List.append_nil _).symm

/-- The size of a text by its pieces. -/
theorem byteLen_splitOn (text : Str) :
    Text.byteLen text + 1 = ((text.splitOn '\n').map fun p => Text.byteLen p + 1).sum := by
  induction text with
  | nil => rfl
  | cons c text ih =>
    rw [List.splitOn_cons_eq_if_modifyHead]
    have hlen : Text.byteLen (c :: text) = c.utf8Size + Text.byteLen text := by
      simp [Text.byteLen]
    split
    · next hc =>
      have hone : c.utf8Size = 1 := by
        rw [eq_of_beq hc]
        rfl
      rw [List.map_cons, List.sum_cons, ← ih, hlen, hone]
      simp [Text.byteLen]
      omega
    · obtain ⟨p, ps, hps⟩ := List.exists_cons_of_ne_nil (List.splitOn_ne_nil '\n' text)
      rw [hps, List.map_cons, List.sum_cons] at ih
      rw [hps, List.modifyHead_cons, List.map_cons, List.sum_cons, hlen]
      have hp : Text.byteLen (c :: p) = c.utf8Size + Text.byteLen p := by simp [Text.byteLen]
      omega

/-- How many pieces of a text end in a carriage return. -/
def returns (text : Str) : Nat := (text.splitOn '\n').countP endsInReturn

/-- A text cut at the line of a key: its pieces, and the lines they are without carriage
returns. -/
structure Cut (text : Str) (pre : List Str) (raw : Str) (post qs : List Str) (q : Str)
    (qs' : List Str) : Prop where
  pieces : text.splitOn '\n' = qs ++ q :: (qs' ++ lastPiece (text.getLast? == some '\n'))
  pre_eq : qs.map stripReturn = pre
  raw_eq : stripReturn q = raw
  post_eq : qs'.map stripReturn = post

variable {qs qs' : List Str} {q : Str}

theorem exists_cut (hcut : splitLines text = pre ++ raw :: post) :
    ∃ qs q qs', Cut text pre raw post qs q qs' := by
  have hne : text ≠ [] := by
    rintro rfl
    exact absurd hcut (by simp [splitLines])
  obtain ⟨all, hpieces, hlines⟩ := exists_pieces hne
  rw [hcut] at hlines
  obtain ⟨qs, rest, rfl, hpre, hrest⟩ := List.map_eq_append_iff.1 hlines.symm
  obtain ⟨q, qs', rfl, hraw, hpost⟩ := List.map_eq_cons_iff.1 hrest
  exact ⟨qs, q, qs', by rw [hpieces]; simp, hpre, hraw, hpost⟩

theorem byteLen_le_of_mem_splitOn {p : Str} (hp : p ∈ text.splitOn '\n') :
    Text.byteLen p ≤ Text.byteLen text := by
  have hsum := byteLen_splitOn text
  obtain ⟨front, back, hpieces⟩ := List.append_of_mem hp
  rw [hpieces, List.map_append, List.map_cons, List.sum_append, List.sum_cons] at hsum
  omega

/-- The lines that are not the target's own. -/
def kept [DecidableEq F] (f64 : Float64 F) (h : LineFormat) (key : Str) (ls : List Str) : List Str :=
  ls.filter fun line => !lineIsTarget f64 h line key

theorem unmodelled_eq_ok [DecidableEq F] {candidate : Str} :
    checkUnmodelledPreserved f64 h text candidate key = .ok () ↔
      (linesExcludingTarget f64 h text key).Sublist (linesExcludingTarget f64 h candidate key) := by
  unfold checkUnmodelledPreserved isSubsequence
  rw [← List.isSublist_iff_sublist]
  split
  · next hsub => exact iff_of_true rfl hsub
  · next hsub => exact iff_of_false (fun h => by cases h) hsub

theorem linesExcludingTarget_eq [DecidableEq F] (hne : text ≠ []) :
    linesExcludingTarget f64 h text key = kept f64 h key (text.splitOn '\n') := by
  unfold linesExcludingTarget
  rw [if_neg (by simpa using hne)]
  rfl

theorem kept_map_stripReturn [DecidableEq F]
    (hls : ∀ l ∈ ls, '\n' ∉ l ∧ Text.byteLen l ≤ maxConfigBytes) :
    kept f64 h key (ls.map stripReturn) = (kept f64 h key ls).map stripReturn := by
  unfold kept
  rw [List.filter_map]
  congr 1
  refine List.filter_congr fun l hl => ?_
  rw [Function.comp_apply, lineIsTarget_stripReturn (hls l hl).1 (hls l hl).2]

theorem kept_append [DecidableEq F] (ls ls' : List Str) :
    kept f64 h key (ls ++ ls') = kept f64 h key ls ++ kept f64 h key ls' := List.filter_append ..

theorem kept_cons_of_target [DecidableEq F] {l : Str} (hl : lineIsTarget f64 h l key = true)
    (ls : List Str) : kept f64 h key (l :: ls) = kept f64 h key ls :=
  List.filter_cons_of_neg (by simp [hl])

theorem kept_cons_of_not_target [DecidableEq F] {l : Str} (hl : lineIsTarget f64 h l key = false)
    (ls : List Str) : kept f64 h key (l :: ls) = l :: kept f64 h key ls :=
  List.filter_cons_of_pos (by simp [hl])

theorem kept_lastPiece [DecidableEq F] (newline : Bool) :
    kept f64 h key (lastPiece newline) = lastPiece newline := by
  cases newline with
  | true => exact kept_cons_of_not_target lineIsTarget_nil []
  | false => rfl

theorem map_lastPiece (newline : Bool) : (lastPiece newline).map stripReturn = lastPiece newline := by
  cases newline <;> rfl

theorem returnless_iff [DecidableEq F] : Returnless f64 h text key ↔
    ∀ p ∈ kept f64 h key (text.splitOn '\n'), stripReturn p = p := by
  unfold Returnless kept
  simp only [List.mem_filter, Bool.not_eq_true', stripReturn_eq_self_iff, and_imp]
  refine forall_congr' fun p => forall_congr' fun _ => ?_
  cases lineIsTarget f64 h p key <;> simp

/-- A list within its image: nothing is changed. -/
theorem sublist_map_iff {s : Str → Str} : ls.Sublist (ls.map s) ↔ ∀ l ∈ ls, s l = l := by
  constructor
  · intro hsub l hl
    have heq := hsub.eq_of_length (List.length_map _).symm
    have := List.map_eq_map_iff.1 (heq.symm.trans (List.map_id ls).symm) l hl
    exact this
  · intro hall
    rw [List.map_congr_left hall, List.map_id']

/-! ## The lines that are compared -/

section Compared

variable [DecidableEq F]

variable (f64 h key) in
theorem Cut.kept_eq (hc : Cut text pre raw post qs q qs')
    (htext : Text.byteLen text ≤ maxConfigBytes) :
    kept f64 h key (text.splitOn '\n') = kept f64 h key qs ++
        kept f64 h key (q :: qs') ++ lastPiece (text.getLast? == some '\n') ∧
      kept f64 h key pre = (kept f64 h key qs).map stripReturn ∧
      kept f64 h key post = (kept f64 h key qs').map stripReturn ∧
      lineIsTarget f64 h q key = lineIsTarget f64 h raw key := by
  have hok : ∀ p ∈ qs ++ q :: qs', '\n' ∉ p ∧ Text.byteLen p ≤ maxConfigBytes := by
    intro p hp
    have hmem : p ∈ text.splitOn '\n' := by
      rw [hc.pieces, ← List.cons_append, ← List.append_assoc]
      exact List.mem_append_left _ hp
    exact ⟨Text.not_mem_of_mem_splitOn hmem, (byteLen_le_of_mem_splitOn hmem).trans htext⟩
  refine ⟨?_, ?_, ?_, ?_⟩
  · rw [hc.pieces, kept_append, ← List.cons_append, kept_append, kept_lastPiece, List.append_assoc]
  · rw [← hc.pre_eq, kept_map_stripReturn fun l hl => hok l (List.mem_append_left _ hl)]
  · rw [← hc.post_eq, kept_map_stripReturn fun l hl =>
      hok l (List.mem_append_right _ (List.mem_cons_of_mem _ hl))]
  · obtain ⟨hq, hsize⟩ := hok q (by simp)
    rw [← hc.raw_eq, lineIsTarget_stripReturn hq hsize]

theorem Cut.no_newline (hc : Cut text pre raw post qs q qs') :
    ∀ l ∈ pre ++ raw :: post, '\n' ∉ l := by
  have hlines : pre ++ raw :: post = (qs ++ q :: qs').map stripReturn := by
    rw [List.map_append, List.map_cons, hc.pre_eq, hc.raw_eq, hc.post_eq]
  intro l hl hmem
  rw [hlines] at hl
  obtain ⟨p, hp, rfl⟩ := List.mem_map.1 hl
  have hpiece : p ∈ text.splitOn '\n' := by
    rw [hc.pieces, ← List.cons_append, ← List.append_assoc]
    exact List.mem_append_left _ hp
  exact Text.not_mem_of_mem_splitOn hpiece (mem_of_mem_stripSuffix hmem)

theorem Cut.text_ne_nil (hc : Cut text pre raw post qs q qs') (hraw : raw ≠ []) : text ≠ [] := by
  rintro rfl
  have hpieces := hc.pieces
  rw [List.splitOn_nil] at hpieces
  cases qs with
  | nil =>
    have hq : q = [] := ((List.cons.inj hpieces).1).symm
    refine hraw ?_
    rw [← hc.raw_eq, hq]
    rfl
  | cons x qs =>
    have := congrArg List.length hpieces
    simp at this

/-- **What is compared when the key's line is rewritten.** -/
theorem unmodelled_set_iff (hc : Cut text pre raw post qs q qs')
    (htext : Text.byteLen text ≤ maxConfigBytes) (hraw : raw ≠ []) {new : Str} (hnew : '\n' ∉ new)
    (hne : new ≠ []) (hsame : lineIsTarget f64 h new key = lineIsTarget f64 h raw key)
    (hreturn : new ≠ raw ++ ['\r']) :
    checkUnmodelledPreserved f64 h text
        (LineModel.emitText (pre ++ new :: post) (text.getLast? == some '\n')) key = .ok () ↔
      Returnless f64 h text key ∧ (lineIsTarget f64 h raw key = true ∨ new = raw) := by
  have hlines := hc.no_newline
  have hls : ∀ l ∈ pre ++ new :: post, '\n' ∉ l := by
    intro l hl
    rcases List.mem_append.1 hl with hl | hl
    · exact hlines l (List.mem_append_left _ hl)
    · rcases List.mem_cons.1 hl with rfl | hl
      · exact hnew
      · exact hlines l (List.mem_append_right _ (List.mem_cons_of_mem _ hl))
  have hcand : LineModel.emitText (pre ++ new :: post) (text.getLast? == some '\n') ≠ [] := by
    intro hnil
    have hsplit := splitOn_emitText (text.getLast? == some '\n') hls (by simp)
    rw [hnil, List.splitOn_nil, List.append_assoc] at hsplit
    cases pre with
    | nil => exact hne ((List.cons.inj hsplit).1).symm
    | cons x pre => simpa using congrArg List.length hsplit
  obtain ⟨hkept, hpre, hpost, hq⟩ := hc.kept_eq f64 h key htext
  rw [unmodelled_eq_ok, linesExcludingTarget_eq (hc.text_ne_nil hraw), linesExcludingTarget_eq hcand,
    splitOn_emitText _ hls (by simp), returnless_iff, hkept, kept_append, kept_append, kept_lastPiece,
    hpre]
  cases htarget : lineIsTarget f64 h raw key with
  | true =>
    rw [kept_cons_of_target (hq.trans htarget), kept_cons_of_target (hsame.trans htarget), hpost,
      ← map_lastPiece, ← List.map_append, ← List.map_append, map_lastPiece, sublist_map_iff]
    simp
  | false =>
    rw [kept_cons_of_not_target (hq.trans htarget), kept_cons_of_not_target (hsame.trans htarget),
      hpost]
    generalize kept f64 h key qs = xs, kept f64 h key qs' = ys
    constructor
    · intro hsub
      have heq := hsub.eq_of_length (by simp)
      simp only [List.append_assoc, List.cons_append] at heq
      obtain ⟨hxs, hrest⟩ := List.append_inj heq (List.length_map _).symm
      obtain ⟨hnewq, hrest⟩ := List.cons.inj hrest
      have hys := List.append_cancel_right hrest
      have hsame : stripReturn q = q := by
        rcases stripReturn_cases q with hcr | ⟨hno, -⟩
        · rw [hc.raw_eq] at hcr
          exact absurd (hnewq.symm.trans hcr) hreturn
        · exact hno
      have hfixed : ∀ {zs : List Str}, zs = zs.map stripReturn → ∀ p ∈ zs, stripReturn p = p :=
        fun hzs => sublist_map_iff.1 (hzs ▸ List.Sublist.refl _)
      refine ⟨fun p hp => ?_, .inr (by rw [← hnewq, ← hsame, hc.raw_eq])⟩
      rcases List.mem_append.1 hp with hp | hp
      · rcases List.mem_append.1 hp with hp | hp
        · exact hfixed hxs p hp
        · rcases List.mem_cons.1 hp with rfl | hp
          · exact hsame
          · exact hfixed hys p hp
      · exact hfixed (map_lastPiece _).symm p hp
    · rintro ⟨hall, hnewraw⟩
      have hsame : stripReturn q = q := hall q (by simp)
      have hxs : xs.map stripReturn = xs := by
        rw [List.map_congr_left fun p hp => hall p (by simp [hp]), List.map_id']
      have hys : ys.map stripReturn = ys := by
        rw [List.map_congr_left fun p hp => hall p (by simp [hp]), List.map_id']
      have hnew : new = q := by
        rw [hnewraw.resolve_left (by simp), ← hc.raw_eq, hsame]
      rw [hxs, hys, hnew]

/-- Nothing is written for no line, and for an empty line without a line feed. -/
theorem emitText_eq_nil {newline : Bool} (hls : ∀ l ∈ ls, '\n' ∉ l) :
    LineModel.emitText ls newline = [] ↔ ls = [] ∨ ls = [[]] ∧ newline = false := by
  constructor
  · intro hnil
    by_cases hne : ls = []
    · exact .inl hne
    · have hsplit := splitOn_emitText newline hls hne
      rw [hnil, List.splitOn_nil] at hsplit
      obtain ⟨l, ls, rfl⟩ := List.exists_cons_of_ne_nil hne
      obtain ⟨rfl, hrest⟩ := List.cons.inj hsplit
      obtain ⟨rfl, hlast⟩ := List.append_eq_nil_iff.1 hrest.symm
      refine .inr ⟨rfl, ?_⟩
      cases newline with
      | true => cases hlast
      | false => rfl
  · rintro (rfl | ⟨rfl, rfl⟩)
    · cases newline <;> rfl
    · rfl

/-- **What is compared when the key's line is taken away.** -/
theorem unmodelled_remove_iff (hc : Cut text pre raw post qs q qs')
    (htext : Text.byteLen text ≤ maxConfigBytes) (hraw : raw ≠ []) :
    checkUnmodelledPreserved f64 h text
        (LineModel.emitText (pre ++ post) (text.getLast? == some '\n')) key = .ok () ↔
      Returnless f64 h text key ∧ lineIsTarget f64 h raw key = true ∧
        ¬ ((text.splitOn '\n').length = 2 ∧ [] ∈ text.splitOn '\n') := by
  have hlines := hc.no_newline
  have hls : ∀ l ∈ pre ++ post, '\n' ∉ l := by
    intro l hl
    rcases List.mem_append.1 hl with hl | hl
    · exact hlines l (List.mem_append_left _ hl)
    · exact hlines l (List.mem_append_right _ (List.mem_cons_of_mem _ hl))
  have hqne : q ≠ [] := by
    rintro rfl
    exact hraw hc.raw_eq.symm
  obtain ⟨hkept, hpre, hpost, hq⟩ := hc.kept_eq f64 h key htext
  rw [unmodelled_eq_ok, linesExcludingTarget_eq (hc.text_ne_nil hraw)]
  by_cases hcand : LineModel.emitText (pre ++ post) (text.getLast? == some '\n') = []
  · have hempty : linesExcludingTarget f64 h
        (LineModel.emitText (pre ++ post) (text.getLast? == some '\n')) key = [] := by
      rw [hcand]
      rfl
    rw [hempty, List.sublist_nil]
    constructor
    · intro hkeptnil
      have hall : ∀ p ∈ text.splitOn '\n', lineIsTarget f64 h p key = true := by
        simpa [kept, List.filter_eq_nil_iff] using hkeptnil
      refine ⟨fun p hp _ => hall p hp, ?_, fun ⟨_, hmem⟩ => ?_⟩
      · rw [← hq]
        exact hall q (by rw [hc.pieces]; simp)
      · have := hall [] hmem
        rw [lineIsTarget_nil] at this
        cases this
    · rintro ⟨hreturnless, htarget, htwo⟩
      have hshort := (emitText_eq_nil hls).1 hcand
      have hlen : qs.length + qs'.length = (pre ++ post).length := by
        rw [← hc.pre_eq, ← hc.post_eq]
        simp
      rw [returnless_iff] at hreturnless
      refine List.eq_nil_iff_forall_not_mem.2 fun p hp => htwo ?_
      have hsame := hreturnless p hp
      rw [hkept, kept_cons_of_target (hq.trans htarget)] at hp
      rw [hc.pieces]
      rcases List.mem_append.1 hp with hp | hp
      · -- A line is left, and it is empty.
        have hmem : p ∈ qs ∨ p ∈ qs' := by
          rcases List.mem_append.1 hp with hp | hp
          · exact .inl (List.mem_of_mem_filter hp)
          · exact .inr (List.mem_of_mem_filter hp)
        have hline : p ∈ pre ++ post := by
          rw [← hc.pre_eq, ← hc.post_eq, ← List.map_append, ← hsame]
          exact List.mem_map_of_mem (List.mem_append.2 hmem)
        rcases hshort with hnil | ⟨hone, hnewline⟩
        · rw [hnil] at hline
          cases hline
        · rw [hone] at hline hlen
          rw [List.mem_singleton.1 hline] at hmem
          rw [hnewline]
          refine ⟨by simp [lastPiece] at hlen ⊢; omega, ?_⟩
          rcases hmem with hmem | hmem <;> simp [hmem]
      · cases hnewline : (text.getLast? == some '\n') with
        | false =>
          rw [hnewline] at hp
          cases hp
        | true =>
          rcases hshort with hnil | ⟨-, hfalse⟩
          · rw [hnil, List.length_nil] at hlen
            have hqs : qs = [] := List.eq_nil_of_length_eq_zero (by omega)
            have hqs' : qs' = [] := List.eq_nil_of_length_eq_zero (by omega)
            rw [hqs, hqs']
            exact ⟨rfl, by simp [lastPiece]⟩
          · rw [hnewline] at hfalse
            cases hfalse
  · have hnil : pre ++ post ≠ [] := fun hnil => hcand ((emitText_eq_nil hls).2 (.inl hnil))
    rw [linesExcludingTarget_eq hcand, splitOn_emitText _ hls hnil, kept_append, kept_append,
      kept_lastPiece, hpre, hpost, returnless_iff, hkept]
    have htwo : ¬ ((text.splitOn '\n').length = 2 ∧ [] ∈ text.splitOn '\n') := by
      rw [hc.pieces]
      rintro ⟨hlen, hmem⟩
      have hlines : pre ++ post = (qs ++ qs').map stripReturn := by
        rw [← hc.pre_eq, ← hc.post_eq, List.map_append]
      cases hnewline : (text.getLast? == some '\n') with
      | true =>
        rw [hnewline] at hlen
        simp only [List.length_append, List.length_cons, lastPiece, if_true, List.length_nil] at hlen
        have hqs : qs = [] := List.eq_nil_of_length_eq_zero (by omega)
        have hqs' : qs' = [] := List.eq_nil_of_length_eq_zero (by omega)
        rw [hqs, hqs'] at hlines
        exact hnil hlines
      | false =>
        rw [hnewline] at hlen hmem hcand
        simp only [List.length_append, List.length_cons, lastPiece, Bool.false_eq_true, if_false,
          List.append_nil] at hlen hmem
        have hmem' : [] ∈ qs ++ qs' := by
          simp only [List.mem_append, List.mem_cons] at hmem ⊢
          have := Ne.symm hqne
          tauto
        obtain ⟨x, hx⟩ := List.length_eq_one_iff.1 (by simp; omega : (qs ++ qs').length = 1)
        rw [hx, List.mem_singleton] at hmem'
        rw [hx, ← hmem'] at hlines
        exact hcand ((emitText_eq_nil hls).2 (.inr ⟨hlines, rfl⟩))
    cases htarget : lineIsTarget f64 h raw key with
    | true =>
      rw [kept_cons_of_target (hq.trans htarget), ← map_lastPiece, ← List.map_append,
        ← List.map_append, map_lastPiece, sublist_map_iff]
      simp [htwo]
    | false =>
      rw [kept_cons_of_not_target (hq.trans htarget)]
      refine iff_of_false (fun hsub => ?_) fun hall => by simp at hall
      have hlen := hsub.length_le
      simp only [List.length_append, List.length_map, List.length_cons] at hlen
      omega

end Compared

/-! ## Numbers and booleans -/

theorem ofDigitChars_eq_zero {ds : List Char} (hds : ∀ c ∈ ds, c.isDigit = true) :
    Nat.ofDigitChars 10 ds 0 = 0 ↔ ∀ c ∈ ds, c = '0' := by
  induction ds with
  | nil => simp
  | cons c ds ih =>
    have hc := hds c List.mem_cons_self
    have hrest := ih fun c hc => hds c (List.mem_cons_of_mem _ hc)
    have hpow : 0 < 10 ^ ds.length := Nat.pow_pos (by decide)
    have hzero : c.toNat - 48 = 0 ↔ c = '0' := by
      constructor
      · intro h48
        rw [Char.isDigit, Bool.and_eq_true, decide_eq_true_eq, decide_eq_true_eq] at hc
        have hge : 48 ≤ c.toNat := hc.1
        have heq : c.toNat = '0'.toNat := by
          show c.toNat = 48
          omega
        exact Char.ext (UInt32.toNat_inj.1 heq)
      · rintro rfl
        rfl
    rw [Nat.ofDigitChars_cons, Nat.ofDigitChars_eq_ofDigitChars_zero, List.forall_mem_cons, ← hrest]
    show 10 ^ ds.length * (10 * 0 + (c.toNat - 48)) + _ = 0 ↔ _
    rw [Nat.add_eq_zero_iff, Nat.mul_eq_zero, ← hzero]
    simp

/-- Digits behind a number change it, but for zeros behind zero. -/
theorem ofDigitChars_append_eq_iff {n : Nat} (ht : ∀ c ∈ t, c.isDigit = true) :
    Nat.ofDigitChars 10 (Nat.toDigits 10 n ++ t) 0 = n ↔ t = [] ∨ n = 0 ∧ ∀ c ∈ t, c = '0' := by
  rw [Nat.ofDigitChars_append, Nat.ofDigitChars_ten_toDigits,
    Nat.ofDigitChars_eq_ofDigitChars_zero, ← ofDigitChars_eq_zero ht]
  cases t with
  | nil => simp
  | cons c t =>
    have hpow : 1 ≤ 10 ^ t.length := Nat.pow_pos (by decide)
    have hmul : 10 * n ≤ 10 ^ (c :: t).length * n := by
      rw [List.length_cons, Nat.pow_succ']
      exact Nat.mul_le_mul_right _ (by omega)
    constructor
    · intro heq
      have hn : n = 0 := by omega
      exact .inr ⟨hn, by rw [hn] at heq; simpa using heq⟩
    · rintro (hnil | ⟨rfl, hzero⟩)
      · cases hnil
      · rw [hzero]
        simp

/-- The number that digits stand for, with its sign. -/
def signed (negative : Bool) (digits : Str) : Option Int :=
  if digits.isEmpty ∨ digits.all Char.isDigit = false then none
  else
    let n := (digits.foldl (fun n c => 10 * n + (c.toNat - 48)) 0 : Nat)
    let i : Int := if negative then -n else n
    if -2 ^ 63 ≤ i ∧ i < 2 ^ 63 then some i else none

theorem parseI64_minus (ds : Str) : parseI64 ('-' :: ds) = signed true ds := rfl

theorem parseI64_of_digit {c : Char} (hc : c.isDigit = true) (ds : Str) :
    parseI64 (c :: ds) = signed false (c :: ds) := by
  unfold parseI64
  split
  · next heq =>
    split at heq
    · next hs => exact absurd ((List.cons.inj hs).1 ▸ hc) (by decide)
    · next hs => exact absurd ((List.cons.inj hs).1 ▸ hc) (by decide)
    · cases heq
      rfl

theorem signed_append_iff {negative : Bool} {n : Nat} {i : Int}
    (hi : i = if negative then -(n : Int) else n) (hlow : -2 ^ 63 ≤ i) (hhigh : i < 2 ^ 63) (t : Str) :
    signed negative (Nat.toDigits 10 n ++ t) = some i ↔
      t = [] ∨ n = 0 ∧ ∀ c ∈ t, c = '0' := by
  have hdigits : ∀ c ∈ Nat.toDigits 10 n, c.isDigit = true := fun c hc =>
    Nat.isDigit_of_mem_toDigits (by decide) (Nat.le_refl 10) hc
  have hfold : (Nat.toDigits 10 n ++ t).foldl (fun n c => 10 * n + (c.toNat - 48)) 0 =
      Nat.ofDigitChars 10 (Nat.toDigits 10 n ++ t) 0 := Nat.ofDigitChars_eq_foldl.symm
  have hempty : (Nat.toDigits 10 n ++ t).isEmpty = false := by
    simp [Nat.toDigits_ne_nil]
  unfold signed
  simp only [hempty, hfold, Bool.false_eq_true, false_or]
  by_cases ht : ∀ c ∈ t, c.isDigit = true
  · have hall : ¬ (Nat.toDigits 10 n ++ t).all Char.isDigit = false := by
      rw [Bool.not_eq_false, List.all_eq_true]
      intro c hc
      rcases List.mem_append.1 hc with hc | hc
      · exact hdigits c hc
      · exact ht c hc
    rw [if_neg hall, ← ofDigitChars_append_eq_iff ht]
    generalize Nat.ofDigitChars 10 (Nat.toDigits 10 n ++ t) 0 = m
    have hrange : ∀ j : Int, (if -2 ^ 63 ≤ j ∧ j < 2 ^ 63 then some j else none) = some i ↔ j = i := by
      intro j
      constructor
      · intro heq
        rw [Option.ite_none_right_eq_some] at heq
        exact Option.some.inj heq.2
      · rintro rfl
        exact if_pos ⟨hlow, hhigh⟩
    rw [hrange, hi]
    cases negative with
    | true =>
      rw [if_pos rfl, if_pos rfl]
      omega
    | false =>
      rw [if_neg (by decide), if_neg (by decide)]
      omega
  · have hall : (Nat.toDigits 10 n ++ t).all Char.isDigit = false := by
      rw [← Bool.not_eq_true, List.all_eq_true]
      exact fun hall => ht fun c hc => hall c (List.mem_append_right _ hc)
    rw [if_pos hall]
    refine iff_of_false (fun h => by cases h) fun h => ht ?_
    rcases h with rfl | ⟨-, hzero⟩
    · exact fun c hc => by cases hc
    · intro c hc
      rw [hzero c hc]
      decide

/-- **A printed integer, with something behind it.** -/
theorem parseI64_append_iff {i : Int} (hlow : -2 ^ 63 ≤ i) (hhigh : i < 2 ^ 63) (t : Str) :
    parseI64 ((toString i).toList ++ t) = some i ↔ t = [] ∨ i = 0 ∧ ∀ c ∈ t, c = '0' := by
  rw [Json.toList_toString_int]
  split
  · next hneg =>
    rw [List.cons_append, parseI64_minus,
      signed_append_iff (i := i) (by rw [if_pos rfl]; omega) hlow hhigh, Int.natAbs_eq_zero]
  · next hpos =>
    obtain ⟨c, ds, hds⟩ := List.exists_cons_of_ne_nil (Nat.toDigits_ne_nil (n := i.natAbs) (b := 10))
    have hc : c.isDigit = true :=
      Nat.isDigit_of_mem_toDigits (by decide) (Nat.le_refl 10) (hds ▸ List.mem_cons_self)
    rw [hds, List.cons_append, parseI64_of_digit hc, ← List.cons_append, ← hds,
      signed_append_iff (i := i) (by rw [if_neg (by decide)]; omega) hlow hhigh, Int.natAbs_eq_zero]

theorem parseBool_append_iff (b : Bool) (t : Str) :
    parseBool ((toString b).toList ++ t) = some b ↔ t = [] := by
  have htrue : (toString true).toList = "true".toList := rfl
  have hfalse : (toString false).toList = "false".toList := rfl
  cases b with
  | true =>
    rw [htrue]
    cases t <;> simp [parseBool]
  | false =>
    rw [hfalse]
    cases t <;> simp [parseBool]

/-! ## What a bare token is read as -/

variable (f64 d) in
theorem scalar_bare {s : Str} (hq : ∀ c r, s = c :: r → c ≠ '"' ∧ c ≠ '\'') :
    (∀ b, scalar f64 d s = .bool b ↔ parseBool s = some b) ∧
      ∀ i, scalar f64 d s = .int i ↔ parseBool s = none ∧ parseI64 s = some i := by
  have hstrip : stripSurroundingQuotes s = s := by
    unfold stripSurroundingQuotes
    split
    · rfl
    · next c r =>
      rw [if_neg fun h => ?_]
      exact (not_or.2 (hq c r rfl)) h.1
  have hjs : stripJsString s = none := by
    unfold stripJsString
    split
    · rfl
    · next c r =>
      rw [if_neg fun h => ?_]
      exact (hq c r rfl).1 h.1
  unfold scalar parseScalar parseJsScalar
  simp only [hstrip, hjs, ne_eq, not_true_eq_false, if_false]
  cases parseBool s with
  | some b => cases d.statement <;> simp
  | none =>
    cases parseI64 s with
    | some i => cases d.statement <;> simp
    | none => cases d.statement <;> cases parseFloat f64 s <;> simp

/-- A boolean or an `i64`. -/
def Plain : ConfigValue F → Prop
  | .bool _ => True
  | .int i => -2 ^ 63 ≤ i ∧ i < 2 ^ 63
  | _ => False

def plainToken : ConfigValue F → Str
  | .bool b => (toString b).toList
  | .int i => (toString i).toList
  | _ => []

/-- Nothing runs on behind the token, or zeros do behind a zero. -/
def Clear (value : ConfigValue F) (t : Str) : Prop :=
  t = [] ∨ value = .int 0 ∧ ∀ c ∈ t, c = '0'

variable {value : ConfigValue F}

theorem serialize_plain (hv : Plain value) (m : LineModel F) :
    m.serializeValue f64 value = .ok (plainToken value) := by
  cases value with
  | bool b => rfl
  | int i => rfl
  | string s => exact hv.elim
  | float f => exact hv.elim
  | opaqueValue => exact hv.elim

theorem mem_plainToken (hv : Plain value) :
    plainToken value ≠ [] ∧ ∀ c ∈ plainToken value, c.isDigit = true ∨ c = '-' ∨ c ∈ "truefals".toList := by
  cases value with
  | bool b =>
    have htrue : "true".toList ≠ [] ∧ ∀ c ∈ "true".toList, c.isDigit = true ∨ c = '-' ∨
        c ∈ "truefals".toList := ⟨by decide, by decide⟩
    have hfalse : "false".toList ≠ [] ∧ ∀ c ∈ "false".toList, c.isDigit = true ∨ c = '-' ∨
        c ∈ "truefals".toList := ⟨by decide, by decide⟩
    cases b with
    | true => exact htrue
    | false => exact hfalse
  | int i =>
    show (toString i).toList ≠ [] ∧ ∀ c ∈ (toString i).toList, _
    rw [Json.toList_toString_int]
    have hdigits : ∀ c ∈ Nat.toDigits 10 i.natAbs, c.isDigit = true := fun c hc =>
      Nat.isDigit_of_mem_toDigits (by decide) (Nat.le_refl 10) hc
    split
    · refine ⟨by simp, fun c hc => ?_⟩
      rcases List.mem_cons.1 hc with hc | hc
      · exact .inr (.inl hc)
      · exact .inl (hdigits c hc)
    · exact ⟨Nat.toDigits_ne_nil, fun c hc => .inl (hdigits c hc)⟩
  | string s => exact hv.elim
  | float f => exact hv.elim
  | opaqueValue => exact hv.elim

/-- What a printed value is not made of. -/
theorem not_mem_plainToken (hv : Plain value) {c : Char} (hdigit : c.isDigit = false) (hsign : c ≠ '-')
    (hletter : c ∉ "truefals".toList) : c ∉ plainToken value := by
  intro hc
  rcases (mem_plainToken hv).2 c hc with h | h | h
  · rw [h] at hdigit
    cases hdigit
  · exact hsign h
  · exact hletter h

theorem bare_plain (hv : Plain value) : Bare h.dialect (plainToken value) := by
  have hno : ∀ {c : Char}, c.isDigit = false → c ≠ '-' → c ∉ "truefals".toList →
      c ∉ plainToken value := fun hd hs hl => not_mem_plainToken hv hd hs hl
  have hletters : ∀ c ∈ "truefals".toList, isWhitespace c = false := by decide
  refine ⟨(mem_plainToken hv).1, fun c hc => ?_, fun c hc => ⟨?_, ?_⟩, ?_, fun _ c hc => ?_⟩
  · rcases (mem_plainToken hv).2 c hc with hd | rfl | hl
    · exact isWhitespace_of_isDigit hd
    · decide
    · exact hletters c hl
  · rintro rfl
    exact hno (by decide) (by decide) (by decide) hc
  · rintro rfl
    exact hno (by decide) (by decide) (by decide) hc
  · have hcomment : h.dialect.commentChar = '#' := by cases h <;> rfl
    rw [hcomment]
    exact hno (by decide) (by decide) (by decide)
  · rw [Bool.or_eq_false_iff, beq_eq_false_iff_ne, beq_eq_false_iff_ne]
    constructor <;> rintro rfl <;> exact hno (by decide) (by decide) (by decide) hc

theorem token_plain (hv : Plain value) : Token h.dialect (plainToken value) := by
  obtain ⟨c, s, hcs⟩ := List.exists_cons_of_ne_nil (mem_plainToken hv).1
  have hc : c ∈ plainToken value := hcs ▸ List.mem_cons_self
  exact ⟨⟨c, s, hcs, (bare_plain (h := h) hv).solid c hc⟩, fun _ =>
    not_mem_plainToken hv (by decide) (by decide) (by decide)⟩

theorem scalar_plain_iff (hv : Plain value) (t : Str) :
    scalar f64 d (plainToken value ++ t) = value ↔ Clear value t := by
  have hq : ∀ c r, plainToken value ++ t = c :: r → c ≠ '"' ∧ c ≠ '\'' := by
    intro c r hcr
    obtain ⟨x, s, hxs⟩ := List.exists_cons_of_ne_nil (mem_plainToken hv).1
    rw [hxs, List.cons_append, List.cons.injEq] at hcr
    rw [← hcr.1]
    exact (bare_plain (h := .flat) hv).unquoted x (hxs ▸ List.mem_cons_self)
  obtain ⟨hbool, hint⟩ := scalar_bare f64 d hq
  unfold Clear
  cases value with
  | bool b =>
    rw [hbool]
    refine (parseBool_append_iff b t).trans ⟨.inl, fun hor => hor.resolve_right fun h => ?_⟩
    cases h.1
  | int i =>
    rw [hint]
    have hi := parseI64_append_iff hv.1 hv.2 t
    have hnone : parseI64 ((toString i).toList ++ t) = some i →
        parseBool ((toString i).toList ++ t) = none := by
      intro hsome
      unfold parseBool
      have htrue : parseI64 "true".toList = none := rfl
      have hfalse : parseI64 "false".toList = none := rfl
      rw [if_neg fun heq => ?_, if_neg fun heq => ?_]
      · rw [heq, hfalse] at hsome
        cases hsome
      · rw [heq, htrue] at hsome
        cases hsome
    constructor
    · rintro ⟨-, hsome⟩
      rcases hi.1 hsome with ht | ⟨hzero, ht⟩
      · exact .inl ht
      · exact .inr ⟨by rw [hzero], ht⟩
    · intro hor
      have hsome : parseI64 ((toString i).toList ++ t) = some i := by
        refine hi.2 ?_
        rcases hor with ht | ⟨hzero, ht⟩
        · exact .inl ht
        · exact .inr ⟨ConfigValue.int.inj hzero, ht⟩
      exact ⟨hnone hsome, hsome⟩
  | string s => exact hv.elim
  | float f => exact hv.elim
  | opaqueValue => exact hv.elim

/-! ## Edits let through -/

theorem scalar_ne_opaqueValue (s : Str) : scalar f64 d s ≠ .opaqueValue := by
  unfold scalar parseJsScalar parseScalar
  split
  · split
    · simp
    · split
      · simp
      · split
        · simp
        · cases parseFloat f64 s <;> simp
  · simp only
    split
    · simp
    · split
      · simp
      · split
        · simp
        · cases parseFloat f64 (stripSurroundingQuotes s) <;> simp

theorem value_ne_opaqueValue (hd : Proper d) (hline : parseLine f64 d sec raw = .keyVal kv) :
    kv.value ≠ .opaqueValue := by
  have hkv := parseKeyLine_of_parseLine hline
  rw [parseKeyLine_eq hd] at hkv
  obtain ⟨⟨name, region⟩, -, hkv⟩ := Option.bind_eq_some_iff.1 hkv
  obtain ⟨t, -, rfl⟩ := Option.map_eq_some_iff.1 hkv
  exact scalar_ne_opaqueValue t

/-- A line rewritten with a plain value is not the line with a carriage return more. -/
theorem rewritten_ne_append_return (hd : Proper d) (hline : parseLine f64 d sec raw = .keyVal kv)
    (htoken : '\r' ∉ token) : kv.rewritten token ≠ raw ++ ['\r'] := by
  have hkv := parseKeyLine_of_parseLine hline
  rw [parseKeyLine_eq hd] at hkv
  obtain ⟨⟨name, region⟩, -, hkv⟩ := Option.bind_eq_some_iff.1 hkv
  obtain ⟨t, -, rfl⟩ := Option.map_eq_some_iff.1 hkv
  intro heq
  have hcount := congrArg (List.count '\r') heq
  unfold KeyVal.rewritten at hcount
  simp only [List.count_append, List.count_eq_zero_of_not_mem htoken] at hcount
  generalize raw.length - (Text.trimStart region).length = start at hcount
  have htake : (raw.take start).count '\r' ≤ (raw.take (start + t.length)).count '\r' :=
    (List.take_sublist_take_left (Nat.le_add_right _ _)).count_le _
  have hwhole := congrArg (List.count '\r') (List.take_append_drop (start + t.length) raw)
  rw [List.count_append] at hwhole
  simp at hcount
  omega

/-- **What the self-check asks.** -/
theorem verify_eq_ok [DecidableEq F] {candidateText : Str} {original : ConfigModel F}
    {expected : Option (ConfigValue F)} :
    verify f64 h text candidateText original key expected = .ok () ↔ ∃ candidate,
      h.read f64 candidateText = .ok candidate ∧ editApplied candidate key expected = true ∧
        checkSiblingsUnchanged original candidate key = .ok () ∧
          checkUnmodelledPreserved f64 h text candidateText key = .ok () := by
  unfold verify
  cases hread : h.read f64 candidateText with
  | error e => simp
  | ok candidate =>
    simp only [Except.ok.injEq, exists_eq_left']
    cases happlied : editApplied candidate key expected with
    | false => simp
    | true =>
      rw [if_neg (by decide)]
      cases hsiblings : checkSiblingsUnchanged original candidate key with
      | error e => simp
      | ok u => simp

theorem said_of_le (htext : Text.byteLen text ≤ maxConfigBytes) :
    h.read f64 text = .ok (said f64 h text) := by
  rw [read_eq, if_neg (Nat.not_lt.2 htext)]
  rfl

theorem entries_replaced {new : Str}
    (hheading : (parseLine f64 d (sectionAfter f64 d sec pre) new).heading = none) :
    entries f64 d sec (pre ++ new :: post) = entries f64 d sec pre ++
      (parseLine f64 d (sectionAfter f64 d sec pre) new).entry.toList ++
        entries f64 d (sectionAfter f64 d sec pre) post := by
  rw [entries_append, entries_cons, hheading, List.append_assoc]
  rfl

theorem sum_stripReturn (ls : List Str) : (ls.map fun p => Text.byteLen p + 1).sum =
    ((ls.map stripReturn).map fun p => Text.byteLen p + 1).sum +
      ls.countP endsInReturn := by
  induction ls with
  | nil => rfl
  | cons l ls ih =>
    rw [List.map_cons, List.map_cons, List.map_cons, List.sum_cons, List.sum_cons, ih,
      List.countP_cons, byteLen_stripReturn l]
    omega

/-- The size of the text with another line in the key's place. -/
theorem Cut.byteLen_replaced (hc : Cut text pre raw post qs q qs') {new : Str}
    (hnew : '\n' ∉ new) : Text.byteLen text + Text.byteLen new =
      Text.byteLen (LineModel.emitText (pre ++ new :: post) (text.getLast? == some '\n')) +
        Text.byteLen raw + returns text := by
  have hlines := hc.no_newline
  have hls : ∀ l ∈ pre ++ new :: post, '\n' ∉ l := by
    intro l hl
    rcases List.mem_append.1 hl with hl | hl
    · exact hlines l (List.mem_append_left _ hl)
    · rcases List.mem_cons.1 hl with rfl | hl
      · exact hnew
      · exact hlines l (List.mem_append_right _ (List.mem_cons_of_mem _ hl))
  have hlast : (lastPiece (text.getLast? == some '\n')).countP endsInReturn = 0 := by
    cases text.getLast? == some '\n' <;> rfl
  have hold := byteLen_splitOn text
  have hcand := byteLen_splitOn (LineModel.emitText (pre ++ new :: post) (text.getLast? == some '\n'))
  rw [splitOn_emitText _ hls (by simp)] at hcand
  unfold returns
  rw [hc.pieces] at hold ⊢
  simp only [List.map_append, List.map_cons, List.sum_append, List.sum_cons, List.countP_append,
    List.countP_cons, hlast] at hold hcand ⊢
  rw [sum_stripReturn qs, sum_stripReturn qs', hc.pre_eq, hc.post_eq, byteLen_stripReturn q,
    hc.raw_eq] at hold
  omega

theorem Cut.byteLen_removed_le (hc : Cut text pre raw post qs q qs') :
    Text.byteLen (LineModel.emitText (pre ++ post) (text.getLast? == some '\n')) ≤
      Text.byteLen text := by
  have hlines := hc.no_newline
  have hls : ∀ l ∈ pre ++ post, '\n' ∉ l := by
    intro l hl
    rcases List.mem_append.1 hl with hl | hl
    · exact hlines l (List.mem_append_left _ hl)
    · exact hlines l (List.mem_append_right _ (List.mem_cons_of_mem _ hl))
  by_cases hnil : pre ++ post = []
  · rw [(emitText_eq_nil hls).2 (.inl hnil)]
    exact Nat.zero_le _
  · have hold := byteLen_splitOn text
    have hcand := byteLen_splitOn (LineModel.emitText (pre ++ post) (text.getLast? == some '\n'))
    rw [splitOn_emitText _ hls hnil] at hcand
    rw [hc.pieces] at hold
    simp only [List.map_append, List.map_cons, List.sum_append, List.sum_cons] at hold hcand
    rw [sum_stripReturn qs, sum_stripReturn qs', hc.pre_eq, hc.post_eq] at hold
    omega

/-- The key stands in no section, or its name in the section has no dot. -/
def NamedAlone (f64 : Float64 F) (h : LineFormat) (pre : List Str) (key : Str) : Prop :=
  ∀ s, sectionAfter f64 h.dialect none pre = some s → '.' ∉ key.drop (s.length + 1)

theorem namesTarget_append_iff (s name : Str) :
    namesTarget (s ++ '.' :: name) name = true ↔ '.' ∉ name := by
  have hne : name ≠ s ++ '.' :: name := by
    intro heq
    have := congrArg List.length heq
    simp at this
    omega
  unfold namesTarget rsplitOnce
  rw [beq_eq_false_iff_ne.2 hne, Bool.false_or]
  by_cases hdot : '.' ∈ name
  · obtain ⟨a, b, hname, hb⟩ : ∃ a b, name = a ++ '.' :: b ∧ '.' ∉ b := by
      obtain ⟨x, y, hxy, hx⟩ := List.eq_append_cons_of_mem (List.mem_reverse.2 hdot)
      refine ⟨y.reverse, x.reverse, ?_, by simpa using hx⟩
      rw [← List.reverse_reverse name, hxy]
      simp
    have hsplit : Text.splitOnce '.' (s ++ '.' :: name).reverse =
        some (b.reverse, (s ++ '.' :: a).reverse) :=
      Text.splitOnce_eq_some.2 ⟨by rw [hname]; simp, by simpa using hb⟩
    rw [hsplit]
    refine iff_of_false (fun h => ?_) fun h => h hdot
    simp only [Option.map_some, List.reverse_reverse, beq_iff_eq] at h
    rw [h] at hname
    have := congrArg List.length hname
    simp at this
    omega
  · have hsplit : Text.splitOnce '.' (s ++ '.' :: name).reverse =
        some (name.reverse, s.reverse) :=
      Text.splitOnce_eq_some.2 ⟨by simp, by simpa using hdot⟩
    rw [hsplit]
    exact iff_of_true (by simp) hdot

namespace OnlyLine

theorem raw_ne_nil (ho : OnlyLine f64 h text key pre raw post kv) : raw ≠ [] := by
  rintro rfl
  have hline := ho.line
  cases hline

/-- The entries before the line and behind it. -/
theorem said_eq (ho : OnlyLine f64 h text key pre raw post kv) : said f64 h text =
    entries f64 h.dialect none pre ++ [(key, kv.value)] ++
      entries f64 h.dialect (sectionAfter f64 h.dialect none pre) post := by
  unfold said
  rw [ho.cut, entries_append, entries_cons, ho.line, List.append_assoc]
  simp only [Line.entry, Line.heading, Option.none_or, ho.key_eq]
  rfl

theorem get_eq (ho : OnlyLine f64 h text key pre raw post kv) (e : Option (ConfigValue F)) :
    ConfigModel.get (entries f64 h.dialect none pre ++ (e.map (key, ·)).toList ++
      entries f64 h.dialect (sectionAfter f64 h.dialect none pre) post) key = e := by
  have hpre : (entries f64 h.dialect none pre).lookup key = none :=
    lookup_of_forall_ne (not_mem_entries ho.before)
  have hpost : (entries f64 h.dialect (sectionAfter f64 h.dialect none pre) post).lookup key = none :=
    lookup_of_forall_ne (not_mem_entries ho.after)
  unfold ConfigModel.get
  rw [List.lookup_append, List.lookup_append, hpre, hpost]
  cases e with
  | none => rfl
  | some v => simp

/-- **Which removal is let through.** -/
theorem checkedRemove_iff [DecidableEq F] (ho : OnlyLine f64 h text key pre raw post kv)
    (htext : Text.byteLen text ≤ maxConfigBytes) :
    (∃ out, checkedRemove f64 h text key = .ok out) ↔ Agree f64 h text key ∧
      Returnless f64 h text key ∧ lineIsTarget f64 h raw key = true ∧
        ¬ ((text.splitOn '\n').length = 2 ∧ [] ∈ text.splitOn '\n') := by
  obtain ⟨qs, q, qs', hcut⟩ := exists_cut ho.cut
  have hlines := hcut.no_newline
  have hls : ∀ l ∈ pre ++ post, '\n' ∉ l := by
    intro l hl
    rcases List.mem_append.1 hl with hl | hl
    · exact hlines l (List.mem_append_left _ hl)
    · exact hlines l (List.mem_append_right _ (List.mem_cons_of_mem _ hl))
  have hread : h.read f64 (LineModel.emitText (pre ++ post) (text.getLast? == some '\n')) =
      .ok (entries f64 h.dialect none pre ++ [] ++
        entries f64 h.dialect (sectionAfter f64 h.dialect none pre) post) := by
    rw [read_eq, if_neg (Nat.not_lt.2 (hcut.byteLen_removed_le.trans htext)),
      entries_emitText h.proper hls, entries_append, List.append_nil]
  have hremove : h.remove f64 text key =
      .ok (LineModel.emitText (pre ++ post) (text.getLast? == some '\n')) := by
    unfold LineFormat.remove
    rw [parse_of_le htext]
    simp only
    rw [ho.toCarried.remove_eq]
  have happlied : editApplied (entries f64 h.dialect none pre ++ [] ++
      entries f64 h.dialect (sectionAfter f64 h.dialect none pre) post) key none = true := by
    have hget := ho.get_eq none
    unfold editApplied
    simp only
    exact Option.isNone_iff_eq_none.2 hget
  have hiff : verify f64 h text (LineModel.emitText (pre ++ post) (text.getLast? == some '\n'))
      (said f64 h text) key none = .ok () ↔ Agree f64 h text key ∧
        Returnless f64 h text key ∧ lineIsTarget f64 h raw key = true ∧
          ¬ ((text.splitOn '\n').length = 2 ∧ [] ∈ text.splitOn '\n') := by
    rw [verify_eq_ok, hread]
    simp only [Except.ok.injEq, exists_eq_left', happlied, true_and]
    rw [unmodelled_remove_iff hcut htext ho.raw_ne_nil, ho.said_eq, siblings_iff
      (fun p hp => by rw [List.mem_singleton.1 hp]) (fun p hp => by cases hp), ← ho.said_eq]
    rfl
  unfold checkedRemove
  rw [said_of_le htext]
  simp only
  rw [hremove]
  simp only
  cases hverify : verify f64 h text (LineModel.emitText (pre ++ post) (text.getLast? == some '\n'))
      (said f64 h text) key none with
  | error e =>
    refine iff_of_false (by rintro ⟨_, hout⟩; cases hout) fun hall => ?_
    cases hverify.symm.trans (hiff.2 hall)
  | ok u => exact iff_of_true ⟨_, rfl⟩ (hiff.1 hverify)

/-- What the key's line is read as with a plain value in place. -/
theorem entry_plain (ho : OnlyLine f64 h text key pre raw post kv) (hv : Plain value) :
    (parseLine f64 h.dialect (sectionAfter f64 h.dialect none pre)
        (kv.rewritten (plainToken value))).entry =
      ((runOn h.dialect (kv.raw.drop kv.stop)).map
        fun t => scalar f64 h.dialect (plainToken value ++ t)).map (key, ·) ∧
      (parseLine f64 h.dialect (sectionAfter f64 h.dialect none pre)
        (kv.rewritten (plainToken value))).heading = none := by
  obtain ⟨name, hname, -, hrewritten⟩ := entry_rewritten h.proper ho.line
  obtain ⟨hentry, hheading⟩ := hrewritten _ (token_plain hv)
    (sectionAfter f64 h.dialect none pre)
  refine ⟨?_, hheading⟩
  rw [hentry, ← raw_eq_of_keyVal ho.line, behind_bare (bare_plain hv), ← hname, ho.key_eq,
    Option.map_map, Option.map_map]
  rfl

/-- The rewritten line is the target's own if the old one is. -/
theorem lineIsTarget_rewritten [DecidableEq F] (ho : OnlyLine f64 h text key pre raw post kv)
    (hv : Plain value) {t : Str} (ht : runOn h.dialect (kv.raw.drop kv.stop) = some t)
    (hraw : '\n' ∉ raw) (hrawSize : Text.byteLen raw ≤ maxConfigBytes)
    (hnew : '\n' ∉ kv.rewritten (plainToken value))
    (hnewSize : Text.byteLen (kv.rewritten (plainToken value)) ≤ maxConfigBytes) :
    lineIsTarget f64 h (kv.rewritten (plainToken value)) key = lineIsTarget f64 h raw key := by
  obtain ⟨name, -, hself, hrewritten⟩ := entry_rewritten h.proper ho.line
  obtain ⟨hentry, -⟩ := hrewritten _ (token_plain hv) none
  rw [lineIsTarget_eq hnew hnewSize, lineIsTarget_eq hraw hrawSize, (hself none).1, hentry,
    ← raw_eq_of_keyVal ho.line, behind_bare (bare_plain hv), ht]
  rfl

/-- **Which plain value is let through.** -/
theorem checkedSet_iff [DecidableEq F] (ho : OnlyLine f64 h text key pre raw post kv)
    (htext : Text.byteLen text ≤ maxConfigBytes) (hv : Plain value) :
    (∃ out, checkedSet f64 h text key value = .ok out) ↔ Agree f64 h text key ∧
      Returnless f64 h text key ∧
        (lineIsTarget f64 h raw key = true ∨ kv.rewritten (plainToken value) = raw) ∧
          (∃ t, runOn h.dialect (kv.raw.drop kv.stop) = some t ∧ Clear value t) ∧
            Text.byteLen text + Text.byteLen (kv.rewritten (plainToken value)) ≤
              maxConfigBytes + Text.byteLen raw + returns text := by
  obtain ⟨qs, q, qs', hcut⟩ := exists_cut ho.cut
  have hrawEq := raw_eq_of_keyVal ho.line
  have hlines := hcut.no_newline
  have hrawLine : '\n' ∉ raw := hlines raw (by simp)
  have hspace : ∀ c, isWhitespace c = true → c ∉ plainToken value := fun c hc hmem => by
    rw [(bare_plain (h := h) hv).solid c hmem] at hc
    cases hc
  have hnew : '\n' ∉ kv.rewritten (plainToken value) :=
    newline_not_mem_rewritten (hrawEq ▸ hrawLine) (hspace _ (by decide))
  have hls : ∀ l ∈ pre ++ kv.rewritten (plainToken value) :: post, '\n' ∉ l := by
    intro l hl
    rcases List.mem_append.1 hl with hl | hl
    · exact hlines l (List.mem_append_left _ hl)
    · rcases List.mem_cons.1 hl with rfl | hl
      · exact hnew
      · exact hlines l (List.mem_append_right _ (List.mem_cons_of_mem _ hl))
  have hsize := hcut.byteLen_replaced hnew
  obtain ⟨hentry, hheading⟩ := ho.entry_plain hv
  have hset : h.set f64 text key value = .ok (LineModel.emitText
      (pre ++ kv.rewritten (plainToken value) :: post) (text.getLast? == some '\n')) := by
    unfold LineFormat.set
    rw [parse_of_le htext]
    simp only
    rw [ho.toCarried.set_eq _ (serialize_plain hv _)]
  have hread : h.read f64 (LineModel.emitText
      (pre ++ kv.rewritten (plainToken value) :: post) (text.getLast? == some '\n')) =
        if Text.byteLen (LineModel.emitText (pre ++ kv.rewritten (plainToken value) :: post)
          (text.getLast? == some '\n')) > maxConfigBytes then .error .tooLarge
        else .ok (entries f64 h.dialect none pre ++ (((runOn h.dialect (kv.raw.drop kv.stop)).map
          fun t => scalar f64 h.dialect (plainToken value ++ t)).map (key, ·)).toList ++
            entries f64 h.dialect (sectionAfter f64 h.dialect none pre) post) := by
    rw [read_eq, entries_emitText h.proper hls, entries_replaced hheading, hentry]
  have hne : kv.rewritten (plainToken value) ≠ [] := by
    obtain ⟨c, s, hcs⟩ := List.exists_cons_of_ne_nil (mem_plainToken hv).1
    unfold KeyVal.rewritten
    simp [hcs]
  have hrawSize : Text.byteLen raw ≤ maxConfigBytes := by
    have hq : q ∈ text.splitOn '\n' := by
      rw [hcut.pieces]
      simp
    have hle := byteLen_le_of_mem_splitOn hq
    rw [byteLen_stripReturn, hcut.raw_eq] at hle
    omega
  have happlied : ∀ rest : ConfigModel F, rest = entries f64 h.dialect none pre ++
      (((runOn h.dialect (kv.raw.drop kv.stop)).map
        fun t => scalar f64 h.dialect (plainToken value ++ t)).map (key, ·)).toList ++
          entries f64 h.dialect (sectionAfter f64 h.dialect none pre) post →
      (editApplied rest key (some value) = true ↔
        ∃ t, runOn h.dialect (kv.raw.drop kv.stop) = some t ∧ Clear value t) := by
    rintro _ rfl
    unfold editApplied
    simp only [beq_iff_eq]
    rw [ho.get_eq, Option.map_eq_some_iff]
    simp only [scalar_plain_iff hv]
  have hsiblings : checkSiblingsUnchanged (said f64 h text) (entries f64 h.dialect none pre ++
      (((runOn h.dialect (kv.raw.drop kv.stop)).map
        fun t => scalar f64 h.dialect (plainToken value ++ t)).map (key, ·)).toList ++
          entries f64 h.dialect (sectionAfter f64 h.dialect none pre) post) key = .ok () ↔
      Agree f64 h text key := by
    rw [ho.said_eq, siblings_iff (fun p hp => by rw [List.mem_singleton.1 hp]) (fun p hp => ?_),
      ← ho.said_eq]
    · rfl
    · rw [Option.mem_toList, Option.map_eq_some_iff] at hp
      obtain ⟨v, -, rfl⟩ := hp
      rfl
  have hunmodelled : ∀ {t}, runOn h.dialect (kv.raw.drop kv.stop) = some t →
      Text.byteLen (LineModel.emitText (pre ++ kv.rewritten (plainToken value) :: post)
        (text.getLast? == some '\n')) ≤ maxConfigBytes →
      (checkUnmodelledPreserved f64 h text (LineModel.emitText
        (pre ++ kv.rewritten (plainToken value) :: post) (text.getLast? == some '\n')) key = .ok () ↔
        Returnless f64 h text key ∧
          (lineIsTarget f64 h raw key = true ∨ kv.rewritten (plainToken value) = raw)) := by
    intro t ht hle
    have hmem : kv.rewritten (plainToken value) ∈ (LineModel.emitText
        (pre ++ kv.rewritten (plainToken value) :: post) (text.getLast? == some '\n')).splitOn '\n' := by
      rw [splitOn_emitText _ hls (by simp)]
      simp
    exact unmodelled_set_iff hcut htext ho.raw_ne_nil hnew hne
      (ho.lineIsTarget_rewritten hv ht hrawLine hrawSize hnew
        ((byteLen_le_of_mem_splitOn hmem).trans hle))
      (rewritten_ne_append_return h.proper ho.line (hspace _ (by decide)))
  have hiff : verify f64 h text (LineModel.emitText
      (pre ++ kv.rewritten (plainToken value) :: post) (text.getLast? == some '\n'))
      (said f64 h text) key (some value) = .ok () ↔ Agree f64 h text key ∧
        Returnless f64 h text key ∧
          (lineIsTarget f64 h raw key = true ∨ kv.rewritten (plainToken value) = raw) ∧
            (∃ t, runOn h.dialect (kv.raw.drop kv.stop) = some t ∧ Clear value t) ∧
              Text.byteLen text + Text.byteLen (kv.rewritten (plainToken value)) ≤
                maxConfigBytes + Text.byteLen raw + returns text := by
    rw [verify_eq_ok, hread]
    by_cases hle : Text.byteLen (LineModel.emitText (pre ++ kv.rewritten (plainToken value) :: post)
        (text.getLast? == some '\n')) ≤ maxConfigBytes
    · rw [if_neg (Nat.not_lt.2 hle)]
      simp only [Except.ok.injEq, exists_eq_left']
      rw [happlied _ rfl, hsiblings]
      constructor
      · rintro ⟨⟨t, ht, hclear⟩, hagree, hok⟩
        obtain ⟨hreturnless, hline⟩ := (hunmodelled ht hle).1 hok
        exact ⟨hagree, hreturnless, hline, ⟨t, ht, hclear⟩, by omega⟩
      · rintro ⟨hagree, hreturnless, hline, ⟨t, ht, hclear⟩, -⟩
        exact ⟨⟨t, ht, hclear⟩, hagree, (hunmodelled ht hle).2 ⟨hreturnless, hline⟩⟩
    · rw [if_pos (Nat.not_le.1 hle)]
      refine iff_of_false (by rintro ⟨_, hout, -⟩; cases hout) fun hall => hle ?_
      have := hall.2.2.2.2
      omega
  have htarget : (said f64 h text).get key ≠ some .opaqueValue := by
    have hget := ho.get_eq (some kv.value)
    have hsaid := ho.said_eq
    rw [show [(key, kv.value)] = (Option.map (key, ·) (some kv.value)).toList from rfl] at hsaid
    rw [hsaid, hget]
    exact fun h => value_ne_opaqueValue (LineFormat.proper _) ho.line (Option.some.inj h)
  unfold checkedSet
  rw [said_of_le htext]
  simp only
  rw [if_neg htarget, hset]
  simp only
  cases hverify : verify f64 h text (LineModel.emitText
      (pre ++ kv.rewritten (plainToken value) :: post) (text.getLast? == some '\n'))
      (said f64 h text) key (some value) with
  | error e =>
    refine iff_of_false (by rintro ⟨_, hout⟩; cases hout) fun hall => ?_
    cases hverify.symm.trans (hiff.2 hall)
  | ok u => exact iff_of_true ⟨_, rfl⟩ (hiff.1 hverify)

theorem lineIsTarget_iff [DecidableEq F] (ho : OnlyLine f64 h text key pre raw post kv)
    (hraw : '\n' ∉ raw) (hsize : Text.byteLen raw ≤ maxConfigBytes) :
    lineIsTarget f64 h raw key = true ↔ NamedAlone f64 h pre key := by
  obtain ⟨name, hname, hself, -⟩ := entry_rewritten h.proper ho.line
  rw [lineIsTarget_eq hraw hsize, (hself none).1]
  have hnone : fullKey h.dialect none name = name := by
    unfold fullKey
    split
    · next heq => cases heq
    · rfl
  rw [ho.key_eq] at hname
  rw [hnone]
  show namesTarget key name = true ↔ _
  unfold NamedAlone
  cases hsec : sectionAfter f64 h.dialect none pre with
  | none =>
    rw [hsec, hnone] at hname
    refine iff_of_true ?_ fun s hs => by cases hs
    rw [hname]
    simp [namesTarget]
  | some s =>
    have hstatement : h.dialect.statement = none := by
      cases h
      · rfl
      · rw [sectionAfter_of_no_sections rfl] at hsec
        cases hsec
      · rfl
      · rfl
    have hkey : key = s ++ '.' :: name := by
      rw [hname, hsec]
      unfold fullKey
      rw [hstatement]
    have hdrop : key.drop (s.length + 1) = name := by
      rw [hkey]
      simp
    simp only [Option.some.injEq, forall_eq', hdrop]
    rw [hkey]
    exact namesTarget_append_iff s name

end OnlyLine

/-- **Which faithful edits are let through.** For the only line of a key: its removal, and every
boolean and integer set. -/
theorem faithful_edits_iff [DecidableEq F] (ho : OnlyLine f64 h text key pre raw post kv)
    (htext : Text.byteLen text ≤ maxConfigBytes) :
    ((∃ out, checkedRemove f64 h text key = .ok out) ↔ Agree f64 h text key ∧
      Returnless f64 h text key ∧ NamedAlone f64 h pre key ∧
        ¬ ((text.splitOn '\n').length = 2 ∧ [] ∈ text.splitOn '\n')) ∧
    ∀ value, Plain value → ((∃ out, checkedSet f64 h text key value = .ok out) ↔
      Agree f64 h text key ∧ Returnless f64 h text key ∧
        (NamedAlone f64 h pre key ∨ kv.rewritten (plainToken value) = raw) ∧
          (∃ t, runOn h.dialect (kv.raw.drop kv.stop) = some t ∧ Clear value t) ∧
            Text.byteLen text + Text.byteLen (kv.rewritten (plainToken value)) ≤
              maxConfigBytes + Text.byteLen raw + returns text) := by
  obtain ⟨qs, q, qs', hcut⟩ := exists_cut ho.cut
  have hraw : '\n' ∉ raw := hcut.no_newline raw (by simp)
  have hsize : Text.byteLen raw ≤ maxConfigBytes := by
    have hq : q ∈ text.splitOn '\n' := by
      rw [hcut.pieces]
      simp
    have hle := byteLen_le_of_mem_splitOn hq
    rw [byteLen_stripReturn, hcut.raw_eq] at hle
    omega
  rw [← ho.lineIsTarget_iff hraw hsize]
  exact ⟨ho.checkedRemove_iff htext, fun value hv => ho.checkedSet_iff htext hv⟩

theorem onlyLine_retries : OnlyLine noFloat .flat "retries=3 # a\nname=x\n".toList "retries".toList []
    "retries=3 # a".toList ["name=x".toList]
    ⟨"retries=3 # a".toList, "retries".toList, .int 3, 8, 9⟩ := by
  refine ⟨⟨by rfl, by rfl, rfl, fun line hline => by cases hline⟩, ?_⟩
  have hlines : parseLines noFloat LineFormat.flat.dialect
      (sectionAfter noFloat LineFormat.flat.dialect none []) ["name=x".toList] =
        [.keyVal ⟨"name=x".toList, "name".toList, .string "x".toList, 5, 6⟩] := by rfl
  rw [hlines]
  intro line hline
  rw [List.mem_singleton.1 hline]
  rfl

/-- A key of its own line, with a comment, can be set and removed. -/
theorem faithful_edits_retries :
    (∃ out, checkedRemove noFloat .flat "retries=3 # a\nname=x\n".toList "retries".toList = .ok out) ∧
      ∃ out, checkedSet noFloat .flat "retries=3 # a\nname=x\n".toList "retries".toList (.int 5) =
        .ok out := by
  have hsaid : said noFloat .flat "retries=3 # a\nname=x\n".toList =
      [("retries".toList, .int 3), ("name".toList, .string "x".toList)] := by rfl
  have hagree : Agree noFloat .flat "retries=3 # a\nname=x\n".toList "retries".toList := by
    intro k v v' hk hv hv'
    rw [hsaid] at hv hv'
    simp only [List.mem_cons, Prod.mk.injEq, List.not_mem_nil, or_false, hk, false_and,
      false_or] at hv hv'
    rw [hv.2, hv'.2]
  have hreturnless : Returnless noFloat .flat "retries=3 # a\nname=x\n".toList
      "retries".toList := by
    intro p hp hlast
    have hreturn : '\r' ∈ "retries=3 # a\nname=x\n".toList :=
      Text.mem_of_mem_splitOn hp (List.mem_of_getLast? hlast)
    exact absurd hreturn (by decide)
  have halone : NamedAlone noFloat .flat [] "retries".toList := fun s hs => by cases hs
  obtain ⟨hremove, hset⟩ := faithful_edits_iff onlyLine_retries (by decide)
  refine ⟨hremove.2 ⟨hagree, hreturnless, halone, by decide⟩, (hset (.int 5) ⟨by decide, by decide⟩).2
    ⟨hagree, hreturnless, .inl halone, ⟨[], by rfl, .inl rfl⟩, by decide⟩⟩

/-- The only line of a text cannot be removed. -/
theorem faithful_edits_refused : ¬ ∀ (text key : Str) (pre : List Str) (raw : Str) (post : List Str)
    (kv : KeyVal Unit), OnlyLine noFloat .flat text key pre raw post kv →
      Text.byteLen text ≤ maxConfigBytes →
        (∃ out, checkedRemove noFloat .flat text key = .ok out) ∧
          ∀ value, Plain value → ∃ out, checkedSet noFloat .flat text key value = .ok out := by
  intro hall
  have ho : OnlyLine noFloat .flat "a=1\n".toList "a".toList [] "a=1".toList []
      ⟨"a=1".toList, "a".toList, .int 1, 2, 3⟩ :=
    ⟨⟨by rfl, by rfl, rfl, fun line hline => by cases hline⟩, fun line hline => by cases hline⟩
  obtain ⟨out, hout⟩ := (hall _ _ _ _ _ _ ho (by decide)).1
  have hrefused : checkedRemove noFloat .flat "a=1\n".toList "a".toList =
      .error (.selfCheck .unmodelledContentChanged) := by rfl
  cases hrefused.symm.trans hout

-- Neither can a line of a text with carriage returns be set, nor one beside a key with two values.
example : checkedSet noFloat .flat "a=1\r\nb=2\r\n".toList "a".toList (.int 2) =
    .error (.selfCheck .unmodelledContentChanged) := by rfl

example : checkedRemove noFloat .flat "a=1\nb=1\nb=2\n".toList "a".toList =
    .error (.selfCheck (.collateralChange "b".toList)) := by rfl

end Arlen.ConfigFormat
