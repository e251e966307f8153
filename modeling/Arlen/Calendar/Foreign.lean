import Arlen.Calendar.Layout

/-!
# The lines an edit must leave

A text is lines outside any event and VEVENT blocks. A block is finished by its
END:VEVENT, or cut short by the next BEGIN:VEVENT or by the end of the text. A block
carries the uids its unfolded lines write outside alarms; the editor sees a uid where a
line of the file writes it. An edit writes out every finished block that is not seen to
carry the uid. A block that is cut short is gathered and never written, whoever it
belongs to.
-/

namespace Arlen.Calendar

open Arlen.Lib

/-! ### The pieces of other uids -/

/-- The uids that unfolded lines write outside alarms, as the reader takes them. -/
def uidsWritten : Bool → List (List Char) → List (List Char)
  | _, [] => []
  | inAlarm, l :: ls =>
    match markerOf (Text.trim l), parseProperty (Text.trim l) with
    | some .beginAlarm, _ => uidsWritten true ls
    | some .endAlarm, _ => uidsWritten false ls
    | _, some prop =>
      if inAlarm = false ∧ prop.name = "UID".toList then
        unescape prop.value :: uidsWritten inAlarm ls
      else uidsWritten inAlarm ls
    | _, none => uidsWritten inAlarm ls

/-- Whether a block, unfolded, carries the uid. -/
def carriesUid (block : List (List Char)) (uid : List Char) : Bool :=
  (uidsWritten false (unfoldLines block)).contains uid

/-- The lines of a piece that are not in a block of the uid. -/
def Piece.foreign (uid : List Char) : Piece → List (List Char)
  | .line l => [l]
  | .block b => if carriesUid b uid then [] else b
  | .cut b => if carriesUid b uid then [] else b

/-- The lines of the text, in order, that are not in a block of the uid. -/
def foreignLines (text uid : List Char) : List (List Char) :=
  (pieces text).flatMap (Piece.foreign uid)

/-- A line without the carriage returns it ends in. -/
def bare (l : List Char) : List Char := l.rdropWhile (· == '\r')

/-- The lines of a text without their line ends. -/
def bareLines (text : List Char) : List (List Char) := (text.splitOn '\n').map bare

variable {text uid l out : List Char} {o : Option (List (List Char))}
  {ls outs : List (List Char)} {b : List (List Char)} {s s' : Editing}
  {edit : List (List Char) → Option BlockEdit}

/-- A block that is cut short starts with its BEGIN:VEVENT. -/
theorem head_of_cut (ho : ∀ b, o = some b → ∃ l b', b = l :: b' ∧ isBegin l = true)
    (h : Piece.cut b ∈ cutUp o ls) : ∃ l b', b = l :: b' ∧ isBegin l = true := by
  induction ls generalizing o with
  | nil =>
    cases o with
    | none => cases h
    | some b₀ =>
      rw [cutUp, List.mem_singleton] at h
      exact ho b (congrArg some (Piece.cut.inj h).symm)
  | cons l ls ih =>
    cases hb : isBegin l with
    | true =>
      rw [cutUp_begin hb, List.mem_append] at h
      rcases h with h | h
      · obtain ⟨b₀, ho₀, heq⟩ := Option.map_eq_some_iff.1 (Option.mem_toList.1 h)
        exact ho b (ho₀.trans (congrArg some (Piece.cut.inj heq)))
      · refine ih (fun b' hb' => ?_) h
        exact ⟨l, [], (Option.some.inj hb').symm, hb⟩
    | false =>
      cases o with
      | none =>
        rw [cutUp_outside hb] at h
        exact ih (fun _ h => by cases h) ((List.mem_cons.1 h).resolve_left (by simp))
      | some b₀ =>
        obtain ⟨l₀, b', rfl, hl₀⟩ := ho b₀ rfl
        cases he : isEnd l with
        | true =>
          rw [cutUp_end hb he] at h
          exact ih (fun _ h => by cases h) ((List.mem_cons.1 h).resolve_left (by simp))
        | false =>
          rw [cutUp_inside hb he] at h
          refine ih (fun b'' hb'' => ?_) h
          exact ⟨l₀, b' ++ [l], (Option.some.inj hb'').symm, hl₀⟩

/-! ### What a run writes -/

/-- What the loop leaves of a piece as it is: nothing of a block cut short. -/
def Piece.kept (uid : List Char) : Piece → List (List Char)
  | .line l => [l]
  | .block b => if blockHasUid b uid then [] else b
  | .cut _ => []

/-- The piece is a finished block that is seen to carry the uid. -/
def Piece.isTarget (uid : List Char) : Piece → Bool
  | .line _ => false
  | .block b => blockHasUid b uid
  | .cut _ => false

/-- The piece is a finished block of another uid, seen to carry this one. -/
def Piece.isMistaken (uid : List Char) : Piece → Bool
  | .line _ => false
  | .block b => blockHasUid b uid && !carriesUid b uid
  | .cut _ => false

/-- The piece is a block of another uid that is cut short. -/
def Piece.isStray (uid : List Char) : Piece → Bool
  | .line _ => false
  | .block _ => false
  | .cut b => !carriesUid b uid

/-- The edit leaves a block that is not seen to carry the uid as it is. -/
def LeavesForeign (uid : List Char) (edit : List (List Char) → Option BlockEdit) : Prop :=
  ∀ b e, blockHasUid b uid = false → edit b = some e → e.keep = b ∧ e.touched = false

/-- A run: what is kept is written, in order, and something is touched only in a block that
is seen to carry the uid. -/
theorem editLines_foreign (hedit : LeavesForeign uid edit)
    (h : ls.foldlM (editLine edit) s = some s') :
    (s.out ++ (cutUp s.opened ls).flatMap (Piece.kept uid)).Sublist s'.out ∧
      (s'.touched = true → s.touched = true ∨
        (cutUp s.opened ls).any (Piece.isTarget uid) = true) := by
  induction ls generalizing s with
  | nil =>
    cases h
    refine ⟨?_, Or.inl⟩
    cases s'.opened <;> simp [cutUp, Piece.kept]
  | cons l ls ih =>
    rw [List.foldlM_cons] at h
    obtain ⟨s₁, hstep, hrun⟩ := Option.bind_eq_some_iff.1 h
    obtain ⟨hout, htouched⟩ := ih hrun
    rcases editLine_cases hstep with ⟨ho, -, ht, short, hp⟩ | ⟨new, -, ho, ht, hp⟩ |
      ⟨b, e, he, ho, -, ht, hp⟩
    · rw [ho] at hout
      rw [ht] at htouched
      rw [hp]
      cases short <;> exact ⟨hout, htouched⟩
    · rw [hp, List.flatMap_cons, List.any_cons, Piece.kept, Piece.isTarget, Bool.false_or]
      refine ⟨List.Sublist.trans ?_ hout, ht ▸ htouched⟩
      rw [ho, ← List.append_assoc]
      exact ((List.sublist_append_left _ new).append (List.Sublist.refl [l])).append
        (List.Sublist.refl _)
    · rw [hp, List.flatMap_cons, List.any_cons, Piece.kept, Piece.isTarget]
      cases hu : blockHasUid b uid with
      | true => exact ⟨List.Sublist.trans (by simp [ho]) hout, fun _ => .inr rfl⟩
      | false =>
        obtain ⟨hkeep, hno⟩ := hedit b e hu he
        rw [ho, hkeep, List.append_assoc] at hout
        rw [ht, hno, Bool.or_false] at htouched
        exact ⟨hout, htouched⟩

/-! ### The lines of the written text -/

theorem bare_append_cr (l : List Char) : bare (l ++ ['\r']) = bare l :=
  List.rdropWhile_concat_pos _ _ _ rfl

theorem lineEnding_eq (text : List Char) :
    ∃ pad, lineEnding text = pad ++ ['\n'] ∧ '\n' ∉ pad ∧ ∀ l, bare (l ++ pad) = bare l := by
  unfold lineEnding
  split
  · exact ⟨['\r'], rfl, by decide, bare_append_cr⟩
  · exact ⟨[], rfl, by decide, fun l => by rw [List.append_nil]⟩

theorem bareLines_append (l rest : List Char) :
    bareLines (l ++ '\n' :: rest) = bareLines l ++ bareLines rest := by
  unfold bareLines
  rw [List.splitOn_append_cons_self, List.map_append]

theorem bareLines_of_not_mem (h : '\n' ∉ l) : bareLines l = [bare l] := by
  unfold bareLines
  rw [List.splitOn_eq_singleton h, List.map_singleton]

theorem bareLines_intercalate_cons (text l : List Char) (h : '\n' ∉ l) (hne : ls ≠ []) :
    bareLines ((lineEnding text).intercalate (l :: ls)) =
      bare l :: bareLines ((lineEnding text).intercalate ls) := by
  obtain ⟨pad, hpad, hno, hbare⟩ := lineEnding_eq text
  rw [List.intercalate_cons_of_ne_nil hne, hpad, ← List.append_assoc, List.append_assoc _ ['\n'],
    List.singleton_append, bareLines_append, bareLines_of_not_mem, hbare]
  · rfl
  · simp [h, hno]

/-- Lines that stand among those joined are lines of the text. -/
theorem sublist_bareLines (text : List Char) (h : ls.Sublist outs) (hls : ∀ l ∈ ls, '\n' ∉ l) :
    (ls.map bare).Sublist (bareLines ((lineEnding text).intercalate outs)) := by
  induction h with
  | slnil => exact List.nil_sublist _
  | @cons ls outs a h ih =>
    by_cases hne : outs = []
    · subst hne
      rw [List.sublist_nil.1 h]
      exact List.nil_sublist _
    · obtain ⟨pad, hpad, -, -⟩ := lineEnding_eq text
      rw [List.intercalate_cons_of_ne_nil hne, hpad, ← List.append_assoc,
        List.append_assoc _ ['\n'], List.singleton_append, bareLines_append, ← hpad]
      exact (ih hls).trans (List.sublist_append_right _ _)
  | @cons_cons ls outs a h ih =>
    have ha := hls a List.mem_cons_self
    by_cases hne : outs = []
    · subst hne
      rw [List.sublist_nil.1 h, List.intercalate_singleton, bareLines_of_not_mem ha]
      exact List.Sublist.refl _
    · rw [bareLines_intercalate_cons text a ha hne, List.map_cons]
      exact (ih fun l hl => hls l (List.mem_cons_of_mem _ hl)).cons_cons _

theorem bareLines_intercalate (text : List Char) (hne : ls ≠ []) (hls : ∀ l ∈ ls, '\n' ∉ l) :
    bareLines ((lineEnding text).intercalate ls) = ls.map bare := by
  induction ls with
  | nil => exact absurd rfl hne
  | cons l ls ih =>
    have hl := hls l List.mem_cons_self
    by_cases hnil : ls = []
    · subst hnil
      rw [List.intercalate_singleton, bareLines_of_not_mem hl]
      rfl
    · rw [bareLines_intercalate_cons text l hl hnil,
        ih hnil fun l hl => hls l (List.mem_cons_of_mem _ hl), List.map_cons]

/-! ### What an edit leaves -/

variable {scope : Scope} {stamp newUid : List Char} {changes : EventChanges}
  {occurrence : Option (List Char)}

theorem leavesForeign_deleteBlock :
    LeavesForeign uid fun b => some (deleteBlock uid scope stamp b) := by
  intro b e hu he
  cases he
  unfold deleteBlock
  rw [if_pos hu]
  exact ⟨rfl, rfl⟩

theorem leavesForeign_updateBlock :
    LeavesForeign uid (updateBlock uid scope stamp changes newUid) := by
  intro b e hu he
  unfold updateBlock at he
  rw [if_pos (.inl hu)] at he
  cases he
  exact ⟨rfl, rfl⟩

/-- With no block of another uid mistaken for one of this or cut short, the foreign lines are
kept. -/
theorem foreign_sublist_kept (ps : List Piece)
    (h : ∀ p ∈ ps, p.isMistaken uid = false ∧ p.isStray uid = false) :
    (ps.flatMap (Piece.foreign uid)).Sublist (ps.flatMap (Piece.kept uid)) := by
  induction ps with
  | nil => exact List.Sublist.refl _
  | cons p ps ih =>
    rw [List.flatMap_cons, List.flatMap_cons]
    have hps := ih fun p hp => h p (List.mem_cons_of_mem _ hp)
    obtain ⟨hmistaken, hstray⟩ := h p List.mem_cons_self
    refine List.Sublist.append ?_ hps
    cases p with
    | line l => exact List.Sublist.refl _
    | block b =>
      rw [Piece.isMistaken] at hmistaken
      rw [Piece.foreign, Piece.kept]
      cases hc : carriesUid b uid with
      | true => exact List.nil_sublist _
      | false =>
        have hu : blockHasUid b uid = false := by simpa [hc] using hmistaken
        rw [hu]
    | cut b =>
      have hc : carriesUid b uid = true := by simpa [Piece.isStray] using hstray
      rw [Piece.foreign, if_pos hc]
      exact List.nil_sublist _

theorem newline_not_mem_pieces {f : Piece → List (List Char)} (hf : ∀ p, f p ⊆ p.lines)
    (h : l ∈ (pieces text).flatMap f) : '\n' ∉ l := by
  obtain ⟨p, hp, hl⟩ := List.mem_flatMap.1 h
  have hmem : l ∈ (pieces text).flatMap Piece.lines := List.mem_flatMap.2 ⟨p, hp, hf p hl⟩
  rw [pieces, lines_cutUp] at hmem
  exact newline_not_mem_physicalLines hmem

theorem kept_subset_lines (p : Piece) : p.kept uid ⊆ p.lines := by
  cases p with
  | line l => exact List.Subset.refl _
  | block b =>
    rw [Piece.kept]
    split
    · exact List.nil_subset _
    · exact List.Subset.refl _
  | cut b => exact List.nil_subset _

/-- Any edit of the blocks touches one that is seen to carry the uid, and writes what is kept
of the others. -/
theorem editText_kept (hedit : LeavesForeign uid edit)
    (h : editText text edit = some (some out)) :
    (pieces text).any (Piece.isTarget uid) = true ∧
      (((pieces text).flatMap (Piece.kept uid)).map bare).Sublist (bareLines out) := by
  obtain ⟨s, hrun, hout⟩ := Option.map_eq_some_iff.1 h
  obtain ⟨hlines, htouched⟩ := editLines_foreign hedit hrun
  split at hout
  · next ht =>
    refine ⟨(htouched ht).resolve_left (by simp [Editing.new]), ?_⟩
    rw [← Option.some.inj hout]
    exact sublist_bareLines text (hlines.trans (List.sublist_append_left _ _))
      fun l hl => newline_not_mem_pieces kept_subset_lines hl
  · cases hout

/-- Deleting the whole series leaves what is kept, alone. -/
theorem deleteEvent_all (hne : uid ≠ [])
    (h : (pieces text).any (Piece.isTarget uid) = true) :
    deleteEvent text uid .all none =
      some ((lineEnding text).intercalate ((pieces text).flatMap (Piece.kept uid))) := by
  have hrun := @editText_eq text (fun b => some (deleteBlock uid .all [] b))
    (deleteBlock uid .all []) fun b _ => ⟨rfl, by unfold deleteBlock; split <;> rfl⟩
  have hkept : ∀ p : Piece, p.edited (deleteBlock uid .all []) = p.kept uid ∧
      p.touchedBy (deleteBlock uid .all []) = p.isTarget uid := by
    intro p
    cases p with
    | line l => exact ⟨rfl, rfl⟩
    | block b =>
      unfold Piece.edited Piece.kept Piece.touchedBy Piece.isTarget deleteBlock
      cases hu : blockHasUid b uid <;> simp [hu]
    | cut b => exact ⟨rfl, rfl⟩
  have htouched : Piece.touchedBy (deleteBlock uid .all []) = Piece.isTarget uid :=
    funext fun p => (hkept p).2
  have hedited : Piece.edited (deleteBlock uid .all []) = Piece.kept uid :=
    funext fun p => (hkept p).1
  rw [htouched, if_pos h, hedited] at hrun
  unfold deleteEvent
  rw [if_neg hne]
  simp only [scopeStamp, hrun]
  rfl

/-! ### The uid on a line of the file -/

/-- A carriage return at its end hides no uid of a line. -/
theorem blockHasUid_append_cr (l : List Char) :
    blockHasUid [l ++ ['\r']] uid = blockHasUid [l] uid := by
  have hprefix : hasPrefix "UID:".toList (l ++ ['\r']) = hasPrefix "UID:".toList l := by
    have hupper : Text.toAsciiUppercase (l ++ ['\r']) = Text.toAsciiUppercase l ++ ['\r'] := by
      unfold Text.toAsciiUppercase
      rw [List.map_append]
      rfl
    unfold hasPrefix
    rw [hupper, Bool.eq_iff_iff, List.isPrefixOf_iff_prefix, List.isPrefixOf_iff_prefix,
      List.prefix_concat_iff]
    refine or_iff_right fun heq => ?_
    have hlast := congrArg List.getLast? heq
    rw [List.getLast?_append, List.getLast?_singleton, Option.some_or] at hlast
    exact absurd hlast (by decide)
  simp only [blockHasUid, List.any_cons, List.any_nil, Bool.or_false, hprefix]
  cases hp : hasPrefix "UID:".toList l with
  | false => rfl
  | true =>
    have hlen : 4 ≤ l.length := by
      have h := (List.isPrefixOf_iff_prefix.1 hp).length_le
      rwa [Text.toAsciiUppercase, List.length_map] at h
    rw [List.drop_append_of_le_length hlen, trim_append_white _ (by decide)]

theorem blockHasUid_bare (l : List Char) : blockHasUid [bare l] uid = blockHasUid [l] uid := by
  induction l using List.reverseRecOn with
  | nil => rfl
  | append_singleton l c ih =>
    by_cases hc : c = '\r'
    · rw [hc, bare_append_cr, ih, blockHasUid_append_cr]
    · have hsame : bare (l ++ [c]) = l ++ [c] := List.rdropWhile_concat_neg _ _ _ (by simpa using hc)
      rw [hsame]

theorem countP_bare (ls : List (List Char)) :
    (ls.map bare).countP (fun l => blockHasUid [l] uid) =
      ls.countP fun l => blockHasUid [l] uid := by
  rw [List.countP_map]
  exact List.countP_congr fun l _ => by rw [Function.comp_apply, blockHasUid_bare]

theorem blockHasUid_eq_any (b : List (List Char)) :
    blockHasUid b uid = b.any fun l => blockHasUid [l] uid := by
  simp [blockHasUid]

/-- No line that is kept of a finished block writes the uid. -/
theorem countP_kept_le (p : Piece) :
    (p.kept uid).countP (fun l => blockHasUid [l] uid) ≤
        (p.foreign uid).countP (fun l => blockHasUid [l] uid) ∧
      (p.isMistaken uid = true → (p.kept uid).countP (fun l => blockHasUid [l] uid) <
        (p.foreign uid).countP (fun l => blockHasUid [l] uid)) := by
  cases p with
  | line l => exact ⟨Nat.le_refl _, nofun⟩
  | cut b => exact ⟨Nat.zero_le _, nofun⟩
  | block b =>
    have hzero : ((Piece.block b).kept uid).countP (fun l => blockHasUid [l] uid) = 0 := by
      rw [Piece.kept]
      cases hu : blockHasUid b uid with
      | true => rfl
      | false =>
        rw [blockHasUid_eq_any] at hu
        exact List.countP_eq_zero.2 fun l hl => by simpa using List.any_eq_false.1 hu l hl
    rw [hzero]
    refine ⟨Nat.zero_le _, fun hmistaken => ?_⟩
    rw [Piece.isMistaken, Bool.and_eq_true, Bool.not_eq_true'] at hmistaken
    rw [Piece.foreign, hmistaken.2]
    have hany := hmistaken.1
    rw [blockHasUid_eq_any] at hany
    exact List.countP_pos_iff.2 (List.any_eq_true.1 hany)

/-- The lines of a block that is mistaken for one of the uid do not all stay. -/
theorem countP_kept_lt (ps : List Piece) (h : ps.any (Piece.isMistaken uid) = true) :
    (ps.flatMap (Piece.kept uid)).countP (fun l => blockHasUid [l] uid) <
      (ps.flatMap (Piece.foreign uid)).countP fun l => blockHasUid [l] uid := by
  have hle : ∀ ps : List Piece, (ps.flatMap (Piece.kept uid)).countP (fun l => blockHasUid [l] uid) ≤
      (ps.flatMap (Piece.foreign uid)).countP fun l => blockHasUid [l] uid := by
    intro ps
    induction ps with
    | nil => exact Nat.le_refl _
    | cons p ps ih =>
      rw [List.flatMap_cons, List.flatMap_cons, List.countP_append, List.countP_append]
      exact Nat.add_le_add (countP_kept_le p).1 ih
  obtain ⟨p, hp, hmistaken⟩ := List.any_eq_true.1 h
  obtain ⟨before, after, rfl⟩ := List.append_of_mem hp
  have hbefore := hle before
  have hafter := hle after
  have hpiece := (countP_kept_le p).2 hmistaken
  simp only [List.flatMap_append, List.flatMap_cons, List.countP_append]
  omega

theorem bare_ne_nil_of_begin (h : isBegin l = true) : bare l ≠ [] := by
  intro hnil
  have hcr : ∀ c ∈ l, c = '\r' := by
    simpa using List.rdropWhile_eq_nil_iff.1 hnil
  cases l with
  | nil => exact absurd h (by decide)
  | cons c l =>
    rw [hcr c List.mem_cons_self] at h
    exact absurd h (by simp [isBegin, hasPrefix, Text.toAsciiUppercase])

/-- A stray leaves a line that is not empty. -/
theorem foreign_of_stray (h : (pieces text).any (Piece.isStray uid) = true) :
    ∃ l ∈ foreignLines text uid, bare l ≠ [] := by
  obtain ⟨p, hp, hstray⟩ := List.any_eq_true.1 h
  cases p with
  | line l => cases hstray
  | block b => cases hstray
  | cut b =>
    obtain ⟨l, b', rfl, hl⟩ := head_of_cut (fun _ h => by cases h) hp
    have hc : carriesUid (l :: b') uid = false := by simpa [Piece.isStray] using hstray
    refine ⟨l, List.mem_flatMap.2 ⟨_, hp, ?_⟩, bare_ne_nil_of_begin hl⟩
    rw [Piece.foreign, hc]
    exact List.mem_cons_self

/-- The foreign lines still stand, in order, among those that are kept: where one is lost, a
block that carries the uid unseen repeats it. -/
def Repeated (text uid : List Char) : Prop :=
  ((foreignLines text uid).map bare).Sublist (((pieces text).flatMap (Piece.kept uid)).map bare)

/-- A deletion of the whole series that leaves the foreign lines. -/
theorem of_deleted_all (h : ((foreignLines text uid).map bare).Sublist (bareLines
      ((lineEnding text).intercalate ((pieces text).flatMap (Piece.kept uid))))) :
    (pieces text).any (Piece.isMistaken uid) = false ∧
      ((pieces text).any (Piece.isStray uid) = false ∨ Repeated text uid) := by
  by_cases hnil : (pieces text).flatMap (Piece.kept uid) = []
  · -- nothing is written, and the empty text has one empty line
    have hempty : ∀ l ∈ foreignLines text uid, bare l = [] := by
      intro l hl
      have hmem := h.subset (List.mem_map_of_mem hl)
      rw [hnil] at hmem
      exact List.mem_singleton.1 hmem
    constructor
    · rw [← Bool.not_eq_true]
      intro hmistaken
      have hlt := countP_kept_lt _ hmistaken
      obtain ⟨l, hl, hu⟩ := List.countP_pos_iff.1 (Nat.lt_of_le_of_lt (Nat.zero_le _) hlt)
      rw [← blockHasUid_bare, hempty l hl] at hu
      cases hu
    · left
      rw [← Bool.not_eq_true]
      intro hstray
      obtain ⟨l, hl, hne⟩ := foreign_of_stray hstray
      exact hne (hempty l hl)
  · rw [bareLines_intercalate text hnil fun l hl =>
      newline_not_mem_pieces kept_subset_lines hl] at h
    refine ⟨?_, Or.inr h⟩
    rw [← Bool.not_eq_true]
    intro hmistaken
    have hlt := countP_kept_lt _ hmistaken
    have hle := h.countP_le (p := fun l => blockHasUid [l] uid)
    rw [countP_bare, countP_bare] at hle
    exact absurd hle (Nat.not_le.2 hlt)

/-- **Whether every edit of the text leaves the lines that are not the uid's**: there is
nothing to edit, or no block of another uid is mistaken for one of it, and none is cut short
unless its lines stand again in a block that carries the uid unseen. -/
theorem foreign_lines_left_iff (text uid : List Char) :
    (∀ scope occurrence changes newUid out,
      deleteEvent text uid scope occurrence = some out ∨
        updateEvent text uid scope occurrence changes newUid = some (some out) →
      ((foreignLines text uid).map bare).Sublist (bareLines out)) ↔
    uid = [] ∨ (pieces text).any (Piece.isTarget uid) = false ∨
      (pieces text).any (Piece.isMistaken uid) = false ∧
        ((pieces text).any (Piece.isStray uid) = false ∨ Repeated text uid) := by
  constructor
  · intro h
    by_cases hne : uid = []
    · exact Or.inl hne
    cases htarget : (pieces text).any (Piece.isTarget uid) with
    | false => exact Or.inr (Or.inl rfl)
    | true =>
      have hall := h .all none .none [] _ (.inl (deleteEvent_all hne htarget))
      exact Or.inr (Or.inr (of_deleted_all hall))
  · intro hcond scope occurrence changes newUid out hout
    -- an edit with a result is a run over the text's blocks
    have hrun : uid ≠ [] ∧ ∃ edit, LeavesForeign uid edit ∧
        editText text edit = some (some out) := by
      rcases hout with h | h
      · unfold deleteEvent at h
        split at h
        · cases h
        · next hne =>
          split at h
          · cases h
          · exact ⟨hne, _, leavesForeign_deleteBlock, Option.join_eq_some_iff.1 h⟩
      · unfold updateEvent at h
        split at h
        · cases h
        · next hne =>
          split at h
          · cases h
          · exact ⟨fun hu => hne (.inl hu), _, leavesForeign_updateBlock, h⟩
    obtain ⟨hne, edit, hedit, htext⟩ := hrun
    obtain ⟨htarget, hkept⟩ := editText_kept hedit htext
    rcases hcond with h | h | ⟨hmistaken, h | h⟩
    · exact absurd h hne
    · rw [htarget] at h
      cases h
    · refine List.Sublist.trans (List.Sublist.map bare ?_) hkept
      refine foreign_sublist_kept _ fun p hp => ⟨?_, ?_⟩
      · simpa using List.any_eq_false.1 hmistaken p hp
      · simpa using List.any_eq_false.1 h p hp
    · exact h.trans hkept

/-- A calendar broken off inside the second of two events. -/
def brokenOffText : List Char :=
  "BEGIN:VCALENDAR\nBEGIN:VEVENT\nUID:a\nEND:VEVENT\nBEGIN:VEVENT\nUID:b\n".toList

theorem brokenOff_loses_lines :
    ¬ ∀ scope occurrence changes newUid out,
      deleteEvent brokenOffText "a".toList scope occurrence = some out ∨
        updateEvent brokenOffText "a".toList scope occurrence changes newUid =
          some (some out) →
      ((foreignLines brokenOffText "a".toList).map bare).Sublist (bareLines out) := by
  intro h
  have hout : deleteEvent brokenOffText "a".toList .all none =
      some "BEGIN:VCALENDAR".toList := by decide +kernel
  exact absurd (h .all none .none [] _ (.inl hout)) (by decide +kernel)

end Arlen.Calendar
