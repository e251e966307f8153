import Arlen.Terminal.Vt

/-!
# Where an OSC begins and ends

The framing the scanner is meant to keep, read off the whole stream: outside an OSC and
outside a string every ESC begins an escape sequence, whatever stands before it. The scanner
takes the byte behind an ESC for the end of a short sequence, also where that byte is the next
ESC, and so reads the ESCs outside a string in pairs. It keeps the framing in every stream in
which no pair of ESC stands right before the opening of an OSC or of a string. Where such a pair
stands, the stream up to the opening goes on, without another such pair, to a stream from which
the pair takes a mark away, or in which it lets one out of a string.
-/

namespace Arlen.Terminal

open Arlen.Lib

/-- The byte opens a DCS, SOS, PM or APC string behind an ESC. -/
def OpensString (b : UInt8) : Prop := b = 0x50 ∨ b = 0x58 ∨ b = 0x5e ∨ b = 0x5f

instance (b : UInt8) : Decidable (OpensString b) := by
  unfold OpensString
  infer_instance

/-! ## The reference -/

inductive Mode where
  | ground
  | osc (payload : Bytes)
  | string

/-- An OSC that an ESC aborts is left without a byte read. -/
def Mode.weight : Mode → Nat
  | ground => 0
  | _ => 1

/-- The payloads of the OSCs a stream completes, from a place in it on. -/
def reference : Mode → Bytes → List Bytes
  | _, [] => []
  | .ground, b :: rest =>
    if b = esc then
      match rest with
      | [] => []
      | c :: rest' =>
        if c = 0x5d then reference (.osc []) rest'
        else if OpensString c then reference .string rest'
        else reference .ground (c :: rest')
    else reference .ground rest
  | .osc payload, b :: rest =>
    if b = bel then payload :: reference .ground rest
    else if b = esc then
      match rest with
      | [] => []
      | c :: rest' =>
        if c = 0x5c then payload :: reference .ground rest'
        else reference .ground (esc :: c :: rest')
    else reference (.osc (payload ++ [b])) rest
  | .string, b :: rest =>
    if b = esc then
      match rest with
      | [] => []
      | c :: rest' => if c = 0x5c then reference .ground rest' else reference .string (c :: rest')
    else reference .string rest
termination_by mode bytes => 2 * bytes.length + mode.weight
decreasing_by
  all_goals simp only [Mode.weight, List.length_cons]
  all_goals omega

/-- The mark of a payload, which is not longer than the scanner keeps. -/
def markOf (nonce : String) (payload : Bytes) : Option VtEvent :=
  if payload.length ≤ maxOscPayload then parseOscMark (fromUtf8Lossy payload) nonce else none

def referenceMarks (nonce : String) (mode : Mode) (bytes : Bytes) : List VtEvent :=
  (reference mode bytes).filterMap (markOf nonce)

section Reference

variable {nonce : String} {b c : UInt8} {payload rest : Bytes}

@[simp] theorem referenceMarks_nil (mode : Mode) : referenceMarks nonce mode [] = [] := by
  cases mode <;> simp [referenceMarks, reference]

theorem referenceMarks_ground_of_ne (h : b ≠ esc) :
    referenceMarks nonce .ground (b :: rest) = referenceMarks nonce .ground rest := by
  rw [referenceMarks, reference.eq_def]
  dsimp only
  rw [if_neg h]
  rfl

theorem referenceMarks_ground_osc :
    referenceMarks nonce .ground (esc :: 0x5d :: rest) = referenceMarks nonce (.osc []) rest := by
  rw [referenceMarks, reference.eq_def]
  rfl

theorem referenceMarks_ground_string (h : OpensString c) :
    referenceMarks nonce .ground (esc :: c :: rest) = referenceMarks nonce .string rest := by
  have hne : c ≠ 0x5d := by
    rintro rfl
    exact absurd h (by decide)
  rw [referenceMarks, reference.eq_def]
  dsimp only
  rw [if_pos rfl, if_neg hne, if_pos h]
  rfl

theorem referenceMarks_ground_short (hosc : c ≠ 0x5d) (hstring : ¬ OpensString c) :
    referenceMarks nonce .ground (esc :: c :: rest) = referenceMarks nonce .ground (c :: rest) := by
  rw [referenceMarks, reference.eq_def]
  dsimp only
  rw [if_pos rfl, if_neg hosc, if_neg hstring]
  rfl

theorem referenceMarks_osc_bel :
    referenceMarks nonce (.osc payload) (bel :: rest) =
      (markOf nonce payload).toList ++ referenceMarks nonce .ground rest := by
  rw [referenceMarks, reference.eq_def]
  dsimp only
  rw [if_pos rfl, List.filterMap_cons]
  cases markOf nonce payload <;> rfl

theorem referenceMarks_osc_st :
    referenceMarks nonce (.osc payload) (esc :: 0x5c :: rest) =
      (markOf nonce payload).toList ++ referenceMarks nonce .ground rest := by
  rw [referenceMarks, reference.eq_def]
  dsimp only
  rw [if_neg (by decide), if_pos rfl, if_pos rfl, List.filterMap_cons]
  cases markOf nonce payload <;> rfl

theorem referenceMarks_osc_esc (h : c ≠ 0x5c) :
    referenceMarks nonce (.osc payload) (esc :: c :: rest) =
      referenceMarks nonce .ground (esc :: c :: rest) := by
  rw [referenceMarks, reference.eq_def]
  dsimp only
  rw [if_neg (by decide), if_pos rfl, if_neg h]
  rfl

theorem referenceMarks_osc_push (hbel : b ≠ bel) (hesc : b ≠ esc) :
    referenceMarks nonce (.osc payload) (b :: rest) =
      referenceMarks nonce (.osc (payload ++ [b])) rest := by
  rw [referenceMarks, reference.eq_def]
  dsimp only
  rw [if_neg hbel, if_neg hesc]
  rfl

theorem referenceMarks_string_of_ne (h : b ≠ esc) :
    referenceMarks nonce .string (b :: rest) = referenceMarks nonce .string rest := by
  rw [referenceMarks, reference.eq_def]
  dsimp only
  rw [if_neg h]
  rfl

theorem referenceMarks_string_st :
    referenceMarks nonce .string (esc :: 0x5c :: rest) = referenceMarks nonce .ground rest := by
  rw [referenceMarks, reference.eq_def]
  dsimp only
  rw [if_pos rfl]
  rfl

theorem referenceMarks_string_esc (h : c ≠ 0x5c) :
    referenceMarks nonce .string (esc :: c :: rest) = referenceMarks nonce .string (c :: rest) := by
  rw [referenceMarks, reference.eq_def]
  dsimp only
  rw [if_pos rfl, if_neg h]
  rfl

end Reference

/-! ## The streams that are framed right -/

/-- Behind a pair of ESC nothing is opened. -/
def Unopened : Bytes → Prop
  | [] => True
  | c :: _ => c ≠ 0x5d ∧ ¬ OpensString c

instance : DecidablePred Unopened := fun bytes =>
  match bytes with
  | [] => isTrue trivial
  | _ :: _ => inferInstanceAs (Decidable (_ ∧ _))

/-- The openings right behind a pair of ESC, outside a string: how many bytes the stream has
from each on. -/
def openings : Mode → Bytes → List Nat
  | _, [] => []
  | .ground, b :: rest =>
    if b = esc then
      match rest with
      | [] => []
      | c :: rest' =>
        if c = esc then
          (if Unopened rest' then [] else [rest'.length]) ++ openings .ground rest'
        else if c = 0x5d then openings (.osc []) rest'
        else if OpensString c then openings .string rest'
        else openings .ground rest'
    else openings .ground rest
  | .osc payload, b :: rest =>
    if b = bel then openings .ground rest
    else if b = esc then
      match rest with
      | [] => []
      | c :: rest' =>
        if c = 0x5c then openings .ground rest' else openings .ground (esc :: c :: rest')
    else openings (.osc (payload ++ [b])) rest
  | .string, b :: rest =>
    if b = esc then
      match rest with
      | [] => []
      | c :: rest' => if c = 0x5c then openings .ground rest' else openings .string (c :: rest')
    else openings .string rest
termination_by mode bytes => 2 * bytes.length + mode.weight
decreasing_by
  all_goals simp only [Mode.weight, List.length_cons]
  all_goals omega

/-- No pair of ESC stands before an opening, outside a string. -/
def Clean (mode : Mode) (bytes : Bytes) : Prop := openings mode bytes = []

/-- A pair of ESC stands before an opening in `front` at most. -/
def CleanBehind (mode : Mode) (front more : Bytes) : Prop :=
  ∀ n ∈ openings mode (front ++ more), more.length < n

section Openings

variable {b c : UInt8} {payload rest : Bytes}

@[simp] theorem openings_nil (mode : Mode) : openings mode [] = [] := by
  cases mode <;> simp [openings]

theorem openings_ground_of_ne (h : b ≠ esc) :
    openings .ground (b :: rest) = openings .ground rest := by
  rw [openings.eq_def]
  dsimp only
  rw [if_neg h]

theorem openings_ground_pair : openings .ground (esc :: esc :: rest) =
    (if Unopened rest then [] else [rest.length]) ++ openings .ground rest := by
  rw [openings.eq_def]
  rfl

theorem openings_ground_esc (h : c ≠ esc) : openings .ground (esc :: c :: rest) =
    if c = 0x5d then openings (.osc []) rest
    else if OpensString c then openings .string rest else openings .ground rest := by
  rw [openings.eq_def]
  dsimp only
  rw [if_pos rfl, if_neg h]

theorem openings_osc_bel : openings (.osc payload) (bel :: rest) = openings .ground rest := by
  rw [openings.eq_def]
  rfl

theorem openings_osc_esc : openings (.osc payload) (esc :: c :: rest) =
    if c = 0x5c then openings .ground rest else openings .ground (esc :: c :: rest) := by
  rw [openings.eq_def]
  dsimp only
  rw [if_neg (by decide), if_pos rfl]

theorem openings_osc_push (hbel : b ≠ bel) (hesc : b ≠ esc) :
    openings (.osc payload) (b :: rest) = openings (.osc (payload ++ [b])) rest := by
  rw [openings.eq_def]
  dsimp only
  rw [if_neg hbel, if_neg hesc]

theorem openings_string_of_ne (h : b ≠ esc) :
    openings .string (b :: rest) = openings .string rest := by
  rw [openings.eq_def]
  dsimp only
  rw [if_neg h]

theorem openings_string_esc : openings .string (esc :: c :: rest) =
    if c = 0x5c then openings .ground rest else openings .string (c :: rest) := by
  rw [openings.eq_def]
  dsimp only
  rw [if_pos rfl]

/-- A pair stands before its opening. -/
theorem lt_length_of_mem_openings {mode : Mode} {bytes : Bytes} {n : Nat}
    (h : n ∈ openings mode bytes) : n + 1 < bytes.length := by
  fun_induction openings mode bytes with
  | case1 | case2 | case9 | case13 => cases h
  | case3 rest ih =>
    simp only [List.length_cons]
    rcases List.mem_append.1 h with h | h
    · split at h
      · cases h
      · rw [List.mem_singleton.1 h]
        omega
    · have := ih h
      omega
  | case4 | case5 | case6 | case7 | case8 | case10 | case11 | case12 | case14 | case15 | case16 =>
    rename_i ih
    have := ih h
    simp only [List.length_cons] at this ⊢
    omega

end Openings

/-! ## The scanner beside the reference -/

/-- The scanner's buffer is the payload as far as the cap goes. -/
structure Holds (s : OscScanner) (payload : Bytes) : Prop where
  buf : s.buf = payload.take maxOscPayload
  overflowed : s.overflowed = true ↔ maxOscPayload < payload.length

/-- The scanner stands where the reference does, with `pre` read ahead of it. -/
inductive Stands (s : OscScanner) : Mode → Bytes → Prop
  | ground (h : s.state = .ground) : Stands s .ground []
  | escape (h : s.state = .escape) : Stands s .ground [esc]
  | osc {payload : Bytes} (h : s.state = .osc) (hp : Holds s payload) : Stands s (.osc payload) []
  | oscEsc {payload : Bytes} (h : s.state = .oscEsc) (hp : Holds s payload) :
    Stands s (.osc payload) [esc]
  | stringSeq (h : s.state = .stringSeq) : Stands s .string []
  | stringEsc (h : s.state = .stringEsc) : Stands s .string [esc]

/-- The next byte is the second ESC of a pair outside a string. -/
def Pairs (s : OscScanner) (b : UInt8) : Prop :=
  (s.state = .escape ∨ s.state = .oscEsc) ∧ b = esc

/-- What the scanner does with a byte, the reference does with it, and what is opened behind a
pair is opened behind the byte. -/
structure Follows (s : OscScanner) (b : UInt8) (mode : Mode) (pre : Bytes) (mode' : Mode)
    (pre' : Bytes) : Prop where
  stands : Stands (s.scanByte 0 b).1 mode' pre'
  marks : ∀ rest, referenceMarks s.nonce mode (pre ++ b :: rest) =
    (s.scanByte 0 b).2.map (·.2) ++ referenceMarks s.nonce mode' (pre' ++ rest)
  openings : ∀ rest, openings mode (pre ++ b :: rest) = openings mode' (pre' ++ rest)

variable {s : OscScanner} {mode : Mode} {pre payload rest : Bytes} {b c : UInt8}

theorem Holds.push (h : Holds s payload) (b : UInt8) : Holds (s.pushOsc b) (payload ++ [b]) := by
  obtain ⟨hbuf, hover⟩ := h
  unfold OscScanner.pushOsc
  have hlen : s.buf.length = min maxOscPayload payload.length := by rw [hbuf, List.length_take]
  split
  · next hlt =>
    have hle : payload.length < maxOscPayload := by omega
    refine ⟨?_, ?_⟩
    · rw [hbuf, List.take_of_length_le (by omega), List.take_of_length_le (by simp; omega)]
    · simp only [hover, List.length_append, List.length_singleton]
      omega
  · next hge =>
    refine ⟨?_, ?_⟩
    · rw [hbuf, List.take_append_of_le_length (by omega)]
    · simp only [List.length_append, List.length_singleton, true_iff]
      omega

/-- An OSC ends with the mark of its payload. -/
theorem Holds.finish (h : Holds s payload) (offset : Nat) :
    (s.finishOsc offset).2.map (·.2) = (markOf s.nonce payload).toList := by
  unfold OscScanner.finishOsc markOf
  dsimp only
  split
  · next hover =>
    rw [if_neg (by have := h.overflowed.1 hover; omega)]
    rfl
  · next hover =>
    have hle : payload.length ≤ maxOscPayload := by
      have := mt h.overflowed.2 hover
      omega
    rw [if_pos hle, h.buf, List.take_of_length_le hle]
    cases parseOscMark (fromUtf8Lossy payload) s.nonce <;> rfl

/-- The byte behind an ESC, the next ESC apart, opens what the reference opens. -/
theorem dispatchAfterEsc_follows (hc : c ≠ esc) :
    ∃ mode', Stands (s.dispatchAfterEsc c) mode' [] ∧
      (∀ nonce rest, referenceMarks nonce .ground (esc :: c :: rest) =
        referenceMarks nonce mode' rest) ∧
      ∀ rest, openings .ground (esc :: c :: rest) = openings mode' rest := by
  unfold OscScanner.dispatchAfterEsc
  by_cases hosc : c = 0x5d
  · subst hosc
    refine ⟨.osc [], ?_, fun _ _ => referenceMarks_ground_osc, fun rest => ?_⟩
    · exact .osc rfl ⟨rfl, by simp [OscScanner.resetBuf]⟩
    · rw [openings_ground_esc hc, if_pos rfl]
  by_cases hstring : OpensString c
  · refine ⟨.string, ?_, fun _ _ => referenceMarks_ground_string hstring, fun rest => ?_⟩
    · rw [if_neg hosc, if_pos (show c = 0x50 ∨ c = 0x58 ∨ c = 0x5e ∨ c = 0x5f from hstring)]
      exact .stringSeq rfl
    · rw [openings_ground_esc hc, if_neg hosc, if_pos hstring]
  · refine ⟨.ground, ?_, fun nonce rest => ?_, fun rest => ?_⟩
    · rw [if_neg hosc, if_neg (show ¬ (c = 0x50 ∨ c = 0x58 ∨ c = 0x5e ∨ c = 0x5f) from hstring)]
      exact .ground rfl
    · rw [referenceMarks_ground_short hosc hstring, referenceMarks_ground_of_ne hc]
    · rw [openings_ground_esc hc, if_neg hosc, if_neg hstring]

/-- **One byte**: away from a second ESC the scanner follows the reference. -/
theorem exists_follows (h : Stands s mode pre) (hb : ¬ Pairs s b) :
    ∃ mode' pre', Follows s b mode pre mode' pre' := by
  cases h with
  | ground h =>
    by_cases hesc : b = esc
    · subst hesc
      refine ⟨.ground, [esc], ?_, fun _ => ?_, fun _ => rfl⟩
      · simp only [OscScanner.scanByte, h]
        exact .escape rfl
      · simp only [OscScanner.scanByte, h]
        rfl
    · refine ⟨.ground, [], ?_, fun _ => ?_, fun _ => openings_ground_of_ne hesc⟩
      · simp only [OscScanner.scanByte, h, if_neg hesc]
        exact .ground h
      · simp only [OscScanner.scanByte, h]
        exact referenceMarks_ground_of_ne hesc
  | escape h =>
    have hesc : b ≠ esc := fun hb' => hb ⟨.inl h, hb'⟩
    obtain ⟨mode', hstands, hmarks, hopen⟩ := dispatchAfterEsc_follows (s := s) hesc
    refine ⟨mode', [], ?_, fun _ => ?_, fun _ => hopen _⟩
    · simp only [OscScanner.scanByte, h]
      exact hstands
    · simp only [OscScanner.scanByte, h]
      exact hmarks _ _
  | osc h hp =>
    by_cases hbel : b = bel
    · subst hbel
      refine ⟨.ground, [], ?_, fun _ => ?_, fun _ => openings_osc_bel⟩
      · simp only [OscScanner.scanByte, h]
        exact .ground rfl
      · simp only [OscScanner.scanByte, h, if_true, hp.finish]
        exact referenceMarks_osc_bel
    by_cases hesc : b = esc
    · subst hesc
      refine ⟨_, [esc], ?_, fun _ => ?_, fun _ => rfl⟩
      · simp only [OscScanner.scanByte, h, if_neg hbel]
        exact .oscEsc rfl ⟨hp.buf, hp.overflowed⟩
      · simp only [OscScanner.scanByte, h, if_neg hbel]
        rfl
    · refine ⟨.osc (_ ++ [b]), [], ?_, fun _ => ?_, fun _ => openings_osc_push hbel hesc⟩
      · simp only [OscScanner.scanByte, h, if_neg hbel, if_neg hesc]
        refine .osc ?_ (hp.push b)
        unfold OscScanner.pushOsc
        split <;> rfl
      · simp only [OscScanner.scanByte, h, if_neg hbel, if_neg hesc]
        exact referenceMarks_osc_push hbel hesc
  | oscEsc h hp =>
    have hesc : b ≠ esc := fun hb' => hb ⟨.inr h, hb'⟩
    by_cases hst : b = 0x5c
    · subst hst
      refine ⟨.ground, [], ?_, fun _ => ?_, fun _ => ?_⟩
      · simp only [OscScanner.scanByte, h]
        exact .ground rfl
      · simp only [OscScanner.scanByte, h, if_true, hp.finish]
        exact referenceMarks_osc_st
      · rw [List.singleton_append, openings_osc_esc, if_pos rfl]
        rfl
    · obtain ⟨mode', hstands, hmarks, hopen⟩ :=
        dispatchAfterEsc_follows (s := s.resetBuf) hesc
      refine ⟨mode', [], ?_, fun _ => ?_, fun _ => ?_⟩
      · simp only [OscScanner.scanByte, h, if_neg hst]
        exact hstands
      · simp only [OscScanner.scanByte, h, if_neg hst]
        exact (referenceMarks_osc_esc hst).trans (hmarks _ _)
      · rw [List.singleton_append, openings_osc_esc, if_neg hst]
        exact hopen _
  | stringSeq h =>
    by_cases hesc : b = esc
    · subst hesc
      refine ⟨.string, [esc], ?_, fun _ => ?_, fun _ => rfl⟩
      · simp only [OscScanner.scanByte, h]
        exact .stringEsc rfl
      · simp only [OscScanner.scanByte, h]
        rfl
    · refine ⟨.string, [], ?_, fun _ => ?_, fun _ => openings_string_of_ne hesc⟩
      · simp only [OscScanner.scanByte, h, if_neg hesc]
        exact .stringSeq h
      · simp only [OscScanner.scanByte, h]
        exact referenceMarks_string_of_ne hesc
  | stringEsc h =>
    by_cases hst : b = 0x5c
    · subst hst
      refine ⟨.ground, [], ?_, fun _ => ?_, fun _ => ?_⟩
      · simp only [OscScanner.scanByte, h]
        exact .ground rfl
      · simp only [OscScanner.scanByte, h]
        exact referenceMarks_string_st
      · rw [List.singleton_append, openings_string_esc, if_pos rfl]
        rfl
    by_cases hesc : b = esc
    · subst hesc
      refine ⟨.string, [esc], ?_, fun _ => ?_, fun _ => ?_⟩
      · simp only [OscScanner.scanByte, h]
        exact .stringEsc rfl
      · simp only [OscScanner.scanByte, h]
        exact referenceMarks_string_esc hst
      · rw [List.singleton_append, openings_string_esc, if_neg hst]
        rfl
    · refine ⟨.string, [], ?_, fun _ => ?_, fun _ => ?_⟩
      · simp only [OscScanner.scanByte, h, if_neg hst, if_neg hesc]
        exact .stringSeq rfl
      · simp only [OscScanner.scanByte, h]
        exact (referenceMarks_string_esc hst).trans (referenceMarks_string_of_ne hesc)
      · rw [List.singleton_append, openings_string_esc, if_neg hst]
        exact openings_string_of_ne hesc

/-- **A second ESC** leaves the scanner outside every sequence, where the reference stands
behind an ESC. -/
theorem pairs_follows (h : Stands s mode pre) (hb : Pairs s b) :
    Stands (s.scanByte 0 b).1 .ground [] ∧ (s.scanByte 0 b).2 = [] ∧
      (∀ nonce rest, referenceMarks nonce mode (pre ++ b :: rest) =
        referenceMarks nonce .ground (esc :: rest)) ∧
      ∀ rest, openings mode (pre ++ b :: rest) =
        (if Unopened rest then [] else [rest.length]) ++ openings .ground rest := by
  obtain ⟨hstate, rfl⟩ := hb
  have hshort : ∀ nonce rest, referenceMarks nonce .ground (esc :: esc :: rest) =
      referenceMarks nonce .ground (esc :: rest) := fun _ _ =>
    referenceMarks_ground_short (by decide) (by decide)
  cases h with
  | escape h =>
    refine ⟨?_, ?_, fun _ _ => hshort _ _, fun _ => openings_ground_pair⟩
    · simp only [OscScanner.scanByte, h]
      exact .ground rfl
    · simp only [OscScanner.scanByte, h]
  | oscEsc h hp =>
    refine ⟨?_, ?_, fun _ _ => (referenceMarks_osc_esc (by decide)).trans (hshort _ _), fun _ => ?_⟩
    · simp only [OscScanner.scanByte, h]
      exact .ground rfl
    · simp only [OscScanner.scanByte, h]
      rfl
    · rw [List.singleton_append, openings_osc_esc, if_neg (by decide)]
      exact openings_ground_pair
  | ground h => simp [h] at hstate
  | osc h hp => simp [h] at hstate
  | stringSeq h => simp [h] at hstate
  | stringEsc h => simp [h] at hstate

/-- Before what opens nothing, an ESC more or less makes no difference. -/
theorem referenceMarks_esc_of_unopened {nonce : String} (h : Unopened rest) :
    referenceMarks nonce .ground (esc :: rest) = referenceMarks nonce .ground rest := by
  cases rest with
  | nil => simp [referenceMarks, reference]
  | cons c rest => exact referenceMarks_ground_short h.1 h.2

theorem feed_cons (s : OscScanner) (b : UInt8) (bytes : Bytes) :
    (s.feed (b :: bytes)).2 =
      (s.scanByte 0 b).2.map (·.2) ++ ((s.scanByte 0 b).1.feed bytes).2 := by
  simp only [OscScanner.feed, OscScanner.feedPositioned, OscScanner.scanFrom, List.map_append]
  rw [(OscScanner.scanFrom_shift (s.scanByte 0 b).1 (0 + 1) 0 bytes).2]

theorem clean_pair (hopen : openings mode (pre ++ b :: rest) =
      (if Unopened rest then [] else [rest.length]) ++ openings .ground rest)
    (h : Clean mode (pre ++ b :: rest)) : Unopened rest ∧ Clean .ground rest := by
  unfold Clean at h
  rw [hopen, List.append_eq_nil_iff] at h
  refine ⟨?_, h.2⟩
  by_contra hnot
  rw [if_neg hnot] at h
  cases h.1

/-- **In a clean stream the scanner finds the marks of the reference.** -/
theorem feed_eq_referenceMarks (bytes : Bytes) (h : Stands s mode pre)
    (hclean : Clean mode (pre ++ bytes)) :
    (s.feed bytes).2 = referenceMarks s.nonce mode (pre ++ bytes) := by
  induction bytes generalizing s mode pre with
  | nil =>
    -- an ESC at the end of the stream has opened nothing yet
    cases h <;> simp [OscScanner.feed, OscScanner.feedPositioned, OscScanner.scanFrom,
      referenceMarks, reference, esc, bel]
  | cons b bytes ih =>
    rw [feed_cons]
    by_cases hb : Pairs s b
    · obtain ⟨hstands, hnone, hmarks, hopen⟩ := pairs_follows h hb
      obtain ⟨hunopened, hrest⟩ := clean_pair (hopen bytes) hclean
      rw [hnone, hmarks, referenceMarks_esc_of_unopened hunopened, ih hstands hrest,
        nonce_scanByte]
      rfl
    · obtain ⟨mode', pre', hfollows⟩ := exists_follows h hb
      rw [hfollows.marks, ih hfollows.stands ((hfollows.openings bytes).symm.trans hclean),
        nonce_scanByte]

/-! ## Where the framing is lost -/

/-- What follows `ESC ]` in the mark of a prompt. -/
def promptMark : Bytes := [0x31, 0x33, 0x33, 0x3b, 0x41, bel]

/-- The mark of a prompt that stands in a string. -/
def promptInString : Bytes := esc :: 0x5d :: promptMark ++ [esc, 0x5c]

theorem markOf_prompt (nonce : String) :
    markOf nonce [0x31, 0x33, 0x33, 0x3b, 0x41] = some .promptStart := rfl

/-- A byte that is no ESC, outside every sequence. -/
theorem feed_cons_ground (hs : s.state = .ground) (hc : c ≠ esc) (bytes : Bytes) :
    (s.feed (c :: bytes)).2 = (s.feed bytes).2 := by
  rw [feed_cons]
  simp only [OscScanner.scanByte, hs, if_neg hc]
  rfl

/-- Behind a pair of ESC that stands before an opening, a clean stream goes on that the scanner
misreads: the mark is missed, or is found inside a string. -/
theorem exists_misread (hs : s.state = .ground) (h : ¬ Unopened (c :: rest)) :
    ∃ more, Clean .ground (c :: more) ∧
      (s.feed (c :: more)).2 ≠ referenceMarks s.nonce .ground (esc :: c :: more) := by
  have hesc : c ≠ esc := by
    rintro rfl
    exact h ⟨by decide, by decide⟩
  by_cases hosc : c = 0x5d
  · subst hosc
    have hclean : Clean .ground promptMark := by simp [Clean, openings, promptMark, esc, bel]
    refine ⟨promptMark, (openings_ground_of_ne hesc).trans hclean, ?_⟩
    rw [feed_cons_ground hs hesc, feed_eq_referenceMarks promptMark (.ground hs) hclean,
      referenceMarks_ground_osc]
    simp [referenceMarks, reference, promptMark, esc, bel, markOf_prompt]
  · have hstring : OpensString c := by
      by_contra hstring
      exact h ⟨hosc, hstring⟩
    have hclean : Clean .ground promptInString := by
      simp [Clean, openings, promptInString, promptMark, esc, bel, OpensString]
    refine ⟨promptInString, (openings_ground_of_ne hesc).trans hclean, ?_⟩
    rw [feed_cons_ground hs hesc, feed_eq_referenceMarks promptInString (.ground hs) hclean,
      referenceMarks_ground_string hstring]
    simp [referenceMarks, reference, promptInString, promptMark, esc, bel, markOf_prompt]

/-- **A stream that is not clean** has a beginning that goes on, clean behind it, in a way the
scanner misreads. -/
theorem exists_misread_of_not_clean (bytes : Bytes) (h : Stands s mode pre)
    (hclean : ¬ Clean mode (pre ++ bytes)) :
    ∃ front more, front ≠ [] ∧ front <+: bytes ∧
      (∀ n ∈ openings mode (pre ++ (front ++ more)), more.length < n) ∧
      (s.feed (front ++ more)).2 ≠ referenceMarks s.nonce mode (pre ++ (front ++ more)) := by
  induction bytes generalizing s mode pre with
  | nil => cases h <;> simp [Clean, openings] at hclean
  | cons b bytes ih =>
    by_cases hb : Pairs s b
    · obtain ⟨hstands, hnone, hmarks, hopen⟩ := pairs_follows h hb
      have hgo : ∀ more, (s.feed (b :: more)).2 = ((s.scanByte 0 b).1.feed more).2 := fun more => by
        rw [feed_cons, hnone]
        rfl
      have hground : (s.scanByte 0 b).1.state = .ground := by
        cases hstands
        assumption
      cases bytes with
      | nil =>
        refine absurd ?_ hclean
        unfold Clean
        rw [hopen, if_pos (show Unopened [] from trivial), openings_nil]
        rfl
      | cons c bytes =>
        by_cases hunopened : Unopened (c :: bytes)
        · have hrest : ¬ Clean .ground ([] ++ c :: bytes) := by
            intro hc
            refine hclean ?_
            unfold Clean
            rw [hopen, if_pos hunopened]
            exact hc
          obtain ⟨front, more, hne, ⟨tail, htail⟩, hbehind, hdiff⟩ := ih hstands hrest
          obtain ⟨d, front, rfl⟩ := List.exists_cons_of_ne_nil hne
          obtain ⟨rfl, htail⟩ := List.cons.inj htail
          have hunopened' : Unopened (d :: front ++ more) := hunopened
          refine ⟨b :: d :: front, more, by simp, ⟨tail, by rw [← htail]; rfl⟩, ?_, ?_⟩
          · rw [List.cons_append, hopen, if_pos hunopened']
            exact hbehind
          · rw [List.cons_append, hgo, hmarks, referenceMarks_esc_of_unopened hunopened']
            rw [nonce_scanByte] at hdiff
            exact hdiff
        · obtain ⟨more, hmore, hdiff⟩ := exists_misread hground hunopened
          refine ⟨[b, c], more, by simp, ⟨bytes, rfl⟩, fun n hn => ?_, ?_⟩
          · -- the opening itself is the only one, and the last byte of the beginning
            have hn : n ∈ openings mode (pre ++ b :: (c :: more)) := hn
            rw [hopen, if_neg (show ¬ Unopened (c :: more) from hunopened), hmore,
              List.append_nil] at hn
            rw [List.mem_singleton.1 hn]
            exact Nat.lt_succ_self _
          · show (s.feed (b :: c :: more)).2 ≠ referenceMarks s.nonce mode (pre ++ b :: c :: more)
            rw [hgo, hmarks]
            rw [nonce_scanByte] at hdiff
            exact hdiff
    · obtain ⟨mode', pre', hfollows⟩ := exists_follows h hb
      have hrest : ¬ Clean mode' (pre' ++ bytes) := fun hc =>
        hclean ((hfollows.openings bytes).trans hc)
      obtain ⟨front, more, -, ⟨tail, htail⟩, hbehind, hdiff⟩ := ih hfollows.stands hrest
      refine ⟨b :: front, more, by simp, ⟨tail, by rw [← htail]; rfl⟩, ?_, ?_⟩
      · rw [List.cons_append, hfollows.openings]
        exact hbehind
      · rw [List.cons_append, feed_cons, hfollows.marks]
        rw [nonce_scanByte] at hdiff
        exact fun heq => hdiff (List.append_cancel_left heq)

/-- A beginning of a clean stream goes on to clean streams, where no pair stands before an
opening behind it. -/
theorem clean_behind {front more : Bytes} (h : Stands s mode pre)
    (hclean : Clean mode (pre ++ (front ++ rest)))
    (hbehind : ∀ n ∈ openings mode (pre ++ (front ++ more)), more.length < n) :
    Clean mode (pre ++ (front ++ more)) := by
  induction front generalizing s mode pre with
  | nil =>
    refine List.eq_nil_iff_forall_not_mem.2 fun n hn => ?_
    have hlt := hbehind n hn
    have hfits := lt_length_of_mem_openings hn
    have hpre : pre.length ≤ 1 := by cases h <;> simp
    simp only [List.length_append, List.nil_append] at hfits
    omega
  | cons b front ih =>
    by_cases hb : Pairs s b
    · obtain ⟨hstands, -, -, hopen⟩ := pairs_follows h hb
      obtain ⟨hunopened, hrest⟩ := clean_pair (hopen (front ++ rest)) hclean
      rw [List.cons_append, hopen] at hbehind
      have hunopened' : Unopened (front ++ more) := by
        cases front with
        | nil =>
          by_contra hnot
          refine absurd (hbehind more.length ?_) (Nat.lt_irrefl _)
          rw [List.nil_append] at hnot ⊢
          rw [if_neg hnot]
          exact List.mem_cons_self
        | cons c front => exact hunopened
      rw [if_pos hunopened'] at hbehind
      unfold Clean
      rw [List.cons_append, hopen, if_pos hunopened']
      exact ih hstands hrest hbehind
    · obtain ⟨mode', pre', hfollows⟩ := exists_follows h hb
      unfold Clean at hclean ⊢
      rw [List.cons_append, hfollows.openings] at hclean hbehind ⊢
      exact ih hfollows.stands hclean hbehind

/-- **The scanner keeps the framing** in a clean stream, however it is cut. A stream is clean
just when each of its beginnings, whatever follows that is clean behind it, is read as the
reference reads it. -/
theorem framing_kept (nonce : String) (stream : Bytes) :
    (Clean .ground stream → ∀ chunks : List Bytes, chunks.flatten = stream →
      ((OscScanner.new nonce).feedAll chunks).2 = referenceMarks nonce .ground stream) ∧
    (Clean .ground stream ↔ ∀ front more, front <+: stream → CleanBehind .ground front more →
      ((OscScanner.new nonce).feedAll [front ++ more]).2 =
        referenceMarks nonce .ground (front ++ more)) := by
  have hstands : Stands (OscScanner.new nonce) .ground [] := .ground rfl
  refine ⟨?_, ?_, ?_⟩
  · rintro hclean chunks rfl
    rw [OscScanner.feedAll_eq_feed]
    exact feed_eq_referenceMarks _ hstands hclean
  · rintro hclean front more ⟨rest, rfl⟩ hbehind
    rw [OscScanner.feedAll_eq_feed, List.flatten_singleton]
    exact feed_eq_referenceMarks _ hstands (clean_behind hstands hclean hbehind)
  · intro hkept
    by_contra hclean
    obtain ⟨front, more, -, hfront, hbehind, hdiff⟩ :=
      exists_misread_of_not_clean stream hstands hclean
    have heq := hkept front more hfront hbehind
    rw [OscScanner.feedAll_eq_feed, List.flatten_singleton] at heq
    exact hdiff heq

/-- The mark of a prompt behind a stray ESC is missed. -/
theorem stray_esc_loses_mark :
    ((OscScanner.new "0").feedAll [esc :: esc :: 0x5d :: promptMark]).2 ≠
      referenceMarks "0" .ground (esc :: esc :: 0x5d :: promptMark) := by
  have hscanner : ((OscScanner.new "0").feedAll [esc :: esc :: 0x5d :: promptMark]).2 = [] := rfl
  rw [hscanner, referenceMarks_ground_short (by decide) (by decide), referenceMarks_ground_osc]
  simp [referenceMarks, reference, promptMark, esc, bel, markOf_prompt]

end Arlen.Terminal
