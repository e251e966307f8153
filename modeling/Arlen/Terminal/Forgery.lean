import Arlen.Terminal.Blocks
import Mathlib.Data.List.Sort

/-!
# No forged command

A session's stream is what the shell writes between the output of programs that may write
anything. As long as the nonce of the session stands in the marks of the shell and nowhere
else, every command line the scanner reports is one of the shell's marks, each at most once
and in their order, and the blocks show these commands. A payload ends in the nonce right
before its terminator only where a mark of the shell does, and reaches back to the last ESC
before it, which is the one that opens this mark.
-/

namespace Arlen.Terminal

open Arlen.Lib

/-- Free of ESC and BEL. -/
def Plain (b : Bytes) : Prop := esc ∉ b ∧ bel ∉ b

/-- What ends an OSC. -/
def IsTerminator (t : Bytes) : Prop := t = [bel] ∨ t = [esc, 0x5c]

/-! ## What the scanner has read -/

/-- An OSC that stands in the stream, up to the given offset. -/
structure OscAt (stream : Bytes) (offset : Nat) (payload : Bytes) : Prop where
  plain : Plain payload
  framed : ∃ pre term rest, stream = pre ++ (esc :: 0x5d :: payload) ++ term ++ rest ∧
    IsTerminator term ∧ offset = (pre ++ (esc :: 0x5d :: payload) ++ term).length

/-- What the scanner's state says about the bytes behind it. -/
def Behind (s : OscScanner) (consumed : Bytes) : Prop :=
  match s.state with
  | .escape => ∃ pre, consumed = pre ++ [esc]
  | .osc => s.overflowed = false →
      Plain s.buf ∧ ∃ pre, consumed = pre ++ (esc :: 0x5d :: s.buf)
  | .oscEsc => (∃ pre, consumed = pre ++ [esc]) ∧
      (s.overflowed = false → Plain s.buf ∧ ∃ pre, consumed = pre ++ (esc :: 0x5d :: s.buf) ++ [esc])
  | _ => True

section Scanning

variable {s : OscScanner} {consumed bytes : Bytes} {b : UInt8}

theorem Plain.concat {p : Bytes} (h : Plain p) (hesc : b ≠ esc) (hbel : b ≠ bel) :
    Plain (p ++ [b]) := by
  simp [Plain, h.1, h.2, hesc.symm, hbel.symm]

theorem behind_dispatchAfterEsc (h : ∃ pre, consumed = pre ++ [esc]) (b : UInt8) :
    Behind (s.dispatchAfterEsc b) (consumed ++ [b]) := by
  obtain ⟨pre, rfl⟩ := h
  unfold OscScanner.dispatchAfterEsc
  split
  · next hosc =>
    intro _
    exact ⟨⟨List.not_mem_nil, List.not_mem_nil⟩, pre, by simp [OscScanner.resetBuf, hosc]⟩
  · split <;> trivial

/-- **One byte** keeps what the state says. -/
theorem Behind.scanByte (h : Behind s consumed) (i : Nat) (b : UInt8) :
    Behind (s.scanByte i b).1 (consumed ++ [b]) := by
  unfold OscScanner.scanByte
  cases hstate : s.state with
  | ground =>
    dsimp only
    split
    · next hb => exact ⟨consumed, by rw [hb]⟩
    · simp [Behind, hstate]
  | escape =>
    rw [Behind, hstate] at h
    exact behind_dispatchAfterEsc h b
  | osc =>
    rw [Behind, hstate] at h
    dsimp only
    split
    · trivial
    · next hbel =>
      split
      · next hesc =>
        refine ⟨⟨consumed, by rw [hesc]⟩, fun hover => ?_⟩
        obtain ⟨hplain, pre, hpre⟩ := h hover
        exact ⟨hplain, pre, by rw [hpre, hesc]⟩
      · next hesc =>
        unfold OscScanner.pushOsc
        split
        · intro hover
          obtain ⟨hplain, pre, hpre⟩ := h hover
          exact ⟨hplain.concat hesc hbel, pre, by simp [hpre]⟩
        · intro hover
          cases hover
  | oscEsc =>
    rw [Behind, hstate] at h
    dsimp only
    split
    · trivial
    · exact behind_dispatchAfterEsc h.1 b
  | stringSeq =>
    dsimp only
    split
    · trivial
    · simp [Behind, hstate]
  | stringEsc =>
    dsimp only
    by_cases hst : b = 0x5c
    · simp [Behind, hst]
    · by_cases hesc : b = esc
      · simp [Behind, hesc, esc]
      · simp [Behind, hst, hesc]

/-- The event of an OSC that ends here. -/
theorem finishOsc_mem {offset : Nat} {ev : Nat × VtEvent} {consumed term : Bytes}
    (h : s.overflowed = false → Plain s.buf ∧
      ∃ pre, consumed = pre ++ (esc :: 0x5d :: s.buf) ++ term)
    (hterm : IsTerminator term) (hoffset : offset = consumed.length)
    (hev : ev ∈ (s.finishOsc offset).2) (rest : Bytes) :
    ev.1 = offset ∧ ∃ payload, OscAt (consumed ++ rest) offset payload ∧
      parseOscMark (fromUtf8Lossy payload) s.nonce = some ev.2 := by
  unfold OscScanner.finishOsc at hev
  dsimp only at hev
  split at hev
  · simp at hev
  · next hover =>
    obtain ⟨hplain, pre, hpre⟩ := h (by simpa using hover)
    simp only [Option.mem_toList, Option.map_eq_some_iff] at hev
    obtain ⟨mark, hmark, rfl⟩ := hev
    refine ⟨rfl, s.buf, ⟨hplain, pre, term, rest, ?_, hterm, ?_⟩, hmark⟩
    · rw [hpre]
    · rw [hoffset, hpre]

theorem Behind.scanByte_mem (h : Behind s consumed) {ev : Nat × VtEvent}
    (hev : ev ∈ (s.scanByte consumed.length b).2) (rest : Bytes) :
    ev.1 = consumed.length + 1 ∧ ∃ payload, OscAt (consumed ++ b :: rest) ev.1 payload ∧
      parseOscMark (fromUtf8Lossy payload) s.nonce = some ev.2 := by
  have hlen : consumed.length + 1 = (consumed ++ [b]).length := by simp
  have happend : consumed ++ b :: rest = consumed ++ [b] ++ rest := by simp
  rw [happend]
  unfold OscScanner.scanByte at hev
  cases hstate : s.state with
  | osc =>
    rw [Behind, hstate] at h
    rw [hstate] at hev
    dsimp only at hev
    split at hev
    · next hbel =>
      have hframed : s.overflowed = false → Plain s.buf ∧
          ∃ pre, consumed ++ [b] = pre ++ (esc :: 0x5d :: s.buf) ++ [bel] := by
        intro hover
        obtain ⟨hplain, pre, hpre⟩ := h hover
        exact ⟨hplain, pre, by rw [hpre, hbel]⟩
      obtain ⟨hoffset, hfound⟩ := finishOsc_mem hframed (.inl rfl) hlen hev rest
      exact ⟨hoffset, hoffset ▸ hfound⟩
    · split at hev <;> simp at hev
  | oscEsc =>
    rw [Behind, hstate] at h
    rw [hstate] at hev
    dsimp only at hev
    split at hev
    · next hst =>
      have hframed : s.overflowed = false → Plain s.buf ∧
          ∃ pre, consumed ++ [b] = pre ++ (esc :: 0x5d :: s.buf) ++ [esc, 0x5c] := by
        intro hover
        obtain ⟨hplain, pre, hpre⟩ := h.2 hover
        exact ⟨hplain, pre, by rw [hpre, hst]; simp⟩
      obtain ⟨hoffset, hfound⟩ := finishOsc_mem hframed (.inr rfl) hlen hev rest
      exact ⟨hoffset, hoffset ▸ hfound⟩
    · simp at hev
  | ground => simp [hstate] at hev
  | escape => simp [hstate] at hev
  | stringSeq => simp [hstate] at hev
  | stringEsc => simp [hstate] at hev

/-- **Every event has its OSC**: one that stands in the stream and ends at the event's offset. -/
theorem Behind.scanFrom_mem (h : Behind s consumed) {ev : Nat × VtEvent}
    (hev : ev ∈ (s.scanFrom consumed.length bytes).2) :
    consumed.length < ev.1 ∧ ∃ payload, OscAt (consumed ++ bytes) ev.1 payload ∧
      parseOscMark (fromUtf8Lossy payload) s.nonce = some ev.2 := by
  induction bytes generalizing s consumed with
  | nil => simp [OscScanner.scanFrom] at hev
  | cons b bytes ih =>
    simp only [OscScanner.scanFrom, List.mem_append] at hev
    rcases hev with hev | hev
    · obtain ⟨hoffset, hfound⟩ := h.scanByte_mem hev bytes
      exact ⟨by omega, hfound⟩
    · have hnext := ih (h.scanByte consumed.length b) (by simpa using hev)
      rw [List.append_assoc, nonce_scanByte] at hnext
      exact ⟨by have := hnext.1; simp at this; omega, hnext.2⟩

/-- The events come in the order of their offsets. -/
theorem Behind.scanFrom_pairwise (h : Behind s consumed) :
    (s.scanFrom consumed.length bytes).2.Pairwise (fun x y => x.1 < y.1) := by
  induction bytes generalizing s consumed with
  | nil => exact List.Pairwise.nil
  | cons b bytes ih =>
    simp only [OscScanner.scanFrom]
    have hnext := h.scanByte consumed.length b
    have hlen : (consumed ++ [b]).length = consumed.length + 1 := by simp
    refine List.pairwise_append.2 ⟨?_, by simpa using ih hnext, fun x hx y hy => ?_⟩
    · unfold OscScanner.scanByte OscScanner.finishOsc
      repeat' split
      all_goals first | exact List.Pairwise.nil | skip
      all_goals
        cases parseOscMark (fromUtf8Lossy s.buf) s.nonce
        · exact List.Pairwise.nil
        · exact List.pairwise_singleton _ _
    · have hx' := (h.scanByte_mem hx bytes).1
      have hy' := (hnext.scanFrom_mem (by rw [hlen]; exact hy)).1
      omega

end Scanning

/-! ## The command line of a payload -/

theorem nonceMatches_iff {provided session : String} :
    nonceMatches provided session = true ↔ provided = session := by
  have hdiff : ∀ (l : List (UInt8 × UInt8)) (d : UInt8),
      l.foldl (fun diff xy => diff ||| (xy.1 ^^^ xy.2)) d = 0 ↔ d = 0 ∧ ∀ xy ∈ l, xy.1 = xy.2 := by
    intro l
    induction l with
    | nil => simp
    | cons xy l ih =>
      intro d
      rw [List.foldl_cons, ih]
      simp [and_assoc]
  unfold nonceMatches
  dsimp only
  constructor
  · intro h
    split at h
    · cases h
    · next hlen =>
      rw [beq_iff_eq, hdiff] at h
      refine utf8_inj (List.ext_getElem (not_not.1 hlen) fun k hk hk' => ?_)
      exact h.2 (_, _) (List.mem_iff_getElem.2 ⟨k, by simp; omega, by simp⟩)
  · rintro rfl
    rw [if_neg (by simp), beq_iff_eq, hdiff]
    refine ⟨rfl, fun xy hxy => ?_⟩
    obtain ⟨k, hk, rfl⟩ := List.mem_iff_getElem.1 hxy
    simp

theorem splitFirstField_eq {s a b : String} (h : splitFirstField s = (a, b)) (hb : b ≠ "") :
    s.toList = a.toList ++ ';' :: b.toList := by
  unfold splitFirstField at h
  cases hs : splitOnce s ';' with
  | none =>
    simp [hs] at h
    exact absurd h.2 hb
  | some ab =>
    rw [hs, Option.getD_some] at h
    subst h
    rw [(splitOnce_eq_some.1 hs).1]
    simp

theorem rsplitOnce_eq_some {s a b : String} {c : Char} (h : rsplitOnce s c = some (a, b)) :
    s.toList = a.toList ++ c :: b.toList ∧ c ∉ b.toList := by
  unfold rsplitOnce at h
  split at h
  · cases h
  · next d rest hd =>
    simp only [Option.some.injEq, Prod.mk.injEq] at h
    obtain ⟨rfl, rfl⟩ := h
    have hhead : d = c := by
      have hmem := List.head?_dropWhile_not (· ≠ c) s.toList.reverse
      rw [hd] at hmem
      simpa using hmem
    have hall := List.takeWhile_append_dropWhile (p := (· ≠ c)) (l := s.toList.reverse)
    rw [hd, hhead] at hall
    have hrev := congrArg List.reverse hall
    simp only [List.reverse_append, List.reverse_cons, List.reverse_reverse, List.append_assoc,
      List.singleton_append] at hrev
    refine ⟨by simpa using hrev.symm, ?_⟩
    simp only [String.toList_ofList, List.mem_reverse]
    intro hc
    have := List.mem_takeWhile_imp hc
    simp at this

/-- A payload that is a command line carries the session's nonce behind its last separator. -/
theorem parseOscMark_commandLine {payload nonce command : String}
    (h : parseOscMark payload nonce = some (.commandLine command)) :
    nonce ≠ "" ∧ ';' ∉ nonce.toList ∧ ∃ escaped : String,
      payload.toList = "633;E;".toList ++ escaped.toList ++ ';' :: nonce.toList ∧
        command = unescape633 escaped := by
  unfold parseOscMark at h
  generalize hcode : splitFirstField payload = fields at h
  obtain ⟨code, rest⟩ := fields
  dsimp only at h
  split at h
  all_goals try (simp at h; done)
  · split at h <;> simp at h
  · generalize hsub : splitFirstField rest = subfields at h
    obtain ⟨sub, tail⟩ := subfields
    dsimp only at h
    split at h
    all_goals try (simp at h; done)
    cases hlast : rsplitOnce tail ';' with
    | none => simp [hlast] at h
    | some cn =>
      obtain ⟨escapedCmd, provided⟩ := cn
      simp only [hlast, Option.bind_eq_bind, Option.bind_some] at h
      split at h
      · cases h
      · next hnonce =>
        simp only [Bool.or_eq_true, not_or, Bool.not_eq_true, Bool.not_eq_false'] at hnonce
        obtain ⟨hne, hmatch⟩ := hnonce
        obtain rfl := nonceMatches_iff.1 (by simpa using hmatch)
        obtain ⟨htail, hsep⟩ := rsplitOnce_eq_some hlast
        refine ⟨by rintro rfl; simp at hne, hsep, escapedCmd, ?_, ?_⟩
        · have htail' : tail ≠ "" := by
            rintro rfl
            simp at htail
          have hrest := splitFirstField_eq hsub htail'
          have hrest' : rest ≠ "" := by
            rintro rfl
            simp at hrest
          rw [splitFirstField_eq hcode hrest', hrest, htail]
          rfl
        · simpa using h.symm

/-! ## Sessions -/

/-- A mark of the shell: the command as it escaped it, and whether `ESC \` ends it. -/
structure ShellMark where
  escaped : Bytes
  st : Bool
  plain : Plain escaped

def ShellMark.terminator (m : ShellMark) : Bytes := if m.st then [esc, 0x5c] else [bel]

def ShellMark.bytes (nonce : String) (m : ShellMark) : Bytes :=
  (esc :: 0x5d :: utf8 "633;E;") ++ m.escaped ++ 0x3b :: utf8 nonce ++ m.terminator

/-- The command the shell reports. -/
def ShellMark.command (m : ShellMark) : String := unescape633 (fromUtf8Lossy m.escaped)

/-- What a session's stream is made of. -/
inductive Piece where
  | output (bytes : Bytes)
  | mark (m : ShellMark)

def Piece.bytes (nonce : String) : Piece → Bytes
  | output bytes => bytes
  | mark m => m.bytes nonce

def streamOf (nonce : String) (pieces : List Piece) : Bytes := pieces.flatMap (Piece.bytes nonce)

def marksOf (pieces : List Piece) : List ShellMark :=
  pieces.filterMap fun p => match p with
    | .output _ => none
    | .mark m => some m

/-- The nonce stands in the marks and nowhere else. -/
def Secret (nonce : String) (pieces : List Piece) : Prop :=
  ∀ before behind, streamOf nonce pieces = before ++ utf8 nonce ++ behind →
    ∃ front m back, pieces = front ++ .mark m :: back ∧
      (streamOf nonce front).length ≤ before.length ∧
      before.length + (utf8 nonce).length ≤
        (streamOf nonce front).length + (m.bytes nonce).length

section Lists

variable {α : Type} {a a' b b' : List α} {x : α}

/-- The last `x` of a list is at one place. -/
theorem append_cons_inj_last (h : a ++ x :: b = a' ++ x :: b') (hb : x ∉ b) (hb' : x ∉ b') :
    a = a' ∧ b = b' := by
  induction a generalizing a' with
  | nil =>
    cases a' with
    | nil => exact ⟨rfl, (List.cons.inj h).2⟩
    | cons y a' =>
      obtain ⟨rfl, htail⟩ := List.cons.inj h
      exact absurd (htail ▸ by simp) hb
  | cons y a ih =>
    cases a' with
    | nil =>
      obtain ⟨rfl, htail⟩ := List.cons.inj h
      exact absurd (htail ▸ by simp) hb'
    | cons z a' =>
      obtain ⟨rfl, htail⟩ := List.cons.inj h
      obtain ⟨rfl, rfl⟩ := ih htail
      exact ⟨rfl, rfl⟩

/-- A stretch within another, both cut out of one list. -/
theorem exists_within {n m f r : List α} (h : a ++ n ++ b = f ++ m ++ r)
    (hstart : f.length ≤ a.length) (hend : a.length + n.length ≤ f.length + m.length) :
    ∃ m₁ m₂, m = m₁ ++ n ++ m₂ ∧ a = f ++ m₁ ∧ b = m₂ ++ r := by
  obtain ⟨m₁, rfl⟩ : f <+: a := List.prefix_of_prefix_length_le
    ⟨m ++ r, by rw [← List.append_assoc]⟩ ⟨n ++ b, by rw [← List.append_assoc, h]⟩ hstart
  have hrest : m₁ ++ n ++ b = m ++ r := by
    simpa [List.append_assoc] using h
  obtain ⟨m₂, rfl⟩ : m₁ ++ n <+: m := List.prefix_of_prefix_length_le
    ⟨b, rfl⟩ ⟨r, hrest.symm⟩ (by simp only [List.length_append] at hend ⊢; omega)
  exact ⟨m₁, m₂, rfl, rfl, by simpa [List.append_assoc] using hrest⟩

/-- The end of a list is the end of what is not empty at its end. -/
theorem exists_concat_of_append_eq (h : a ++ b = a' ++ [x]) (hb : b ≠ []) :
    ∃ c, b = c ++ [x] ∧ a ++ c = a' := by
  obtain rfl | ⟨c, y, rfl⟩ := List.eq_nil_or_concat b
  · exact absurd rfl hb
  · rw [List.concat_eq_append, ← List.append_assoc] at h
    obtain ⟨hfront, hlast⟩ := List.append_inj' h rfl
    obtain rfl := (List.cons.inj hlast).1
    exact ⟨c, by simp, hfront⟩

end Lists

section Marks

variable {nonce : String} {pieces : List Piece}

theorem streamOf_append (front back : List Piece) :
    streamOf nonce (front ++ back) = streamOf nonce front ++ streamOf nonce back :=
  List.flatMap_append

theorem isTerminator_terminator (m : ShellMark) : IsTerminator m.terminator := by
  unfold ShellMark.terminator
  split
  · exact .inr rfl
  · exact .inl rfl

/-- A mark between the ESC that opens it and its terminator. -/
def ShellMark.inner (nonce : String) (m : ShellMark) : Bytes :=
  0x5d :: utf8 "633;E;" ++ m.escaped ++ 0x3b :: utf8 nonce

theorem ShellMark.bytes_eq (nonce : String) (m : ShellMark) :
    m.bytes nonce = (esc :: m.inner nonce) ++ m.terminator := by
  simp [ShellMark.bytes, ShellMark.inner]

theorem plain_inner (m : ShellMark) (h : Plain (utf8 nonce)) : Plain (m.inner nonce) := by
  have hliteral : Plain (0x5d :: utf8 "633;E;") := by
    constructor <;> decide +kernel
  obtain ⟨hesc, hbel⟩ := hliteral
  unfold ShellMark.inner
  constructor
  · simp only [List.mem_append, List.mem_cons, not_or] at *
    exact ⟨⟨hesc, m.plain.1⟩, by decide, h.1⟩
  · simp only [List.mem_append, List.mem_cons, not_or] at *
    exact ⟨⟨hbel, m.plain.2⟩, by decide, h.2⟩

/-- What stands in a mark, behind a separator and right before a terminator, is the nonce that
ends the mark. -/
theorem mark_split {m : ShellMark} {m₁ m₂ before term rest : Bytes}
    (hplain : Plain (utf8 nonce)) (hne : utf8 nonce ≠ [])
    (hm : m.bytes nonce = m₁ ++ utf8 nonce ++ m₂) (hbefore : ∃ r, before ++ m₁ = r ++ [0x3b])
    (hterm : IsTerminator term) (hbehind : ∃ r, term ++ rest = m₂ ++ r) :
    m₂ = m.terminator ∧ m₁ ++ utf8 nonce = esc :: m.inner nonce := by
  rw [ShellMark.bytes_eq] at hm
  obtain ⟨hesc, hbel⟩ := plain_inner m hplain
  obtain ⟨c, hinner, hm₂⟩ | ⟨c, hinner, hm₂⟩ := List.append_eq_append_iff.1 hm
  · -- the stretch goes on into the terminator, which holds an ESC or a BEL
    obtain ⟨r, hr⟩ := hbefore
    have hcases : m.terminator = [bel] ∨ m.terminator = [esc, 0x5c] := isTerminator_terminator m
    obtain rfl | ⟨c', x, rfl⟩ := List.eq_nil_or_concat c
    · exact ⟨by simpa using hm₂.symm, by simpa using hinner⟩
    · exfalso
      rw [List.concat_eq_append] at hinner hm₂
      rw [← List.append_assoc] at hinner
      obtain ⟨n, hn, hfront⟩ := exists_concat_of_append_eq hinner hne
      have hx : x ∈ utf8 nonce := by simp [hn]
      rcases hcases with ht | ht
      · rw [ht] at hm₂
        have : x ∈ [bel] := by rw [hm₂]; simp
        exact hplain.2 (List.mem_singleton.1 this ▸ hx)
      · rw [ht] at hm₂
        have hxmem : x ∈ [esc, 0x5c] := by rw [hm₂]; simp
        have hxne : x ≠ esc := fun he => hplain.1 (he ▸ hx)
        have hx5c : x = 0x5c := by simpa [hxne] using hxmem
        subst hx5c
        -- the nonce would be the backslash alone, behind an ESC and not behind a separator
        have hc' : c' = [esc] := by
          cases c' with
          | nil => simp [esc] at hm₂
          | cons y c' =>
            simp only [List.cons_append, List.cons.injEq] at hm₂
            cases c' with
            | nil => rw [hm₂.1]
            | cons z c' => simp at hm₂
        subst hc'
        obtain rfl | ⟨n', z, rfl⟩ := List.eq_nil_or_concat n
        · rw [List.append_nil] at hfront
          rw [hfront, ← List.append_assoc] at hr
          have := (List.append_inj' hr rfl).2
          simp [esc] at this
        · rw [List.concat_eq_append, ← List.append_assoc] at hfront
          have hz := (List.append_inj' hfront rfl).2
          have hz' : z = esc := (List.cons.inj hz).1
          exact hplain.1 (by rw [hn, List.concat_eq_append, hz']; simp)
  · cases c with
    | nil => exact ⟨by simpa using hm₂, by simpa using hinner.symm⟩
    | cons t c =>
      exfalso
      obtain ⟨r, hr⟩ := hbehind
      rw [hm₂] at hr
      have ht : t = bel ∨ t = esc := by
        rcases hterm with rfl | rfl
        · exact .inl (List.cons.inj hr).1.symm
        · exact .inr (List.cons.inj hr).1.symm
      have htmem : t ∈ m.inner nonce := by
        cases hfront : m₁ ++ utf8 nonce with
        | nil => exact absurd (List.append_eq_nil_iff.1 hfront).2 hne
        | cons y front =>
          rw [hfront, List.cons_append] at hinner
          rw [(List.cons.inj hinner).2]
          simp
      rcases ht with rfl | rfl
      · exact hbel htmem
      · exact hesc htmem

/-- Two lists that begin with a terminator each begin with the same. -/
theorem terminator_append_inj {t t' r r' : Bytes} (ht : IsTerminator t) (ht' : IsTerminator t')
    (h : t ++ r = t' ++ r') : t = t' := by
  rcases ht with rfl | rfl <;> rcases ht' with rfl | rfl
  · rfl
  · simp [esc, bel] at h
  · simp [esc, bel] at h
  · rfl

theorem separator_not_mem_lossy (h : ';' ∉ nonce.toList) : ';' ∉ lossy (utf8 nonce) := by
  intro hmem
  have hbyte : UInt8.ofNat 59 ∈ utf8 nonce := mem_of_mem_lossy (n := 59) (by decide) hmem
  rw [utf8_eq_flatMap, List.mem_flatMap] at hbyte
  obtain ⟨c, hc, hin⟩ := hbyte
  have hne : c ≠ Char.ofNat 59 := by
    rintro rfl
    exact h hc
  exact ne_of_mem_utf8EncodeChar (by decide) hne hin rfl

/-- The command line of a mark's payload is the mark's. -/
theorem escaped_of_payload {m : ShellMark} {escaped : String} (hsep : ';' ∉ nonce.toList)
    (h : lossy (utf8 "633;E;" ++ m.escaped ++ 0x3b :: utf8 nonce) =
      "633;E;".toList ++ escaped.toList ++ ';' :: nonce.toList) :
    escaped = fromUtf8Lossy m.escaped := by
  have hliteral : ∀ x ∈ utf8 "633;E;", x.toNat < 128 := by decide +kernel
  have hmap : (utf8 "633;E;").map (fun x => Char.ofNat x.toNat) = "633;E;".toList := by
    decide +kernel
  rw [List.append_assoc, lossy_ascii_append hliteral, hmap, lossy_append_ascii (by decide),
    List.append_assoc] at h
  have hlast := append_cons_inj_last (List.append_cancel_left h) (separator_not_mem_lossy hsep) hsep
  refine String.toList_injective ?_
  rw [toList_fromUtf8Lossy]
  exact hlast.1.symm

/-- **A command line comes from a mark**: an OSC that is read as a command line is one of the
shell's marks, whole. -/
theorem exists_mark_of_commandLine {offset : Nat} {payload : Bytes} {command : String}
    (hsecret : Secret nonce pieces) (hrepl : replacementChar ∉ nonce.toList)
    (hosc : OscAt (streamOf nonce pieces) offset payload)
    (hparse : parseOscMark (fromUtf8Lossy payload) nonce = some (.commandLine command)) :
    ∃ front m back, pieces = front ++ .mark m :: back ∧
      offset = (streamOf nonce front).length + (m.bytes nonce).length ∧ command = m.command := by
  obtain ⟨hplain, pre, term, rest, hstream, hterm, rfl⟩ := hosc
  obtain ⟨hne, hsep, escaped, htext, rfl⟩ := parseOscMark_commandLine hparse
  rw [toList_fromUtf8Lossy] at htext
  -- the payload ends in the bytes of the nonce, behind a separator
  obtain ⟨r, hr⟩ := eq_append_utf8_of_lossy htext (by
    rw [List.mem_cons, not_or]
    exact ⟨by decide, hrepl⟩)
  have hbytes : payload = r ++ 0x3b :: utf8 nonce := by
    rw [hr, List.flatMap_cons, ← utf8_eq_flatMap]
    rfl
  have hnonce : utf8 nonce ≠ [] := fun h => hne (utf8_inj (by rw [h]; rfl))
  have hnplain : Plain (utf8 nonce) := by
    rw [hbytes] at hplain
    simp only [Plain, List.mem_append, List.mem_cons, not_or] at hplain ⊢
    exact ⟨hplain.1.2.2, hplain.2.2.2⟩
  have hoccurs : streamOf nonce pieces =
      pre ++ (esc :: 0x5d :: r ++ [0x3b]) ++ utf8 nonce ++ (term ++ rest) := by
    rw [hstream, hbytes]
    simp
  obtain ⟨front, m, back, rfl, hstart, hend⟩ := hsecret _ _ hoccurs
  have hcut : streamOf nonce (front ++ .mark m :: back) =
      streamOf nonce front ++ m.bytes nonce ++ streamOf nonce back := by
    rw [streamOf_append, List.append_assoc]
    rfl
  obtain ⟨m₁, m₂, hm, hfront, hback⟩ := exists_within (hoccurs.symm.trans hcut) hstart hend
  obtain ⟨hm₂, hinner⟩ := mark_split hnplain hnonce hm
    ⟨pre ++ (esc :: 0x5d :: r), by rw [← hfront]; simp⟩ hterm ⟨_, hback⟩
  rw [hm₂] at hback
  have hsame : term = m.terminator :=
    terminator_append_inj hterm (isTerminator_terminator m) hback
  -- the last ESC before the terminator opens the mark, and the payload
  have hopen : pre ++ esc :: (0x5d :: payload) =
      streamOf nonce front ++ esc :: m.inner nonce := by
    rw [← hinner, ← List.append_assoc, ← hfront, hbytes]
    simp
  have hplain' : esc ∉ (0x5d : UInt8) :: payload := by
    rw [List.mem_cons, not_or]
    exact ⟨by decide, hplain.1⟩
  obtain ⟨hpre, hpayload⟩ := append_cons_inj_last hopen hplain' (plain_inner m hnplain).1
  refine ⟨front, m, back, rfl, ?_, ?_⟩
  · rw [ShellMark.bytes_eq, ← hpayload, hpre, hsame]
    simp [Nat.add_assoc]
  · have hinner' : payload = utf8 "633;E;" ++ m.escaped ++ 0x3b :: utf8 nonce := by
      have := (List.cons.inj hpayload).2
      exact this
    rw [hinner'] at htext
    rw [escaped_of_payload hsep htext]
    rfl

/-- The marks with the offsets at which they end. -/
def endsFrom (nonce : String) (offset : Nat) : List Piece → List (Nat × ShellMark)
  | [] => []
  | .output bytes :: pieces => endsFrom nonce (offset + bytes.length) pieces
  | .mark m :: pieces =>
    (offset + (m.bytes nonce).length, m) ::
      endsFrom nonce (offset + (m.bytes nonce).length) pieces

theorem map_snd_endsFrom (offset : Nat) (pieces : List Piece) :
    (endsFrom nonce offset pieces).map (·.2) = marksOf pieces := by
  induction pieces generalizing offset with
  | nil => rfl
  | cons p pieces ih =>
    cases p with
    | output bytes => exact ih _
    | mark m => exact congrArg (m :: ·) (ih _)

theorem le_of_mem_endsFrom {offset : Nat} {e : Nat × ShellMark}
    (h : e ∈ endsFrom nonce offset pieces) : offset < e.1 := by
  induction pieces generalizing offset with
  | nil => cases h
  | cons p pieces ih =>
    cases p with
    | output bytes =>
      have := ih h
      omega
    | mark m =>
      have hpos : 0 < (m.bytes nonce).length := by simp [ShellMark.bytes]
      rcases List.mem_cons.1 h with rfl | h
      · exact Nat.lt_add_of_pos_right hpos
      · have := ih h
        omega

theorem pairwise_endsFrom (offset : Nat) (pieces : List Piece) :
    (endsFrom nonce offset pieces).Pairwise (fun x y => x.1 < y.1) := by
  induction pieces generalizing offset with
  | nil => exact List.Pairwise.nil
  | cons p pieces ih =>
    cases p with
    | output bytes => exact ih _
    | mark m => exact List.pairwise_cons.2 ⟨fun e he => le_of_mem_endsFrom he, ih _⟩

theorem mem_endsFrom (offset : Nat) (front back : List Piece) (m : ShellMark) :
    (offset + (streamOf nonce front).length + (m.bytes nonce).length, m) ∈
      endsFrom nonce offset (front ++ .mark m :: back) := by
  induction front generalizing offset with
  | nil => exact List.mem_cons_self
  | cons p front ih =>
    have hlen : (streamOf nonce (p :: front)).length =
        (p.bytes nonce).length + (streamOf nonce front).length := by
      simp [streamOf]
    have hmem := ih (offset + (p.bytes nonce).length)
    rw [show offset + (p.bytes nonce).length + (streamOf nonce front).length =
      offset + (streamOf nonce (p :: front)).length by omega] at hmem
    cases p with
    | output bytes => exact hmem
    | mark m' => exact List.mem_cons_of_mem _ hmem

end Marks

/-- What comes in order and is found among what comes in order is found in order. -/
theorem sublist_of_subset_of_pairwise {α : Type} {l l' : List (Nat × α)}
    (hl : l.Pairwise (fun x y => x.1 < y.1)) (hl' : l'.Pairwise (fun x y => x.1 < y.1))
    (h : l ⊆ l') : l.Sublist l' := by
  have hirrefl : Std.Irrefl fun x y : Nat × α => x.1 < y.1 := ⟨fun x => Nat.lt_irrefl x.1⟩
  have hantisymm : Std.Antisymm fun x y : Nat × α => x.1 < y.1 :=
    ⟨fun x y hxy hyx => absurd hxy (Nat.lt_asymm hyx)⟩
  exact List.sublist_of_subperm_of_pairwise (List.subperm_of_subset hl.nodup h) hl hl'

/-- The command lines with the offsets of their marks. -/
def commandsAt (events : List (Nat × VtEvent)) : List (Nat × String) :=
  events.filterMap fun e => e.2.command.map (e.1, ·)

theorem map_snd_commandsAt (events : List (Nat × VtEvent)) :
    (commandsAt events).map (·.2) = commandsOf (events.map (·.2)) := by
  unfold commandsAt commandsOf
  rw [List.map_filterMap, List.filterMap_map]
  refine List.filterMap_congr fun e _ => ?_
  rw [Function.comp_apply]
  cases e.2.command <;> rfl

theorem pairwise_commandsAt {events : List (Nat × VtEvent)}
    (h : events.Pairwise (fun x y => x.1 < y.1)) :
    (commandsAt events).Pairwise (fun x y => x.1 < y.1) := by
  refine List.Pairwise.filterMap _ ?_ h
  intro x y hxy x' hx' y' hy'
  obtain ⟨c, -, rfl⟩ := Option.map_eq_some_iff.1 hx'
  obtain ⟨d, -, rfl⟩ := Option.map_eq_some_iff.1 hy'
  exact hxy

/-- The events' command lines are those of some of the shell's marks, in their order, and the
blocks show them under ids of their own. -/
def Genuine (pieces : List Piece) (events : List VtEvent) (blocks : List Block) : Prop :=
  ∃ genuine : List ShellMark, genuine.Sublist (marksOf pieces) ∧
    commandsOf events = genuine.map ShellMark.command ∧
    blocks.map (·.command) = genuine.map ShellMark.command ∧ (blocks.map (·.id)).Nodup

/-- The command lines of a session are marks of the shell, in order. -/
theorem exists_genuine {nonce : String} {pieces : List Piece}
    (hsecret : Secret nonce pieces) (hrepl : replacementChar ∉ nonce.toList) :
    ∃ genuine : List ShellMark, genuine.Sublist (marksOf pieces) ∧
      commandsOf ((OscScanner.new nonce).feed (streamOf nonce pieces)).2 =
        genuine.map ShellMark.command := by
  have hbehind : Behind (OscScanner.new nonce) [] := trivial
  let events := ((OscScanner.new nonce).scanFrom 0 (streamOf nonce pieces)).2
  let ends := (endsFrom nonce 0 pieces).map fun e => (e.1, e.2.command)
  have hsubset : commandsAt events ⊆ ends := by
    intro e he
    obtain ⟨ev, hev, hcommand⟩ := List.mem_filterMap.1 he
    obtain ⟨command, hc, rfl⟩ := Option.map_eq_some_iff.1 hcommand
    obtain ⟨-, payload, hosc, hparse⟩ := hbehind.scanFrom_mem hev
    have hline : ev.2 = .commandLine command := by
      cases hk : ev.2 <;> simp_all [VtEvent.command]
    rw [hline] at hparse
    obtain ⟨front, m, back, rfl, hoffset, rfl⟩ :=
      exists_mark_of_commandLine hsecret hrepl hosc hparse
    refine List.mem_map.2 ⟨_, mem_endsFrom 0 front back m, ?_⟩
    rw [Nat.zero_add, ← hoffset]
  have hends : ends.Pairwise (fun x y => x.1 < y.1) :=
    (pairwise_endsFrom 0 pieces).map _ fun _ _ h => h
  have hevents : (commandsAt events).Pairwise (fun x y => x.1 < y.1) :=
    pairwise_commandsAt (hbehind.scanFrom_pairwise)
  have hsub := (sublist_of_subset_of_pairwise hevents hends hsubset).map (·.2)
  have hmarks : ends.map (·.2) = (marksOf pieces).map ShellMark.command := by
    have hsnd : (endsFrom nonce 0 pieces).map (·.2) = marksOf pieces := map_snd_endsFrom 0 pieces
    rw [← hsnd, List.map_map, List.map_map]
    rfl
  rw [map_snd_commandsAt, hmarks] at hsub
  obtain ⟨genuine, hgenuine, heq⟩ := List.sublist_map_iff.1 hsub
  exact ⟨genuine, hgenuine, heq⟩

/-- **No forged command**: as long as the nonce stands in the shell's marks only, and does not
hold the replacement character, every command line of the session is a mark of the shell,
however the stream is cut and drained. -/
theorem commands_genuine (nonce : String) (hrepl : replacementChar ∉ nonce.toList)
    (pieces : List Piece) (hsecret : Secret nonce pieces) (chunks : List Bytes)
    (hchunks : chunks.flatten = streamOf nonce pieces) (cwd : String)
    (batches : List (List VtEvent × Nat))
    (hbatches : (batches.map (·.1)).flatten = ((OscScanner.new nonce).feedAll chunks).2) :
    Genuine pieces ((OscScanner.new nonce).feedAll chunks).2
      ((BlockAssembler.new cwd).consumeAll batches).blocks := by
  obtain ⟨genuine, hsub, hcommands⟩ := exists_genuine hsecret hrepl
  rw [OscScanner.feedAll_eq_feed, hchunks] at hbatches ⊢
  have hblocks := (assembled_new cwd).consumeAll batches
  rw [List.nil_append, hbatches, hcommands] at hblocks
  exact ⟨genuine, hsub, hcommands, hblocks.shown, hblocks.nodup⟩

/-! ### A forged command, and one that is not -/

/-- A program's output that looks like a mark, with a byte that is no text for a nonce. -/
def forgedOutput : Bytes := esc :: 0x5d :: utf8 "633;E;rm;" ++ [0xff, bel]

/-- Against a nonce that is the replacement character, output that never held it is read as a
command of the shell. -/
theorem broken_byte_forges_command :
    Secret "\uFFFD" [.output forgedOutput] ∧
      ¬ Genuine [.output forgedOutput]
        ((OscScanner.new "\uFFFD").feedAll [forgedOutput]).2
        ((BlockAssembler.new "/").consumeAll
          [(((OscScanner.new "\uFFFD").feedAll [forgedOutput]).2, 0)]).blocks := by
  constructor
  · intro before behind h
    have hmem : (0xef : UInt8) ∈ streamOf "\uFFFD" [.output forgedOutput] := by
      rw [h]
      refine List.mem_append_left _ (List.mem_append_right _ ?_)
      decide +kernel
    exact absurd hmem (by decide +kernel)
  · rintro ⟨genuine, hsub, hcommands, -⟩
    obtain rfl : genuine = [] := List.sublist_nil.1 hsub
    have hforged : commandsOf ((OscScanner.new "\uFFFD").feedAll [forgedOutput]).2 = ["rm"] := by
      decide +kernel
    rw [hforged] at hcommands
    cases hcommands

/-- A program's guess at the nonce. -/
def guess : Bytes := esc :: 0x5d :: utf8 "633;E;rm;3fz9" ++ [bel]

def listingMark : ShellMark := ⟨utf8 "ls", false, by constructor <;> decide +kernel⟩

/-- A session in which the shell reports `ls` behind the guess. -/
def listingSession : List Piece := [.output guess, .mark listingMark]

theorem secret_listingSession : Secret "3fa9" listingSession := by
  intro before behind h
  have hat : ((streamOf "3fa9" listingSession).drop before.length).take 4 = utf8 "3fa9" := by
    rw [h, List.append_assoc, List.drop_left]
    rfl
  have hlt : before.length < (streamOf "3fa9" listingSession).length := by
    rw [h]
    have hlen : (utf8 "3fa9").length = 4 := by decide +kernel
    simp only [List.length_append, hlen]
    omega
  have honce : ∀ k ∈ List.range (streamOf "3fa9" listingSession).length,
      ((streamOf "3fa9" listingSession).drop k).take 4 = utf8 "3fa9" →
        (streamOf "3fa9" [.output guess]).length ≤ k ∧
          k + (utf8 "3fa9").length ≤
            (streamOf "3fa9" [.output guess]).length + (listingMark.bytes "3fa9").length := by
    decide +kernel
  exact ⟨[.output guess], listingMark, [], rfl, honce _ (List.mem_range.2 hlt) hat⟩

/-- The session shows the shell's command alone. -/
theorem listing_shows_ls :
    commandsOf ((OscScanner.new "3fa9").feedAll [streamOf "3fa9" listingSession]).2 = ["ls"] ∧
      Genuine listingSession ((OscScanner.new "3fa9").feedAll [streamOf "3fa9" listingSession]).2
        ((BlockAssembler.new "/").consumeAll
          [(((OscScanner.new "3fa9").feedAll [streamOf "3fa9" listingSession]).2, 0)]).blocks := by
  refine ⟨by decide +kernel, commands_genuine "3fa9" (by decide +kernel) listingSession
    secret_listingSession [streamOf "3fa9" listingSession] (List.append_nil _) "/" _
    (List.append_nil _)⟩

end Arlen.Terminal
