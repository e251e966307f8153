import Arlen.Terminal.Forgery

/-!
# Chunks

The scanner of `apps/terminal/core/src/vt.rs`, fed as the pty is read: in chunks cut at any
byte, each mark reported by its offset in its own chunk. What is carried from one chunk to the
next is all the scanner knows.
-/

namespace Arlen.Terminal

open Arlen.Lib

namespace OscScanner

/-- Feed the chunks of a stream that begins at `start`; an offset counts from the start of its
own chunk and is moved to the stream's. -/
def feedChunks (s : OscScanner) (start : Nat) :
    List Bytes → OscScanner × List (Nat × VtEvent)
  | [] => (s, [])
  | chunk :: chunks =>
    let (s', events) := s.feedPositioned chunk
    let (s'', more) := s'.feedChunks (start + chunk.length) chunks
    (s'', events.map (fun e => (start + e.1, e.2)) ++ more)

variable {s : OscScanner} {i j : Nat} {b : UInt8} {bytes : Bytes}

/-! ## Where a chunk begins -/

/-- An event of one byte is reported behind that byte. -/
theorem scanByte_shift (s : OscScanner) (i j : Nat) (b : UInt8) :
    s.scanByte (i + j) b =
      ((s.scanByte j b).1, (s.scanByte j b).2.map fun e => (i + e.1, e.2)) := by
  unfold scanByte finishOsc
  repeat' split
  all_goals
    first
    | rfl
    | (cases parseOscMark (fromUtf8Lossy s.buf) s.nonce <;> rfl)

theorem scanFrom_add (s : OscScanner) (i j : Nat) (bytes : Bytes) :
    s.scanFrom (i + j) bytes =
      ((s.scanFrom j bytes).1, (s.scanFrom j bytes).2.map fun e => (i + e.1, e.2)) := by
  induction bytes generalizing s j with
  | nil => rfl
  | cons b bytes ih =>
    simp only [scanFrom]
    rw [scanByte_shift, Nat.add_assoc, ih]
    simp only [List.map_append]

/-- In chunks or at once, the state and the placed events are the same. -/
theorem feedChunks_eq (s : OscScanner) (start : Nat) (chunks : List Bytes) :
    s.feedChunks start chunks = s.scanFrom start chunks.flatten := by
  induction chunks generalizing s start with
  | nil => rfl
  | cons chunk chunks ih =>
    simp only [feedChunks, List.flatten_cons, feedPositioned]
    rw [ih, scanFrom_append]
    have hshift := scanFrom_add s start 0 chunk
    rw [Nat.add_zero] at hshift
    rw [hshift]

/-! ## What is kept -/

/-- The buffer stays within its bound. -/
def Bounded (s : OscScanner) : Prop := s.buf.length ≤ maxOscPayload

theorem bounded_resetBuf (s : OscScanner) : s.resetBuf.Bounded := Nat.zero_le _

theorem bounded_dispatchAfterEsc (h : s.Bounded) (b : UInt8) : (s.dispatchAfterEsc b).Bounded := by
  unfold dispatchAfterEsc
  split
  · exact bounded_resetBuf s
  · split <;> exact h

theorem bounded_pushOsc (h : s.Bounded) (b : UInt8) : (s.pushOsc b).Bounded := by
  unfold pushOsc
  split
  · next hlt =>
    unfold Bounded
    rw [List.length_append, List.length_singleton]
    exact hlt
  · exact h

theorem Bounded.scanByte (h : s.Bounded) (i : Nat) (b : UInt8) : (s.scanByte i b).1.Bounded := by
  unfold OscScanner.scanByte
  cases s.state with
  | ground =>
    dsimp only
    split <;> exact h
  | escape => exact bounded_dispatchAfterEsc h b
  | osc =>
    dsimp only
    split
    · exact bounded_resetBuf s
    · split
      · exact h
      · exact bounded_pushOsc h b
  | oscEsc =>
    dsimp only
    split
    · exact bounded_resetBuf s
    · exact bounded_dispatchAfterEsc (bounded_resetBuf s) b
  | stringSeq =>
    dsimp only
    split <;> exact h
  | stringEsc => exact h

theorem Bounded.scanFrom (h : s.Bounded) (i : Nat) (bytes : Bytes) :
    (s.scanFrom i bytes).1.Bounded := by
  induction bytes generalizing s i with
  | nil => exact h
  | cons b bytes ih => exact ih (h.scanByte i b) (i + 1)

/-- From any state, ESC and a backslash lead back to the ground. -/
theorem ground_of_st (s : OscScanner) (i : Nat) : (s.scanFrom i [esc, 0x5c]).1.state = .ground := by
  simp only [OscScanner.scanFrom]
  have hesc : esc ≠ 0x5d ∧ ¬ (esc = 0x50 ∨ esc = 0x58 ∨ esc = 0x5e ∨ esc = 0x5f) ∧
      esc ≠ 0x5c ∧ esc ≠ bel := by decide
  have hst : (0x5c : UInt8) ≠ 0x5d ∧
      ¬ ((0x5c : UInt8) = 0x50 ∨ (0x5c : UInt8) = 0x58 ∨ (0x5c : UInt8) = 0x5e ∨
        (0x5c : UInt8) = 0x5f) ∧ (0x5c : UInt8) ≠ esc := by decide
  cases hs : s.state with
  | ground => simp [scanByte, dispatchAfterEsc, hs, hst]
  | escape => simp [scanByte, dispatchAfterEsc, hs, hesc, hst]
  | osc => simp [scanByte, finishOsc, hs, hesc]
  | oscEsc => simp [scanByte, dispatchAfterEsc, hs, hesc, hst]
  | stringSeq => simp [scanByte, hs]
  | stringEsc => simp [scanByte, hs, hesc]

end OscScanner

open OscScanner

/-- **Chunking does not matter.** However a stream is cut, the placed marks and the state are
those of the whole stream; at no byte of it is more buffered than allowed; each mark is
reported just behind the terminator of an OSC that reads as it; and wherever the stream stops,
ESC and a backslash bring the scanner back to the ground. -/
theorem chunking_does_not_matter (nonce : String) (chunks : List Bytes) :
    (new nonce).feedChunks 0 chunks = (new nonce).feedPositioned chunks.flatten ∧
      (∀ read, read <+: chunks.flatten →
        ((new nonce).feedPositioned read).1.buf.length ≤ maxOscPayload) ∧
      (∀ ev ∈ ((new nonce).feedChunks 0 chunks).2, ∃ payload,
        OscAt chunks.flatten ev.1 payload ∧
          parseOscMark (fromUtf8Lossy payload) nonce = some ev.2) ∧
      (((new nonce).feedChunks 0 chunks).1.feedPositioned [esc, 0x5c]).1.state = .ground := by
  have heq : (new nonce).feedChunks 0 chunks = (new nonce).feedPositioned chunks.flatten :=
    feedChunks_eq (new nonce) 0 chunks
  refine ⟨heq, fun read _ => ?_, fun ev hev => ?_, ground_of_st _ 0⟩
  · have hnew : (new nonce).Bounded := Nat.zero_le _
    exact hnew.scanFrom 0 read
  · have hbehind : Behind (new nonce) [] := trivial
    rw [heq] at hev
    exact (hbehind.scanFrom_mem hev).2

end Arlen.Terminal
