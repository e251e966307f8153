import Arlen.Lib.Decimal
import Arlen.Lib.Pieces
import Arlen.Lib.Search
import Arlen.Lib.Text

/-!
# The frames of a language server

A frame is a header block, a blank line and exactly the declared number of bytes.
`decode` takes one frame off the front of a buffer and looks for the blank line
in the whole buffer, `CR LF CR LF` before `LF LF`. A reader appends what arrives
to its buffer and takes frames until none is whole. It takes the frames that were
written, however the stream is cut, exactly when no frame with a bare blank line
has a `CR LF CR LF` behind its header.
-/

namespace Arlen.TextEditor

open Arlen.Lib

/-- What `BadHeader` says. -/
inductive HeaderFault
  | notText
  | noContentLength
  | notANumber (len : List Char)

inductive FrameError
  | badHeader (why : HeaderFault)
  | tooLarge (n : Nat)

def maxFrame : Nat := 16 * 1024 * 1024

/-- The blank lines `decode` accepts. -/
inductive BlankLine
  | crlf
  | lf

def BlankLine.bytes : BlankLine → Bytes
  | .crlf => [13, 10, 13, 10]
  | .lf => [10, 10]

/-- The end of the header block, and the blank line behind it. -/
def headerEnd (buf : Bytes) : Option (Nat × BlankLine) :=
  match Search.find BlankLine.crlf.bytes buf with
  | some i => some (i, .crlf)
  | none =>
    match Search.find BlankLine.lf.bytes buf with
    | some i => some (i, .lf)
    | none => none

/-- The value of the first `Content-Length` line. -/
def contentLength (head : String) : Option (List Char) :=
  (lines head).findSome? fun l =>
    match Text.splitOnce ':' l.toList with
    | none => none
    | some (name, value) =>
      if Text.eqIgnoreAsciiCase (Text.trim name) "content-length".toList then
        some (Text.trim value)
      else none

def readLength (head : Bytes) : Except FrameError Nat :=
  match decodeUtf8 head with
  | none => .error (.badHeader .notText)
  | some text =>
    match contentLength text with
    | none => .error (.badHeader .noContentLength)
    | some value =>
      match parseUnsigned (2 ^ 64) value with
      | none => .error (.badHeader (.notANumber value))
      | some len => if maxFrame < len then .error (.tooLarge len) else .ok len

/-- One frame off the front of the buffer: its payload and how many bytes it took. -/
def decode (buf : Bytes) : Except FrameError (Option (Bytes × Nat)) :=
  match headerEnd buf with
  | none => .ok none
  | some (i, blank) =>
    match readLength (buf.take i) with
    | .error e => .error e
    | .ok len =>
      let start := i + blank.bytes.length
      if buf.length < start + len then .ok none
      else .ok (some ((buf.drop start).take len, start + len))

def encode (payload : Bytes) : Bytes :=
  utf8 ("Content-Length: " ++ toString payload.length ++ "\r\n\r\n") ++ payload

variable {buf more payload : Bytes} {used : Nat}

/-! ### One frame -/

theorem headerEnd_of_crlf {i : Nat} (h : Search.find BlankLine.crlf.bytes buf = some i) :
    headerEnd buf = some (i, .crlf) := by
  rw [headerEnd, h]

theorem headerEnd_of_lf {i : Nat} (hcrlf : Search.find BlankLine.crlf.bytes buf = none)
    (h : Search.find BlankLine.lf.bytes buf = some i) : headerEnd buf = some (i, .lf) := by
  rw [headerEnd, hcrlf, h]

theorem find_of_headerEnd {i : Nat} {blank : BlankLine} (h : headerEnd buf = some (i, blank)) :
    Search.find blank.bytes buf = some i := by
  unfold headerEnd at h
  cases hcrlf : Search.find BlankLine.crlf.bytes buf with
  | some j =>
    rw [hcrlf] at h
    cases h
    exact hcrlf
  | none =>
    rw [hcrlf] at h
    dsimp only at h
    cases hlf : Search.find BlankLine.lf.bytes buf with
    | some j =>
      rw [hlf] at h
      cases h
      exact hlf
    | none =>
      rw [hlf] at h
      cases h

/-- What a successful decode has found. -/
theorem decode_eq_some (h : decode buf = .ok (some (payload, used))) :
    ∃ i blank, headerEnd buf = some (i, blank) ∧ readLength (buf.take i) = .ok payload.length ∧
      used = i + blank.bytes.length + payload.length ∧ used ≤ buf.length ∧
      payload = (buf.drop (i + blank.bytes.length)).take payload.length := by
  unfold decode at h
  cases hend : headerEnd buf with
  | none =>
    rw [hend] at h
    cases h
  | some found =>
    obtain ⟨i, blank⟩ := found
    rw [hend] at h
    dsimp only at h
    cases hlen : readLength (buf.take i) with
    | error e =>
      rw [hlen] at h
      cases h
    | ok len =>
      rw [hlen] at h
      dsimp only at h
      split_ifs at h with hshort
      · cases h
      obtain ⟨rfl, rfl⟩ := Prod.mk.inj (Option.some.inj (Except.ok.inj h))
      have hpayload : ((buf.drop (i + blank.bytes.length)).take len).length = len := by
        rw [List.length_take, List.length_drop]
        omega
      rw [hpayload]
      exact ⟨i, blank, rfl, hlen, rfl, Nat.le_of_not_lt hshort, rfl⟩

/-- A buffer with a whole frame in it is decoded. -/
theorem decode_of_headerEnd {i : Nat} {blank : BlankLine} {len : Nat}
    (hend : headerEnd buf = some (i, blank)) (hlen : readLength (buf.take i) = .ok len) :
    decode buf =
      if buf.length < i + blank.bytes.length + len then .ok none
      else .ok (some ((buf.drop (i + blank.bytes.length)).take len,
        i + blank.bytes.length + len)) := by
  rw [decode, hend]
  dsimp only
  rw [hlen]

theorem decode_append_of_headerEnd (h : decode buf = .ok (some (payload, used)))
    (hend : headerEnd (buf ++ more) = headerEnd buf) :
    decode (buf ++ more) = .ok (some (payload, used)) := by
  obtain ⟨i, blank, hfound, hlen, rfl, hle, hpayload⟩ := decode_eq_some h
  have hin := Search.length_of_find (find_of_headerEnd hfound)
  have hwhole : ¬ (buf ++ more).length < i + blank.bytes.length + payload.length := by
    rw [List.length_append]
    omega
  have hhead : readLength ((buf ++ more).take i) = .ok payload.length := by
    rw [List.take_append_of_le_length (by omega), hlen]
  rw [decode_of_headerEnd (hend.trans hfound) hhead, if_neg hwhole,
    List.drop_append_of_le_length hin, List.take_append_of_le_length (by
      rw [List.length_drop]
      omega), ← hpayload]

/-- A decoded buffer reads the same with more bytes behind it exactly when these bring no
first `CR LF CR LF` with them. -/
theorem decode_append_iff_blank (h : decode buf = .ok (some (payload, used))) :
    decode (buf ++ more) = .ok (some (payload, used)) ↔
      (BlankLine.crlf.bytes <:+: buf ++ more → BlankLine.crlf.bytes <:+: buf) := by
  have hne : BlankLine.crlf.bytes ≠ [] := by decide
  constructor
  · intro hmore hin
    by_contra hout
    obtain ⟨i, hi⟩ := Option.ne_none_iff_exists'.mp
      (mt (Search.find_eq_none_iff hne).mp (not_not.mpr hin))
    obtain ⟨j, blank, hfound, -, hused, -, -⟩ := decode_eq_some hmore
    cases (headerEnd_of_crlf hi).symm.trans hfound
    obtain ⟨-, -, -, -, -, hle, -⟩ := decode_eq_some h
    have hlate : buf.length < i + BlankLine.crlf.bytes.length := by
      by_contra hearly
      have hbuf := Search.find_of_find_append hi (Nat.le_of_not_lt hearly) hne
      rw [(Search.find_eq_none_iff hne).mpr hout] at hbuf
      cases hbuf
    omega
  · intro himp
    refine decode_append_of_headerEnd h ?_
    cases hcrlf : Search.find BlankLine.crlf.bytes buf with
    | some i =>
      rw [headerEnd_of_crlf hcrlf, headerEnd_of_crlf (Search.find_append hcrlf more)]
    | none =>
      have hout := (Search.find_eq_none_iff hne).mp hcrlf
      have hmore := (Search.find_eq_none_iff hne).mpr (mt himp hout)
      obtain ⟨i, blank, hfound, -⟩ := decode_eq_some h
      have hfind := find_of_headerEnd hfound
      cases blank with
      | crlf =>
        rw [hcrlf] at hfind
        cases hfind
      | lf => rw [hfound, headerEnd_of_lf hmore (Search.find_append hfind more)]

/-! ### Frames -/

/-- A payload behind a header block that declares its length, and either blank line. -/
structure Frame where
  head : Bytes
  blank : BlankLine
  payload : Bytes
  declared : readLength head = .ok payload.length
  ends : headerEnd (head ++ blank.bytes) = some (head.length, blank)
  solid : blank = .crlf → ¬ BlankLine.lf.bytes <:+: head ++ blank.bytes

namespace Frame

variable (f : Frame)

def bytes : Bytes := f.head ++ (f.blank.bytes ++ f.payload)

/-- What a reader gets of the frame. -/
def taken : Bytes × Nat := (f.payload, f.bytes.length)

/-- A bare blank line is the first one as long as no `CR LF CR LF` is in sight. -/
def Clear (more : Bytes) : Prop :=
  f.blank = .lf → ¬ BlankLine.crlf.bytes <:+: f.bytes ++ more

theorem length_bytes : f.bytes.length = f.head.length + f.blank.bytes.length + f.payload.length := by
  rw [bytes, List.length_append, List.length_append, Nat.add_assoc]

/-- The whole frame, and nothing else, is decoded. -/
theorem headerEnd_append {f : Frame} {more : Bytes} (clear : f.Clear more) {b : Bytes}
    (hb : b <+: f.bytes ++ more) (hlong : f.head.length + f.blank.bytes.length ≤ b.length) :
    headerEnd b = some (f.head.length, f.blank) := by
  have hopen : f.head ++ f.blank.bytes <+: b := by
    refine List.prefix_of_prefix_length_le ?_ hb (by rwa [List.length_append])
    exact ⟨f.payload ++ more, by rw [bytes, List.append_assoc, List.append_assoc,
      List.append_assoc]⟩
  obtain ⟨tail, rfl⟩ := hopen
  have hfind := find_of_headerEnd f.ends
  cases hblank : f.blank with
  | crlf =>
    rw [hblank] at hfind
    exact headerEnd_of_crlf (Search.find_append hfind tail)
  | lf =>
    rw [hblank] at hfind
    refine headerEnd_of_lf ?_ (Search.find_append hfind tail)
    refine (Search.find_eq_none_iff (by decide)).mpr fun hin => clear hblank ?_
    rw [hblank] at hb
    exact hin.trans hb.isInfix

theorem readLength_take {f : Frame} {more b : Bytes} (hb : b <+: f.bytes ++ more)
    (hlong : f.head.length + f.blank.bytes.length ≤ b.length) :
    readLength (b.take f.head.length) = .ok f.payload.length := by
  have hhead : f.head <+: b := by
    refine List.prefix_of_prefix_length_le ?_ hb (by omega)
    exact ⟨f.blank.bytes ++ (f.payload ++ more), by rw [bytes, List.append_assoc,
      List.append_assoc]⟩
  rw [← List.prefix_iff_eq_take.mp hhead, f.declared]

/-- A frame that is there is taken. -/
theorem decode_append {f : Frame} {more : Bytes} (clear : f.Clear more) :
    decode (f.bytes ++ more) = .ok (some f.taken) := by
  have hlong : f.head.length + f.blank.bytes.length ≤ (f.bytes ++ more).length := by
    rw [List.length_append, length_bytes]
    omega
  have hwhole : ¬ (f.bytes ++ more).length <
      f.head.length + f.blank.bytes.length + f.payload.length := by
    rw [List.length_append, length_bytes]
    omega
  rw [decode_of_headerEnd (headerEnd_append clear (List.prefix_refl _) hlong)
    (readLength_take (List.prefix_refl _) hlong), if_neg hwhole, taken, length_bytes]
  have hcut : f.bytes ++ more = (f.head ++ f.blank.bytes) ++ (f.payload ++ more) := by
    rw [bytes, List.append_assoc, List.append_assoc, List.append_assoc]
  rw [hcut, ← List.length_append, List.drop_left, List.take_left]

/-- A frame that is not all there is waited for. -/
theorem decode_short {f : Frame} {more b : Bytes} (clear : f.Clear more)
    (hb : b <+: f.bytes ++ more) (hshort : b.length < f.bytes.length) : decode b = .ok none := by
  by_cases hlong : f.head.length + f.blank.bytes.length ≤ b.length
  · rw [decode_of_headerEnd (headerEnd_append clear hb hlong) (readLength_take hb hlong),
      if_pos (by rwa [length_bytes] at hshort)]
  · have hopen : b <+: f.head ++ f.blank.bytes := by
      refine List.prefix_of_prefix_length_le hb ?_ (by rw [List.length_append]; omega)
      exact ⟨f.payload ++ more, by rw [bytes, List.append_assoc, List.append_assoc,
        List.append_assoc]⟩
    have hnone : headerEnd b = none := by
      cases hend : headerEnd b with
      | none => rfl
      | some found =>
        obtain ⟨i, blank⟩ := found
        have hfind := find_of_headerEnd hend
        have hlen := Search.length_of_find hfind
        obtain ⟨tail, htail⟩ := hopen
        have hin := Search.find_append hfind tail
        rw [htail] at hin
        by_cases hsame : blank = f.blank
        · rw [hsame] at hin hlen
          cases hin.symm.trans (find_of_headerEnd f.ends)
          exact absurd hlen hlong
        · cases hblank : f.blank with
          | crlf =>
            cases blank with
            | crlf => exact absurd hblank.symm hsame
            | lf =>
              have hno := (Search.find_eq_none_iff (by decide)).mpr (f.solid hblank)
              cases hno.symm.trans hin
          | lf =>
            cases blank with
            | lf => exact absurd hblank.symm hsame
            | crlf =>
              have hends := Option.some.inj (f.ends.symm.trans (headerEnd_of_crlf hin))
              exact absurd (congrArg Prod.snd hends).symm hsame
    rw [decode, hnone]

/-- Taking the right frame shows that no `CR LF CR LF` was in sight. -/
theorem clear_of_decode_append {f : Frame} {more : Bytes}
    (h : decode (f.bytes ++ more) = .ok (some f.taken)) : f.Clear more := by
  intro hblank hin
  obtain ⟨i, hi⟩ := Option.ne_none_iff_exists'.mp
    (mt (Search.find_eq_none_iff (by decide)).mp (not_not.mpr hin))
  obtain ⟨j, blank, hfound, -, hused, -, -⟩ := decode_eq_some h
  cases (headerEnd_of_crlf hi).symm.trans hfound
  -- the same number of bytes behind a longer blank line: it would end inside the header
  have hcut : f.bytes ++ more = (f.head ++ f.blank.bytes) ++ (f.payload ++ more) := by
    rw [bytes, List.append_assoc, List.append_assoc, List.append_assoc]
  rw [length_bytes, hblank] at hused
  rw [hcut] at hi
  have hend : i + BlankLine.crlf.bytes.length ≤ (f.head ++ f.blank.bytes).length := by
    rw [List.length_append, hblank]
    exact (Nat.add_right_cancel hused).ge
  have hopen := Search.find_of_find_append hi hend (by decide)
  have hends := Option.some.inj (f.ends.symm.trans (headerEnd_of_crlf hopen))
  have hcrlf : f.blank = .crlf := congrArg Prod.snd hends
  rw [hblank] at hcrlf
  cases hcrlf

end Frame

/-! ### A stream of frames -/

def streamOf (frames : List Frame) : Bytes := (frames.map Frame.bytes).flatten

theorem length_sub_used_lt (h : decode buf = .ok (some (payload, used))) :
    buf.length - used < buf.length := by
  obtain ⟨i, blank, -, -, hused, hle, -⟩ := decode_eq_some h
  have hpos : 0 < blank.bytes.length := by cases blank <;> decide
  omega

/-- Frames off the front of the buffer until none is whole, and what stays in the buffer. -/
def drain (buf : Bytes) : List (Bytes × Nat) × Except FrameError Bytes :=
  match h : decode buf with
  | .error e => ([], .error e)
  | .ok none => ([], .ok buf)
  | .ok (some (payload, used)) =>
    have := length_sub_used_lt h
    ((payload, used) :: (drain (buf.drop used)).1, (drain (buf.drop used)).2)
termination_by buf.length

/-- A reader that appends what arrives and takes the whole frames. -/
def read (buf : Bytes) : List Bytes → List (Bytes × Nat) × Except FrameError Bytes
  | [] => ([], .ok buf)
  | chunk :: rest =>
    match drain (buf ++ chunk) with
    | (taken, .error e) => (taken, .error e)
    | (taken, .ok left) => (taken ++ (read left rest).1, (read left rest).2)

theorem read_singleton (stream : Bytes) : read [] [stream] = drain stream := by
  rw [read, List.nil_append]
  obtain ⟨taken, end_⟩ := drain stream
  cases end_ with
  | error e => rfl
  | ok left =>
    dsimp only
    rw [read, List.append_nil]

/-- No frame with a bare blank line has a `CR LF CR LF` behind its header. -/
def Unmixed : List Frame → Prop
  | [] => True
  | f :: rest => f.Clear (streamOf rest) ∧ Unmixed rest

variable {frames : List Frame}

theorem drain_none (h : decode buf = .ok none) : drain buf = ([], .ok buf) := by
  rw [drain]
  split
  case h_1 e herr => cases h.symm.trans herr
  case h_2 => rfl
  case h_3 herr => cases h.symm.trans herr

theorem drain_error {e : FrameError} (h : decode buf = .error e) : drain buf = ([], .error e) := by
  rw [drain]
  split
  case h_1 e' herr =>
    cases h.symm.trans herr
    rfl
  case h_2 herr => cases h.symm.trans herr
  case h_3 herr => cases h.symm.trans herr

theorem drain_some (h : decode buf = .ok (some (payload, used))) :
    drain buf = ((payload, used) :: (drain (buf.drop used)).1, (drain (buf.drop used)).2) := by
  rw [drain]
  split
  case h_1 e herr => cases h.symm.trans herr
  case h_2 herr => cases h.symm.trans herr
  case h_3 p u herr =>
    obtain ⟨rfl, rfl⟩ := Prod.mk.inj (Option.some.inj (Except.ok.inj (h.symm.trans herr)))
    rfl

theorem unmixed_append {done todo : List Frame} (h : Unmixed (done ++ todo)) : Unmixed todo := by
  induction done with
  | nil => exact h
  | cons f done ih => exact ih h.2

/-- **What has arrived of a stream** is taken frame by frame, and the start of the next
frame stays. -/
theorem drain_isPrefix (clear : Unmixed frames) (hb : buf <+: streamOf frames) :
    ∃ done todo, frames = done ++ todo ∧
      ∃ left, drain buf = (done.map Frame.taken, .ok left) ∧
        buf = streamOf done ++ left ∧ decode left = .ok none ∧
        (left = [] ∨ ∃ f rest, todo = f :: rest ∧ left.length < f.bytes.length) := by
  induction frames generalizing buf with
  | nil =>
    obtain rfl : buf = [] := List.prefix_nil.mp hb
    exact ⟨[], [], rfl, [], drain_none rfl, rfl, rfl, .inl rfl⟩
  | cons f rest ih =>
    have hstream : streamOf (f :: rest) = f.bytes ++ streamOf rest := rfl
    rw [hstream] at hb
    by_cases hshort : buf.length < f.bytes.length
    · have hnone := Frame.decode_short clear.1 hb hshort
      exact ⟨[], f :: rest, rfl, buf, drain_none hnone, rfl, hnone, .inr ⟨f, rest, rfl, hshort⟩⟩
    · obtain ⟨tail, rfl⟩ : f.bytes <+: buf :=
        List.prefix_of_prefix_length_le (List.prefix_append _ _) hb (by omega)
      have htail : tail <+: streamOf rest := (List.prefix_append_right_inj _).mp hb
      have hclear : f.Clear tail := fun hblank hin => clear.1 hblank
        (hin.trans ((List.prefix_append_right_inj f.bytes).mpr htail).isInfix)
      obtain ⟨done, todo, rfl, left, hdrain, rfl, hnone, hleft⟩ := ih clear.2 htail
      refine ⟨f :: done, todo, rfl, left, ?_, (List.append_assoc _ _ _).symm, hnone, hleft⟩
      rw [drain_some (Frame.decode_append hclear), List.drop_left, hdrain]
      rfl

/-- A reader of an unmixed stream takes its frames, whatever the cut. -/
theorem read_unmixed (clear : Unmixed frames) {chunks : List Bytes}
    (hb : buf ++ chunks.flatten = streamOf frames)
    (hbuf : buf = [] ∨ ∃ f rest, frames = f :: rest ∧ buf.length < f.bytes.length) :
    read buf chunks = (frames.map Frame.taken, .ok []) := by
  induction chunks generalizing buf frames with
  | nil =>
    rw [List.flatten_nil, List.append_nil] at hb
    obtain rfl | ⟨f, rest, rfl, hshort⟩ := hbuf
    · cases frames with
      | nil => rfl
      | cons f rest =>
        have hlen := congrArg List.length hb
        rw [streamOf, List.map_cons, List.flatten_cons, List.length_append, Frame.length_bytes,
          List.length_nil] at hlen
        have hpos : 0 < f.blank.bytes.length := by cases f.blank <;> decide
        omega
    · have hlen := congrArg List.length hb
      rw [streamOf, List.map_cons, List.flatten_cons, List.length_append] at hlen
      omega
  | cons chunk rest ih =>
    rw [List.flatten_cons, ← List.append_assoc] at hb
    obtain ⟨done, todo, rfl, left, hdrain, hbuf', -, hleft⟩ :=
      drain_isPrefix clear ⟨rest.flatten, hb⟩
    have hstream : streamOf (done ++ todo) = streamOf done ++ streamOf todo := by
      rw [streamOf, List.map_append, List.flatten_append]
      rfl
    rw [hbuf', hstream, List.append_assoc] at hb
    have htodo := ih (unmixed_append clear) (List.append_cancel_left hb) hleft
    rw [read, hdrain]
    dsimp only
    rw [htodo, List.map_append]

/-- A reader that gets the whole stream at once and takes its frames shows it unmixed. -/
theorem unmixed_of_drain (h : drain (streamOf frames) = (frames.map Frame.taken, .ok [])) :
    Unmixed frames := by
  induction frames with
  | nil => trivial
  | cons f rest ih =>
    have hstream : streamOf (f :: rest) = f.bytes ++ streamOf rest := rfl
    rw [hstream] at h
    cases hdec : decode (f.bytes ++ streamOf rest) with
    | error e =>
      rw [drain_error hdec] at h
      cases h
    | ok found =>
      cases found with
      | none =>
        rw [drain_none hdec] at h
        cases h
      | some found =>
        obtain ⟨payload, used⟩ := found
        rw [drain_some hdec, List.map_cons] at h
        obtain ⟨hout, hleft⟩ := Prod.mk.inj h
        obtain ⟨htaken, hrest⟩ := List.cons.inj hout
        rw [htaken] at hdec
        cases htaken
        rw [List.drop_left] at hrest hleft
        exact ⟨Frame.clear_of_decode_append hdec, ih (Prod.ext hrest hleft)⟩

/-! ### What `encode` writes -/

/-- The header line of a payload. -/
def lengthLine (n : Nat) : String := "Content-Length: " ++ toString n

theorem toList_lengthLine (n : Nat) :
    (lengthLine n).toList = "Content-Length".toList ++ ':' :: ' ' :: Nat.toDigits 10 n := by
  have happend : (lengthLine n).toList = "Content-Length: ".toList ++ (toString n).toList :=
    String.toList_append
  have hname : "Content-Length: ".toList = "Content-Length".toList ++ [':', ' '] := by decide
  rw [happend, hname, Nat.toString_eq_repr, Nat.toList_repr, List.append_assoc]
  rfl

theorem not_mem_lengthLine {n : Nat} {c : Char} (hdigit : c.isDigit = false)
    (hc : c ∉ "Content-Length: ".toList) : c ∉ (lengthLine n).toList := by
  intro hm
  have happend : (lengthLine n).toList = "Content-Length: ".toList ++ (toString n).toList :=
    String.toList_append
  rw [happend, List.mem_append] at hm
  rcases hm with hm | hm
  · exact hc hm
  · rw [Nat.toString_eq_repr, Nat.toList_repr] at hm
    have hd := Nat.isDigit_of_mem_toDigits (by decide) (Nat.le_refl 10) hm
    rw [hdigit] at hd
    cases hd

theorem byte_not_mem_lengthLine {n b : Nat} (hb : b < 128) (hdigit : (Char.ofNat b).isDigit = false)
    (hc : Char.ofNat b ∉ "Content-Length: ".toList) : UInt8.ofNat b ∉ utf8 (lengthLine n) := by
  intro hm
  rw [utf8_eq_flatMap, List.mem_flatMap] at hm
  obtain ⟨c, hline, hm⟩ := hm
  have hne : c ≠ Char.ofNat b := fun heq => not_mem_lengthLine hdigit hc (heq ▸ hline)
  exact ne_of_mem_utf8EncodeChar hb hne hm rfl

theorem contentLength_lengthLine (n : Nat) :
    contentLength (lengthLine n) = some (Nat.toDigits 10 n) := by
  have hlines : lines (lengthLine n) = [lengthLine n] := by
    have hlf : '\n' ∉ (lengthLine n).toList := not_mem_lengthLine (by decide) (by decide)
    rw [lines, linesFrom_last hlf, List.nil_append, 
      if_neg (by rw [toList_lengthLine]; exact List.append_ne_nil_of_left_ne_nil (by decide) _),
      String.ofList_toList]
  have hsplit : Text.splitOnce ':' (lengthLine n).toList =
      some ("Content-Length".toList, ' ' :: Nat.toDigits 10 n) :=
    Text.splitOnce_eq_some.mpr ⟨toList_lengthLine n, by decide⟩
  have htrim : Text.trim (' ' :: Nat.toDigits 10 n) = Nat.toDigits 10 n := by
    have hsolid : Text.trim (Nat.toDigits 10 n) = Nat.toDigits 10 n :=
      Text.trim_of_solid fun c hc => isWhitespace_of_isDigit
        (Nat.isDigit_of_mem_toDigits (by decide) (Nat.le_refl 10) hc)
    exact hsolid
  have hname : Text.eqIgnoreAsciiCase (Text.trim "Content-Length".toList)
      "content-length".toList = true := by decide
  unfold contentLength
  rw [hlines, List.findSome?_cons, hsplit]
  dsimp only
  rw [if_pos hname, htrim]

theorem readLength_lengthLine {n : Nat} (h : n ≤ maxFrame) :
    readLength (utf8 (lengthLine n)) = .ok n := by
  have hbound : n < 2 ^ 64 := Nat.lt_of_le_of_lt h (by decide)
  rw [readLength, decodeUtf8_utf8]
  dsimp only
  rw [contentLength_lengthLine]
  dsimp only
  rw [parseUnsigned_toDigits hbound]
  exact if_neg (Nat.not_lt.mpr h)

/-- A payload under the cap, framed with its length and either blank line. -/
def Frame.encoded (payload : Bytes) (blank : BlankLine) (h : payload.length ≤ maxFrame) :
    Frame where
  head := utf8 (lengthLine payload.length)
  blank := blank
  payload := payload
  declared := readLength_lengthLine h
  ends := by
    have hcr : (13 : UInt8) ∉ utf8 (lengthLine payload.length) :=
      byte_not_mem_lengthLine (b := 13) (by decide) (by decide) (by decide)
    have hlf : (10 : UInt8) ∉ utf8 (lengthLine payload.length) :=
      byte_not_mem_lengthLine (b := 10) (by decide) (by decide) (by decide)
    cases blank with
    | crlf => exact headerEnd_of_crlf (Search.find_append_of_head_not_mem hcr)
    | lf =>
      refine headerEnd_of_lf ?_ (Search.find_append_of_head_not_mem hlf)
      refine (Search.find_eq_none_iff (by decide)).mpr fun hin => ?_
      have hlate := Search.infix_of_append_of_head_not_mem hcr hin
      revert hlate
      decide
  solid := by
    have hlf : (10 : UInt8) ∉ utf8 (lengthLine payload.length) :=
      byte_not_mem_lengthLine (b := 10) (by decide) (by decide) (by decide)
    rintro rfl hin
    have hlate := Search.infix_of_append_of_head_not_mem hlf hin
    revert hlate
    decide

/-- **Frames are read as they were written**, whatever the cut, exactly when the stream is
unmixed; and a decoded buffer reads the same with more bytes behind it exactly when these
do not bring the first `CR LF CR LF`. -/
theorem framing_exact_iff (frames : List Frame) :
    ((∀ chunks, chunks.flatten = streamOf frames →
        read [] chunks = (frames.map Frame.taken, .ok [])) ↔ Unmixed frames) ∧
      ∀ buf more payload used, decode buf = .ok (some (payload, used)) →
        (decode (buf ++ more) = .ok (some (payload, used)) ↔
          (BlankLine.crlf.bytes <:+: buf ++ more → BlankLine.crlf.bytes <:+: buf)) := by
  refine ⟨⟨fun exact => ?_, fun clear chunks hchunks => ?_⟩,
    fun buf more payload used h => decode_append_iff_blank h⟩
  · have hone := exact [streamOf frames] List.flatten_singleton
    rw [read_singleton] at hone
    exact unmixed_of_drain hone
  · exact read_unmixed clear hchunks (.inl rfl)

/-- A server that ends its first header with a bare blank line and its second one with
`CR LF CR LF`: the first decode of the two answers with the second payload. -/
theorem mixed_frames_misread :
    ¬ ∀ (frames : List Frame) (chunks : List Bytes), chunks.flatten = streamOf frames →
      read [] chunks = (frames.map Frame.taken, .ok []) := by
  intro claim
  have hsmall : ([0x7b, 0x7d] : Bytes).length ≤ maxFrame := by decide
  have hone := claim [.encoded _ .lf hsmall, .encoded _ .crlf hsmall] [_] List.flatten_singleton
  rw [read_singleton] at hone
  refine (unmixed_of_drain hone).1 rfl ?_
  have hnext : streamOf [Frame.encoded [0x7b, 0x7d] .crlf hsmall] =
      utf8 (lengthLine 2) ++ (BlankLine.crlf.bytes ++ [0x7b, 0x7d]) := List.flatten_singleton
  rw [hnext, ← List.append_assoc, ← List.append_assoc]
  exact List.infix_append _ _ _

end Arlen.TextEditor
