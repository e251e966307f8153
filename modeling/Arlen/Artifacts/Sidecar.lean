import Arlen.Artifacts.Envelope
import Arlen.Lib.Base64

/-!
# The sidecar

`contracts/artifact/src/osc.rs` and `emit_legs` of `build.rs`: an artifact goes to the terminal
as its text and a newline, and behind them the envelope in base64, cut into frames
`ESC _ ARLEN-ART1;m=<0|1>;<chunk> ESC \`. The decoder looks for the next `ESC _` wherever it
stands, so a text that holds one takes the frames behind it into a span of its own; and the
decoder's envelope looks for the title where the encoder does not write it. Everything else
comes back.
-/

namespace Arlen.Artifacts

open Arlen.Lib

/-! ## Frames -/

def esc : UInt8 := 0x1b

/-- `ESC _`. -/
def apc : Bytes := [esc, 0x5f]

/-- `ESC \`. -/
def st : Bytes := [esc, 0x5c]

/-- `ARLEN-ART1`. -/
def sentinel : Bytes := [0x41, 0x52, 0x4c, 0x45, 0x4e, 0x2d, 0x41, 0x52, 0x54, 0x31]

def chunkBytes : Nat := 4096

/-- The index of the first occurrence of `needle`. -/
def find : Bytes → Bytes → Option Nat
  | [], _ => none
  | b :: rest, needle =>
    if needle.isEmpty = false ∧ needle.isPrefixOf (b :: rest) = true then some 0
    else (find rest needle).map (· + 1)

/-- `slice::chunks`. -/
def chunks (n : Nat) (bytes : Bytes) : List Bytes :=
  if h : bytes = [] ∨ n = 0 then []
  else bytes.take n :: chunks n (bytes.drop n)
termination_by bytes.length
decreasing_by
  have := List.length_pos_iff.2 (not_or.1 h).1
  have := (not_or.1 h).2
  rw [List.length_drop]
  omega

/-- One frame. -/
def pushFrame (m : UInt8) (chunk : Bytes) : Bytes :=
  apc ++ sentinel ++ [0x3b, 0x6d, 0x3d] ++ [0x30 + m] ++ [0x3b] ++ chunk ++ st

/-- Every frame but the last says that more follows. -/
def pushFrames : List Bytes → Bytes
  | [] => []
  | [chunk] => pushFrame 0 chunk
  | chunk :: rest => pushFrame 1 chunk ++ pushFrames rest

def encodeFrames (envelopeJson : Bytes) : Bytes :=
  let bytes := Base64.encode envelopeJson
  if bytes.isEmpty then pushFrame 0 [] else pushFrames (chunks chunkBytes bytes)

/-- The `m=<0|1>;` flag of a frame, if there is one, and the chunk behind it. -/
def parseContinuation (rest : Bytes) : Except ArtifactError (UInt8 × Bytes) :=
  match rest with
  | 0x6d :: 0x3d :: after =>
    match after with
    | d :: 0x3b :: chunk =>
      if d = 0x30 ∨ d = 0x31 then .ok (d - 0x30, chunk)
      else .error (.malformed "malformed continuation flag")
    | _ => .error (.malformed "malformed continuation flag")
  | _ => .ok (0, rest)

/-- Whether the inside of a sequence is a frame of an artifact. -/
def isFrame (inner : Bytes) : Bool :=
  sentinel.isPrefixOf inner && inner[sentinel.length]? == some 0x3b

/-- The loop over the rest of the stream, with the chunks so far and whether there were any. -/
def collectFrames (stream acc : Bytes) (sawAny : Bool) : Except ArtifactError Bytes :=
  match find stream apc with
  | none =>
    if sawAny then .error (.malformed "truncated sidecar: no final frame")
    else .error (.malformed "no artifact sidecar found")
  | some rel =>
    let frame := stream.drop (rel + apc.length)
    match find frame st with
    | none => .error (.malformed "unterminated APC sidecar frame")
    | some endRel =>
      let inner := frame.take endRel
      let next := frame.drop (endRel + st.length)
      if h : stream.length ≤ next.length then .error (.malformed "APC frame scan did not advance")
      else if isFrame inner = false then collectFrames next acc sawAny
      else
        match parseContinuation (inner.drop (sentinel.length + 1)) with
        | .error e => .error e
        | .ok (m, chunk) =>
          if m = 0 then .ok (acc ++ chunk) else collectFrames next (acc ++ chunk) true
termination_by stream.length
decreasing_by all_goals exact Nat.not_le.1 h

section Codec

variable {F : Type} (isFinite : F → Bool) (json : Serde (Value F))

def decodeFrames (stream : Bytes) : Except ArtifactError (Artifact F) :=
  match collectFrames stream [] false with
  | .error e => .error e
  | .ok acc =>
    match Base64.decode acc with
    | none => .error (.malformed "base64: invalid input")
    | some bytes => Artifact.receiveJson isFinite json bytes

/-- The text and a newline, then the frames. -/
def emitLegs (a : Artifact F) : Bytes :=
  utf8 a.text ++ [0x0a] ++ encodeFrames (a.toJson json)

end Codec

/-! ## What a stream is read as -/

/-- What a terminal that knows no sidecar shows: every `ESC _ … ESC \` span is deleted. -/
def strip (stream : Bytes) : Bytes :=
  match hfind : find stream apc with
  | none => stream
  | some i =>
    match find (stream.drop (i + apc.length)) st with
    | none => stream
    | some j => stream.take i ++ strip (stream.drop (i + apc.length + (j + st.length)))
termination_by stream.length
decreasing_by
  cases stream with
  | nil => cases hfind
  | cons b stream =>
    simp only [apc, st, List.length_drop, List.length_cons, List.length_nil]
    omega

/-- No `ESC x` stands in the bytes. -/
def Free (x : UInt8) (s : Bytes) : Prop := ¬ [esc, x] <:+: s

instance (x : UInt8) (s : Bytes) : Decidable (Free x s) := inferInstanceAs (Decidable (¬ _))

/-- The end of `p` and the start of `s` make an `ESC _`. -/
def Meets (p s : Bytes) : Prop := p.getLast? = some esc ∧ s.head? = some 0x5f

/-- Output and complete sequences that are no frames of an artifact. -/
inductive Passing : Bytes → Prop
  | output {s : Bytes} (h : Free 0x5f s) : Passing s
  | foreign {s inner rest : Bytes} (h : Free 0x5f s) (hinner : Free 0x5c inner)
      (hframe : isFrame inner = false) (hrest : Passing rest) :
      Passing (s ++ apc ++ inner ++ st ++ rest)

/-! ## Finding a pair -/

section Find

variable {x b : UInt8} {s t rest : Bytes}

theorem free_cons : Free x (b :: s) ↔ ¬ [esc, x] <+: b :: s ∧ Free x s := by
  unfold Free
  rw [List.infix_cons_iff, not_or]

theorem pair_prefix_iff : [esc, x] <+: s ↔ ∃ rest, s = esc :: x :: rest :=
  ⟨fun ⟨rest, h⟩ => ⟨rest, h.symm⟩, fun ⟨rest, h⟩ => ⟨rest, h.symm⟩⟩

theorem find_cons (b : UInt8) (s : Bytes) :
    find (b :: s) [esc, x] = if [esc, x] <+: b :: s then some 0 else (find s [esc, x]).map (· + 1) := by
  simp only [find, List.isEmpty_cons, true_and, List.isPrefixOf_iff_prefix]

theorem find_of_free (h : Free x s) : find s [esc, x] = none := by
  induction s with
  | nil => rfl
  | cons b s ih =>
    obtain ⟨hhead, htail⟩ := free_cons.1 h
    rw [find_cons, if_neg hhead, ih htail, Option.map_none]

/-- **The first pair** behind bytes without one. -/
theorem find_append (hx : x ≠ esc) (h : Free x s) (rest : Bytes) :
    find (s ++ esc :: x :: rest) [esc, x] = some s.length := by
  induction s with
  | nil => rw [List.nil_append, find_cons, if_pos (pair_prefix_iff.2 ⟨rest, rfl⟩)]; rfl
  | cons b s ih =>
    obtain ⟨hhead, htail⟩ := free_cons.1 h
    have hno : ¬ [esc, x] <+: b :: (s ++ esc :: x :: rest) := by
      rw [pair_prefix_iff]
      rintro ⟨r, hr⟩
      obtain ⟨rfl, htl⟩ := List.cons.inj hr
      cases s with
      | nil => exact hx (List.cons.inj htl).1.symm
      | cons c s =>
        obtain ⟨rfl, -⟩ := List.cons.inj htl
        exact hhead (pair_prefix_iff.2 ⟨s, rfl⟩)
    rw [List.cons_append, find_cons, if_neg hno, ih htail]
    rfl

theorem find_apc (h : Free 0x5f s) (rest : Bytes) :
    find (s ++ esc :: 0x5f :: rest) apc = some s.length := find_append (by decide) h rest

theorem find_st (h : Free 0x5c s) (rest : Bytes) :
    find (s ++ esc :: 0x5c :: rest) st = some s.length := find_append (by decide) h rest

theorem exists_first_pair (h : ¬ Free x s) :
    ∃ u v, s = u ++ esc :: x :: v ∧ Free x u := by
  induction s with
  | nil => exact absurd (by simp [Free]) h
  | cons b s ih =>
    by_cases hhead : [esc, x] <+: b :: s
    · obtain ⟨v, hv⟩ := pair_prefix_iff.1 hhead
      exact ⟨[], v, hv, by simp [Free]⟩
    · obtain ⟨u, v, rfl, hu⟩ := ih fun hs => h (free_cons.2 ⟨hhead, hs⟩)
      refine ⟨b :: u, v, rfl, free_cons.2 ⟨fun hpre => hhead ?_, hu⟩⟩
      exact hpre.trans ⟨esc :: x :: v, rfl⟩

theorem free_append (hs : Free x s) (ht : Free x t)
    (hjoint : ¬ (s.getLast? = some esc ∧ t.head? = some x)) : Free x (s ++ t) := by
  induction s with
  | nil => exact ht
  | cons b s ih =>
    obtain ⟨hhead, htail⟩ := free_cons.1 hs
    refine free_cons.2 ⟨?_, ih htail fun hj => hjoint ⟨?_, hj.2⟩⟩
    · rw [pair_prefix_iff]
      rintro ⟨r, hr⟩
      obtain ⟨rfl, htl⟩ := List.cons.inj hr
      cases s with
      | nil => exact hjoint ⟨rfl, by rw [show t = x :: r from htl]; rfl⟩
      | cons c s =>
        obtain ⟨rfl, -⟩ := List.cons.inj htl
        exact hhead (pair_prefix_iff.2 ⟨s, rfl⟩)
    · cases s with
      | nil => exact absurd hj.1 (by simp)
      | cons c s => rw [List.getLast?_cons_cons]; exact hj.1

theorem free_of_no_esc (h : esc ∉ s) : Free x s :=
  fun hwithin => h (hwithin.subset List.mem_cons_self)

end Find

/-! ## Reading frames back -/

section Frames

variable {s inner rest acc chunk : Bytes} {sawAny : Bool}

/-- The next sequence is taken up, whatever output stands before it. -/
theorem collectFrames_sequence (hs : Free 0x5f s) (hinner : Free 0x5c inner) :
    collectFrames (s ++ apc ++ inner ++ st ++ rest) acc sawAny =
      if isFrame inner = false then collectFrames rest acc sawAny
      else
        match parseContinuation (inner.drop (sentinel.length + 1)) with
        | .error e => .error e
        | .ok (m, chunk) =>
          if m = 0 then .ok (acc ++ chunk) else collectFrames rest (acc ++ chunk) true := by
  have hassoc : s ++ apc ++ inner ++ st ++ rest =
      s ++ esc :: 0x5f :: (inner ++ esc :: 0x5c :: rest) := by simp [apc, st]
  have hdrop : (s ++ esc :: 0x5f :: (inner ++ esc :: 0x5c :: rest)).drop (s.length + apc.length) =
      inner ++ esc :: 0x5c :: rest := by
    simp [apc]
  have hnext : (inner ++ esc :: 0x5c :: rest).drop (inner.length + st.length) = rest := by
    simp [st]
  have htake : (inner ++ esc :: 0x5c :: rest).take inner.length = inner := by simp
  have hlt : ¬ (s ++ esc :: 0x5f :: (inner ++ esc :: 0x5c :: rest)).length ≤ rest.length := by
    simp
    omega
  rw [hassoc, collectFrames, find_apc hs]
  simp only [hdrop, find_st hinner, hnext, htake]
  rw [dif_neg hlt]

/-- The inside of a frame. -/
def innerOf (m : UInt8) (chunk : Bytes) : Bytes :=
  sentinel ++ [0x3b, 0x6d, 0x3d] ++ [0x30 + m] ++ [0x3b] ++ chunk

theorem append_pushFrame (s : Bytes) (m : UInt8) (chunk : Bytes) :
    s ++ pushFrame m chunk = s ++ apc ++ innerOf m chunk ++ st := by
  simp [pushFrame, innerOf]

theorem pushFrames_cons (c : Bytes) (cs : List Bytes) :
    ∃ m : UInt8, (m = 0 ∨ m = 1) ∧ (m = 0 ↔ cs = []) ∧
      pushFrames (c :: cs) = pushFrame m c ++ pushFrames cs := by
  cases cs with
  | nil => exact ⟨0, .inl rfl, by simp, by simp [pushFrames]⟩
  | cons d cs => exact ⟨1, .inr rfl, by simp, rfl⟩

theorem free_innerOf {m : UInt8} (hm : m = 0 ∨ m = 1) (h : ∀ x ∈ chunk, 0x2b ≤ x.toNat) :
    Free 0x5c (innerOf m chunk) := by
  refine free_of_no_esc fun hmem => ?_
  rcases List.mem_append.1 hmem with hmem | hmem
  · rcases hm with rfl | rfl <;> revert hmem <;> decide
  · exact absurd (h _ hmem) (by decide)

theorem isFrame_innerOf (m : UInt8) (chunk : Bytes) : isFrame (innerOf m chunk) = true := by
  rfl

theorem parseContinuation_innerOf {m : UInt8} (hm : m = 0 ∨ m = 1) (chunk : Bytes) :
    parseContinuation ((innerOf m chunk).drop (sentinel.length + 1)) = .ok (m, chunk) := by
  rcases hm with rfl | rfl <;> rfl

theorem free_nil (x : UInt8) : Free x [] := free_of_no_esc (by simp)

theorem collectFrames_pushFrame {m : UInt8} (hs : Free 0x5f s) (hm : m = 0 ∨ m = 1)
    (h : ∀ x ∈ chunk, 0x2b ≤ x.toNat) :
    collectFrames (s ++ pushFrame m chunk ++ rest) acc sawAny =
      if m = 0 then .ok (acc ++ chunk) else collectFrames rest (acc ++ chunk) true := by
  rw [append_pushFrame, collectFrames_sequence hs (free_innerOf hm h), isFrame_innerOf,
    parseContinuation_innerOf hm]
  rfl

/-- **The frames read back**: the chunks in their order. -/
theorem collectFrames_pushFrames (hs : Free 0x5f s) {cs : List Bytes} (hcs : cs ≠ [])
    (h : ∀ c ∈ cs, ∀ x ∈ c, 0x2b ≤ x.toNat) :
    collectFrames (s ++ pushFrames cs) acc sawAny = .ok (acc ++ cs.flatten) := by
  induction cs generalizing s acc sawAny with
  | nil => exact absurd rfl hcs
  | cons c cs ih =>
    obtain ⟨m, hm, hlast, heq⟩ := pushFrames_cons c cs
    rw [heq, ← List.append_assoc, collectFrames_pushFrame hs hm (h c List.mem_cons_self)]
    by_cases hnil : cs = []
    · rw [if_pos (hlast.2 hnil), hnil]
      simp
    · have hrest := @ih [] (acc ++ c) true (free_nil _) hnil
        fun c' hc' => h c' (List.mem_cons_of_mem _ hc')
      rw [if_neg (mt hlast.1 hnil)]
      simpa using hrest

/-- Foreign sequences and output are passed over. -/
theorem collectFrames_passing {p : Bytes} (hp : Passing p) {cs : List Bytes} (hcs : cs ≠ [])
    (h : ∀ c ∈ cs, ∀ x ∈ c, 0x2b ≤ x.toNat) :
    collectFrames (p ++ pushFrames cs) [] false = .ok cs.flatten := by
  induction hp with
  | output hout => exact collectFrames_pushFrames hout hcs h
  | @foreign out inner rest hout hinner hframe hrest ih =>
    rw [List.append_assoc, collectFrames_sequence hout hinner, hframe, if_pos rfl]
    exact ih

/-- Output behind output: nothing is opened where the first does not end in the `ESC` of a
pair. -/
theorem Passing.append {p : Bytes} (hp : Passing p) (hs : Free 0x5f s)
    (hjoint : ¬ Meets p s) : Passing (p ++ s) := by
  induction hp with
  | output hout => exact .output (free_append hout hs hjoint)
  | @foreign out inner rest hout hinner hframe hrest ih =>
    rw [List.append_assoc]
    refine .foreign hout hinner hframe (ih fun hj => hjoint ⟨?_, hj.2⟩)
    rw [List.getLast?_append, hj.1]
    rfl

theorem strip_of_free (h : Free 0x5f s) : strip s = s := by
  have hfind : find s apc = none := find_of_free h
  rw [strip]
  split
  · rfl
  · rename_i i hi
    rw [hfind] at hi
    cases hi

theorem strip_sequence (hs : Free 0x5f s) (hinner : Free 0x5c inner) :
    strip (s ++ apc ++ inner ++ st ++ rest) = s ++ strip rest := by
  have hassoc : s ++ apc ++ inner ++ st ++ rest =
      s ++ esc :: 0x5f :: (inner ++ esc :: 0x5c :: rest) := by simp [apc, st]
  have hdrop : (s ++ esc :: 0x5f :: (inner ++ esc :: 0x5c :: rest)).drop (s.length + apc.length) =
      inner ++ esc :: 0x5c :: rest := by
    simp [apc]
  have hnext : (inner ++ esc :: 0x5c :: rest).drop (inner.length + st.length) = rest := by
    simp [st]
  rw [hassoc, strip]
  split
  · rename_i hnone
    rw [find_apc hs] at hnone
    cases hnone
  · rename_i i hi
    obtain rfl : s.length = i := by rw [find_apc hs] at hi; exact Option.some.inj hi
    simp only [← List.drop_drop, hdrop, find_st hinner, hnext]
    rw [List.take_left]

theorem strip_pushFrames (hs : Free 0x5f s) {cs : List Bytes}
    (h : ∀ c ∈ cs, ∀ x ∈ c, 0x2b ≤ x.toNat) : strip (s ++ pushFrames cs) = s := by
  induction cs generalizing s with
  | nil => rw [pushFrames, List.append_nil, strip_of_free hs]
  | cons c cs ih =>
    obtain ⟨m, hm, -, heq⟩ := pushFrames_cons c cs
    have hrest := @ih [] (free_nil _) fun c' hc' => h c' (List.mem_cons_of_mem _ hc')
    rw [heq, ← List.append_assoc, append_pushFrame,
      strip_sequence hs (free_innerOf hm (h c List.mem_cons_self)),
      show strip (pushFrames cs) = [] from hrest, List.append_nil]

theorem free_newline (hs : Free 0x5f s) : Free 0x5f (s ++ [0x0a]) :=
  free_append hs (free_of_no_esc (by decide)) fun h => absurd h.2 (by decide)

/-- A text that opens a sequence is shown short: the sequence ends in the text, or it takes
the newline and the first frame with it. -/
theorem length_strip_lt (hs : ¬ Free 0x5f s) {cs : List Bytes} (hcs : cs ≠ [])
    (h : ∀ c ∈ cs, ∀ x ∈ c, 0x2b ≤ x.toNat) :
    (strip (s ++ [0x0a] ++ pushFrames cs)).length < s.length + 1 := by
  induction hn : s.length using Nat.strongRecOn generalizing s with
  | _ n ih =>
  subst hn
  obtain ⟨u, v, rfl, hu⟩ := exists_first_pair hs
  by_cases hv : Free 0x5c v
  · obtain ⟨c, cs, rfl⟩ := List.exists_cons_of_ne_nil hcs
    obtain ⟨m, hm, -, heq⟩ := pushFrames_cons c cs
    have hinner : Free 0x5c (v ++ ([0x0a] ++ apc) ++ innerOf m c) := by
      refine free_append (free_append hv (by decide) ?_)
        (free_innerOf hm (h c List.mem_cons_self)) ?_
      · exact fun hj => absurd hj.2 (by decide)
      · exact fun hj => absurd hj.2 (by simp [innerOf, sentinel])
    have hrest : strip (pushFrames cs) = [] :=
      strip_pushFrames (free_nil _) fun c' hc' => h c' (List.mem_cons_of_mem _ hc')
    have hassoc : u ++ esc :: 0x5f :: v ++ [0x0a] ++ pushFrames (c :: cs) =
        u ++ apc ++ (v ++ ([0x0a] ++ apc) ++ innerOf m c) ++ st ++ pushFrames cs := by
      rw [heq, ← List.nil_append (pushFrame m c), append_pushFrame]
      simp [apc]
    have hlen : (u ++ esc :: 0x5f :: v).length = u.length + (v.length + 2) := List.length_append
    rw [hassoc, strip_sequence hu hinner, hrest, List.append_nil, hlen]
    omega
  · obtain ⟨v, w, rfl, hfree⟩ := exists_first_pair hv
    have hassoc : u ++ esc :: 0x5f :: (v ++ esc :: 0x5c :: w) ++ [0x0a] ++ pushFrames cs =
        u ++ apc ++ v ++ st ++ (w ++ [0x0a] ++ pushFrames cs) := by simp [apc, st]
    rw [hassoc, strip_sequence hu hfree]
    have hle : (strip (w ++ [0x0a] ++ pushFrames cs)).length ≤ w.length + 1 := by
      by_cases hw : Free 0x5f w
      · rw [strip_pushFrames (free_newline hw) h]
        simp
      · exact Nat.le_of_lt (ih w.length (by simp; omega) hw rfl)
    simp only [List.length_append, List.length_cons]
    omega

theorem flatten_chunks {n : Nat} (hn : n ≠ 0) (bytes : Bytes) : (chunks n bytes).flatten = bytes := by
  induction bytes using chunks.induct n with
  | case1 bytes h =>
    rw [chunks, dif_pos h]
    simp [h.resolve_right hn]
  | case2 bytes h ih =>
    rw [chunks, dif_neg h, List.flatten_cons, ih, List.take_append_drop]

theorem encodeFrames_eq (bytes : Bytes) : ∃ cs : List Bytes, cs ≠ [] ∧
    cs.flatten = Base64.encode bytes ∧ encodeFrames bytes = pushFrames cs := by
  have hflat := flatten_chunks (by decide : chunkBytes ≠ 0) (Base64.encode bytes)
  unfold encodeFrames
  by_cases hempty : Base64.encode bytes = []
  · exact ⟨[[]], by simp, by simp [hempty], by simp [hempty, pushFrames]⟩
  · refine ⟨chunks chunkBytes (Base64.encode bytes), fun hnil => hempty ?_, hflat, ?_⟩
    · rw [← hflat, hnil]
      rfl
    · simp [hempty]

end Frames

/-! ## The two legs -/

section Legs

variable {F : Type} (isFinite : F → Bool) (json : Serde (Value F))

/-- **The round trip** behind the output `p`: the artifact comes back, stamped as external
content, and a terminal without sidecars shows the text and a newline. -/
structure Travels (a : Artifact F) (p : Bytes) : Prop where
  decodes : ∃ b, decodeFrames isFinite json (p ++ emitLegs json a) = .ok b ∧
    b.payload = a.payload ∧ b.text = a.text ∧ b.«meta».title = a.«meta».title ∧
    b.«meta».origin = .externalContent
  degrades : strip (emitLegs json a) = utf8 a.text ++ [0x0a]

variable {isFinite json} {a : Artifact F} {p : Bytes} {payload : ArtifactPayload F}
  {text : String} {origin : ArtifactOrigin} {title : Option String}

/-- Where the frames arrive, the artifact is read without its title. -/
theorem decodeFrames_eq (hnew : Artifact.new isFinite payload text origin title = .ok a)
    (hjson : json.RoundTrips a.toValue) {stream : Bytes}
    (hstream : collectFrames stream [] false = .ok (Base64.encode (a.toJson json))) :
    decodeFrames isFinite json stream =
      .ok ⟨a.kind, a.payload, a.text, ⟨.externalContent, none⟩⟩ := by
  obtain ⟨htext, hvalid, rfl⟩ := Artifact.new_eq_ok.1 hnew
  have hread : Artifact.receiveJson isFinite json
      (Artifact.toJson json ⟨payload.kind, payload, text, ⟨origin, title⟩⟩) =
      Artifact.receive isFinite payload text none := by
    unfold Artifact.receiveJson Artifact.toJson
    rw [decodeUtf8_utf8]
    simp only [show json.fromStr _ = .ok _ from hjson, ProgramEnvelope.fromValue_toValue]
  unfold decodeFrames
  simp only [hstream, Base64.decode_encode, hread]
  have hinert : ¬ payload.kind.programEmittable = false := by
    cases payload <;>
      simp [ArtifactPayload.kind, ArtifactKind.programEmittable, ArtifactKind.isInert]
  rw [Artifact.receive, if_neg hinert]
  exact Artifact.new_eq_ok.2 ⟨htext, hvalid, rfl⟩

theorem printable_of_flatten {cs : List Bytes} {bytes : Bytes}
    (h : cs.flatten = Base64.encode bytes) : ∀ c ∈ cs, ∀ x ∈ c, 0x2b ≤ x.toNat := by
  intro c hc x hx
  exact Base64.printable_encode bytes x (h ▸ List.mem_flatten.2 ⟨c, hc, hx⟩)

/-- Behind output that leaves nothing open, the frames arrive. -/
theorem collectFrames_emitLegs (hp : Passing (p ++ utf8 a.text)) :
    collectFrames (p ++ emitLegs json a) [] false = .ok (Base64.encode (a.toJson json)) := by
  obtain ⟨cs, hcs, hflat, henc⟩ := encodeFrames_eq (a.toJson json)
  have hnewline : Passing (p ++ utf8 a.text ++ [0x0a]) :=
    hp.append (free_of_no_esc (by decide)) fun h => absurd h.2 (by decide)
  have hframes := collectFrames_passing hnewline hcs (printable_of_flatten hflat)
  rw [emitLegs, henc, ← hflat, ← hframes]
  simp

/-- The text is shown as it is exactly where it opens no sequence. -/
theorem strip_emitLegs_iff :
    strip (emitLegs json a) = utf8 a.text ++ [0x0a] ↔ Free 0x5f (utf8 a.text) := by
  obtain ⟨cs, hcs, hflat, henc⟩ := encodeFrames_eq (a.toJson json)
  have hprint := printable_of_flatten hflat
  rw [emitLegs, henc]
  refine ⟨fun hstrip => ?_, fun hfree => strip_pushFrames (free_newline hfree) hprint⟩
  by_contra hfree
  have hlt := length_strip_lt hfree hcs hprint
  rw [hstrip] at hlt
  simp at hlt

theorem travels_of_passing (hnew : Artifact.new isFinite payload text origin title = .ok a)
    (hjson : json.RoundTrips a.toValue) (htitle : a.«meta».title = none)
    (hfree : Free 0x5f (utf8 a.text)) (hp : Passing (p ++ utf8 a.text)) :
    Travels isFinite json a p := by
  have hdec := decodeFrames_eq hnew hjson (collectFrames_emitLegs hp)
  exact ⟨⟨_, hdec, rfl, rfl, htitle.symm, rfl⟩, strip_emitLegs_iff.2 hfree⟩

/-- The decoder looks for the title beside the payload, and it is written in the metadata. -/
theorem title_of_travels (hnew : Artifact.new isFinite payload text origin title = .ok a)
    (hjson : json.RoundTrips a.toValue) (hp : Passing (p ++ utf8 a.text))
    (h : Travels isFinite json a p) : a.«meta».title = none := by
  obtain ⟨b, hb, -, -, htitle, -⟩ := h.decodes
  rw [decodeFrames_eq hnew hjson (collectFrames_emitLegs hp)] at hb
  obtain rfl := Except.ok.inj hb
  exact htitle.symm

/-- **What travels**: an artifact without a title whose text opens no sequence. Where the text
makes an `ESC _` with the output before it, it still travels if it ends that sequence itself
and the sequence is no frame; a text that holds an `ESC _` never does. -/
theorem travels_iff (hnew : Artifact.new isFinite payload text origin title = .ok a)
    (hjson : json.RoundTrips a.toValue) (hp : Passing p) :
    (¬ Meets p (utf8 a.text) →
      (Travels isFinite json a p ↔ a.«meta».title = none ∧ Free 0x5f (utf8 a.text))) ∧
    (a.«meta».title = none ∧ Free 0x5f (utf8 a.text) ∧ Passing (p ++ utf8 a.text) →
      Travels isFinite json a p) ∧
    (Travels isFinite json a p → Free 0x5f (utf8 a.text)) := by
  have hfree : Travels isFinite json a p → Free 0x5f (utf8 a.text) :=
    fun h => strip_emitLegs_iff.1 h.degrades
  refine ⟨fun hmeets => ⟨fun h => ?_, fun h => ?_⟩, fun h => ?_, hfree⟩
  · exact ⟨title_of_travels hnew hjson (hp.append (hfree h) hmeets) h, hfree h⟩
  · exact travels_of_passing hnew hjson h.1 h.2 (hp.append h.2 hmeets)
  · exact travels_of_passing hnew hjson h.1 h.2.1 h.2.2

end Legs

/-- A note, with or without a title. -/
def note (title : Option String) : Artifact Int :=
  ⟨.markdown, .markdown "body", "hello", ⟨.agentGenerated, title⟩⟩

def noteJson : String :=
  "\x7b\"kind\":\"markdown\",\"payload\":\x7b\"kind\":\"markdown\",\"source\":\"body\"\x7d," ++
    "\"text\":\"hello\",\"meta\":\x7b\"origin\":\"agent_generated\"\x7d\x7d"

def titledNoteJson : String :=
  "\x7b\"kind\":\"markdown\",\"payload\":\x7b\"kind\":\"markdown\",\"source\":\"body\"\x7d," ++
    "\"text\":\"hello\",\"meta\":\x7b\"origin\":\"agent_generated\",\"title\":\"notes\"\x7d\x7d"

/-- A line of output and a graphics sequence. -/
def graphics : Bytes := [0x68, 0x69, 0x0a] ++ apc ++ [0x47, 0x66] ++ st ++ []

theorem passing_graphics : Passing graphics :=
  .foreign (by decide) (by decide) (by decide) (.output (by decide))

theorem note_travels : Travels (fun _ => true) (serdeOf (note none).toValue fun _ => noteJson)
    (note none) graphics := by
  have hnew : Artifact.new (fun _ : Int => true) (.markdown "body") "hello" .agentGenerated none =
      .ok (note none) := by rfl
  have h := (travels_iff hnew (serdeOf_roundTrips _ fun _ => noteJson) passing_graphics).1
    (by unfold Meets; decide)
  exact h.2 ⟨rfl, by decide⟩

theorem title_is_lost : ¬ Travels (fun _ => true)
    (serdeOf (note (some "notes")).toValue fun _ => titledNoteJson) (note (some "notes")) [] := by
  have hnew : Artifact.new (fun _ : Int => true) (.markdown "body") "hello" .agentGenerated
      (some "notes") = .ok (note (some "notes")) := by rfl
  intro h
  have := title_of_travels hnew (serdeOf_roundTrips _ fun _ => titledNoteJson)
    (.output (by decide)) h
  cases this

end Arlen.Artifacts
