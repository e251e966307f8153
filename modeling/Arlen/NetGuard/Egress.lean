import Arlen.Lib.Decimal
import Arlen.Lib.Lexeme
import Arlen.Lib.Pieces
import Arlen.Lib.Search
import Arlen.Lib.Str
import Arlen.Lib.Text

/-!
# The head of a tunnel request

The egress proxy reads a `CONNECT` head off the socket in reads of at most one
chunk, keeps at most `maxRequestHead` bytes, and hands what came behind the head
to the tunnel. `Reads` is one way the socket delivers a client's stream. Whether
a head is accepted, and its target, are a matter of the stream; what the tunnel
gets also depends on the read that completes the head, because the cap drops the
end of the read that crosses it.
-/

namespace Arlen.NetGuard

open Arlen.Lib

def maxRequestHead : Nat := 8 * 1024

/-- The buffer of one read. -/
def chunkBytes : Nat := 1024

/-- `CR LF CR LF`. -/
def headTerminator : Bytes := [13, 10, 13, 10]

def findHeadEnd (buf : Bytes) : Option Nat := Search.find headTerminator buf

/-- `str::split_whitespace`. -/
def splitWhitespace (s : List Char) : List (List Char) :=
  (runs (fun c => !isWhitespace c) s).filter (· ≠ [])

def parseConnectLine (head : Bytes) : Option (String × Nat) :=
  match decodeUtf8 head with
  | none => none
  | some text =>
    match lines text with
    | [] => none
    | first :: _ =>
      match splitWhitespace first.toList with
      | method :: authority :: _ =>
        if Text.eqIgnoreAsciiCase method "CONNECT".toList = false then none
        else
          match rsplitOnce (String.ofList authority) ':' with
          | none => none
          | some (host, portStr) =>
            if host = "" then none
            else (parseUnsigned (2 ^ 16) portStr.toList).map fun port => (host, port)
      | _ => none

/-- What `read_connect_target` returns, and the reads the socket still holds. -/
structure Accepted where
  target : String × Nat
  earlyData : Bytes
  unread : List Bytes

/-- What `handle_tunnel` sends to the upstream: the early data, and then the splice. -/
def Accepted.tunnel (a : Accepted) : Bytes := a.earlyData ++ a.unread.flatten

/-- The loop of `read_connect_target`, with the buffer so far. No read left is an end of the
stream; a read that fails ends the loop in the same way. -/
def readFrom (buf : Bytes) (reads : List Bytes) : Option Accepted :=
  match findHeadEnd buf with
  | some pos =>
    (parseConnectLine (buf.take pos)).map fun target =>
      { target := target, earlyData := buf.drop (pos + 4), unread := reads }
  | none =>
    if maxRequestHead ≤ buf.length then none
    else
      match reads with
      | [] => none
      | chunk :: rest =>
        if chunk.length = 0 then none
        else readFrom (buf ++ chunk.take (min chunk.length (maxRequestHead - buf.length))) rest

/-- One way the socket cuts a client's stream into reads. -/
structure Reads where
  chunks : List Bytes
  sized : ∀ chunk ∈ chunks, 0 < chunk.length ∧ chunk.length ≤ chunkBytes

def Reads.stream (r : Reads) : Bytes := r.chunks.flatten

def readConnectTarget (r : Reads) : Option Accepted := readFrom [] r.chunks

/-! ### What has been read -/

/-- The bytes read once `need` of them are there, and the reads left then. -/
def arrive (need : Nat) (seen : Bytes) : List Bytes → Bytes × List Bytes
  | [] => (seen, [])
  | chunk :: rest =>
    if need ≤ seen.length then (seen, chunk :: rest) else arrive need (seen ++ chunk) rest

section Arrive

variable {need : Nat} {seen : Bytes} {reads : List Bytes}

theorem arrive_of_le (h : need ≤ seen.length) : arrive need seen reads = (seen, reads) := by
  cases reads with
  | nil => rfl
  | cons chunk rest => exact if_pos h

/-- Reading loses nothing. -/
theorem arrive_append :
    (arrive need seen reads).1 ++ (arrive need seen reads).2.flatten = seen ++ reads.flatten := by
  induction reads generalizing seen with
  | nil => rfl
  | cons chunk rest ih =>
    unfold arrive
    split
    · rfl
    · rw [ih, List.flatten_cons, List.append_assoc]

/-- When everything but the last read falls short, the last read completes. -/
theorem arrive_last {last : Bytes} (h : (seen ++ reads.flatten).length < need) :
    arrive need seen (reads ++ [last]) = (seen ++ reads.flatten ++ last, []) := by
  induction reads generalizing seen with
  | nil =>
    rw [List.flatten_nil, List.append_nil] at h ⊢
    rw [List.nil_append, arrive, if_neg (by omega), arrive]
  | cons chunk rest ih =>
    have hshort : ¬ need ≤ seen.length := by
      rw [List.length_append] at h
      omega
    rw [List.flatten_cons, ← List.append_assoc] at h ⊢
    rw [List.cons_append, arrive, if_neg hshort, ih h]

theorem le_arrive (h : need ≤ (seen ++ reads.flatten).length) :
    need ≤ (arrive need seen reads).1.length := by
  induction reads generalizing seen with
  | nil => simpa [arrive] using h
  | cons chunk rest ih =>
    unfold arrive
    split
    case isTrue enough => exact enough
    case isFalse => exact ih (by simpa using h)

end Arrive

theorem findHeadEnd_take {stream : Bytes} {n pos : Nat} :
    findHeadEnd (stream.take n) = some pos ↔ findHeadEnd stream = some pos ∧ pos + 4 ≤ n :=
  Search.find_take_iff (by decide)

/-- The capped buffer after one more read is the capped prefix of what was read. -/
theorem take_append_chunk {seen chunk : Bytes} (h : seen.length < maxRequestHead) :
    seen ++ chunk.take (min chunk.length (maxRequestHead - seen.length)) =
      (seen ++ chunk).take maxRequestHead := by
  rw [List.take_append, List.take_of_length_le h.le, List.append_cancel_left_eq]
  refine List.take_eq_take_iff.mpr ?_
  omega

theorem readFrom_none {buf : Bytes} {reads : List Bytes} (h : findHeadEnd buf = none) :
    readFrom buf reads =
      if maxRequestHead ≤ buf.length then none
      else
        match reads with
        | [] => none
        | chunk :: rest =>
          if chunk.length = 0 then none
          else readFrom (buf ++ chunk.take (min chunk.length (maxRequestHead - buf.length)))
            rest := by
  rw [readFrom.eq_def, h]

theorem readFrom_some {buf : Bytes} {reads : List Bytes} {pos : Nat}
    (h : findHeadEnd buf = some pos) :
    readFrom buf reads = (parseConnectLine (buf.take pos)).map fun target =>
      { target := target, earlyData := buf.drop (pos + 4), unread := reads } := by
  rw [readFrom.eq_def, h]

/-- **A head within the cap**: it is parsed as it stands in the stream, and the early data
is what had been read behind it and stayed under the cap. -/
theorem readFrom_within {reads : List Bytes} (hsized : ∀ chunk ∈ reads, 0 < chunk.length)
    {seen : Bytes} {pos : Nat} (hpos : findHeadEnd (seen ++ reads.flatten) = some pos)
    (hcap : pos + 4 ≤ maxRequestHead) :
    readFrom (seen.take maxRequestHead) reads =
      (parseConnectLine ((seen ++ reads.flatten).take pos)).map fun target =>
        { target := target
          earlyData := ((arrive (pos + 4) seen reads).1.take maxRequestHead).drop (pos + 4)
          unread := (arrive (pos + 4) seen reads).2 } := by
  induction reads generalizing seen with
  | nil =>
    have hlen := Search.length_of_find hpos
    have hfind : findHeadEnd (seen.take maxRequestHead) = some pos :=
      findHeadEnd_take.mpr ⟨by simpa using hpos, hcap⟩
    rw [readFrom_some hfind, List.take_take, min_eq_left (by omega), List.flatten_nil,
      List.append_nil]
    rfl
  | cons chunk rest ih =>
    by_cases hseen : pos + 4 ≤ seen.length
    · have hfind : findHeadEnd seen = some pos :=
        Search.find_of_find_append hpos hseen (by decide)
      rw [readFrom_some (findHeadEnd_take.mpr ⟨hfind, hcap⟩), arrive_of_le hseen,
        List.take_take, min_eq_left (by omega), List.take_append_of_le_length (by omega)]
    · have hshort : seen.length < maxRequestHead := by omega
      have hfind : findHeadEnd seen = none := by
        cases hf : findHeadEnd seen with
        | none => rfl
        | some pos' =>
          have hsame := (Search.find_append hf (chunk :: rest).flatten).symm.trans hpos
          cases hsame
          exact absurd (Search.length_of_find hf) hseen
      have hchunk := hsized chunk List.mem_cons_self
      have hflat : seen ++ (chunk :: rest).flatten = (seen ++ chunk) ++ rest.flatten := by
        rw [List.flatten_cons, List.append_assoc]
      rw [hflat] at hpos ⊢
      rw [List.take_of_length_le hshort.le, readFrom_none hfind, if_neg (by omega)]
      dsimp only
      rw [if_neg (by omega), take_append_chunk hshort,
        ih (fun c hc => hsized c (List.mem_cons_of_mem _ hc)) hpos, arrive, if_neg hseen]

/-- A head that does not end within the cap is refused. -/
theorem readFrom_beyond {reads : List Bytes} {seen : Bytes}
    (hpos : ∀ pos, findHeadEnd (seen ++ reads.flatten) = some pos → maxRequestHead < pos + 4) :
    readFrom (seen.take maxRequestHead) reads = none := by
  have hfind : findHeadEnd (seen.take maxRequestHead) = none := by
    cases hf : findHeadEnd (seen.take maxRequestHead) with
    | none => rfl
    | some pos =>
      obtain ⟨hseen, hcap⟩ := findHeadEnd_take.mp hf
      have hbeyond := hpos pos (Search.find_append hseen _)
      omega
  induction reads generalizing seen with
  | nil => rw [readFrom_none hfind, ite_self]
  | cons chunk rest ih =>
    rw [readFrom_none hfind]
    dsimp only
    split
    · rfl
    · split
      · rfl
      · next hroom _ =>
        have hshort : seen.length < maxRequestHead := by
          rw [List.length_take] at hroom
          omega
        have hflat : seen ++ (chunk :: rest).flatten = (seen ++ chunk) ++ rest.flatten := by
          rw [List.flatten_cons, List.append_assoc]
        rw [hflat] at hpos
        rw [List.take_of_length_le hshort.le, take_append_chunk hshort]
        refine ih hpos ?_
        cases hf : findHeadEnd ((seen ++ chunk).take maxRequestHead) with
        | none => rfl
        | some pos =>
          obtain ⟨hseen, hcap⟩ := findHeadEnd_take.mp hf
          have hbeyond := hpos pos (Search.find_append hseen _)
          omega

/-! ### What the tunnel gets -/

/-- The target a stream asks for: its head ends within the cap and parses. -/
def requestedTarget (stream : Bytes) : Option (String × Nat) :=
  match findHeadEnd stream with
  | none => none
  | some pos => if pos + 4 ≤ maxRequestHead then parseConnectLine (stream.take pos) else none

theorem requestedTarget_eq {stream : Bytes} {pos : Nat} (hpos : findHeadEnd stream = some pos)
    (hcap : pos + 4 ≤ maxRequestHead) :
    requestedTarget stream = parseConnectLine (stream.take pos) := by
  unfold requestedTarget
  rw [hpos]
  exact if_pos hcap

/-- What a stream asks for does not depend on the reads. -/
theorem target_readConnectTarget (r : Reads) :
    (readConnectTarget r).map Accepted.target = requestedTarget r.stream := by
  have hsized : ∀ chunk ∈ r.chunks, 0 < chunk.length := fun c hc => (r.sized c hc).1
  unfold requestedTarget
  split
  case h_1 hnone =>
    have hrun : readFrom (([] : Bytes).take maxRequestHead) r.chunks = none :=
      readFrom_beyond fun pos hpos => by
        rw [List.nil_append, ← Reads.stream, hnone] at hpos
        cases hpos
    rw [readConnectTarget, ← List.take_nil (i := maxRequestHead), hrun]
    rfl
  case h_2 pos hpos =>
    split
    case isTrue hcap =>
      have hstart : findHeadEnd ([] ++ r.chunks.flatten) = some pos := hpos
      have hrun := readFrom_within hsized hstart hcap
      rw [List.take_nil] at hrun
      rw [readConnectTarget, hrun, Option.map_map]
      exact congrFun Option.map_id _
    case isFalse hcap =>
      have hrun : readFrom (([] : Bytes).take maxRequestHead) r.chunks = none :=
        readFrom_beyond fun pos' hpos' => by
          rw [List.nil_append, ← Reads.stream, hpos] at hpos'
          cases hpos'
          omega
      rw [readConnectTarget, ← List.take_nil (i := maxRequestHead), hrun]
      rfl

/-- No byte of the client's stream is lost or made up, and another cutting of the same
stream asks for the same target. -/
structure Kept (r : Reads) : Prop where
  whole : ∀ a, readConnectTarget r = some a → ∃ pos, findHeadEnd r.stream = some pos ∧
    r.stream.take (pos + 4) ++ a.tunnel = r.stream
  uncut : ∀ other : Reads, other.stream = r.stream →
    (readConnectTarget other).map Accepted.target = (readConnectTarget r).map Accepted.target

/-- The read that completes an accepted head stays within the cap. -/
def WithinCap (r : Reads) : Prop :=
  ∀ pos, findHeadEnd r.stream = some pos → (requestedTarget r.stream).isSome →
    (arrive (pos + 4) [] r.chunks).1.length ≤ maxRequestHead

/-- What a requested stream leaves with the tunnel. -/
theorem readConnectTarget_of_requested {r : Reads} {target : String × Nat}
    (h : requestedTarget r.stream = some target) :
    ∃ pos, findHeadEnd r.stream = some pos ∧ pos + 4 ≤ maxRequestHead ∧
      readConnectTarget r = some
        { target := target
          earlyData := ((arrive (pos + 4) [] r.chunks).1.take maxRequestHead).drop (pos + 4)
          unread := (arrive (pos + 4) [] r.chunks).2 } := by
  unfold requestedTarget at h
  cases hpos : findHeadEnd r.stream with
  | none =>
    rw [hpos] at h
    cases h
  | some pos =>
    rw [hpos] at h
    dsimp only at h
    split_ifs at h with hcap
    have hstart : findHeadEnd ([] ++ r.chunks.flatten) = some pos := hpos
    have hrun := readFrom_within (fun c hc => (r.sized c hc).1) hstart hcap
    rw [List.take_nil, List.nil_append] at hrun
    refine ⟨pos, rfl, hcap, ?_⟩
    rw [readConnectTarget, hrun, ← Reads.stream, h]
    rfl

/-- The head, the early data and the rest are the stream exactly when the cap cut nothing. -/
theorem tunnel_eq_iff {r : Reads} {pos : Nat} (hpos : findHeadEnd r.stream = some pos)
    (hcap : pos + 4 ≤ maxRequestHead) :
    r.stream.take (pos + 4) ++ (((arrive (pos + 4) [] r.chunks).1.take maxRequestHead).drop
        (pos + 4) ++ (arrive (pos + 4) [] r.chunks).2.flatten) = r.stream ↔
      (arrive (pos + 4) [] r.chunks).1.length ≤ maxRequestHead := by
  have hend : pos + 4 ≤ r.stream.length := Search.length_of_find hpos
  have hread : r.stream = (arrive (pos + 4) [] r.chunks).1 ++
      (arrive (pos + 4) [] r.chunks).2.flatten := by
    rw [arrive_append]
    rfl
  have hneed : pos + 4 ≤ (arrive (pos + 4) [] r.chunks).1.length := le_arrive hend
  generalize arrive (pos + 4) [] r.chunks = split at hread hneed ⊢
  obtain ⟨taken, left⟩ := split
  rw [hread]
  dsimp only at hneed ⊢
  constructor
  · intro same
    have hlen := congrArg List.length same
    simp only [List.length_append, List.length_take, List.length_drop] at hlen
    omega
  · intro within
    rw [List.take_of_length_le within, List.take_append_of_le_length hneed, ← List.append_assoc,
      List.take_append_drop]

/-- **No tunnel byte is lost**, and the answer is the stream's, exactly when the read that
completes the head stays within the cap. -/
theorem kept_iff_withinCap (r : Reads) : Kept r ↔ WithinCap r := by
  constructor
  · intro kept pos hpos hsome
    obtain ⟨target, htarget⟩ := Option.isSome_iff_exists.mp hsome
    obtain ⟨pos', hpos', hcap, hrun⟩ := readConnectTarget_of_requested htarget
    cases hpos.symm.trans hpos'
    obtain ⟨pos', hpos', same⟩ := kept.whole _ hrun
    cases hpos.symm.trans hpos'
    exact (tunnel_eq_iff hpos hcap).mp same
  · intro within
    refine ⟨fun a ha => ?_, fun other hsame => ?_⟩
    · have htarget : requestedTarget r.stream = some a.target := by
        rw [← target_readConnectTarget, ha]
        rfl
      obtain ⟨pos, hpos, hcap, hrun⟩ := readConnectTarget_of_requested htarget
      have htunnel := congrArg Accepted.tunnel (Option.some.inj (ha.symm.trans hrun))
      have hsome : (requestedTarget r.stream).isSome := by rw [htarget]; rfl
      refine ⟨pos, hpos, ?_⟩
      rw [htunnel]
      exact (tunnel_eq_iff hpos hcap).mpr (within pos hpos hsome)
    · rw [target_readConnectTarget, target_readConnectTarget, hsame]

/-! ### A read across the cap -/

theorem splitWhitespace_word {w s : List Char} (hw : w ≠ [])
    (hsolid : ∀ c ∈ w, isWhitespace c = false) :
    splitWhitespace (w ++ ' ' :: s) = w :: splitWhitespace s := by
  have hword : runs (fun c => !isWhitespace c) w = [w] :=
    runs_word fun c hc => by rw [hsolid c hc]; rfl
  unfold splitWhitespace
  rw [runs_append_cons w s (by decide), hword, List.singleton_append,
    List.filter_cons_of_pos (by simpa using hw)]

/-- A request line of any length asks for the authority it names. -/
theorem parseConnectLine_padded (n : Nat) :
    parseConnectLine (utf8 "CONNECT a:1 " ++ List.replicate n 0x61) = some ("a", 1) := by
  have htext : utf8 "CONNECT a:1 " ++ List.replicate n 0x61 =
      utf8 (String.ofList ("CONNECT a:1 ".toList ++ List.replicate n 'a')) := by
    conv_rhs => rw [utf8_ofList, List.flatMap_append, ← utf8_eq_flatMap]
    congr 1
    induction n with
    | zero => rfl
    | succ n ih => rw [List.replicate_succ, List.replicate_succ, List.flatMap_cons, ← ih]; rfl
  have hline : '\n' ∉ "CONNECT a:1 ".toList ++ List.replicate n 'a' := by
    simp [List.mem_replicate]
  have hlines : lines (String.ofList ("CONNECT a:1 ".toList ++ List.replicate n 'a')) =
      [String.ofList ("CONNECT a:1 ".toList ++ List.replicate n 'a')] := by
    rw [lines, String.toList_ofList, linesFrom_last hline, if_neg (by simp), List.nil_append]
  have hparts : splitWhitespace ("CONNECT a:1 ".toList ++ List.replicate n 'a') =
      "CONNECT".toList :: "a:1".toList :: splitWhitespace (List.replicate n 'a') := by
    have hcut : "CONNECT a:1 ".toList ++ List.replicate n 'a' =
        "CONNECT".toList ++ ' ' :: ("a:1".toList ++ ' ' :: List.replicate n 'a') := by simp
    rw [hcut, splitWhitespace_word (by decide) (by decide),
      splitWhitespace_word (by decide) (by decide)]
  have hmethod : ¬ Text.eqIgnoreAsciiCase "CONNECT".toList "CONNECT".toList = false := by decide
  have hsplit : rsplitOnce (String.ofList "a:1".toList) ':' = some ("a", "1") := by decide
  have hport : parseUnsigned (2 ^ 16) "1".toList = some 1 := by decide
  unfold parseConnectLine
  rw [htext, decodeUtf8_utf8]
  dsimp only
  rw [hlines]
  dsimp only
  rw [String.toList_ofList, hparts]
  dsimp only
  rw [if_neg hmethod, hsplit]
  dsimp only
  rw [if_neg (by decide), hport]
  rfl

/-- The first 8180 bytes of a head, and the reads that bring the first 7180 of them. -/
def opening : Bytes := utf8 "CONNECT a:1 " ++ List.replicate 8168 0x61

def openingReads : List Bytes :=
  utf8 "CONNECT a:1 " :: List.replicate 7 (List.replicate 1024 0x61)

/-- A head of 8184 bytes whose last read carries twenty bytes of the tunnel with it. -/
def crossing : Reads where
  chunks := openingReads ++ [List.replicate 1000 0x61 ++ (headTerminator ++ List.replicate 20 0x62)]
  sized := by
    intro chunk hchunk
    rw [List.mem_append, openingReads, List.mem_cons, List.mem_singleton] at hchunk
    obtain (rfl | hfill) | rfl := hchunk
    · decide
    · rw [List.eq_of_mem_replicate hfill, List.length_replicate]
      decide
    · simp only [List.length_append, List.length_replicate]
      decide

theorem openingReads_flatten :
    openingReads.flatten = utf8 "CONNECT a:1 " ++ List.replicate 7168 0x61 := by
  unfold openingReads
  rw [List.flatten_cons, List.flatten_replicate_replicate]

theorem opening_length : opening.length = 8180 := by
  have hline : (utf8 "CONNECT a:1 ").length = 12 := by decide
  rw [opening, List.length_append, List.length_replicate, hline]

theorem crossing_stream :
    crossing.stream = opening ++ (headTerminator ++ List.replicate 20 0x62) := by
  unfold Reads.stream crossing
  rw [List.flatten_append, List.flatten_singleton, openingReads_flatten, opening, List.append_assoc,
    ← List.append_assoc (List.replicate 7168 _), List.replicate_append_replicate,
    ← List.append_assoc]

theorem crossing_arrive : (arrive 8184 [] crossing.chunks).1.length = 8204 := by
  have hline : (utf8 "CONNECT a:1 ").length = 12 := by decide
  have hshort : ([] ++ openingReads.flatten).length < 8184 := by
    rw [List.nil_append, openingReads_flatten, List.length_append, List.length_replicate, hline]
    decide
  rw [crossing, arrive_last hshort, openingReads_flatten]
  simp only [List.length_append, List.length_replicate, List.length_nil, hline]
  rfl

theorem crossing_headEnd : findHeadEnd crossing.stream = some 8180 := by
  have hplain : (13 : UInt8) ∉ opening := by
    rw [opening, List.mem_append, List.mem_replicate]
    decide
  rw [crossing_stream, findHeadEnd, ← opening_length]
  exact Search.find_append_of_head_not_mem hplain

/-- The read that completes this head ends twelve bytes behind the cap, and the tunnel never
sees those bytes. -/
theorem crossing_not_kept : ¬ ∀ r : Reads, Kept r := by
  intro claim
  have hparse : parseConnectLine (crossing.stream.take 8180) = some ("a", 1) := by
    rw [crossing_stream, ← opening_length, List.take_left]
    exact parseConnectLine_padded 8168
  have htarget : requestedTarget crossing.stream = some ("a", 1) :=
    (requestedTarget_eq crossing_headEnd (by decide)).trans hparse
  obtain ⟨pos, hpos, hcap, hrun⟩ := readConnectTarget_of_requested htarget
  obtain ⟨pos', hpos', same⟩ := (claim crossing).whole _ hrun
  cases hpos.symm.trans hpos'
  have hwithin := (tunnel_eq_iff hpos hcap).mp same
  cases hpos.symm.trans crossing_headEnd
  rw [crossing_arrive] at hwithin
  exact absurd hwithin (by decide)

end Arlen.NetGuard
