import Arlen.Audit.Checkpoint

/-!
# The chain a ledger builds

`sealAll D h ss` is what appending the submissions `ss` from the head `h` makes.
Stored as rows it reads back entry by entry, it verifies, its head is the one
the appends left in memory, and the hash lookup finds each of its entries.
-/

namespace Arlen.Audit

open Arlen.Lib

/-- The entries that successive appends make. -/
def sealAll (D : Deps) : Head → List Submission → List AuditEntry
  | _, [] => []
  | h, s :: ss => h.sealEntry D s :: sealAll D (h.advance D s) ss

/-- The head they leave. -/
def Head.after (D : Deps) (h : Head) (ss : List Submission) : Head := ss.foldl (Head.advance D) h

section

variable {D : Deps} {h : Head} {s : Submission} {ss ts : List Submission}

@[simp] theorem length_sealAll : (sealAll D h ss).length = ss.length := by
  induction ss generalizing h with
  | nil => rfl
  | cons s ss ih => simp [sealAll, ih]

theorem sealAll_append :
    sealAll D h (ss ++ ts) = sealAll D h ss ++ sealAll D (h.after D ss) ts := by
  induction ss generalizing h with
  | nil => rfl
  | cons s ss ih => simp [sealAll, Head.after, ih]

theorem Head.after_append : h.after D (ss ++ ts) = (h.after D ss).after D ts := by
  simp [Head.after]

@[simp] theorem Head.after_nextIndex : (h.after D ss).nextIndex = h.nextIndex + ss.length := by
  induction ss generalizing h with
  | nil => rfl
  | cons s ss ih =>
    rw [Head.after, List.foldl_cons, ← Head.after, ih]
    simp only [Head.advance, List.length_cons]
    omega

/-- Each entry is the submission at its place, sealed at the head before it. -/
theorem getElem?_sealAll (i : Nat) :
    (sealAll D h ss)[i]? = ss[i]?.map fun s => (h.after D (ss.take i)).sealEntry D s := by
  induction ss generalizing h i with
  | nil => simp [sealAll]
  | cons s ss ih =>
    cases i with
    | zero => simp [sealAll, Head.after]
    | succ i => simp [sealAll, ih, Head.after]

theorem index_of_getElem? {i : Nat} {e : AuditEntry} (he : (sealAll D h ss)[i]? = some e) :
    e.index = h.nextIndex + i := by
  rw [getElem?_sealAll] at he
  obtain ⟨s, hs, rfl⟩ := Option.map_eq_some_iff.1 he
  have hi : i < ss.length := (List.getElem?_eq_some_iff.1 hs).1
  simp only [Head.sealEntry, Head.after_nextIndex, List.length_take]
  omega

/-- The head's hash is that of the last entry. -/
theorem Head.after_prevHash (hne : ss ≠ []) :
    ∃ e, (sealAll D h ss).getLast? = some e ∧ (h.after D ss).prevHash = e.entryHash ∧
      e.index + 1 = (h.after D ss).nextIndex := by
  obtain ⟨ts, s, rfl⟩ : ∃ ts s, ss = ts ++ [s] := ⟨_, _, (List.dropLast_append_getLast hne).symm⟩
  refine ⟨(h.after D ts).sealEntry D s, ?_, ?_, ?_⟩
  · simp [sealAll_append, sealAll]
  · simp [Head.after, Head.advance]
  · simp [Head.after, Head.advance, Head.sealEntry]

/-! ## Stored as rows -/

/-- The serialisers of a submission's records undo themselves on it. -/
def Submission.RoundTrips (D : Deps) (s : Submission) : Prop :=
  D.structural.RoundTrips s.structural ∧ ∀ f ∈ s.forensic, D.forensic.RoundTrips f

theorem getOptString_map (column : String) (o : Option String) :
    SqlValue.getOptString column (o.map .text) = .ok o := by
  cases o <;> rfl

@[simp] theorem toHash_bytes (d : Digest) : toHash d.bytes = .ok d := by
  simp [toHash]

theorem decodeForensic_map {o : Option ForensicRecord}
    (h : ∀ f ∈ o, D.forensic.RoundTrips f) :
    decodeForensic D (o.map D.forensic.toStr) = .ok o := by
  cases o with
  | none => rfl
  | some f =>
    have hf : D.forensic.fromStr (D.forensic.toStr f) = .ok f := h f rfl
    simp [decodeForensic, hf]

/-- A stored entry reads back as itself. -/
theorem decodeRow_ofEntry {e : AuditEntry} (hi : e.index < 2 ^ 63)
    (hrt : e.toSubmission.RoundTrips D) : decodeRow D (Row.ofEntry D e) = .ok e := by
  have hidx : asU64 (asI64 e.index) = e.index := by
    rw [asI64_of_lt hi, asU64_ofNat (by omega)]
  have hst : D.structural.fromStr (D.structural.toStr e.structural) = .ok e.structural := hrt.1
  have hfor : (Row.ofEntry D e).forensic = (e.forensic.map D.forensic.toStr).map .text := by
    simp [Row.ofEntry, Function.comp_def]
  unfold decodeRow
  rw [hfor]
  simp only [Row.ofEntry, SqlValue.getInt, SqlValue.getString, SqlValue.getBytes,
    getOptString_map, decodeForensic_map hrt.2, AuditKind.fromWire_asStr, hst, hidx, toHash_bytes,
    bind, Except.bind, pure, Except.pure]

/-- Whatever a row decodes to, its place is the row's key. -/
theorem decodeRow_index {row : Row} {e : AuditEntry} (h : decodeRow D row = .ok e) :
    e.index = asU64 row.idx := by
  unfold decodeRow at h
  simp only [bind, Except.bind, pure, Except.pure] at h
  repeat' split at h
  all_goals cases h
  rfl

/-- The rows of a chain, as the table stores them. -/
def rowsOf (D : Deps) (h : Head) (ss : List Submission) : Table :=
  (sealAll D h ss).map (Row.ofEntry D)

@[simp] theorem length_rowsOf : (rowsOf D h ss).length = ss.length := by
  simp [rowsOf]

theorem rowsOf_append :
    rowsOf D h (ss ++ ts) = rowsOf D h ss ++ rowsOf D (h.after D ss) ts := by
  simp [rowsOf, sealAll_append]

/-- The row at each place has that place as its key. -/
theorem idx_of_getElem? (hb : h.nextIndex + ss.length ≤ 2 ^ 63) {i : Nat} {r : Row}
    (hr : (rowsOf D h ss)[i]? = some r) : r.idx = (h.nextIndex + i : Nat) := by
  rw [rowsOf, List.getElem?_map] at hr
  obtain ⟨e, he, rfl⟩ := Option.map_eq_some_iff.1 hr
  have hi : i < ss.length := by simpa using (List.getElem?_eq_some_iff.1 he).1
  simp only [Row.ofEntry, index_of_getElem? he]
  exact asI64_of_lt (by omega)

theorem map_idx_rowsOf (hb : h.nextIndex + ss.length ≤ 2 ^ 63) :
    (rowsOf D h ss).map Row.idx =
      (List.range ss.length).map fun i => ((h.nextIndex + i : Nat) : Int) := by
  refine List.ext_getElem (by simp) fun i h1 h2 => ?_
  simp only [List.getElem_map, List.getElem_range]
  exact idx_of_getElem? hb (List.getElem?_eq_getElem _)

/-- A chain's rows are already in key order. -/
theorem ordered_rowsOf (hb : h.nextIndex + ss.length ≤ 2 ^ 63) :
    (rowsOf D h ss).ordered = rowsOf D h ss := by
  refine List.Pairwise.insertionSort_eq ?_
  rw [← List.pairwise_map (f := Row.idx) (R := (· ≤ ·)), map_idx_rowsOf hb]
  refine List.pairwise_map.2 (List.pairwise_lt_range.imp fun hlt => ?_)
  omega

/-! ## The chain verifies -/

theorem verifyFrom_rowsOf (hb : h.nextIndex + ss.length ≤ 2 ^ 63)
    (hrt : ∀ s ∈ ss, s.RoundTrips D) :
    Table.verifyFrom D (rowsOf D h ss) h = .ok (h.nextIndex + ss.length) := by
  induction ss generalizing h with
  | nil => rfl
  | cons s ss ih =>
    have hlen : h.nextIndex + (ss.length + 1) ≤ 2 ^ 63 := by simpa using hb
    have hdec : decodeRow D (Row.ofEntry D (h.sealEntry D s)) = .ok (h.sealEntry D s) :=
      decodeRow_ofEntry (by simp only [Head.sealEntry]; omega) (hrt s List.mem_cons_self)
    have hrec := @ih (h.advance D s) (by simp only [Head.advance]; omega)
      fun t ht => hrt t (List.mem_cons_of_mem _ ht)
    show Table.verifyFrom D (Row.ofEntry D (h.sealEntry D s) :: rowsOf D (h.advance D s) ss) h = _
    simp only [Table.verifyFrom, hdec, bind, Except.bind]
    simp only [Head.sealEntry, AuditEntry.hashed, computeEntryHash, ne_eq, not_true_eq_false,
      ↓reduceIte]
    refine hrec.trans ?_
    simp only [Head.advance, List.length_cons]
    congr 1
    omega

/-- **An honest table verifies**, to its number of rows. -/
theorem verify_rowsOf (hb : ss.length ≤ 2 ^ 63) (hrt : ∀ s ∈ ss, s.RoundTrips D) :
    (rowsOf D .genesis ss).verify D = .ok ss.length := by
  have hb' : Head.genesis.nextIndex + ss.length ≤ 2 ^ 63 := by simpa [Head.genesis] using hb
  rw [Table.verify, ordered_rowsOf hb', verifyFrom_rowsOf hb' hrt]
  simp [Head.genesis]

/-- The head read back from the table is the one the appends left. -/
theorem loadHead_rowsOf (hb : ss.length < 2 ^ 63) :
    (rowsOf D .genesis ss).loadHead = .ok (Head.genesis.after D ss) := by
  have hb' : Head.genesis.nextIndex + ss.length ≤ 2 ^ 63 := by simpa [Head.genesis] using hb.le
  rw [Table.loadHead, ordered_rowsOf hb']
  by_cases hne : ss = []
  · subst hne; rfl
  · obtain ⟨e, he, hp, hi⟩ := Head.after_prevHash (D := D) (h := .genesis) hne
    have hlast : (rowsOf D .genesis ss).getLast? = some (Row.ofEntry D e) := by
      rw [rowsOf, List.getLast?_map, he]; rfl
    have hlt : e.index + 1 < 2 ^ 63 := by
      rw [hi, Head.after_nextIndex]
      simpa [Head.genesis] using hb
    simp only [hlast, Row.ofEntry, SqlValue.getBytes, toHash_bytes, bind, Except.bind, pure,
      Except.pure, asI64_of_lt (show e.index < 2 ^ 63 by omega)]
    rw [asU64_ofNat (by omega), Nat.mod_eq_of_lt (by omega), hi, ← hp]

/-- The lookup finds the entry at each place, and nothing elsewhere. -/
theorem entryHashHexAt_rowsOf (hb : ss.length ≤ 2 ^ 63) {i : Nat} (hi : i < 2 ^ 63) :
    (rowsOf D .genesis ss).entryHashHexAt i =
      .ok ((sealAll D .genesis ss)[i]?.map fun e => hex e.entryHash.bytes) := by
  have hidx : ∀ {j : Nat} {r : Row}, (rowsOf D .genesis ss)[j]? = some r → r.idx = j := by
    intro j r hr
    have := idx_of_getElem? (by simpa [Head.genesis] using hb) hr
    simpa [Head.genesis] using this
  have hfind : (rowsOf D .genesis ss).find? (fun r => r.idx == asI64 i) =
      (rowsOf D .genesis ss)[i]? := by
    rw [asI64_of_lt hi]
    cases hr : (rowsOf D .genesis ss)[i]? with
    | none =>
      refine List.find?_eq_none.2 fun r hr' heq => ?_
      obtain ⟨j, hj⟩ := List.mem_iff_getElem?.1 hr'
      have hji : j = i := by
        have := hidx hj
        simp only [beq_iff_eq] at heq
        omega
      rw [hji, hr] at hj
      cases hj
    | some r =>
      obtain ⟨hlt, hget⟩ := List.getElem?_eq_some_iff.1 hr
      refine List.find?_eq_some_iff_getElem.2 ⟨by simp [hidx hr], i, hlt, hget, fun j hj => ?_⟩
      have := hidx (List.getElem?_eq_getElem (Nat.lt_trans hj hlt))
      simp only [this, Bool.not_eq_eq_eq_not, Bool.not_true, beq_eq_false_iff_ne, ne_eq]
      omega
  rw [Table.entryHashHexAt, hfind, rowsOf, List.getElem?_map]
  cases (sealAll D .genesis ss)[i]? with
  | none => rfl
  | some e => rfl

end

end Arlen.Audit
