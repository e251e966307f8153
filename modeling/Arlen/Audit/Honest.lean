import Arlen.Audit.Chain
import Arlen.Audit.Daemon

/-!
# What the daemon keeps true of its disk

`World.Honest D ss w`: the table is the chain of the submissions `ss`, and the
head in memory is that of some first part of it. Every step keeps this, for `ss`
or for `ss` and the submission it was given (`Honest.step`); a step that changes
the checkpoint file leaves it at the newest entry.
-/

namespace Arlen.Audit

open Arlen.Lib

/-- The submission a step may append. -/
def offered (D : DaemonDeps) (w : World) : Action → Option Submission
  | .record actor body now _ => w.proc.bind fun p => (accept D p actor body now).toOption
  | _ => none

/-- The checkpoint of a head, as startup reseeds it. -/
def Head.checkpoint (h : Head) : Option Checkpoint :=
  h.forCheckpoint.map fun x => { index := x.1, entryHashHex := x.2 }

/-- The checkpoint a step may write. -/
def toWrite (D : DaemonDeps) (w : World) : Action → Option Checkpoint
  | .record actor body now io => w.proc.bind fun p =>
    (accept D p actor body now).toOption.map fun s =>
      (p.head.sealEntry D.toDeps s).checkpoint io.attest.hexText
  | .start _ => w.disk.table.loadHead.toOption.bind Head.checkpoint
  | .crash => none

/-- The checkpoint names the last entry of the chain. -/
def AtTop (D : DaemonDeps) (ss : List Submission) (cp : Checkpoint) : Prop :=
  ∃ e, (sealAll D.toDeps .genesis ss).getLast? = some e ∧ cp.index = e.index ∧
    cp.entryHashHex = hex e.entryHash.bytes

section

variable {D : DaemonDeps} {ss : List Submission} {s : Submission} {disk disk' : Disk} {k : Nat}

/-- An `INSERT` at a head of the chain goes through only at its end. -/
theorem insertRow_rowsOf (ht : disk.table = rowsOf D.toDeps .genesis ss)
    (hsize : ss.length ≤ maxRows) (hk : k ≤ ss.length)
    (h : disk.insertRow (Row.ofEntry D.toDeps
      ((Head.genesis.after D.toDeps (ss.take k)).sealEntry D.toDeps s)) = .ok disk') :
    k = ss.length ∧ ss.length < maxRows ∧
      disk' = { disk with table := rowsOf D.toDeps .genesis (ss ++ [s]) } := by
  have hmax : maxRows < 2 ^ 63 := by decide
  unfold Disk.insertRow Table.insert at h
  split at h
  · next t hins =>
    split at hins
    · cases hins
    · next hfresh =>
      split at hins
      · cases hins
      · next hroom =>
        cases hins
        cases h
        -- a row with this key is there already unless the head is the last one
        have hkl : k = ss.length := by
          by_contra hne
          have hlt : k < (rowsOf D.toDeps .genesis ss).length := by
            rw [length_rowsOf]; omega
          have hidx := idx_of_getElem? (by simp only [Head.genesis]; omega)
            (List.getElem?_eq_getElem hlt)
          rw [ht] at hfresh
          refine hfresh (List.any_eq_true.2 ⟨_, List.getElem_mem hlt, ?_⟩)
          rw [hidx]
          simp only [Row.ofEntry, Head.sealEntry, Head.after_nextIndex, List.length_take,
            Nat.min_eq_left hk, Head.genesis, Nat.zero_add, beq_iff_eq]
          exact (asI64_of_lt (by omega)).symm
        refine ⟨hkl, by rw [ht, length_rowsOf] at hroom; omega, ?_⟩
        rw [ht, hkl, List.take_length, rowsOf_append]
        rfl
  · cases h

end

namespace World

structure Honest (D : DaemonDeps) (ss : List Submission) (w : World) : Prop where
  table : w.disk.table = rowsOf D.toDeps .genesis ss
  entries : w.sealed = sealAll D.toDeps .genesis ss
  size : ss.length ≤ maxRows
  proc : ∀ p ∈ w.proc, ∃ k ≤ ss.length, p.head = Head.genesis.after D.toDeps (ss.take k)

variable {D : DaemonDeps} {ss : List Submission} {w w' : World} {a : Action} {rep : Reply}

theorem Honest.loadHead (hw : Honest D ss w) :
    w.disk.table.loadHead = .ok (Head.genesis.after D.toDeps ss) := by
  have hmax : maxRows < 2 ^ 63 := by decide
  have := hw.size
  rw [hw.table]
  exact loadHead_rowsOf (by omega)

/-- A reseed serves from its head and writes no checkpoint but that head's. -/
theorem reseed_frame {disk disk' : Disk} {head : Head} {io : Write AuditError}
    {proc : Option Process} (h : reseed D disk head io = (rep, disk', proc)) :
    (∀ p ∈ proc, p.head = head) ∧ (∀ i, rep ≠ .response (.appended i)) ∧
      (disk' = disk ∨ ∃ cp, head.checkpoint = some cp ∧
        disk' = { disk with checkpoint := some (D.checkpoint.toStr cp) }) := by
  unfold reseed at h
  split at h
  · cases h; exact ⟨by simp, by simp, .inl rfl⟩
  · next i hx hhead =>
    have hcp : head.checkpoint = some { index := i, entryHashHex := hx } := by
      simp [Head.checkpoint, hhead]
    split at h
    · next d hrun =>
      cases Write.run_done hrun
      cases h
      exact ⟨by simp, by simp, .inr ⟨_, hcp, rfl⟩⟩
    · next e d hrun =>
      cases h
      refine ⟨by simp, by simp, (Write.run_failed hrun).imp id fun hw => ?_⟩
      cases hw
      exact ⟨_, hcp, rfl⟩
    · next d hrun =>
      cases h
      refine ⟨by simp, by simp, (Write.run_crashed hrun).imp id fun hw => ?_⟩
      cases hw
      exact ⟨_, hcp, rfl⟩

/-- Startup serves from the head it loaded and writes no checkpoint but that
head's. -/
theorem startup_frame {disk disk' : Disk} {io : Write AuditError} {proc : Option Process}
    (h : startup D disk io = (rep, disk', proc)) :
    (∀ p ∈ proc, disk.table.loadHead = .ok p.head) ∧ (∀ i, rep ≠ .response (.appended i)) ∧
      (disk' = disk ∨ ∃ head cp, disk.table.loadHead = .ok head ∧ head.checkpoint = some cp ∧
        disk' = { disk with checkpoint := some (D.checkpoint.toStr cp) }) := by
  unfold startup at h
  split at h
  · cases h; exact ⟨by simp, by simp, .inl rfl⟩
  · next head hhead =>
    split at h
    · cases h; exact ⟨by simp [hhead], by simp, .inl rfl⟩
    · cases h; exact ⟨by simp, by simp, .inl rfl⟩
    · split at h
      · cases h; exact ⟨by simp, by simp, .inl rfl⟩
      · obtain ⟨hp, hrep, hdisk⟩ := reseed_frame h
        refine ⟨fun p hm => by rw [hp p hm, hhead], hrep, hdisk.imp id ?_⟩
        rintro ⟨cp, hcp, rfl⟩
        exact ⟨head, cp, hhead, hcp, rfl⟩
      · cases h; exact ⟨by simp [hhead], by simp, .inl rfl⟩
      · cases h; exact ⟨by simp [hhead], by simp, .inl rfl⟩

/-- The checkpoint of a chain's head names its last entry. -/
theorem atTop_checkpoint {cp : Checkpoint}
    (h : (Head.genesis.after D.toDeps ss).checkpoint = some cp) : AtTop D ss cp := by
  unfold Head.checkpoint Head.forCheckpoint at h
  split at h
  · cases h
  · next hne =>
    cases h
    have hss : ss ≠ [] := by
      rintro rfl
      exact hne rfl
    obtain ⟨e, he, hp, hi⟩ := Head.after_prevHash (D := D.toDeps) (h := .genesis) hss
    exact ⟨e, he, by simp only; omega, by rw [hp]⟩

theorem Honest.start (hw : Honest D ss w) {io : Write AuditError}
    (h : w.step D (.start io) = some (rep, w')) :
    Honest D ss w' ∧ (∀ i, rep ≠ .response (.appended i)) ∧
      (w'.disk.checkpoint = w.disk.checkpoint ∨
        ∃ cp ∈ toWrite D w (.start io), AtTop D ss cp ∧
          w'.disk.checkpoint = some (D.checkpoint.toStr cp)) := by
  obtain ⟨_, disk, proc, hstart, rfl⟩ := start_cases h
  obtain ⟨hproc, hrep, hdisk⟩ := startup_frame hstart
  have hload := hw.loadHead
  refine ⟨⟨?_, hw.entries, hw.size, fun p hp => ?_⟩, hrep, ?_⟩
  · rcases hdisk with rfl | ⟨_, _, _, _, rfl⟩
    · exact hw.table
    · exact hw.table
  · have heq := (hproc p hp).symm.trans hload
    exact ⟨ss.length, Nat.le_refl _, by rw [List.take_length, Except.ok.inj heq]⟩
  · rcases hdisk with rfl | ⟨head, cp, hl, hcp, rfl⟩
    · exact .inl rfl
    · have hhead := Except.ok.inj (hl.symm.trans hload)
      refine .inr ⟨cp, ?_, atTop_checkpoint (hhead ▸ hcp), rfl⟩
      simp only [toWrite, hl, Except.toOption, Option.bind_some]
      exact hcp

theorem sealAll_snoc (D : Deps) (ss : List Submission) (s : Submission) :
    sealAll D .genesis (ss ++ [s]) =
      sealAll D .genesis ss ++ [(Head.genesis.after D ss).sealEntry D s] := by
  rw [sealAll_append]
  rfl

/-- The row of the next submission went in: the chain is one longer. -/
theorem Honest.snoc (hw : Honest D ss w) {p : Process} {s : Submission} {disk : Disk}
    {proc : Option Process} (hroom : ss.length < maxRows)
    (hhead : p.head = Head.genesis.after D.toDeps ss)
    (htable : disk.table = rowsOf D.toDeps .genesis (ss ++ [s]))
    (hproc : ∀ q ∈ proc, q.head = p.head ∨ q.head = p.head.advance D.toDeps s) :
    Honest D (ss ++ [s]) (w.appended D p s disk proc) := by
  have hgrew : disk.table ≠ w.disk.table := by
    intro heq
    have := congrArg List.length heq
    rw [htable, hw.table, length_rowsOf, length_rowsOf] at this
    simp at this
  refine ⟨htable, ?_, by simpa using Nat.succ_le_of_lt hroom, fun q hq => ?_⟩
  · simp only [appended, hgrew, ↓reduceIte, hw.entries, hhead, sealAll_snoc]
  · rcases hproc q hq with h | h
    · exact ⟨ss.length, by simp, by simp [h, hhead]⟩
    · refine ⟨ss.length + 1, by simp, ?_⟩
      rw [h, hhead, List.take_of_length_le (by simp), Head.after_append]
      rfl

theorem Honest.record (hw : Honest D ss w) {actor body : String} {now : Int} {io : AppendIo}
    (h : w.step D (.record actor body now io) = some (rep, w')) :
    ∃ ts, Honest D (ss ++ ts) w' ∧ (∀ s ∈ ts, s ∈ offered D w (.record actor body now io)) ∧
      (w'.disk.checkpoint = w.disk.checkpoint ∧ (∀ i, rep ≠ .response (.appended i)) ∨
        ∃ cp ∈ toWrite D w (.record actor body now io), AtTop D (ss ++ ts) cp ∧
          w'.disk.checkpoint = some (D.checkpoint.toStr cp) ∧
          ∀ i, rep = .response (.appended i) → i = cp.index) := by
  obtain ⟨p, hp, ⟨reason, rfl, rfl⟩ | ⟨s, a, proc, hacc, happ, rfl, hproc, hrep⟩⟩ := record_cases h
  · exact ⟨[], by simpa using hw, by simp, .inl ⟨rfl, by simp⟩⟩
  obtain ⟨k, hk, hhead⟩ := hw.proc p hp
  have hoff : s ∈ offered D w (.record actor body now io) := by
    simp [offered, hp, hacc, Except.toOption]
  rcases append_cases happ with ⟨hdisk, hah, hres⟩ | ⟨disk', hins, hah, hdisk⟩
  · -- nothing was written
    refine ⟨[], ⟨?_, ?_, by simpa using hw.size, ?_⟩, by simp, .inl ⟨?_, ?_⟩⟩
    · simpa [appended, hdisk] using hw.table
    · simpa [appended, hdisk] using hw.entries
    · intro q hq
      rw [hproc q hq, List.append_nil]
      exact ⟨k, hk, by simp only [hah, hhead]⟩
    · simp [appended, hdisk]
    · exact fun i hi => hres i (hrep i hi)
  · -- the row went in, so the head in memory was the last one
    rw [hhead] at hins
    obtain ⟨rfl, hroom, rfl⟩ := insertRow_rowsOf hw.table hw.size hk hins
    rw [List.take_length] at hhead
    have hproc' : ∀ q ∈ proc, q.head = p.head ∨ q.head = p.head.advance D.toDeps s :=
      fun q hq => by rw [hproc q hq]; exact hah
    refine ⟨[s], ?_, by simpa using hoff, ?_⟩
    · refine hw.snoc hroom hhead ?_ hproc'
      rcases hdisk with ⟨hd, _⟩ | ⟨hd, _⟩ <;> rw [hd]
    · rcases hdisk with ⟨hd, hres⟩ | ⟨hd, hres⟩
      · refine .inl ⟨by simp [appended, hd], fun i hi => hres i (hrep i hi)⟩
      · refine .inr ⟨(p.head.sealEntry D.toDeps s).checkpoint io.attest.hexText, ?_, ?_, ?_, ?_⟩
        · simp [toWrite, hp, hacc, Except.toOption]
        · exact ⟨p.head.sealEntry D.toDeps s, by simp [sealAll_snoc, hhead], rfl, rfl⟩
        · simp [appended, hd]
        · exact fun i hi => hres i (hrep i hi)

/-- **Every step keeps the disk honest.** The chain stays or grows by the
submission offered; the checkpoint file stays or is put at the top of the
chain; an append is acknowledged only in the second case, with that index. -/
theorem Honest.step (hw : Honest D ss w) (h : w.step D a = some (rep, w')) :
    ∃ ts, Honest D (ss ++ ts) w' ∧ (∀ s ∈ ts, s ∈ offered D w a) ∧
      (w'.disk.checkpoint = w.disk.checkpoint ∧ (∀ i, rep ≠ .response (.appended i)) ∨
        ∃ cp ∈ toWrite D w a, AtTop D (ss ++ ts) cp ∧
          w'.disk.checkpoint = some (D.checkpoint.toStr cp) ∧
          ∀ i, rep = .response (.appended i) → i = cp.index) := by
  cases a with
  | start io =>
    obtain ⟨hw', hrep, hcp⟩ := hw.start h
    refine ⟨[], by simpa using hw', by simp, ?_⟩
    rcases hcp with hcp | ⟨cp, hm, htop, hcp⟩
    · exact .inl ⟨hcp, hrep⟩
    · exact .inr ⟨cp, hm, by simpa using htop, hcp, fun i hi => absurd hi (hrep i)⟩
  | record actor body now io => exact hw.record h
  | crash =>
    cases h
    refine ⟨[], ⟨?_, ?_, ?_, by simp⟩, by simp, .inl ⟨rfl, by simp⟩⟩
    · simpa using hw.table
    · simpa using hw.entries
    · simpa using hw.size

end World

theorem honest_of_run {D : DaemonDeps} {ok : World → Action → Prop} {τ : List (Action × Reply)}
    {w : World} (h : (daemon D).Run ok τ w) : ∃ ss, w.Honest D ss := by
  refine h.inv (I := fun _ w => ∃ ss, w.Honest D ss)
    ⟨[], rfl, rfl, Nat.zero_le _, by simp [daemon]⟩ ?_
  rintro τ w a rep w' ⟨ss, hw⟩ _ hs
  obtain ⟨ts, hw', _⟩ := hw.step hs
  exact ⟨_, hw'⟩

end Arlen.Audit
