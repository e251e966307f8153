import Arlen.Audit.Restart

/-!
# What a verified table can be

An editor without the key can put into the hash columns only what appends made.
Then a table that verifies is a first part of the chain the appends built: the
index the verifier checks is part of the hashed string, so each reused hash is
pinned to its own place.
-/

namespace Arlen.Audit

open Arlen.Lib

section

variable {D : Deps}

/-- Every hash in the table is one that an append made. -/
def ReusesHashes (D : Deps) (es : List AuditEntry) (t : Table) : Prop :=
  ∀ r ∈ t, ∀ e, decodeRow D r = .ok e → ∃ e₀ ∈ es, e.entryHash = e₀.entryHash

/-- The keyed hash has no collision between a string of the table and one that
an append hashed. -/
def CollisionFree (D : Deps) (es : List AuditEntry) (t : Table) : Prop :=
  ∀ r ∈ t, ∀ e, decodeRow D r = .ok e → ∀ e₀ ∈ es,
    D.mac (e.hashed D) = D.mac (e₀.hashed D) → e.hashed D = e₀.hashed D

/-- What the walk has checked of every row it passed. -/
theorem verifyFrom_ok {rows : List Row} {h : Head} {n : Nat}
    (hv : Table.verifyFrom D rows h = .ok n) :
    n = h.nextIndex + rows.length ∧ ∀ i r, rows[i]? = some r →
      ∃ e, decodeRow D r = .ok e ∧ e.index = h.nextIndex + i ∧ D.mac (e.hashed D) = e.entryHash := by
  induction rows generalizing h with
  | nil =>
    cases hv
    exact ⟨rfl, by simp⟩
  | cons row rows ih =>
    simp only [Table.verifyFrom, bind, Except.bind] at hv
    split at hv
    · cases hv
    · next e he =>
      split at hv
      · cases hv
      · next hidx =>
        split at hv
        · cases hv
        · split at hv
          · cases hv
          · next hmac =>
            obtain ⟨hn, hrest⟩ := ih hv
            simp only at hn hrest
            refine ⟨by rw [hn, List.length_cons]; omega, fun i r hr => ?_⟩
            cases i with
            | zero =>
              cases hr
              exact ⟨e, he, by simpa using hidx, by simpa using hmac⟩
            | succ i =>
              obtain ⟨e', he', hi', hm'⟩ := hrest i r (by simpa using hr)
              exact ⟨e', he', by rw [hi']; omega, hm'⟩

/-- An entry of a chain is hashed over its own string, at its own place. -/
theorem mem_sealAll {ss : List Submission} {e : AuditEntry} (he : e ∈ sealAll D .genesis ss) :
    e.index < ss.length ∧ (sealAll D .genesis ss)[e.index]? = some e ∧
      e.entryHash = D.mac (e.hashed D) := by
  obtain ⟨i, hi⟩ := List.mem_iff_getElem?.1 he
  have hidx : e.index = i := by simpa [Head.genesis] using index_of_getElem? hi
  refine ⟨?_, by rw [hidx, hi], ?_⟩
  · rw [hidx]
    simpa using (List.getElem?_eq_some_iff.1 hi).1
  · rw [getElem?_sealAll] at hi
    obtain ⟨s, _, rfl⟩ := Option.map_eq_some_iff.1 hi
    rfl

end

/-- **A verified table is a prefix of the chain.** Take any ledger the daemon
built, under any faults, and any table of rows. If its hashes are reused and
collide with none of the chain's strings, and it verifies to `n`, then it has
`n` rows, the chain has at least `n` entries, and row `i` hashes the very string
that the append of entry `i` hashed. -/
theorem verified_is_prefix {D : DaemonDeps} {τ : List (Action × Reply)} {w : World}
    (h : (daemon D).Run Machine.anyStep τ w) {t : Table} {n : Nat}
    (hreuse : ReusesHashes D.toDeps w.sealed t) (hfree : CollisionFree D.toDeps w.sealed t)
    (hv : t.verify D.toDeps = .ok n) :
    n = t.length ∧ n ≤ w.sealed.length ∧ ∀ i < n, ∃ r e e₀, t.ordered[i]? = some r ∧
      decodeRow D.toDeps r = .ok e ∧ w.sealed[i]? = some e₀ ∧
      e.hashed D.toDeps = e₀.hashed D.toDeps := by
  obtain ⟨ss, hw⟩ := honest_of_run h
  have hmax : maxRows < 2 ^ 64 := by decide
  have hsize := hw.size
  obtain ⟨hn, hrows⟩ := verifyFrom_ok hv
  have hlen : t.ordered.length = t.length := List.length_insertionSort _ _
  -- row `i` sits at place `i` of the chain
  have hplace : ∀ i < n, ∃ r e e₀, t.ordered[i]? = some r ∧ decodeRow D.toDeps r = .ok e ∧
      w.sealed[i]? = some e₀ ∧ e.hashed D.toDeps = e₀.hashed D.toDeps := by
    intro i hi
    have hi' : i < t.ordered.length := by simpa [hn, Head.genesis] using hi
    have hr := List.getElem?_eq_getElem hi'
    have hmem : t.ordered[i] ∈ t := (List.mem_insertionSort _).1 (List.getElem_mem hi')
    obtain ⟨e, he, hidx, hmac⟩ := hrows i _ hr
    obtain ⟨e₀, he₀, hhash⟩ := hreuse _ hmem e he
    obtain ⟨hlt, hat, hmac₀⟩ := mem_sealAll (hw.entries ▸ he₀)
    have hsame := hfree _ hmem e he e₀ he₀ (by rw [hmac, hhash, hmac₀])
    have hindex : e.index = e₀.index := by
      refine hashedBytes_index ?_ (by omega) hsame
      rw [decodeRow_index he]
      exact asU64_lt _
    have hi₀ : e₀.index = i := by
      rw [← hindex, hidx]
      simp [Head.genesis]
    exact ⟨_, e, e₀, hr, he, by rw [hw.entries, ← hi₀, hat], hsame⟩
  refine ⟨by rw [hn, hlen]; simp [Head.genesis], ?_, hplace⟩
  rcases Nat.eq_zero_or_pos n with h0 | hpos
  · omega
  · obtain ⟨_, _, _, _, _, hlast, _⟩ := hplace (n - 1) (by omega)
    have := (List.getElem?_eq_some_iff.1 hlast).1
    omega

/-- The entry of the small ledger with its absent call chain id made empty, an
edit the hash does not see. -/
def editedCall : AuditEntry :=
  { Head.genesis.sealEntry smallDeps firstCall with callChainId := some "" }

theorem editedCall_decode :
    decodeRow smallDeps (Row.ofEntry smallDeps editedCall) = .ok editedCall :=
  decodeRow_ofEntry (by decide) ⟨serdeOf_roundTrips _ _, by simp [editedCall, Head.sealEntry,
    firstCall, toolCall, IngestRequest.submission]⟩

theorem editedCall_hashed : editedCall.hashed smallDeps =
    hashedBytes smallDeps Head.genesis.nextIndex firstCall Head.genesis.prevHash := by
  rfl

/-- A table of one row that decodes to the first entry of a chain. -/
theorem verify_single {D : Deps} {r : Row} {e : AuditEntry} (he : decodeRow D r = .ok e)
    (hindex : e.index = Head.genesis.nextIndex) (hprev : e.prevHash = Head.genesis.prevHash)
    (hmac : D.mac (e.hashed D) = e.entryHash) : Table.verify D [r] = .ok 1 := by
  simp only [Table.verify, Table.ordered, List.insertionSort_cons, List.insertionSort_nil,
    List.orderedInsert_nil, Table.verifyFrom, he, bind, Except.bind, hmac, hprev, hindex, ne_eq,
    not_true_eq_false, ↓reduceIte]
  rfl

/-- That edit passes the verifier, and the row still hashes the entry's string. -/
theorem verified_is_prefix_edited : ∃ τ w e₀, (daemon smallDaemon).Run Machine.anyStep τ w ∧
    Table.verify smallDeps [Row.ofEntry smallDeps editedCall] = .ok 1 ∧
      w.sealed[0]? = some e₀ ∧ editedCall.hashed smallDeps = e₀.hashed smallDeps := by
  obtain ⟨τ, w, hrun, _, _, hs⟩ := smallDaemon_recorded
  have hv : Table.verify smallDaemon.toDeps [Row.ofEntry smallDeps editedCall] = .ok 1 := by
    exact verify_single editedCall_decode rfl rfl (congrArg smallDeps.mac editedCall_hashed)
  have hany : (daemon smallDaemon).Run Machine.anyStep τ w :=
    Machine.Run.weaken (fun _ _ _ => trivial) hrun
  obtain ⟨_, _, hpre⟩ := verified_is_prefix hany
    (t := [Row.ofEntry smallDeps editedCall]) (n := 1)
    (by
      intro r hr e he
      rw [List.mem_singleton.1 hr, show smallDaemon.toDeps = smallDeps from rfl,
        editedCall_decode] at he
      cases he
      exact ⟨Head.genesis.sealEntry smallDeps firstCall, hs ▸ List.mem_cons_self, rfl⟩)
    (by
      intro r hr e he e₀ he₀ _
      rw [List.mem_singleton.1 hr, show smallDaemon.toDeps = smallDeps from rfl,
        editedCall_decode] at he
      cases he
      rw [hs] at he₀
      cases List.mem_singleton.1 he₀
      exact editedCall_hashed) hv
  obtain ⟨r, e, e₀, hr, he, hat, hsame⟩ := hpre 0 Nat.one_pos
  cases hr
  rw [show smallDaemon.toDeps = smallDeps from rfl, editedCall_decode] at he
  cases he
  exact ⟨τ, w, e₀, hany, hv, hat, hsame⟩

end Arlen.Audit
