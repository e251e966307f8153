import Arlen.Trash.Calls

/-!
# Nothing is lost in the trash

What holds along every run of concurrent calls whose sources lie outside the
trash. A sidecar that was not there before belongs to the one call that made it
(`Safe.distinct`, `Safe.sidecars`), so an unlink removes only a call's own; what
stood in the trash before stands there still; and a path elsewhere is emptied only
by the move of a call that then returns its slot.
-/

namespace Arlen.Trash

open Arlen.Lib

variable {trash : FilePath} {before : Tree} {w w' : World}

/-- Call `k`, of request `r`, stands at a stage. -/
def World.At (w : World) (k : Nat) (r : Request) (s : Stage) : Prop := w.calls[k]? = some ⟨r, s⟩

/-- Call `k` has moved its source to the candidate `n`. -/
def HasMoved (w : World) (k : Nat) (r : Request) (n : Nat) : Prop := w.At k r (.moved n)

/-- What stood at the source stands in the slot, but for what another call had
moved out of it first. -/
structure Delivered (trash : FilePath) (before : Tree) (w : World) (k : Nat) (r : Request)
    (n : Nat) : Prop where
  existed : before.node r.source ≠ none
  gone : w.tree.node r.source = none
  fresh : before.node (r.trashed trash n) = none
  entity : w.tree.node (r.trashed trash n) = before.node r.source
  below : ∀ rest, w.tree.node (r.trashed trash n ++ rest) = before.node (r.source ++ rest) ∨
    w.tree.node (r.trashed trash n ++ rest) = none ∧
      ∃ j r' m, j ≠ k ∧ HasMoved w j r' m ∧ r'.source <+: r.source ++ rest

/-- The sidecar of a call's candidate holds the path the call was told to record. -/
def Records (trash : FilePath) (w : World) (r : Request) (n : Nat) : Prop :=
  ∃ secs, w.tree.node (r.info trash n) = some (.file (trashinfoBytes r.recordedPath secs))

/-- What holds of the world after any number of steps, against the tree as it was. -/
structure Safe (trash : FilePath) (before : Tree) (w : World) : Prop where
  outside : ∀ k r s, w.At k r s → Outside trash r.source
  old : ∀ p, InTrash trash p → before.node p ≠ none → w.tree.node p = before.node p
  claimed : ∀ k r s n, w.At k r s → s.claimed = some n →
    before.node (r.info trash n) = none ∧ w.tree.node (r.info trash n) ≠ none
  distinct : ∀ j k r r' s s' n m, w.At j r s → w.At k r' s' →
    s.claimed = some n → s'.claimed = some m → r.candidate n = r'.candidate m → j = k
  sidecars : ∀ p, infoDir trash <+: p → w.tree.node p ≠ none → before.node p ≠ none ∨
    ∃ k r s n, w.At k r s ∧ s.claimed = some n ∧ p = r.info trash n
  recorded : ∀ k r s n, w.At k r s → s = .move n ∨ s = .moved n →
    Records trash w r n
  moved : ∀ k r n, HasMoved w k r n → Delivered trash before w k r n
  elsewhere : ∀ p, Outside trash p → w.tree.node p = before.node p ∨
    w.tree.node p = none ∧ ∃ k r n, HasMoved w k r n ∧ r.source <+: p

theorem safe_init : Safe trash before ⟨before, []⟩ where
  outside := by simp [World.At]
  old := fun _ _ _ => rfl
  claimed := by simp [World.At]
  distinct := by simp [World.At]
  sidecars := fun _ _ h => .inl h
  recorded := by simp [World.At]
  moved := by simp [HasMoved, World.At]
  elsewhere := fun _ _ => .inl rfl

/-! ## One call goes on -/

section GoOn

variable {k : Nat} {r : Request} {s s' : Stage}

/-- The calls once call `k` has gone on from `s` to `s'`. -/
def GoesOn (w w' : World) (k : Nat) (r : Request) (s s' : Stage) : Prop :=
  w.At k r s ∧ w'.calls = w.calls.set k ⟨r, s'⟩

variable {j : Nat} {r' : Request} {q : Stage}

theorem GoesOn.cases (hg : GoesOn w w' k r s s') (h : w'.At j r' q) :
    j = k ∧ r' = r ∧ q = s' ∨ j ≠ k ∧ w.At j r' q := by
  obtain ⟨hk, hcalls⟩ := hg
  rw [World.At, hcalls] at h
  by_cases hjk : j = k
  · subst hjk
    obtain ⟨hlt, -⟩ := List.getElem?_eq_some_iff.1 hk
    rw [List.getElem?_set_self hlt] at h
    cases h
    exact .inl ⟨rfl, rfl, rfl⟩
  · rw [List.getElem?_set_ne (Ne.symm hjk)] at h
    exact .inr ⟨hjk, h⟩

theorem GoesOn.self (hg : GoesOn w w' k r s s') : w'.At k r s' := by
  obtain ⟨hlt, -⟩ := List.getElem?_eq_some_iff.1 hg.1
  rw [World.At, hg.2]
  exact List.getElem?_set_self hlt

theorem GoesOn.other (hg : GoesOn w w' k r s s') (h : w.At j r' q) (hjk : j ≠ k) :
    w'.At j r' q := by
  rw [World.At, hg.2, List.getElem?_set_ne (Ne.symm hjk)]
  exact h

/-- Two stages of one call are one. -/
theorem World.At.unique {r'' : Request} {q' : Stage} (h : w.At j r' q) (h' : w.At j r'' q') :
    r' = r'' ∧ q = q' := by
  have heq := Option.some.inj (h.symm.trans h')
  exact ⟨congrArg Call.request heq, congrArg Call.stage heq⟩

/-- A call that has moved its source takes no further step. -/
theorem GoesOn.hasMoved (hg : GoesOn w w' k r s s') (hs : ∀ n, s ≠ .moved n) {m : Nat}
    (h : HasMoved w j r' m) : HasMoved w' j r' m := by
  refine hg.other h ?_
  rintro rfl
  exact hs m (hg.1.unique h).2

/-- A delivered source stays delivered while its slot and its old place are left alone. -/
theorem Delivered.goOn {m : Nat} (hd : Delivered trash before w j r' m)
    (hg : GoesOn w w' k r s s') (hs : ∀ n, s ≠ .moved n)
    (hslot : ∀ rest, w'.tree.node (r'.trashed trash m ++ rest) =
      w.tree.node (r'.trashed trash m ++ rest))
    (hsource : w'.tree.node r'.source = none) : Delivered trash before w' j r' m where
  existed := hd.existed
  gone := hsource
  fresh := hd.fresh
  entity := by
    have h := hslot []
    rw [List.append_nil] at h
    rw [h, hd.entity]
  below := by
    intro rest
    rw [hslot rest]
    rcases hd.below rest with h | ⟨h, i, r'', l, hij, hm, hp⟩
    · exact .inl h
    · exact .inr ⟨h, i, r'', l, hij, hg.hasMoved hs hm, hp⟩

/-! ## Steps that touch `info/` only -/

/-- What a step that changes nothing but a sidecar of its own, or one that is not
there, does to the tree. -/
structure InfoStep (trash : FilePath) (before : Tree) (w w' : World) (r : Request) (s s' : Stage) :
    Prop where
  frame : ∀ p, ¬ infoDir trash <+: p → w'.tree.node p = w.tree.node p
  info : ∀ p, infoDir trash <+: p → w'.tree.node p = w.tree.node p ∨
    ∃ n, r.info trash n <+: p ∧ (s.claimed = some n ∨ w.tree.node (r.info trash n) = none)
  held : ∀ n, s'.claimed = some n → before.node (r.info trash n) = none ∧
    w'.tree.node (r.info trash n) ≠ none
  made : ∀ n, s'.claimed = some n → s.claimed = some n ∨ w.tree.node (r.info trash n) = none
  left : ∀ p, infoDir trash <+: p → w'.tree.node p ≠ none →
    (w.tree.node p ≠ none ∧ ∀ n, s.claimed = some n → p = r.info trash n → s'.claimed = some n) ∨
      ∃ n, s'.claimed = some n ∧ p = r.info trash n
  recorded : ∀ n, s' = .move n → Records trash w' r n

/-- Another call's sidecar is left as it is. -/
theorem InfoStep.others (hi : InfoStep trash before w w' r s s') (h : Safe trash before w)
    (hg : GoesOn w w' k r s s') (hj : w.At j r' q) (hjk : j ≠ k) {m : Nat}
    (hm : q.claimed = some m) :
    w'.tree.node (r'.info trash m) = w.tree.node (r'.info trash m) := by
  rcases hi.info (r'.info trash m) (List.prefix_append _ _) with hsame | ⟨n, hp, hn⟩
  · exact hsame
  · have hname : r.candidate n = r'.candidate m := infoPath_eq_of_isPrefix hp List.prefix_rfl
    rcases hn with hn | hn
    · exact absurd (h.distinct k j r r' s q n m hg.1 hj hn hm hname) (Ne.symm hjk)
    · have hheld := (h.claimed j r' q m hj hm).2
      rw [Request.info, ← hname] at hheld
      exact absurd hn hheld

theorem Safe.infoStep (h : Safe trash before w) (hg : GoesOn w w' k r s s')
    (hs : ∀ n, s ≠ .moved n) (hs' : ∀ n, s' ≠ .moved n)
    (hi : InfoStep trash before w w' r s s') : Safe trash before w' where
  outside := by
    intro j r' q hj
    rcases hg.cases hj with ⟨-, rfl, -⟩ | ⟨-, hj⟩
    · exact h.outside k _ s hg.1
    · exact h.outside j r' q hj
  old := by
    intro p hp hbefore
    rcases hp with hp | hp
    · rw [hi.frame p fun hinfo => not_files_of_info hinfo hp]
      exact h.old p (.inl hp) hbefore
    · have hsame := h.old p (.inr hp) hbefore
      rcases hi.info p hp with heq | ⟨n, hpre, hn | hn⟩
      · rw [heq, hsame]
      · exact absurd (Tree.none_of_isPrefix (h.claimed k r s n hg.1 hn).1 hpre) hbefore
      · exact absurd (hsame.symm.trans (Tree.none_of_isPrefix hn hpre)) hbefore
  claimed := by
    intro j r' q m hj hm
    rcases hg.cases hj with ⟨-, rfl, rfl⟩ | ⟨hjk, hj⟩
    · exact hi.held m hm
    · rw [hi.others h hg hj hjk hm]
      exact h.claimed j r' q m hj hm
  distinct := by
    -- the claim of the call that went on is its old one, or on a sidecar that was free
    have hown : ∀ j r' q n m, j ≠ k → w.At j r' q → s'.claimed = some n → q.claimed = some m →
        r.candidate n ≠ r'.candidate m := by
      intro j r' q n m hjk hj hn hm hname
      rcases hi.made n hn with hn | hn
      · exact hjk (h.distinct k j r r' s q n m hg.1 hj hn hm hname).symm
      · have hheld := (h.claimed j r' q m hj hm).2
        rw [Request.info, ← hname] at hheld
        exact hheld hn
    intro i j r₁ r₂ q₁ q₂ n m hi' hj hn hm hname
    rcases hg.cases hi' with ⟨rfl, rfl, rfl⟩ | ⟨hik, hi'⟩
    · rcases hg.cases hj with ⟨rfl, -, -⟩ | ⟨hjk, hj⟩
      · rfl
      · exact absurd hname (hown j r₂ q₂ n m hjk hj hn hm)
    · rcases hg.cases hj with ⟨rfl, rfl, rfl⟩ | ⟨-, hj⟩
      · exact absurd hname.symm (hown i r₁ q₁ m n hik hi' hm hn)
      · exact h.distinct i j r₁ r₂ q₁ q₂ n m hi' hj hn hm hname
  sidecars := by
    intro p hp hnode
    rcases hi.left p hp hnode with ⟨hnode, hkeep⟩ | ⟨n, hn, rfl⟩
    · rcases h.sidecars p hp hnode with hold | ⟨j, r', q, n, hj, hn, rfl⟩
      · exact .inl hold
      · by_cases hjk : j = k
        · subst hjk
          obtain ⟨rfl, rfl⟩ := hj.unique hg.1
          exact .inr ⟨j, r', s', n, hg.self, hkeep n hn rfl, rfl⟩
        · exact .inr ⟨j, r', q, n, hg.other hj hjk, hn, rfl⟩
    · exact .inr ⟨k, r, s', n, hg.self, hn, rfl⟩
  recorded := by
    intro j r' q m hj hq
    rcases hg.cases hj with ⟨-, rfl, rfl⟩ | ⟨hjk, hj⟩
    · rcases hq with hq | hq
      · exact hi.recorded m hq
      · exact absurd hq (hs' m)
    · have hm : q.claimed = some m := by
        rcases hq with rfl | rfl
        · rfl
        · rfl
      obtain ⟨secs, hsecs⟩ := h.recorded j r' q m hj hq
      exact ⟨secs, (hi.others h hg hj hjk hm).trans hsecs⟩
  moved := by
    intro j r' m hj
    rcases hg.cases hj with ⟨-, -, heq⟩ | ⟨-, hj⟩
    · exact absurd heq.symm (hs' m)
    · have hd := h.moved j r' m hj
      refine hd.goOn hg hs (fun rest => hi.frame _ fun hinfo => ?_) ?_
      · exact not_files_of_info hinfo ((List.prefix_append _ _).trans (List.prefix_append _ _))
      · rw [hi.frame _ fun hinfo => h.outside j r' _ hj (.inr hinfo)]
        exact hd.gone
  elsewhere := by
    intro p hp
    rw [hi.frame p fun hinfo => hp (.inr hinfo)]
    rcases h.elsewhere p hp with hsame | ⟨hnone, j, r', m, hj, hpre⟩
    · exact .inl hsame
    · exact .inr ⟨hnone, j, r', m, hg.hasMoved hs hj, hpre⟩

/-- A step that leaves the tree alone and the claim as it was. -/
theorem InfoStep.same (h : Safe trash before w) (hg : GoesOn w w' k r s s')
    (htree : w'.tree = w.tree) (hclaim : s'.claimed = s.claimed) (hs' : ∀ n, s' ≠ .move n) :
    InfoStep trash before w w' r s s' where
  frame := fun p _ => by rw [htree]
  info := fun p _ => .inl (by rw [htree])
  held := by
    intro n hn
    rw [htree]
    exact h.claimed k r s n hg.1 (hclaim ▸ hn)
  made := fun n hn => .inl (hclaim ▸ hn)
  left := fun p _ hp => .inl ⟨htree ▸ hp, fun n hn _ => hclaim.trans hn⟩
  recorded := fun n hn => absurd hn (hs' n)

/-- A step that puts the call's sidecar, which it held already or which was free. -/
theorem InfoStep.put (h : Safe trash before w) (hg : GoesOn w w' k r s s') {n : Nat}
    {content : Bytes}
    (hput : w.tree.put (infoDir trash) (r.candidate n ++ ".trashinfo") (.file content) =
      some w'.tree)
    (hfree : s.claimed = some n ∨ s.claimed = none ∧ w.tree.node (r.info trash n) = none)
    (hclaim : s'.claimed = some n)
    (hrec : ∀ m, s' = .move m → ∃ secs, content = trashinfoBytes r.recordedPath secs) :
    InfoStep trash before w w' r s s' := by
  have hself : w'.tree.node (r.info trash n) = some (.file content) := Tree.put_self hput
  have hother : ∀ p, p ≠ r.info trash n → w'.tree.node p = w.tree.node p :=
    fun p hp => Tree.put_other hput hp
  have hfree' : s.claimed = some n ∨ w.tree.node (r.info trash n) = none :=
    hfree.imp id fun hf => hf.2
  refine ⟨fun p hp => hother p ?_, fun p _ => ?_, fun m hm => ?_, fun m hm => ?_,
    fun p _ hp => ?_, fun m hm => ?_⟩
  · rintro rfl
    exact hp (List.prefix_append _ _)
  · by_cases hp : p = r.info trash n
    · exact .inr ⟨n, hp ▸ List.prefix_rfl, hfree'⟩
    · exact .inl (hother p hp)
  · obtain rfl : n = m := Option.some.inj (hclaim.symm.trans hm)
    refine ⟨?_, by simp [hself]⟩
    rcases hfree with hn | ⟨-, hnone⟩
    · exact (h.claimed k r s n hg.1 hn).1
    · -- had it been there before, it would be there now
      by_contra hbefore
      exact hbefore ((h.old _ inTrash_infoPath hbefore).symm.trans hnone)
  · obtain rfl : n = m := Option.some.inj (hclaim.symm.trans hm)
    exact hfree'
  · by_cases hpn : p = r.info trash n
    · exact .inr ⟨n, hclaim, hpn⟩
    · refine .inl ⟨hother p hpn ▸ hp, fun m hm hpm => absurd ?_ hpn⟩
      rcases hfree with hn | ⟨hn, -⟩
      · obtain rfl : n = m := Option.some.inj (hn.symm.trans hm)
        exact hpm
      · rw [hn] at hm
        cases hm
  · obtain ⟨secs, rfl⟩ := hrec m hm
    subst hm
    obtain rfl : m = n := Option.some.inj hclaim
    exact ⟨secs, hself⟩

/-- The unlink of the call's own sidecar. -/
theorem InfoStep.erase {n : Nat} (htree : w'.tree = w.tree.erase (r.info trash n))
    (hn : s.claimed = some n) (hclaim : s'.claimed = none) :
    InfoStep trash before w w' r s s' := by
  have hother : ∀ p, ¬ r.info trash n <+: p → w'.tree.node p = w.tree.node p := by
    intro p hp
    rw [htree]
    exact Tree.erase_other hp
  have hnone : ∀ m, s'.claimed ≠ some m := by simp [hclaim]
  refine ⟨fun p hp => hother p fun hi => ?_, fun p _ => ?_, fun m hm => absurd hm (hnone m),
    fun m hm => absurd hm (hnone m), fun p _ hp => ?_, fun m hm => ?_⟩
  · exact hp ((List.prefix_append _ _).trans hi)
  · by_cases hp : r.info trash n <+: p
    · exact .inr ⟨n, hp, .inl hn⟩
    · exact .inl (hother p hp)
  · have hpn : ¬ r.info trash n <+: p := by
      intro hi
      rw [htree, Tree.erase_below hi] at hp
      exact hp rfl
    refine .inl ⟨hother p hpn ▸ hp, fun m hm hpm => absurd ?_ hpn⟩
    obtain rfl : n = m := Option.some.inj (hn.symm.trans hm)
    exact hpm ▸ List.prefix_rfl
  · subst hm
    cases hclaim

/-! ## The move -/

theorem Safe.move {n : Nat} (h : Safe trash before w) (hg : GoesOn w w' k r (.move n) (.moved n))
    (hdst : w.tree.node (r.trashed trash n) = none) (hsrc : w.tree.node r.source ≠ none)
    (hmove : w.tree.move r.source (filesDir trash) (r.candidate n) = some w'.tree) :
    Safe trash before w' := by
  have hs : ∀ m, Stage.move n ≠ .moved m := fun m hm => Stage.noConfusion hm
  have hout : Outside trash r.source := h.outside k r _ hg.1
  have hclear : ∀ p, InTrash trash p → ¬ r.source <+: p :=
    fun p hp => not_prefix_of_inTrash hout (Tree.move_apart hmove) hp
  -- in the trash, only the slot changes; elsewhere, only the source and what is below it
  have hinfo : ∀ p, infoDir trash <+: p → w'.tree.node p = w.tree.node p := fun p hp =>
    Tree.move_other hmove (hclear p (.inr hp)) (not_trashedPath_prefix_info hp)
  have hfiles : ∀ p, filesDir trash <+: p → ¬ r.trashed trash n <+: p →
      w'.tree.node p = w.tree.node p :=
    fun p hp hnot => Tree.move_other hmove (hclear p (.inl hp)) hnot
  have hslot : ∀ p, Outside trash p → ¬ r.trashed trash n <+: p :=
    fun p hp hpre => hp (.inl ((List.prefix_append _ _).trans hpre))
  have hnode : w.tree.node r.source = before.node r.source := by
    rcases h.elsewhere r.source hout with hsame | ⟨hnone, -⟩
    · exact hsame
    · exact absurd hnone hsrc
  have hbelow : ∀ rest, w'.tree.node (r.trashed trash n ++ rest) = w.tree.node (r.source ++ rest) :=
    Tree.move_below hmove
  have hother : ∀ j r' q m, j ≠ k → w.At j r' q → q.claimed = some m →
      r.candidate n ≠ r'.candidate m := by
    intro j r' q m hjk hj hm hname
    exact hjk (h.distinct k j r r' _ q n m hg.1 hj rfl hm hname).symm
  refine ⟨fun j r' q hj => ?_, fun p hp hbefore => ?_, fun j r' q m hj hm => ?_, ?_,
    fun p hp hp' => ?_, fun j r' q m hj hq => ?_, fun j r' m hj => ?_, fun p hp => ?_⟩
  · rcases hg.cases hj with ⟨-, rfl, -⟩ | ⟨-, hj⟩
    · exact hout
    · exact h.outside j r' q hj
  · have hsame := h.old p hp hbefore
    rcases hp with hp | hp
    · rw [hfiles p hp, hsame]
      intro hpre
      exact hbefore (hsame.symm.trans (Tree.none_of_isPrefix hdst hpre))
    · rw [hinfo p hp, hsame]
  · rw [hinfo (r'.info trash m) (List.prefix_append _ _)]
    rcases hg.cases hj with ⟨-, rfl, rfl⟩ | ⟨-, hj⟩
    · exact h.claimed k r' _ m hg.1 hm
    · exact h.claimed j r' q m hj hm
  · intro i j r₁ r₂ q₁ q₂ m₁ m₂ hi hj h₁ h₂ hname
    rcases hg.cases hi with ⟨rfl, rfl, rfl⟩ | ⟨hik, hi⟩
    · obtain rfl : n = m₁ := Option.some.inj h₁
      rcases hg.cases hj with ⟨rfl, -, -⟩ | ⟨hjk, hj⟩
      · rfl
      · exact absurd hname (hother j r₂ q₂ m₂ hjk hj h₂)
    · rcases hg.cases hj with ⟨rfl, rfl, rfl⟩ | ⟨-, hj⟩
      · obtain rfl : n = m₂ := Option.some.inj h₂
        exact absurd hname.symm (hother i r₁ q₁ m₁ hik hi h₁)
      · exact h.distinct i j r₁ r₂ q₁ q₂ m₁ m₂ hi hj h₁ h₂ hname
  · rw [hinfo p hp] at hp'
    rcases h.sidecars p hp hp' with hold | ⟨j, r', q, m, hj, hm, rfl⟩
    · exact .inl hold
    · by_cases hjk : j = k
      · subst hjk
        obtain ⟨rfl, rfl⟩ := hj.unique hg.1
        exact .inr ⟨j, r', _, m, hg.self, hm, rfl⟩
      · exact .inr ⟨j, r', q, m, hg.other hj hjk, hm, rfl⟩
  · unfold Records
    rw [hinfo (r'.info trash m) (List.prefix_append _ _)]
    rcases hg.cases hj with ⟨-, rfl, rfl⟩ | ⟨-, hj⟩
    · rcases hq with hq | hq
      · cases hq
      · cases hq
        exact h.recorded k r' _ n hg.1 (.inl rfl)
    · exact h.recorded j r' q m hj hq
  · rcases hg.cases hj with ⟨rfl, rfl, heq⟩ | ⟨hjk, hj⟩
    · obtain rfl : m = n := Stage.moved.inj heq
      have hfresh : before.node (r'.trashed trash m) = none := by
        by_contra hbefore
        have hin : InTrash trash (r'.trashed trash m) := .inl (List.prefix_append _ _)
        exact hbefore ((h.old _ hin hbefore).symm.trans hdst)
      have hentity : w'.tree.node (r'.trashed trash m) = before.node r'.source := by
        have hroot := hbelow []
        rw [List.append_nil, List.append_nil] at hroot
        rw [hroot, hnode]
      refine ⟨hnode ▸ hsrc, ?_, hfresh, hentity, fun rest => ?_⟩
      · exact Tree.move_source hmove List.prefix_rfl (hslot _ hout)
      · have hrest : Outside trash (r'.source ++ rest) :=
          fun hin => hclear _ hin (List.prefix_append _ _)
        rw [hbelow rest]
        rcases h.elsewhere _ hrest with hsame | ⟨hnone, i, r'', l, hi, hpre⟩
        · exact .inl hsame
        · refine .inr ⟨hnone, i, r'', l, ?_, hg.hasMoved hs hi, hpre⟩
          rintro rfl
          exact hs l (hg.1.unique hi).2
    · have hd := h.moved j r' m hj
      refine hd.goOn hg hs (fun rest => hfiles _ ?_ fun hpre => ?_) ?_
      · exact (List.prefix_append _ _).trans (List.prefix_append _ _)
      · exact hother j r' _ m hjk hj rfl
          (trashedPath_eq_of_isPrefix hpre (List.prefix_append _ rest))
      · have hout' := h.outside j r' _ hj
        by_cases hpre : r.source <+: r'.source
        · exact Tree.move_source hmove hpre (hslot _ hout')
        · rw [Tree.move_other hmove hpre (hslot _ hout')]
          exact hd.gone
  · by_cases hpre : r.source <+: p
    · exact .inr ⟨Tree.move_source hmove hpre (hslot p hp), k, r, n, hg.self, hpre⟩
    · rw [Tree.move_other hmove hpre (hslot p hp)]
      rcases h.elsewhere p hp with hsame | ⟨hnone, j, r', m, hj, hpre'⟩
      · exact .inl hsame
      · exact .inr ⟨hnone, j, r', m, hg.hasMoved hs hj, hpre'⟩

end GoOn

/-! ## Every run -/

variable {r : Request} {s : Stage} {j : Nat}

/-- A call that has just begun claims nothing. -/
theorem Safe.call (h : Safe trash before w) (hout : Outside trash r.source)
    (htree : w'.tree = w.tree) (hcalls : w'.calls = w.calls ++ [⟨r, r.enter trash 0⟩]) :
    Safe trash before w' := by
  have hback : ∀ j r' s', w'.At j r' s' → w.At j r' s' ∨ r' = r ∧ s' = r.enter trash 0 := by
    intro j r' s' hj
    rw [World.At, hcalls, List.getElem?_append] at hj
    split at hj
    · exact .inl hj
    · right
      have hmem := List.mem_singleton.1 (List.mem_of_getElem? hj)
      exact ⟨congrArg Call.request hmem, congrArg Call.stage hmem⟩
  have hforth : ∀ j r' s', w.At j r' s' → w'.At j r' s' := by
    intro j r' s' hj
    obtain ⟨hlt, -⟩ := List.getElem?_eq_some_iff.1 hj
    rw [World.At, hcalls, List.getElem?_append_left hlt]
    exact hj
  have hclaim : ∀ j r' s' n, w'.At j r' s' → s'.claimed = some n → w.At j r' s' := by
    intro j r' s' n hj hn
    rcases hback j r' s' hj with hj | ⟨-, rfl⟩
    · exact hj
    · rw [claimed_enter] at hn
      cases hn
  refine ⟨fun k r' s' hk => ?_, htree ▸ h.old, fun k r' s' n hk hn => ?_, ?_,
    fun p hp hnode => ?_, fun k r' s' n hk hs => ?_, fun k r' n hk => ?_, fun p hp => ?_⟩
  · rcases hback k r' s' hk with hk | ⟨rfl, -⟩
    · exact h.outside k r' s' hk
    · exact hout
  · rw [htree]
    exact h.claimed k r' s' n (hclaim k r' s' n hk hn) hn
  · intro i k r₁ r₂ s₁ s₂ n m hi hk hn hm hname
    exact h.distinct i k r₁ r₂ s₁ s₂ n m (hclaim i r₁ s₁ n hi hn) (hclaim k r₂ s₂ m hk hm) hn hm
      hname
  · rw [htree] at hnode
    rcases h.sidecars p hp hnode with hold | ⟨k, r', s', n, hk, hn, heq⟩
    · exact .inl hold
    · exact .inr ⟨k, r', s', n, hforth k r' s' hk, hn, heq⟩
  · have hn : s'.claimed = some n := by
      rcases hs with rfl | rfl
      · rfl
      · rfl
    unfold Records
    rw [htree]
    exact h.recorded k r' s' n (hclaim k r' s' n hk hn) hs
  · have hd := h.moved k r' n (hclaim k r' _ n hk rfl)
    refine ⟨hd.existed, htree ▸ hd.gone, hd.fresh, htree ▸ hd.entity, fun rest => ?_⟩
    rw [htree]
    rcases hd.below rest with hsame | ⟨hnone, i, r'', l, hik, hi, hpre⟩
    · exact .inl hsame
    · exact .inr ⟨hnone, i, r'', l, hik, hforth i r'' _ hi, hpre⟩
  · rw [htree]
    rcases h.elsewhere p hp with hsame | ⟨hnone, k, r', n, hk, hpre⟩
    · exact .inl hsame
    · exact .inr ⟨hnone, k, r', n, hforth k r' _ hk, hpre⟩

theorem ne_moved_of_claimed {s : Stage} (h : s.claimed = none) (n : Nat) : s ≠ .moved n := by
  rintro rfl
  cases h

theorem Safe.step (h : Safe trash before w) {a : Action} {u : Unit}
    (hok : SourcesOutside trash w a) (hs : w.step trash a = some (u, w')) :
    Safe trash before w' := by
  rcases step_cases hs with ⟨r, rfl, rfl⟩ | ⟨k, r, s, s', hk, hm, hcalls⟩
  · exact h.call hok rfl rfl
  have hg : GoesOn w w' k r s s' := ⟨hk, hcalls⟩
  generalize ht : w'.tree = t' at hm
  cases hm with
  | idle hn hn' =>
    refine h.infoStep hg (ne_moved_of_claimed hn) (ne_moved_of_claimed hn')
      (.same h hg ht (hn'.trans hn.symm) ?_)
    rintro n rfl
    cases hn'
  | reserve hnone hput =>
    exact h.infoStep hg (by simp) (by simp)
      (.put h hg (ht ▸ hput) (.inr ⟨rfl, hnone⟩) rfl (by simp))
  | record hput hnext =>
    rcases hnext with ⟨rfl, secs, rfl⟩ | ⟨a, rfl⟩
    · exact h.infoStep hg (by simp) (by simp)
        (.put h hg (ht ▸ hput) (.inl rfl) rfl fun _ _ => ⟨secs, rfl⟩)
    · exact h.infoStep hg (by simp) (by simp) (.put h hg (ht ▸ hput) (.inl rfl) rfl (by simp))
  | moved hdst hsrc hmove => exact h.move hg hdst hsrc (ht ▸ hmove)
  | refused => exact h.infoStep hg (by simp) (by simp) (.same h hg ht rfl (by simp))
  | unlink hn' =>
    exact h.infoStep hg (by simp) (ne_moved_of_claimed hn') (.erase ht rfl hn')

theorem safe_of_run {τ : List (Action × Unit)}
    (h : (machine trash before).Run (SourcesOutside trash) τ w) : Safe trash before w :=
  h.inv (I := fun _ w => Safe trash before w) safe_init fun hi hok hs => hi.step hok hs

/-- Call `k`, of request `r`, has returned. -/
def World.Returned (trash : FilePath) (w : World) (k : Nat) (r : Request)
    (res : Except TrashError TrashSlot) : Prop :=
  ∃ c, w.calls[k]? = some c ∧ c.request = r ∧ c.result trash = some res

/-- What the callers of a trash rely on, against the tree as it was. -/
structure NothingLost (trash : FilePath) (before : Tree) (w : World) : Prop where
  /-- No file or sidecar present before is overwritten or removed. -/
  kept : ∀ p, InTrash trash p → before.node p ≠ none → w.tree.node p = before.node p
  /-- A call that returned its slot has moved its source there, whole but for what
  another such call had taken out of it, and its sidecar records its path. -/
  moved : ∀ k r slot, w.Returned trash k r (.ok slot) →
    (∃ name, slot = ⟨trashedPath trash name, infoPath trash name⟩) ∧
      before.node r.source ≠ none ∧ w.tree.node r.source = none ∧
      w.tree.node slot.trashed = before.node r.source ∧
      (∀ rest, w.tree.node (slot.trashed ++ rest) = before.node (r.source ++ rest) ∨
        w.tree.node (slot.trashed ++ rest) = none ∧ ∃ j r' slot', j ≠ k ∧
          w.Returned trash j r' (.ok slot') ∧ r'.source <+: r.source ++ rest) ∧
      ∃ secs, w.tree.node slot.trashInfo = some (.file (trashinfoBytes r.recordedPath secs))
  /-- Two calls that returned their slots have two names. -/
  distinct : ∀ j k r r' slot slot', j ≠ k → w.Returned trash j r (.ok slot) →
    w.Returned trash k r' (.ok slot') → slot.trashed ≠ slot'.trashed
  /-- A call that failed leaves its source in place: what is gone of it went with
  a call that returned its slot. -/
  untouched : ∀ k r e, w.Returned trash k r (.error e) → ∀ p, r.source <+: p →
    before.node p ≠ none → w.tree.node p = before.node p ∨
      ∃ j r' slot, w.Returned trash j r' (.ok slot) ∧ r'.source <+: p
  /-- A sidecar that was not there before is the one a call holds at its candidate; a
  call that failed holds none. -/
  sidecars : ∀ p, infoDir trash <+: p → before.node p = none → w.tree.node p ≠ none →
    ∃ j r s n, w.At j r s ∧ s.claimed = some n ∧ p = r.info trash n

theorem World.Returned.ok {slot : TrashSlot} (h : w.Returned trash j r (.ok slot)) :
    ∃ n, HasMoved w j r n ∧ slot = ⟨r.trashed trash n, r.info trash n⟩ := by
  obtain ⟨⟨r', s⟩, hj, rfl, hres⟩ := h
  cases s with
  | moved n =>
    cases hres
    exact ⟨n, hj, rfl⟩
  | _ => cases hres

theorem HasMoved.returned {n : Nat} (h : HasMoved w j r n) :
    w.Returned trash j r (.ok ⟨r.trashed trash n, r.info trash n⟩) := ⟨_, h, rfl, rfl⟩

/-- **Nothing is lost**, whatever the interleaving, the candidates and the failures
of any number of calls whose sources lie outside the trash. -/
theorem concurrent_trash_loses_nothing {τ : List (Action × Unit)}
    (h : (machine trash before).Run (SourcesOutside trash) τ w) :
    NothingLost trash before w := by
  have hsafe := safe_of_run h
  refine ⟨hsafe.old, fun k r slot hk => ?_, ?_, fun k r e _ p _ hbefore => ?_,
    fun p hp hbefore hnode => ?_⟩
  · obtain ⟨n, hn, rfl⟩ := hk.ok
    have hd := hsafe.moved k r n hn
    refine ⟨⟨_, rfl⟩, hd.existed, hd.gone, hd.entity, fun rest => ?_,
      hsafe.recorded k r _ n hn (.inr rfl)⟩
    rcases hd.below rest with hsame | ⟨hnone, j, r', m, hjk, hm, hpre⟩
    · exact .inl hsame
    · exact .inr ⟨hnone, j, r', _, hjk, hm.returned, hpre⟩
  · intro j k r r' slot slot' hjk hj hk heq
    obtain ⟨n, hn, rfl⟩ := hj.ok
    obtain ⟨m, hm, rfl⟩ := hk.ok
    exact hjk (hsafe.distinct j k r r' _ _ n m hn hm rfl rfl (trashedPath_inj heq))
  · by_cases hp : InTrash trash p
    · exact .inl (hsafe.old p hp hbefore)
    · rcases hsafe.elsewhere p hp with hsame | ⟨-, j, r', m, hm, hpre⟩
      · exact .inl hsame
      · exact .inr ⟨j, r', _, hm.returned, hpre⟩
  · exact (hsafe.sidecars p hp hnode).resolve_left (not_not.2 hbefore)

/-- A home with one file, and an empty trash. -/
def home : Tree :=
  ((((Tree.root.put [] "t" .dir).bind (·.put ["t"] "files" .dir)).bind
    (·.put ["t"] "info" .dir)).bind (·.put [] "x" (.file [120]))).getD .root

def trashX : Request := ⟨⟨"x", by decide⟩, ["x"], "/x"⟩

/-- A home with two files of one name, and an empty trash. -/
def homeTwo : Tree :=
  ((home.put [] "d" .dir).bind (·.put ["d"] "x" (.file [121]))).getD .root

def trashOther : Request := ⟨⟨"x", by decide⟩, ["d", "x"], "/d/x"⟩

/-- Two calls race for one name; the one that comes second cannot move its file. -/
def raceForName : List Action :=
  [.call trashX, .call trashOther, .create 0 .created, .create 1 .alreadyExists,
    .write 0 (.written 0), .create 1 .created, .write 1 (.written 0), .rename 0 (.ok ()),
    .rename 1 (.error .crossDevice), .unlink 1]

theorem concurrent_trash_loses_nothing_two :
    ∃ τ w, (machine ["t"] homeTwo).Run (SourcesOutside ["t"]) τ w ∧
      w.Returned ["t"] 0 trashX (.ok ⟨["t", "files", "x"], ["t", "info", "x.trashinfo"]⟩) ∧
      w.Returned ["t"] 1 trashOther (.error .crossDevice) ∧
      NothingLost ["t"] homeTwo w := by
  have hsome : ((machine ["t"] homeTwo).exec (SourcesOutside ["t"]) ⟨homeTwo, []⟩
      raceForName).isSome = true := rfl
  obtain ⟨⟨τ, w⟩, hexec⟩ := Option.isSome_iff_exists.1 hsome
  have hfirst : ((machine ["t"] homeTwo).exec (SourcesOutside ["t"]) ⟨homeTwo, []⟩
      raceForName).bind (fun x => x.2.calls[0]?) = some ⟨trashX, .moved 0⟩ := rfl
  have hsecond : ((machine ["t"] homeTwo).exec (SourcesOutside ["t"]) ⟨homeTwo, []⟩
      raceForName).bind (fun x => x.2.calls[1]?) = some ⟨trashOther, .failed .crossDevice⟩ := rfl
  rw [hexec] at hfirst hsecond
  have hrun := Machine.run_of_exec hexec
  exact ⟨τ, w, hrun, ⟨_, hfirst, rfl, rfl⟩, ⟨_, hsecond, rfl, rfl⟩,
    concurrent_trash_loses_nothing hrun⟩

/-- A request to trash the sidecar of the first one. -/
def trashSidecar : Request :=
  ⟨⟨"y", by decide⟩, ["t", "info", "x.trashinfo"], "/t/info/x.trashinfo"⟩

/-- The second call takes the first one's sidecar away before its move. -/
def sidecarTaken : List Action :=
  [.call trashX, .create 0 .created, .write 0 (.written 0), .call trashSidecar,
    .create 1 .created, .write 1 (.written 0), .rename 1 (.ok ()), .rename 0 (.ok ())]

/-- A call whose source is itself a sidecar in the trash leaves another call's slot
without one. -/
theorem source_in_trash_loses_sidecar :
    ¬ ∀ (trash : FilePath) (before : Tree) (τ : List (Action × Unit)) (w : World),
      (machine trash before).Run Machine.anyStep τ w → NothingLost trash before w := by
  intro h
  have hsome : ((machine ["t"] home).exec Machine.anyStep ⟨home, []⟩ sidecarTaken).isSome = true :=
    rfl
  obtain ⟨⟨τ, w⟩, hexec⟩ := Option.isSome_iff_exists.1 hsome
  have hcall : ((machine ["t"] home).exec Machine.anyStep ⟨home, []⟩ sidecarTaken).bind
      (fun x => x.2.calls[0]?) = some ⟨trashX, .moved 0⟩ := rfl
  have hgone : ((machine ["t"] home).exec Machine.anyStep ⟨home, []⟩ sidecarTaken).map
      (fun x => x.2.tree.node ["t", "info", "x.trashinfo"]) = some none := rfl
  rw [hexec] at hcall hgone
  have hret : w.Returned ["t"] 0 trashX
      (.ok ⟨["t", "files", "x"], ["t", "info", "x.trashinfo"]⟩) := ⟨_, hcall, rfl, rfl⟩
  obtain ⟨-, -, -, -, -, secs, hsecs⟩ :=
    (h _ _ τ w (Machine.run_of_exec hexec)).moved 0 trashX _ hret
  have hnone : w.tree.node ["t", "info", "x.trashinfo"] = none := Option.some.inj hgone
  exact absurd (hnone.symm.trans hsecs) (by simp)

end Arlen.Trash
