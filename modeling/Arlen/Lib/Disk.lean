import Mathlib.Data.List.Basic
import Mathlib.Data.List.Dedup
import Arlen.Lib.Bytes

/-!
# Directory entries and the loss of power

A `Disk` says what every entry is now, and what else it may turn out to be after a loss
of power: every change is remembered until the directory it was made in is synced. An
entry that `Stays` is there whatever happens, one that is `Gone` is not. Both are read
with or without losses of power in mind: where none can happen (`lossy` false) only what
stands there now counts.
-/

namespace Arlen.Lib

/-- Entries `β` at places `κ`. Only the `known` places ever had one. -/
structure Disk (κ β : Type) where
  live : κ → Option β
  old : κ → List (Option β)
  known : List κ
  nodup : known.Nodup
  unknown : ∀ k, k ∉ known → live k = none ∧ ∀ v ∈ old k, v = none

namespace Disk

variable {κ β : Type} {d : Disk κ β} {k k' : κ} {v : Option β} {b : β} {lossy : Prop}

def empty : Disk κ β := ⟨fun _ => none, fun _ => [], [], .nil, fun _ _ => ⟨rfl, nofun⟩⟩

section Changes

variable [DecidableEq κ]

/-- An entry is made, replaced or removed; its directory is not synced yet. -/
def set (d : Disk κ β) (k : κ) (v : Option β) : Disk κ β where
  live := fun q => if q = k then v else d.live q
  old := fun q => if q = k then d.live k :: d.old k else d.old q
  known := d.known.insert k
  nodup := d.nodup.insert
  unknown := by
    intro q hq
    rw [List.mem_insert_iff, not_or] at hq
    rw [if_neg hq.1, if_neg hq.1]
    exact d.unknown q hq.2

/-- What an entry stands for changes, the entry does not. -/
def alter (d : Disk κ β) (k : κ) (f : β → β) : Disk κ β where
  live := fun q => if q = k then (d.live k).map f else d.live q
  old := d.old
  known := d.known
  nodup := d.nodup
  unknown := by
    intro q hq
    refine ⟨?_, (d.unknown q hq).2⟩
    split
    · next h => rw [← h, (d.unknown q hq).1, Option.map_none]
    · exact (d.unknown q hq).1

end Changes

/-- The entries of a directory are written down. -/
def sync (d : Disk κ β) (inside : κ → Bool) : Disk κ β where
  live := d.live
  old := fun q => if inside q then [] else d.old q
  known := d.known
  nodup := d.nodup
  unknown := by
    intro q hq
    refine ⟨(d.unknown q hq).1, ?_⟩
    split
    · exact nofun
    · exact (d.unknown q hq).2

/-- The entries there are, of the places asked for. -/
def listed (d : Disk κ β) (inside : κ → Bool) : List κ :=
  d.known.filter fun k => inside k && (d.live k).isSome

/-- What an entry is found to be: the `n`-th thing it was, from now backwards. -/
def pick (d : Disk κ β) (k : κ) : Nat → Option β
  | 0 => d.live k
  | n + 1 => ((d.old k)[n]?).getD (d.live k)

theorem pick_eq_or_mem (d : Disk κ β) (k : κ) (n : Nat) :
    d.pick k n = d.live k ∨ d.pick k n ∈ d.old k := by
  cases n with
  | zero => exact .inl rfl
  | succ n =>
    show ((d.old k)[n]?).getD (d.live k) = d.live k ∨ ((d.old k)[n]?).getD (d.live k) ∈ d.old k
    cases h : (d.old k)[n]? with
    | none => exact .inl rfl
    | some v => exact .inr (List.mem_of_getElem? h)

/-- Power is lost. An entry is what it is now or was since its directory was synced; it is
out of reach where a directory above it is gone; and what it stands for may have suffered. -/
def lose (d : Disk κ β) (above : κ → List κ) (found : κ → Nat) (spoil : κ → β → β) : Disk κ β where
  live := fun k =>
    if ∀ q ∈ above k, (d.pick q (found q)).isSome then (d.pick k (found k)).map (spoil k) else none
  old := fun _ => []
  known := d.known
  nodup := d.nodup
  unknown := by
    intro k hk
    refine ⟨?_, nofun⟩
    have hnone : d.pick k (found k) = none := by
      rcases d.pick_eq_or_mem k (found k) with h | h
      · rw [h, (d.unknown k hk).1]
      · exact (d.unknown k hk).2 _ h
    rw [hnone, Option.map_none, ite_self]

/-! ## What each change does -/

section

variable [DecidableEq κ] {f : β → β} {inside : κ → Bool}

@[simp] theorem live_set_self : (d.set k v).live k = v := if_pos rfl

@[simp] theorem live_set_of_ne (h : k' ≠ k) : (d.set k v).live k' = d.live k' := if_neg h

@[simp] theorem old_set_self : (d.set k v).old k = d.live k :: d.old k := if_pos rfl

@[simp] theorem old_set_of_ne (h : k' ≠ k) : (d.set k v).old k' = d.old k' := if_neg h

@[simp] theorem live_alter_self : (d.alter k f).live k = (d.live k).map f := if_pos rfl

@[simp] theorem live_alter_of_ne (h : k' ≠ k) : (d.alter k f).live k' = d.live k' := if_neg h

@[simp] theorem old_alter : (d.alter k f).old k' = d.old k' := rfl

omit [DecidableEq κ] in
@[simp] theorem live_sync : (d.sync inside).live k = d.live k := rfl

omit [DecidableEq κ] in
theorem old_sync_of_inside (h : inside k = true) : (d.sync inside).old k = [] := if_pos h

omit [DecidableEq κ] in
theorem old_sync_of_outside (h : inside k = false) : (d.sync inside).old k = d.old k :=
  if_neg (ne_true_of_eq_false h)

omit [DecidableEq κ] in
theorem mem_of_mem_old_sync (h : v ∈ (d.sync inside).old k) : v ∈ d.old k := by
  cases hin : inside k with
  | false => rwa [old_sync_of_outside hin] at h
  | true =>
    rw [old_sync_of_inside hin] at h
    cases h

omit [DecidableEq κ] in
theorem mem_listed : k ∈ d.listed inside ↔ inside k = true ∧ d.live k ≠ none := by
  unfold listed
  rw [List.mem_filter, Bool.and_eq_true, Option.isSome_iff_ne_none]
  refine ⟨fun h => h.2, fun h => ⟨?_, h⟩⟩
  by_contra hk
  exact h.2 (d.unknown k hk).1

omit [DecidableEq κ] in
end

/-! ## What a loss of power leaves -/

/-- There whatever happens, as long as its directories are. -/
def Stays (lossy : Prop) (d : Disk κ β) (k : κ) : Prop :=
  d.live k ≠ none ∧ (lossy → none ∉ d.old k)

/-- Not there whatever happens. -/
def Gone (lossy : Prop) (d : Disk κ β) (k : κ) : Prop :=
  d.live k = none ∧ (lossy → ∀ v ∈ d.old k, v = none)

/-- All an entry may be found to be has the property. -/
def Always (lossy : Prop) (d : Disk κ β) (k : κ) (P : β → Prop) : Prop :=
  ∀ b, d.live k = some b ∨ (lossy ∧ some b ∈ d.old k) → P b

variable {above : κ → List κ} {found : κ → Nat} {spoil : κ → β → β} {P : β → Prop}

theorem Stays.pick (hl : lossy) (h : d.Stays lossy k) (n : Nat) : d.pick k n ≠ none := by
  rcases d.pick_eq_or_mem k n with hp | hp
  · rw [hp]
    exact h.1
  · intro hnone
    rw [hnone] at hp
    exact h.2 hl hp

theorem Gone.pick (hl : lossy) (h : d.Gone lossy k) (n : Nat) : d.pick k n = none := by
  rcases d.pick_eq_or_mem k n with hp | hp
  · rw [hp]
    exact h.1
  · exact h.2 hl _ hp

theorem Always.pick (hl : lossy) (h : d.Always lossy k P) {n : Nat} (hb : d.pick k n = some b) :
    P b := by
  rcases d.pick_eq_or_mem k n with hp | hp
  · exact h b (.inl (hp ▸ hb))
  · exact h b (.inr ⟨hl, hb ▸ hp⟩)

theorem live_lose : (d.lose above found spoil).live k =
    if ∀ q ∈ above k, (d.pick q (found q)).isSome then (d.pick k (found k)).map (spoil k)
    else none := rfl

theorem pick_of_live_lose (h : (d.lose above found spoil).live k = some b) :
    (∀ q ∈ above k, d.pick q (found q) ≠ none) ∧
      ∃ c, d.pick k (found k) = some c ∧ b = spoil k c := by
  rw [live_lose] at h
  split at h
  · next habove =>
    obtain ⟨c, hc, rfl⟩ := Option.map_eq_some_iff.1 h
    exact ⟨fun q hq => Option.isSome_iff_ne_none.1 (habove q hq), c, hc, rfl⟩
  · cases h

/-- **What stays is there after a loss of power.** -/
theorem Stays.lose (hl : lossy) (h : d.Stays lossy k) (habove : ∀ q ∈ above k, d.Stays lossy q) :
    (d.lose above found spoil).Stays lossy k := by
  refine ⟨?_, fun _ => nofun⟩
  rw [live_lose, if_pos fun q hq => Option.isSome_iff_ne_none.2 ((habove q hq).pick hl _)]
  simpa using h.pick hl (found k)

theorem Gone.lose (hl : lossy) (h : d.Gone lossy k) : (d.lose above found spoil).Gone lossy k := by
  refine ⟨?_, fun _ => nofun⟩
  rw [live_lose, h.pick hl, Option.map_none, ite_self]

theorem Always.lose (hl : lossy) (h : d.Always lossy k P) (hspoil : ∀ b, P b → P (spoil k b)) :
    (d.lose above found spoil).Always lossy k P := by
  rintro b (hb | ⟨-, hb⟩)
  · obtain ⟨-, c, hc, rfl⟩ := pick_of_live_lose hb
    exact hspoil c (h.pick hl hc)
  · cases hb

/-! ## What other changes leave -/

section

variable [DecidableEq κ] {f : β → β} {inside : κ → Bool}

theorem stays_set_of_ne (h : k' ≠ k) : (d.set k v).Stays lossy k' ↔ d.Stays lossy k' := by
  unfold Stays
  rw [live_set_of_ne h, old_set_of_ne h]

/-- Putting something in the place of what stays. -/
theorem Stays.set (h : d.Stays lossy k') : (d.set k (some b)).Stays lossy k' := by
  by_cases hk : k' = k
  · subst hk
    refine ⟨by simp, fun hl hmem => ?_⟩
    rw [old_set_self, List.mem_cons] at hmem
    exact hmem.elim (fun hlive => h.1 hlive.symm) (h.2 hl)
  · exact (stays_set_of_ne hk).2 h

theorem Always.set (h : d.Always lossy k P) (hv : ∀ b, v = some b → P b) :
    (d.set k v).Always lossy k P := by
  rintro b (hb | ⟨hl, hb⟩)
  · exact hv b (by rwa [live_set_self] at hb)
  · rw [old_set_self, List.mem_cons] at hb
    rcases hb with hb | hb
    · exact h b (.inl hb.symm)
    · exact h b (.inr ⟨hl, hb⟩)

theorem stays_alter : (d.alter k f).Stays lossy k' ↔ d.Stays lossy k' := by
  unfold Stays
  rw [old_alter]
  by_cases h : k' = k
  · subst h
    simp
  · rw [live_alter_of_ne h]

theorem gone_alter : (d.alter k f).Gone lossy k' ↔ d.Gone lossy k' := by
  unfold Gone
  rw [old_alter]
  by_cases h : k' = k
  · subst h
    simp
  · rw [live_alter_of_ne h]

omit [DecidableEq κ] in
theorem Stays.sync (h : d.Stays lossy k) : (d.sync inside).Stays lossy k :=
  ⟨h.1, fun hl hmem => h.2 hl (mem_of_mem_old_sync hmem)⟩

omit [DecidableEq κ] in
theorem Gone.sync (h : d.Gone lossy k) : (d.sync inside).Gone lossy k :=
  ⟨h.1, fun hl v hmem => h.2 hl v (mem_of_mem_old_sync hmem)⟩

omit [DecidableEq κ] in
theorem Always.sync (h : d.Always lossy k P) : (d.sync inside).Always lossy k P := by
  rintro b (hb | ⟨hl, hb⟩)
  · exact h b (.inl hb)
  · exact h b (.inr ⟨hl, mem_of_mem_old_sync hb⟩)

omit [DecidableEq κ] in
/-- **A synced directory is what it is.** -/
theorem stays_sync_of_inside (hin : inside k = true) (h : d.live k ≠ none) :
    (d.sync inside).Stays lossy k := by
  refine ⟨h, fun _ hmem => ?_⟩
  rw [old_sync_of_inside hin] at hmem
  cases hmem

omit [DecidableEq κ] in
theorem gone_sync_of_inside (hin : inside k = true) (h : d.live k = none) :
    (d.sync inside).Gone lossy k := by
  refine ⟨h, fun _ v hmem => ?_⟩
  rw [old_sync_of_inside hin] at hmem
  cases hmem

end

end Disk

end Arlen.Lib
