import Arlen.Lib.Bytes

/-!
# A tree of files

A path is the list of its components; a tree says what stands at each path, and
nothing stands below a path where nothing stands. `put`, `erase` and `move` are
what `open`, `unlink` and `rename` do to it, each with what it leaves alone.
-/

namespace Arlen.Lib

abbrev FilePath := List String

inductive Node where
  | dir
  | file (content : Bytes)
deriving DecidableEq, Repr

structure Tree where
  node : FilePath → Option Node
  closed : ∀ p q, node (p ++ q) ≠ none → node p ≠ none

namespace Tree

variable {t t' : Tree} {dir p q src : FilePath} {name : String} {b : Node}

theorem none_below (h : t.node p = none) (q : FilePath) : t.node (p ++ q) = none :=
  not_not.1 fun hq => t.closed p q hq h

theorem none_of_isPrefix (h : t.node p = none) (hq : p <+: q) : t.node q = none := by
  obtain ⟨r, rfl⟩ := hq
  exact none_below h r

theorem some_of_isPrefix (h : t.node q ≠ none) (hp : p <+: q) : t.node p ≠ none := by
  obtain ⟨r, rfl⟩ := hp
  exact t.closed p r h

/-- What is a prefix of an entry of a directory is the entry, or leads to the directory. -/
theorem prefix_entry (h : p <+: dir ++ [name]) : p = dir ++ [name] ∨ p <+: dir :=
  List.prefix_concat_iff.1 h

/-- The tree of one empty directory. -/
def root : Tree where
  node := fun p => if p = [] then some .dir else none
  closed := by
    intro p q h
    by_cases hpq : p ++ q = []
    · simp [(List.append_eq_nil_iff.1 hpq).1]
    · simp [hpq] at h

/-- Put a file or directory at an entry of an existing directory. -/
def put (t : Tree) (dir : FilePath) (name : String) (b : Node) : Option Tree :=
  if h : t.node dir ≠ none then
    some {
      node := fun q => if q = dir ++ [name] then some b else t.node q
      closed := by
        intro p q hpq
        by_cases hp : p = dir ++ [name]
        · simp [hp]
        · rw [if_neg hp]
          by_cases heq : p ++ q = dir ++ [name]
          · have hpre : p <+: dir ++ [name] := ⟨q, heq⟩
            exact some_of_isPrefix h ((prefix_entry hpre).resolve_left hp)
          · rw [if_neg heq] at hpq
            exact t.closed p q hpq }
  else none

/-- Remove what stands at a path, and below it. -/
def erase (t : Tree) (p : FilePath) : Tree where
  node := fun q => if p <+: q then none else t.node q
  closed := by
    intro u v huv
    by_cases h : p <+: u ++ v
    · simp [h] at huv
    · have hu : ¬ p <+: u := fun hu => h (hu.trans (List.prefix_append u v))
      rw [if_neg h] at huv
      rw [if_neg hu]
      exact t.closed u v huv

/-- Move what stands at `src`, and below it, to an entry of an existing directory
that is not below `src`. -/
def move (t : Tree) (src dir : FilePath) (name : String) : Option Tree :=
  if h : t.node dir ≠ none ∧ ¬ src <+: dir ++ [name] then
    some {
      node := fun q =>
        if dir ++ [name] <+: q then t.node (src ++ q.drop (dir ++ [name]).length)
        else if src <+: q then none
        else t.node q
      closed := by
        intro u v huv
        by_cases hu : dir ++ [name] <+: u
        · have huv' : dir ++ [name] <+: u ++ v := hu.trans (List.prefix_append u v)
          rw [if_pos huv'] at huv
          rw [if_pos hu]
          refine t.closed _ v ?_
          rwa [List.append_assoc, ← List.drop_append_of_le_length hu.length_le]
        · rw [if_neg hu]
          by_cases huv' : dir ++ [name] <+: u ++ v
          · -- `u` leads to the directory
            have hpre : u <+: dir ++ [name] := by
              rcases List.prefix_or_prefix_of_prefix (List.prefix_append u v) huv' with h | h
              · exact h
              · exact absurd h hu
            have hsrc : ¬ src <+: u := fun hs => h.2 (hs.trans hpre)
            rw [if_neg hsrc]
            rcases prefix_entry hpre with heq | hdir
            · exact absurd (heq ▸ List.prefix_rfl) hu
            · exact some_of_isPrefix h.1 hdir
          · rw [if_neg huv'] at huv
            by_cases hs : src <+: u ++ v
            · simp [hs] at huv
            · have hsu : ¬ src <+: u := fun hsu => hs (hsu.trans (List.prefix_append u v))
              rw [if_neg hs] at huv
              rw [if_neg hsu]
              exact t.closed u v huv }
  else none

theorem put_self (h : t.put dir name b = some t') : t'.node (dir ++ [name]) = some b := by
  unfold put at h
  split at h
  · cases h
    simp
  · cases h

theorem put_other (h : t.put dir name b = some t') (hp : p ≠ dir ++ [name]) :
    t'.node p = t.node p := by
  unfold put at h
  split at h
  · cases h
    exact if_neg hp
  · cases h

theorem erase_below (h : p <+: q) : (t.erase p).node q = none := if_pos h

theorem erase_other (h : ¬ p <+: q) : (t.erase p).node q = t.node q := if_neg h

theorem move_apart (h : t.move src dir name = some t') : ¬ src <+: dir ++ [name] := by
  unfold move at h
  split at h
  · next hc => exact hc.2
  · cases h

theorem move_below (h : t.move src dir name = some t') (q : FilePath) :
    t'.node (dir ++ [name] ++ q) = t.node (src ++ q) := by
  unfold move at h
  split at h
  · cases h
    simp
  · cases h

theorem move_source (h : t.move src dir name = some t') (hq : src <+: q)
    (hdst : ¬ dir ++ [name] <+: q) : t'.node q = none := by
  unfold move at h
  split at h
  · cases h
    simp only [if_neg hdst, if_pos hq]
  · cases h

theorem move_other (h : t.move src dir name = some t') (hsrc : ¬ src <+: q)
    (hdst : ¬ dir ++ [name] <+: q) : t'.node q = t.node q := by
  unfold move at h
  split at h
  · cases h
    simp only [if_neg hdst, if_neg hsrc]
  · cases h

end Tree

end Arlen.Lib
