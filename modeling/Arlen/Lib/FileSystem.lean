import Mathlib.Data.List.Basic
import Mathlib.Data.List.Infix

/-!
# A file system with listings

`node` says what stands at each location, `names` lists a directory. Only a
directory has entries, every entry is listed once, and no location is deeper than
some bound. `put`, `erase` and `move` are what creating, removing and renaming do,
each with what it leaves alone.
-/

namespace Arlen.Lib

inductive Entry (β : Type) where
  | dir
  | leaf (b : β)
deriving DecidableEq, Repr

instance Entry.decidableEqDir {β : Type} (x : Option (Entry β)) : Decidable (x = some .dir) :=
  match x with
  | none => isFalse nofun
  | some .dir => isTrue rfl
  | some (.leaf _) => isFalse nofun

structure FileSystem (ν β : Type) where
  node : List ν → Option (Entry β)
  names : List ν → List ν
  root : node [] = some .dir
  closed : ∀ p n, node (p ++ [n]) ≠ none → node p = some .dir
  mem_names : ∀ p n, n ∈ names p ↔ node (p ++ [n]) ≠ none
  nodup_names : ∀ p, (names p).Nodup
  bounded : ∃ depth, ∀ p, node p ≠ none → p.length ≤ depth

namespace FileSystem

variable {ν β : Type} {fs fs' : FileSystem ν β} {p q r dir src : List ν} {n name : ν} {e : Entry β}

/-! ## Locations -/

theorem exists_concat (h : p <+: q) (hne : p ≠ q) : ∃ n, p ++ [n] <+: q := by
  obtain ⟨r, rfl⟩ := h
  cases r with
  | nil => exact absurd (List.append_nil p).symm hne
  | cons n r => exact ⟨n, r, by simp⟩

theorem node_ne_none_of_isPrefix (h : fs.node q ≠ none) (hp : p <+: q) : fs.node p ≠ none := by
  obtain ⟨r, rfl⟩ := hp
  induction r using List.reverseRecOn with
  | nil => simpa using h
  | append_singleton r n ih =>
    rw [← List.append_assoc] at h
    refine ih ?_
    rw [fs.closed _ _ h]
    exact Option.some_ne_none _

/-- Above a location that exists there are directories. -/
theorem node_of_isPrefix (h : fs.node q ≠ none) (hp : p <+: q) (hne : p ≠ q) :
    fs.node p = some .dir := by
  obtain ⟨n, hn⟩ := exists_concat hp hne
  exact fs.closed p n (node_ne_none_of_isPrefix h hn)

theorem node_none_of_isPrefix (h : fs.node p = none) (hq : p <+: q) : fs.node q = none := by
  by_contra hne
  exact node_ne_none_of_isPrefix hne hq h

/-- Below a leaf there is nothing. -/
theorem node_below_leaf {b : β} (h : fs.node p = some (.leaf b)) (hq : p <+: q) (hne : p ≠ q) :
    fs.node q = none := by
  by_contra hsome
  have hdir := node_of_isPrefix hsome hq hne
  rw [h] at hdir
  cases hdir

theorem node_concat_of_names_nil (h : fs.names p = []) (n : ν) : fs.node (p ++ [n]) = none := by
  by_contra hne
  have hm := (fs.mem_names p n).2 hne
  rw [h] at hm
  cases hm

/-- Below an empty directory there is nothing. -/
theorem node_below_empty (h : fs.names p = []) (hq : p <+: q) (hne : p ≠ q) :
    fs.node q = none := by
  obtain ⟨n, hn⟩ := exists_concat hq hne
  exact node_none_of_isPrefix (node_concat_of_names_nil h n) hn

/-! ## Creating -/

section
variable [DecidableEq ν]

/-- Put an entry into a directory, in place of no directory. -/
def put (fs : FileSystem ν β) (dir : List ν) (name : ν) (e : Entry β)
    (hdir : fs.node dir = some .dir) (hdst : fs.node (dir ++ [name]) ≠ some .dir) :
    FileSystem ν β where
  node := fun q => if q = dir ++ [name] then some e else fs.node q
  names := fun q => if q = dir ∧ name ∉ fs.names q then fs.names q ++ [name] else fs.names q
  root := by
    rw [if_neg (by simp)]
    exact fs.root
  closed := by
    intro p n h
    have hp : fs.node p = some .dir := by
      by_cases heq : p ++ [n] = dir ++ [name]
      · rw [(List.append_inj' heq rfl).1]
        exact hdir
      · rw [if_neg heq] at h
        exact fs.closed p n h
    rw [if_neg]
    · exact hp
    · rintro rfl
      exact hdst hp
  mem_names := by
    intro q n
    by_cases hq : q = dir
    · subst hq
      by_cases hn : n = name
      · subst hn
        by_cases hm : n ∈ fs.names q
        · simp [hm]
        · simp [hm]
      · have hne : q ++ [n] ≠ q ++ [name] := by simpa using hn
        rw [if_neg hne, ← fs.mem_names]
        split
        · simp [hn]
        · exact Iff.rfl
    · have hne : q ++ [n] ≠ dir ++ [name] := fun h => hq (List.append_inj' h rfl).1
      rw [if_neg hne, if_neg (fun h => hq h.1), fs.mem_names]
  nodup_names := by
    intro q
    split
    · next h =>
      exact List.nodup_append.2 ⟨fs.nodup_names q, by simp, by
        intro a ha b hb
        rw [List.mem_singleton.1 hb]
        rintro rfl
        exact h.2 ha⟩
    · exact fs.nodup_names q
  bounded := by
    obtain ⟨depth, hdepth⟩ := fs.bounded
    refine ⟨max depth (dir.length + 1), fun q hq => ?_⟩
    by_cases heq : q = dir ++ [name]
    · rw [heq, List.length_append, List.length_singleton]
      omega
    · rw [if_neg heq] at hq
      have := hdepth q hq
      omega

variable {hdir : fs.node dir = some .dir} {hdst : fs.node (dir ++ [name]) ≠ some .dir}

@[simp] theorem node_put_self : (fs.put dir name e hdir hdst).node (dir ++ [name]) = some e :=
  if_pos rfl

theorem node_put_of_ne (h : q ≠ dir ++ [name]) :
    (fs.put dir name e hdir hdst).node q = fs.node q := if_neg h

/-! ## Removing -/

/-- Remove a location other than the root, and what stands below it. -/
def erase (fs : FileSystem ν β) (p : List ν) (hp : p ≠ []) : FileSystem ν β where
  node := fun q => if p <+: q then none else fs.node q
  names := fun q =>
    if p <+: q then [] else (fs.names q).filter fun n => ¬ p <+: q ++ [n]
  root := by
    rw [if_neg (by simpa using hp)]
    exact fs.root
  closed := by
    intro q n h
    by_cases hpn : p <+: q ++ [n]
    · simp [hpn] at h
    · rw [if_neg hpn] at h
      rw [if_neg fun hq => hpn (hq.trans (List.prefix_append q [n]))]
      exact fs.closed q n h
  mem_names := by
    intro q n
    by_cases hq : p <+: q
    · simp [hq, hq.trans (List.prefix_append q [n])]
    · rw [if_neg hq, List.mem_filter, fs.mem_names]
      by_cases hpn : p <+: q ++ [n] <;> simp [hpn]
  nodup_names := by
    intro q
    split
    · exact List.nodup_nil
    · exact (fs.nodup_names q).filter _
  bounded := by
    obtain ⟨depth, hdepth⟩ := fs.bounded
    refine ⟨depth, fun q hq => hdepth q fun hnone => hq ?_⟩
    simp [hnone]

variable {hp : p ≠ []}

theorem node_erase_below (h : p <+: q) : (fs.erase p hp).node q = none := if_pos h

theorem node_erase_of_not (h : ¬ p <+: q) : (fs.erase p hp).node q = fs.node q := if_neg h

/-! ## Renaming -/

/-- Move what stands at `src`, and below it, to an entry of a directory that is not
below `src`. What stood there goes. -/
def move (fs : FileSystem ν β) (src dir : List ν) (name : ν) (hdir : fs.node dir = some .dir)
    (hsrc : fs.node src ≠ none) (hapart : ¬ src <+: dir ++ [name]) : FileSystem ν β where
  node := fun q =>
    if dir ++ [name] <+: q then fs.node (src ++ q.drop (dir ++ [name]).length)
    else if src <+: q then none
    else fs.node q
  names := fun q =>
    if dir ++ [name] <+: q then fs.names (src ++ q.drop (dir ++ [name]).length)
    else if src <+: q then []
    else
      let kept := (fs.names q).filter fun n => q ++ [n] ≠ src
      if q = dir ∧ name ∉ kept then kept ++ [name] else kept
  root := by
    have hne : src ≠ [] := by
      rintro rfl
      exact hapart List.nil_prefix
    rw [if_neg (by simp), if_neg (by simpa using hne)]
    exact fs.root
  closed := by
    intro q n h
    by_cases hq : dir ++ [name] <+: q
    · have hqn : dir ++ [name] <+: q ++ [n] := hq.trans (List.prefix_append q [n])
      rw [if_pos hqn, List.drop_append_of_le_length hq.length_le, ← List.append_assoc] at h
      rw [if_pos hq]
      exact fs.closed _ n h
    · rw [if_neg hq]
      by_cases hqn : dir ++ [name] <+: q ++ [n]
      · rcases List.prefix_concat_iff.1 hqn with heq | hpre
        · obtain ⟨rfl, -⟩ := List.append_inj' heq rfl
          rw [if_neg fun hs => hapart (hs.trans (List.prefix_append _ _))]
          exact hdir
        · exact absurd hpre hq
      · rw [if_neg hqn] at h
        by_cases hs : src <+: q ++ [n]
        · simp [hs] at h
        · rw [if_neg hs] at h
          rw [if_neg fun hq' => hs (hq'.trans (List.prefix_append q [n]))]
          exact fs.closed q n h
  mem_names := by
    intro q n
    by_cases hq : dir ++ [name] <+: q
    · have hqn : dir ++ [name] <+: q ++ [n] := hq.trans (List.prefix_append q [n])
      rw [if_pos hq, if_pos hqn, List.drop_append_of_le_length hq.length_le, ← List.append_assoc,
        fs.mem_names]
    · rw [if_neg hq]
      by_cases hs : src <+: q
      · have hqn : ¬ dir ++ [name] <+: q ++ [n] := by
          intro hpre
          rcases List.prefix_concat_iff.1 hpre with heq | hpre
          · exact hapart (heq ▸ hs.trans (List.prefix_append q [n]))
          · exact hq hpre
        rw [if_pos hs, if_neg hqn, if_pos (hs.trans (List.prefix_append q [n]))]
        simp
      · rw [if_neg hs]
        by_cases heq : q ++ [n] = dir ++ [name]
        · obtain ⟨rfl, hn⟩ := List.append_inj' heq rfl
          obtain rfl := List.singleton_inj.1 hn
          have hin : fs.node (src ++ (q ++ [n]).drop (q ++ [n]).length) ≠ none := by
            rw [List.drop_length, List.append_nil]
            exact hsrc
          rw [if_pos List.prefix_rfl]
          refine iff_of_true ?_ hin
          simp only [true_and]
          split
          · exact List.mem_append_right _ (List.mem_singleton_self n)
          · next hm => exact not_not.1 hm
        · have hqn : ¬ dir ++ [name] <+: q ++ [n] := by
            intro hpre
            rcases List.prefix_concat_iff.1 hpre with heq' | hpre
            · exact heq heq'.symm
            · exact hq hpre
          have hsn : src <+: q ++ [n] ↔ q ++ [n] = src := by
            constructor
            · intro hpre
              rcases List.prefix_concat_iff.1 hpre with heq' | hpre
              · exact heq'.symm
              · exact absurd hpre hs
            · rintro h
              exact h ▸ List.prefix_rfl
          have hkept : n ∈ ((fs.names q).filter fun n => q ++ [n] ≠ src) ↔
              (if src <+: q ++ [n] then none else fs.node (q ++ [n])) ≠ none := by
            rw [List.mem_filter, fs.mem_names]
            by_cases hsrc' : q ++ [n] = src
            · simp [hsrc']
            · simp [hsrc', hsn]
          rw [if_neg hqn, ← hkept]
          simp only
          split
          · next hd =>
            rw [List.mem_append, List.mem_singleton]
            constructor
            · rintro (hm | rfl)
              · exact hm
              · exact absurd (by rw [hd.1]) heq
            · exact Or.inl
          · exact Iff.rfl
  nodup_names := by
    intro q
    split
    · exact fs.nodup_names _
    split
    · exact List.nodup_nil
    · have hnd := (fs.nodup_names q).filter fun n => q ++ [n] ≠ src
      simp only
      split
      · next h =>
        refine List.nodup_append.2 ⟨hnd, by simp, ?_⟩
        intro a ha b hb
        rw [List.mem_singleton.1 hb]
        rintro rfl
        exact h.2 ha
      · exact hnd
  bounded := by
    obtain ⟨depth, hdepth⟩ := fs.bounded
    refine ⟨depth + (dir.length + 1), fun q hq => ?_⟩
    split at hq
    · have := hdepth _ hq
      rw [List.length_append, List.length_drop, List.length_append, List.length_singleton] at this
      omega
    · split at hq
      · exact absurd rfl hq
      · have := hdepth _ hq
        omega

variable {hdir : fs.node dir = some .dir} {hsrc : fs.node src ≠ none}
  {hapart : ¬ src <+: dir ++ [name]}

theorem node_move_below (q : List ν) :
    (fs.move src dir name hdir hsrc hapart).node (dir ++ [name] ++ q) = fs.node (src ++ q) := by
  have hpre : dir ++ [name] <+: dir ++ [name] ++ q := List.prefix_append _ _
  have h : (fs.move src dir name hdir hsrc hapart).node (dir ++ [name] ++ q) =
      fs.node (src ++ (dir ++ [name] ++ q).drop (dir ++ [name]).length) := if_pos hpre
  rw [h, List.drop_left]

theorem node_move_source (hq : src <+: q) (hdst : ¬ dir ++ [name] <+: q) :
    (fs.move src dir name hdir hsrc hapart).node q = none := by
  have h := @if_neg _ (inferInstance : Decidable (dir ++ [name] <+: q)) hdst
  exact h.trans (if_pos hq)

theorem node_move_of_not (hq : ¬ src <+: q) (hdst : ¬ dir ++ [name] <+: q) :
    (fs.move src dir name hdir hsrc hapart).node q = fs.node q := by
  have h := @if_neg _ (inferInstance : Decidable (dir ++ [name] <+: q)) hdst
  exact h.trans (if_neg hq)

/-! ## Calls

What the calls of the system make of these, with the errors they end in.
-/

/-- Why a call was refused. -/
inductive Refusal where
  | noEntry
  | alreadyThere
  | notDirectory
  | isDirectory
  | notEmpty
  | intoItself
deriving DecidableEq, Repr

/-- `mkdir`. -/
def mkdir (fs : FileSystem ν β) (dir : List ν) (name : ν) : Except Refusal (FileSystem ν β) :=
  if hdir : fs.node dir = some .dir then
    if hdst : fs.node (dir ++ [name]) = none then
      .ok (fs.put dir name .dir hdir (by simp [hdst]))
    else .error .alreadyThere
  else .error .noEntry

/-- Open for writing and write: a leaf made or replaced. -/
def write (fs : FileSystem ν β) (dir : List ν) (name : ν) (b : β) :
    Except Refusal (FileSystem ν β) :=
  if hdir : fs.node dir = some .dir then
    if hdst : fs.node (dir ++ [name]) = some .dir then .error .isDirectory
    else .ok (fs.put dir name (.leaf b) hdir hdst)
  else .error .noEntry

/-- `unlink` of a leaf. -/
def unlink (fs : FileSystem ν β) (p : List ν) : Except Refusal (FileSystem ν β) :=
  match hp : fs.node p with
  | none => .error .noEntry
  | some .dir => .error .isDirectory
  | some (.leaf _) => .ok (fs.erase p (by rintro rfl; rw [fs.root] at hp; cases hp))

/-- What stands at the destination gives way to what is renamed. -/
def GivesWay (fs : FileSystem ν β) (src dst : List ν) : Prop :=
  fs.node dst = none ∨ (fs.node src ≠ some .dir ∧ fs.node dst ≠ some .dir) ∨
    (fs.node src = some .dir ∧ fs.node dst = some .dir ∧ fs.names dst = [])

/-- `rename`: a leaf replaces a leaf, a directory an empty directory. -/
def rename (fs : FileSystem ν β) (src dir : List ν) (name : ν) :
    Except Refusal (FileSystem ν β) :=
  if hsrc : fs.node src = none then .error .noEntry
  else if hdir : fs.node dir = some .dir then
    if src = dir ++ [name] then .ok fs
    else if hapart : src <+: dir ++ [name] then .error .intoItself
    else if fs.node (dir ++ [name]) = none then .ok (fs.move src dir name hdir hsrc hapart)
    else if fs.node src = some .dir then
      if fs.node (dir ++ [name]) = some .dir then
        if fs.names (dir ++ [name]) = [] then .ok (fs.move src dir name hdir hsrc hapart)
        else .error .notEmpty
      else .error .notDirectory
    else if fs.node (dir ++ [name]) = some .dir then .error .isDirectory
    else .ok (fs.move src dir name hdir hsrc hapart)
  else .error .noEntry

theorem mkdir_eq_ok (h : fs.mkdir dir name = .ok fs') :
    ∃ (hdir : fs.node dir = some .dir) (hdst : fs.node (dir ++ [name]) = none),
      fs' = fs.put dir name .dir hdir (by simp [hdst]) := by
  unfold mkdir at h
  split_ifs at h with hdir hdst
  exact ⟨hdir, hdst, (Except.ok.inj h).symm⟩

theorem write_eq_ok {b : β} (h : fs.write dir name b = .ok fs') :
    ∃ (hdir : fs.node dir = some .dir) (hdst : fs.node (dir ++ [name]) ≠ some .dir),
      fs' = fs.put dir name (.leaf b) hdir hdst := by
  unfold write at h
  split_ifs at h with hdir hdst
  exact ⟨hdir, hdst, (Except.ok.inj h).symm⟩

theorem unlink_eq_ok (h : fs.unlink p = .ok fs') :
    ∃ b, fs.node p = some (.leaf b) ∧ ∃ hp : p ≠ [], fs' = fs.erase p hp := by
  unfold unlink at h
  split at h
  · cases h
  · cases h
  · next b hb => exact ⟨b, hb, _, (Except.ok.inj h).symm⟩

/-- **What a rename does**: nothing onto itself, and otherwise a move onto what
gives way. -/
theorem rename_eq_ok (h : fs.rename src dir name = .ok fs') :
    fs.node src ≠ none ∧ fs.node dir = some .dir ∧
      (src = dir ++ [name] ∧ fs' = fs ∨
        fs.GivesWay src (dir ++ [name]) ∧
          ∃ hdir hsrc hapart, fs' = fs.move src dir name hdir hsrc hapart) := by
  unfold rename at h
  by_cases h₁ : fs.node src = none
  · rw [dif_pos h₁] at h
    cases h
  rw [dif_neg h₁] at h
  by_cases h₂ : fs.node dir = some .dir
  · rw [dif_pos h₂] at h
    refine ⟨h₁, h₂, ?_⟩
    by_cases h₃ : src = dir ++ [name]
    · rw [if_pos h₃] at h
      exact .inl ⟨h₃, (Except.ok.inj h).symm⟩
    rw [if_neg h₃] at h
    by_cases h₄ : src <+: dir ++ [name]
    · rw [dif_pos h₄] at h
      cases h
    rw [dif_neg h₄] at h
    refine .inr ?_
    by_cases h₅ : fs.node (dir ++ [name]) = none
    · rw [if_pos h₅] at h
      exact ⟨.inl h₅, h₂, h₁, h₄, (Except.ok.inj h).symm⟩
    rw [if_neg h₅] at h
    by_cases h₆ : fs.node src = some .dir
    · rw [if_pos h₆] at h
      split_ifs at h with h₇ h₈
      exact ⟨.inr (.inr ⟨h₆, h₇, h₈⟩), h₂, h₁, h₄, (Except.ok.inj h).symm⟩
    · rw [if_neg h₆] at h
      split_ifs at h with h₇
      exact ⟨.inr (.inl ⟨h₆, h₇⟩), h₂, h₁, h₄, (Except.ok.inj h).symm⟩
  · rw [dif_neg h₂] at h
    cases h

/-! ## Leaves -/

/-- Moving a leaf changes two locations. -/
theorem node_move_leaf {b : β} (hleaf : fs.node src = some (.leaf b))
    (hdst : fs.node (dir ++ [name]) ≠ some .dir) (q : List ν) :
    (fs.move src dir name hdir hsrc hapart).node q =
      if q = dir ++ [name] then some (.leaf b) else if q = src then none else fs.node q := by
  by_cases hq : dir ++ [name] <+: q
  · obtain ⟨r, rfl⟩ := hq
    rw [node_move_below]
    by_cases hr : r = []
    · rw [hr, List.append_nil, List.append_nil, if_pos rfl, hleaf]
    · have hbelow : fs.node (src ++ r) = none :=
        node_below_leaf hleaf (List.prefix_append _ _) (by simpa using hr)
      have hfree : fs.node (dir ++ [name] ++ r) = none := by
        by_contra hne
        exact hdst (node_of_isPrefix hne (List.prefix_append _ _) (by simpa using hr))
      rw [hbelow, if_neg (by simpa using hr), hfree, ite_self]
  · have hne : q ≠ dir ++ [name] := by
      rintro rfl
      exact hq List.prefix_rfl
    rw [if_neg hne]
    by_cases hs : src <+: q
    · rw [node_move_source hs hq]
      split
      · rfl
      · next hqs => exact (node_below_leaf hleaf hs (Ne.symm hqs)).symm
    · rw [node_move_of_not hs hq, if_neg]
      rintro rfl
      exact hs List.prefix_rfl

/-- Erasing a leaf changes one location. -/
theorem node_erase_leaf {b : β} (hleaf : fs.node p = some (.leaf b)) (q : List ν) :
    (fs.erase p hp).node q = if q = p then none else fs.node q := by
  by_cases hq : p <+: q
  · rw [node_erase_below hq]
    split
    · rfl
    · next hne => exact (node_below_leaf hleaf hq (Ne.symm hne)).symm
  · rw [node_erase_of_not hq, if_neg]
    rintro rfl
    exact hq List.prefix_rfl

/-! ## Calls on a location -/

def mkdirAt (fs : FileSystem ν β) (p : List ν) : Except Refusal (FileSystem ν β) :=
  if hp : p = [] then .error .alreadyThere else fs.mkdir p.dropLast (p.getLast hp)

def writeAt (fs : FileSystem ν β) (p : List ν) (b : β) : Except Refusal (FileSystem ν β) :=
  if hp : p = [] then .error .isDirectory else fs.write p.dropLast (p.getLast hp) b

def renameTo (fs : FileSystem ν β) (src p : List ν) : Except Refusal (FileSystem ν β) :=
  if hp : p = [] then .error .alreadyThere else fs.rename src p.dropLast (p.getLast hp)

/-- Remove a directory with everything below it. -/
def removeTree (fs : FileSystem ν β) (p : List ν) : Except Refusal (FileSystem ν β) :=
  match fs.node p with
  | none => .error .noEntry
  | some (.leaf _) => .error .notDirectory
  | some .dir => if hp : p = [] then .error .notEmpty else .ok (fs.erase p hp)

theorem node_put_eq (q : List ν) {hdir : fs.node dir = some .dir}
    {hdst : fs.node (dir ++ [name]) ≠ some .dir} :
    (fs.put dir name e hdir hdst).node q = if q = dir ++ [name] then some e else fs.node q := rfl

theorem mkdirAt_eq_ok (h : fs.mkdirAt p = .ok fs') :
    fs.node p = none ∧ fs.node p.dropLast = some .dir ∧
      ∀ q, fs'.node q = if q = p then some .dir else fs.node q := by
  unfold mkdirAt at h
  split_ifs at h with hp
  obtain ⟨hdir, hdst, rfl⟩ := mkdir_eq_ok h
  rw [List.dropLast_append_getLast hp] at hdst
  refine ⟨hdst, hdir, fun q => ?_⟩
  rw [node_put_eq, List.dropLast_append_getLast hp]

theorem writeAt_eq_ok {b : β} (h : fs.writeAt p b = .ok fs') :
    fs.node p ≠ some .dir ∧ fs.node p.dropLast = some .dir ∧
      ∀ q, fs'.node q = if q = p then some (.leaf b) else fs.node q := by
  unfold writeAt at h
  split_ifs at h with hp
  obtain ⟨hdir, hdst, rfl⟩ := write_eq_ok h
  have hdst' := hdst
  rw [List.dropLast_append_getLast hp] at hdst'
  refine ⟨hdst', hdir, fun q => ?_⟩
  rw [node_put_eq, List.dropLast_append_getLast hp]

theorem node_of_unlink (h : fs.unlink p = .ok fs') :
    (∃ b, fs.node p = some (.leaf b)) ∧ ∀ q, fs'.node q = if q = p then none else fs.node q := by
  obtain ⟨b, hb, hp, rfl⟩ := unlink_eq_ok h
  exact ⟨⟨b, hb⟩, fun q => node_erase_leaf hb q⟩

theorem removeTree_eq_ok (h : fs.removeTree p = .ok fs') :
    fs.node p = some .dir ∧ ∀ q, fs'.node q = if p <+: q then none else fs.node q := by
  unfold removeTree at h
  split at h
  · cases h
  · cases h
  · next hp =>
    split_ifs at h
    cases h
    exact ⟨hp, fun q => rfl⟩

theorem exists_writeAt {b : β} (hp : p ≠ []) (hdir : fs.node p.dropLast = some .dir)
    (hdst : fs.node p ≠ some .dir) : ∃ fs', fs.writeAt p b = .ok fs' := by
  have hdst' : fs.node (p.dropLast ++ [p.getLast hp]) ≠ some .dir := by
    rw [List.dropLast_append_getLast hp]
    exact hdst
  unfold writeAt write
  rw [dif_neg hp, dif_pos hdir, dif_neg hdst']
  exact ⟨_, rfl⟩

/-- What stood at `src` stands at `dst`, and the rest stays. -/
structure Moved (fs fs' : FileSystem ν β) (src dst : List ν) : Prop where
  apart : ¬ src <+: dst
  below : ∀ r, fs'.node (dst ++ r) = fs.node (src ++ r)
  source : ∀ q, src <+: q → ¬ dst <+: q → fs'.node q = none
  rest : ∀ q, ¬ src <+: q → ¬ dst <+: q → fs'.node q = fs.node q

theorem renameTo_eq_ok (h : fs.renameTo src p = .ok fs') :
    fs.node src ≠ none ∧ fs.node p.dropLast = some .dir ∧
      (src = p ∧ fs' = fs ∨ fs.GivesWay src p ∧ Moved fs fs' src p) := by
  unfold renameTo at h
  split_ifs at h with hp
  have hlast := List.dropLast_append_getLast hp
  obtain ⟨hsrc, hdir, ⟨heq, rfl⟩ | ⟨hway, hdir', hsrc', hapart, rfl⟩⟩ := rename_eq_ok h
  · rw [hlast] at heq
    exact ⟨hsrc, hdir, Or.inl ⟨heq, rfl⟩⟩
  · refine ⟨hsrc, hdir, Or.inr ⟨?_, ?_⟩⟩
    · rw [hlast] at hway
      exact hway
    · refine ⟨by rw [← hlast]; exact hapart, fun r => ?_, fun q hq hd => ?_, fun q hq hd => ?_⟩
      · have hb : (fs.move src p.dropLast (p.getLast hp) hdir' hsrc' hapart).node
            (p.dropLast ++ [p.getLast hp] ++ r) = fs.node (src ++ r) := node_move_below r
        rw [hlast] at hb
        exact hb
      · exact node_move_source hq (by rw [hlast]; exact hd)
      · exact node_move_of_not hq (by rw [hlast]; exact hd)

/-- Renaming a leaf changes two locations. -/
theorem renameTo_leaf {b : β} (h : fs.renameTo src p = .ok fs') (hleaf : fs.node src = some (.leaf b))
    (hne : src ≠ p) : fs.node p ≠ some .dir ∧
      ∀ q, fs'.node q = if q = p then some (.leaf b) else if q = src then none else fs.node q := by
  obtain ⟨-, -, ⟨heq, -⟩ | ⟨hway, hmoved⟩⟩ := renameTo_eq_ok h
  · exact absurd heq hne
  have hdst : fs.node p ≠ some .dir := by
    rcases hway with hnone | ⟨-, hnot⟩ | ⟨hdir, -⟩
    · rw [hnone]
      nofun
    · exact hnot
    · exact absurd (hleaf.symm.trans hdir) nofun
  refine ⟨hdst, fun q => ?_⟩
  by_cases hq : p <+: q
  · obtain ⟨r, rfl⟩ := hq
    rw [hmoved.below]
    by_cases hr : r = []
    · rw [hr, List.append_nil, List.append_nil, if_pos rfl, hleaf]
    · have hbelow : fs.node (src ++ r) = none :=
        node_below_leaf hleaf (List.prefix_append _ _) (by simpa using hr)
      have hfree : fs.node (p ++ r) = none := by
        by_contra hsome
        exact hdst (node_of_isPrefix hsome (List.prefix_append _ _) (by simpa using hr))
      rw [hbelow, if_neg (by simpa using hr), hfree, ite_self]
  · have hqp : q ≠ p := by
      rintro rfl
      exact hq List.prefix_rfl
    rw [if_neg hqp]
    by_cases hs : src <+: q
    · rw [hmoved.source q hs hq]
      split
      · rfl
      · next hqs => exact (node_below_leaf hleaf hs (Ne.symm hqs)).symm
    · rw [hmoved.rest q hs hq, if_neg]
      rintro rfl
      exact hs List.prefix_rfl

end

/-! ## Building one -/

/-- The root alone. -/
def bare : FileSystem ν β where
  node := fun p => if p.isEmpty then some .dir else none
  names := fun _ => []
  root := rfl
  closed := by
    intro p n h
    simp at h
  mem_names := by
    intro p n
    simp
  nodup_names := fun _ => List.nodup_nil
  bounded := ⟨0, fun p hp => by
    cases p with
    | nil => exact Nat.le_refl 0
    | cons n p => exact absurd rfl hp⟩

end FileSystem

end Arlen.Lib
