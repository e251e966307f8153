import Arlen.Forage.Confinement

/-!
# What a file's diff was written for

`apply_file_diff` of `forage/patch/src/lib.rs` against the tree its diff was made from. A
diff that modifies a file applies only where the file holds what the hunks say. One that
deletes a file does not look at what it holds, and one that creates a file does not look
whether it is there.
-/

namespace Arlen.Forage

open Arlen.Lib Arlen.Lib.Host

/-! ## The diff -/

inductive PatchLine where
  | context (s : String)
  | delete (s : String)
  | insert (s : String)
deriving DecidableEq, Repr

/-- A hunk as the reader gives it, its lines with the line feeds they end with. -/
structure PatchHunk where
  oldStart : Nat
  lines : List PatchLine
deriving DecidableEq, Repr

namespace PatchHunk

/-- The text the hunk is for: its context and removed lines. -/
def old (h : PatchHunk) : String :=
  String.join (h.lines.filterMap fun
    | .context s | .delete s => some s
    | .insert _ => none)

def removed (h : PatchHunk) : String :=
  String.join (h.lines.filterMap fun
    | .delete s => some s
    | _ => none)

/-- The text has the old lines of the hunk where the hunk says. -/
def Matches (h : PatchHunk) (text : String) : Prop :=
  h.old = "" ∨ ∃ before after, text = before ++ h.old ++ after ∧
    before.toList.count '\n' = h.oldStart - 1 ∧ ∀ c ∈ before.toList.getLast?, c = '\n'

end PatchHunk

inductive Change where
  | modify
  | create
  | delete
deriving DecidableEq, Repr

def origOf (chunk : String) : Option String := headerPath ((lines chunk)[0]?.getD "") "--- "

def modifiedOf (chunk : String) : Option String := headerPath ((lines chunk)[1]?.getD "") "+++ "

def changeOf (chunk : String) : Change :=
  if modifiedOf chunk = some devNull then .delete
  else if origOf chunk = some devNull then .create
  else .modify

/-- The path of the file the diff is about. -/
def targetOf (chunk : String) : Path.PathBuf :=
  ((if modifiedOf chunk = some devNull then origOf chunk else modifiedOf chunk).bind
    stripOne).getD []

def targetLoc (root : Dir) (chunk : String) : Loc := root.loc ++ namesOf (targetOf chunk)

/-- What a diff of the kind says of its target in the tree it was made from. -/
def Preimage (hunks : List PatchHunk) (fs : Fs) (target : Loc) : Change → Prop
  | .modify => ∃ text, fs.node target = some (.leaf (.file (utf8 text))) ∧
      ∀ h ∈ hunks, h.Matches text
  | .create => fs.node target = none
  | .delete => fs.node target =
      some (.leaf (.file (utf8 (String.join (hunks.map PatchHunk.removed)))))

/-- The tree is as it was, but for directories on the way to the target that were not there. -/
def DirsMade (target : Loc) (start fs : Fs) : Prop :=
  ∀ p, fs.node p = start.node p ∨ (p <+: target ∧ start.node p = none ∧ fs.node p = some .dir)

/-- The trees differ at the target alone. Directories that were made for it lead to it. -/
def OnlyAt (target : Loc) (start fs : Fs) : Prop :=
  ∀ p, p ≠ target → fs.node p = start.node p ∨
    (p <+: target ∧ start.node p = none ∧ fs.node p = some .dir)

theorem DirsMade.refl (target : Loc) (fs : Fs) : DirsMade target fs fs := fun _ => .inl rfl

theorem DirsMade.onlyAt {target : Loc} {start fs : Fs} (h : DirsMade target start fs) :
    OnlyAt target start fs := fun p _ => h p

/-! ## Ways without links -/

/-- No name on the way is that of a link. -/
def NoLink (fs : Fs) (base : Loc) (names : List Host.Name) : Prop :=
  ∀ p, p <+: names → p ≠ [] → ∀ text, fs.node (base ++ p) ≠ some (.leaf (.link text))

section
variable {env : Env} {fs start : Fs} {base target : Loc} {names names' : List Host.Name} {n : Host.Name}

theorem NoLink.of_isPrefix (h : NoLink fs base names) (hp : names' <+: names) :
    NoLink fs base names' := fun p hp' => h p (hp'.trans hp)

theorem NoLink.walk_eq (h : NoLink fs base names) (hdown : parentName ∉ names) :
    walk env fs base names = some (base ++ names) := by
  induction names generalizing base with
  | nil => rw [walk, List.append_nil]
  | cons n rest ih =>
    have hrest : NoLink fs (base ++ [n]) rest := by
      intro p hp _ text
      rw [List.append_assoc]
      exact h ([n] ++ p) (List.cons_prefix_cons.2 ⟨rfl, hp⟩) (List.cons_ne_nil _ _) text
    have hn : n ≠ parentName := fun heq => hdown (heq ▸ List.mem_cons_self)
    unfold walk
    rw [if_neg hn]
    split
    · next text hlink =>
      exact absurd hlink (h [n] (List.cons_prefix_cons.2 ⟨rfl, List.nil_prefix⟩)
        (List.cons_ne_nil _ _) text)
    · rw [ih hrest fun hm => hdown (List.mem_cons_of_mem _ hm), List.append_assoc,
        List.singleton_append]

theorem NoLink.place_eq (h : NoLink fs base names.dropLast) (hdown : parentName ∉ names) :
    place env fs base names = some (base ++ names) :=
  place_of_walk hdown (h.walk_eq fun hm => hdown (List.mem_of_mem_dropLast hm))

/-- Directories that are made are no links. -/
theorem DirsMade.noLink (h : DirsMade target start fs) (hno : NoLink start base names) :
    NoLink fs base names := by
  intro p hp hnil text hlink
  rcases h (base ++ p) with heq | ⟨-, -, hdir⟩
  · rw [heq] at hlink
    exact hno p hp hnil text hlink
  · rw [hdir] at hlink
    cases hlink

/-! ## Calls of the target -/

theorem keeps_mkdir_dirsMade (hno : NoLink start base names) (hdown : parentName ∉ names)
    (hlt : base ++ names <+: target) :
    (mkdir env base names).Keeps False fun w => DirsMade target start w.fs := by
  refine keeps_change_fs fun fs fs' h hr => ?_
  rw [((h.noLink hno).of_isPrefix (List.dropLast_prefix _)).place_eq hdown] at hr
  obtain ⟨hnone, -, hnode⟩ := FileSystem.mkdirAt_eq_ok (orRefused_eq_ok.1 hr)
  intro p
  by_cases heq : p = base ++ names
  · refine .inr ⟨heq ▸ hlt, ?_, by rw [hnode, if_pos heq]⟩
    rcases h p with hold | ⟨-, hold, -⟩
    · rw [← hold, heq, hnone]
    · exact hold
  · rw [hnode, if_neg heq]
    exact h p

theorem keeps_createDirAllUp_dirsMade {up : List Host.Name} (hno : NoLink start base up.reverse)
    (hdown : parentName ∉ up.reverse) (hlt : base ++ up.reverse <+: target) :
    (createDirAllUp env base up).Keeps False fun w => DirsMade target start w.fs := by
  induction up with
  | nil =>
    refine Action.Keeps.bind (keeps_mkdir_dirsMade hno hdown hlt).attempt fun r => ?_
    cases r with
    | ok _ => exact Action.Keeps.pure _
    | error e => exact keeps_unlessDir_fs
  | cons n up ih =>
    have hup : up.reverse <+: (n :: up).reverse := by
      rw [List.reverse_cons]
      exact List.prefix_append _ _
    have hmkdir : (mkdir env base (n :: up).reverse).Keeps False fun w =>
        DirsMade target start w.fs := keeps_mkdir_dirsMade hno hdown hlt
    have hrec := ih (hno.of_isPrefix hup) (fun hm => hdown (hup.subset hm)) (((List.prefix_append_right_inj _).2 hup).trans hlt)
    refine Action.Keeps.bind hmkdir.attempt fun r => ?_
    split
    · exact Action.Keeps.pure _
    · refine Action.Keeps.bind hrec fun _ => Action.Keeps.bind hmkdir.attempt fun r => ?_
      cases r with
      | ok _ => exact Action.Keeps.pure _
      | error e => exact keeps_unlessDir_fs
    · exact keeps_unlessDir_fs

end

/-! ## The steps -/

section
variable {env : Env} {root : Dir} {rel path : Path.PathBuf} {w w' : World} {start : Fs}
  {seen names : List Host.Name}

theorem NoLink.concat {n : Host.Name} (h : NoLink start root.loc seen)
    (hn : ∀ text, start.node (root.loc ++ (seen ++ [n])) ≠ some (.leaf (.link text))) :
    NoLink start root.loc (seen ++ [n]) := by
  intro p hp hnil
  rcases List.prefix_concat_iff.1 hp with rfl | hp
  · exact hn
  · exact h p hp hnil

/-- A look that is answered sees a link. -/
theorem ends_lstat_attempt {n : Host.Name} (hplan : env.plan w.made = none)
    (hdown : parentName ∉ seen ++ [n]) (hseen : NoLink w.fs root.loc seen) :
    ((lstat env root.loc (seen ++ [n])).attempt : Patching _).Ends False w
      (fun r w' => w'.fs = w.fs ∧ w'.made = w.made + 1 ∧
        ∀ text, w.fs.node (root.loc ++ (seen ++ [n])) = some (.leaf (.link text)) →
          r = .ok (.leaf (.link text)))
      (fun _ _ => True) := by
  refine Action.Ends.attempt ?_
  have hplace : place env w.fs root.loc (seen ++ [n]) = some (root.loc ++ (seen ++ [n])) :=
    NoLink.place_eq (by rw [List.dropLast_concat]; exact hseen) hdown
  unfold Action.Ends lstat query
  rw [hplan]
  dsimp only
  rw [hplace]
  dsimp only [atPlace]
  cases hnode : w.fs.node (root.loc ++ (seen ++ [n])) with
  | none => exact ⟨rfl, rfl, fun _ h => by cases h⟩
  | some e => exact ⟨rfl, rfl, fun _ h => by rw [Option.some.inj h]⟩

theorem ends_probe (hbase : root.baseOf rel = root.loc) (hdown : parentName ∉ seen ++ names)
    (hlooks : ∀ k < names.length, env.plan (w.made + k) = none) (hseen : NoLink w.fs root.loc seen) :
    (probe env root rel seen names).Ends False w
      (fun _ w' => w'.fs = w.fs ∧ NoLink w.fs root.loc (seen ++ names)) (fun _ _ => True) := by
  induction names generalizing seen w with
  | nil => exact Action.Ends.pure ⟨rfl, by rwa [List.append_nil]⟩
  | cons n rest ih =>
    have hplan := hlooks 0 (Nat.succ_pos _)
    rw [← List.singleton_append, ← List.append_assoc] at hdown
    have hlook : parentName ∉ seen ++ [n] := fun hm => hdown (List.mem_append_left _ hm)
    unfold probe
    rw [hbase]
    refine (ends_lstat_attempt hplan hlook hseen).bind fun r w' ⟨hfs, hmade, hlink⟩ => ?_
    split
    · exact Action.Ends.fail trivial
    · next hr =>
      have hnext : NoLink w'.fs root.loc (seen ++ [n]) := by
        rw [hfs]
        exact hseen.concat fun text ht => hr text (hlink text ht)
      have hlooks' : ∀ k < rest.length, env.plan (w'.made + k) = none := by
        intro k hk
        rw [hmade, Nat.add_assoc, Nat.add_comm 1 k]
        exact hlooks (k + 1) (Nat.succ_lt_succ hk)
      refine (ih hdown hlooks' hnext).mono (fun _ w'' h => ?_) fun _ _ h => h
      rw [hfs, List.append_assoc, List.singleton_append] at h
      exact h

theorem ends_safeTarget (hlooks : ∀ k < (namesOf rel).length, env.plan (w.made + k) = none) :
    (safeTarget env root rel).Ends False w
      (fun _ w' => w'.fs = w.fs ∧ NoLink w.fs root.loc (namesOf rel) ∧ Down root rel)
      (fun _ _ => True) := by
  unfold safeTarget containedJoin
  by_cases hsafe : isSafeRelative rel = true
  · have hdown := down_of_isSafeRelative root hsafe
    have hnil : NoLink w.fs root.loc [] := fun p hp hne => absurd (List.prefix_nil.1 hp) hne
    rw [if_pos hsafe]
    exact (ends_probe hdown.base hdown.names hlooks hnil).bind fun _ w' h =>
      Action.Ends.pure ⟨h.1, h.2, hdown⟩
  · rw [if_neg hsafe]
    exact Action.Ends.fail trivial

/-- What is read is what the target holds. -/
theorem ends_readCapped {cap : Nat} (hdown : Down root rel) (hno : NoLink w.fs root.loc (namesOf rel)) :
    (readCapped env root rel path cap).Ends False w
      (fun content w' => w'.fs = w.fs ∧
        w.fs.node (root.loc ++ namesOf rel) = some (.leaf (.file content)))
      (fun _ _ => True) := by
  unfold readCapped
  rw [hdown.base]
  have hstat : ((stat env root.loc (namesOf rel)).mapError (PatchError.io path)).Ends False w
      (fun _ w' => w'.fs = w.fs) (fun _ _ => True) := by
    have hkeep : (stat env root.loc (namesOf rel)).Keeps False fun w' => w'.fs = w.fs :=
      keeps_query_fs (I := (· = w.fs))
    exact Action.Ends.mapError ((hkeep w rfl).mono (fun _ _ h => h) fun _ _ _ => trivial)
  refine hstat.bind fun found w' hfs => ?_
  split
  · exact Action.Ends.fail trivial
  · refine Action.Ends.mapError ?_
    unfold fileOnly
    split
    · unfold Action.Ends query
      cases env.plan w'.made <;> trivial
    · unfold Action.Ends Host.read query
      cases env.plan w'.made with
      | some fault => trivial
      | none =>
        dsimp only
        rw [hfs, hno.walk_eq hdown.names]
        dsimp only [atPlace]
        cases hnode : w.fs.node (root.loc ++ namesOf rel) with
        | none => trivial
        | some e =>
          cases e with
          | dir => trivial
          | leaf b =>
            cases b with
            | file content => exact ⟨hfs, rfl⟩
            | link text => trivial
            | special => trivial

/-- A change of the target alone. -/
theorem OnlyAt.update {target : Loc} {fs fs' : Fs} {e : Option (Lib.Entry Leaf)}
    (h : OnlyAt target start fs) (hfs : ∀ q, fs'.node q = if q = target then e else fs.node q) :
    OnlyAt target start fs' := by
  intro p hp
  rw [hfs, if_neg hp]
  exact h p hp

theorem keeps_createParent_dirsMade (hdown : Down root rel) (hno : NoLink start root.loc (namesOf rel)) :
    (createParent env root rel).Keeps False fun w =>
      DirsMade (root.loc ++ namesOf rel) start w.fs := by
  have hnot := hdown.names
  unfold createParent
  rw [hdown.base]
  split
  · next hnames =>
    rw [hnames, List.append_nil]
    split
    · exact Action.Keeps.pure _
    · refine keeps_createDirAllUp_dirsMade (fun p hp hne => absurd (List.prefix_nil.1 hp) hne)
        List.not_mem_nil ?_
      rw [List.reverse_nil, List.reverse_nil, List.append_nil]
      exact List.dropLast_prefix _
  · next n rest hnames =>
    rw [hnames] at hno hnot ⊢
    refine keeps_createDirAllUp_dirsMade ?_ ?_ ?_
    · rw [List.reverse_reverse]
      exact hno.of_isPrefix (List.dropLast_prefix _)
    · rw [List.reverse_reverse]
      exact fun hm => hnot (List.mem_of_mem_dropLast hm)
    · rw [List.reverse_reverse]
      exact (List.prefix_append_right_inj _).2 (List.dropLast_prefix _)

theorem truncated_onlyAt {target : Loc} {fs fs' : Fs} (h : OnlyAt target start fs)
    (hr : truncated target fs = .ok fs') : OnlyAt target start fs' := by
  unfold truncated at hr
  split at hr
  · obtain rfl := Except.ok.inj hr
    exact h
  · exact h.update (FileSystem.writeAt_eq_ok (orRefused_eq_ok.1 hr)).2.2

theorem appended_onlyAt {target : Loc} {fs : Fs} (h : OnlyAt target start fs) (bytes : Bytes) :
    OnlyAt target start (appended target bytes fs) := by
  unfold appended
  split
  · split
    · next fs' hw => exact h.update (FileSystem.writeAt_eq_ok hw).2.2
    · exact h
  · exact h

theorem ends_write_onlyAt {bytes : Bytes} (hdown : Down root rel)
    (hno : NoLink start root.loc (namesOf rel)) (h : DirsMade (root.loc ++ namesOf rel) start w.fs) :
    (write env root.loc (namesOf rel) bytes).Ends False w
      (fun _ w' => OnlyAt (root.loc ++ namesOf rel) start w'.fs) (fun _ _ => True) := by
  have hcreate : (create env root.loc (namesOf rel)).Ends False w
      (fun p w' => p = root.loc ++ namesOf rel ∧ OnlyAt (root.loc ++ namesOf rel) start w'.fs)
      (fun _ _ => True) := by
    unfold Action.Ends create
    rw [(h.noLink hno).walk_eq hdown.names]
    cases env.plan w.made with
    | some fault => trivial
    | none =>
      cases hr : truncated (root.loc ++ namesOf rel) w.fs with
      | error e =>
        simp only [hr]
      | ok fs' =>
        simp only [hr]
        exact ⟨trivial, truncated_onlyAt h.onlyAt hr⟩
  refine hcreate.bind fun p w' ⟨hp, h'⟩ => ?_
  unfold Action.Ends writeAll
  cases env.plan w'.made with
  | some fault => trivial
  | none =>
    rw [hp]
    exact appended_onlyAt h' bytes

theorem ends_putPatched {target : Path.PathBuf} {patched : String} {limits : PatchLimits}
    (hdown : Down root rel) (hno : NoLink w.fs root.loc (namesOf rel)) :
    (putPatched env root rel target patched limits).Ends False w
      (fun _ w' => OnlyAt (root.loc ++ namesOf rel) w.fs w'.fs) (fun _ _ => True) := by
  unfold putPatched
  split
  · exact Action.Ends.fail trivial
  · have hparent : (createParent env root rel).Ends False w
        (fun _ w' => DirsMade (root.loc ++ namesOf rel) w.fs w'.fs) (fun _ _ => True) :=
      (keeps_createParent_dirsMade hdown hno w (.refl _ _)).mono (fun _ _ h => h) fun _ _ _ => trivial
    refine (Action.Ends.mapError hparent).bind fun _ w' h => Action.Ends.mapError ?_
    unfold fileOnly
    split
    · unfold Action.Ends query
      cases env.plan w'.made <;> trivial
    · rw [hdown.base]
      exact ends_write_onlyAt hdown hno h

theorem ends_removeFile (hdown : Down root rel) (hno : NoLink w.fs root.loc (namesOf rel)) :
    (fileOnly env rel (removeFile env root.loc (namesOf rel))).Ends False w
      (fun _ w' => OnlyAt (root.loc ++ namesOf rel) w.fs w'.fs) (fun _ _ => True) := by
  unfold fileOnly
  split
  · unfold Action.Ends query
    cases env.plan w.made <;> trivial
  · have hplace : place env w.fs root.loc (namesOf rel) = some (root.loc ++ namesOf rel) :=
      (hno.of_isPrefix (List.dropLast_prefix _)).place_eq hdown.names
    unfold Action.Ends removeFile change
    cases env.plan w.made with
    | some fault => trivial
    | none =>
      dsimp only
      rw [hplace]
      dsimp only [atPlace]
      cases hr : orRefused (w.fs.unlink (root.loc ++ namesOf rel)) with
      | error e => trivial
      | ok fs' =>
        exact (DirsMade.refl _ _).onlyAt.update (FileSystem.node_of_unlink (orRefused_eq_ok.1 hr)).2

theorem ends_deleteFile {patchPath : Path.PathBuf} {orig : Option String}
    (hrel : (orig.bind stripOne).getD [] = rel)
    (hlooks : ∀ k < (namesOf rel).length, env.plan (w.made + k) = none) :
    (deleteFile env root patchPath orig).Ends False w
      (fun _ w' => OnlyAt (root.loc ++ namesOf rel) w.fs w'.fs) (fun _ _ => True) := by
  unfold deleteFile
  split
  · exact Action.Ends.fail trivial
  · next orig =>
    split
    · exact Action.Ends.fail trivial
    · next rel' hstrip =>
      obtain rfl : rel' = rel := by rw [← hrel, Option.bind_some, hstrip, Option.getD_some]
      refine (ends_safeTarget hlooks).bind fun target w₁ ⟨hfs, hno, hdown⟩ => ?_
      rw [hdown.base]
      have hthere : ((if directoryOnly rel' then isDir env root.loc (namesOf rel')
          else pathExists env root.loc (namesOf rel')).mapError (PatchError.io target)).Ends False w₁
          (fun _ w₂ => w₂.fs = w.fs) (fun _ _ => True) := by
        refine Action.Ends.mapError ?_
        have hdir : (isDir env root.loc (namesOf rel')).Keeps False fun w' => w'.fs = w.fs :=
          keeps_isDir_fs (I := (· = w.fs))
        have hexists : (pathExists env root.loc (namesOf rel')).Keeps False fun w' => w'.fs = w.fs := by
          refine Action.Keeps.bind (keeps_query_fs (I := (· = w.fs))).attempt fun r => ?_
          cases r <;> exact Action.Keeps.pure _
        split
        · exact (hdir w₁ hfs).mono (fun _ _ h => h) fun _ _ _ => trivial
        · exact (hexists w₁ hfs).mono (fun _ _ h => h) fun _ _ _ => trivial
      refine hthere.bind fun there w₂ hfs₂ => ?_
      split
      · refine Action.Ends.mapError ?_
        rw [← hfs₂] at hno ⊢
        exact ends_removeFile hdown hno
      · refine Action.Ends.pure ?_
        rw [hfs₂]
        exact (DirsMade.refl _ _).onlyAt

end

/-! ## A diff and its tree -/

section
variable {π : Type} {env : Env} {diffy : Diffy π} {hunks : π → List PatchHunk} {root : Dir}
  {patchPath : Path.PathBuf} {chunk : String} {limits : PatchLimits} {w w' : World} {patch : π}

/-- What a diff that applied has done, and, where it modifies a file, what it was applied to. -/
theorem ends_applyFileDiff
    (hexact : ∀ base p patched, diffy.apply base p = some patched → ∀ h ∈ hunks p, h.Matches base)
    (hparse : diffy.fromStr chunk = .ok patch)
    (hlooks : ∀ k < (namesOf (targetOf chunk)).length, env.plan (w.made + k) = none) :
    (applyFileDiff env diffy root patchPath chunk limits).Ends False w
      (fun _ w' => OnlyAt (targetLoc root chunk) w.fs w'.fs ∧
        (changeOf chunk = .modify →
          Preimage (hunks patch) w.fs (targetLoc root chunk) .modify))
      (fun _ _ => True) := by
  unfold applyFileDiff
  rw [hparse]
  dsimp only
  rw [← modifiedOf, ← origOf]
  unfold targetLoc
  split
  · next hdel =>
    have htarget : ((origOf chunk).bind stripOne).getD [] = targetOf chunk := by
      unfold targetOf
      rw [if_pos hdel]
    refine (ends_deleteFile htarget hlooks).mono (fun _ w' h => ⟨h, fun hmod => ?_⟩) fun _ _ h => h
    unfold changeOf at hmod
    rw [if_pos hdel] at hmod
    cases hmod
  · next hdel =>
    split
    · exact Action.Ends.fail trivial
    · next modified hmodified =>
      split
      · exact Action.Ends.fail trivial
      · next rel hstrip =>
        obtain rfl : rel = targetOf chunk := by
          unfold targetOf
          rw [if_neg hdel, hmodified, Option.bind_some, hstrip, Option.getD_some]
        refine (ends_safeTarget hlooks).bind fun target w₁ ⟨hfs, hno, hdown⟩ => ?_
        rw [← hfs] at hno ⊢
        have hbase : (baseText env root patchPath (targetOf chunk) target (origOf chunk)
            limits).Ends False w₁ (fun text w₂ => w₂.fs = w₁.fs ∧ (changeOf chunk = .modify →
              w₁.fs.node (root.loc ++ namesOf (targetOf chunk)) =
                some (.leaf (.file (utf8 text))))) (fun _ _ => True) := by
          unfold baseText
          split
          · next hcreate =>
            refine Action.Ends.pure ⟨rfl, fun hmod => ?_⟩
            unfold changeOf at hmod
            rw [if_neg hdel, if_pos hcreate] at hmod
            cases hmod
          · refine (ends_readCapped hdown hno).bind fun content w₂ ⟨hfs₂, hnode⟩ => ?_
            split
            · next text htext =>
              refine Action.Ends.pure ⟨hfs₂, fun _ => ?_⟩
              rw [hnode, utf8_of_decodeUtf8 htext]
            · exact Action.Ends.fail trivial
        refine hbase.bind fun text w₂ ⟨hfs₂, htext⟩ => ?_
        split
        · exact Action.Ends.fail trivial
        · next patched happly =>
          rw [← hfs₂] at hno htext ⊢
          refine (ends_putPatched hdown hno).mono (fun _ w' h => ⟨h, fun hmod => ?_⟩) fun _ _ h => h
          exact ⟨text, htext hmod, hexact _ _ _ happly⟩

/-- The diff modifies a file, or the tree is the one it was made from: what it creates is not
there, and what it deletes holds the lines it removes. -/
def Fits (hunks : List PatchHunk) (fs : Fs) (target : Loc) : Change → Prop
  | .modify => True
  | .create => fs.node target = none
  | .delete => fs.node target =
      some (.leaf (.file (utf8 (String.join (hunks.map PatchHunk.removed)))))

/-- Where a diff applies, the tree was the one it was made from and has changed at the target
alone just when the diff fits. -/
theorem applyFileDiff_iff
    (hexact : ∀ base p patched, diffy.apply base p = some patched → ∀ h ∈ hunks p, h.Matches base)
    (hparse : diffy.fromStr chunk = .ok patch)
    (hlooks : ∀ k < (namesOf (targetOf chunk)).length, env.plan (w.made + k) = none)
    (hrun : applyFileDiff env diffy root patchPath chunk limits w = some (.ok (), w')) :
    Preimage (hunks patch) w.fs (targetLoc root chunk) (changeOf chunk) ∧
        OnlyAt (targetLoc root chunk) w.fs w'.fs ↔
      Fits (hunks patch) w.fs (targetLoc root chunk) (changeOf chunk) := by
  obtain ⟨honly, hmodify⟩ :=
    (ends_applyFileDiff hexact hparse hlooks).of_ok hrun
  cases hchange : changeOf chunk with
  | modify => exact iff_of_true ⟨hmodify hchange, honly⟩ trivial
  | create => exact and_iff_left honly
  | delete => exact and_iff_left honly

end

/-! ## A diff that changes a line and one that deletes the file -/

def editChunk : String := "--- a/f\n+++ b/f\n@@ -1 +1 @@\n-x\n+y\n"

def deleteChunk : String := "--- a/f\n+++ /dev/null\n@@ -1 +0,0 @@\n-x\n"

def editHunk : PatchHunk := ⟨1, [.delete "x\n", .insert "y\n"]⟩

def deleteHunk : PatchHunk := ⟨1, [.delete "x\n"]⟩

/-- Reading the two, and applying the first to the text it is for. -/
def twoDiffs : Diffy (List PatchHunk) where
  fromStr chunk :=
    if chunk = editChunk then .ok [editHunk]
    else if chunk = deleteChunk then .ok [deleteHunk]
    else .error "unknown"
  apply base p := if base = "x\n" ∧ p = [editHunk] then some "y\n" else none

theorem twoDiffs_exact (base : String) (p : List PatchHunk) (patched : String)
    (h : twoDiffs.apply base p = some patched) : ∀ hunk ∈ p, hunk.Matches base := by
  unfold twoDiffs at h
  dsimp only at h
  split at h
  · next hbase =>
    rw [hbase.1, hbase.2]
    exact List.forall_mem_singleton.2 (.inr ⟨"", "", by decide, by decide, fun c hc => by cases hc⟩)
  · cases h

theorem bare_root : (FileSystem.bare : Fs).node [] = some .dir := rfl

theorem bare_file_f : (FileSystem.bare : Fs).node ([] ++ [utf8 "f"]) ≠ some .dir := fun h => by
  cases h

/-- A directory with the file `f`. -/
def treeWith (content : String) : Fs :=
  FileSystem.put .bare [] (utf8 "f") (.leaf (.file (utf8 content))) bare_root bare_file_f

/-- The diff changes the line it was written for, and nothing else. -/
theorem applyFileDiff_iff_edit : ∃ w',
    applyFileDiff quiet twoDiffs rootDir [] editChunk {} ⟨treeWith "x\n", 0, 0⟩ =
      some (.ok (), w') ∧ w'.fs.node [utf8 "f"] = some (.leaf (.file (utf8 "y\n"))) ∧
    Fits [editHunk] (treeWith "x\n") (targetLoc rootDir editChunk) (changeOf editChunk) ∧
    Preimage [editHunk] (treeWith "x\n") (targetLoc rootDir editChunk) (changeOf editChunk) ∧
    OnlyAt (targetLoc rootDir editChunk) (treeWith "x\n") w'.fs := by
  obtain ⟨w', hrun, hnode⟩ := Action.exists_of_map_eq
    (a := applyFileDiff quiet twoDiffs rootDir [] editChunk {}) (s := ⟨treeWith "x\n", 0, 0⟩)
    (f := fun w => w.fs.node [utf8 "f"]) (c := some (.leaf (.file (utf8 "y\n")))) (by decide)
  have hparse : twoDiffs.fromStr editChunk = .ok [editHunk] := by
    unfold twoDiffs
    dsimp only
    rw [if_pos rfl]
  have hfits : Fits [editHunk] (treeWith "x\n") (targetLoc rootDir editChunk)
      (changeOf editChunk) := by
    rw [show changeOf editChunk = .modify by decide]
    trivial
  exact ⟨w', hrun, hnode, hfits, (@applyFileDiff_iff _ _ _ id _ _ _ _ _ _ _ twoDiffs_exact hparse
    (fun _ _ => rfl) hrun).2 hfits⟩

/-- The file is deleted though it holds none of the lines the diff removes. -/
theorem deletes_another_text : ∃ w',
    applyFileDiff quiet twoDiffs rootDir [] deleteChunk {} ⟨treeWith "z\n", 0, 0⟩ =
      some (.ok (), w') ∧ w'.fs.node [utf8 "f"] = none ∧
    ¬Preimage [deleteHunk] (treeWith "z\n") (targetLoc rootDir deleteChunk)
      (changeOf deleteChunk) := by
  obtain ⟨w', hrun, hnode⟩ := Action.exists_of_map_eq
    (a := applyFileDiff quiet twoDiffs rootDir [] deleteChunk {}) (s := ⟨treeWith "z\n", 0, 0⟩)
    (f := fun w => w.fs.node [utf8 "f"]) (c := none) (by decide)
  have hloc : targetLoc rootDir deleteChunk = [utf8 "f"] := by decide
  have hchange : changeOf deleteChunk = .delete := by decide
  refine ⟨w', hrun, hnode, ?_⟩
  rw [hloc, hchange]
  show (treeWith "z\n").node [utf8 "f"] ≠ _
  decide

end Arlen.Forage
