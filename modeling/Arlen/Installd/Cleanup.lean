import Arlen.Installd.Timestamp
import Arlen.Installd.Upgraded
import Arlen.Lib.Json
import Arlen.Lib.Machine

/-!
# Cleaning the trash

`cleanup_trash` of `trash.rs`, over runs in which apps are staged for deletion and the trash
is cleaned, at any readings of the clock, while others change the tree beside the trash. Any
call may fail. The text of a `.trash-info` is a parameter, as far as printing and reading it
go.
-/

namespace Arlen.Installd

open Arlen.Lib

/-! ## Cleaning -/

/-- Writing and reading a `.trash-info`. -/
structure InfoText where
  print : TrashInfo → String
  read : String → Option TrashInfo

/-- What is printed reads back. -/
def InfoText.Reads (text : InfoText) : Prop := ∀ info, text.read (text.print info) = some info

inductive Panic where
  | charBoundary
deriving DecidableEq

structure CleanEnv where
  plan : Plan
  text : InfoText
  now : Nat

def infoPath (n : Name) : Loc := Shelf.trash.at [n, trashInfoName]

/-- Whether the entry can be shown to be past its window. -/
def shouldDelete (env : CleanEnv) (n : Name) : Action World Panic Bool := do
  match ← (read env.plan (infoPath n)).attempt with
  | .error _ => return false
  | .ok content =>
    match (decodeUtf8 content).bind env.text.read with
    | none => return false
    | some info =>
      match isExpired env.now info.deletedAt.toList with
      | none => Action.fail .charBoundary
      | some expired => return expired

/-- One entry of the trash, with how many are deleted. -/
def cleanEntry (env : CleanEnv) (n : Name) : Action World Panic Nat := do
  if ← shouldDelete env n then
    match ← (removeDirAll env.plan (Shelf.trash.at [n])).attempt with
    | .ok () => return 1
    | .error _ => return 0
  else return 0

def cleanEach (env : CleanEnv) : List Name → Action World Panic Nat
  | [] => return 0
  | n :: rest => do
    let one ← cleanEntry env n
    let more ← cleanEach env rest
    return one + more

/-- `cleanup_trash`. -/
def cleanupTrash (env : CleanEnv) : Action World Panic Nat := do
  match ← (readDir env.plan (Shelf.trash.at [])).attempt with
  | .error _ => return 0
  | .ok names => cleanEach env names

/-! ## What cleaning removes -/

variable {text : InfoText} {env : CleanEnv} {fs fs' f₀ : Fs} {n : Name} {w : World} {total : Prop}

/-- What an entry's `.trash-info` says. -/
def infoOf (text : InfoText) (fs : Fs) (n : Name) : Option TrashInfo :=
  match fs.node (infoPath n) with
  | some (.leaf content) => (decodeUtf8 content).bind text.read
  | _ => none

/-- The entry is past its window. -/
def Past (text : InfoText) (now : Nat) (fs : Fs) (n : Name) : Prop :=
  ∃ info, infoOf text fs n = some info ∧ isExpired now info.deletedAt.toList = some true

/-- Things were removed only, and of no entry but those past their window. -/
structure Cleans (env : CleanEnv) (f₀ fs : Fs) : Prop where
  shrinks : Shrinks f₀ fs
  past : ∀ n r, fs.node (Shelf.trash.at (n :: r)) ≠ f₀.node (Shelf.trash.at (n :: r)) →
    Past env.text env.now f₀ n

theorem Cleans.refl (env : CleanEnv) (fs : Fs) : Cleans env fs fs :=
  ⟨.refl fs, fun _ _ h => absurd rfl h⟩

/-- What is still said was said before. -/
theorem infoOf_of_shrinks {info : TrashInfo} (h : Shrinks f₀ fs)
    (hinfo : infoOf text fs n = some info) : infoOf text f₀ n = some info := by
  rcases h (infoPath n) with hnone | hsame
  · unfold infoOf at hinfo
    rw [hnone] at hinfo
    cases hinfo
  · unfold infoOf at hinfo ⊢
    rwa [hsame] at hinfo

theorem ends_shouldDelete (n : Name) (w : World) :
    (shouldDelete env n).Ends total w
      (fun b w' => w'.fs = w.fs ∧ (b = true → Past env.text env.now w.fs n))
      fun _ w' => w'.fs = w.fs := by
  have hread : ((read env.plan (infoPath n)).attempt : Action World Panic _).Ends total w
      (fun r w' => w'.fs = w.fs ∧ ∀ content, r = .ok content →
        w.fs.node (infoPath n) = some (.leaf content)) fun _ _ => False := by
    refine Action.Ends.attempt ((ends_query_any _ w).mono ?_ fun e w' hw => ⟨hw, fun _ h => ?_⟩)
    · rintro content w' ⟨hcontent, hw⟩
      refine ⟨hw, fun content' h => ?_⟩
      cases h
      exact contentOf_eq_ok hcontent
    · cases h
  refine hread.safe.bind ?_
  rintro (e | content) w' ⟨hw, hnode⟩
  · exact Action.Ends.pure ⟨hw, fun h => (by cases h)⟩
  · have hinfo : infoOf env.text w.fs n = (decodeUtf8 content).bind env.text.read := by
      unfold infoOf
      rw [hnode content rfl]
    simp only
    cases hi : (decodeUtf8 content).bind env.text.read with
    | none => exact Action.Ends.pure ⟨hw, fun h => (by cases h)⟩
    | some info =>
      simp only
      cases he : isExpired env.now info.deletedAt.toList with
      | none => exact Action.Ends.fail hw
      | some expired =>
        refine Action.Ends.pure ⟨hw, fun h => ⟨info, hinfo.trans hi, ?_⟩⟩
        rw [he, h]

/-- Clearing an entry that is past its window. -/
theorem freeToClear_cleans (h : Past env.text env.now f₀ n) :
    FreeToClear (Cleans env f₀) (Shelf.trash.at [n]) := by
  intro fs fs' hP hshrinks hrest
  refine ⟨hP.shrinks.trans hshrinks, fun k r hne => ?_⟩
  by_cases hk : k = n
  · rw [hk]
    exact h
  · refine hP.past k r fun hsame => hne ?_
    rw [hrest, hsame]
    rw [Shelf.at_isPrefix_iff, List.cons_prefix_cons]
    exact fun hpre => hk hpre.1.symm

theorem keeps_cleanEntry (n : Name) : KeepsTree total (Cleans env f₀) (cleanEntry env n) := by
  intro w hw
  refine Action.Ends.bind ((ends_shouldDelete n w).mono (fun _ _ h => h) fun _ w' hsame => ?_) ?_
  · rw [hsame]
    exact hw
  · rintro b w' ⟨hsame, hpast⟩
    rw [← hsame] at hw
    refine Action.Ends.ite (fun hb => ?_) fun _ => Action.Ends.pure hw
    obtain ⟨info, hinfo, hexpired⟩ := hpast hb
    rw [← hsame] at hinfo
    have hclear : KeepsTree total (Cleans env f₀) (removeDirAll env.plan (Shelf.trash.at [n])) :=
      keeps_removeDirAll
        (freeToClear_cleans ⟨info, infoOf_of_shrinks hw.shrinks hinfo, hexpired⟩)
    refine (Action.Keeps.attempt hclear).bind (fun r => ?_) w' hw
    rcases r with e | u
    · exact Action.Keeps.pure 0
    · exact Action.Keeps.pure 1

theorem keeps_cleanupTrash : KeepsTree total (Cleans env f₀) (cleanupTrash env) := by
  have heach : ∀ names, KeepsTree total (Cleans env f₀) (cleanEach env names) := by
    intro names
    induction names with
    | nil => exact Action.Keeps.pure 0
    | cons n names ih =>
      exact (keeps_cleanEntry n).bind fun _ => ih.bind fun _ => Action.Keeps.pure _
  refine (Action.Keeps.attempt (keeps_query _)).bind fun r => ?_
  rcases r with e | names
  · exact Action.Keeps.pure 0
  · exact heach names

/-! ## What unregistering touches -/

variable {S : List Shelf} {s : Shelf} {plan : Plan} {id : String} {tenv : TrashEnv}

theorem keeps_ignore {P : Fs → Prop} {ε ε' : Type} {act : Action World ε Unit}
    (h : KeepsTree total P act) : KeepsTree total P (ignore act : Action World ε' Unit) :=
  h.attempt.bind fun _ => Action.Keeps.pure ()

theorem touches_removeFile (hs : s ∈ S) (r : List Name) :
    KeepsTree total (Touches S f₀) (removeFile plan (s.at r)) :=
  keeps_change (fun _ _ hP hfs => hP.trans
    ((touches_of_update (FileSystem.node_of_unlink hfs).2).mono fun _ ht =>
      List.mem_singleton.1 ht ▸ hs)) fun _ _ hP => hP

theorem touches_removePlaced {env : Env} (hs : s ∈ S) (file : String) :
    KeepsTree total (Touches S f₀) (removePlaced env s file) :=
  (keeps_pathExists _).bind fun _ w hw =>
    Action.Ends.ite (fun _ => Action.Keeps.mapError (touches_removeFile hs _) w hw) fun _ =>
      Action.Ends.pure hw

theorem touches_removeSchemas {env : Env} (hs : Shelf.schemas ∈ S) (m : Manifest) :
    KeepsTree total (Touches S f₀) (removeSchemas env m) := by
  refine Action.Keeps.forEach fun rel _ => ?_
  unfold removeSchema
  cases ownName rel with
  | none => exact Action.Keeps.pure ()
  | some n =>
    exact (keeps_pathExists _).bind fun _ w hw =>
      Action.Ends.ite (fun _ => Action.Keeps.mapError (touches_removeFile hs _) w hw) fun _ =>
        Action.Ends.pure hw

theorem touches_removeProfile {env : Env} (hs : Shelf.permissions ∈ S) (id : String) :
    KeepsTree total (Touches S f₀) (removeProfile env id) := by
  unfold removeProfile
  split
  · exact (keeps_pathExists _).bind fun _ w hw =>
      Action.Ends.ite (fun _ => Action.Keeps.mapError (touches_removeFile hs _) w hw) fun _ =>
        Action.Ends.pure hw
  · exact Action.Keeps.fail _

theorem touches_removeModules {env : Env} (hs : Shelf.modules ∈ S) (hp : Shelf.permissions ∈ S)
    (m : Manifest) : KeepsTree total (Touches S f₀) (removeModules env m) := by
  refine Action.Keeps.forEach fun rel _ => ?_
  unfold removeModule
  cases ownName rel with
  | none => exact Action.Keeps.pure ()
  | some n =>
    have hprofile : KeepsTree total (Touches S f₀)
        (ignore (removeProfile env (fromUtf8Lossy n)) : Install Unit) :=
      keeps_ignore (touches_removeProfile hp _)
    refine (keeps_pathExists _).bind fun b w hw => Action.Ends.ite (fun _ => ?_) fun _ =>
      hprofile w hw
    exact Action.Keeps.bind (Action.Keeps.mapError
      (keeps_removeDirAll (freeBelow_touches hs _).clears)) (fun _ => hprofile) w hw

/-- Unregistering touches neither the apps nor the trash. -/
theorem touches_unregister {env : Env} (m : Manifest) :
    KeepsTree total (Touches (.permissions :: registers) f₀) (unregister env m) :=
  (keeps_ignore (touches_removeSchemas (by decide) m)).bind fun _ =>
    (keeps_ignore (touches_removeModules (by decide) (by decide) m)).bind fun _ =>
      (keeps_ignore (touches_removePlaced (by decide) _)).bind fun _ =>
        keeps_ignore (touches_removePlaced (by decide) _)

/-! ## What staging does -/

/-- Until the app is moved: the apps are as they were, and so is the trash, but that the
entry in the app's place may have been removed. -/
structure Waiting (id : String) (f₀ fs : Fs) : Prop where
  apps : SameIn .apps f₀ fs
  others : ∀ n r, n ≠ utf8 id →
    fs.node (Shelf.trash.at (n :: r)) = f₀.node (Shelf.trash.at (n :: r))
  info : fs.node (infoPath (utf8 id)) = none ∨
    fs.node (infoPath (utf8 id)) = f₀.node (infoPath (utf8 id))

/-- The app has been moved, and its `.trash-info` is one of these. -/
structure MovedAway (id : String) (info : Option (Entry Bytes) → Prop) (f₀ fs : Fs) : Prop where
  there : f₀.node (appDir id) ≠ none
  gone : fs.node (appDir id) = none
  others : ∀ n r, n ≠ utf8 id →
    fs.node (Shelf.trash.at (n :: r)) = f₀.node (Shelf.trash.at (n :: r))
  info : info (fs.node (infoPath (utf8 id)))

theorem Waiting.refl (id : String) (fs : Fs) : Waiting id fs fs :=
  ⟨.refl _ _, fun _ _ _ => rfl, .inr rfl⟩

theorem Waiting.touches (h : Waiting id f₀ fs) (ht : Touches S fs fs') (ha : Shelf.apps ∉ S)
    (hs : Shelf.trash ∉ S) : Waiting id f₀ fs' := by
  have htrash := ht.sameIn hs
  refine ⟨h.apps.trans (ht.sameIn ha), fun n r hn => (htrash _).trans (h.others n r hn), ?_⟩
  have hinfo : fs'.node (infoPath (utf8 id)) = fs.node (infoPath (utf8 id)) := htrash _
  rw [hinfo]
  exact h.info

theorem freeToClear_waiting : FreeToClear (Waiting id f₀) (trashEntry id) := by
  intro fs fs' hP hshrinks hrest
  refine ⟨fun names => ?_, fun n r hn => ?_, ?_⟩
  · rw [hrest _ fun h => absurd (head?_of_trash_below h) (Shelf.head?_at_ne (by decide) names)]
    exact hP.apps names
  · rw [hrest, hP.others n r hn]
    intro h
    unfold trashEntry at h
    rw [Shelf.at_isPrefix_iff, List.cons_prefix_cons] at h
    exact hn h.1.symm
  · rcases hshrinks (infoPath (utf8 id)) with h | h
    · exact .inl h
    · rw [h]
      exact hP.info

theorem freeToMake_waiting {q : Loc} (hq : q <+: Shelf.trash.at []) :
    FreeToMake (Waiting id f₀) q := by
  intro fs fs' hP hnone hall
  rcases List.prefix_cons_iff.1 hq with rfl | ⟨r, rfl, hr⟩
  · rw [fs.root] at hnone
    cases hnone
  · rw [List.prefix_nil.1 hr] at hall
    have hrest : ∀ n r, fs'.node (Shelf.trash.at (n :: r)) = fs.node (Shelf.trash.at (n :: r)) := by
      intro n r
      rw [hall, if_neg]
      exact fun h => (by cases h)
    refine ⟨fun names => ?_, fun n r hn => (hrest n r).trans (hP.others n r hn), ?_⟩
    · have hne : Shelf.apps.at names ≠ Shelf.trash.at [] := Shelf.at_ne (by decide) _ _
      exact (hall _).trans ((if_neg hne).trans (hP.apps names))
    · have hinfo : fs'.node (infoPath (utf8 id)) = fs.node (infoPath (utf8 id)) := hrest _ _
      rw [hinfo]
      exact hP.info

/-- What the `.trash-info` of a moved app may be: the one written, what a write that broke off
left, or the one the app itself brought, if the write failed. -/
def StagedInfo (plan : Plan) (own : Option (Entry Bytes)) (content : Bytes)
    (e : Option (Entry Bytes)) : Prop :=
  e = some (.leaf content) ∨ (∃ k fault part, plan k = some fault ∧ fault.left = some part ∧
    e = some (.leaf part)) ∨ e = own ∧ (plan ≠ noFault ∨ ∀ b, own ≠ some (.leaf b))

theorem writeAt_ne_error {p : Loc} {b c : Bytes} {why : FileSystem.Refusal}
    (h : fs.node p = some (.leaf b)) : fs.writeAt p c ≠ .error why := by
  have hp : p ≠ [] := by
    rintro rfl
    rw [fs.root] at h
    cases h
  have hlast := List.dropLast_append_getLast hp
  have hdir : fs.node p.dropLast = some .dir :=
    FileSystem.node_of_isPrefix (by rw [h]; simp) (List.dropLast_prefix p) fun heq => by
      have := congrArg List.length heq
      rw [List.length_dropLast] at this
      have := List.length_pos_iff.2 hp
      omega
  have hfile : fs.node (p.dropLast ++ [p.getLast hp]) ≠ some .dir := by
    rw [hlast, h]
    exact fun hd => (by cases hd)
  unfold FileSystem.writeAt FileSystem.write
  rw [dif_neg hp, dif_pos hdir, dif_neg hfile]
  exact fun hw => (by cases hw)

/-- The last write leaves one of the three. -/
theorem ends_writeInfo {content : Bytes} {f₀ : Fs} {w : World}
    (hw : MovedAway id (· = f₀.node (appDir id ++ [trashInfoName])) f₀ w.fs) :
    (write plan (trashEntry id ++ [trashInfoName]) content).Ends total w
      (fun _ w' => MovedAway id (StagedInfo plan (f₀.node (appDir id ++ [trashInfoName])) content)
        f₀ w'.fs)
      fun _ w' => MovedAway id (StagedInfo plan (f₀.node (appDir id ++ [trashInfoName])) content)
        f₀ w'.fs := by
  have hpath : trashEntry id ++ [trashInfoName] = infoPath (utf8 id) := rfl
  have hput : ∀ (e : Bytes) (fs' : Fs), w.fs.writeAt (infoPath (utf8 id)) e = .ok fs' →
      StagedInfo plan (f₀.node (appDir id ++ [trashInfoName])) content (some (.leaf e)) →
      MovedAway id (StagedInfo plan (f₀.node (appDir id ++ [trashInfoName])) content) f₀ fs' := by
    intro e fs' hfs hinfo
    have hall := (FileSystem.writeAt_eq_ok hfs).2.2
    refine ⟨hw.there, ?_, fun n r hn => ?_, ?_⟩
    · rw [hall, if_neg]
      · exact hw.gone
      · exact Shelf.at_ne (by decide) _ _
    · rw [hall, if_neg]
      · exact hw.others n r hn
      · intro heq
        exact hn (List.cons.inj (List.cons.inj heq).2).1
    · rw [hall, if_pos rfl]
      exact hinfo
  have hsame : plan ≠ noFault ∨ (∀ b, f₀.node (appDir id ++ [trashInfoName]) ≠ some (.leaf b)) →
      MovedAway id (StagedInfo plan (f₀.node (appDir id ++ [trashInfoName])) content) f₀ w.fs :=
    fun h => ⟨hw.there, hw.gone, hw.others, .inr (.inr ⟨hw.info, h⟩)⟩
  rw [hpath]
  unfold Action.Ends write change
  cases hplan : plan w.made with
  | some fault =>
    have hne : plan ≠ noFault := by
      rintro rfl
      cases hplan
    simp only
    unfold leftAt
    cases hleft : fault.left with
    | none => exact hsame (.inl hne)
    | some part =>
      cases hpart : w.fs.writeAt (infoPath (utf8 id)) part with
      | ok fs' =>
        simp only [hpart]
        exact hput part fs' hpart (.inr (.inl ⟨_, fault, part, hplan, hleft, rfl⟩))
      | error why =>
        simp only [hpart]
        exact hsame (.inl hne)
  | none =>
    cases hfs : w.fs.writeAt (infoPath (utf8 id)) content with
    | ok fs' =>
      simp only [hfs]
      exact hput content fs' hfs (.inl rfl)
    | error why =>
      simp only [hfs]
      refine hsame (.inr fun b hb => ?_)
      rw [← hw.info] at hb
      exact writeAt_ne_error hb hfs

/-- What a call to stage an app makes of the tree, however it ends. -/
def Stages (tenv : TrashEnv) (id : String) (f₀ fs : Fs) : Prop :=
  Waiting id f₀ fs ∨ ∃ info : TrashInfo, info.deletedAt = tenv.now ∧
    MovedAway id (StagedInfo tenv.plan (f₀.node (appDir id ++ [trashInfoName]))
      (utf8 (tenv.infoText info))) f₀ fs

theorem ends_moveToTrash_any {info : TrashInfo} (hnow : info.deletedAt = tenv.now)
    (hw : Waiting id f₀ w.fs) :
    (moveToTrash tenv id info).Ends total w (fun _ w' => Stages tenv id f₀ w'.fs)
      fun _ w' => Stages tenv id f₀ w'.fs := by
  have hrest : ∀ w₁ : World, Waiting id f₀ w₁.fs → (do
      (createDirAll tenv.plan (Shelf.trash.at [])).mapError .io
      (rename tenv.plan (appDir id) (trashEntry id)).mapError .io
      (write tenv.plan (trashEntry id ++ [trashInfoName]) (utf8 (tenv.infoText info))).mapError .io :
        Install Unit).Ends total w₁ (fun _ w' => Stages tenv id f₀ w'.fs)
      fun _ w' => Stages tenv id f₀ w'.fs := by
    intro w₁ h₁
    have hmake : KeepsTree total (Waiting id f₀)
        ((createDirAll tenv.plan (Shelf.trash.at [])).mapError InstallError.io) :=
      Action.Keeps.mapError (keeps_createDirAll fun q hq => freeToMake_waiting hq)
    refine Action.Ends.bind ((hmake w₁ h₁).mono (fun _ _ h => h) fun _ _ h => .inl h) ?_
    intro _ w₂ h₂
    refine Action.Ends.bind (Action.Ends.mapError (ends_rename_any.mono (fun _ _ h => h)
      fun e w₃ h₃ => .inl (by rw [h₃]; exact h₂))) ?_
    intro _ w₃ h₃
    obtain ⟨hsrc, -, ⟨heq, -⟩ | ⟨-, hmoved⟩⟩ := FileSystem.renameTo_eq_ok h₃
    · exact absurd heq (Shelf.at_ne (by decide) _ _)
    have hgone : w₃.fs.node (appDir id) = none :=
      hmoved.source _ (List.prefix_refl _) fun ht => not_trash_below_app ht (List.prefix_refl _)
    have hown : w₃.fs.node (infoPath (utf8 id)) = f₀.node (appDir id ++ [trashInfoName]) :=
      (hmoved.below [trashInfoName]).trans (h₂.apps _)
    have hothers : ∀ n r, n ≠ utf8 id →
        w₃.fs.node (Shelf.trash.at (n :: r)) = f₀.node (Shelf.trash.at (n :: r)) := by
      intro n r hn
      rw [hmoved.rest, h₂.others n r hn]
      · exact fun h => absurd (head?_of_app_below h) (Shelf.head?_at_ne (by decide) _)
      · intro h
        unfold trashEntry at h
        rw [Shelf.at_isPrefix_iff, List.cons_prefix_cons] at h
        exact hn h.1.symm
    have hthere : f₀.node (appDir id) ≠ none := by
      have happ : w₂.fs.node (appDir id) = f₀.node (appDir id) := h₂.apps [utf8 id]
      rw [← happ]
      exact hsrc
    exact Action.Ends.mapError ((ends_writeInfo ⟨hthere, hgone, hothers, hown⟩).mono
      (fun _ _ h => .inr ⟨info, hnow, h⟩) fun _ _ h => .inr ⟨info, hnow, h⟩)
  refine Action.Ends.bind ((keeps_pathExists _ w hw).mono (fun _ _ h => h) fun _ _ h => .inl h) ?_
  intro b w' hw'
  have hclear : KeepsTree total (Waiting id f₀)
      ((removeDirAll tenv.plan (trashEntry id)).mapError InstallError.io) :=
    Action.Keeps.mapError (keeps_removeDirAll freeToClear_waiting)
  exact Action.Ends.ite (fun _ => Action.Ends.bind
    ((hclear w' hw').mono (fun _ _ h => h) fun _ _ h => .inl h) fun _ w'' h => hrest w'' h)
    fun _ => hrest w' hw'

/-- **What staging does**, whatever fails. -/
theorem ends_stageForDeletion_any (id : String) (w : World) :
    (stageForDeletion tenv id).Ends total w (fun _ w' => Stages tenv id w.fs w'.fs)
      fun _ w' => Stages tenv id w.fs w'.fs := by
  have hkeep : ∀ {α : Type} {act : Install α}, KeepsTree total (Waiting id w.fs) act → ∀ v : World,
      Waiting id w.fs v.fs →
      act.Ends total v (fun _ w' => Waiting id w.fs w'.fs) fun _ w' => Stages tenv id w.fs w'.fs :=
    fun hact v hv => (hact v hv).mono (fun _ _ h => h) fun _ _ h => .inl h
  refine Action.Ends.bind (hkeep (keeps_ofExcept _) w (Waiting.refl id w.fs)) fun _ w₁ h₁ => ?_
  refine Action.Ends.bind (hkeep (keeps_pathExists _) w₁ h₁) fun b w₂ h₂ => ?_
  refine Action.Ends.ite (fun _ => ?_) fun _ => Action.Ends.fail (.inl h₂)
  have hload : KeepsTree total (Waiting id w.fs) (loadManifestOk tenv.toEnv (appDir id)) :=
    (Action.Keeps.attempt keeps_loadManifest).bind fun r => by
      rcases r with e | m
      · exact Action.Keeps.pure _
      · exact Action.Keeps.pure _
  refine Action.Ends.bind (hkeep hload w₂ h₂) fun m w₃ h₃ => ?_
  have htail : ∀ v : World, Waiting id w.fs v.fs → (do
      moveToTrash tenv id (trashInfoOf tenv id m)
      return trashInfoOf tenv id m : Install TrashInfo).Ends total v
      (fun _ w' => Stages tenv id w.fs w'.fs) fun _ w' => Stages tenv id w.fs w'.fs :=
    fun v hv => Action.Ends.bind (ends_moveToTrash_any rfl hv) fun _ _ h => Action.Ends.pure h
  cases m with
  | none => exact htail w₃ h₃
  | some m =>
    refine Action.Ends.bind ((touches_unregister m w₃ (.refl _ _)).mono
      (fun _ w₄ h => h₃.touches h (by decide) (by decide))
      fun _ w₄ h => .inl (h₃.touches h (by decide) (by decide))) fun _ w₄ h₄ => htail w₄ h₄

/-! ## Runs -/

inductive TrashCall where
  | stage (env : TrashEnv) (id : String)
  | cleanup (plan : Plan)

/-- A call, at a reading of the clock, and the tree as others have left it. -/
structure TrashStep where
  call : TrashCall
  now : Nat
  before : Fs

/-- The world, and for each entry of the trash the reading of the clock at the call that
moved it there. -/
structure Trashing where
  world : World
  staged : Name → Option Nat

/-- The environment of a call: it writes the time and the text of its `.trash-info`. -/
def TrashEnv.dated (env : TrashEnv) (text : InfoText) (now : Nat) : TrashEnv :=
  { env with
    now := String.ofList (formatTimestamp now)
    infoText := text.print }

def Trashing.step (text : InfoText) (w : Trashing) (m : TrashStep) : Option (Unit × Trashing) :=
  match m.call with
  | .stage env id =>
    match stageForDeletion (env.dated text m.now) id ⟨m.before, w.world.made⟩ with
    | none => none
    | some (_, world) =>
      some ((), ⟨world, fun n =>
        if n = utf8 id ∧ m.before.node (appDir id) ≠ none ∧ world.fs.node (appDir id) = none then
          some m.now
        else w.staged n⟩)
  | .cleanup plan =>
    match cleanupTrash ⟨plan, text, m.now⟩ ⟨m.before, w.world.made⟩ with
    | none => none
    | some (_, world) => some ((), ⟨world, w.staged⟩)

/-- The daemon, and a tree to begin with. -/
def trashing (text : InfoText) (fs : Fs) : Machine Trashing TrashStep Unit :=
  ⟨⟨⟨fs, 0⟩, fun _ => none⟩, Trashing.step text⟩

/-- A write that broke off has left no text that reads as a `.trash-info`. -/
def BreaksOff (text : InfoText) (plan : Plan) : Prop :=
  ∀ k fault part, plan k = some fault → fault.left = some part →
    (decodeUtf8 part).bind text.read = none

/-- Others leave the trash alone; an app is staged before the year 10000, and if calls may
fail, it has no `.trash-info` of its own. -/
def StagesWell (text : InfoText) (w : Trashing) (m : TrashStep) : Prop :=
  SameIn .trash w.world.fs m.before ∧
    ∀ env id, m.call = .stage env id → m.now < endOfYear9999 ∧ BreaksOff text env.plan ∧
      (env.plan = noFault ∨ m.before.node (appDir id ++ [trashInfoName]) = none)

/-- Whatever is said of an entry says when it was staged. -/
def Dated (text : InfoText) (w : Trashing) : Prop :=
  ∀ n info, infoOf text w.world.fs n = some info → ∃ t, w.staged n = some t ∧
    t < endOfYear9999 ∧ info.deletedAt = String.ofList (formatTimestamp t)

variable {t t' : Trashing} {m : TrashStep}

theorem infoOf_congr (h : fs'.node (infoPath n) = fs.node (infoPath n)) :
    infoOf text fs' n = infoOf text fs n := by
  unfold infoOf
  rw [h]

theorem infoOf_leaf {content : Bytes} (h : fs.node (infoPath n) = some (.leaf content)) :
    infoOf text fs n = (decodeUtf8 content).bind text.read := by
  unfold infoOf
  rw [h]

theorem infoOf_of_not_leaf (h : ∀ b, fs.node (infoPath n) ≠ some (.leaf b)) :
    infoOf text fs n = none := by
  unfold infoOf
  split
  · next b hb => exact absurd hb (h b)
  · rfl

/-- What is said of an app that has been moved. -/
theorem infoOf_movedAway {plan : Plan} {info info' : TrashInfo} {own : Option (Entry Bytes)}
    (hreads : text.Reads) (hbreaks : BreaksOff text plan) (hown : plan = noFault ∨ own = none)
    (h : MovedAway id (StagedInfo plan own (utf8 (text.print info))) f₀ fs)
    (hinfo : infoOf text fs (utf8 id) = some info') : info' = info := by
  rcases h.info with hwritten | ⟨k, fault, part, hk, hleft, hpart⟩ | ⟨hsame, hwhy⟩
  · rw [infoOf_leaf hwritten, decodeUtf8_utf8, Option.bind_some, hreads info] at hinfo
    exact (Option.some.inj hinfo).symm
  · rw [infoOf_leaf hpart, hbreaks k fault part hk hleft] at hinfo
    cases hinfo
  · have hleaf : ∀ b, own ≠ some (.leaf b) := by
      rcases hown with hquiet | hnone
      · exact hwhy.resolve_left fun hne => hne hquiet
      · intro b hb
        rw [hnone] at hb
        cases hb
    rw [infoOf_of_not_leaf (fun b hb => hleaf b (hsame.symm.trans hb))] at hinfo
    cases hinfo

theorem cleans_of_run {answer : Except Panic Nat} {w' : World}
    (h : cleanupTrash env w = some (answer, w')) : Cleans env w.fs w'.fs := by
  have hends : (cleanupTrash env).Ends False w (fun _ w' => Cleans env w.fs w'.fs)
      fun _ w' => Cleans env w.fs w'.fs := keeps_cleanupTrash w (Cleans.refl env w.fs)
  cases answer with
  | ok _ => exact hends.of_ok h
  | error _ => exact hends.of_error h

theorem stages_of_run {answer : Except InstallError TrashInfo} {w' : World}
    (h : stageForDeletion tenv id w = some (answer, w')) : Stages tenv id w.fs w'.fs := by
  have hends : (stageForDeletion tenv id).Ends False w (fun _ w' => Stages tenv id w.fs w'.fs)
      fun _ w' => Stages tenv id w.fs w'.fs := ends_stageForDeletion_any id w
  cases answer with
  | ok _ => exact hends.of_ok h
  | error _ => exact hends.of_error h

theorem Dated.step (hreads : text.Reads) (h : Dated text t) (hok : StagesWell text t m) {r : Unit}
    (hs : t.step text m = some (r, t')) : Dated text t' := by
  obtain ⟨hbefore, hstage⟩ := hok
  have hdated : ∀ n info, infoOf text m.before n = some info → ∃ s, t.staged n = some s ∧
      s < endOfYear9999 ∧ info.deletedAt = String.ofList (formatTimestamp s) := by
    intro n info hinfo
    rw [infoOf_congr (hbefore _)] at hinfo
    exact h n info hinfo
  unfold Trashing.step at hs
  cases hcall : m.call with
  | cleanup plan =>
    rw [hcall] at hs
    simp only at hs
    cases hrun : cleanupTrash ⟨plan, text, m.now⟩ ⟨m.before, t.world.made⟩ with
    | none =>
      rw [hrun] at hs
      cases hs
    | some out =>
      obtain ⟨answer, world⟩ := out
      rw [hrun] at hs
      cases hs
      intro n info hinfo
      exact hdated n info (infoOf_of_shrinks (cleans_of_run hrun).shrinks hinfo)
  | stage env id =>
    obtain ⟨hnow, hbreaks, hown⟩ := hstage env id hcall
    rw [hcall] at hs
    simp only at hs
    cases hrun : stageForDeletion (env.dated text m.now) id ⟨m.before, t.world.made⟩ with
    | none =>
      rw [hrun] at hs
      cases hs
    | some out =>
      obtain ⟨answer, world⟩ := out
      rw [hrun] at hs
      cases hs
      intro n info hinfo
      rcases stages_of_run hrun with hwaiting | ⟨written, hdate, hmoved⟩
      · -- The app is still in its place, and the trash says no more than before.
        have hnot : ¬ (n = utf8 id ∧ m.before.node (appDir id) ≠ none ∧
            world.fs.node (appDir id) = none) := by
          rintro ⟨-, hthere, hgone⟩
          exact hthere ((hwaiting.apps [utf8 id]).symm.trans hgone)
        simp only [if_neg hnot]
        refine hdated n info ?_
        by_cases hn : n = utf8 id
        · rw [hn] at hinfo ⊢
          rcases hwaiting.info with hnone | hsame
          · rw [infoOf_of_not_leaf (fun b hb => by rw [hnone] at hb; cases hb)] at hinfo
            cases hinfo
          · rwa [infoOf_congr hsame] at hinfo
        · rwa [infoOf_congr (hwaiting.others n [trashInfoName] hn)] at hinfo
      · by_cases hn : n = utf8 id
        · rw [hn] at hinfo ⊢
          have heq := infoOf_movedAway hreads hbreaks hown hmoved hinfo
          simp only [true_and, hmoved.there, hmoved.gone, ne_eq, not_false_eq_true, if_true]
          exact ⟨m.now, rfl, hnow, by rw [heq, hdate]; rfl⟩
        · simp only [hn, false_and, if_false]
          refine hdated n info ?_
          rwa [infoOf_congr (hmoved.others n [trashInfoName] hn)] at hinfo

theorem dated_of_run {τ : List (TrashStep × Unit)} (hreads : text.Reads)
    (hempty : ∀ n, f₀.node (Shelf.trash.at [n]) = none)
    (h : (trashing text f₀).Run (StagesWell text) τ t) : Dated text t := by
  refine Machine.Run.inv (I := fun _ t => Dated text t) (fun n info hinfo => ?_)
    (fun hI hok hs => hI.step hreads hok hs) h
  have hnone : f₀.node (infoPath n) = none := by
    by_contra hne
    exact FileSystem.node_ne_none_of_isPrefix hne (p := Shelf.trash.at [n]) ⟨_, rfl⟩ (hempty n)
  have hinit : infoOf text f₀ n = none :=
    infoOf_of_not_leaf fun b hb => by
      rw [hnone] at hb
      cases hb
  exact absurd (hinit.symm.trans hinfo) (fun h => (by cases h))

/-- Past its window, the entry was staged thirty days ago. -/
theorem Dated.past (h : Dated text t) {now : Nat} (hbefore : SameIn .trash t.world.fs m.before)
    (hpast : Past text now m.before n) :
    ∃ s, t.staged n = some s ∧ s + 30 * 86400 ≤ now := by
  obtain ⟨info, hinfo, hexpired⟩ := hpast
  rw [infoOf_congr (hbefore _)] at hinfo
  obtain ⟨s, hs, hlt, hdate⟩ := h n info hinfo
  refine ⟨s, hs, ?_⟩
  rw [hdate, String.toList_ofList, isExpired_formatTimestamp hlt] at hexpired
  omega

/-- **The timestamps of the trash.** Before the year 10000 they read back; reading one returns
exactly when no field is cut inside a character; and cleaning the trash takes from an entry
only thirty days after the call that staged it. -/
theorem trash_timestamps (hreads : text.Reads)
    (hempty : ∀ n, f₀.node (Shelf.trash.at [n]) = none) :
    (∀ secs, secs < endOfYear9999 → parseIso8601 (formatTimestamp secs) = some (.ok secs)) ∧
      (∀ now s, isExpired now s ≠ none ↔ Text.byteLen s < 19 ∨ CutsClean s fields) ∧
      ∀ τ t m plan t', (trashing text f₀).Run (StagesWell text) τ t → StagesWell text t m →
        m.call = .cleanup plan → t.step text m = some ((), t') → ∀ n r,
          t'.world.fs.node (Shelf.trash.at (n :: r)) ≠ m.before.node (Shelf.trash.at (n :: r)) →
            ∃ s, t.staged n = some s ∧ s + 30 * 86400 ≤ m.now := by
  refine ⟨fun secs h => parseIso8601_formatTimestamp h, isExpired_ne_none, ?_⟩
  intro τ t m plan t' hrun hok hcall hs n r hne
  have hdated := dated_of_run hreads hempty hrun
  unfold Trashing.step at hs
  rw [hcall] at hs
  simp only at hs
  cases hclean : cleanupTrash ⟨plan, text, m.now⟩ ⟨m.before, t.world.made⟩ with
  | none =>
    rw [hclean] at hs
    cases hs
  | some out =>
    rw [hclean] at hs
    cases hs
    exact hdated.past hok.1 ((cleans_of_run hclean).past n r hne)

/-! ## An app in the trash -/

/-- `serde_json::to_string_pretty` of a `.trash-info`, and a reader of such texts. -/
def prettyText : InfoText where
  print info := String.ofList ("\x7b\n  \"app_id\": ".toList ++ Json.printString info.appId ++
    (",\n  \"app_name\": ".toList ++ Json.printString info.appName ++
      (",\n  \"app_version\": ".toList ++ Json.printString info.appVersion ++
        (",\n  \"deleted_at\": ".toList ++ Json.printString info.deletedAt ++
          (",\n  \"original_path\": ".toList ++ Json.printString info.originalPath ++
            "\n\x7d".toList)))))
  read s := do
    let s ← Text.stripPrefix "\x7b\n  \"app_id\": ".toList s.toList
    let (appId, s) ← Json.readString s
    let s ← Text.stripPrefix ",\n  \"app_name\": ".toList s
    let (appName, s) ← Json.readString s
    let s ← Text.stripPrefix ",\n  \"app_version\": ".toList s
    let (appVersion, s) ← Json.readString s
    let s ← Text.stripPrefix ",\n  \"deleted_at\": ".toList s
    let (deletedAt, s) ← Json.readString s
    let s ← Text.stripPrefix ",\n  \"original_path\": ".toList s
    let (originalPath, s) ← Json.readString s
    if s = "\n\x7d".toList then some ⟨appId, appName, appVersion, deletedAt, originalPath⟩ else none

theorem prettyText_reads : prettyText.Reads := by
  intro info
  unfold prettyText
  simp only [String.toList_ofList, List.append_assoc, Text.stripPrefix_append,
    Json.readString_printString, Option.bind_eq_bind, Option.bind_some, if_true]

theorem formatTimestamp_zero : formatTimestamp 0 = "1970-01-01T00:00:00Z".toList := by
  unfold formatTimestamp daysToYmd
  rw [yearLoop, if_pos (by decide)]
  rfl

/-- The app is staged at the epoch. -/
def atEpoch : TrashStep := ⟨.stage plainEnv "a", 0, plainTree⟩

/-- What it leaves. -/
def stagedWorld : World :=
  match stageForDeletion
    { plainEnv with now := "1970-01-01T00:00:00Z", infoText := prettyText.print } "a"
    ⟨plainTree, 0⟩ with
  | some (_, w) => w
  | none => ⟨plainTree, 0⟩

/-- Thirty days later the trash is cleaned. -/
def thirtyDaysOn : TrashStep := ⟨.cleanup noFault, 2592000, stagedWorld.fs⟩

theorem atEpoch_step : ∃ t, (trashing prettyText plainTree).init.step prettyText atEpoch =
    some ((), t) ∧ t.world = stagedWorld ∧ t.staged (utf8 "a") = some 0 := by
  have henv : plainEnv.dated prettyText 0 =
      { plainEnv with now := "1970-01-01T00:00:00Z", infoText := prettyText.print } := by
    unfold TrashEnv.dated
    rw [formatTimestamp_zero]
    rfl
  unfold Trashing.step
  simp only [atEpoch]
  rw [henv]
  exact ⟨_, rfl, rfl, rfl⟩

/-- An app staged at the epoch goes thirty days later. -/
theorem trash_timestamps_plain : ∃ t t', (trashing prettyText plainTree).Run
      (StagesWell prettyText) [(atEpoch, ())] t ∧
    t.step prettyText thirtyDaysOn = some ((), t') ∧
    t'.world.fs.node (Shelf.trash.at [utf8 "a"]) = none ∧
    ∃ s, t.staged (utf8 "a") = some s ∧ s + 30 * 86400 ≤ 2592000 := by
  obtain ⟨t, hstep, hworld, hstaged⟩ := atEpoch_step
  have hrun : (trashing prettyText plainTree).Run (StagesWell prettyText) [(atEpoch, ())] t := by
    refine Machine.Run.step (τ := []) .start ⟨fun _ => rfl, fun env id hcall => ?_⟩ hstep
    cases hcall
    refine ⟨by decide, fun k fault part hk => ?_, .inl rfl⟩
    cases hk
  have hclean : ∃ t', t.step prettyText thirtyDaysOn = some ((), t') ∧
      t'.world.fs.node (Shelf.trash.at [utf8 "a"]) = none := by
    unfold Trashing.step
    simp only [thirtyDaysOn]
    rw [hworld]
    have hgone : (cleanupTrash ⟨noFault, prettyText, 2592000⟩ ⟨stagedWorld.fs, stagedWorld.made⟩).map
        (fun r => r.2.fs.node (Shelf.trash.at [utf8 "a"])) = some none := by
      decide +kernel
    obtain ⟨r, hr, hnode⟩ := Option.map_eq_some_iff.1 hgone
    exact ⟨_, by rw [hr], hnode⟩
  obtain ⟨t', hclean, hgone⟩ := hclean
  refine ⟨t, t', hrun, hclean, hgone, ?_⟩
  refine (trash_timestamps prettyText_reads (fun n => ?_)).2.2 _ _ thirtyDaysOn noFault t' hrun
    ⟨?_, fun env id hcall => ?_⟩ rfl hclean (utf8 "a") [] ?_
  · rfl
  · rw [hworld]
    exact fun _ => rfl
  · cases hcall
  · rw [hgone]
    have hthere : stagedWorld.fs.node (Shelf.trash.at [utf8 "a"]) = some .dir := by rfl
    exact fun h => (by cases h.trans hthere)

end Arlen.Installd
