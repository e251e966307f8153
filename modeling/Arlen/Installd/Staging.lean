import Arlen.Installd.BreakOff

/-!
# Staging that leaves the app where it is

`stage_for_deletion` removes what the app has registered and then moves its directory into
the trash, with nothing that takes either back. An app without registrations whose move
stops before the rename is still installed; the tree and the calls that fail tell so.
-/

namespace Arlen.Installd

open Arlen.Lib

variable {env : TrashEnv} {m : Manifest} {w : World} {total : Prop} {P : Fs → Prop} {f₀ fs fs' : Fs}
  {id : String} {plan : Plan} {src dst p : Loc}

/-! ## Nothing registered -/

/-- Nothing stands under the names of what the manifest registers. -/
structure Unregistered (m : Manifest) (fs : Fs) : Prop where
  schemas : ∀ rel ∈ m.schemas, ∀ n, ownName rel = some n → fs.node (Shelf.schemas.at [n]) = none
  modules : ∀ rel ∈ m.modules, ∀ n, ownName rel = some n → fs.node (Shelf.modules.at [n]) = none
  keybindings : fs.node (Shelf.keybindings.at [utf8 (tomlFile m.package.id)]) = none
  settings : fs.node (Shelf.settings.at [utf8 (tomlFile m.package.id)]) = none

/-- Beyond the permissions the two trees are the same. -/
abbrev Kept (fs fs' : Fs) : Prop := Touches [.permissions] fs fs'

theorem Kept.node {s : Shelf} (h : Kept fs fs') (hs : s ≠ .permissions) (names : List Name) :
    fs'.node (s.at names) = fs.node (s.at names) :=
  h.sameIn (by simpa using hs) names

/-- What is not there is not removed, whether looking for it fails or not. -/
theorem ends_unlessAbsent {ε : Type} {act : Action World ε Unit} (hfree : w.fs.node p = none)
    (hw : Kept f₀ w.fs) :
    (do if ← pathExists plan p then act else return () : Action World ε Unit).Ends total w
      (fun _ w' => Kept f₀ w'.fs) fun _ _ => False := by
  refine (ends_pathExists_seen.safe).bind ?_
  rintro b w' ⟨hb, rfl⟩
  exact Action.Ends.ite (fun hyes => absurd hfree (hb.1 hyes).2) fun _ => Action.Ends.pure hw

theorem ends_removeSchemas_absent {env : Env} (h : Unregistered m f₀) (hw : Kept f₀ w.fs) :
    (removeSchemas env m).Ends total w (fun _ w' => Kept f₀ w'.fs) fun _ _ => False := by
  refine Action.Ends.forEach (I := fun _ (w' : World) => Kept f₀ w'.fs)
    (fun done rel rest v hl hv => ?_) hw
  have hrel : rel ∈ m.schemas := by
    rw [hl]
    simp
  unfold removeSchema
  cases hown : ownName rel with
  | none => exact Action.Ends.pure hv
  | some n => exact ends_unlessAbsent ((hv.node (by decide) _).trans (h.schemas rel hrel n hown)) hv

theorem kept_removeProfile {env : Env} (id : String) :
    KeepsTree total (Kept f₀) (removeProfile env id) := by
  intro w hw
  unfold removeProfile
  refine Action.Ends.ite (fun _ => ?_) fun _ => Action.Ends.fail hw
  refine Action.Keeps.bind (keeps_pathExists _) (fun b w hw => ?_) w hw
  refine Action.Ends.ite (fun _ => Action.Ends.mapError ?_) fun _ => Action.Ends.pure hw
  refine keeps_change (fun fs fs' h hfs => ?_) (fun _ _ h => h) w hw
  exact h.trans (touches_of_update (FileSystem.node_of_unlink hfs).2)

theorem ends_removeModules_absent {env : Env} (h : Unregistered m f₀) (hw : Kept f₀ w.fs) :
    (removeModules env m).Ends total w (fun _ w' => Kept f₀ w'.fs) fun _ _ => False := by
  refine Action.Ends.forEach (I := fun _ (w' : World) => Kept f₀ w'.fs)
    (fun done rel rest v hl hv => ?_) hw
  have hrel : rel ∈ m.modules := by
    rw [hl]
    simp
  unfold removeModule
  cases hown : ownName rel with
  | none => exact Action.Ends.pure hv
  | some n =>
    have hfree : v.fs.node (Shelf.modules.at [n]) = none :=
      (hv.node (by decide) _).trans (h.modules rel hrel n hown)
    refine (ends_pathExists_seen.safe).bind ?_
    rintro b v' ⟨hb, rfl⟩
    rw [if_neg fun hyes => (hb.1 hyes).2 hfree]
    exact ends_ignore (kept_removeProfile _ _ hv)

/-- Without registrations there is nothing to unregister. -/
theorem ends_unregister_absent {env : Env} (h : Unregistered m f₀) (hw : Kept f₀ w.fs) :
    (unregister env m).Ends total w (fun _ w' => Kept f₀ w'.fs) fun _ _ => False := by
  refine Action.Ends.bind (ends_ignore (ends_removeSchemas_absent h hw).safe) fun _ w₁ h₁ => ?_
  refine Action.Ends.bind (ends_ignore (ends_removeModules_absent h h₁).safe) fun _ w₂ h₂ => ?_
  refine Action.Ends.bind (ends_ignore (ends_unlessAbsent ?_ h₂).safe) fun _ w₃ h₃ => ?_
  · exact (h₂.node (by decide) _).trans h.keybindings
  · exact ends_ignore (ends_unlessAbsent ((h₃.node (by decide) _).trans h.settings) h₃).safe

/-! ## The move -/

/-- The call fails, or the tree refuses it. -/
def CannotRename (plan : Plan) (src dst : Loc) (w : World) : Prop :=
  plan w.made ≠ none ∨ ∀ fs, w.fs.renameTo src dst ≠ .ok fs

theorem ends_rename_cannot (h : CannotRename plan src dst w) :
    (rename plan src dst).Ends total w (fun _ _ => False) fun _ w' => w'.fs = w.fs := by
  unfold Action.Ends rename change
  cases hplan : plan w.made with
  | some fault => rfl
  | none =>
    rcases h with hfault | hrefused
    · exact absurd hplan hfault
    cases hf : w.fs.renameTo src dst with
    | ok fs => exact absurd hf (hrefused fs)
    | error why => simp only [hf, World.called_fs]

/-- An entry of the trash cannot be cleared, or what comes next stops. -/
def ClearingStops (plan : Plan) (p : Loc) (next : World → Prop) (w : World) : Prop :=
  if plan w.made = none ∧ (w.fs.node p).isSome then
    ∀ w', removeDirAll plan p w.called = some (.ok (), w') → next w'
  else next w.called

/-- The move stops before the rename is done. -/
def MoveStops (env : TrashEnv) (id : String) : World → Prop :=
  ClearingStops env.plan (trashEntry id) <|
    StopsBehind env.plan (Shelf.trash.at []) (CannotRename env.plan (appDir id) (trashEntry id))

/-- The app is not seen, or nothing of it is registered and the move stops. -/
def StaysPut (env : TrashEnv) (id : String) (w : World) : Prop :=
  ¬ Seen env.plan (appDir id) w ∨
    ∀ found w₁, loadManifestOk env.toEnv (appDir id) w.called = some (.ok found, w₁) →
      match found with
      | none => MoveStops env id w₁
      | some m => Unregistered m w.fs ∧
          ∀ w₂, unregister env.toEnv m w₁ = some (.ok (), w₂) → MoveStops env id w₂

theorem ends_moveToTrash_stops {info : TrashInfo} (h : MoveStops env id w) :
    (moveToTrash env id info).Ends False w (fun _ _ => False)
      fun _ w' => Touches [.trash] w.fs w'.fs := by
  have hrest : ∀ v : World, Touches [.trash] w.fs v.fs →
      StopsBehind env.plan (Shelf.trash.at []) (CannotRename env.plan (appDir id) (trashEntry id)) v →
      (do
        (createDirAll env.plan (Shelf.trash.at [])).mapError .io
        (rename env.plan (appDir id) (trashEntry id)).mapError .io
        (write env.plan (trashEntry id ++ [trashInfoName]) (utf8 (env.infoText info))).mapError .io :
          Install Unit).Ends False v (fun _ _ => False) fun _ w' => Touches [.trash] w.fs w'.fs := by
    intro v hv hstops
    have hmake : (createDirAll env.plan (Shelf.trash.at [])).Ends False v
        (fun _ w' => Touches [.trash] w.fs w'.fs) fun _ w' => Touches [.trash] w.fs w'.fs :=
      keeps_createDirAll (fun _ hq => freeToMake_touches (List.mem_singleton.2 rfl) hq) v hv
    refine ((ends_make hmake).mono (fun _ _ h => h) fun _ _ ⟨_, _, h⟩ => h).bind ?_
    rintro _ v₁ ⟨hmade, hv₁⟩
    have hcannot : CannotRename env.plan (appDir id) (trashEntry id) v₁ := by
      rcases hstops with hcannot | ⟨v₂, hv₂, hcannot⟩
      · exact absurd hmade hcannot.not_made
      · rw [hv₂] at hmade
        cases hmade
        exact hcannot
    refine Action.Ends.bind (M := fun _ _ => False) (Action.Ends.mapError ?_) fun _ _ hf => hf.elim
    refine (ends_rename_cannot hcannot).mono (fun _ _ hf => hf) fun _ v₂ hsame => ?_
    rw [hsame]
    exact hv₁
  refine (ends_pathExists_seen.safe).bind ?_
  rintro b v ⟨hb, rfl⟩
  rw [MoveStops, ClearingStops] at h
  refine Action.Ends.ite (fun hyes => ?_) fun hno => ?_
  · have hseen := hb.1 hyes
    rw [if_pos ⟨hseen.1, Option.isSome_iff_ne_none.2 hseen.2⟩] at h
    have hclear : (removeDirAll env.plan (trashEntry id)).Ends False w.called
        (fun _ w' => Touches [.trash] w.fs w'.fs) fun _ w' => Touches [.trash] w.fs w'.fs :=
      keeps_removeDirAll (freeBelow_touches (List.mem_singleton.2 rfl) _).clears _ (.refl _ _)
    refine Action.Ends.bind (Action.Ends.mapError ((Action.Ends.ran.and hclear).mono
      (fun _ _ h => h) fun _ _ h => h.2)) ?_
    rintro _ v ⟨hran, hv⟩
    exact hrest v hv (h v hran)
  · rw [if_neg fun hseen => hno (hb.2 ⟨hseen.1, Option.isSome_iff_ne_none.1 hseen.2⟩)] at h
    exact hrest w.called (.refl _ _) h

theorem keeps_loadManifest {env : Env} {dir : Loc} : KeepsTree total P (loadManifest env dir) := by
  refine (keeps_pathExists _).bind fun b w hw => ?_
  refine Action.Ends.ite (fun _ => ?_) fun _ => Action.Ends.fail hw
  refine Action.Keeps.bind (Action.Keeps.mapError (keeps_query _)) (fun content => ?_) w hw
  cases decodeUtf8 content with
  | none => exact Action.Keeps.fail _
  | some text =>
    cases hparse : env.parse text with
    | error reason =>
      simp only [hparse]
      exact Action.Keeps.fail _
    | ok m =>
      simp only [hparse]
      exact Action.Keeps.pure _

/-- **Staging that stays put** fails, and beside the trash changes the permissions only. -/
theorem ends_stageForDeletion_stays (h : StaysPut env id w) :
    (stageForDeletion env id).Ends False w (fun _ _ => False)
      fun _ w' => Touches [.trash, .permissions] w.fs w'.fs := by
  have hvalid : (Action.ofExcept (validateAppId id) : Install Unit).Ends False w
      (fun _ w' => w = w') fun _ w' => Touches [.trash, .permissions] w.fs w'.fs := by
    cases validateAppId id with
    | ok u => exact Action.Ends.pure rfl
    | error e => exact Action.Ends.fail (.refl _ _)
  refine Action.Ends.bind hvalid ?_
  rintro _ _ rfl
  refine (ends_pathExists_seen.safe).bind ?_
  rintro b v ⟨hb, rfl⟩
  refine Action.Ends.ite (fun hyes => ?_) fun _ => Action.Ends.fail (.refl _ _)
  have hfound := h.resolve_left fun hno => hno (hb.1 hyes)
  have hload : (loadManifestOk env.toEnv (appDir id)).Ends False w.called
      (fun _ w' => w'.fs = w.fs) fun _ _ => False := by
    have hkeep : KeepsTree False (fun fs => fs = w.fs) (loadManifest env.toEnv (appDir id)) :=
      keeps_loadManifest
    refine Action.Ends.bind (M := fun _ v => v.fs = w.fs) (Action.Ends.attempt (hkeep w.called rfl))
      fun r v hv => ?_
    cases r with
    | ok m => exact Action.Ends.pure hv
    | error e => exact Action.Ends.pure hv
  refine Action.Ends.bind ((Action.Ends.ran.and hload).mono (fun _ _ h => h) fun _ _ h => h.2.elim) ?_
  rintro found v₁ ⟨hran, hv₁⟩
  have hstops := hfound found v₁ hran
  have hmove : ∀ v : World, Kept w.fs v.fs → MoveStops env id v → (do
      moveToTrash env id (trashInfoOf env id found)
      return trashInfoOf env id found : Install TrashInfo).Ends False v (fun _ _ => False)
        fun _ w' => Touches [.trash, .permissions] w.fs w'.fs := by
    intro v hv hstops
    refine Action.Ends.bind ((ends_moveToTrash_stops hstops).mono (fun _ _ hf => hf)
      fun _ v' ht => ?_) fun _ _ hf => hf.elim
    exact (hv.mono (by simp)).trans (ht.mono (by simp))
  cases found with
  | none => exact hmove v₁ (hv₁ ▸ .refl _ _) hstops
  | some m =>
    have hgone : (unregister env.toEnv m).Ends False v₁ (fun _ w' => Kept w.fs w'.fs)
        fun _ _ => False := ends_unregister_absent hstops.1 (hv₁ ▸ .refl _ _)
    refine Action.Ends.bind ((Action.Ends.ran.and hgone).mono (fun _ _ h => h) fun _ _ h => h.2.elim) ?_
    rintro _ v₂ ⟨hran₂, hv₂⟩
    exact hmove v₂ hv₂ (hstops.2 v₂ hran₂)

end Arlen.Installd
