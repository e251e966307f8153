import Arlen.Installd.Restore
import Arlen.Installd.Rollback
import Arlen.Installd.Staging
import Arlen.Installd.Upgrade

/-!
# What an upgrade installs

The gate examines one extraction of the package and the installation makes another. Where
both give the same tree, what is installed is what was examined; and up to the gate an
upgrade changes nothing of what is installed. Between the two nothing holds: the installed
version is moved away first, and nothing moves it back.
-/

namespace Arlen.Installd

open Arlen.Lib

variable {env : UpgradeEnv} {m : Manifest} {depth : Nat} {w : World} {total : Prop} {P : Fs → Prop}
  {f₀ : Fs}

/-! ## The gate -/

/-- The permissions ask for a network or filesystem entry, a graph write or an input that
was not granted. -/
def Widens (granted : Forage.Capabilities) (p : PermissionInfo) : Prop :=
  (∃ s ∈ p.network, s ∉ granted.network) ∨ (∃ s ∈ p.filesystem, s ∉ granted.filesystem) ∨
    (∃ s ∈ p.graphWrite, "write:" ++ s ∉ granted.graph) ∨
    ∃ s ∈ p.input, "input:" ++ s ∉ granted.extra

theorem newlyHigh_of_widens {granted : Forage.Capabilities} {p : PermissionInfo}
    (h : Widens granted p) : Forage.NewlyHigh granted (capabilitiesFrom p) := by
  rcases h with h | h | ⟨s, hs, hnew⟩ | ⟨s, hs, hnew⟩
  · exact .inl h
  · exact .inr (.inl h)
  · refine .inr (.inr (.inl ⟨"write:" ++ s, ?_, hnew, ?_⟩))
    · exact List.mem_append_right _ (List.mem_map_of_mem hs)
    · simp [startsWith]
  · refine .inr (.inr (.inr ⟨"input:" ++ s, ?_, hnew⟩))
    exact (List.perm_insertionSort _ _).mem_iff.2 (List.mem_dedup.2 (List.mem_map_of_mem hs))

/-- A silent gate has the grants before it, and they are not widened. -/
theorem upgradeGate_silent {recorded : Option Forage.Capabilities} {p : PermissionInfo}
    (h : upgradeGate recorded p = .silent) : ∃ old, recorded = some old ∧ ¬ Widens old p := by
  cases recorded with
  | none => cases h
  | some old =>
    refine ⟨old, rfl, fun hwidens => ?_⟩
    have hconsent := Forage.requiresConsent_iff.2 (newlyHigh_of_widens hwidens)
    simp only [upgradeGate, upgradeConsentFromCaps, hconsent, if_true] at h
    cases h

/-! ## Up to the gate -/

/-- An extraction stays in the directory of the package. -/
def Unpacks (extract : Install Unit) : Prop := ∀ f₀, KeepsTree False (Touches [.package] f₀) extract

theorem keeps_ofExcept {α : Type} (r : Except InstallError α) :
    KeepsTree total P (Action.ofExcept r : Install α) := by
  cases r with
  | ok a => exact Action.Keeps.pure a
  | error e => exact Action.Keeps.fail e

theorem keeps_validatePackageStructure {env : Env} :
    KeepsTree total P (validatePackageStructure env) :=
  (keeps_pathExists _).bind fun _ _ hw =>
    Action.Ends.ite (fun _ => Action.Ends.pure hw) fun _ => Action.Ends.fail hw

theorem keeps_verifySignature : KeepsTree total P (verifySignature env) := by
  intro w hw
  unfold Action.Ends verifySignature
  cases env.verify w.fs with
  | ok _ => exact hw
  | error _ => exact hw

theorem keeps_openPackage {turn : Nat} (h : KeepsTree False P (env.extract turn)) :
    KeepsTree False P (openPackage env turn) :=
  h.bind fun _ => keeps_validatePackageStructure.bind fun _ => keeps_verifySignature.bind fun _ =>
    keeps_loadManifest.bind fun m => (keeps_ofExcept _).bind fun _ => Action.Keeps.pure m

theorem keeps_loadLock {plan : Plan} {text : LockText} : KeepsTree total P (loadLock plan text) := by
  refine Action.Keeps.bind (Action.Keeps.attempt (keeps_query _)) fun r => ?_
  rcases r with e | content
  · rcases e with why | - | code
    · cases why with
      | noEntry => exact Action.Keeps.pure _
      | _ => exact Action.Keeps.fail _
    · exact Action.Keeps.fail _
    · exact Action.Keeps.fail _
  · cases hdec : decodeUtf8 content with
    | none =>
      simp only [hdec]
      exact Action.Keeps.fail _
    | some s =>
      simp only [hdec]
      cases hparse : text.parse s with
      | error detail =>
        simp only
        exact Action.Keeps.fail _
      | ok l =>
        simp only
        exact Action.Keeps.pure _

theorem keeps_recordedGrants {env : TrashEnv} (id : String) :
    KeepsTree total P (recordedGrants env id) := by
  refine Action.Keeps.bind (Action.Keeps.attempt keeps_loadLock) fun r => ?_
  rcases r with e | l
  · exact Action.Keeps.pure _
  · exact Action.Keeps.pure _

theorem keeps_previewUpgrade (h : KeepsTree False P (env.extract 0)) :
    KeepsTree False P (previewUpgrade env) :=
  (keeps_openPackage h).bind fun _ => (keeps_recordedGrants _).bind fun _ => Action.Keeps.pure _

/-! ## What was read -/

theorem ends_query_any {α : Type} {plan : Plan} (f : Fs → Except IoError α) (w : World) :
    (query plan f).Ends total w (fun a w' => f w.fs = .ok a ∧ w'.fs = w.fs)
      fun _ w' => w'.fs = w.fs := by
  have hkeep : KeepsTree total (fun fs => fs = w.fs) (query plan f) := keeps_query f
  have hsame := hkeep w rfl
  refine Action.ends_iff.2 ⟨(Action.ends_iff.1 hsame).1, fun a w' hr => ⟨?_, hsame.of_ok hr⟩,
    fun e w' hr => hsame.of_error hr⟩
  unfold query at hr
  split at hr
  · cases hr
  · cases hf : f w.fs with
    | ok a' =>
      rw [hf] at hr
      cases hr
      rfl
    | error e =>
      rw [hf] at hr
      cases hr

theorem ends_loadManifest_any {env : Env} (dir : Loc) (w : World) :
    (loadManifest env dir).Ends total w (fun m w' => manifestOf env w.fs dir = some m ∧ w'.fs = w.fs)
      fun _ _ => True := by
  have hlook : KeepsTree total (fun fs => fs = w.fs)
      (pathExists env.plan (dir ++ [utf8 "manifest.toml"]) : Install Bool) := keeps_pathExists _
  refine Action.Ends.bind ((hlook w rfl).mono (fun _ _ h => h) fun _ _ _ => trivial) fun b w' hw => ?_
  refine Action.Ends.ite (fun _ => ?_) fun _ => Action.Ends.fail trivial
  refine Action.Ends.bind (Action.Ends.mapError ((ends_query_any _ w').mono (fun _ _ h => h)
    fun _ _ _ => trivial)) ?_
  rintro content w'' ⟨hc, hw'⟩
  rw [hw] at hc hw'
  have hnode := contentOf_eq_ok hc
  cases hd : decodeUtf8 content with
  | none => exact Action.Ends.fail trivial
  | some text =>
    cases hp : env.parse text with
    | error reason =>
      simp only [hp]
      exact Action.Ends.fail trivial
    | ok m =>
      simp only [hp]
      refine Action.Ends.pure ⟨?_, hw'⟩
      simp only [manifestOf, hnode, hd, hp]

/-- The manifest that was read is that of the package extracted. -/
theorem ends_openPackage (turn : Nat) (w : World) :
    (openPackage env turn).Ends False w
      (fun m w' => ∃ v, env.extract turn w = some (.ok (), v) ∧ w'.fs = v.fs ∧
        manifestOf env.toEnv v.fs (Shelf.package.at []) = some m) fun _ _ => True := by
  have hextract : (env.extract turn).Ends False w (fun _ v => env.extract turn w = some (.ok (), v))
      fun _ _ => True := Action.ends_iff.2 ⟨fun _ h => h, fun _ _ hr => hr, fun _ _ _ => trivial⟩
  refine Action.Ends.bind hextract fun _ v hv => ?_
  have hkeep : ∀ {α : Type} {act : Install α} {u : World}, KeepsTree False (fun fs => fs = v.fs) act →
      u.fs = v.fs → act.Ends False u (fun _ u' => u'.fs = v.fs) fun _ _ => True := fun hact hu =>
    (hact _ hu).mono (fun _ _ h => h) fun _ _ _ => trivial
  refine Action.Ends.bind (hkeep keeps_validatePackageStructure rfl) fun _ u hu => ?_
  refine Action.Ends.bind (hkeep keeps_verifySignature hu) fun _ u' hu' => ?_
  refine Action.Ends.bind (ends_loadManifest_any _ u') ?_
  rintro m u'' ⟨hm, hu''⟩
  rw [hu'] at hm hu''
  refine Action.Ends.bind (hkeep (keeps_ofExcept _) hu'') fun _ x hx => ?_
  exact Action.Ends.pure ⟨v, hv, hx, hm⟩

theorem ends_loadLock_any (plan : Plan) (text : LockText) (w : World) :
    (loadLock plan text).Ends total w
      (fun l w' => (l = [] ∨ ∃ content, Locked text w.fs content l) ∧ w'.fs = w.fs)
      fun _ w' => w'.fs = w.fs := by
  have hread : ((read plan lockPath).attempt : Action World LockError _).Ends total w
      (fun r w' => (∀ content, r = .ok content → contentOf w.fs lockPath = .ok content) ∧ w'.fs = w.fs)
      fun _ _ => False := by
    refine Action.Ends.attempt ((ends_query_any _ w).mono ?_ ?_)
    · rintro c w' ⟨hc, hw⟩
      refine ⟨fun content hcontent => ?_, hw⟩
      cases hcontent
      exact hc
    · exact fun e w' hw => ⟨nofun, hw⟩
  refine Action.Ends.bind hread.safe ?_
  rintro (e | content) w' ⟨hc, hw⟩
  · rcases e with why | - | code
    · cases why with
      | noEntry => exact Action.Ends.pure ⟨.inl rfl, hw⟩
      | _ => exact Action.Ends.fail hw
    · exact Action.Ends.fail hw
    · exact Action.Ends.fail hw
  · cases hdec : decodeUtf8 content with
    | none =>
      simp only [hdec]
      exact Action.Ends.fail hw
    | some s =>
      simp only [hdec]
      cases hparse : text.parse s with
      | error detail => exact Action.Ends.fail hw
      | ok l =>
        exact Action.Ends.pure ⟨.inr ⟨content, contentOf_eq_ok (hc content rfl), s, hdec, hparse⟩, hw⟩

theorem ends_recordedGrants {env : TrashEnv} (id : String) (w : World) :
    (recordedGrants env id).Ends total w
      (fun r w' => (∀ granted, r = some granted → ∃ content l entry, Locked env.lock w.fs content l ∧
        l.get id = some entry ∧ entry.granted = granted) ∧ w'.fs = w.fs) fun _ _ => False := by
  have hload : ((loadLock env.plan env.lock).attempt : Install _).Ends total w
      (fun r w' => (∀ l, r = .ok l → l = [] ∨ ∃ content, Locked env.lock w.fs content l) ∧
        w'.fs = w.fs) fun _ _ => False := by
    refine Action.Ends.attempt ((ends_loadLock_any _ _ w).mono ?_ ?_)
    · rintro l w' ⟨hl, hw⟩
      refine ⟨fun l' hl' => ?_, hw⟩
      cases hl'
      exact hl
    · exact fun e w' hw => ⟨nofun, hw⟩
  refine hload.bind ?_
  rintro (e | l) w' ⟨hl, hw⟩
  · exact Action.Ends.pure ⟨nofun, hw⟩
  · refine Action.Ends.pure ⟨fun granted hgranted => ?_, hw⟩
    obtain ⟨entry, hentry, rfl⟩ := Option.map_eq_some_iff.1 hgranted
    rcases hl l rfl with rfl | ⟨content, hlocked⟩
    · cases hentry
    · exact ⟨content, l, entry, hlocked, hentry, rfl⟩

/-- **A silent preview**: the package extracted has this manifest, and asks for nothing
beyond what the lock has. -/
theorem ends_previewUpgrade (hunpack : Unpacks (env.extract 0)) (w : World) :
    (previewUpgrade env).Ends False w
      (fun p w' => ∃ v m, env.extract 0 w = some (.ok (), v) ∧ w'.fs = v.fs ∧
        manifestOf env.toEnv v.fs (Shelf.package.at []) = some m ∧ p.appId = m.package.id ∧
        (p.gate = .silent → ∃ content l entry, Locked env.lock w.fs content l ∧
          l.get m.package.id = some entry ∧ ¬ Widens entry.granted m.permissions))
      fun _ _ => True := by
  refine Action.Ends.bind (ends_openPackage 0 w) ?_
  rintro m w' ⟨v, hv, hw, hm⟩
  refine Action.Ends.bind (ends_recordedGrants m.package.id w').safe ?_
  rintro recorded w'' ⟨hrec, hw''⟩
  refine Action.Ends.pure ⟨v, m, hv, hw''.trans hw, hm, rfl, fun hsilent => ?_⟩
  obtain ⟨old, hold, hnot⟩ := upgradeGate_silent hsilent
  obtain ⟨content, l, entry, ⟨hfile, hl⟩, hentry, rfl⟩ := hrec old hold
  have htouch : Touches [.package] w.fs v.fs := ((hunpack w.fs) w (.refl _ _)).of_ok hv
  have hlock : SameIn .apps w.fs v.fs := htouch.sameIn (by decide)
  refine ⟨content, l, entry, ⟨?_, hl⟩, hentry, hnot⟩
  rw [← hfile, hw]
  exact (hlock _).symm

/-! ## Replacing -/

/-- Once it is staged for deletion the app is gone from its place. -/
theorem ends_stageForDeletion_gone {env : TrashEnv} (id : String) (w : World) :
    (stageForDeletion env id).Ends False w
      (fun _ w' => ∀ q, appDir id <+: q → w'.fs.node q = none) fun _ _ => True := by
  have hmove : ∀ info (w : World), (moveToTrash env id info).Ends False w
      (fun _ w' => ∀ q, appDir id <+: q → w'.fs.node q = none) fun _ _ => True := by
    intro info w
    have hrest : ∀ w₁ : World, (do
        (createDirAll env.plan (Shelf.trash.at [])).mapError .io
        (rename env.plan (appDir id) (trashEntry id)).mapError .io
        (write env.plan (trashEntry id ++ [trashInfoName]) (utf8 (env.infoText info))).mapError .io :
          Install Unit).Ends False w₁ (fun _ w' => ∀ q, appDir id <+: q → w'.fs.node q = none)
        fun _ _ => True := by
      intro w₁
      refine Action.Ends.bind Action.Ends.trivial fun _ w₂ _ => ?_
      refine Action.Ends.bind (Action.Ends.mapError ends_change_any) fun _ w₃ h₃ => ?_
      obtain ⟨-, -, ⟨heq, -⟩ | ⟨-, hmoved⟩⟩ := FileSystem.renameTo_eq_ok h₃
      · exact absurd heq (Shelf.at_ne (by decide) _ _)
      refine Action.Ends.mapError (ends_change_any.mono (fun _ w₄ h₄ q hq => ?_) fun _ _ h => h)
      rw [(FileSystem.writeAt_eq_ok h₄).2.2, if_neg,
        hmoved.source q hq fun ht => not_trash_below_app ht hq]
      rintro rfl
      exact not_trash_below_app (List.prefix_append _ _) hq
    refine Action.Ends.bind Action.Ends.trivial fun b w' _ => ?_
    exact Action.Ends.ite (fun _ => Action.Ends.bind Action.Ends.trivial fun _ w'' _ => hrest w'')
      fun _ => hrest w'
  refine Action.Ends.bind Action.Ends.trivial fun _ w₁ _ => ?_
  refine Action.Ends.bind Action.Ends.trivial fun b w₂ _ => ?_
  refine Action.Ends.ite (fun _ => ?_) fun _ => Action.Ends.fail trivial
  refine Action.Ends.bind Action.Ends.trivial fun m w₃ _ => ?_
  have htail : ∀ w₄ : World, (do
      moveToTrash env id (trashInfoOf env id m)
      return trashInfoOf env id m : Install TrashInfo).Ends False w₄
      (fun _ w' => ∀ q, appDir id <+: q → w'.fs.node q = none) fun _ _ => True := fun w₄ =>
    Action.Ends.bind (hmove _ w₄) fun _ _ h => Action.Ends.pure h
  cases m with
  | none => exact htail w₃
  | some m => exact Action.Ends.bind Action.Ends.trivial fun _ w₄ _ => htail w₄

/-- The place of an app's manifest. -/
def manifestPath (id : String) : Loc := appDir id ++ [utf8 "manifest.toml"]

/-- If a manifest is installed, it is `x`. -/
def InstalledFrom (id : String) (x : Option (Entry Bytes)) (fs : Fs) : Prop :=
  fs.node (manifestPath id) = none ∨ fs.node (manifestPath id) = x

/-- The same while the package, whose manifest is `x`, is there. -/
def CopiedFrom (id : String) (x : Option (Entry Bytes)) (fs : Fs) : Prop :=
  InstalledFrom id x fs ∧ fs.node (Shelf.package.at [utf8 "manifest.toml"]) = x

variable {id : String} {x : Option (Entry Bytes)} {p : Loc}

theorem copied_of_update {e : Option (Entry Bytes)} {fs fs' : Fs} (hp : p ≠ manifestPath id)
    (hhead : p.head? ≠ some Shelf.package.name) (h : CopiedFrom id x fs)
    (hall : ∀ q, fs'.node q = if q = p then e else fs.node q) : CopiedFrom id x fs' := by
  have hpackage : Shelf.package.at [utf8 "manifest.toml"] ≠ p := by
    rintro rfl
    exact hhead rfl
  unfold CopiedFrom InstalledFrom at *
  rw [hall, hall, if_neg hp.symm, if_neg hpackage]
  exact h

/-- Copying below a part of the app's directory does not touch its manifest. -/
theorem copied_copyPart {env : Env} {part : String} (hpart : utf8 part ≠ utf8 "manifest.toml") :
    KeepsTree False (CopiedFrom id x) (copyPart env depth (appDir id) part) := by
  have hbelow : ∀ r q, q <+: appDir id ++ utf8 part :: r → q ≠ manifestPath id := by
    rintro r q ⟨t, ht⟩ rfl
    simp only [manifestPath, List.append_assoc] at ht
    have hcons := List.append_cancel_left ht
    exact hpart (List.cons.inj hcons).1.symm
  have hhead : ∀ r q, q <+: appDir id ++ utf8 part :: r → q.head? ≠ some Shelf.package.name := by
    rintro r q ⟨t, ht⟩ hq
    cases q with
    | nil => cases hq
    | cons a q =>
      have ha : a = Shelf.apps.name := (List.cons.inj ht).1
      rw [ha] at hq
      exact absurd (Shelf.name_inj (Option.some.inj hq)) (by decide)
  refine (keeps_pathExists _).bind fun b w hw => ?_
  refine Action.Ends.ite (fun _ => ?_) fun _ => Action.Ends.pure hw
  refine keeps_copyDirRecursive (fun r q hq fs fs' h _ hall => ?_) (fun k r fs fs' b h hall => ?_) _ _ w hw
  · rw [List.append_assoc] at hq
    exact copied_of_update (hbelow r q hq) (hhead r q hq) h hall
  · have hp : appDir id ++ [utf8 part] ++ k :: r <+: appDir id ++ utf8 part :: k :: r := by simp
    exact copied_of_update (hbelow _ _ hp) (hhead _ _ hp) h hall

/-- A file copied to the app's directory. -/
theorem ends_copyFile {env : Env} {part : String} (h : CopiedFrom id x w.fs) :
    (copyFile env (appDir id) part).Ends False w (fun _ w' => CopiedFrom id x w'.fs)
      fun _ _ => True := by
  have hlook : KeepsTree False (CopiedFrom id x)
      (pathExists env.plan (Shelf.package.at [utf8 part]) : Install Bool) := keeps_pathExists _
  refine Action.Ends.bind ((hlook w h).mono (fun _ _ h => h) fun _ _ _ => trivial) fun b w' hw => ?_
  refine Action.Ends.ite (fun _ => Action.Ends.mapError ?_) fun _ => Action.Ends.pure hw
  refine ends_copy_any.mono ?_ fun _ _ h => h
  rintro _ w'' ⟨content, hc, hwrite⟩
  have hput := (FileSystem.writeAt_eq_ok hwrite).2.2
  have hhead : (appDir id ++ [utf8 part]).head? ≠ some Shelf.package.name :=
    Shelf.head?_at_ne (by decide) ([utf8 id] ++ [utf8 part])
  by_cases hpart : utf8 part = utf8 "manifest.toml"
  · have hx := hw.2
    rw [← hpart, contentOf_eq_ok hc] at hx
    refine ⟨.inr ?_, ?_⟩
    · rw [hput, manifestPath, hpart, if_pos rfl, hx]
    · rw [hput, if_neg, hw.2]
      intro heq
      exact hhead (heq ▸ rfl)
  · refine copied_of_update ?_ hhead hw hput
    intro heq
    exact hpart (List.cons.inj (List.append_cancel_left heq)).1

theorem ends_installToUser_copied {env : Env} (h : CopiedFrom m.package.id x w.fs) :
    (installToUser env depth m).Ends False w (fun _ w' => CopiedFrom m.package.id x w'.fs)
      fun _ _ => True := by
  have hkeep : ∀ {ε α : Type} {act : Action World ε α} {u : World},
      KeepsTree False (CopiedFrom m.package.id x) act → CopiedFrom m.package.id x u.fs →
      act.Ends False u (fun _ u' => CopiedFrom m.package.id x u'.fs) fun _ _ => True := fun hact hu =>
    (hact _ hu).mono (fun _ _ h => h) fun _ _ _ => trivial
  refine Action.Ends.bind (hkeep (keeps_pathExists _) h) fun b w₁ h₁ => ?_
  refine Action.Ends.ite (fun _ => Action.Ends.fail trivial) fun _ => ?_
  refine Action.Ends.bind (hkeep (Action.Keeps.mapError (keeps_createDirAll ?_)) h₁) fun _ w₂ h₂ => ?_
  · rintro q ⟨t, ht⟩ fs fs' hc _ hall
    refine copied_of_update ?_ ?_ hc hall
    · rintro rfl
      have hlen := congrArg List.length ht
      simp [manifestPath, appDir, Shelf.at] at hlen
    · intro hq
      cases q with
      | nil => cases hq
      | cons a q =>
        have ha : a = Shelf.apps.name := (List.cons.inj ht).1
        rw [ha] at hq
        exact absurd (Shelf.name_inj (Option.some.inj hq)) (by decide)
  refine Action.Ends.bind (hkeep (Action.Keeps.forEach fun part hpart => copied_copyPart ?_) h₂)
    fun _ w₃ h₃ => ?_
  · revert part
    decide
  · exact Action.Ends.forEach (I := fun _ (u : World) => CopiedFrom m.package.id x u.fs)
      (fun _ part _ u _ hu => ends_copyFile hu) h₃

theorem installedFrom_congr {fs fs' : Fs} (h : InstalledFrom id x fs) (hsame : SameIn .apps fs fs') :
    InstalledFrom id x fs' := by
  have hnode : fs'.node (manifestPath id) = fs.node (manifestPath id) :=
    hsame ([utf8 id] ++ [utf8 "manifest.toml"])
  unfold InstalledFrom
  rw [hnode]
  exact h

/-- A step in another directory does not touch the manifest. -/
theorem ends_recording_elsewhere {α : Type} {act : Install α}
    {note : α → InstallTransaction → InstallTransaction} {S : List Shelf} {j : Job}
    (htouches : ∀ f₀, KeepsTree False (Touches S f₀) act) (hS : Shelf.apps ∉ S)
    (h : InstalledFrom id x j.world.fs) :
    (recording act note).Ends False j (fun _ j' => InstalledFrom id x j'.world.fs) fun _ _ => True :=
  ends_recording (((htouches j.world.fs) j.world (.refl _ _)).mono
    (fun _ _ ht => installedFrom_congr h (ht.sameIn hS)) fun _ _ _ => trivial)

theorem ends_transact_installed {env : Env} {fits : Bool} (h : CopiedFrom m.package.id x w.fs) :
    (transact env depth fits m).Ends False ⟨w, {}⟩
      (fun _ j => InstalledFrom m.package.id x j.world.fs) fun _ _ => True := by
  have hspace : (InstallTransaction.checkDiskSpace fits).Ends False ⟨w, {}⟩
      (fun _ j => CopiedFrom m.package.id x j.world.fs) fun _ _ => True :=
    Action.Ends.ite (fun _ => Action.Ends.pure h) fun _ => Action.Ends.fail trivial
  refine Action.Ends.bind hspace fun _ j₀ h₀ => ?_
  simp only [installSteps, Action.forEach, id]
  have hfiles : (InstallTransaction.installFiles env depth m).Ends False j₀
      (fun _ j => CopiedFrom m.package.id x j.world.fs) fun _ _ => True :=
    ends_recording (ends_installToUser_copied h₀)
  refine Action.Ends.bind hfiles fun _ j₁ h₁ => ?_
  refine Action.Ends.bind (ends_recording_elsewhere (fun f₀ => touches_installSchemas
    (List.mem_singleton.2 rfl)) (by decide) h₁.1) fun _ j₂ h₂ => ?_
  refine Action.Ends.bind (ends_recording_elsewhere (S := [.modules, .permissions])
    (fun f₀ => touches_installModules (by decide) (by decide)) (by decide) h₂) fun _ j₃ h₃ => ?_
  refine Action.Ends.bind (ends_recording_elsewhere (fun f₀ => touches_writeKeybindingsFragment
    (List.mem_singleton.2 rfl)) (by decide) h₃) fun _ j₄ h₄ => ?_
  refine Action.Ends.bind (ends_recording_elsewhere (fun f₀ => touches_writeSettingsSchema
    (List.mem_singleton.2 rfl)) (by decide) h₄) fun _ j₅ h₅ => ?_
  refine Action.Ends.bind (ends_recording_elsewhere (fun f₀ => touches_createDesktopEntry
    (List.mem_singleton.2 rfl)) (by decide) h₅) fun _ j₆ h₆ => ?_
  exact Action.Ends.pure h₆

theorem ends_runTransaction_installed {env : Env} {fits : Bool} (h : CopiedFrom m.package.id x w.fs) :
    (runTransaction env depth fits m).Ends False w
      (fun _ w' => InstalledFrom m.package.id x w'.fs) fun _ _ => True := by
  refine Action.ends_iff.2 ⟨fun _ h => h, fun u w' hrun => ?_, fun _ _ _ => trivial⟩
  unfold runTransaction at hrun
  rcases htransact : transact env depth fits m ⟨w, {}⟩ with _ | ⟨e | v, j⟩
  · rw [htransact] at hrun
    cases hrun
  · rw [htransact] at hrun
    simp only at hrun
    rcases hroll : rollback { env with plan := noFault } m j.txn j.world with _ | ⟨r, w''⟩
    · rw [hroll] at hrun
      cases hrun
    · rw [hroll] at hrun
      cases hrun
  · rw [htransact] at hrun
    have hj := (ends_transact_installed h).of_ok htransact
    have hcommit : (ignore (removeDirAll env.plan (Shelf.package.at [])) : Install Unit).Ends False
        j.world (fun _ w' => Touches [.package] j.world.fs w'.fs) fun _ _ => False := by
      refine ends_ignore (keeps_removeDirAll (P := Touches [.package] j.world.fs)
        (freeBelow_touches (by decide) []).clears j.world (.refl _ _))
    exact installedFrom_congr hj ((hcommit.of_ok hrun).sameIn (by decide))

/-- Recording in the lock does not touch a manifest, wherever the app stands. -/
theorem ends_recordInLock_installed {id' version : String} {granted : Forage.Capabilities}
    (h : InstalledFrom id x w.fs) :
    (recordInLock env id' version granted).Ends False w (fun _ w' => InstalledFrom id x w'.fs)
      fun _ _ => True := by
  have hpath : manifestPath id ≠ lockPath := fun heq => by
    simpa [manifestPath, appDir, lockPath, Shelf.at] using congrArg List.length heq
  have htmp : manifestPath id ≠ lockTmp := fun heq => by
    simpa [manifestPath, appDir, lockTmp, Shelf.at] using congrArg List.length heq
  have hshelf : ∀ q, q <+: Shelf.apps.at [] → q ≠ manifestPath id := by
    rintro q hq rfl
    simpa [manifestPath, appDir, Shelf.at] using hq.length_le
  have hload : ((loadLock env.plan env.lock).attempt : Install _).Ends False w
      (fun _ w' => InstalledFrom id x w'.fs) fun _ _ => True := by
    have hkeep : KeepsTree False (InstalledFrom id x) (loadLock env.plan env.lock) := keeps_loadLock
    exact (Action.Keeps.attempt hkeep w h).mono (fun _ _ h => h) fun _ _ _ => trivial
  refine Action.Ends.bind hload fun r w₁ h₁ => ?_
  rcases r with e | l
  · exact Action.Ends.pure h₁
  refine ends_ignore ?_
  unfold saveLock
  have hmake : KeepsTree False (InstalledFrom id x) (createDirAll env.plan (Shelf.apps.at [])) := by
    refine keeps_createDirAll fun q hq fs fs' hc _ hall => ?_
    unfold InstalledFrom
    rw [hall, if_neg (hshelf q hq).symm]
    exact hc
  refine Action.Ends.bind (Action.Ends.mapError (hmake w₁ h₁)) fun _ w₂ h₂ => ?_
  cases env.lock.print _ with
  | error e => exact Action.Ends.fail h₂
  | ok s =>
    have hwrite : (write env.plan lockTmp (utf8 s)).Ends False w₂
        (fun _ w' => InstalledFrom id x w'.fs ∧ w'.fs.node lockTmp = some (.leaf (utf8 s)))
        fun _ w' => InstalledFrom id x w'.fs := by
      have hkeep : KeepsTree False (InstalledFrom id x) (write env.plan lockTmp (utf8 s)) := by
        refine keeps_write (fun fs fs' b hc hall => ?_) _
        unfold InstalledFrom
        rw [hall, if_neg htmp]
        exact hc
      have hput : (write env.plan lockTmp (utf8 s)).Ends False w₂
          (fun _ w' => w₂.fs.writeAt lockTmp (utf8 s) = .ok w'.fs) fun _ _ => True := ends_change_any
      refine ((hkeep w₂ h₂).and hput).mono (fun _ w' h => ⟨h.1, ?_⟩) fun _ _ h => h.1
      rw [(FileSystem.writeAt_eq_ok h.2).2.2, if_pos rfl]
    refine Action.Ends.bind (Action.Ends.mapError hwrite) ?_
    rintro _ w₃ ⟨h₃, hleaf⟩
    -- the temporary file is a file, so nothing below it moves with it
    refine Action.Ends.mapError ?_
    refine ends_rename_any.mono (fun _ w₄ hren => ?_) fun _ w₄ hsame => ?_
    · obtain ⟨-, hall⟩ := FileSystem.renameTo_leaf hren hleaf (by decide)
      unfold InstalledFrom
      rw [hall, if_neg hpath, if_neg htmp]
      exact h₃
    · rw [hsame]
      exact h₃

/-! ## An upgrade -/

/-- The file at the path was not changed between the two extractions. -/
def SamePackage (env : UpgradeEnv) : Prop :=
  ∀ v v' u u', env.extract 0 v = some (.ok (), v') → env.extract 1 u = some (.ok (), u') →
    SameIn .package v'.fs u'.fs

/-- Where the gate lets the upgrade pass, the app stays put. -/
def GateStaysPut (env : UpgradeEnv) (w : World) : Prop :=
  ∀ p v, previewUpgrade env w = some (.ok p, v) → p.gate = .silent →
    StaysPut env.toTrashEnv p.appId v

theorem manifestOf_installedFrom {env : Env} {fs fs' : Fs} {m' : Manifest}
    (hm : manifestOf env fs (Shelf.package.at []) = some m)
    (hx : InstalledFrom m.package.id (fs.node (Shelf.package.at [utf8 "manifest.toml"])) fs')
    (hm' : manifestOf env fs' (appDir m.package.id) = some m') : m' = m := by
  rcases hx with hnone | hsame
  · rw [manifestOf, show fs'.node (appDir m.package.id ++ [utf8 "manifest.toml"]) = none from hnone]
      at hm'
    cases hm'
  · have heq : manifestOf env fs' (appDir m.package.id) = manifestOf env fs (Shelf.package.at []) :=
      manifestOf_congr hsame
    rw [heq, hm] at hm'
    cases hm'
    rfl

/-- From a package whose manifest is `m` the app of `m` is replaced by that package. -/
theorem ends_replaceInstalled (hunpack : Unpacks (env.extract 1)) {fs : Fs}
    (hsame : ∀ u u', env.extract 1 u = some (.ok (), u') → SameIn .package fs u'.fs)
    (hm : manifestOf env.toEnv fs (Shelf.package.at []) = some m) (w : World) :
    (replaceInstalled env depth m.package.id).Ends False w
      (fun _ w' => InstalledFrom m.package.id (fs.node (Shelf.package.at [utf8 "manifest.toml"])) w'.fs)
      fun _ _ => True := by
  have hstage : ((stageForDeletion env.toTrashEnv m.package.id).attempt : Install _).Ends False w
      (fun r w' => (∃ info, r = .ok info) → ∀ q, appDir m.package.id <+: q → w'.fs.node q = none)
      fun _ _ => False := by
    refine Action.Ends.attempt ((ends_stageForDeletion_gone m.package.id w).mono
      (fun _ _ h _ => h) fun _ _ _ h => ?_)
    obtain ⟨info, hinfo⟩ := h
    cases hinfo
  refine Action.Ends.bind hstage.safe fun r w₁ h₁ => ?_
  rcases r with e | info
  · exact Action.Ends.fail trivial
  have hgone := h₁ ⟨info, rfl⟩
  refine Action.Ends.bind (ends_openPackage 1 w₁) ?_
  rintro m₂ w₂ ⟨v, hv, hw₂, hm₂⟩
  have hpackage : v.fs.node (Shelf.package.at [utf8 "manifest.toml"]) =
      fs.node (Shelf.package.at [utf8 "manifest.toml"]) := hsame _ _ hv _
  obtain rfl : m₂ = m := by
    have heq : manifestOf env.toEnv v.fs (Shelf.package.at []) =
        manifestOf env.toEnv fs (Shelf.package.at []) := manifestOf_congr hpackage
    rw [heq, hm] at hm₂
    cases hm₂
    rfl
  have htouch : Touches [.package] w₁.fs v.fs := ((hunpack w₁.fs) w₁ (.refl _ _)).of_ok hv
  have hstart : CopiedFrom m₂.package.id (fs.node (Shelf.package.at [utf8 "manifest.toml"])) w₂.fs := by
    rw [hw₂]
    refine ⟨.inl ?_, hpackage⟩
    have happs : SameIn .apps w₁.fs v.fs := htouch.sameIn (by decide)
    have hnode : v.fs.node (manifestPath m₂.package.id) = w₁.fs.node (manifestPath m₂.package.id) :=
      happs ([utf8 m₂.package.id] ++ [utf8 "manifest.toml"])
    rw [hnode]
    exact hgone _ (List.prefix_append _ _)
  refine Action.Ends.bind (ends_runTransaction_installed hstart) fun _ w₃ h₃ => ?_
  exact ends_recordInLock_installed h₃

/-- **An upgrade** of an unchanged file that succeeds installs a manifest that asks for
nothing beyond what the lock had before; and one that fails, at the gate or with the app
staying put behind it, leaves all that was installed as it was. -/
theorem upgrade_kept {r : Except InstallError Unit} {w' : World}
    (hunpack : ∀ turn, Unpacks (env.extract turn))
    (hrun : runUpgrade env depth w = some (r, w')) :
    (SamePackage env → r = .ok () → ∃ v m, env.extract 0 w = some (.ok (), v) ∧
      manifestOf env.toEnv v.fs (Shelf.package.at []) = some m ∧
      ∃ content l entry, Locked env.lock w.fs content l ∧ l.get m.package.id = some entry ∧
        ∀ m', manifestOf env.toEnv w'.fs (appDir m.package.id) = some m' →
          ¬ Widens entry.granted m'.permissions) ∧
    (GateStaysPut env w → (∃ e, r = .error e) → ∀ s ∈ shelves, SameIn s w.fs w'.fs) := by
  have hkeep := keeps_previewUpgrade (hunpack 0 w.fs) w (.refl _ _)
  have hpackage : ∀ s ∈ shelves, s ∉ [Shelf.package] := by decide
  rcases hpre : previewUpgrade env w with _ | ⟨e | p, v₁⟩
  · rw [runUpgrade, Action.bind_of_none hpre] at hrun
    cases hrun
  · rw [runUpgrade, Action.bind_of_error hpre] at hrun
    cases hrun
    exact ⟨fun _ h => (by cases h), fun _ _ s hs => (hkeep.of_error hpre).sameIn (hpackage s hs)⟩
  · rw [runUpgrade, Action.bind_of_ok hpre] at hrun
    obtain ⟨v, m, hv, hv₁, hm, hid, hsilent⟩ := (ends_previewUpgrade (hunpack 0) w).of_ok hpre
    cases hgate : p.gate with
    | interruptive widened =>
      rw [hgate] at hrun
      cases hrun
      exact ⟨fun _ h => (by cases h), fun _ _ s hs => (hkeep.of_ok hpre).sameIn (hpackage s hs)⟩
    | unknown requested =>
      rw [hgate] at hrun
      cases hrun
      exact ⟨fun _ h => (by cases h), fun _ _ s hs => (hkeep.of_ok hpre).sameIn (hpackage s hs)⟩
    | silent =>
      rw [hgate] at hrun
      refine ⟨fun hsame hok => ⟨v, m, hv, hm, ?_⟩, fun hstays _ s hs => ?_⟩
      · obtain ⟨content, l, entry, hlocked, hentry, hnot⟩ := hsilent hgate
        refine ⟨content, l, entry, hlocked, hentry, fun m' hm' => ?_⟩
        rw [hok, hid] at hrun
        have hx := (ends_replaceInstalled (hunpack 1) (hsame w v · · hv) hm v₁).of_ok hrun
        rw [manifestOf_installedFrom hm hx hm']
        exact hnot
      · have hbeside : ∀ s ∈ shelves, s ∉ [Shelf.trash, .permissions] := by decide
        have hreplace : (replaceInstalled env depth p.appId).Ends False v₁ (fun _ _ => False)
            fun _ w' => Touches [.trash, .permissions] v₁.fs w'.fs := by
          refine Action.Ends.bind (M := fun r v => (∃ e, r = .error e) ∧
            Touches [.trash, .permissions] v₁.fs v.fs) (Action.Ends.attempt
              ((ends_stageForDeletion_stays (hstays p v₁ hpre hgate)).mono (fun _ _ hf => hf.elim)
                fun e v ht => ⟨⟨e, rfl⟩, ht⟩)) ?_
          rintro _ v ⟨⟨e, rfl⟩, ht⟩
          exact Action.Ends.fail ht
        have hstay : SameIn s v₁.fs w'.fs := by
          rcases r with e | u
          · exact (hreplace.of_error hrun).sameIn (hbeside s hs)
          · exact (hreplace.of_ok hrun).elim
        exact ((hkeep.of_ok hpre).sameIn (hpackage s hs)).trans hstay

/-! ## A file that changes -/

/-- A package of a manifest with this text and a signature, extracted to a directory of
its own. -/
def unpackText (text : String) : Install Unit := do
  ignore (removeDirAll noFault (Shelf.package.at []))
  (mkdir noFault (Shelf.package.at [])).mapError .io
  (write noFault (Shelf.package.at [utf8 "manifest.toml"]) (utf8 text)).mapError .io
  (write noFault (Shelf.package.at [utf8 "signature.sig"]) []).mapError .io

theorem unpacks_unpackText (text : String) : Unpacks (unpackText text) := by
  intro f₀
  have hfree : ∀ r, FreeBelow (Touches [.package] f₀) (Shelf.package.at r) := fun r =>
    freeBelow_touches (by decide) r
  refine Action.Keeps.bind (fun w hw => ends_ignore (keeps_removeDirAll (hfree []).clears w hw))
    fun _ => ?_
  refine Action.Keeps.bind (Action.Keeps.mapError (keeps_mkdir (hfree []).makes)) fun _ => ?_
  exact Action.Keeps.bind (Action.Keeps.mapError (keeps_write (hfree _).writes _)) fun _ =>
    Action.Keeps.mapError (keeps_write (hfree _).writes _)

theorem ends_unpackText (text : String) (w : World) :
    (unpackText text).Ends False w
      (fun _ w' => ∀ r, w'.fs.node (Shelf.package.at r) =
        if r = [utf8 "signature.sig"] then some (.leaf [])
        else if r = [utf8 "manifest.toml"] then some (.leaf (utf8 text))
        else if r = [] then some .dir else none) fun _ _ => True := by
  refine Action.Ends.bind Action.Ends.trivial fun _ w₁ _ => ?_
  refine Action.Ends.bind (Action.Ends.mapError ends_change_any) fun _ w₂ h₂ => ?_
  refine Action.Ends.bind (Action.Ends.mapError ends_change_any) fun _ w₃ h₃ => ?_
  refine Action.Ends.mapError (ends_change_any.mono (fun _ w₄ h₄ r => ?_) fun _ _ h => h)
  obtain ⟨hnone, -, h₂⟩ := FileSystem.mkdirAt_eq_ok h₂
  have hat : ∀ r', Shelf.package.at r = Shelf.package.at r' ↔ r = r' := fun r' =>
    ⟨fun h => (List.cons.inj h).2, fun h => by rw [h]⟩
  rw [(FileSystem.writeAt_eq_ok h₄).2.2, (FileSystem.writeAt_eq_ok h₃).2.2, h₂]
  simp only [hat]
  have hfree : w₁.fs.node (Shelf.package.at r) = none :=
    FileSystem.node_none_of_isPrefix hnone (Shelf.at_isPrefix_iff.2 (List.nil_prefix))
  rw [hfree]

/-- The installed manifest, and one that asks for the network. -/
def tamePermissions : PermissionInfo := {}

def widePermissions : PermissionInfo := { network := ["evil"] }

def appManifest (permissions : PermissionInfo) : Manifest :=
  { package := ⟨"a", "A", "1", ""⟩, binaryPath := "bin/a", permissions := permissions }

/-- An environment in which the file at the path holds one text and then another. -/
def pathEnv (texts : Nat → Install Unit) : UpgradeEnv where
  plan := noFault
  parse text := if text = "tame" then .ok (appManifest tamePermissions)
    else if text = "wide" then .ok (appManifest widePermissions) else .error "no manifest"
  profile _ := none
  appsDir := "/apps"
  tempName := utf8 "tmp"
  lock := ⟨fun text => if text = "lock" then
      .ok [("a", { sourceLayer := "lunpkg", version := "1", installedAt := 0, granted := {} })]
    else .error "corrupt", fun _ => .error "not printed"⟩
  now := "now"
  infoText info := info.appId
  extract := texts
  verify _ := .ok ()
  fits := true
  nowSecs := 0
  describe _ := "failed"

/-- The app's directory. -/
def appOnly : Fs := bareApps.put (Shelf.apps.at []) (utf8 "a") .dir bareApps_at bareApps_free

theorem appOnly_at : appOnly.node (appDir "a") = some .dir := by decide

theorem appOnly_free : appOnly.node (appDir "a" ++ [utf8 "manifest.toml"]) ≠ some .dir := by decide

/-- The app. -/
def appUnlocked : Fs :=
  appOnly.put (appDir "a") (utf8 "manifest.toml") (.leaf (utf8 "tame")) appOnly_at appOnly_free

theorem appUnlocked_at : appUnlocked.node (Shelf.apps.at []) = some .dir := by decide

theorem appUnlocked_free :
    appUnlocked.node (Shelf.apps.at [] ++ [utf8 "installed.lock"]) ≠ some .dir := by decide

/-- The app, and its entry in the lock. -/
def appTree : Fs :=
  appUnlocked.put (Shelf.apps.at []) (utf8 "installed.lock") (.leaf (utf8 "lock")) appUnlocked_at
    appUnlocked_free

/-- The file is replaced behind the gate by one that asks for more, which is installed; or
it is gone, and so is the app. -/
theorem changed_file_breaks_upgrade :
    (∃ w', runUpgrade (pathEnv fun turn => unpackText (if turn = 0 then "tame" else "wide")) 8
        ⟨appTree, 0⟩ = some (.ok (), w') ∧
      manifestOf (pathEnv fun _ => Action.fail .manifestNotFound).toEnv w'.fs (appDir "a") =
        some (appManifest widePermissions) ∧ Widens {} widePermissions) ∧
    ∃ w', runUpgrade (pathEnv fun turn => if turn = 0 then unpackText "tame" else
        Action.fail (.packageNotFound "a.lunpkg")) 8 ⟨appTree, 0⟩ =
        some (.error (.packageNotFound "a.lunpkg"), w') ∧
      appTree.node (appDir "a") = some .dir ∧ w'.fs.node (appDir "a") = none := by
  refine ⟨?_, ?_⟩
  · obtain ⟨w', hrun, hm⟩ := Action.exists_of_map_eq (f := fun w' : World =>
      manifestOf (pathEnv fun _ => Action.fail .manifestNotFound).toEnv w'.fs (appDir "a"))
      (a := runUpgrade (pathEnv fun turn => unpackText (if turn = 0 then "tame" else "wide")) 8)
      (s := ⟨appTree, 0⟩) (c := some (appManifest widePermissions)) (by decide +kernel)
    exact ⟨w', hrun, hm, .inl ⟨"evil", by decide, by decide⟩⟩
  · have hrun : ∃ w', runUpgrade (pathEnv fun turn => if turn = 0 then unpackText "tame" else
        Action.fail (.packageNotFound "a.lunpkg")) 8 ⟨appTree, 0⟩ =
          some (.error (.packageNotFound "a.lunpkg"), w') ∧ w'.fs.node (appDir "a") = none :=
      ⟨_, rfl, rfl⟩
    obtain ⟨w', hrun, hgone⟩ := hrun
    exact ⟨w', hrun, rfl, hgone⟩

/-- The calls fail from the ninth on, behind the gate. -/
def failingEnv : UpgradeEnv :=
  { pathEnv fun _ => unpackText "tame" with
    plan := fun n => if n < 9 then none else some ⟨.other 5, none, []⟩ }

theorem failingEnv_staysPut : GateStaysPut failingEnv ⟨appTree, 0⟩ := by
  intro p v hp _
  have hseen : some ("a", 8) = some (p.appId, v.made) := congrArg (Option.map fun r : Except
    InstallError UpgradePreview × World => (r.1.toOption.elim "" (·.appId), r.2.made)) hp
  obtain ⟨hid, hmade⟩ := Prod.mk.inj (Option.some.inj hseen)
  obtain ⟨fs, made⟩ := v
  obtain rfl : 8 = made := hmade
  rw [← hid]
  refine .inr fun found w₁ hload => ?_
  have hran : loadManifestOk failingEnv.toEnv (appDir "a") ⟨fs, 9⟩ = some (.ok none, ⟨fs, 10⟩) := rfl
  cases hran.symm.trans hload
  show MoveStops failingEnv.toTrashEnv "a" ⟨fs, 10⟩
  rw [MoveStops, ClearingStops, if_neg fun h => by cases h.1]
  exact .inl ⟨_, _, rfl⟩

/-- The file that stays the same is installed as the gate saw it, and where every call
behind the gate fails the app stays. -/
theorem unchanged_file_upgraded :
    (∃ w' v m, runUpgrade (pathEnv fun _ => unpackText "tame") 8 ⟨appTree, 0⟩ = some (.ok (), w') ∧
      unpackText "tame" ⟨appTree, 0⟩ = some (.ok (), v) ∧
      manifestOf (pathEnv fun _ => unpackText "tame").toEnv v.fs (Shelf.package.at []) = some m ∧
      ∃ content l entry, Locked (pathEnv fun _ => unpackText "tame").lock appTree content l ∧
        l.get m.package.id = some entry ∧ ∀ m', manifestOf (pathEnv fun _ => unpackText "tame").toEnv
          w'.fs (appDir m.package.id) = some m' → ¬ Widens entry.granted m'.permissions) ∧
    ∃ w', runUpgrade failingEnv 8 ⟨appTree, 0⟩ = some (.error (.trashFailed "failed"), w') ∧
      ∀ s ∈ shelves, SameIn s appTree w'.fs := by
  refine ⟨?_, ?_⟩
  · obtain ⟨w', hrun, -⟩ := Action.exists_of_map_eq (f := fun _ : World => true)
      (a := runUpgrade (pathEnv fun _ => unpackText "tame") 8) (s := ⟨appTree, 0⟩) (c := true)
      (by decide +kernel)
    have hsame : SamePackage (pathEnv fun _ => unpackText "tame") := by
      intro v v' u u' hv hu r
      rw [(ends_unpackText "tame" v).of_ok hv, (ends_unpackText "tame" u).of_ok hu]
    obtain ⟨v, m, hv, hm, hrest⟩ :=
      (upgrade_kept (fun _ => unpacks_unpackText "tame") hrun).1 hsame rfl
    exact ⟨w', v, m, hrun, hv, hm, hrest⟩
  · have hrun : ∃ w', runUpgrade failingEnv 8 ⟨appTree, 0⟩ =
        some (.error (.trashFailed "failed"), w') := ⟨_, rfl⟩
    obtain ⟨w', hrun⟩ := hrun
    exact ⟨w', hrun, (upgrade_kept (fun _ => unpacks_unpackText "tame") hrun).2
      failingEnv_staysPut ⟨_, rfl⟩⟩

end Arlen.Installd
