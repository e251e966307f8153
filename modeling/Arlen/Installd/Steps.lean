import Arlen.Installd.Unregister

/-!
# What installing changes

Any call may fail here. The steps of an installation change their own directory only, and
in it, where the names they bring were free, nothing else than these names.
-/

namespace Arlen.Installd

open Arlen.Lib

variable {P : Fs → Prop} {plan : Plan} {total : Prop} {p src dst : Loc}

/-! ## Calls -/

/-- The action keeps a property of the tree, however it ends. -/
abbrev KeepsTree (total : Prop) (P : Fs → Prop) {ε α : Type} (act : Action World ε α) : Prop :=
  Action.Keeps total (fun w => P w.fs) act

/-- What is at or below `p` does not matter to the property. -/
def FreeBelow (P : Fs → Prop) (p : Loc) : Prop :=
  ∀ fs fs', P fs → (∀ q, ¬ p <+: q → fs'.node q = fs.node q) → P fs'

/-- A directory made at `p` does not matter to the property. -/
def FreeToMake (P : Fs → Prop) (p : Loc) : Prop :=
  ∀ fs fs', P fs → fs.node p = none → (∀ q, fs'.node q = if q = p then some .dir else fs.node q) → P fs'

/-- A file written at `p` does not matter to the property. -/
def FreeToWrite (P : Fs → Prop) (p : Loc) : Prop :=
  ∀ fs fs' b, P fs → (∀ q, fs'.node q = if q = p then some (.leaf b) else fs.node q) → P fs'

/-- Removing things at or below `p` does not matter to the property. -/
def FreeToClear (P : Fs → Prop) (p : Loc) : Prop :=
  ∀ fs fs', P fs → Shrinks fs fs' → (∀ q, ¬ p <+: q → fs'.node q = fs.node q) → P fs'

theorem FreeBelow.writes (h : FreeBelow P p) : FreeToWrite P p := by
  intro fs fs' b hP hall
  refine h fs fs' hP fun q hq => ?_
  rw [hall, if_neg]
  rintro rfl
  exact hq (List.prefix_refl _)

theorem FreeBelow.clears (h : FreeBelow P p) : FreeToClear P p := fun fs fs' hP _ hall =>
  h fs fs' hP hall

theorem FreeBelow.makes (h : FreeBelow P p) : FreeToMake P p := by
  intro fs fs' hP _ hall
  refine h fs fs' hP fun q hq => ?_
  rw [hall, if_neg]
  rintro rfl
  exact hq (List.prefix_refl _)

theorem keeps_query {α : Type} (f : Fs → Except IoError α) : KeepsTree total P (query plan f) := by
  intro w hw
  unfold Action.Ends query
  cases plan w.made with
  | some fault => exact hw
  | none =>
    cases hf : f w.fs with
    | ok a =>
      simp only
      exact hw
    | error e =>
      simp only
      exact hw

theorem keeps_pathExists {ε : Type} (p : Loc) :
    KeepsTree total P (pathExists plan p : Action World ε Bool) := by
  intro w hw
  unfold Action.Ends pathExists
  cases plan w.made with
  | some fault => exact hw
  | none => exact hw

theorem keeps_isDir {ε : Type} (p : Loc) :
    KeepsTree total P (isDir plan p : Action World ε Bool) := by
  intro w hw
  unfold Action.Ends isDir
  cases plan w.made with
  | some fault => exact hw
  | none => exact hw

theorem keeps_change {f : Fs → Except FileSystem.Refusal Fs} {broken : Fault → Fs → Fs}
    (hf : ∀ fs fs', P fs → f fs = .ok fs' → P fs') (hb : ∀ fault fs, P fs → P (broken fault fs)) :
    KeepsTree total P (change plan f broken) := by
  intro w hw
  unfold Action.Ends change
  cases plan w.made with
  | some fault => exact hb fault w.fs hw
  | none =>
    cases hres : f w.fs with
    | ok fs' =>
      simp only
      exact hf w.fs fs' hw hres
    | error why =>
      simp only
      exact hw

theorem keeps_write (h : FreeToWrite P p) (content : Bytes) :
    KeepsTree total P (write plan p content) := by
  have hput : ∀ fs fs' b, P fs → fs.writeAt p b = .ok fs' → P fs' := fun fs fs' b hP hfs =>
    h fs fs' b hP (FileSystem.writeAt_eq_ok hfs).2.2
  refine keeps_change (fun fs fs' hP hfs => hput fs fs' content hP hfs) fun fault fs hP => ?_
  unfold leftAt
  cases fault.left with
  | none => exact hP
  | some part =>
    cases hpart : fs.writeAt p part with
    | ok fs' =>
      simp only [hpart]
      exact hput fs fs' part hP hpart
    | error why =>
      simp only [hpart]
      exact hP

theorem keeps_copy (h : FreeToWrite P dst) : KeepsTree total P (copy plan src dst) := by
  intro w hw
  cases hsrc : contentOf w.fs src with
  | error e =>
    have hcopy : copy plan src dst w = query plan (fun _ => (.error e : Except IoError Unit)) w := by
      rw [copy, hsrc]
    unfold Action.Ends
    rw [hcopy]
    exact keeps_query _ w hw
  | ok content =>
    have hcopy : copy plan src dst w = write plan dst content w := by
      rw [copy, hsrc]
    unfold Action.Ends
    rw [hcopy]
    exact keeps_write h content w hw

theorem shrinks_erase {fs : Fs} (hp : p ≠ []) : Shrinks fs (fs.erase p hp) := by
  intro q
  by_cases hq : p <+: q
  · exact .inl (FileSystem.node_erase_below hq)
  · exact .inr (FileSystem.node_erase_of_not hq)

theorem keeps_removeDirAll (h : FreeToClear P p) : KeepsTree total P (removeDirAll plan p) := by
  refine keeps_change (fun fs fs' hP hfs => ?_) fun fault fs hP => ?_
  · have hall := (FileSystem.removeTree_eq_ok hfs).2
    refine h fs fs' hP (fun q => ?_) fun q hq => ?_
    · rw [hall]
      split
      · exact .inl rfl
      · exact .inr rfl
    · rw [hall, if_neg hq]
  · unfold removeSome
    split
    · have hall : ∀ (l : List Loc) fs, (∀ q ∈ l, p <+: q) → P fs →
          P (l.foldl (fun fs q => if hq : q = [] then fs else fs.erase q hq) fs) := by
        intro l
        induction l with
        | nil => exact fun fs _ hfs => hfs
        | cons q l ih =>
          intro fs hl hfs
          refine ih _ (fun r hr => hl r (List.mem_cons_of_mem _ hr)) ?_
          show P (if hq : q = [] then fs else fs.erase q hq)
          by_cases hq : q = []
          · rw [dif_pos hq]
            exact hfs
          · rw [dif_neg hq]
            refine h fs _ hfs (shrinks_erase hq) fun r hr => ?_
            exact FileSystem.node_erase_of_not fun hqr => hr ((hl q List.mem_cons_self).trans hqr)
      refine hall _ fs (fun q hq => ?_) hP
      exact of_decide_eq_true (List.mem_filter.1 hq).2
    · exact hP

theorem keeps_rename (h : ∀ fs fs', P fs →
      (∀ q, ¬ src <+: q → ¬ dst <+: q → fs'.node q = fs.node q) → P fs') :
    KeepsTree total P (rename plan src dst) := by
  refine keeps_change (fun fs fs' hP hfs => ?_) fun _ _ hP => hP
  obtain ⟨-, -, ⟨-, rfl⟩ | ⟨-, hmoved⟩⟩ := FileSystem.renameTo_eq_ok hfs
  · exact hP
  · exact h fs fs' hP hmoved.rest

theorem keeps_mkdir (h : FreeToMake P p) : KeepsTree total P (mkdir plan p) := by
  refine keeps_change (fun fs fs' hP hfs => ?_) fun _ _ hP => hP
  obtain ⟨hnone, -, hall⟩ := FileSystem.mkdirAt_eq_ok hfs
  exact h fs fs' hP hnone hall

theorem keeps_unlessDir (e : IoError) : KeepsTree total P (unlessDir plan p e) :=
  (keeps_isDir p).bind fun _ _ hw =>
    Action.Ends.ite (fun _ => Action.Ends.pure hw) fun _ => Action.Ends.fail hw

theorem keeps_createDirAllUp {up : List Name} (h : ∀ q, q <+: up.reverse → FreeToMake P q) :
    KeepsTree total P (createDirAllUp plan up) := by
  induction up with
  | nil =>
    refine (Action.Keeps.attempt (keeps_mkdir (h _ (List.prefix_refl _)))).bind fun r => ?_
    rcases r with e | u
    · exact keeps_unlessDir e
    · exact Action.Keeps.pure ()
  | cons n up ih =>
    have hmk : KeepsTree total P (mkdir plan (n :: up).reverse) :=
      keeps_mkdir (h _ (List.prefix_refl _))
    have hup : KeepsTree total P (createDirAllUp plan up) := by
      refine ih fun q hq => h q (hq.trans ?_)
      rw [List.reverse_cons]
      exact List.prefix_append _ _
    refine hmk.attempt.bind fun r => ?_
    rcases r with e | u
    · rcases e with why | - | code
      · cases why with
        | noEntry =>
          refine hup.bind fun _ => hmk.attempt.bind fun r => ?_
          rcases r with e | u
          · exact keeps_unlessDir e
          · exact Action.Keeps.pure ()
        | _ => exact keeps_unlessDir _
      · exact keeps_unlessDir _
      · exact keeps_unlessDir _
    · exact Action.Keeps.pure ()

/-- Making a directory makes those above it that were not there. -/
theorem keeps_createDirAll (h : ∀ q, q <+: p → FreeToMake P q) :
    KeepsTree total P (createDirAll plan p) := by
  refine keeps_createDirAllUp fun q hq => h q ?_
  rw [List.reverse_reverse] at hq
  exact hq

/-! ## What a step may change -/

variable {s : Shelf} {S : List Shelf} {removable : Removable} {names : List Name} {f₀ fs fs' : Fs}
  {n : Name} {env : Env} {m : Manifest} {depth : Nat}

theorem freeBelow_touches (hs : s ∈ S) (r : List Name) : FreeBelow (Touches S f₀) (s.at r) := by
  intro fs fs' hP hall q hq
  rw [hall q, hP q hq]
  rintro ⟨r', rfl⟩
  exact hq s hs rfl

theorem freeToMake_touches (hs : s ∈ S) {r : List Name} {q : Loc} (hq : q <+: s.at r) :
    FreeToMake (Touches S f₀) q := by
  cases q with
  | nil =>
    intro fs fs' _ hnone
    exact absurd (fs.root.symm.trans hnone) nofun
  | cons a q =>
    obtain ⟨t, ht⟩ := hq
    obtain ⟨ha, -⟩ := List.cons.inj ht
    rw [ha]
    exact (freeBelow_touches hs q).makes

/-- The names were free, and what stands there now can be removed; the rest of the
directory is what it was. -/
structure Brought (s : Shelf) (removable : Removable) (names : List Name) (fs fs' : Fs) : Prop where
  shelf : fs.node (s.at []) = some .dir
  free : ∀ n ∈ names, fs.node (s.at [n]) = none
  now : ∀ n ∈ names, ∀ e, fs'.node (s.at [n]) = some e → removable e = true
  rest : ∀ r, (∀ n ∈ names, ¬ [n] <+: r) → fs'.node (s.at r) = fs.node (s.at r)

/-- `copy_dir_recursive` keeps what its makings and writings below the destination keep. -/
theorem keeps_copyDirRecursive (hmake : ∀ r q, q <+: dst ++ r → FreeToMake P q)
    (hwrite : ∀ k r, FreeToWrite P (dst ++ k :: r)) (depth : Nat) (src : Loc) :
    KeepsTree False P (copyDirRecursive env depth src dst) := by
  induction depth generalizing src dst with
  | zero => exact fun w hw => fun h => h
  | succ depth ih =>
    refine (Action.Keeps.mapError (keeps_createDirAll fun q hq => ?_)).bind fun _ => ?_
    · exact hmake [] q (by simpa using hq)
    refine (Action.Keeps.mapError (keeps_query _)).bind fun entries => ?_
    refine Action.Keeps.forEach fun n _ => (keeps_isDir _).bind fun b => ?_
    intro w hw
    refine Action.Ends.ite (fun _ => ?_) fun _ => ?_
    · refine ih (fun r q hq => hmake (n :: r) q ?_) (fun k r => ?_) (src ++ [n]) w hw
      · simpa using hq
      · simpa using hwrite n (k :: r)
    · exact Action.Keeps.mapError (keeps_copy (by simpa using hwrite n [])) w hw

/-- The package stands in its directory. -/
def Extracted (fs : Fs) : Prop := fs.node (Shelf.package.at []) = some .dir

theorem touches_installSchemas (hs : Shelf.schemas ∈ S) :
    KeepsTree total (Touches S f₀) (installSchemas env m) := by
  unfold installSchemas
  split
  · exact Action.Keeps.pure ()
  refine (Action.Keeps.mapError (keeps_createDirAll fun q hq => freeToMake_touches hs hq)).bind
    fun _ => Action.Keeps.forEach fun rel _ => ?_
  intro w hw
  unfold installSchema
  refine Action.Ends.ite (fun _ => Action.Ends.fail hw) fun _ => ?_
  refine Action.Keeps.bind (keeps_pathExists _) (fun b w hw => ?_) w hw
  refine Action.Ends.ite (fun _ => ?_) fun _ => Action.Ends.pure hw
  cases joinedName env rel with
  | none => exact Action.Ends.fail hw
  | some n => exact Action.Keeps.mapError (keeps_copy (freeBelow_touches hs [n]).writes) w hw

theorem Brought.congr (h : Brought s removable names f₀ fs) (hsame : SameIn s fs fs') :
    Brought s removable names f₀ fs' :=
  ⟨h.shelf, h.free, fun n hn e he => h.now n hn e ((hsame [n]).symm.trans he),
    fun r hr => (hsame r).trans (h.rest r hr)⟩

theorem Brought.congr_left (h : Brought s removable names fs fs') (hsame : SameIn s f₀ fs) :
    Brought s removable names f₀ fs' :=
  ⟨(hsame []).symm.trans h.shelf, fun n hn => (hsame [n]).symm.trans (h.free n hn), h.now,
    fun r hr => (h.rest r hr).trans (hsame r)⟩

/-- A profile is written among the permissions. -/
theorem keeps_grantModule (hmake : ∀ q, q <+: Shelf.permissions.at [] → FreeToMake P q)
    (hbelow : ∀ n, FreeBelow P (Shelf.permissions.at [n]))
    (hmove : ∀ n n' fs fs', P fs → (∀ q, ¬ Shelf.permissions.at [n] <+: q →
      ¬ Shelf.permissions.at [n'] <+: q → fs'.node q = fs.node q) → P fs') (dest : Loc) :
    KeepsTree total P (grantModule env dest) := by
  refine (keeps_pathExists _).bind fun b w hw => ?_
  refine Action.Ends.ite (fun _ => ?_) fun _ => Action.Ends.pure hw
  refine Action.Keeps.bind (Action.Keeps.attempt (Action.Keeps.mapError (keeps_query _)))
    (fun r => ?_) w hw
  rcases r with e | content
  · exact Action.Keeps.pure ()
  · cases hprofile : env.profile content with
    | none =>
      simp only [hprofile]
      exact Action.Keeps.pure ()
    | some profile =>
      obtain ⟨id, text⟩ := profile
      simp only [hprofile]
      intro w hw
      refine Action.Ends.ite (fun _ => ?_) fun _ => Action.Ends.pure hw
      refine ends_ignore (Action.Keeps.bind (Action.Keeps.mapError (keeps_createDirAll hmake))
        (fun _ => Action.Keeps.bind (Action.Keeps.mapError (keeps_write (hbelow _).writes _))
          fun _ => Action.Keeps.mapError (keeps_rename (hmove _ _))) w hw)

theorem keeps_clearModule (h : FreeToClear P (Shelf.modules.at [n])) :
    KeepsTree total P (clearModule env n) := by
  refine (keeps_pathExists _).bind fun b w hw => ?_
  refine Action.Ends.ite (fun _ => ?_) fun _ => Action.Ends.pure hw
  exact Action.Keeps.mapError (keeps_removeDirAll h) w hw

theorem touches_grantModule (hs : Shelf.permissions ∈ S) (dest : Loc) :
    KeepsTree total (Touches S f₀) (grantModule env dest) := by
  refine keeps_grantModule (fun q hq => freeToMake_touches hs hq) (fun n => freeBelow_touches hs [n])
    (fun n n' fs fs' hP hall q hq => ?_) dest
  rw [hall q, hP q hq]
  · rintro ⟨r, rfl⟩
    exact hq _ hs rfl
  · rintro ⟨r, rfl⟩
    exact hq _ hs rfl

theorem touches_installModules (hs : Shelf.modules ∈ S) (hp : Shelf.permissions ∈ S) :
    KeepsTree False (Touches S f₀) (installModules env depth m) := by
  have hmodule : ∀ rel, KeepsTree False (Touches S f₀) (installModule env depth rel) := by
    intro rel w hw
    unfold installModule
    refine Action.Ends.ite (fun _ => Action.Ends.fail hw) fun _ => ?_
    refine Action.Keeps.bind (keeps_isDir _) (fun b w hw => ?_) w hw
    refine Action.Ends.ite (fun _ => ?_) fun _ => Action.Ends.pure hw
    cases joinedName env rel with
    | none => exact Action.Ends.fail hw
    | some n =>
      refine Action.Keeps.bind (keeps_clearModule (freeBelow_touches hs [n]).clears) (fun _ => ?_) w hw
      refine Action.Keeps.bind (keeps_copyDirRecursive
        (fun r _ hq => freeToMake_touches hs (r := n :: r) hq)
        (fun k r => (freeBelow_touches hs (n :: k :: r)).writes) depth _) fun _ => ?_
      exact (touches_grantModule hp _).bind fun _ => Action.Keeps.pure _
  have heach : ∀ rels, KeepsTree False (Touches S f₀) (installEachModule env depth rels) := by
    intro rels
    induction rels with
    | nil => exact Action.Keeps.pure _
    | cons rel rels ih => exact (hmodule rel).bind fun _ => ih.bind fun _ => Action.Keeps.pure _
  unfold installModules
  split
  · exact Action.Keeps.pure _
  · refine Action.Keeps.bind (Action.Keeps.mapError (keeps_createDirAll fun q hq =>
      freeToMake_touches hs hq)) fun _ => heach _

theorem touches_place (hs : s ∈ S) (file text : String) :
    KeepsTree total (Touches S f₀) (place env s file text) := by
  refine Action.Keeps.bind (Action.Keeps.mapError (keeps_createDirAll fun q hq =>
    freeToMake_touches hs hq)) fun _ => ?_
  refine Action.Keeps.bind (Action.Keeps.mapError (keeps_write (freeBelow_touches hs _).writes _))
    fun _ => Action.Keeps.mapError (keeps_rename fun fs fs' hP hall q hq => ?_)
  rw [hall q, hP q hq]
  · rintro ⟨r, rfl⟩
    exact hq _ hs rfl
  · rintro ⟨r, rfl⟩
    exact hq _ hs rfl

theorem touches_writeKeybindingsFragment (hs : Shelf.keybindings ∈ S) :
    KeepsTree total (Touches S f₀) (writeKeybindingsFragment env m) := by
  unfold writeKeybindingsFragment
  intro w hw
  refine Action.Ends.ite (fun _ => Action.Ends.pure hw) fun _ => ?_
  refine Action.Ends.ite (fun _ => ?_) fun _ => ?_
  · refine Action.Keeps.bind (Action.Keeps.mapError (keeps_createDirAll fun q hq =>
      freeToMake_touches hs hq)) (fun _ => Action.Keeps.pure _) w hw
  · exact Action.Keeps.bind (touches_place hs _ _) (fun _ => Action.Keeps.pure _) w hw

theorem touches_writeSettingsSchema (hs : Shelf.settings ∈ S) :
    KeepsTree total (Touches S f₀) (writeSettingsSchema env m) := by
  unfold writeSettingsSchema
  rcases m.settings with _ | ⟨reason | body⟩
  · exact Action.Keeps.pure _
  · exact Action.Keeps.bind (Action.Keeps.mapError (keeps_createDirAll fun q hq =>
      freeToMake_touches hs hq)) fun _ => Action.Keeps.fail _
  · exact Action.Keeps.bind (touches_place hs _ _) fun _ => Action.Keeps.pure _

theorem ends_change_any {f : Fs → Except FileSystem.Refusal Fs} {broken : Fault → Fs → Fs} {w : World} :
    (change plan f broken).Ends total w (fun _ w' => f w.fs = .ok w'.fs) fun _ _ => True := by
  unfold Action.Ends change
  cases plan w.made with
  | some fault => trivial
  | none =>
    cases hf : f w.fs with
    | ok fs =>
      simp only
    | error why =>
      simp only

theorem ends_rename_any {w : World} :
    (rename plan src dst).Ends total w (fun _ w' => w.fs.renameTo src dst = .ok w'.fs)
      fun _ w' => w'.fs = w.fs := by
  unfold Action.Ends rename change
  cases plan w.made with
  | some fault => rfl
  | none =>
    simp only
    cases hf : w.fs.renameTo src dst with
    | ok fs => simp only
    | error why => simp only [World.called_fs]

theorem ends_copy_any {w : World} :
    (copy plan src dst).Ends total w (fun _ w' => ∃ content, contentOf w.fs src = .ok content ∧
      w.fs.writeAt dst content = .ok w'.fs) fun _ _ => True := by
  cases hsrc : contentOf w.fs src with
  | error e =>
    have hcopy : copy plan src dst w = query plan (fun _ => (.error e : Except IoError Unit)) w := by
      rw [copy, hsrc]
    unfold Action.Ends
    rw [hcopy]
    unfold query
    cases plan w.made with
    | none => trivial
    | some fault => trivial
  | ok content =>
    have hcopy : copy plan src dst w = write plan dst content w := by
      rw [copy, hsrc]
    have hwrite : (write plan dst content).Ends total w
        (fun _ w' => w.fs.writeAt dst content = .ok w'.fs) fun _ _ => True := ends_change_any
    unfold Action.Ends at hwrite ⊢
    rw [hcopy]
    generalize write plan dst content w = r at hwrite ⊢
    rcases r with _ | ⟨e | u, w'⟩
    · exact hwrite
    · exact hwrite
    · exact ⟨content, rfl, hwrite⟩

theorem tmp_name_ne (file : String) : utf8 (file ++ ".tmp") ≠ utf8 file := by
  intro h
  have hlen := congrArg List.length h
  rw [utf8_append, List.length_append] at hlen
  have hpos : 0 < (utf8 ".tmp").length := by decide
  omega

theorem touches_createDesktopEntry (hs : Shelf.desktop ∈ S) :
    KeepsTree total (Touches S f₀) (createDesktopEntry env m) := by
  refine Action.Keeps.bind (Action.Keeps.mapError (keeps_createDirAll fun q hq =>
    freeToMake_touches hs hq)) fun _ => ?_
  refine Action.Keeps.bind (Action.Keeps.mapError (keeps_write (freeBelow_touches hs _).writes _))
    fun _ => ?_
  refine Action.Keeps.bind (Action.Keeps.mapError (keeps_query _)) fun _ => ?_
  refine Action.Keeps.mapError (keeps_rename fun fs fs' hP hall q hq => ?_)
  rw [hall q, hP q hq]
  · rintro ⟨r, rfl⟩
    exact hq _ hs rfl
  · rintro ⟨r, rfl⟩
    exact hq _ hs rfl

end Arlen.Installd
