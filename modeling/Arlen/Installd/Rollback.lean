import Arlen.Installd.BreakOff
import Arlen.Installd.Transaction

/-!
# What a rollback leaves

A step of the transaction works in a directory of its own. A step that has completed is
undone where the names it brings were free; a step that breaks off has recorded nothing,
and what it has done stays. So a failed installation leaves no trace if each step that
completed found its directory fresh and the one that broke off stopped before it had begun.
-/

namespace Arlen.Installd

open Arlen.Lib

variable {s : Shelf} {S : List Shelf} {removable : Removable} {names : List Name} {f₀ fs fs' : Fs}
  {n : Name} {env : Env} {m : Manifest} {depth : Nat} {w : World} {t : InstallTransaction}

/-! ## Removing what was brought -/

/-- Once what was brought is gone the directory is what it was. -/
theorem Brought.sameIn (h : Brought s removable names f₀ fs)
    (hgone : ∀ n ∈ names, fs.node (s.at [n]) = none) : SameIn s f₀ fs := by
  intro r
  by_cases hr : ∀ n ∈ names, ¬ [n] <+: r
  · exact h.rest r hr
  · simp only [not_forall, not_not] at hr
    obtain ⟨n, hn, hp⟩ := hr
    have hbelow : s.at [n] <+: s.at r := Shelf.at_isPrefix_iff.2 hp
    rw [FileSystem.node_none_of_isPrefix (hgone n hn) hbelow,
      FileSystem.node_none_of_isPrefix (h.free n hn) hbelow]

theorem Brought.removed (h : Brought s removable names f₀ fs) (hn : n ∈ names)
    (hall : ∀ r, fs'.node (s.at r) = if [n] <+: r then none else fs.node (s.at r)) :
    Brought s removable names f₀ fs' := by
  refine ⟨h.shelf, h.free, fun k hk e he => ?_, fun r hr => ?_⟩
  · rw [hall] at he
    split at he
    · cases he
    · exact h.now k hk e he
  · rw [hall, if_neg (hr n hn), h.rest r hr]

/-- Whether the transaction has recorded the step of a directory. -/
def InstallTransaction.recorded (t : InstallTransaction) : Shelf → Bool
  | .apps => t.appDir
  | .schemas => t.installedSchemas
  | .modules => decide (t.installedModules ≠ [])
  | .keybindings => t.keybindingsFragment
  | .settings => t.settingsSchema
  | .desktop => t.desktopEntry
  | _ => false

/-- What the step of a directory brings. -/
def broughtKind : Shelf → Removable
  | .apps => asTree
  | .modules => asTree
  | _ => asFile

def broughtNames (m : Manifest) : Shelf → List Name
  | .apps => [utf8 m.package.id]
  | .schemas => m.schemas.filterMap ownName
  | .modules => m.modules.filterMap ownName
  | .keybindings => [utf8 (tomlFile m.package.id)]
  | .settings => [utf8 (tomlFile m.package.id)]
  | .desktop => [utf8 (desktopFile m.package.id)]
  | _ => []

/-- The directory is what it was, but for what a recorded step brought. -/
def Restorable (m : Manifest) (t : InstallTransaction) (s : Shelf) (f₀ fs : Fs) : Prop :=
  if t.recorded s then Brought s (broughtKind s) (broughtNames m s) f₀ fs else SameIn s f₀ fs

theorem Restorable.congr (h : Restorable m t s f₀ fs) (hsame : SameIn s fs fs') :
    Restorable m t s f₀ fs' := by
  unfold Restorable at h ⊢
  split
  · next hrec =>
    rw [if_pos hrec] at h
    exact h.congr hsame
  · next hrec =>
    rw [if_neg hrec] at h
    exact h.trans hsame

/-- The six directories of an installation. -/
def shelves : List Shelf := [.desktop, .settings, .keybindings, .modules, .schemas, .apps]

/-- A step with the directory it works in, what lets its rollback bring that directory
back (the directory is there and the names the step brings are free), and when it stops
before it has made or written anything. -/
structure Stage where
  shelf : Shelf
  step : Step
  fresh : Fs → Prop
  stops : World → Prop

/-- A file of one name can be placed. -/
def CanPlace (s : Shelf) (file : String) (fs : Fs) : Prop :=
  fs.node (s.at []) = some .dir ∧ fs.node (s.at [utf8 file]) = none ∧
    fs.node (s.at [utf8 (file ++ ".tmp")]) = none

theorem CanPlace.congr {file : String} (h : CanPlace s file fs) (hsame : SameIn s fs fs') :
    CanPlace s file fs' :=
  ⟨(hsame _).trans h.1, (hsame _).trans h.2.1, (hsame _).trans h.2.2⟩

/-- How a stage works: one that breaks off has recorded nothing, one that completes from a
fresh directory can be undone, and one that breaks off leaves its directory as it was if
it stops before it has begun, from a fresh directory only then. -/
structure Stage.Works (m : Manifest) (st : Stage) : Prop where
  fresh_congr : ∀ fs fs', SameIn st.shelf fs fs' → st.fresh fs → st.fresh fs'
  touches : ∀ j : Job, st.step.Ends False j
    (fun _ j' => Touches [st.shelf, .permissions] j.world.fs j'.world.fs ∧
      ∀ s, s ≠ st.shelf → j'.txn.recorded s = j.txn.recorded s)
    (fun _ j' => Touches [st.shelf, .permissions] j.world.fs j'.world.fs ∧ j'.txn = j.txn)
  undoable : ∀ j : Job, st.fresh j.world.fs → Extracted j.world.fs → j.txn.recorded st.shelf = false →
    st.step.Ends False j (fun _ j' => Restorable m j'.txn st.shelf j.world.fs j'.world.fs)
      fun _ _ => True
  stopped : ∀ j : Job, st.stops j.world → st.step.Ends False j (fun _ _ => True)
    fun _ j' => SameIn st.shelf j.world.fs j'.world.fs
  begun : (m.modules.filterMap ownName).Nodup → ∀ j : Job, st.fresh j.world.fs →
    Extracted j.world.fs → ¬ st.stops j.world → st.step.Ends False j (fun _ _ => True)
      fun _ j' => ¬ SameIn st.shelf j.world.fs j'.world.fs

theorem ends_recording {α : Type} {act : Install α} {note : α → InstallTransaction → InstallTransaction}
    {total : Prop} {j : Job} {ok : Unit → Job → Prop} {err : InstallError → Job → Prop}
    (h : act.Ends total j.world (fun a w' => ok () ⟨w', note a j.txn⟩) fun e w' => err e ⟨w', j.txn⟩) :
    (recording act note).Ends total j ok err := by
  unfold Action.Ends recording at *
  generalize act j.world = r at h ⊢
  rcases r with _ | ⟨e | a, w'⟩
  · exact h
  · exact h
  · exact h

/-- What holds between the steps: a directory is what it was or can be brought back, and
no step ahead has recorded anything. -/
structure Underway (m : Manifest) (f₀ : Fs) (ahead : List Stage) (j : Job) : Prop where
  restorable : ∀ s ∈ shelves, Restorable m j.txn s f₀ j.world.fs
  ahead : ∀ st ∈ ahead, j.txn.recorded st.shelf = false
  extracted : Extracted j.world.fs

theorem Underway.next {st : Stage} {rest : List Stage} {j j' : Job} (hst : st.Works m)
    (hshelf : st.shelf ∈ shelves) (hnew : ∀ st' ∈ rest, st'.shelf ≠ st.shelf)
    (h : Underway m f₀ (st :: rest) j) (hrun : st.step j = some (.ok (), j'))
    (hfresh : st.fresh j.world.fs) :
    Underway m f₀ rest j' := by
  obtain ⟨ht, hnote⟩ := (hst.touches j).of_ok hrun
  have hrec := h.ahead st List.mem_cons_self
  have hsame : SameIn st.shelf f₀ j.world.fs := by
    have hr := h.restorable st.shelf hshelf
    rw [Restorable, if_neg (by rw [hrec]; nofun)] at hr
    exact hr
  have hundo := (hst.undoable j hfresh h.extracted hrec).of_ok hrun
  refine ⟨fun s hs => ?_, fun st' hst' => ?_, ?_⟩
  · by_cases heq : s = st.shelf
    · rw [heq]
      unfold Restorable at hundo ⊢
      split
      · next hyes =>
        rw [if_pos hyes] at hundo
        exact hundo.congr_left hsame
      · next hno =>
        rw [if_neg hno] at hundo
        exact hsame.trans hundo
    · have hother : SameIn s j.world.fs j'.world.fs := by
        have hpermissions : ∀ s ∈ shelves, s ≠ .permissions := by decide
        refine ht.sameIn ?_
        simp [heq, hpermissions s hs]
      have hr := (h.restorable s hs).congr hother
      unfold Restorable at hr ⊢
      rw [hnote s heq]
      exact hr
  · rw [hnote _ (hnew st' hst')]
    exact h.ahead st' (List.mem_cons_of_mem _ hst')
  · have hpackage : SameIn .package j.world.fs j'.world.fs := by
      have hne : ∀ s ∈ shelves, s ≠ .package := by decide
      refine ht.sameIn ?_
      simp [(hne _ hshelf).symm]
    rw [Extracted, hpackage]
    exact h.extracted

theorem Underway.before {st : Stage} {rest : List Stage} {j : Job} (h : Underway m f₀ (st :: rest) j)
    (hshelf : st.shelf ∈ shelves) : SameIn st.shelf f₀ j.world.fs := by
  have hr := h.restorable st.shelf hshelf
  rw [Restorable, if_neg (by rw [h.ahead st List.mem_cons_self]; nofun)] at hr
  exact hr

variable {l : List Stage} {j j' : Job} {e : InstallError}

end Arlen.Installd
