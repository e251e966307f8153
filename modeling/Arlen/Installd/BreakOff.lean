import Arlen.Installd.Steps

/-!
# Where a step breaks off

A step that breaks off leaves what it has made or written. The names it brings being free,
its directory is then what it was exactly if nothing had been made or written yet, and
whether it stops so early can be told from the tree it finds and the calls that fail.
-/

namespace Arlen.Installd

open Arlen.Lib

variable {plan : Plan} {total : Prop} {p src dst : Loc} {s : Shelf} {n : Name} {w : World}
  {env : Env} {m : Manifest} {depth : Nat} {f₀ : Fs}

/-! ## Calls that change nothing -/

/-- The directory cannot be made. -/
def CannotMake (plan : Plan) (p : Loc) (w : World) : Prop :=
  ∃ e w', createDirAll plan p w = some (.error e, w')

/-- The directory cannot be made, or what comes next stops. -/
def StopsBehind (plan : Plan) (p : Loc) (next : World → Prop) (w : World) : Prop :=
  CannotMake plan p w ∨ ∃ w', createDirAll plan p w = some (.ok (), w') ∧ next w'

/-- `Path::exists` says that something is there. -/
def Seen (plan : Plan) (p : Loc) (w : World) : Prop := plan w.made = none ∧ w.fs.node p ≠ none

theorem ends_pathExists_seen {ε : Type} :
    (pathExists plan p : Action World ε Bool).Ends total w
      (fun b w' => (b = true ↔ Seen plan p w) ∧ w' = w.called) fun _ _ => False := by
  unfold Action.Ends pathExists Seen
  cases plan w.made with
  | some fault => simp
  | none => simp [Option.isSome_iff_ne_none]

theorem ends_make {ok : Unit → World → Prop} {err : IoError → World → Prop}
    (h : (createDirAll plan p).Ends False w ok err) :
    ((createDirAll plan p).mapError InstallError.io).Ends False w
      (fun u w' => createDirAll plan p w = some (.ok (), w') ∧ ok u w')
      fun _ w' => CannotMake plan p w ∧ ∃ e, err e w' :=
  Action.Ends.mapError ((Action.Ends.ran.and h).mono (fun _ _ h => h)
    fun e w' h => ⟨⟨e, w', h.1⟩, e, h.2⟩)

theorem CannotMake.not_made {w' : World} (h : CannotMake plan p w) :
    createDirAll plan p w ≠ some (.ok (), w') := by
  obtain ⟨e, v, hv⟩ := h
  rw [hv]
  nofun

/-! ## The app's own files -/

variable {file : String} {content : Bytes} {next : Install Unit}

end Arlen.Installd
