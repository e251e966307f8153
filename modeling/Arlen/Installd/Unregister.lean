import Arlen.Installd.Trash

/-!
# Removing an app's registrations

`remove_schemas`, `remove_modules` and the removals of the keybindings and the settings
schema all go by name. What they remove, and when they leave their directory as it was.
-/

namespace Arlen.Installd

open Arlen.Lib

/-! ## Removing by name -/

/-- Whether a call removes the entry. -/
abbrev Removable := Entry Bytes → Bool

def asFile : Removable
  | .leaf _ => true
  | .dir => false

def asTree : Removable
  | .leaf _ => false
  | .dir => true

/-- Of the names, none is there, or the first that is there cannot be removed, which ends
the removal. -/
def NoneToRemove (fs : Fs) (s : Shelf) (removable : Removable) : List Name → Prop
  | [] => True
  | n :: rest =>
    match fs.node (s.at [n]) with
    | none => NoneToRemove fs s removable rest
    | some e => removable e = false

theorem noneToRemove_congr {fs fs' : Fs} {s : Shelf} {removable : Removable} (h : SameIn s fs fs')
    (names : List Name) : NoneToRemove fs' s removable names ↔ NoneToRemove fs s removable names := by
  induction names with
  | nil => exact Iff.rfl
  | cons n rest ih =>
    unfold NoneToRemove
    rw [h [n]]
    cases fs.node (s.at [n]) with
    | none => exact ih
    | some e => exact Iff.rfl

/-- What removing the names made of the tree. -/
structure Cleared (S : List Shelf) (s : Shelf) (removable : Removable) (names : List Name)
    (fs fs' : Fs) : Prop where
  touches : Touches S fs fs'
  shrinks : ∀ names, fs'.node (s.at names) = none ∨ fs'.node (s.at names) = fs.node (s.at names)
  sameIn_iff : SameIn s fs fs' ↔ NoneToRemove fs s removable names

variable {S : List Shelf} {s : Shelf} {removable : Removable} {w : World} {fs fs' : Fs} {n : Name}

/-- How one step of a removal ends. -/
structure StepsBy (S : List Shelf) (s : Shelf) (removable : Removable)
    (step : String → Install Unit) : Prop where
  nameless : ∀ rel w, ownName rel = none →
    (step rel).Ends True w (fun _ w' => w'.fs = w.fs) fun _ _ => False
  absent : ∀ rel n w, ownName rel = some n → w.fs.node (s.at [n]) = none →
    (step rel).Ends True w (fun _ w' => Touches S w.fs w'.fs ∧ SameIn s w.fs w'.fs) fun _ _ => False
  removed : ∀ rel n w e, ownName rel = some n → w.fs.node (s.at [n]) = some e →
    removable e = true → (step rel).Ends True w
      (fun _ w' => Touches S w.fs w'.fs ∧
        ∀ r, w'.fs.node (s.at r) = if [n] <+: r then none else w.fs.node (s.at r))
      fun _ _ => False
  stopped : ∀ rel n w e, ownName rel = some n → w.fs.node (s.at [n]) = some e →
    removable e = false →
      (step rel).Ends True w (fun _ _ => False) fun _ w' => w'.fs = w.fs

/-- A removal step by step clears the names. -/
theorem StepsBy.forEach {step : String → Install Unit} (h : StepsBy S s removable step)
    (rels : List String) (w : World) :
    (Action.forEach rels step).Ends True w
      (fun _ w' => Cleared S s removable (rels.filterMap ownName) w.fs w'.fs)
      (fun _ w' => Cleared S s removable (rels.filterMap ownName) w.fs w'.fs) := by
  induction rels generalizing w with
  | nil => exact Action.Ends.pure ⟨.refl _ _, fun _ => .inr rfl, ⟨fun _ => trivial, fun _ => .refl _ _⟩⟩
  | cons rel rels ih =>
    cases hown : ownName rel with
    | none =>
      rw [List.filterMap_cons_none hown]
      refine (h.nameless rel w hown).safe.bind ?_
      intro _ w' hw
      rw [← hw]
      exact ih w'
    | some n =>
      rw [List.filterMap_cons_some hown]
      cases hnode : w.fs.node (s.at [n]) with
      | none =>
        refine (h.absent rel n w hown hnode).safe.bind ?_
        rintro _ w' ⟨ht, hs⟩
        have hpass : ∀ w'' : World, Cleared S s removable (rels.filterMap ownName) w'.fs w''.fs →
            Cleared S s removable (n :: rels.filterMap ownName) w.fs w''.fs := by
          intro w'' hc
          refine ⟨ht.trans hc.touches, fun names => ?_, ?_⟩
          · rw [← hs names]
            exact hc.shrinks names
          · rw [NoneToRemove, hnode, ← noneToRemove_congr hs, ← hc.sameIn_iff]
            exact ⟨fun hsame => hs.symm.trans hsame, fun hsame => hs.trans hsame⟩
        exact (ih w').mono (fun _ w'' => hpass w'') fun _ w'' => hpass w''
      | some e =>
        cases hrem : removable e with
        | false =>
          refine Action.Ends.bind ((h.stopped rel n w e hown hnode hrem).mono
            (fun _ _ hf => hf) fun _ w' hw => ?_) fun _ _ hf => hf.elim
          rw [hw]
          refine ⟨.refl _ _, fun _ => .inr rfl, ⟨fun _ => ?_, fun _ => .refl _ _⟩⟩
          rw [NoneToRemove, hnode]
          exact hrem
        | true =>
          refine (h.removed rel n w e hown hnode hrem).safe.bind ?_
          rintro _ w' ⟨ht, hall⟩
          have hgone : w'.fs.node (s.at [n]) = none := by rw [hall, if_pos (List.prefix_refl _)]
          have hpass : ∀ w'' : World, Cleared S s removable (rels.filterMap ownName) w'.fs w''.fs →
              Cleared S s removable (n :: rels.filterMap ownName) w.fs w''.fs := by
            intro w'' hc
            refine ⟨ht.trans hc.touches, fun names => ?_, ⟨fun hsame => ?_, fun hnone => ?_⟩⟩
            · rcases hc.shrinks names with hn | he
              · exact .inl hn
              · rw [he, hall]
                split
                · exact .inl rfl
                · exact .inr rfl
            · have hgone' : w''.fs.node (s.at [n]) = none := by
                rcases hc.shrinks [n] with hn | he
                · exact hn
                · exact he.trans hgone
              rw [hsame [n], hnode] at hgone'
              cases hgone'
            · rw [NoneToRemove, hnode] at hnone
              exact absurd (hrem.symm.trans hnone) nofun
          exact (ih w').mono (fun _ w'' => hpass w'') fun _ w'' => hpass w''

/-! ## The removals -/

variable {env : Env}

/-- The four directories of registrations. -/
def registers : List Shelf := [.schemas, .modules, .keybindings, .settings]

end Arlen.Installd
