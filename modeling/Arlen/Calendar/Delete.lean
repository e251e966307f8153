import Arlen.Calendar.RuleText

/-!
# Deleting from a series

Deleting one occurrence leaves the rule alone and excludes the date; deleting the
rest ends the rule the day before. In a file laid out around the blocks of the uid both
change the master and leave the events of other uids as they read, whatever else the
file holds.
-/

namespace Arlen.Calendar

open Arlen.Lib

variable {d : NaiveDate}

variable {uid text : List Char} {scope : Scope} {stamp : List Char} {b : List (List Char)}

/-- The events of other uids. -/
def others (uid : List Char) (evs : List Event) : List Event := evs.filter fun e => e.uid ≠ uid

/-- The events of the uid that repeat. -/
def masters (uid : List Char) (evs : List Event) : List Event :=
  evs.filter fun e => e.uid = uid ∧ e.rrule.isSome

/-- The events of other uids are the same, and the masters are changed one by one. -/
structure Alike (uid : List Char) (R : Event → Event → Prop) (evs evs' : List Event) : Prop where
  rest : others uid evs' = others uid evs
  own : List.Forall₂ R (masters uid evs) (masters uid evs')

/-- A block of the uid: what the reader finds in it is the uid's. One that corrects an
occurrence does not repeat, and in any other the rules are plain. -/
structure Block.Fits (uid : List Char) (b : Block) : Prop where
  named : blockHasUid b.lines uid = true
  own : ∀ es, b.events = some es → others uid es = []
  single : (blockRecurrenceId b.lines).isSome = true → ∀ es, b.events = some es →
    masters uid es = []
  rules : blockRecurrenceId b.lines = none → ∀ c ∈ b.content, c.RuleOk

section Events

variable {uid text : List Char} {lead : List Piece} {turns : List Turn} {b : Block}
  {es evs evs' : List Event} {m : Event} {R : Event → Event → Prop} {edit : Block → Block}
  {strikes : List Char → Bool} {w : Block → Option Block}

theorem Alike.append {fs fs' : List Event} (h : Alike uid R es evs) (h' : Alike uid R fs fs') :
    Alike uid R (es ++ fs) (evs ++ fs') := by
  obtain ⟨h₁, h₂⟩ := h
  obtain ⟨h₃, h₄⟩ := h'
  constructor
  · unfold others at h₁ h₃ ⊢
    rw [List.filter_append, List.filter_append, h₁, h₃]
  · unfold masters at h₂ h₄ ⊢
    rw [List.filter_append, List.filter_append]
    exact List.rel_append h₂ h₄

/-- What is left of a block of the uid: a correction that is struck goes, one that is not
stays, and any other block is edited. -/
def Block.changed (strikes : List Char → Bool) (edit : Block → Block) (b : Block) : Option Block :=
  match blockRecurrenceId b.lines with
  | some r => if strikes r then none else some b
  | none => some (edit b)

/-- The edit of a block changes its events one by one. -/
structure Edits (edit : Block → Block) (R : Event → Event → Prop) (b : Block) : Prop where
  ok : (edit b).Ok
  events : ∀ es, b.events = some es → ∃ es', (edit b).events = some es' ∧ List.Forall₂ R es es'

end Events

/-! ### Deleting from a laid-out file -/

section Deleting

variable {uid text : List Char} {lead : List Piece} {turns : List Turn} {b : Block}
  {evs : List Event} {m : Event} {R : Event → Event → Prop} {edit : Block → Block}
  {strikes : List Char → Bool} {occurrence : Option (List Char)}

variable {last : NaiveDate}

end Deleting

end Arlen.Calendar
