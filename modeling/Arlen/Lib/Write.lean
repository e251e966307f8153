/-!
# Durable writes that may fail

How one write to disk goes: it is done, it reports an error, or the process
stops inside it. In the last two cases a `Write` may or may not have landed, and
an `AppendWrite` may have landed in part.
-/

namespace Arlen.Lib

inductive Write (ε : Type) where
  | done
  | failed (e : ε) (landed : Bool)
  | crashed (landed : Bool)
  deriving DecidableEq, Repr

/-- What a write leaves: the disk, and how the writer learns of it. -/
inductive Written (ε σ : Type) where
  | done (disk : σ)
  | failed (e : ε) (disk : σ)
  | crashed (disk : σ)
  deriving DecidableEq, Repr

namespace Write

variable {ε σ : Type}

/-- The disk after a write that may have landed. -/
def leave (write : σ → Except ε σ) (disk : σ) (landed : Bool) : σ :=
  match landed, write disk with
  | true, .ok disk' => disk'
  | _, _ => disk

/-- Carry out `write`; it may refuse by itself with an error of its own. -/
def run (w : Write ε) (write : σ → Except ε σ) (disk : σ) : Written ε σ :=
  match w with
  | done =>
    match write disk with
    | .ok disk' => .done disk'
    | .error e => .failed e disk
  | failed e landed => .failed e (leave write disk landed)
  | crashed landed => .crashed (leave write disk landed)

/-- The disk is as before or as written. -/
theorem leave_cases (write : σ → Except ε σ) (disk : σ) (landed : Bool) :
    leave write disk landed = disk ∨ write disk = .ok (leave write disk landed) := by
  unfold leave
  split
  · next h => exact .inr h
  · exact .inl rfl

theorem run_done {w : Write ε} {write : σ → Except ε σ} {disk disk' : σ}
    (h : w.run write disk = .done disk') : write disk = .ok disk' := by
  unfold run at h
  split at h
  · split at h
    · next hw => cases h; exact hw
    · cases h
  · cases h
  · cases h

theorem run_failed {w : Write ε} {write : σ → Except ε σ} {disk disk' : σ} {e : ε}
    (h : w.run write disk = .failed e disk') : disk' = disk ∨ write disk = .ok disk' := by
  unfold run at h
  split at h
  · split at h
    · cases h
    · cases h; exact .inl rfl
  · cases h; exact leave_cases _ _ _
  · cases h

theorem run_crashed {w : Write ε} {write : σ → Except ε σ} {disk disk' : σ}
    (h : w.run write disk = .crashed disk') : disk' = disk ∨ write disk = .ok disk' := by
  unfold run at h
  split at h
  · split at h <;> cases h
  · cases h
  · cases h; exact leave_cases _ _ _

end Write

/-! ## Appends that may be cut short -/

/-- How an append to a file goes. When it fails or the process stops inside it,
only the first `kept` elements are there. -/
inductive AppendWrite (ε : Type) where
  | done
  | failed (e : ε) (kept : Nat)
  | crashed (kept : Nat)
  deriving DecidableEq, Repr

namespace AppendWrite

variable {ε β : Type}

def run (w : AppendWrite ε) (new : List β) (file : List β) : Written ε (List β) :=
  match w with
  | done => .done (file ++ new)
  | failed e kept => .failed e (file ++ new.take kept)
  | crashed kept => .crashed (file ++ new.take kept)

/-- All of the new part is there, or none of it. -/
def Whole (w : AppendWrite ε) (new : List β) : Prop :=
  match w with
  | done => True
  | failed _ kept => kept = 0 ∨ new.length ≤ kept
  | crashed kept => kept = 0 ∨ new.length ≤ kept

theorem take_whole {new : List β} {kept : Nat} (h : kept = 0 ∨ new.length ≤ kept)
    (file : List β) : file ++ new.take kept = file ∨ file ++ new.take kept = file ++ new := by
  rcases h with rfl | h
  · exact .inl (by simp)
  · exact .inr (by rw [List.take_of_length_le h])

end AppendWrite

end Arlen.Lib
