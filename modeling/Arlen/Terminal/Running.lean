import Arlen.Terminal.Blocks

/-!
# Which block runs

A block with neither an exit code nor a duration is shown as running. The block that is open
has neither; one that is closed has the exit code of its end, if that reports one, and the
duration since its start, if it has started. A command that never started and is closed
without an exit code keeps neither, and is shown as running for good.
-/

namespace Arlen.Terminal

/-- What the renderer takes as running. -/
def Block.readsRunning (b : Block) : Bool := b.exitCode.isNone && b.durationMs.isNone

/-- Only the open block, which is the last, reads as running. -/
def OnlyOpenRuns (a : BlockAssembler) : Prop :=
  ∀ front b back, a.blocks = front ++ b :: back → b.readsRunning = true →
    back = [] ∧ a.pending.isSome = true

/-- Whether every block that the events close has started or ends with an exit code; `started`
is what is known of the block that is open. -/
def closesKnown (started : Option Bool) : List VtEvent → Bool
  | [] => true
  | .commandLine _ :: events => started ≠ some false && closesKnown (some false) events
  | .execStart :: events => closesKnown (started.map fun _ => true) events
  | .commandEnd exitCode :: events =>
    (started ≠ some false || exitCode.isSome) && closesKnown none events
  | .cwdChanged _ :: events => closesKnown started events
  | .promptStart :: events => closesKnown started events
  | .title _ :: events => closesKnown started events

namespace BlockAssembler

/-- Whether the open block has started. -/
def started (a : BlockAssembler) : Option Bool := a.pending.map (·.execStart.isSome)

variable {a : BlockAssembler} {events : List VtEvent} {now : Nat}

/-- A block closed knows its end or its start, or reads as running. -/
theorem close_finished (a : BlockAssembler) (exitCode : Option Int) (now : Nat) :
    (∀ b ∈ (a.close exitCode now).finished, b.readsRunning = false) ↔
      (∀ b ∈ a.finished, b.readsRunning = false) ∧
        (a.started ≠ some false ∨ exitCode.isSome = true) := by
  unfold close started
  cases a.pending with
  | none => simp
  | some p =>
    simp only [List.mem_append, List.mem_singleton, Option.map_some]
    have hclosed : (finishedBlock p exitCode (p.execStart.map (now - ·))).readsRunning = false ↔
        some p.execStart.isSome ≠ some false ∨ exitCode.isSome = true := by
      unfold finishedBlock Block.readsRunning
      cases p.execStart <;> cases exitCode <;> simp
    rw [← hclosed]
    constructor
    · exact fun h => ⟨fun b hb => h b (Or.inl hb), h _ (Or.inr rfl)⟩
    · rintro ⟨h, hnew⟩ b (hb | rfl)
      · exact h b hb
      · exact hnew

theorem close_started (a : BlockAssembler) (exitCode : Option Int) (now : Nat) :
    (a.close exitCode now).started = none := by
  unfold close started
  cases hp : a.pending with
  | none => rw [hp]; rfl
  | some p => rfl

/-- One batch: no block it closes reads as running exactly when each has started or ends with
an exit code. -/
theorem consume_finished (a : BlockAssembler) (events rest : List VtEvent) (now : Nat) :
    ((∀ b ∈ (a.consume events now).finished, b.readsRunning = false) ∧
        closesKnown (a.consume events now).started rest = true) ↔
      (∀ b ∈ a.finished, b.readsRunning = false) ∧
        closesKnown a.started (events ++ rest) = true := by
  induction events generalizing a with
  | nil => exact Iff.rfl
  | cons ev events ih =>
    have hnext := ih (a.consumeEvent now ev)
    rw [show a.consume (ev :: events) now = (a.consumeEvent now ev).consume events now from rfl,
      hnext, List.cons_append]
    cases ev with
    | commandLine command =>
      have hfinished : (a.consumeEvent now (.commandLine command)).finished =
          (a.close none now).finished := rfl
      have hstarted : (a.consumeEvent now (.commandLine command)).started = some false := rfl
      rw [hfinished, hstarted, close_finished, closesKnown]
      simp [and_assoc]
    | execStart =>
      have hstarted : (a.consumeEvent now .execStart).started = a.started.map fun _ => true := by
        unfold consumeEvent started
        cases a.pending <;> rfl
      have hfinished : (a.consumeEvent now .execStart).finished = a.finished := rfl
      rw [hfinished, hstarted, closesKnown]
    | commandEnd exitCode =>
      have hconsumed : a.consumeEvent now (.commandEnd exitCode) = a.close exitCode now := rfl
      rw [hconsumed, close_finished, close_started, closesKnown]
      simp [and_assoc]
    | cwdChanged cwd => exact Iff.rfl
    | promptStart => exact Iff.rfl
    | title title => exact Iff.rfl

theorem consumeAll_finished (a : BlockAssembler) (batches : List (List VtEvent × Nat)) :
    (∀ b ∈ (a.consumeAll batches).finished, b.readsRunning = false) ↔
      (∀ b ∈ a.finished, b.readsRunning = false) ∧
        closesKnown a.started (batches.map (·.1)).flatten = true := by
  induction batches generalizing a with
  | nil =>
    rw [List.map_nil, List.flatten_nil, closesKnown]
    simp [consumeAll]
  | cons batch batches ih =>
    rw [show a.consumeAll (batch :: batches) =
      (a.consume batch.1 batch.2).consumeAll batches from rfl, ih, List.map_cons,
      List.flatten_cons, consume_finished]

/-- The closed blocks are all but the open one. -/
theorem onlyOpenRuns_iff (a : BlockAssembler) :
    OnlyOpenRuns a ↔ ∀ b ∈ a.finished, b.readsRunning = false := by
  unfold OnlyOpenRuns blocks
  constructor
  · intro h b hb
    by_contra hrun
    obtain ⟨front, back, hsplit⟩ := List.append_of_mem hb
    rw [hsplit] at h
    have hlast := h front b (back ++ (a.pending.map fun p => finishedBlock p none none).toList)
      (by simp) (by simpa using hrun)
    obtain ⟨hnil, hsome⟩ := hlast
    obtain ⟨p, hp⟩ := Option.isSome_iff_exists.1 hsome
    rw [hp] at hnil
    exact absurd hnil (by simp)
  · intro h front b back hblocks hrun
    cases hp : a.pending with
    | none =>
      rw [hp, Option.map_none, Option.toList_none, List.append_nil] at hblocks
      have hb := h b (by rw [hblocks]; simp)
      rw [hrun] at hb
      cases hb
    | some p =>
      refine ⟨?_, rfl⟩
      rw [hp, Option.map_some, Option.toList_some] at hblocks
      cases back using List.reverseRecOn with
      | nil => rfl
      | append_singleton back last =>
        have hinit := congrArg List.dropLast hblocks
        rw [List.dropLast_concat, ← List.cons_append, ← List.append_assoc,
          List.dropLast_concat] at hinit
        have hb := h b (by rw [hinit]; simp)
        rw [hrun] at hb
        cases hb

end BlockAssembler

/-- **Which sequences keep it.** Only the open block reads as running, exactly when every
command that another one follows, or that ends without an exit code, has started first. -/
theorem only_open_runs_iff (cwd : String) (batches : List (List VtEvent × Nat)) :
    OnlyOpenRuns ((BlockAssembler.new cwd).consumeAll batches) ↔
      closesKnown none (batches.map (·.1)).flatten = true := by
  rw [BlockAssembler.onlyOpenRuns_iff, BlockAssembler.consumeAll_finished]
  exact and_iff_right fun b hb => absurd hb List.not_mem_nil

/-- A command that is there, and another behind it, with no mark between. -/
def unstarted : List (List VtEvent × Nat) := [([.commandLine "first", .commandLine "second"], 0)]

/-- The first is closed, and reads as running beside the second. -/
theorem closed_reads_running : ¬ OnlyOpenRuns ((BlockAssembler.new "/").consumeAll unstarted) := by
  intro h
  have hfirst := h [] ⟨"b1", "first", none, none, "/", .you, .grid⟩
    [⟨"b2", "second", none, none, "/", .you, .grid⟩] (by decide) rfl
  exact absurd hfirst.1 (List.cons_ne_nil _ _)

end Arlen.Terminal
