import Arlen.Lib.Json
import Arlen.Terminal.Vt
import Mathlib.Data.List.Nodup

/-!
# Blocks

`apps/terminal/core/src/blocks.rs`: a command line opens a block, the end of the command
closes it, and a command line that finds a block open closes it first. Every command line has
its block, in the order in which they came, under an id of its own.
-/

namespace Arlen.Terminal

inductive Origin where
  | you
  | agent
deriving DecidableEq, Repr

inductive BlockBodyKind where
  | grid
  | table
  | image
  | link
  | artifact
  | widget
deriving DecidableEq, Repr

/-- The frame around a command. Its git state and its body stay empty here. -/
structure Block where
  id : String
  command : String
  exitCode : Option Int
  durationMs : Option Nat
  cwd : String
  origin : Origin
  bodyKind : BlockBodyKind
deriving DecidableEq, Repr

/-- A command that has been issued and has not ended; times are in milliseconds. -/
structure Pending where
  id : String
  command : String
  cwd : String
  execStart : Option Nat

structure BlockAssembler where
  finished : List Block
  pending : Option Pending
  cwd : String
  nextId : Nat

def finishedBlock (p : Pending) (exitCode : Option Int) (durationMs : Option Nat) : Block :=
  ⟨p.id, p.command, exitCode, durationMs, p.cwd, .you, .grid⟩

def blockId (n : Nat) : String := "b" ++ toString n

namespace BlockAssembler

def new (initialCwd : String) : BlockAssembler := ⟨[], none, initialCwd, 0⟩

/-- Close the open block, if there is one. The clock may have gone back meanwhile. -/
def close (a : BlockAssembler) (exitCode : Option Int) (now : Nat) : BlockAssembler :=
  match a.pending with
  | none => a
  | some p =>
    { a with
      pending := none
      finished := a.finished ++ [finishedBlock p exitCode (p.execStart.map (now - ·))] }

def finalizeDangling (a : BlockAssembler) (now : Nat) : BlockAssembler := a.close none now

def consumeEvent (now : Nat) (a : BlockAssembler) : VtEvent → BlockAssembler
  | .cwdChanged cwd => { a with cwd := cwd }
  | .commandLine command =>
    let a := a.finalizeDangling now
    { a with
      nextId := a.nextId + 1
      pending := some ⟨blockId (a.nextId + 1), command, a.cwd, none⟩ }
  | .execStart => { a with pending := a.pending.map fun p => { p with execStart := some now } }
  | .commandEnd exitCode => a.close exitCode now
  | .promptStart => a
  | .title _ => a

def consume (a : BlockAssembler) (events : List VtEvent) (now : Nat) : BlockAssembler :=
  events.foldl (consumeEvent now) a

/-- The blocks to show, the open one last. -/
def blocks (a : BlockAssembler) : List Block :=
  a.finished ++ (a.pending.map fun p => finishedBlock p none none).toList

/-- Consume what is drained, batch by batch, each at its time. -/
def consumeAll (a : BlockAssembler) (batches : List (List VtEvent × Nat)) : BlockAssembler :=
  batches.foldl (fun a batch => a.consume batch.1 batch.2) a

end BlockAssembler

def VtEvent.command : VtEvent → Option String
  | commandLine command => some command
  | _ => none

/-- The command lines among the events. -/
def commandsOf (events : List VtEvent) : List String := events.filterMap VtEvent.command

/-! ## One block for each command line -/

/-- The blocks are those of the commands so far, numbered as they came. -/
structure Assembled (a : BlockAssembler) (commands : List String) : Prop where
  shown : a.blocks.map (·.command) = commands
  ids : a.blocks.map (·.id) = (List.range' 1 commands.length).map blockId
  nextId : a.nextId = commands.length

variable {a : BlockAssembler} {commands : List String}

theorem assembled_new (cwd : String) : Assembled (BlockAssembler.new cwd) [] :=
  ⟨rfl, rfl, rfl⟩

/-- Closing a block shows the same commands under the same ids. -/
theorem Assembled.close (h : Assembled a commands) (exitCode : Option Int) (now : Nat) :
    Assembled (a.close exitCode now) commands ∧ (a.close exitCode now).pending = none := by
  obtain ⟨hcommands, hids, hnext⟩ := h
  unfold BlockAssembler.blocks at hcommands hids
  unfold BlockAssembler.close
  cases hp : a.pending with
  | none => exact ⟨⟨hcommands, hids, hnext⟩, hp⟩
  | some p =>
    refine ⟨⟨?_, ?_, hnext⟩, rfl⟩
    · simpa [BlockAssembler.blocks, hp, finishedBlock] using hcommands
    · simpa [BlockAssembler.blocks, hp, finishedBlock] using hids

theorem Assembled.commandLine (h : Assembled a commands) (hp : a.pending = none)
    (command : String) (cwd : String) :
    Assembled { a with
      nextId := a.nextId + 1
      pending := some ⟨blockId (a.nextId + 1), command, cwd, none⟩ } (commands ++ [command]) := by
  obtain ⟨hcommands, hids, hnext⟩ := h
  have hfinished : a.blocks = a.finished := by simp [BlockAssembler.blocks, hp]
  rw [hfinished] at hcommands hids
  refine ⟨?_, ?_, ?_⟩
  · simp [BlockAssembler.blocks, finishedBlock, hcommands]
  · simp [BlockAssembler.blocks, finishedBlock, hids, List.range'_concat, hnext, Nat.add_comm]
  · simp [hnext]

/-- One event adds the block of its command line, if it is one. -/
theorem Assembled.consumeEvent (h : Assembled a commands) (now : Nat) (ev : VtEvent) :
    Assembled (a.consumeEvent now ev) (commands ++ ev.command.toList) := by
  cases ev with
  | commandLine command =>
    obtain ⟨hclosed, hnone⟩ := h.close none now
    exact hclosed.commandLine hnone command _
  | commandEnd exitCode =>
    rw [show VtEvent.command (.commandEnd exitCode) = none from rfl, Option.toList_none, List.append_nil]
    exact (h.close exitCode now).1
  | execStart =>
    obtain ⟨hcommands, hids, hnext⟩ := h
    unfold BlockAssembler.blocks at hcommands hids
    refine ⟨?_, ?_, ?_⟩
    · cases hp : a.pending <;> simp_all [BlockAssembler.consumeEvent, BlockAssembler.blocks,
        finishedBlock, VtEvent.command]
    · cases hp : a.pending <;> simp_all [BlockAssembler.consumeEvent, BlockAssembler.blocks,
        finishedBlock, VtEvent.command]
    · simpa [BlockAssembler.consumeEvent, VtEvent.command] using hnext
  | cwdChanged cwd =>
    rw [show VtEvent.command (.cwdChanged cwd) = none from rfl, Option.toList_none, List.append_nil]
    exact ⟨h.shown, h.ids, h.nextId⟩
  | promptStart =>
    rw [show VtEvent.command .promptStart = none from rfl, Option.toList_none, List.append_nil]
    exact h
  | title t =>
    rw [show VtEvent.command (.title t) = none from rfl, Option.toList_none, List.append_nil]
    exact h

theorem Assembled.consume (h : Assembled a commands) (events : List VtEvent) (now : Nat) :
    Assembled (a.consume events now) (commands ++ commandsOf events) := by
  induction events generalizing a commands with
  | nil => simpa [BlockAssembler.consume, commandsOf] using h
  | cons ev events ih =>
    have hrest := ih (h.consumeEvent now ev)
    have hcommands : commandsOf (ev :: events) = ev.command.toList ++ commandsOf events := by
      unfold commandsOf
      cases hc : ev.command <;> simp [hc]
    rw [hcommands, ← List.append_assoc]
    exact hrest

theorem Assembled.consumeAll (h : Assembled a commands) (batches : List (List VtEvent × Nat)) :
    Assembled (a.consumeAll batches) (commands ++ commandsOf (batches.map (·.1)).flatten) := by
  induction batches generalizing a commands with
  | nil => simpa [BlockAssembler.consumeAll, commandsOf] using h
  | cons batch batches ih =>
    have hrest := ih (h.consume batch.1 batch.2)
    rw [List.append_assoc] at hrest
    rw [List.map_cons, List.flatten_cons, commandsOf, List.filterMap_append]
    exact hrest

theorem blockId_injective : Function.Injective blockId := by
  intro n m h
  have htail := congrArg (fun s => s.toList.tail) h
  simp only [blockId, String.toList_append, toString] at htail
  exact Lib.Json.toDigits_inj (by simpa using htail)

/-- **No two blocks share an id.** -/
theorem Assembled.nodup (h : Assembled a commands) : (a.blocks.map (·.id)).Nodup := by
  rw [h.ids]
  exact (List.nodup_range').map blockId_injective

end Arlen.Terminal
