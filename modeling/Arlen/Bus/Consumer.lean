import Arlen.Lib.Str

/-!
# Consumers of the event bus

A consumer entry of the registry (`daemons/event-bus/src/registry.rs`): the
patterns it subscribed to, the uid filter it is held to, and its channel.
-/

namespace Arlen.Bus

open Arlen.Lib

structure Event where
  id : String
  type : String
  timestamp : Int
  payload : List UInt8
  uid : UInt32
deriving DecidableEq, Repr

/-- Which user's events a consumer receives. -/
inductive UidFilter where
  | all
  | exact (uid : UInt32)
deriving DecidableEq, Repr

def UidFilter.accepts : UidFilter → UInt32 → Bool
  | .all, _ => true
  | .exact uid, eventUid => eventUid == uid

/-- Root keeps what it claims; everyone else is narrowed to its attested uid. -/
def clampUidFilter (claimed : UidFilter) (attestedUid : UInt32) : UidFilter :=
  if attestedUid = 0 then claimed else .exact attestedUid

/-- Whether one subscribed pattern selects an event type. -/
def selects (sub eventType : String) : Bool :=
  if sub = "*" then true
  else
    match stripSuffix sub ".*" with
    | some pre => startsWith eventType pre && startsWith (dropPrefix eventType pre) "."
    | none =>
      match stripSuffix sub "." with
      -- the dot is stripped and not asked of the event type again
      | some pre => startsWith eventType pre
      | none => sub = eventType

/-- A registered consumer; `sender` names the channel it is served through. -/
structure ConsumerEntry where
  id : String
  subscribedTypes : List String
  uidFilter : UidFilter
  sender : Nat
deriving DecidableEq, Repr

def ConsumerEntry.matches (c : ConsumerEntry) (eventType : String) : Bool :=
  c.subscribedTypes.any (selects · eventType)

/-- The two checks made before any event is sent to a consumer. -/
def ConsumerEntry.wants (c : ConsumerEntry) (e : Event) : Bool :=
  c.matches e.type && c.uidFilter.accepts e.uid

/-- A topic that keeps its last message for late subscribers. -/
def isStateTopic (topic : String) : Bool := endsWith topic ".state"

variable {p t : String}

theorem append_ne_of_last {p s q : String} {a b : Char} (hs : s.toList.getLast? = some a)
    (hq : q.toList.getLast? = some b) (hab : a ≠ b) (r : String) : p ++ s ≠ r ++ q := by
  intro h
  have hl := congrArg (fun s => s.toList.getLast?) h
  simp only [String.toList_append, List.getLast?_append, hs, hq, Option.some_or] at hl
  exact hab (Option.some.inj hl)

/-- `p.*` selects what continues `p` with a dot. -/
theorem selects_star : selects (p ++ ".*") t = true ↔ ∃ more, t = p ++ ("." ++ more) := by
  have hne : p ++ ".*" ≠ "*" := by
    intro h
    have hl : p.length + 2 = 1 := by
      have := congrArg String.length h
      rwa [String.length_append] at this
    omega
  unfold selects
  rw [if_neg hne, stripSuffix_append]
  exact startsWith_dropPrefix_iff

/-- `p.` selects everything that begins with `p`, dot or not. -/
theorem selects_dot : selects (p ++ ".") t = true ↔ ∃ more, t = p ++ more := by
  have hne : p ++ "." ≠ "*" := by
    have h := append_ne_of_last (p := p) (s := ".") (q := "*") rfl rfl (by decide) ""
    simpa using h
  have hnone : stripSuffix (p ++ ".") ".*" = none :=
    stripSuffix_eq_none.2 (append_ne_of_last rfl rfl (by decide))
  unfold selects
  rw [if_neg hne, hnone]
  simp only [stripSuffix_append]
  exact startsWith_iff

/-- A pattern that is no wildcard selects itself. -/
theorem selects_plain (hstar : p ≠ "*") (hwild : ∀ r, p ≠ r ++ ".*") (hdot : ∀ r, p ≠ r ++ ".") :
    selects p t = true ↔ p = t := by
  unfold selects
  rw [if_neg hstar, stripSuffix_eq_none.2 hwild]
  simp only [stripSuffix_eq_none.2 hdot, decide_eq_true_eq]

end Arlen.Bus
