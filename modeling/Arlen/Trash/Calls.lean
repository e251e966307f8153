import Arlen.Lib.Machine
import Arlen.Trash.Slot

/-!
# Concurrent calls over one trash

`trash_into_recording` as a machine: any number of calls over one trash
directory, each file operation a step of its own. A call reserves
`info/<name>.trashinfo` with `create_new`, writes it, and renames its source into
`files/<name>` without clobbering; on a failure it unlinks its sidecar, and tries
the next name or returns. The actions say how each operation turns out: `EEXIST`
needs something to stand there, success needs nothing to, and any other error may
come at any time.
-/

namespace Arlen.Trash

open Arlen.Lib

/-- What a call is asked to do. -/
structure Request where
  base : FileName
  source : FilePath
  recordedPath : String

inductive TrashError where
  | notFound
  | unsupported
  | noSlot
  | nonCanonical
  | crossDevice
  | io (msg : String)
deriving DecidableEq, Repr

inductive RenameError where
  | destinationExists
  | unsupported
  | crossDevice
  | other (msg : String)
deriving DecidableEq, Repr

structure TrashSlot where
  trashed : FilePath
  trashInfo : FilePath
deriving DecidableEq, Repr

/-- What follows once the sidecar is unlinked. -/
inductive After where
  | retry
  | fail (e : TrashError)
  | probe (msg : String)
deriving DecidableEq, Repr

/-- Where a call stands, at its `n`-th candidate. -/
inductive Stage where
  | reserve (n : Nat)
  | record (n : Nat)
  | move (n : Nat)
  | unlink (n : Nat) (after : After)
  | probe (msg : String)
  | moved (n : Nat)
  | failed (e : TrashError)
deriving DecidableEq, Repr

structure Call where
  request : Request
  stage : Stage

def Request.candidate (r : Request) (n : Nat) : String := dedupName r.base.name n

def Request.info (r : Request) (trash : FilePath) (n : Nat) : FilePath :=
  infoPath trash (r.candidate n)

def Request.trashed (r : Request) (trash : FilePath) (n : Nat) : FilePath :=
  trashedPath trash (r.candidate n)

/-- The head of the loop: out of candidates, a path that is not canonical, or the
next reservation. -/
def Request.enter (r : Request) (trash : FilePath) (n : Nat) : Stage :=
  if maxTrashDedup ≤ n then .failed .noSlot
  else if canonical (r.trashed trash n) && canonical (r.info trash n) then .reserve n
  else .failed .nonCanonical

/-- What the call has returned. -/
def Call.result (c : Call) (trash : FilePath) : Option (Except TrashError TrashSlot) :=
  match c.stage with
  | .moved n => some (.ok ⟨c.request.trashed trash n, c.request.info trash n⟩)
  | .failed e => some (.error e)
  | _ => none

/-- The candidate whose sidecar the call has made and not unlinked. -/
def Stage.claimed : Stage → Option Nat
  | .record n | .move n | .unlink n _ | .moved n => some n
  | .reserve _ | .probe _ | .failed _ => none

structure World where
  tree : Tree
  calls : List Call

inductive Created where
  | created
  | alreadyExists
  | failed (msg : String)
deriving DecidableEq, Repr

inductive Recorded where
  | written (secs : Int)
  | failed (secs : Int) (landed : Nat) (msg : String)
deriving DecidableEq, Repr

inductive Action where
  | call (r : Request)
  | create (k : Nat) (outcome : Created)
  | write (k : Nat) (outcome : Recorded)
  | rename (k : Nat) (outcome : Except RenameError Unit)
  | unlink (k : Nat)
  | probe (k : Nat)

namespace World

/-- The world with the tree `t`, and call `k` of request `r` gone on to a stage. -/
def goOn (w : World) (t : Tree) (k : Nat) (r : Request) (stage : Stage) : Option (Unit × World) :=
  some ((), ⟨t, w.calls.set k ⟨r, stage⟩⟩)

def create (trash : FilePath) (w : World) (k : Nat) (r : Request) (n : Nat) :
    Created → Option (Unit × World)
  | .created =>
    if w.tree.node (r.info trash n) = none then
      (w.tree.put (infoDir trash) (r.candidate n ++ ".trashinfo") (.file [])).bind
        fun t => w.goOn t k r (.record n)
    else none
  | .alreadyExists =>
    if w.tree.node (r.info trash n) ≠ none then w.goOn w.tree k r (r.enter trash (n + 1)) else none
  | .failed msg => w.goOn w.tree k r (.failed (.io msg))

/-- The descriptor writes the file that `create` made, which is the one at its path. -/
def write (trash : FilePath) (w : World) (k : Nat) (r : Request) (n : Nat) :
    Recorded → Option (Unit × World)
  | .written secs =>
    (w.tree.put (infoDir trash) (r.candidate n ++ ".trashinfo")
      (.file (trashinfoBytes r.recordedPath secs))).bind fun t => w.goOn t k r (.move n)
  | .failed secs landed msg =>
    (w.tree.put (infoDir trash) (r.candidate n ++ ".trashinfo")
      (.file ((trashinfoBytes r.recordedPath secs).take landed))).bind
        fun t => w.goOn t k r (.unlink n (.fail (.io msg)))

/-- `rename_noreplace` of the source into `files/<candidate>`. -/
def rename (trash : FilePath) (w : World) (k : Nat) (r : Request) (n : Nat) :
    Except RenameError Unit → Option (Unit × World)
  | .ok () =>
    if w.tree.node (r.trashed trash n) = none ∧ w.tree.node r.source ≠ none then
      (w.tree.move r.source (filesDir trash) (r.candidate n)).bind
        fun t => w.goOn t k r (.moved n)
    else none
  | .error .destinationExists =>
    if w.tree.node (r.trashed trash n) ≠ none then w.goOn w.tree k r (.unlink n .retry) else none
  | .error .unsupported => w.goOn w.tree k r (.unlink n (.fail .unsupported))
  | .error .crossDevice => w.goOn w.tree k r (.unlink n (.fail .crossDevice))
  | .error (.other msg) => w.goOn w.tree k r (.unlink n (.probe msg))

/-- The stage behind an unlinked sidecar. -/
def afterUnlink (trash : FilePath) (r : Request) (n : Nat) : After → Stage
  | .retry => r.enter trash (n + 1)
  | .fail e => .failed e
  | .probe msg => .probe msg

/-- A missing source gets a clearer error. -/
def probed (w : World) (r : Request) (msg : String) : Stage :=
  .failed (if w.tree.node r.source = none then .notFound else .io msg)

def step (trash : FilePath) (w : World) : Action → Option (Unit × World)
  | .call r => some ((), { w with calls := w.calls ++ [⟨r, r.enter trash 0⟩] })
  | .create k outcome =>
    match w.calls[k]? with
    | some ⟨r, .reserve n⟩ => create trash w k r n outcome
    | _ => none
  | .write k outcome =>
    match w.calls[k]? with
    | some ⟨r, .record n⟩ => write trash w k r n outcome
    | _ => none
  | .rename k outcome =>
    match w.calls[k]? with
    | some ⟨r, .move n⟩ => rename trash w k r n outcome
    | _ => none
  | .unlink k =>
    match w.calls[k]? with
    | some ⟨r, .unlink n after⟩ =>
      w.goOn (w.tree.erase (r.info trash n)) k r (afterUnlink trash r n after)
    | _ => none
  | .probe k =>
    match w.calls[k]? with
    | some ⟨r, .probe msg⟩ => w.goOn w.tree k r (w.probed r msg)
    | _ => none

end World

/-- The calls over one trash, from a tree as it was. -/
def machine (trash : FilePath) (before : Tree) : Machine World Action Unit :=
  ⟨⟨before, []⟩, World.step trash⟩

/-- A call is asked to trash something outside the trash. -/
def SourcesOutside (trash : FilePath) (_ : World) : Action → Prop
  | .call r => Outside trash r.source
  | _ => True

instance (trash : FilePath) (w : World) : (a : Action) → Decidable (SourcesOutside trash w a)
  | .call r => inferInstanceAs (Decidable (Outside trash r.source))
  | .create _ _ | .write _ _ | .rename _ _ | .unlink _ | .probe _ => .isTrue trivial

/-! ## What a step can do -/

/-- What a step does to the tree and to the call that takes it. -/
inductive Moves (trash : FilePath) (t : Tree) (r : Request) : Stage → Tree → Stage → Prop where
  /-- Nothing: the stage goes on without a claim. -/
  | idle {s s' : Stage} (h : s.claimed = none) (h' : s'.claimed = none) : Moves trash t r s t s'
  /-- The sidecar is reserved. -/
  | reserve {n : Nat} {t' : Tree} (h : t.node (r.info trash n) = none)
      (hput : t.put (infoDir trash) (r.candidate n ++ ".trashinfo") (.file []) = some t') :
      Moves trash t r (.reserve n) t' (.record n)
  /-- The sidecar is written, in full or in part. -/
  | record {n : Nat} {content : Bytes} {t' : Tree} {s' : Stage}
      (hput : t.put (infoDir trash) (r.candidate n ++ ".trashinfo") (.file content) = some t')
      (h : s' = .move n ∧ (∃ secs, content = trashinfoBytes r.recordedPath secs) ∨
        ∃ a, s' = .unlink n a) :
      Moves trash t r (.record n) t' s'
  /-- The source is moved. -/
  | moved {n : Nat} {t' : Tree} (hdst : t.node (r.trashed trash n) = none)
      (hsrc : t.node r.source ≠ none)
      (hmove : t.move r.source (filesDir trash) (r.candidate n) = some t') :
      Moves trash t r (.move n) t' (.moved n)
  /-- The move failed: the sidecar is to go. -/
  | refused {n : Nat} {a : After} : Moves trash t r (.move n) t (.unlink n a)
  /-- The sidecar is unlinked. -/
  | unlink {n : Nat} {a : After} {s' : Stage} (h : s'.claimed = none) :
      Moves trash t r (.unlink n a) (t.erase (r.info trash n)) s'

variable {trash : FilePath} {w w' : World} {r : Request} {n k : Nat} {u : Unit}

theorem claimed_enter : (r.enter trash n).claimed = none := by
  unfold Request.enter
  split
  · rfl
  · split <;> rfl

theorem claimed_afterUnlink {a : After} : (World.afterUnlink trash r n a).claimed = none := by
  cases a with
  | retry => exact claimed_enter
  | fail e => rfl
  | probe msg => rfl

/-- Every step is a new call, or the move of one call. -/
theorem step_cases {a : Action} (h : w.step trash a = some (u, w')) :
    (∃ r, a = .call r ∧ w' = { w with calls := w.calls ++ [⟨r, r.enter trash 0⟩] }) ∨
      ∃ k r s s', w.calls[k]? = some ⟨r, s⟩ ∧ Moves trash w.tree r s w'.tree s' ∧
        w'.calls = w.calls.set k ⟨r, s'⟩ := by
  cases a with
  | call r =>
    cases h
    exact .inl ⟨r, rfl, rfl⟩
  | create k outcome =>
    right
    simp only [World.step] at h
    split at h
    · next r n hk =>
      cases outcome with
      | created =>
        simp only [World.create] at h
        split at h
        · next hnone =>
          obtain ⟨t, hput, hgo⟩ := Option.bind_eq_some_iff.1 h
          cases hgo
          exact ⟨k, r, _, _, hk, .reserve hnone hput, rfl⟩
        · cases h
      | alreadyExists =>
        simp only [World.create] at h
        split at h
        · cases h
          exact ⟨k, r, _, _, hk, .idle rfl claimed_enter, rfl⟩
        · cases h
      | failed msg =>
        cases h
        exact ⟨k, r, _, _, hk, .idle rfl rfl, rfl⟩
    · cases h
  | write k outcome =>
    right
    simp only [World.step] at h
    split at h
    · next r n hk =>
      cases outcome with
      | written secs =>
        obtain ⟨t, hput, hgo⟩ := Option.bind_eq_some_iff.1 h
        cases hgo
        exact ⟨k, r, _, _, hk, .record hput (.inl ⟨rfl, secs, rfl⟩), rfl⟩
      | failed secs landed msg =>
        obtain ⟨t, hput, hgo⟩ := Option.bind_eq_some_iff.1 h
        cases hgo
        exact ⟨k, r, _, _, hk, .record hput (.inr ⟨_, rfl⟩), rfl⟩
    · cases h
  | rename k outcome =>
    right
    simp only [World.step] at h
    split at h
    · next r n hk =>
      unfold World.rename at h
      split at h
      · split at h
        · next hc =>
          obtain ⟨t, hmove, hgo⟩ := Option.bind_eq_some_iff.1 h
          cases hgo
          exact ⟨k, r, _, _, hk, .moved hc.1 hc.2 hmove, rfl⟩
        · cases h
      · split at h
        · cases h
          exact ⟨k, r, _, _, hk, .refused, rfl⟩
        · cases h
      all_goals
        cases h
        exact ⟨k, r, _, _, hk, .refused, rfl⟩
    · cases h
  | unlink k =>
    right
    simp only [World.step] at h
    split at h
    · next r n after hk =>
      cases h
      exact ⟨k, r, _, _, hk, .unlink claimed_afterUnlink, rfl⟩
    · cases h
  | probe k =>
    right
    simp only [World.step] at h
    split at h
    · next r msg hk =>
      cases h
      exact ⟨k, r, _, _, hk, .idle rfl rfl, rfl⟩
    · cases h

end Arlen.Trash
