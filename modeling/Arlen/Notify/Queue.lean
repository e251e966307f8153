import Arlen.Notify.Manager

/-!
# What becomes of a queued notification

Over every interleaving, a notification that was queued stands in one place: the queue, the
hands of a flush, the events, or behind the fifth of a batch a flush took, which is not sent.
The decision to queue and the push are two steps, and closing looks neither at the queue nor at
the calls: the queue is empty behind every flush where no decision to queue is still to be acted
on when the flag goes down, and no toast follows its closing where no live id is closed.
-/

namespace Arlen.Notify

open Arlen.Lib

/-! ## Places -/

/-- What a call of `handle_notify` brings. -/
def Pc.posted : Pc → List Toast
  | limiting t => [t]
  | configuring t => [t]
  | deciding t _ => [t]
  | acting t _ => [t]
  | _ => []

/-- What a flush has still to send. -/
def Pc.held : Pc → List Toast
  | sending toSend => toSend
  | _ => []

def NotifyEvent.toast : NotifyEvent → Option Toast
  | added t => some t
  | closed _ _ => none

def NotifyEvent.closedId : NotifyEvent → Option Nat
  | added _ => none
  | closed id _ => some id

@[simp] theorem filterMap_toast_added (t : Toast) :
    [NotifyEvent.added t].filterMap NotifyEvent.toast = [t] := rfl

@[simp] theorem filterMap_toast_closed (id : Nat) (r : CloseReason) :
    [NotifyEvent.closed id r].filterMap NotifyEvent.toast = [] := rfl

/-- What was broadcast. -/
def Manager.shown (m : Manager) : List Toast := m.events.filterMap NotifyEvent.toast

/-- What stood behind the fifth of a batch. -/
def Manager.discarded (m : Manager) : List Toast := m.drains.flatMap (·.drop maxFlushed)

abbrev World := Pool Manager Pc

def posting (w : World) : List Toast := w.calls.flatMap Pc.posted

def inHands (w : World) : List Toast := w.calls.flatMap Pc.held

/-- How often a notification stands in the queue, among the events and behind the fifth of a
batch. -/
def Manager.kept (m : Manager) (t : Toast) : Nat :=
  m.fullscreenQueue.count t + m.shown.count t + m.discarded.count t

/-- The same, with the hands of the flushes. -/
def places (w : World) (t : Toast) : Nat := w.shared.kept t + (inHands w).count t

/-! ## One step -/

/-- What a step does to the places: a new ticket is drawn, or what a call brought moves on. -/
inductive Moves (w w' : World) : Prop
  | posts (n : Notification) (h : w'.shared.nextTicket = w.shared.nextTicket + 1)
      (hposting : posting w' = posting w ++ [⟨w.shared.nextTicket, n⟩])
      (hplaces : places w' = places w) (hpushed : w'.shared.pushed = w.shared.pushed)
  | goes (h : w'.shared.nextTicket = w.shared.nextTicket)
      (hplaces : ∀ t, places w t ≤ places w' t)
      (htotal : ∀ t, (posting w').count t + places w' t ≤ (posting w).count t + places w t)
      (hpushed : ∀ t ∈ w'.shared.pushed, t ∈ w.shared.pushed ∨ 0 < places w' t)

variable {w w' : World} {turn : Turn Call Env} {r : Unit} {τ : List (Turn Call Env × Unit)}

theorem moves_start (a : Call) :
    Moves w ⟨(start w.shared a).1, w.calls ++ [(start w.shared a).2]⟩ := by
  cases a with
  | notify n =>
    refine .posts n rfl ?_ ?_ rfl
    · simp [posting, start, Pc.posted]
    · funext t
      simp [places, inHands, start, Pc.held, Manager.kept, Manager.shown, Manager.discarded]
  | close id reason =>
    refine .goes rfl ?_ ?_ fun t ht => .inl ht <;> intro t <;>
      simp [places, posting, inHands, start, Pc.held, Pc.posted]
  | setFullscreen active =>
    refine .goes rfl ?_ ?_ fun t ht => .inl ht <;> intro t <;>
      simp [places, posting, inHands, start, Pc.held, Pc.posted]

section Advance

variable {before after : List Pc} {p : Pc} {q : Option Pc} {m : Manager}

theorem count_posting_mid (hcalls : w.calls = before ++ p :: after) (t : Toast) :
    (posting w).count t = (before.flatMap Pc.posted).count t + p.posted.count t +
      (after.flatMap Pc.posted).count t := by
  simp [posting, hcalls, Nat.add_assoc]

theorem count_inHands_mid (hcalls : w.calls = before ++ p :: after) (t : Toast) :
    (inHands w).count t = (before.flatMap Pc.held).count t + p.held.count t +
      (after.flatMap Pc.held).count t := by
  simp [inHands, hcalls, Nat.add_assoc]

/-- A call's step, from what it does to its own toasts. -/
theorem moves_of_counts (hcalls : w.calls = before ++ p :: after)
    (hnext : m.nextTicket = w.shared.nextTicket)
    (hplaces : ∀ t, w.shared.kept t + p.held.count t ≤
      m.kept t + (q.toList.flatMap Pc.held).count t)
    (htotal : ∀ t, (q.toList.flatMap Pc.posted).count t +
        (m.kept t + (q.toList.flatMap Pc.held).count t) ≤
      p.posted.count t + (w.shared.kept t + p.held.count t))
    (hpushed : ∀ t ∈ m.pushed, t ∈ w.shared.pushed ∨ 0 < m.kept t) :
    Moves w ⟨m, before ++ q.toList ++ after⟩ := by
  have hhands : ∀ t, (inHands ⟨m, before ++ q.toList ++ after⟩).count t =
      (before.flatMap Pc.held).count t + (q.toList.flatMap Pc.held).count t +
        (after.flatMap Pc.held).count t := by
    intro t
    simp [inHands, Nat.add_assoc]
  have hposting : ∀ t, (posting ⟨m, before ++ q.toList ++ after⟩).count t =
      (before.flatMap Pc.posted).count t + (q.toList.flatMap Pc.posted).count t +
        (after.flatMap Pc.posted).count t := by
    intro t
    simp [posting, Nat.add_assoc]
  refine .goes hnext (fun t => ?_) (fun t => ?_) fun t ht => ?_
  · have := hplaces t
    rw [places, places, hhands, count_inHands_mid hcalls]
    dsimp only
    omega
  · have := htotal t
    rw [places, places, hhands, hposting, count_inHands_mid hcalls, count_posting_mid hcalls]
    dsimp only
    omega
  · rcases hpushed t ht with h | h
    · exact .inl h
    · exact .inr (Nat.lt_of_lt_of_le h (Nat.le_add_right _ _))

theorem moves_of_stays (hcalls : w.calls = before ++ p :: after)
    (hposted : ∀ t, (q.toList.flatMap Pc.posted).count t ≤ p.posted.count t)
    (hheld : q.toList.flatMap Pc.held = p.held) :
    Moves w ⟨w.shared, before ++ q.toList ++ after⟩ := by
  refine moves_of_counts hcalls rfl (fun t => ?_) (fun t => ?_) fun t ht => .inl ht
  · exact Nat.le_of_eq (by rw [hheld])
  · rw [hheld]
    exact Nat.add_le_add_right (hposted t) _

theorem moves_acting {t : Toast} {result : SuppressResult}
    (hcalls : w.calls = before ++ .acting t result :: after) (e : Env) :
    Moves w ⟨(advance w.shared (.acting t result) e).1,
      before ++ (advance w.shared (.acting t result) e).2.toList ++ after⟩ := by
  cases result with
  | allow =>
    refine moves_of_counts hcalls rfl (fun x => ?_) (fun x => ?_) fun x hx => .inl hx
    · simp [advance, Manager.kept, Manager.shown, Manager.discarded, Pc.held]
    · simp [advance, Manager.kept, Manager.shown, Manager.discarded, Pc.held, Pc.posted]
      omega
  | suppress => exact moves_of_stays hcalls (fun x => Nat.zero_le _) rfl
  | queue =>
    refine moves_of_counts hcalls rfl (fun x => ?_) (fun x => ?_) fun x hx => ?_
    · simp [advance, Manager.kept, Manager.shown, Manager.discarded, Pc.held]
    · simp [advance, Manager.kept, Manager.shown, Manager.discarded, Pc.held, Pc.posted]
      omega
    · rcases List.mem_append.1 hx with hx | hx
      · exact .inl hx
      · rw [List.mem_singleton.1 hx]
        refine .inr ?_
        simp only [advance, Manager.kept, List.count_append, List.count_singleton_self]
        omega
  | drop => exact moves_of_stays hcalls (fun x => Nat.zero_le _) rfl

theorem moves_draining (hcalls : w.calls = before ++ .draining :: after) (e : Env) :
    Moves w ⟨(advance w.shared .draining e).1,
      before ++ (advance w.shared .draining e).2.toList ++ after⟩ := by
  have hcut : ∀ t, (w.shared.fullscreenQueue.take maxFlushed).count t +
      (w.shared.fullscreenQueue.drop maxFlushed).count t = w.shared.fullscreenQueue.count t := by
    intro t
    rw [← List.count_append, List.take_append_drop]
  refine moves_of_counts hcalls rfl (fun t => ?_) (fun t => ?_) fun t ht => .inl ht <;>
  · have := hcut t
    simp [advance, Manager.kept, Manager.shown, Manager.discarded, Pc.held, Pc.posted]
    omega

theorem moves_advance (hcalls : w.calls = before ++ p :: after) (e : Env) :
    Moves w ⟨(advance w.shared p e).1, before ++ (advance w.shared p e).2.toList ++ after⟩ := by
  cases p with
  | limiting t =>
    rw [advance]
    cases e.allowed with
    | true => exact moves_of_stays hcalls (fun t => Nat.le_refl _) rfl
    | false => exact moves_of_stays hcalls (fun t => Nat.zero_le _) rfl
  | configuring t => exact moves_of_stays hcalls (fun t => Nat.le_refl _) rfl
  | deciding t config => exact moves_of_stays hcalls (fun t => Nat.le_refl _) rfl
  | acting t result => exact moves_acting hcalls e
  | closing id reason =>
    refine moves_of_counts hcalls rfl (fun t => ?_) (fun t => ?_) fun t ht => .inl ht <;>
      simp [advance, Manager.kept, Manager.shown, Manager.discarded, Pc.held, Pc.posted]
  | flipping active =>
    refine moves_of_counts hcalls rfl (fun t => ?_) (fun t => ?_) fun t ht => .inl ht <;>
      cases active <;>
      simp [advance, Manager.kept, Manager.shown, Manager.discarded, Pc.held, Pc.posted]
  | draining => exact moves_draining hcalls e
  | sending toSend =>
    cases toSend with
    | nil => exact moves_of_stays hcalls (fun t => Nat.le_refl _) rfl
    | cons t rest =>
      refine moves_of_counts hcalls rfl (fun x => ?_) (fun x => ?_) fun x hx => .inl hx <;>
      · simp [advance, Manager.kept, Manager.shown, Manager.discarded, Pc.held, Pc.posted,
          List.count_cons]
        omega

end Advance

/-- **One step** of any call. -/
theorem moves_step (h : daemon.step w turn = some (r, w')) : Moves w w' := by
  obtain ⟨a, -, rfl⟩ | ⟨k, e, before, p, after, -, -, hcalls, rfl⟩ :=
    Program.step_cases (P := program) h
  · exact moves_start a
  · exact moves_advance hcalls e

/-! ## Whole runs -/

/-- No notification stands twice, those queued stand somewhere, and tickets are not drawn
again. -/
structure Accounted (w : World) : Prop where
  once : ∀ t, (posting w).count t + places w t ≤ 1
  pushed : ∀ t ∈ w.shared.pushed, 0 < places w t
  drawn : ∀ t, 0 < (posting w).count t + places w t → t.ticket < w.shared.nextTicket

theorem accounted_step (h : Accounted w) (hstep : daemon.step w turn = some (r, w')) :
    Accounted w' := by
  cases moves_step hstep with
  | posts n hnext hposting hplaces hpushed =>
    have hnew : (posting w).count ⟨w.shared.nextTicket, n⟩ +
        places w ⟨w.shared.nextTicket, n⟩ = 0 := by
      by_contra hne
      exact absurd (h.drawn _ (Nat.pos_of_ne_zero hne)) (Nat.lt_irrefl _)
    have hcount : ∀ t, (posting w').count t = (posting w).count t +
        if t = ⟨w.shared.nextTicket, n⟩ then 1 else 0 := by
      intro t
      have hbeq : ((⟨w.shared.nextTicket, n⟩ : Toast) == t) =
          decide (t = ⟨w.shared.nextTicket, n⟩) := by
        rw [Bool.eq_iff_iff, beq_iff_eq, decide_eq_true_iff, eq_comm]
      rw [hposting, List.count_append, List.count_singleton, hbeq]
      simp only [decide_eq_true_iff]
    refine ⟨fun t => ?_, fun t ht => ?_, fun t ht => ?_⟩
    · have := h.once t
      rw [hcount, hplaces]
      split
      · subst t
        omega
      · omega
    · rw [hplaces]
      exact h.pushed t (hpushed ▸ ht)
    · rw [hcount, hplaces] at ht
      rw [hnext]
      split at ht
      · subst t
        exact Nat.lt_succ_self _
      · exact Nat.lt_succ_of_lt (h.drawn t ht)
  | goes hnext hplaces htotal hpushed =>
    refine ⟨fun t => Nat.le_trans (htotal t) (h.once t), fun t ht => ?_, fun t ht => ?_⟩
    · rcases hpushed t ht with hmem | hpos
      · exact Nat.lt_of_lt_of_le (h.pushed t hmem) (hplaces t)
      · exact hpos
    · rw [hnext]
      exact h.drawn t (Nat.lt_of_lt_of_le ht (htotal t))

theorem accounted_run {ok : World → Turn Call Env → Prop} (h : daemon.Run ok τ w) :
    Accounted w :=
  h.inv (I := fun _ w => Accounted w)
    ⟨fun _ => Nat.zero_le _, fun _ ht => absurd ht List.not_mem_nil,
      fun _ ht => absurd ht (Nat.lt_irrefl _)⟩
    fun hI _ hstep => accounted_step hI hstep

/-! ### The queue behind a flush -/

/-- A decision to queue that is still to be acted on. -/
def Pc.queues : Pc → Bool
  | acting _ .queue => true
  | _ => false

/-- The flag does not go down while a decision to queue is still to be acted on. -/
def Prompt (w : World) : Turn Call Env → Prop
  | .start _ => True
  | .advance k _ => w.calls[k]? = some (.flipping false) → ∀ p ∈ w.calls, p.queues = false

instance (w : World) (turn : Turn Call Env) : Decidable (Prompt w turn) := by
  cases turn with
  | start a => exact .isTrue trivial
  | advance k e => exact inferInstanceAs (Decidable (_ → _))

/-- While the flag is down, nothing is to be queued, and what is queued is about to be taken. -/
def Flushed (w : World) : Prop :=
  w.shared.fullscreenActive = false →
    (∀ p ∈ w.calls, p.queues = false) ∧ (w.shared.fullscreenQueue ≠ [] → Pc.draining ∈ w.calls)

theorem checkFullscreen_ne_queue (n : Notification) (c : DndConfig) :
    checkFullscreen false n c ≠ .queue := by
  unfold checkFullscreen
  split <;> simp

theorem ite_ne_of_ne {c : Prop} [Decidable c] {x y z : SuppressResult} (hx : x ≠ z) (hy : y ≠ z) :
    (if c then x else y) ≠ z := by
  split <;> assumption

/-- A notification is queued only in fullscreen. -/
theorem shouldSuppress_ne_queue (now : Reading) (n : Notification) (c : DndConfig)
    (o : Option AppOverride) : shouldSuppress false now n c o ≠ .queue := by
  have hcheck := checkFullscreen_ne_queue n c
  refine ite_ne_of_ne (by decide) (ite_ne_of_ne (by decide) (ite_ne_of_ne (by decide) ?_))
  refine ite_ne_of_ne hcheck (ite_ne_of_ne hcheck ?_)
  exact ite_ne_of_ne (ite_ne_of_ne (by decide) (by decide)) (ite_ne_of_ne (by decide) hcheck)

/-- A step that leaves the flag and the queue. -/
theorem flushed_of_stays {before after : List Pc} {p : Pc} {q : Option Pc} {m : Manager}
    (h : Flushed w) (hcalls : w.calls = before ++ p :: after)
    (hactive : m.fullscreenActive = w.shared.fullscreenActive)
    (hqueue : m.fullscreenQueue = w.shared.fullscreenQueue) (hp : p ≠ .draining)
    (hq : m.fullscreenActive = false → ∀ x ∈ q, x.queues = false) :
    Flushed ⟨m, before ++ q.toList ++ after⟩ := by
  intro hoff
  obtain ⟨hnone, hdrain⟩ := h (hactive ▸ hoff)
  rw [hcalls] at hnone hdrain
  constructor
  · intro x hx
    simp only [List.mem_append, Option.mem_toList] at hx
    rcases hx with (hx | hx) | hx
    · exact hnone x (List.mem_append_left _ hx)
    · exact hq hoff x hx
    · exact hnone x (List.mem_append_right _ (List.mem_cons_of_mem _ hx))
  · intro hne
    have := hdrain (hqueue ▸ hne)
    simp only [List.mem_append, List.mem_cons] at this ⊢
    rcases this with hx | rfl | hx
    · exact .inl (.inl hx)
    · exact absurd rfl hp
    · exact .inr hx

theorem flushed_advance {before after : List Pc} {p : Pc} {k : Nat} {e : Env} (h : Flushed w)
    (hok : Prompt w (.advance k e)) (hk : w.calls[k]? = some p)
    (hcalls : w.calls = before ++ p :: after) :
    Flushed ⟨(advance w.shared p e).1, before ++ (advance w.shared p e).2.toList ++ after⟩ := by
  have hsub : ∀ x ∈ before ++ after, x ∈ w.calls := by
    intro x hx
    rw [hcalls]
    rcases List.mem_append.1 hx with hx | hx
    · exact List.mem_append_left _ hx
    · exact List.mem_append_right _ (List.mem_cons_of_mem _ hx)
  cases p with
  | limiting t =>
    refine flushed_of_stays h hcalls rfl rfl (by simp) fun _ x hx => ?_
    rw [advance] at hx
    split at hx <;> cases hx
    rfl
  | configuring t => exact flushed_of_stays h hcalls rfl rfl (by simp) fun _ x hx => by cases hx; rfl
  | deciding t config =>
    refine flushed_of_stays h hcalls rfl rfl (by simp) fun hoff x hx => ?_
    have hne := shouldSuppress_ne_queue e.now t.notification config.dnd
      (config.apps.lookup t.notification.appName)
    replace hoff : w.shared.fullscreenActive = false := hoff
    cases hx
    rw [hoff]
    generalize shouldSuppress false _ _ _ _ = result at hne
    cases result <;> first | rfl | exact absurd rfl hne
  | acting t result =>
    cases result with
    | queue =>
      -- The decision was made in fullscreen, and the flag has not gone down since.
      intro hoff
      have := (h hoff).1 (.acting t .queue) (hcalls ▸ by simp)
      cases this
    | allow => exact flushed_of_stays h hcalls rfl rfl (by simp) fun _ x hx => by cases hx
    | suppress => exact flushed_of_stays h hcalls rfl rfl (by simp) fun _ x hx => by cases hx
    | drop => exact flushed_of_stays h hcalls rfl rfl (by simp) fun _ x hx => by cases hx
  | closing id reason => exact flushed_of_stays h hcalls rfl rfl (by simp) fun _ x hx => by cases hx
  | flipping active =>
    cases active with
    | true => exact fun hoff => by cases hoff
    | false =>
      intro _
      constructor
      · intro x hx
        simp only [advance, List.mem_append, Option.mem_toList] at hx
        rcases hx with (hx | hx) | hx
        · exact hok hk x (hsub x (List.mem_append_left _ hx))
        · cases hx
          rfl
        · exact hok hk x (hsub x (List.mem_append_right _ hx))
      · intro _
        simp [advance]
  | draining =>
    intro hoff
    constructor
    · intro x hx
      simp only [advance, List.mem_append, Option.mem_toList] at hx
      rcases hx with (hx | hx) | hx
      · exact (h hoff).1 x (hsub x (List.mem_append_left _ hx))
      · cases hx
        rfl
      · exact (h hoff).1 x (hsub x (List.mem_append_right _ hx))
    · exact fun hne => absurd rfl hne
  | sending toSend =>
    cases toSend with
    | nil => exact flushed_of_stays h hcalls rfl rfl (by simp) fun _ x hx => by cases hx
    | cons t rest =>
      exact flushed_of_stays h hcalls rfl rfl (by simp) fun _ x hx => by cases hx; rfl

theorem flushed_start (h : Flushed w) (a : Call) :
    Flushed ⟨(start w.shared a).1, w.calls ++ [(start w.shared a).2]⟩ := by
  intro hoff
  have hshared : (start w.shared a).1.fullscreenActive = w.shared.fullscreenActive ∧
      (start w.shared a).1.fullscreenQueue = w.shared.fullscreenQueue := by
    cases a <;> exact ⟨rfl, rfl⟩
  obtain ⟨hnone, hdrain⟩ := h (hshared.1 ▸ hoff)
  constructor
  · intro x hx
    rcases List.mem_append.1 hx with hx | hx
    · exact hnone x hx
    · rw [List.mem_singleton.1 hx]
      cases a <;> rfl
  · exact fun hne => List.mem_append_left _ (hdrain (hshared.2 ▸ hne))

theorem flushed_step (h : Flushed w) (hok : Prompt w turn)
    (hstep : daemon.step w turn = some (r, w')) : Flushed w' := by
  obtain ⟨a, -, rfl⟩ | ⟨k, e, before, p, after, rfl, hk, hcalls, rfl⟩ :=
    Program.step_cases (P := program) hstep
  · exact flushed_start h a
  · exact flushed_advance h hok hk hcalls

theorem flushed_run (h : daemon.Run Prompt τ w) : Flushed w :=
  h.inv (I := fun _ w => Flushed w)
    (fun _ => ⟨fun _ hp => absurd hp List.not_mem_nil, fun h => absurd rfl h⟩)
    fun hI hok hstep => flushed_step hI hok hstep

/-! ### Behind a closing -/

/-- What may still be broadcast. -/
def live (w : World) : List Toast := posting w ++ w.shared.fullscreenQueue ++ inHands w

def Pc.closes : Pc → Option Nat
  | closing id _ => some id
  | _ => none

/-- No id is closed while a notification of it is posted, queued or being flushed, and none is
posted once it was closed. -/
def IdsApart (w : World) : Turn Call Env → Prop
  | .start (.notify n) => ∀ ev ∈ w.shared.events, ev.closedId ≠ some n.id
  | .start _ => True
  | .advance k _ => ∀ t ∈ live w, w.calls[k]?.bind Pc.closes ≠ some t.notification.id

instance (w : World) (turn : Turn Call Env) : Decidable (IdsApart w turn) := by
  cases turn with
  | start a =>
    cases a with
    | notify n => exact inferInstanceAs (Decidable (∀ ev ∈ w.shared.events, _))
    | close id reason => exact .isTrue trivial
    | setFullscreen active => exact .isTrue trivial
  | advance k e => exact inferInstanceAs (Decidable (∀ t ∈ live w, _))

/-- No toast behind the closing of its id. -/
def Ordered (events : List NotifyEvent) : Prop :=
  events.Pairwise fun earlier later =>
    ∀ t, later.toast = some t → earlier.closedId ≠ some t.notification.id

/-- Nothing live was closed, and no toast stands behind its closing. -/
structure Apart (w : World) : Prop where
  live : ∀ t ∈ live w, ∀ ev ∈ w.shared.events, ev.closedId ≠ some t.notification.id
  ordered : Ordered w.shared.events

section Live

variable {before after : List Pc} {p : Pc} {q : Option Pc} {m : Manager}

/-- Nothing comes to live that was not in the queue or with the call. -/
theorem live_subset (hcalls : w.calls = before ++ p :: after)
    (hown : ∀ t, t ∈ q.toList.flatMap Pc.posted ∨ t ∈ m.fullscreenQueue ∨
        t ∈ q.toList.flatMap Pc.held →
      t ∈ p.posted ∨ t ∈ w.shared.fullscreenQueue ∨ t ∈ p.held) :
    ∀ t ∈ live ⟨m, before ++ q.toList ++ after⟩, t ∈ live w := by
  intro t ht
  have := hown t
  simp only [live, posting, inHands, hcalls, List.flatMap_append, List.flatMap_cons,
    List.mem_append] at ht ⊢
  tauto

theorem mem_live_of_posted (hcalls : w.calls = before ++ p :: after) {t : Toast}
    (ht : t ∈ p.posted ∨ t ∈ p.held) : t ∈ live w := by
  simp only [live, posting, inHands, hcalls, List.flatMap_append, List.flatMap_cons,
    List.mem_append]
  tauto

/-- A step that broadcasts at most a toast of its own. -/
theorem apart_of_live (h : Apart w) (hlive : ∀ t ∈ live w', t ∈ live w)
    (hevents : w'.shared.events = w.shared.events ∨
      ∃ t ∈ live w, w'.shared.events = w.shared.events ++ [.added t]) : Apart w' := by
  rcases hevents with hevents | ⟨t, ht, hevents⟩
  · exact ⟨fun t ht => hevents ▸ h.live t (hlive t ht), hevents ▸ h.ordered⟩
  · constructor
    · intro x hx ev hev
      rw [hevents] at hev
      rcases List.mem_append.1 hev with hev | hev
      · exact h.live x (hlive x hx) ev hev
      · rw [List.mem_singleton.1 hev]
        simp [NotifyEvent.closedId]
    · rw [hevents]
      refine List.pairwise_append.2 ⟨h.ordered, List.pairwise_singleton _ _, ?_⟩
      intro ev hev ev' hev' x hx
      rw [List.mem_singleton.1 hev'] at hx
      cases hx
      exact h.live t ht ev hev

theorem apart_closing {id : Nat} {reason : CloseReason} (h : Apart w)
    (hcalls : w.calls = before ++ .closing id reason :: after)
    (hok : ∀ t ∈ live w, some id ≠ some t.notification.id) :
    Apart ⟨{ w.shared with events := w.shared.events ++ [.closed id reason] },
      before ++ (none : Option Pc).toList ++ after⟩ := by
  have hlive := live_subset (q := none)
    (m := { w.shared with events := w.shared.events ++ [.closed id reason] }) hcalls
    (by simp [Pc.held, Pc.posted])
  constructor
  · intro x hx ev hev
    rcases List.mem_append.1 hev with hev | hev
    · exact h.live x (hlive x hx) ev hev
    · rw [List.mem_singleton.1 hev]
      exact hok x (hlive x hx)
  · refine List.pairwise_append.2 ⟨h.ordered, List.pairwise_singleton _ _, ?_⟩
    intro ev hev ev' hev' x hx
    rw [List.mem_singleton.1 hev'] at hx
    cases hx

theorem apart_advance {k : Nat} {e : Env} (h : Apart w) (hok : IdsApart w (.advance k e))
    (hk : w.calls[k]? = some p) (hcalls : w.calls = before ++ p :: after) :
    Apart ⟨(advance w.shared p e).1, before ++ (advance w.shared p e).2.toList ++ after⟩ := by
  cases p with
  | limiting t =>
    refine apart_of_live h (live_subset hcalls fun x hx => ?_) (.inl rfl)
    simp [advance, Pc.posted, Pc.held] at hx ⊢
    tauto
  | configuring t => exact apart_of_live h (live_subset hcalls fun x hx => hx) (.inl rfl)
  | deciding t config => exact apart_of_live h (live_subset hcalls fun x hx => hx) (.inl rfl)
  | acting t result =>
    cases result with
    | allow =>
      refine apart_of_live h (live_subset hcalls fun x hx => ?_)
        (.inr ⟨t, mem_live_of_posted hcalls (.inl List.mem_cons_self), rfl⟩)
      simp [advance, Pc.posted, Pc.held] at hx ⊢
      exact .inr hx
    | suppress =>
      refine apart_of_live h (live_subset hcalls fun x hx => ?_) (.inl rfl)
      simp [advance, Pc.posted, Pc.held] at hx ⊢
      exact .inr hx
    | queue =>
      refine apart_of_live h (live_subset hcalls fun x hx => ?_) (.inl rfl)
      simp [advance, Pc.posted, Pc.held] at hx ⊢
      exact hx.symm
    | drop =>
      refine apart_of_live h (live_subset hcalls fun x hx => ?_) (.inl rfl)
      simp [advance, Pc.posted, Pc.held] at hx ⊢
      exact .inr hx
  | closing id reason =>
    refine apart_closing h hcalls fun t ht => ?_
    have := hok t ht
    rw [hk] at this
    exact this
  | flipping active =>
    refine apart_of_live h (live_subset hcalls fun x hx => ?_) (.inl rfl)
    cases active <;> simpa [advance, Pc.posted, Pc.held] using hx
  | draining =>
    refine apart_of_live h (live_subset hcalls fun x hx => ?_) (.inl rfl)
    simp [advance, Pc.posted, Pc.held] at hx ⊢
    exact List.mem_of_mem_take hx
  | sending toSend =>
    cases toSend with
    | nil => exact apart_of_live h (live_subset hcalls fun x hx => hx) (.inl rfl)
    | cons t rest =>
      refine apart_of_live h (live_subset hcalls fun x hx => ?_)
        (.inr ⟨t, mem_live_of_posted hcalls (.inr List.mem_cons_self), rfl⟩)
      simp [advance, Pc.posted, Pc.held] at hx ⊢
      tauto

end Live

theorem apart_start {a : Call} (h : Apart w) (hok : IdsApart w (.start a)) :
    Apart ⟨(start w.shared a).1, w.calls ++ [(start w.shared a).2]⟩ := by
  cases a with
  | notify n =>
    refine ⟨fun t ht => ?_, h.ordered⟩
    have hcases : t ∈ live w ∨ t ∈ [⟨w.shared.nextTicket, n⟩] := by
      have hposted : [Pc.limiting ⟨w.shared.nextTicket, n⟩].flatMap Pc.posted =
          [⟨w.shared.nextTicket, n⟩] := rfl
      have hheld : [Pc.limiting ⟨w.shared.nextTicket, n⟩].flatMap Pc.held = [] := rfl
      simp only [live, posting, inHands, start, List.flatMap_append, hposted, hheld,
        List.append_nil, List.mem_append] at ht ⊢
      tauto
    rcases hcases with ht | ht
    · exact h.live t ht
    · rw [List.mem_singleton.1 ht]
      exact hok
  | close id reason =>
    refine ⟨fun t ht => h.live t ?_, h.ordered⟩
    simpa [live, posting, inHands, start, Pc.posted, Pc.held] using ht
  | setFullscreen active =>
    refine ⟨fun t ht => h.live t ?_, h.ordered⟩
    simpa [live, posting, inHands, start, Pc.posted, Pc.held] using ht

theorem apart_step (h : Apart w) (hok : IdsApart w turn)
    (hstep : daemon.step w turn = some (r, w')) : Apart w' := by
  obtain ⟨a, rfl, rfl⟩ | ⟨k, e, before, p, after, rfl, hk, hcalls, rfl⟩ :=
    Program.step_cases (P := program) hstep
  · exact apart_start h hok
  · exact apart_advance h hok hk hcalls

theorem apart_init : Apart daemon.init :=
  ⟨fun _ ht => absurd ht List.not_mem_nil, List.Pairwise.nil⟩

theorem apart_run (h : daemon.Run IdsApart τ w) : Apart w :=
  h.inv (I := fun _ w => Apart w) apart_init fun hI hok hstep => apart_step hI hok hstep

/-! ### Every interleaving -/

/-- **What becomes of queued notifications**, whatever the interleaving: each stands in one
place. Where every decision to queue is acted on before the flag goes down, the queue is empty
once the flag is down and no call is in flight, and what was queued was sent once or stood
behind the fifth of its batch. Where no live id is closed, no toast follows its closing. -/
theorem queued_accounted (h : daemon.Run Machine.anyStep τ w) :
    (∀ t ∈ w.shared.pushed,
      w.shared.fullscreenQueue.count t + (inHands w).count t + w.shared.shown.count t +
        w.shared.discarded.count t = 1) ∧
    (daemon.Run Prompt τ w → w.shared.fullscreenActive = false → w.calls = [] →
      w.shared.fullscreenQueue = [] ∧
      ∀ t ∈ w.shared.pushed, w.shared.shown.count t = if t ∈ w.shared.discarded then 0 else 1) ∧
    (daemon.Run IdsApart τ w → Ordered w.shared.events) := by
  have hacc := accounted_run h
  have hone : ∀ t ∈ w.shared.pushed,
      w.shared.fullscreenQueue.count t + (inHands w).count t + w.shared.shown.count t +
        w.shared.discarded.count t = 1 := by
    intro t ht
    have honce := hacc.once t
    have hpos := hacc.pushed t ht
    unfold places Manager.kept at honce hpos
    omega
  refine ⟨hone, fun hprompt hoff hidle => ?_, fun hapart => (apart_run hapart).ordered⟩
  have hqueue : w.shared.fullscreenQueue = [] := by
    by_contra hne
    have := (flushed_run hprompt hoff).2 hne
    rw [hidle] at this
    cases this
  refine ⟨hqueue, fun t ht => ?_⟩
  have htotal := hone t ht
  have hhands : inHands w = [] := by rw [inHands, hidle]; rfl
  rw [hqueue, hhands, List.count_nil] at htotal
  split
  · next hmem =>
    have := List.count_pos_iff.2 hmem
    omega
  · next hmem =>
    have := List.count_eq_zero.2 hmem
    omega

/-- A call taken to its end, `n` steps. -/
def whole (call : Call) (n : Nat) : List (Turn Call Env) :=
  .start call :: List.replicate n (.advance 0 {})

def message (id : Nat) : Notification := ⟨id, "Chat", .normal, ""⟩

/-- In fullscreen, `n` messages; then out of it. -/
def queuedMessages (n : Nat) : List (Turn Call Env) :=
  whole (.setFullscreen true) 1 ++
    (List.range n).flatMap (fun i => whole (.notify (message (i + 1))) 4) ++
    whole (.setFullscreen false) (3 + min n 5)

/-- Two messages queued turn by turn, and the first closed once it was sent while the second
still waits in the flush. -/
def interleaved : List (Turn Call Env) :=
  whole (.setFullscreen true) 1 ++ [.start (.notify (message 1)), .start (.notify (message 2))] ++
    [0, 1, 1, 0, 0, 1, 0, 0].map (.advance · {}) ++ whole (.setFullscreen false) 3 ++
    [.start (.close 1 .dismissed), .advance 1 {}, .advance 0 {}, .advance 0 {}]

theorem two_messages_are_shown : ∃ w : World,
    w.shared.events = [.added ⟨0, message 1⟩, .closed 1 .dismissed, .added ⟨1, message 2⟩] ∧
      (∀ t ∈ [⟨0, message 1⟩, ⟨1, message 2⟩], t ∈ w.shared.pushed ∧ w.shared.shown.count t = 1) ∧
      Ordered w.shared.events := by
  have hexec : (daemon.exec (fun w turn => Prompt w turn ∧ IdsApart w turn) daemon.init
      interleaved).map (fun x => (x.2.shared.fullscreenActive, x.2.calls, x.2.shared.pushed,
        x.2.shared.discarded, x.2.shared.events)) =
      some (false, [], [⟨0, message 1⟩, ⟨1, message 2⟩], [],
        [.added ⟨0, message 1⟩, .closed 1 .dismissed, .added ⟨1, message 2⟩]) := by decide
  obtain ⟨⟨τ, w⟩, he, hw⟩ := Option.map_eq_some_iff.1 hexec
  simp only [Prod.mk.injEq] at hw
  obtain ⟨hoff, hidle, hpushed, hdiscarded, hevents⟩ := hw
  have hrun := Machine.run_of_exec he
  obtain ⟨-, hflushed, hordered⟩ := queued_accounted (hrun.weaken fun _ _ _ => trivial)
  refine ⟨w, hevents, fun t ht => ⟨hpushed ▸ ht, ?_⟩, hordered (hrun.weaken fun _ _ h => h.2)⟩
  have hshown := (hflushed (hrun.weaken fun _ _ h => h.1) hoff hidle).2 t (hpushed ▸ ht)
  rw [hdiscarded, if_neg List.not_mem_nil] at hshown
  exact hshown

theorem sixth_message_is_lost : ∃ τ w, daemon.Run Machine.anyStep τ w ∧
    w.shared.fullscreenActive = false ∧ w.calls = [] ∧ ⟨5, message 6⟩ ∈ w.shared.pushed ∧
    w.shared.shown.count ⟨5, message 6⟩ = 0 ∧ ∀ ev ∈ w.shared.events, ev.closedId = none := by
  have hexec : (daemon.exec Machine.anyStep daemon.init (queuedMessages 6)).map (fun x =>
      (x.2.shared.fullscreenActive, x.2.calls, decide (⟨5, message 6⟩ ∈ x.2.shared.pushed),
        x.2.shared.shown.count ⟨5, message 6⟩,
        decide (∀ ev ∈ x.2.shared.events, ev.closedId = none))) =
      some (false, [], true, 0, true) := by decide
  obtain ⟨⟨τ, w⟩, he, hw⟩ := Option.map_eq_some_iff.1 hexec
  simp only [Prod.mk.injEq, decide_eq_true_eq] at hw
  exact ⟨τ, w, Machine.run_of_exec he, hw⟩

/-- The decision to queue, the whole way out of fullscreen, and only then the push. -/
def latePush : List (Turn Call Env) :=
  whole (.setFullscreen true) 1 ++ whole (.notify (message 1)) 3 ++
    .start (.setFullscreen false) :: List.replicate 3 (.advance 1 {}) ++ [.advance 0 {}]

theorem late_push_stays : ∃ τ w, daemon.Run Machine.anyStep τ w ∧
    w.shared.fullscreenActive = false ∧ w.calls = [] ∧
    w.shared.fullscreenQueue = [⟨0, message 1⟩] := by
  have hexec : (daemon.exec Machine.anyStep daemon.init latePush).map (fun x =>
      (x.2.shared.fullscreenActive, x.2.calls, x.2.shared.fullscreenQueue)) =
      some (false, [], [⟨0, message 1⟩]) := by decide
  obtain ⟨⟨τ, w⟩, he, hw⟩ := Option.map_eq_some_iff.1 hexec
  simp only [Prod.mk.injEq] at hw
  exact ⟨τ, w, Machine.run_of_exec he, hw⟩

/-- A queued message is closed before fullscreen is left. -/
def closedInQueue : List (Turn Call Env) :=
  whole (.setFullscreen true) 1 ++ whole (.notify (message 1)) 4 ++
    whole (.close 1 .dismissed) 1 ++ whole (.setFullscreen false) 4

theorem closed_message_comes_back : ∃ τ w, daemon.Run Machine.anyStep τ w ∧
    w.shared.events = [.closed 1 .dismissed, .added ⟨0, message 1⟩] := by
  have hexec : (daemon.exec Machine.anyStep daemon.init closedInQueue).map
      (fun x => x.2.shared.events) = some [.closed 1 .dismissed, .added ⟨0, message 1⟩] := by
    decide
  obtain ⟨⟨τ, w⟩, he, hw⟩ := Option.map_eq_some_iff.1 hexec
  exact ⟨τ, w, Machine.run_of_exec he, hw⟩

/-- Fullscreen queue: what is queued may be lost, may stay, and may come back. -/
theorem queued_may_be_lost_stay_or_come_back :
    (∃ τ w, daemon.Run Machine.anyStep τ w ∧ w.shared.fullscreenActive = false ∧ w.calls = [] ∧
      ⟨5, message 6⟩ ∈ w.shared.pushed ∧ w.shared.shown.count ⟨5, message 6⟩ = 0 ∧
      ∀ ev ∈ w.shared.events, ev.closedId = none) ∧
    (∃ τ w, daemon.Run Machine.anyStep τ w ∧ w.shared.fullscreenActive = false ∧ w.calls = [] ∧
      w.shared.fullscreenQueue = [⟨0, message 1⟩]) ∧
    ∃ τ w, daemon.Run Machine.anyStep τ w ∧
      w.shared.events = [.closed 1 .dismissed, .added ⟨0, message 1⟩] :=
  ⟨sixth_message_is_lost, late_push_stays, closed_message_comes_back⟩

end Arlen.Notify
