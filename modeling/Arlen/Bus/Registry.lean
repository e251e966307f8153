import Arlen.Bus.Consumer
import Arlen.Lib.Machine
import Mathlib.Data.List.Perm.Basic
import Mathlib.Logic.Function.Basic

/-!
# The consumer registry under concurrent calls

`ConsumerRegistry` (`daemons/event-bus/src/registry.rs`) at the granularity of
lock acquisitions. A dispatch of a state topic first writes the retained map and
then, under a second lock, delivers; a registration takes the retained map for
reading and then the consumer list for writing, and holds both while it replays
and enrols. Between the two locks other calls move.
-/

namespace Arlen.Bus

open Arlen.Lib

def consumerBuffer : Nat := 1024

/-- A consumer's channel: what its connection has taken out, and what waits. -/
structure Channel where
  taken : List Event
  queue : List Event
deriving DecidableEq, Repr

def Channel.new : Channel := ⟨[], []⟩

/-- `try_send`: a full channel drops the event. -/
def Channel.trySend (ch : Channel) (e : Event) : Channel :=
  if ch.queue.length < consumerBuffer then { ch with queue := ch.queue ++ [e] } else ch

def Channel.recv (ch : Channel) : Option Channel :=
  match ch.queue with
  | [] => none
  | e :: queue => some ⟨ch.taken ++ [e], queue⟩

/-- Everything that went into the channel, in order. -/
def Channel.received (ch : Channel) : List Event := ch.taken ++ ch.queue

/-- The last message of each state topic, one entry a topic. -/
def insertRetained (retained : List (String × Event)) (e : Event) : List (String × Event) :=
  retained.filter (·.1 ≠ e.type) ++ [(e.type, e)]

/-- The registry, the channels, and the calls under way: dispatches that have
written the retained map and not yet delivered, registrations that hold it for
reading, and the connections whose registration has returned. `written` records
the state events in the order the retained map was written. -/
structure Registry where
  consumers : List ConsumerEntry
  retained : List (String × Event)
  channels : Nat → Channel
  nextSender : Nat
  dispatching : List Event
  registering : List ConsumerEntry
  connections : List ConsumerEntry
  written : List Event

namespace Registry

def new : Registry := ⟨[], [], fun _ => .new, 0, [], [], [], []⟩

/-- Send to a consumer what its pattern and its uid filter let through. -/
def offer (c : ConsumerEntry) (chans : Nat → Channel) (e : Event) : Nat → Channel :=
  if c.wants e then Function.update chans c.sender ((chans c.sender).trySend e) else chans

/-- The delivery loop of `dispatch`. -/
def deliverTo (consumers : List ConsumerEntry) (e : Event) (chans : Nat → Channel) :
    Nat → Channel :=
  consumers.foldl (fun chans c => offer c chans e) chans

/-- The replay loop of `register`, over the retained values in the map's order. -/
def replay (c : ConsumerEntry) (values : List Event) (chans : Nat → Channel) : Nat → Channel :=
  values.foldl (offer c) chans

/-- `unregister`: every entry under the id goes. -/
def withoutId (consumers : List ConsumerEntry) (id : String) : List ConsumerEntry :=
  consumers.filter (·.id ≠ id)

end Registry

/-- What may happen next. `dispatch` and `deliver` are the two halves of a
dispatch call, `register` and `enrol` those of a registration; a connection's
claimed uid filter is held to its attested uid before it registers, and `enrol`
is told the order in which the map yields its values. A connection that ends
unregisters the id it came with. -/
inductive Action where
  | dispatch (e : Event)
  | deliver (i : Nat)
  | register (id : String) (subscribedTypes : List String) (claimed : UidFilter)
      (attestedUid : UInt32)
  | enrol (i : Nat) (values : List Event)
  | recv (sender : Nat)
  | leave (i : Nat)
deriving DecidableEq, Repr

namespace Registry

def step (g : Registry) : Action → Option (Unit × Registry)
  | .dispatch e =>
    if isStateTopic e.type then
      -- the write lock waits for every registration that holds the map
      if g.registering = [] then
        some ((), { g with
          retained := insertRetained g.retained e
          dispatching := g.dispatching ++ [e]
          written := g.written ++ [e] })
      else none
    else some ((), { g with dispatching := g.dispatching ++ [e] })
  | .deliver i =>
    match g.dispatching[i]? with
    | none => none
    | some e => some ((), { g with
        channels := deliverTo g.consumers e g.channels
        dispatching := g.dispatching.eraseIdx i })
  | .register id subscribedTypes claimed attestedUid =>
    let uidFilter := clampUidFilter claimed attestedUid
    some ((), { g with
      registering := g.registering ++ [⟨id, subscribedTypes, uidFilter, g.nextSender⟩]
      nextSender := g.nextSender + 1 })
  | .enrol i values =>
    match g.registering[i]? with
    | none => none
    | some c =>
      if values.Perm (g.retained.map (·.2)) then
        some ((), { g with
          consumers := g.consumers ++ [c]
          channels := replay c values g.channels
          registering := g.registering.eraseIdx i
          connections := g.connections ++ [c] })
      else none
  | .recv sender =>
    match (g.channels sender).recv with
    | none => none
    | some ch => some ((), { g with channels := Function.update g.channels sender ch })
  | .leave i =>
    match g.connections[i]? with
    | none => none
    | some c => some ((), { g with
        consumers := withoutId g.consumers c.id
        connections := g.connections.eraseIdx i })

/-- The bus as a machine: the registry under every order of its calls. -/
def machine : Machine Registry Action Unit := ⟨new, step⟩

variable {g g' : Registry} {u : Unit}

/-! ## What a step can do -/

theorem dispatch_cases {e : Event} (h : step g (.dispatch e) = some (u, g')) :
    isStateTopic e.type = true ∧ g.registering = [] ∧ g' = { g with
        retained := insertRetained g.retained e
        dispatching := g.dispatching ++ [e]
        written := g.written ++ [e] } ∨
      isStateTopic e.type = false ∧ g' = { g with dispatching := g.dispatching ++ [e] } := by
  simp only [step] at h
  split at h
  · next hs =>
    split at h
    · next hr =>
      cases h
      exact .inl ⟨hs, hr, rfl⟩
    · cases h
  · next hs =>
    cases h
    exact .inr ⟨by simpa using hs, rfl⟩

theorem deliver_cases {i : Nat} (h : step g (.deliver i) = some (u, g')) :
    ∃ e, g.dispatching[i]? = some e ∧ g' = { g with
      channels := deliverTo g.consumers e g.channels
      dispatching := g.dispatching.eraseIdx i } := by
  simp only [step] at h
  split at h
  · cases h
  · next e he =>
    cases h
    exact ⟨e, he, rfl⟩

theorem enrol_cases {i : Nat} {values : List Event}
    (h : step g (.enrol i values) = some (u, g')) :
    ∃ c, g.registering[i]? = some c ∧ values.Perm (g.retained.map (·.2)) ∧ g' = { g with
      consumers := g.consumers ++ [c]
      channels := replay c values g.channels
      registering := g.registering.eraseIdx i
      connections := g.connections ++ [c] } := by
  simp only [step] at h
  split at h
  · cases h
  · next c hc =>
    split at h
    · next hp =>
      cases h
      exact ⟨c, hc, hp, rfl⟩
    · cases h

theorem recv_cases {k : Nat} (h : step g (.recv k) = some (u, g')) :
    ∃ ch, ch.received = (g.channels k).received ∧ g.channels k ≠ .new ∧
      g' = { g with channels := Function.update g.channels k ch } := by
  simp only [step, Channel.recv] at h
  split at h
  · cases h
  · next ch hch =>
    cases h
    split at hch
    · cases hch
    · next e queue hq =>
      cases hch
      exact ⟨_, by simp [Channel.received, hq], fun hnew => by simp [hnew, Channel.new] at hq, rfl⟩

theorem leave_cases {i : Nat} (h : step g (.leave i) = some (u, g')) :
    ∃ c, g.connections[i]? = some c ∧ g' = { g with
      consumers := withoutId g.consumers c.id
      connections := g.connections.eraseIdx i } := by
  simp only [step] at h
  split at h
  · cases h
  · next c hc =>
    cases h
    exact ⟨c, hc, rfl⟩

/-! ## What the two loops send -/

section Loops

variable {consumers : List ConsumerEntry} {c : ConsumerEntry} {e : Event} {chans : Nat → Channel}
  {k : Nat}

theorem offer_of_ne (h : k ≠ c.sender) : offer c chans e k = chans k := by
  unfold offer
  split
  · exact Function.update_of_ne h _ _
  · rfl

theorem offer_self :
    offer c chans e c.sender = if c.wants e then (chans c.sender).trySend e
      else chans c.sender := by
  unfold offer
  split
  · exact Function.update_self _ _ _
  · rfl

theorem deliverTo_of_not_mem (h : k ∉ consumers.map (·.sender)) :
    deliverTo consumers e chans k = chans k := by
  induction consumers generalizing chans with
  | nil => rfl
  | cons c consumers ih =>
    simp only [List.map_cons, List.mem_cons, not_or] at h
    exact (ih h.2).trans (offer_of_ne h.1)

/-- Every consumer is offered the event once, through its own channel. -/
theorem deliverTo_of_mem (hnd : (consumers.map (·.sender)).Nodup) (hc : c ∈ consumers) :
    deliverTo consumers e chans c.sender =
      if c.wants e then (chans c.sender).trySend e else chans c.sender := by
  induction consumers generalizing chans with
  | nil => cases hc
  | cons d consumers ih =>
    rw [List.map_cons, List.nodup_cons] at hnd
    rcases List.mem_cons.1 hc with rfl | hc
    · exact (deliverTo_of_not_mem hnd.1).trans offer_self
    · have hne : c.sender ≠ d.sender := fun h => hnd.1 (h ▸ List.mem_map_of_mem hc)
      have hoffer : offer d chans e c.sender = chans c.sender := offer_of_ne hne
      have htail := @ih (offer d chans e) hnd.2 hc
      rwa [hoffer] at htail

theorem replay_of_ne {values : List Event} (h : k ≠ c.sender) :
    replay c values chans k = chans k := by
  induction values generalizing chans with
  | nil => rfl
  | cons e values ih => exact ih.trans (offer_of_ne h)

theorem trySend_received (ch : Channel) (h : ch.queue.length < consumerBuffer) :
    (ch.trySend e).received = ch.received ++ [e] := by
  simp [Channel.trySend, h, Channel.received]

/-- With room for all of them, the values the consumer wants are what it gets. -/
theorem replay_received {values : List Event}
    (h : (chans c.sender).queue.length + values.length ≤ consumerBuffer) :
    (replay c values chans c.sender).received =
      (chans c.sender).received ++ values.filter c.wants := by
  induction values generalizing chans with
  | nil => simp [replay]
  | cons e values ih =>
    rw [List.length_cons] at h
    have hroom : (offer c chans e c.sender).queue.length + values.length ≤ consumerBuffer := by
      rw [offer_self]
      split
      · simp only [Channel.trySend]
        split
        · rw [List.length_append, List.length_singleton]
          omega
        · omega
      · omega
    refine (ih hroom).trans ?_
    rw [offer_self]
    cases hw : c.wants e with
    | true => simp [hw, trySend_received (e := e) (chans c.sender) (by omega)]
    | false => simp [hw]

end Loops

/-! ## Every entry has a channel of its own -/

/-- The channels are handed out one to a registration, and stay untouched until
it is enrolled. -/
structure Wired (g : Registry) : Prop where
  nodup : ((g.consumers ++ g.registering).map (·.sender)).Nodup
  below : ∀ c ∈ g.consumers ++ g.registering, c.sender < g.nextSender
  waiting : ∀ c ∈ g.registering, g.channels c.sender = .new
  unused : ∀ k, g.nextSender ≤ k → g.channels k = .new

theorem wired_new : Wired new := ⟨by simp [new], by simp [new], by simp [new], fun _ _ => rfl⟩

variable {a : Action}

theorem perm_enrol (consumers : List ConsumerEntry) {registering : List ConsumerEntry} {i : Nat} {c : ConsumerEntry}
    (h : registering[i]? = some c) :
    (consumers ++ [c] ++ registering.eraseIdx i).Perm (consumers ++ registering) := by
  obtain ⟨hi, rfl⟩ := List.getElem?_eq_some_iff.1 h
  rw [List.append_assoc]
  exact (List.getElem_cons_eraseIdx_perm hi).append_left consumers

theorem Wired.apart (hw : Wired g) {c d : ConsumerEntry} (hc : c ∈ g.consumers)
    (hd : d ∈ g.registering) : c.sender ≠ d.sender := by
  have hnd := hw.nodup
  rw [List.map_append] at hnd
  exact (List.nodup_append.1 hnd).2.2 _ (List.mem_map_of_mem hc) _ (List.mem_map_of_mem hd)

theorem Wired.consumers (hw : Wired g) : (g.consumers.map (·.sender)).Nodup := by
  have hnd := hw.nodup
  rw [List.map_append] at hnd
  exact (List.nodup_append.1 hnd).1

theorem Wired.step (hw : Wired g) (h : g.step a = some (u, g')) : Wired g' := by
  cases a with
  | dispatch e =>
    obtain ⟨-, -, rfl⟩ | ⟨-, rfl⟩ := dispatch_cases h
    · exact ⟨hw.nodup, hw.below, hw.waiting, hw.unused⟩
    · exact ⟨hw.nodup, hw.below, hw.waiting, hw.unused⟩
  | deliver i =>
    obtain ⟨e, -, rfl⟩ := deliver_cases h
    refine ⟨hw.nodup, hw.below, fun d hd => ?_, fun k hk => ?_⟩
    · refine (deliverTo_of_not_mem fun hm => ?_).trans (hw.waiting d hd)
      obtain ⟨c, hc, heq⟩ := List.mem_map.1 hm
      exact hw.apart hc hd heq
    · refine (deliverTo_of_not_mem fun hm => ?_).trans (hw.unused k hk)
      obtain ⟨c, hc, rfl⟩ := List.mem_map.1 hm
      have := hw.below c (List.mem_append_left _ hc)
      simp only at hk
      omega
  | register id subs claimed attested =>
    cases h
    refine ⟨?_, fun c hc => ?_, fun c hc => ?_, fun k hk => hw.unused k (Nat.le_of_succ_le hk)⟩
    · rw [← List.append_assoc, List.map_append]
      refine List.nodup_append.2 ⟨hw.nodup, by simp, ?_⟩
      intro k hk k' hk' heq
      obtain ⟨c, hc, rfl⟩ := List.mem_map.1 hk
      have := hw.below c hc
      simp only [List.map_cons, List.map_nil, List.mem_singleton] at hk'
      omega
    · simp only [← List.append_assoc] at hc ⊢
      rcases List.mem_append.1 hc with hc | hc
      · have := hw.below c hc
        omega
      · obtain rfl := List.mem_singleton.1 hc
        exact Nat.lt_succ_self _
    · rcases List.mem_append.1 hc with hc | hc
      · exact hw.waiting c hc
      · obtain rfl := List.mem_singleton.1 hc
        exact hw.unused _ (Nat.le_refl _)
  | enrol i values =>
    obtain ⟨c, hc, -, rfl⟩ := enrol_cases h
    have hperm := perm_enrol g.consumers hc
    have hmem : c ∈ g.registering := List.mem_of_getElem? hc
    have hnd : ((g.consumers ++ [c] ++ g.registering.eraseIdx i).map (·.sender)).Nodup :=
      (hperm.map _).nodup_iff.2 hw.nodup
    refine ⟨hnd, fun d hd => hw.below d (hperm.mem_iff.1 hd), fun d hd => ?_, fun k hk => ?_⟩
    · have hne : d.sender ≠ c.sender := by
        rw [List.map_append] at hnd
        exact ((List.nodup_append.1 hnd).2.2 _ (List.mem_map_of_mem (by simp)) _
          (List.mem_map_of_mem hd)).symm
      exact (replay_of_ne hne).trans (hw.waiting d (List.mem_of_mem_eraseIdx hd))
    · have := hw.below c (List.mem_append_right _ hmem)
      simp only at hk
      exact (replay_of_ne (by omega)).trans (hw.unused k hk)
  | recv k =>
    obtain ⟨ch, -, hne, rfl⟩ := recv_cases h
    refine ⟨hw.nodup, hw.below, fun c hc => ?_, fun k' hk' => ?_⟩
    · have : c.sender ≠ k := by
        rintro rfl
        exact hne (hw.waiting c hc)
      exact (Function.update_of_ne this _ _).trans (hw.waiting c hc)
    · have : k' ≠ k := by
        rintro rfl
        exact hne (hw.unused k' hk')
      exact (Function.update_of_ne this _ _).trans (hw.unused k' hk')
  | leave i =>
    obtain ⟨c, -, rfl⟩ := leave_cases h
    have hsub : (withoutId g.consumers c.id ++ g.registering).Sublist
        (g.consumers ++ g.registering) := List.filter_sublist.append (.refl _)
    exact ⟨hw.nodup.sublist (hsub.map _), fun d hd => hw.below d (hsub.subset hd), hw.waiting,
      hw.unused⟩

theorem wired_of_run {ok : Registry → Action → Prop} {τ : List (Action × Unit)}
    (h : machine.Run ok τ g) : Wired g :=
  h.inv (I := fun _ g => Wired g) wired_new fun hw _ hs => hw.step hs

end Registry

end Arlen.Bus
