import Arlen.Bus.Registry

/-!
# The late-joiner law

A state topic keeps its last message, so that a consumer is told how things are
whenever it joins. `CaughtUp` is what survives each step: a consumer either last
received the last event written that its filter accepts, or a dispatch that will
bring it one is still under way. Two kinds of step break it: a delivery that
overtakes an earlier write of the topic, and an enrolment whose filter refuses the
one retained event while it accepts an older one.
-/

namespace Arlen.Bus.Registry

open Arlen.Lib

/-- The events of one topic, in order. -/
def onTopic (topic : String) (events : List Event) : List Event :=
  events.filter (·.type = topic)

/-- The events of the topic written so far that the consumer's filter accepts. -/
def acceptedBy (g : Registry) (c : ConsumerEntry) (topic : String) : List Event :=
  (onTopic topic g.written).filter (c.uidFilter.accepts ·.uid)

/-- What the consumer has received on the topic. -/
def receivedOn (g : Registry) (c : ConsumerEntry) (topic : String) : List Event :=
  onTopic topic (g.channels c.sender).received

/-- No buffer fills: every send of the step finds room. -/
def Room (g : Registry) : Action → Prop
  | .deliver _ => ∀ c ∈ g.consumers, (g.channels c.sender).queue.length < consumerBuffer
  | .enrol _ values => values.length ≤ consumerBuffer
  | _ => True

/-- A state event is delivered only when no earlier write of its topic is still
to be delivered. -/
def InTurn (g : Registry) : Action → Prop
  | .deliver i => ∀ e e' j, g.dispatching[i]? = some e → isStateTopic e.type = true →
      g.dispatching[j]? = some e' → e'.type = e.type → i ≤ j
  | _ => True

/-- A joining consumer accepts the retained event of every topic it matches, or
one of the topic still to be delivered, or none written on it so far. -/
def Remembered (g : Registry) : Action → Prop
  | .enrol i _ => ∀ c e, g.registering[i]? = some c → e ∈ g.retained.map (·.2) →
      c.matches e.type = true → c.uidFilter.accepts e.uid = true ∨
        (∃ e' ∈ g.dispatching, e'.type = e.type ∧ c.uidFilter.accepts e'.uid = true) ∨
        ∀ e' ∈ g.written, e'.type = e.type → c.uidFilter.accepts e'.uid = false
  | _ => True

/-- The guard of the law: the claim's own proviso on buffers, and the two
conditions on the order of steps. -/
def Orderly (g : Registry) (a : Action) : Prop := Room g a ∧ InTurn g a ∧ Remembered g a

/-- The consumer last received what it should have, or will still be sent more. -/
def CaughtUp (g : Registry) (c : ConsumerEntry) (topic : String) : Prop :=
  (∃ e ∈ onTopic topic g.dispatching, c.uidFilter.accepts e.uid = true) ∨
    (receivedOn g c topic).getLast? = (acceptedBy g c topic).getLast?

/-- The retained map holds the last write of each topic, the dispatches under way
are the last writes of theirs, and every consumer is caught up. -/
structure Current (g : Registry) : Prop where
  retained : ∀ topic, (g.retained.filter (·.1 = topic)).map (·.2) =
    (onTopic topic g.written).getLast?.toList
  pending : ∀ topic, isStateTopic topic = true →
    onTopic topic g.dispatching <:+ onTopic topic g.written
  caughtUp : ∀ c ∈ g.consumers, ∀ topic, isStateTopic topic = true → c.matches topic = true →
    CaughtUp g c topic

theorem current_new : Current new :=
  ⟨fun _ => rfl, fun _ _ => List.suffix_rfl, by simp [new]⟩

variable {g g' : Registry} {a : Action} {u : Unit} {topic : String} {e : Event}

theorem onTopic_append (es es' : List Event) :
    onTopic topic (es ++ es') = onTopic topic es ++ onTopic topic es' := List.filter_append ..

theorem onTopic_self (h : e.type = topic) : onTopic topic [e] = [e] := by
  simp [onTopic, h]

theorem onTopic_other (h : e.type ≠ topic) : onTopic topic [e] = [] := by
  simp [onTopic, h]

/-! ## The retained map -/

theorem filter_insertRetained (retained : List (String × Event)) :
    ((insertRetained retained e).filter (·.1 = topic)).map (·.2) =
      if e.type = topic then [e] else (retained.filter (·.1 = topic)).map (·.2) := by
  unfold insertRetained
  split
  · next h =>
    subst h
    simp
  · next h =>
    have hkeep : (retained.filter (·.1 ≠ e.type)).filter (·.1 = topic) =
        retained.filter (·.1 = topic) := by
      rw [List.filter_filter]
      refine List.filter_congr ?_
      rintro ⟨k, _⟩ -
      by_cases hk : k = topic
      · subst hk
        simp [Ne.symm h]
      · simp [hk]
    rw [List.filter_append, hkeep]
    simp [h]

/-- A retained event is the last write of its own topic. -/
theorem Current.last_of_retained (hc : Current g) {k : String} (h : (k, e) ∈ g.retained) :
    e.type = k ∧ (onTopic k g.written).getLast? = some e := by
  have hmem : e ∈ (g.retained.filter (·.1 = k)).map (·.2) :=
    List.mem_map.2 ⟨(k, e), List.mem_filter.2 ⟨h, by simp⟩, rfl⟩
  rw [hc.retained k, Option.mem_toList] at hmem
  have hon := List.mem_of_getLast? hmem
  exact ⟨by simpa using (List.mem_filter.1 hon).2, hmem⟩

/-- The retained values of a topic, in whatever order the map yields them. -/
theorem Current.onTopic_values (hc : Current g) {values : List Event}
    (hp : values.Perm (g.retained.map (·.2))) :
    onTopic topic values = (onTopic topic g.written).getLast?.toList := by
  have hkeys : (g.retained.map (·.2)).filter (·.type = topic) =
      (g.retained.filter (·.1 = topic)).map (·.2) := by
    rw [List.filter_map]
    congr 1
    refine List.filter_congr ?_
    rintro ⟨k, e⟩ hm
    simp [(hc.last_of_retained hm).1]
  have hperm : (onTopic topic values).Perm (onTopic topic g.written).getLast?.toList := by
    rw [← hc.retained topic, ← hkeys]
    exact hp.filter _
  cases hl : (onTopic topic g.written).getLast? with
  | none => simpa [hl] using hperm
  | some e => simpa [hl] using hperm

/-! ## One step -/

theorem suffix_append_both {α : Type} {l₁ l₂ : List α} (h : l₁ <:+ l₂) (l : List α) :
    l₁ ++ l <:+ l₂ ++ l := by
  obtain ⟨d, rfl⟩ := h
  exact ⟨d, by simp⟩

/-- A dispatch writes the retained map: whoever accepts the event will be sent it. -/
theorem Current.dispatch (hc : Current g) (h : g.step (.dispatch e) = some (u, g')) :
    Current g' := by
  obtain ⟨-, -, rfl⟩ | ⟨hs, rfl⟩ := dispatch_cases h
  · refine ⟨fun topic => ?_, fun topic ht => ?_, fun c hm topic ht hmatch => ?_⟩
    · rw [filter_insertRetained, onTopic_append]
      split
      · next heq => simp [onTopic_self heq]
      · next hne => simp [onTopic_other hne, hc.retained topic]
    · rw [onTopic_append, onTopic_append]
      exact suffix_append_both (hc.pending topic ht) _
    · by_cases hto : e.type = topic ∧ c.uidFilter.accepts e.uid = true
      · refine .inl ⟨e, ?_, hto.2⟩
        rw [onTopic_append, onTopic_self hto.1]
        exact List.mem_append_right _ (List.mem_singleton_self e)
      -- to this consumer the event is no news
      · have hskip : (onTopic topic [e]).filter (c.uidFilter.accepts ·.uid) = [] := by
          by_cases heq : e.type = topic
          · rw [onTopic_self heq]
            simpa using fun ha => hto ⟨heq, ha⟩
          · rw [onTopic_other heq]
            rfl
        rcases hc.caughtUp c hm topic ht hmatch with ⟨e', he', ha⟩ | hlast
        · refine .inl ⟨e', ?_, ha⟩
          rw [onTopic_append]
          exact List.mem_append_left _ he'
        · refine .inr ?_
          unfold acceptedBy
          rw [onTopic_append, List.filter_append, hskip, List.append_nil]
          exact hlast
  · have hsame : ∀ topic, isStateTopic topic = true →
        onTopic topic (g.dispatching ++ [e]) = onTopic topic g.dispatching := by
      intro topic ht
      have hne : e.type ≠ topic := by
        rintro rfl
        simp [hs] at ht
      rw [onTopic_append, onTopic_other hne, List.append_nil]
    refine ⟨hc.retained, fun topic ht => ?_, fun c hm topic ht hmatch => ?_⟩
    · exact (hsame topic ht).symm ▸ hc.pending topic ht
    · rcases hc.caughtUp c hm topic ht hmatch with hleft | hlast
      · exact .inl ((hsame topic ht).symm ▸ hleft)
      · exact .inr hlast

/-- The dispatches under way on each topic once the `i`-th has delivered. -/
theorem onTopic_delivered {i : Nat} (he : g.dispatching[i]? = some e) (ht : InTurn g (.deliver i))
    (hs : isStateTopic topic = true) :
    onTopic topic g.dispatching = onTopic topic [e] ++ onTopic topic (g.dispatching.eraseIdx i) := by
  obtain ⟨hi, rfl⟩ := List.getElem?_eq_some_iff.1 he
  have hsplit : g.dispatching = g.dispatching.take i ++ [g.dispatching[i]] ++
      g.dispatching.drop (i + 1) := by
    rw [List.take_append_getElem hi, List.take_append_drop]
  by_cases heq : g.dispatching[i].type = topic
  · -- nothing of the topic stands before it
    have hbefore : onTopic topic (g.dispatching.take i) = [] := by
      refine List.filter_eq_nil_iff.2 fun e' he' htype => ?_
      obtain ⟨j, hj, hget⟩ := List.getElem_of_mem he'
      rw [List.length_take] at hj
      have hj' : g.dispatching[j]? = some e' := by
        rw [← hget, List.getElem_take]
        exact List.getElem?_eq_getElem _
      have hle := ht _ e' j he (heq ▸ hs) hj' (by simpa [heq] using htype)
      omega
    rw [List.eraseIdx_eq_take_drop_succ, onTopic_append, hbefore]
    conv_lhs => rw [hsplit]
    rw [onTopic_append, onTopic_append, hbefore, List.nil_append, List.nil_append]
  · rw [List.eraseIdx_eq_take_drop_succ, onTopic_append, onTopic_other heq]
    conv_lhs => rw [hsplit]
    rw [onTopic_append, onTopic_append, onTopic_other heq, List.append_nil, List.nil_append]

/-- A delivery in its turn: what the consumer is sent is the oldest write it waits for. -/
theorem Current.deliver (hw : Wired g) (hc : Current g) {i : Nat} (hok : Orderly g (.deliver i))
    (h : g.step (.deliver i) = some (u, g')) : Current g' := by
  obtain ⟨hroom, hturn, -⟩ := hok
  obtain ⟨e, he, rfl⟩ := deliver_cases h
  have hsplit : ∀ topic, isStateTopic topic = true → onTopic topic g.dispatching =
      onTopic topic [e] ++ onTopic topic (g.dispatching.eraseIdx i) :=
    fun _ hs => onTopic_delivered he hturn hs
  refine ⟨hc.retained, fun topic hs => ?_, fun c hm topic hs hmatch => ?_⟩
  · have hp := hc.pending topic hs
    rw [hsplit topic hs] at hp
    exact (List.suffix_append _ _).trans hp
  have hsent : deliverTo g.consumers e g.channels c.sender =
      if c.wants e then (g.channels c.sender).trySend e else g.channels c.sender :=
    deliverTo_of_mem hw.consumers hm
  have hon : receivedOn { g with
      channels := deliverTo g.consumers e g.channels
      dispatching := g.dispatching.eraseIdx i } c topic =
        receivedOn g c topic ++ (onTopic topic [e]).filter (c.uidFilter.accepts ·.uid) := by
    unfold receivedOn
    simp only [hsent]
    by_cases heq : e.type = topic
    · have hwants : c.wants e = c.uidFilter.accepts e.uid := by
        simp [ConsumerEntry.wants, heq, hmatch]
      rw [onTopic_self heq, hwants]
      cases ha : c.uidFilter.accepts e.uid with
      | true => simp [trySend_received _ (hroom c hm), onTopic_append, onTopic_self heq, ha]
      | false => simp [ha]
    · rw [onTopic_other heq]
      split
      · simp [trySend_received _ (hroom c hm), onTopic_append, onTopic_other heq]
      · simp
  by_cases hmore : ∃ e' ∈ onTopic topic (g.dispatching.eraseIdx i),
      c.uidFilter.accepts e'.uid = true
  · exact .inl hmore
  refine .inr ?_
  rw [hon]
  by_cases hnew : (onTopic topic [e]).filter (c.uidFilter.accepts ·.uid) = []
  · -- it is not for this consumer, so nothing it waited for is under way
    rw [hnew, List.append_nil]
    rcases hc.caughtUp c hm topic hs hmatch with ⟨e', he', ha⟩ | hlast
    · rw [hsplit topic hs] at he'
      rcases List.mem_append.1 he' with he' | he'
      · exact absurd ha (List.filter_eq_nil_iff.1 hnew e' he')
      · exact absurd ⟨e', he', ha⟩ hmore
    · exact hlast
  · -- it is the last write this consumer accepts
    obtain ⟨d, hd⟩ := hc.pending topic hs
    have hrest : (onTopic topic (g.dispatching.eraseIdx i)).filter (c.uidFilter.accepts ·.uid) =
        [] := List.filter_eq_nil_iff.2 fun e' he' ha => hmore ⟨e', he', ha⟩
    have hacc : acceptedBy g c topic = d.filter (c.uidFilter.accepts ·.uid) ++
        (onTopic topic [e]).filter (c.uidFilter.accepts ·.uid) := by
      unfold acceptedBy
      rw [← hd, hsplit topic hs, List.filter_append, List.filter_append, hrest, List.append_nil]
    change _ = (acceptedBy g c topic).getLast?
    rw [hacc, List.getLast?_append_of_ne_nil _ hnew, List.getLast?_append_of_ne_nil _ hnew]

/-- The replay brings a joining consumer up to the last write, or a dispatch
under way will. -/
theorem Current.caughtUp_enrolled (hw : Wired g) (hc : Current g) {i : Nat} {values : List Event}
    {c : ConsumerEntry} (hok : Orderly g (.enrol i values)) (hi : g.registering[i]? = some c)
    (hp : values.Perm (g.retained.map (·.2))) (hmatch : c.matches topic = true) :
    (∃ e ∈ onTopic topic g.dispatching, c.uidFilter.accepts e.uid = true) ∨
      (onTopic topic (replay c values g.channels c.sender).received).getLast? =
        (acceptedBy g c topic).getLast? := by
  obtain ⟨hroom, -, hrem⟩ := hok
  have hnew : g.channels c.sender = .new := hw.waiting c (List.mem_of_getElem? hi)
  have hreplay : (replay c values g.channels c.sender).received = values.filter c.wants := by
    have hlen : values.length ≤ consumerBuffer := hroom
    have hfits : (g.channels c.sender).queue.length + values.length ≤ consumerBuffer := by
      simpa [hnew, Channel.new] using hlen
    rw [replay_received hfits]
    simp [hnew, Channel.new, Channel.received]
  have hfilter : onTopic topic (values.filter c.wants) =
      (onTopic topic values).filter (c.uidFilter.accepts ·.uid) := by
    unfold onTopic
    rw [List.filter_filter, List.filter_filter]
    refine List.filter_congr fun e _ => ?_
    by_cases heq : e.type = topic
    · simp [ConsumerEntry.wants, heq, hmatch]
    · simp [heq]
  rw [hreplay, hfilter, hc.onTopic_values hp]
  cases hl : (onTopic topic g.written).getLast? with
  | none =>
    have hnil : onTopic topic g.written = [] := List.getLast?_eq_none_iff.1 hl
    exact .inr (by simp [acceptedBy, hnil])
  | some e =>
    have hon : e ∈ onTopic topic g.written := List.mem_of_getLast? hl
    have htype : e.type = topic := by simpa using (List.mem_filter.1 hon).2
    have hret : e ∈ g.retained.map (·.2) := by
      have hm : e ∈ (g.retained.filter (·.1 = topic)).map (·.2) := by
        rw [hc.retained topic, hl]
        exact List.mem_singleton_self e
      obtain ⟨x, hx, rfl⟩ := List.mem_map.1 hm
      exact List.mem_map_of_mem (List.mem_filter.1 hx).1
    rcases hrem c e hi hret (htype ▸ hmatch) with ha | ⟨e', he', htype', ha⟩ | hnone
    · -- the retained event is the last it accepts
      refine .inr ?_
      obtain ⟨front, hfront⟩ := List.getLast?_eq_some_iff.1 hl
      simp [acceptedBy, hfront, ha]
    · exact .inl ⟨e', List.mem_filter.2 ⟨he', by simp [htype', htype]⟩, ha⟩
    · -- it accepts nothing written on the topic
      have hall : acceptedBy g c topic = [] := by
        refine List.filter_eq_nil_iff.2 fun e' he' ha => ?_
        obtain ⟨hmem, ht'⟩ := List.mem_filter.1 he'
        have := hnone e' hmem (by simpa [htype] using ht')
        simp [this] at ha
      have hrefused : c.uidFilter.accepts e.uid = false :=
        hnone e (List.mem_filter.1 hon).1 rfl
      exact .inr (by simp [hall, hrefused])

theorem Current.step (hw : Wired g) (hc : Current g) (hok : Orderly g a)
    (h : g.step a = some (u, g')) : Current g' := by
  cases a with
  | dispatch e => exact hc.dispatch h
  | deliver i => exact hc.deliver hw hok h
  | register id subs claimed attested =>
    cases h
    exact ⟨hc.retained, hc.pending, hc.caughtUp⟩
  | enrol i values =>
    obtain ⟨c, hi, hp, rfl⟩ := enrol_cases h
    refine ⟨hc.retained, hc.pending, fun d hd topic hs hmatch => ?_⟩
    rcases List.mem_append.1 hd with hd | hd
    · have hne : d.sender ≠ c.sender := hw.apart hd (List.mem_of_getElem? hi)
      have hsame : replay c values g.channels d.sender = g.channels d.sender := replay_of_ne hne
      unfold CaughtUp receivedOn
      simp only [hsame]
      exact hc.caughtUp d hd topic hs hmatch
    · obtain rfl := List.mem_singleton.1 hd
      exact hc.caughtUp_enrolled hw hok hi hp hmatch
  | recv k =>
    obtain ⟨ch, hrec, -, rfl⟩ := recv_cases h
    refine ⟨hc.retained, hc.pending, fun c hm topic hs hmatch => ?_⟩
    have hsame : (Function.update g.channels k ch c.sender).received =
        (g.channels c.sender).received := by
      by_cases hk : c.sender = k
      · rw [hk, Function.update_self, hrec]
      · rw [Function.update_of_ne hk]
    unfold CaughtUp receivedOn
    simp only [hsame]
    exact hc.caughtUp c hm topic hs hmatch
  | leave i =>
    obtain ⟨c, -, rfl⟩ := leave_cases h
    exact ⟨hc.retained, hc.pending, fun d hd => hc.caughtUp d (List.mem_filter.1 hd).1⟩

theorem current_of_run {τ : List (Action × Unit)} (h : machine.Run Orderly τ g) :
    Wired g ∧ Current g :=
  h.inv (I := fun _ g => Wired g ∧ Current g) ⟨wired_new, current_new⟩
    fun hi hok hs => ⟨hi.1.step hs, hi.2.step hi.1 hok hs⟩

/-- **The late-joiner law**, in every run whose deliveries take their turn and
whose joiners accept what is retained: once all calls have finished, a consumer
whose filter accepts some event of a state topic it matches has received the last
such event of the topic, and nothing of the topic after it. -/
theorem last_received_is_last_written {τ : List (Action × Unit)} (h : machine.Run Orderly τ g)
    (hdone : g.dispatching = [] ∧ g.registering = []) :
    ∀ c ∈ g.consumers, ∀ topic, isStateTopic topic = true → c.matches topic = true →
      ∀ e, (acceptedBy g c topic).getLast? = some e →
        (receivedOn g c topic).getLast? = some e := by
  intro c hc topic hs hmatch e he
  rcases (current_of_run h).2.caughtUp c hc topic hs hmatch with ⟨e', he', -⟩ | hlast
  · rw [hdone.1] at he'
    cases he'
  · rw [hlast, he]

/-- A consumer of user 1000, and what the battery of the machine was seen to do. -/
def shell : ConsumerEntry := ⟨"desktop-shell", ["power.*"], .exact 1000, 0⟩

def onBattery : Event := ⟨"1", "power.state", 1, [0], 1000⟩

def onMains : Event := ⟨"2", "power.state", 2, [1], 1000⟩

/-- The event was written and delivered before the shell joined. -/
def joined : Registry :=
  { new with
    consumers := [shell]
    retained := [("power.state", onBattery)]
    channels := replay shell [onBattery] fun _ => .new
    nextSender := 1
    connections := [shell]
    written := [onBattery] }

theorem last_received_is_last_written_joined :
    (∃ τ, machine.Run Orderly τ joined) ∧
      (receivedOn joined shell "power.state").getLast? = some onBattery := by
  have hrun : machine.Run Orderly [(.dispatch onBattery, ()), (.deliver 0, ()),
      (.register "desktop-shell" ["power.*"] (.exact 1000) 1000, ()), (.enrol 0 [onBattery], ())]
      joined := by
    have hfirst : ∀ g : Registry, g.consumers = [] → Orderly g (.deliver 0) := by
      intro g hg
      exact ⟨by simp [Room, hg], fun _ _ j _ _ _ _ => Nat.zero_le j, trivial⟩
    have hjoin : ∀ g : Registry, g.registering = [shell] →
        g.retained = [("power.state", onBattery)] → Orderly g (.enrol 0 [onBattery]) := by
      intro g hg hr
      refine ⟨by simp [Room, consumerBuffer], trivial, fun c e hc he _ => .inl ?_⟩
      simp only [hg, hr, List.getElem?_cons_zero, Option.some.injEq, List.map_cons, List.map_nil,
        List.mem_singleton] at hc he
      subst hc he
      rfl
    have hdispatch : ∀ g e, Orderly g (.dispatch e) := fun _ _ => ⟨trivial, trivial, trivial⟩
    have hregister : ∀ g id subs claimed uid, Orderly g (.register id subs claimed uid) :=
      fun _ _ _ _ _ => ⟨trivial, trivial, trivial⟩
    exact .step (.step (.step (.step .start (hdispatch _ _) rfl) (hfirst _ rfl) rfl)
      (hregister _ _ _ _ _) rfl) (hjoin _ rfl rfl) rfl
  exact ⟨⟨_, hrun⟩, last_received_is_last_written hrun ⟨rfl, rfl⟩ shell
    (List.mem_singleton_self _) "power.state" (by decide) (by decide) onBattery rfl⟩

instance (g : Registry) (a : Action) : Decidable (Room g a) :=
  match a with
  | .deliver _ => inferInstanceAs
      (Decidable (∀ c ∈ g.consumers, (g.channels c.sender).queue.length < consumerBuffer))
  | .enrol _ values => inferInstanceAs (Decidable (values.length ≤ consumerBuffer))
  | .dispatch _ | .register _ _ _ _ | .recv _ | .leave _ => .isTrue trivial

/-- Two producers write in one order and deliver in the other. -/
def overtaking : List Action :=
  [.register "desktop-shell" ["power.*"] (.exact 1000) 1000, .enrol 0 [], .dispatch onBattery,
    .dispatch onMains, .deliver 1, .deliver 0]

def overtaken : Registry :=
  { new with
    consumers := [shell]
    retained := [("power.state", onMains)]
    channels := deliverTo [shell] onBattery (deliverTo [shell] onMains fun _ => .new)
    nextSender := 1
    connections := [shell]
    written := [onBattery, onMains] }

/-- With one user and room in every buffer, the older snapshot can come last. -/
theorem stale_state_delivered_last :
    ¬ ∀ (τ : List (Action × Unit)) (g : Registry), machine.Run Room τ g →
      g.dispatching = [] ∧ g.registering = [] →
        ∀ c ∈ g.consumers, ∀ topic, isStateTopic topic = true → c.matches topic = true →
          ∀ e, (acceptedBy g c topic).getLast? = some e →
            (receivedOn g c topic).getLast? = some e := by
  intro h
  have he : machine.exec Room machine.init overtaking =
      some (overtaking.map (·, ()), overtaken) := rfl
  have hlast := h _ _ (Machine.run_of_exec he) ⟨rfl, rfl⟩ shell (List.mem_singleton_self _)
    "power.state" (by decide) (by decide) onMains rfl
  have hstale : (receivedOn overtaken shell "power.state").getLast? = some onBattery := rfl
  rw [hstale] at hlast
  exact absurd (Option.some.inj hlast) (by decide)

end Arlen.Bus.Registry
