import Arlen.Bus.Registry

/-!
# Open connections and their entries

A connection registers under an id it chose and unregisters that id when it
ends; `unregister` removes every entry under the id. An open connection keeps its
entry exactly as long as no other connection of the same id ends.
-/

namespace Arlen.Bus.Registry

open Arlen.Lib

/-- Every open connection has its entry in the registry. -/
def Enrolled (g : Registry) : Prop := ∀ c ∈ g.connections, c ∈ g.consumers

/-- The connection that ends is the only open one under its id. -/
def Unshared (g : Registry) : Action → Prop
  | .leave i => ∀ c d j, g.connections[i]? = some c → g.connections[j]? = some d →
      d.id = c.id → j = i
  | _ => True

variable {g g' : Registry} {a : Action} {u : Unit}

theorem Enrolled.step (he : Enrolled g) (hok : Unshared g a) (h : g.step a = some (u, g')) :
    Enrolled g' := by
  cases a with
  | dispatch e =>
    obtain ⟨-, -, rfl⟩ | ⟨-, rfl⟩ := dispatch_cases h
    · exact he
    · exact he
  | deliver i =>
    obtain ⟨e, -, rfl⟩ := deliver_cases h
    exact he
  | register id subs claimed attested =>
    cases h
    exact he
  | enrol i values =>
    obtain ⟨c, -, -, rfl⟩ := enrol_cases h
    intro d hd
    rcases List.mem_append.1 hd with hd | hd
    · exact List.mem_append_left _ (he d hd)
    · exact List.mem_append_right _ hd
  | recv k =>
    obtain ⟨ch, -, -, rfl⟩ := recv_cases h
    exact he
  | leave i =>
    obtain ⟨c, hc, rfl⟩ := leave_cases h
    intro d hd
    obtain ⟨j, hji, hj⟩ := List.mem_eraseIdx_iff_getElem?.1 hd
    have hid : d.id ≠ c.id := fun heq => hji (hok c d j hc hj heq)
    exact List.mem_filter.2 ⟨he d (List.mem_of_getElem? hj), by simpa using hid⟩

theorem enrolled_of_run {τ : List (Action × Unit)} (h : machine.Run Unshared τ g) : Enrolled g :=
  h.inv (I := fun _ g => Enrolled g) (by simp [Enrolled, machine, new])
    fun he hok hs => he.step hok hs

/-- An end that shares its id takes another connection's entry with it. -/
theorem not_enrolled_of_shared (hok : ¬ Unshared g a) (h : g.step a = some (u, g')) :
    ¬ Enrolled g' := by
  cases a with
  | leave i =>
    obtain ⟨c, hc, rfl⟩ := leave_cases h
    simp only [Unshared, not_forall] at hok
    obtain ⟨c', d, j, hc', hj, hid, hji⟩ := hok
    obtain rfl : c' = c := by simpa [hc'] using hc
    intro he
    have hd := he d (List.mem_eraseIdx_iff_getElem?.2 ⟨j, hji, hj⟩)
    exact absurd hid (by simpa using (List.mem_filter.1 hd).2)
  | dispatch _ => exact absurd trivial hok
  | deliver _ => exact absurd trivial hok
  | register _ _ _ _ => exact absurd trivial hok
  | enrol _ _ => exact absurd trivial hok
  | recv _ => exact absurd trivial hok

/-- **A disconnect ends no other subscription as long as ids are not shared.**
While no connection ends under the id of another open one, every open connection
has its entry, and an event it wants is sent to it at the next delivery; the first
end under a shared id breaks it. -/
theorem open_connection_keeps_entry {τ : List (Action × Unit)} (h : machine.Run Unshared τ g) :
    (∀ c ∈ g.connections, c ∈ g.consumers ∧
      ∀ e i g', c.wants e = true → g.dispatching[i]? = some e →
        g.step (.deliver i) = some ((), g') →
          g'.channels c.sender = (g.channels c.sender).trySend e) ∧
      ∀ a g', g.step a = some ((), g') → ¬ Unshared g a → ¬ Enrolled g' := by
  refine ⟨fun c hc => ⟨enrolled_of_run h c hc, fun e i g' hw hi hs => ?_⟩,
    fun a g' hs hno => not_enrolled_of_shared hno hs⟩
  obtain ⟨e', he', rfl⟩ := deliver_cases hs
  obtain rfl : e' = e := by simpa [he'] using hi
  change deliverTo g.consumers e' g.channels c.sender = _
  rw [deliverTo_of_mem (wired_of_run h).consumers (enrolled_of_run h c hc), if_pos hw]

def daemonEntry : ConsumerEntry := ⟨"notification-daemon", ["notification."], .exact 1000, 0⟩

def shellEntry : ConsumerEntry := ⟨"desktop-shell", ["notification."], .exact 1000, 1⟩

/-- The notification daemon and the shell, under ids of their own. -/
def daemonAndShell : Registry :=
  { new with
    consumers := [daemonEntry, shellEntry], nextSender := 2
    connections := [daemonEntry, shellEntry] }

/-- The daemon ended. -/
def shellLeft : Registry :=
  { new with consumers := [shellEntry], nextSender := 2, connections := [shellEntry] }

theorem open_connection_keeps_entry_shell : ∃ τ, machine.Run Unshared τ shellLeft ∧
    (.leave 0, ()) ∈ τ ∧ shellLeft.connections = [shellEntry] ∧ shellEntry ∈ shellLeft.consumers := by
  have hboth : machine.Run Unshared
      [(.register "notification-daemon" ["notification."] (.exact 1000) 1000, ()), (.enrol 0 [], ()),
        (.register "desktop-shell" ["notification."] (.exact 1000) 1000, ()), (.enrol 0 [], ())]
      daemonAndShell :=
    .step (.step (.step (.step .start trivial rfl) trivial rfl) trivial rfl) trivial rfl
  have hown : Unshared daemonAndShell (.leave 0) := by
    intro c d j hc hd hid
    cases hc
    match j with
    | 0 => rfl
    | 1 =>
      cases hd
      exact absurd hid (by decide)
    | j + 2 => cases hd
  have hleaves : machine.step daemonAndShell (.leave 0) = some ((), shellLeft) := rfl
  have hrun := hboth.step hown hleaves
  exact ⟨_, hrun, by simp, rfl,
    ((open_connection_keeps_entry hrun).1 shellEntry (List.mem_singleton_self _)).1⟩

/-- The notification daemons of two users register under one fixed id, and the
first one ends. -/
def twoDaemons : List Action :=
  [.register "notification-daemon" ["notification."] (.exact 1000) 1000, .enrol 0 [],
    .register "notification-daemon" ["notification."] (.exact 1001) 1001, .enrol 0 [], .leave 0]

/-- The second daemon is still open, and its entry is gone. -/
def oneLeft : Registry :=
  { new with
    nextSender := 2
    connections := [⟨"notification-daemon", ["notification."], .exact 1001, 1⟩] }

theorem disconnect_ends_other :
    ¬ ∀ (τ : List (Action × Unit)) (g : Registry), machine.Run Machine.anyStep τ g →
      ∀ c ∈ g.connections, c ∈ g.consumers := by
  intro h
  have he : machine.exec Machine.anyStep machine.init twoDaemons =
      some (twoDaemons.map (·, ()), oneLeft) := rfl
  have hc := h _ _ (Machine.run_of_exec he) _ (List.mem_singleton_self _)
  exact absurd hc List.not_mem_nil

end Arlen.Bus.Registry
