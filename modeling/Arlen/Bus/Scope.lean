import Arlen.Bus.Consumer
import Mathlib.Algebra.Order.BigOperators.Group.List
import Mathlib.Algebra.GroupWithZero.Nat
import Mathlib.Algebra.Order.Group.Nat

/-!
# The subscribe scope

A profile's `[event_bus].subscribe` list authorises a requested pattern by
matching the pattern itself against the list (`pattern_matches` of
`sdk/permissions`, applied by `permitted_subscriptions` of the socket handler);
the registry then reads the pattern by its own rule (`selects`). The two rules
part on one spelling: a declared `p.*` admits the request `p.`, and `p.` is read
without its dot.
-/

namespace Arlen.Bus

open Arlen.Lib

/-- Whether any pattern matches the value; `"com.app.*"` matches what continues
`com.app` with a dot. -/
def patternMatches (patterns : List String) (value : String) : Bool :=
  patterns.any fun p =>
    match stripSuffix p ".*" with
    | some pre => startsWith value pre && startsWith (dropPrefix value pre) "."
    | none => p = value

structure EventBusPermissions where
  subscribe : Option (List String)

def EventBusPermissions.canSubscribe (perms : EventBusPermissions) (eventType : String) : Bool :=
  perms.subscribe.any (patternMatches · eventType)

def permittedSubscriptions (requested : List String) (scope : Option EventBusPermissions)
    (enforce : Bool) : List String :=
  if !enforce then requested
  else requested.filter fun t => scope.any (·.canSubscribe t)

/-- The patterns a consumer keeps under enforcement when it declares `subscribe`. -/
def heldTo (subscribe requested : List String) : List String :=
  permittedSubscriptions requested (some ⟨some subscribe⟩) true

/-- What a declared list says its owner may hear: a type it names, one that
continues a declared `p.*`, or everything. -/
def Declares (subscribe : List String) (t : String) : Prop :=
  t ∈ subscribe ∨ (∃ p more, p ++ ".*" ∈ subscribe ∧ t = p ++ ("." ++ more)) ∨ "*" ∈ subscribe

variable {S R : List String} {p q r t : String}

theorem patternMatches_iff : patternMatches S t = true ↔
    (∃ p more, p ++ ".*" ∈ S ∧ t = p ++ ("." ++ more)) ∨ t ∈ S ∧ ∀ p, t ≠ p ++ ".*" := by
  unfold patternMatches
  rw [List.any_eq_true]
  constructor
  · rintro ⟨d, hd, hm⟩
    split at hm
    · next pre hpre =>
      obtain rfl := stripSuffix_eq_some.1 hpre
      obtain ⟨more, rfl⟩ := startsWith_dropPrefix_iff.1 hm
      exact .inl ⟨pre, more, hd, rfl⟩
    · next hnone =>
      obtain rfl := of_decide_eq_true hm
      exact .inr ⟨hd, stripSuffix_eq_none.1 hnone⟩
  · rintro (⟨p, more, hp, rfl⟩ | ⟨ht, hne⟩)
    · refine ⟨_, hp, ?_⟩
      rw [stripSuffix_append]
      exact startsWith_dropPrefix_iff.2 ⟨more, rfl⟩
    · refine ⟨t, ht, ?_⟩
      rw [stripSuffix_eq_none.2 hne]
      exact decide_eq_true rfl

theorem mem_heldTo : r ∈ heldTo S R ↔ r ∈ R ∧ patternMatches S r = true := by
  simp [heldTo, permittedSubscriptions, EventBusPermissions.canSubscribe]

theorem starts_dot {rest : String} (y m : String) (hy : "." ++ rest = y ++ ".*") :
    ∃ more, p ++ y ++ ("." ++ m) = p ++ ("." ++ more) := by
  have hl := congrArg String.toList hy
  rw [String.toList_append, String.toList_append] at hl
  cases hc : y.toList with
  | nil =>
    obtain rfl : y = "" := String.toList_injective hc
    exact ⟨m, by simp⟩
  | cons c cs =>
    have hdot : (".").toList = ['.'] := rfl
    rw [hc, hdot] at hl
    obtain ⟨rfl, -⟩ := List.cons.inj hl
    obtain rfl : y = "." ++ String.ofList cs := by
      refine String.toList_injective ?_
      simp [hc]
    exact ⟨String.ofList cs ++ ("." ++ m), by simp only [String.append_assoc]⟩

/-- A request that goes on behind the dot of a declared `p.*` stays behind it. -/
theorem selects_behind_dot {rest : String} (hne : rest ≠ "")
    (h : selects (p ++ ("." ++ rest)) t = true) : ∃ more, t = p ++ ("." ++ more) := by
  have hpos : 0 < rest.length := by
    rw [Nat.pos_iff_ne_zero]
    exact fun h0 => hne (String.length_eq_zero_iff.1 h0)
  have hlen : ("." ++ rest).length = 1 + rest.length := String.length_append _ _
  by_cases hwild : ∃ x, p ++ ("." ++ rest) = x ++ ".*"
  · obtain ⟨x, hx⟩ := hwild
    rw [hx] at h
    obtain ⟨m, rfl⟩ := selects_star.1 h
    have hle : (".*" : String).length ≤ ("." ++ rest).length := by
      rw [hlen]
      change 2 ≤ _
      omega
    obtain ⟨y, rfl, hy⟩ := append_eq_append_of_le hx hle
    exact starts_dot y m hy
  by_cases hdot : ∃ x, p ++ ("." ++ rest) = x ++ "."
  · obtain ⟨x, hx⟩ := hdot
    rw [hx] at h
    obtain ⟨m, rfl⟩ := selects_dot.1 h
    rw [← String.append_assoc] at hx
    obtain ⟨y, rfl, hy⟩ := append_eq_append_of_le hx hpos
    exact ⟨y ++ m, by simp only [String.append_assoc]⟩
  · have hstar : p ++ ("." ++ rest) ≠ "*" := by
      intro hs
      have := congrArg String.length hs
      rw [String.length_append, hlen] at this
      change _ = 1 at this
      omega
    exact ⟨rest, ((selects_plain hstar (not_exists.1 hwild) (not_exists.1 hdot)).1 h).symm⟩

/-- The one declared spelling the two rules read apart: a request `p.` that a
declared `p.*` (or `p.` itself) lets through, with no wider `q.*` around it. -/
def Undotted (S R : List String) (p : String) : Prop :=
  p ++ "." ∈ R ∧ (p ++ ".*" ∈ S ∨ p ++ "." ∈ S) ∧
    ∀ q, q ++ ".*" ∈ S → ∀ more, p ≠ q ++ ("." ++ more)

theorem declares_of_selects (hstar : "*" ∉ S) (hcov : ∀ p, ¬ Undotted S R p)
    (hr : r ∈ heldTo S R) (ht : selects r t = true) : Declares S t := by
  obtain ⟨hreq, hm⟩ := mem_heldTo.1 hr
  -- a request `p.` let through by the list is covered by a wider wildcard
  have hdotted : ∀ p, p ++ "." ∈ R → (p ++ ".*" ∈ S ∨ p ++ "." ∈ S) →
      selects (p ++ ".") t = true → Declares S t := by
    intro p hp hS hsel
    obtain ⟨more, rfl⟩ := selects_dot.1 hsel
    have hex : ∃ q, q ++ ".*" ∈ S ∧ ∃ m, p = q ++ ("." ++ m) := by
      by_contra hno
      refine hcov p ⟨hp, hS, fun q hq m heq => hno ⟨q, hq, m, heq⟩⟩
    obtain ⟨q, hq, m, rfl⟩ := hex
    exact .inr (.inl ⟨q, m ++ more, hq, by simp only [String.append_assoc]⟩)
  rcases patternMatches_iff.1 hm with ⟨p, rest, hp, rfl⟩ | ⟨hmem, hwild⟩
  · by_cases hrest : rest = ""
    · subst hrest
      rw [String.append_empty] at hreq ht
      exact hdotted p hreq (.inl hp) ht
    · obtain ⟨more, rfl⟩ := selects_behind_dot hrest ht
      exact .inr (.inl ⟨p, more, hp, rfl⟩)
  · by_cases hdot : ∃ p, r = p ++ "."
    · obtain ⟨p, rfl⟩ := hdot
      exact hdotted p hreq (.inr hmem) ht
    · have hne : r ≠ "*" := fun h => hstar (h ▸ hmem)
      obtain rfl := (selects_plain hne hwild (not_exists.1 hdot)).1 ht
      exact .inl hmem

/-- Beyond everything declared: `p` followed by more letters than the list has. -/
def neighbour (S : List String) (p : String) : String :=
  p ++ String.ofList (List.replicate ((S.map String.length).sum + 1) 'x')

theorem neighbour_not_declared (hstar : "*" ∉ S)
    (hcov : ∀ q, q ++ ".*" ∈ S → ∀ more, p ≠ q ++ ("." ++ more)) :
    ¬ Declares S (neighbour S p) := by
  rintro (hmem | ⟨q, more, hq, heq⟩ | h)
  · have hle := List.le_sum_of_mem (List.mem_map_of_mem (f := String.length) hmem)
    simp only [neighbour, String.length_append, String.length_ofList, List.length_replicate] at hle
    omega
  · have hl := congrArg String.toList heq
    have hdot : (".").toList = ['.'] := rfl
    simp only [neighbour, String.toList_append, String.toList_ofList, hdot,
      List.singleton_append] at hl
    rcases List.append_eq_append_iff.1 hl with ⟨m, hqm, hx⟩ | ⟨m, hpm, hx⟩
    · -- the dot would stand among the letters
      have hmem : '.' ∈ List.replicate ((S.map String.length).sum + 1) 'x' := by
        rw [hx]
        simp
      have := List.eq_of_mem_replicate hmem
      exact absurd this (by decide)
    · cases m with
      | nil =>
        have hhead := congrArg List.head? hx
        simp [List.replicate_succ] at hhead
      | cons c cs =>
        obtain ⟨rfl, -⟩ := List.cons.inj hx
        refine hcov q hq (String.ofList cs) (String.toList_injective ?_)
        simp [hpm]
  · exact hstar h

/-- **What a consumer hears under enforcement.** It never hears outside its
declared scope exactly when no request `p.` slips through on a declared `p.*`;
and the two spellings of a wildcard agree on an event type unless it begins with
the prefix and has no dot behind it. -/
theorem heard_within_scope_iff (S R : List String) :
    ((∀ c : ConsumerEntry, c.subscribedTypes = permittedSubscriptions R (some ⟨some S⟩) true →
        ∀ t, c.matches t = true → Declares S t) ↔ "*" ∈ S ∨ ∀ p, ¬ Undotted S R p) ∧
      ∀ p t, selects (p ++ ".") t = selects (p ++ ".*") t ↔
        (startsWith t p = true → startsWith t (p ++ ".") = true) := by
  refine ⟨⟨fun hheard => ?_, fun hcond c hc t hm => ?_⟩, fun p t => ?_⟩
  · by_contra hcond
    obtain ⟨hstar, hno⟩ := not_or.1 hcond
    obtain ⟨p, hp⟩ := not_forall_not.1 hno
    have hheld : p ++ "." ∈ heldTo S R := by
      refine mem_heldTo.2 ⟨hp.1, patternMatches_iff.2 ?_⟩
      rcases hp.2.1 with h | h
      · exact .inl ⟨p, "", h, by rw [String.append_empty]⟩
      · exact .inr ⟨h, append_ne_of_last rfl rfl (by decide)⟩
    refine neighbour_not_declared hstar hp.2.2
      (hheard ⟨"", heldTo S R, .all, 0⟩ rfl (neighbour S p) ?_)
    exact List.any_eq_true.2 ⟨_, hheld, selects_dot.2 ⟨_, rfl⟩⟩
  · obtain ⟨r, hr, ht⟩ := List.any_eq_true.1 hm
    rcases hcond with hstar | hcov
    · exact .inr (.inr hstar)
    by_cases hstar : "*" ∈ S
    · exact .inr (.inr hstar)
    · rw [hc] at hr
      exact declares_of_selects hstar hcov hr ht
  · have hdot : startsWith t (p ++ ".") = true ↔ ∃ more, t = p ++ ("." ++ more) := by
      simp only [startsWith_iff, String.append_assoc]
    rw [Bool.eq_iff_iff, selects_dot, selects_star, startsWith_iff, hdot]
    constructor
    · exact fun h => h.1
    · exact fun h => ⟨h, fun ⟨more, hmore⟩ => ⟨_, hmore⟩⟩

/-- A consumer that declares `file.*` and asks for `file.` hears the neighbouring
namespace `filesystem`. -/
theorem dotted_request_hears_neighbour :
    ¬ ∀ (S R : List String) (c : ConsumerEntry),
      c.subscribedTypes = permittedSubscriptions R (some ⟨some S⟩) true →
        ∀ t, c.matches t = true → Declares S t := by
  intro h
  have hd := h ["file.*"] ["file."] ⟨"app", ["file."], .all, 0⟩ (by decide) "filesystem.mounted"
    (by decide)
  rcases hd with h | ⟨p, more, hp, heq⟩ | h
  · exact absurd h (by decide)
  · obtain rfl : p = "file" := (String.append_left_inj ".*").1 (List.mem_singleton.1 hp)
    have hs : startsWith "filesystem.mounted" ("file" ++ ".") = true :=
      startsWith_iff.2 ⟨more, by rw [heq, String.append_assoc]⟩
    exact absurd hs (by decide)
  · exact absurd h (by decide)

end Arlen.Bus
