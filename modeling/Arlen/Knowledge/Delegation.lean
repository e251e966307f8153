import Arlen.Lib.Dotted

/-!
# Delegated namespaces

The namespace grants of `daemons/knowledge/src/write/namespace_grant.rs`: a token carries
the declared namespaces that no installed app owns, and a write is admitted when its type
lies strictly under one that is well formed and not reserved. Reserved names, installed
apps and delegations are all told apart at the dots.
-/

namespace Arlen.Knowledge

open Arlen.Lib

def reservedNamespaces : List String := ["system", "shared"]

/-- `is_dotted_ancestor_or_self`. -/
def isDottedAncestorOrSelf (anc desc : String) : Bool :=
  anc = desc || (stripPrefix desc anc).any (startsWith · ".")

def isReserved (ns : String) : Bool :=
  reservedNamespaces.any fun r => ns = r || (stripPrefix ns r).any (startsWith · ".")

def isValidNamespace (ns : String) : Bool :=
  if ns = "" then false
  else (ns.toList.splitOn '.').all fun seg =>
    seg ≠ [] && seg.all fun c => c.isLower || c.isDigit || c = '-'

/-- A grant, which only a valid namespace that is not reserved has. -/
structure NamespaceGrant where
  pre : String
  valid : isValidNamespace pre = true
  unreserved : isReserved pre = false
deriving DecidableEq, Repr

namespace NamespaceGrant

def new (pre : String) : Option NamespaceGrant :=
  if h : isValidNamespace pre = true ∧ isReserved pre = false then some ⟨pre, h.1, h.2⟩ else none

/-- A dot, then a segment that begins with a letter or a digit. -/
def permits (g : NamespaceGrant) (entityType : String) : Bool :=
  match stripPrefix entityType g.pre with
  | some rest => rest.toList.head? = some '.' && rest.toList[1]?.any Char.isAlphanum
  | none => false

end NamespaceGrant

def permitsAny (delegated : List String) (entityType : String) : Bool :=
  delegated.any fun ns => (NamespaceGrant.new ns).any (·.permits entityType)

def delegationIsOwned (ns : String) (installedAppIds : List String) : Bool :=
  installedAppIds.any fun app => isDottedAncestorOrSelf ns app || isDottedAncestorOrSelf app ns

def unownedDelegations (delegated installedAppIds : List String) : List String :=
  delegated.filter fun ns => !delegationIsOwned ns installedAppIds

/-! ## The three relations -/

variable {ns t app anc desc d : String} {declared installed : List String} {g : NamespaceGrant}

theorem any_startsWith_dot :
    (stripPrefix desc anc).any (startsWith · ".") = true ↔ Under anc desc := by
  rw [Option.any_eq_true]
  simp only [stripPrefix_eq_some, startsWith_iff]
  constructor
  · rintro ⟨_, rfl, r, rfl⟩
    exact ⟨r, rfl⟩
  · rintro ⟨r, rfl⟩
    exact ⟨_, rfl, r, rfl⟩

theorem isDottedAncestorOrSelf_iff :
    isDottedAncestorOrSelf anc desc = true ↔ anc = desc ∨ Under anc desc := by
  unfold isDottedAncestorOrSelf
  rw [Bool.or_eq_true, decide_eq_true_iff, any_startsWith_dot]

/-- A namespace is reserved as the apps' are owned: at or under a reserved one. -/
theorem isReserved_iff : isReserved ns = true ↔ ∃ r ∈ reservedNamespaces, r = ns ∨ Under r ns := by
  unfold isReserved
  rw [List.any_eq_true]
  simp only [Bool.or_eq_true, decide_eq_true_iff, any_startsWith_dot, @eq_comm _ ns]

theorem not_owned_iff : delegationIsOwned ns installed = false ↔
    ∀ app ∈ installed, ¬ (ns = app ∨ Under ns app) ∧ ¬ (app = ns ∨ Under app ns) := by
  unfold delegationIsOwned
  rw [List.any_eq_false]
  simp only [Bool.or_eq_true, isDottedAncestorOrSelf_iff, not_or]

theorem mem_unownedDelegations : d ∈ unownedDelegations declared installed ↔
    d ∈ declared ∧ delegationIsOwned d installed = false := by
  unfold unownedDelegations
  rw [List.mem_filter, Bool.not_eq_true']

theorem NamespaceGrant.new_eq_some (h : NamespaceGrant.new ns = some g) :
    g.pre = ns ∧ isValidNamespace ns = true ∧ isReserved ns = false := by
  unfold NamespaceGrant.new at h
  split at h
  · next hns =>
    cases h
    exact ⟨rfl, hns⟩
  · cases h

/-- What a grant permits lies strictly under it. -/
theorem NamespaceGrant.under_of_permits (h : g.permits t = true) : Under g.pre t := by
  unfold NamespaceGrant.permits at h
  split at h
  · next rest hrest =>
    obtain rfl := stripPrefix_eq_some.1 hrest
    obtain ⟨hdot, -⟩ := Bool.and_eq_true_iff.1 h
    obtain ⟨cs, hcs⟩ := List.head?_eq_some_iff.1 (of_decide_eq_true hdot)
    refine ⟨String.ofList cs, congrArg (g.pre ++ ·) (String.toList_injective ?_)⟩
    have hdot : ".".toList = ['.'] := rfl
    rw [hcs, String.toList_append, hdot, String.toList_ofList, List.singleton_append]
  · cases h

/-- The delegation admits the type. -/
def Admits (d t : String) : Prop := (NamespaceGrant.new d).any (·.permits t) = true

theorem Admits.under (h : Admits d t) : isReserved d = false ∧ Under d t := by
  obtain ⟨g, hg, hpermits⟩ := (Option.any_eq_true _ _).1 h
  obtain ⟨rfl, -, hres⟩ := NamespaceGrant.new_eq_some hg
  exact ⟨hres, NamespaceGrant.under_of_permits hpermits⟩

theorem permitsAny_iff {delegated : List String} :
    permitsAny delegated t = true ↔ ∃ d ∈ delegated, Admits d t := List.any_eq_true

/-! ## No delegation crosses a namespace -/

/-- What a delegation that is not reserved admits lies under no reserved namespace. -/
theorem not_reserved_of_admits (h : Admits d t) :
    ¬ ∃ r ∈ reservedNamespaces, r = t ∨ Under r t := by
  rintro ⟨r, hr, hrt⟩
  obtain ⟨hres, hunder⟩ := h.under
  have hdotless : ∀ r ∈ reservedNamespaces, (segments r).length = 1 := by decide
  refine absurd (isReserved_iff.2 ⟨r, hr, ?_⟩) (by rw [hres]; exact Bool.false_ne_true)
  rcases above_or_above hrt (.inr hunder) with h | h
  · exact h
  · -- a reserved name has one segment, so nothing but itself is above it
    rcases h with rfl | ⟨s, hs⟩
    · exact .inl rfl
    · have hlen := hdotless r hr
      have hd := List.length_pos_iff.2 (segments_ne_nil d)
      have hs' := List.length_pos_iff.2 (segments_ne_nil s)
      rw [hs, segments_append, List.length_append] at hlen
      omega

/-- What a delegation that no app owns admits is no app's. -/
theorem not_owned_of_admits (hown : delegationIsOwned d installed = false) (h : Admits d t)
    (happ : app ∈ installed) : ¬ (app = t ∨ Under app t) := by
  intro hat
  obtain ⟨hnot, hnot'⟩ := not_owned_iff.1 hown app happ
  rcases above_or_above hat (.inr h.under.2) with h | h
  · exact hnot' h
  · exact hnot h

theorem owned_mono {installed' : List String} (hsub : installed ⊆ installed')
    (h : delegationIsOwned d installed' = false) : delegationIsOwned d installed = false :=
  not_owned_iff.2 fun app happ => not_owned_iff.1 h app (hsub happ)

/-- An admitted type is under no reserved namespace and not an installed app's, and no
installed app lies under what admitted it; a further app admits no further type. -/
theorem delegation_crosses_nothing (declared installed : List String) (t : String)
    (h : permitsAny (unownedDelegations declared installed) t = true) :
    (¬ Under "system" t ∧ ¬ Under "shared" t) ∧
      (∀ app ∈ installed, app ≠ t ∧ ¬ Under app t) ∧
      (∃ d ∈ declared, Admits d t ∧ Under d t) ∧
      (∀ d ∈ unownedDelegations declared installed, Admits d t →
        ∀ app ∈ installed, ¬ Under d app) ∧
      ∀ installed', installed' ⊆ installed →
        permitsAny (unownedDelegations declared installed') t = true := by
  obtain ⟨d, hd, hadmits⟩ := permitsAny_iff.1 h
  obtain ⟨hdecl, hown⟩ := mem_unownedDelegations.1 hd
  have hres := not_reserved_of_admits hadmits
  refine ⟨⟨fun hs => hres ⟨"system", by decide, .inr hs⟩,
    fun hs => hres ⟨"shared", by decide, .inr hs⟩⟩, ?_, ⟨d, hdecl, hadmits, hadmits.under.2⟩, ?_, ?_⟩
  · intro app happ
    exact not_or.1 (not_owned_of_admits hown hadmits happ)
  · intro d' hd' _ app happ hunder
    exact (not_owned_iff.1 (mem_unownedDelegations.1 hd').2 app happ).1 (.inr hunder)
  · intro installed' hsub
    exact permitsAny_iff.2 ⟨d, mem_unownedDelegations.2 ⟨hdecl, owned_mono hsub hown⟩, hadmits⟩

theorem delegation_crosses_nothing_obsidian :
    (¬ Under "system" "md.obsidian.Note" ∧ ¬ Under "shared" "md.obsidian.Note") ∧
      (∀ app ∈ ["md.obsidianvault"], app ≠ "md.obsidian.Note" ∧ ¬ Under app "md.obsidian.Note") ∧
      (∃ d ∈ ["system", "md.obsidian"], Admits d "md.obsidian.Note" ∧ Under d "md.obsidian.Note") ∧
      (∀ d ∈ unownedDelegations ["system", "md.obsidian"] ["md.obsidianvault"],
        Admits d "md.obsidian.Note" → ∀ app ∈ ["md.obsidianvault"], ¬ Under d app) ∧
      ∀ installed', installed' ⊆ ["md.obsidianvault"] →
        permitsAny (unownedDelegations ["system", "md.obsidian"] installed') "md.obsidian.Note" =
          true :=
  delegation_crosses_nothing ["system", "md.obsidian"] ["md.obsidianvault"] "md.obsidian.Note"
    (by decide)

end Arlen.Knowledge
