import Mathlib.Data.List.Destutter
import Mathlib.Data.String.Basic
import Arlen.Lib.Case
import Arlen.Lib.Sort
import Arlen.Lib.Str
import Arlen.Lib.Text

/-!
# Network reach

`NetworkPermissions` of `sdk/permissions/src/lib.rs`: the check of a domain
against the allowlist, and the reach that is shown for it. The check compares
the entries as they stand, in lower case; what is shown is trimmed, and without
the blank entries, sorted and joined with commas. The two agree on every domain
exactly when they agree on the entries themselves.
-/

namespace Arlen.Permissions

open Arlen.Lib

structure NetworkPermissions where
  allowAll : Bool
  allowedDomains : List String

namespace NetworkPermissions

variable (T : CaseTables) (n : NetworkPermissions)

def isDomainAllowed (domain : String) : Bool :=
  if n.allowAll then true
  else
    let domainLower := T.toLowercase domain
    n.allowedDomains.any fun allowed =>
      let allowedLower := T.toLowercase allowed
      domainLower == allowedLower || endsWith domainLower ("." ++ allowedLower)

/-- The entries as they are shown: trimmed, in lower case, and none of them empty. -/
def shown : List String :=
  (n.allowedDomains.map fun d => T.toLowercase (String.ofList (Text.trim d.toList))).filter
    (· ≠ "")

def reachSummary : Option String :=
  if n.allowAll then some "all"
  else
    let domains := (sortBy id (n.shown T)).destutter (· ≠ ·)
    if domains = [] then none else some (String.intercalate "," domains)

/-- The domains a summary lists. -/
def listed (summary : String) : List String := (summary.toList.splitOn ',').map String.ofList

/-- Ignoring case, the name equals the domain or is a dot-separated suffix of it. -/
def Covers (name domain : String) : Prop :=
  T.toLowercase domain = T.toLowercase name ∨
    ∃ front, T.toLowercase domain = front ++ ("." ++ T.toLowercase name)

/-- A domain that is allowed is within the reach that is shown. -/
def WithinReach (domain : String) : Prop :=
  n.isDomainAllowed T domain = true → n.reachSummary T = some "all" ∨
    ∃ summary ∈ n.reachSummary T, ∃ name ∈ listed summary, Covers T name domain

/-- Everything is allowed, or nothing but `all` is shown, or every entry is covered by a
piece, between commas, of an entry as it is shown. -/
def EntriesShown : Prop :=
  n.allowAll = true ∨ (n.shown T ≠ [] ∧ ∀ d ∈ n.shown T, d = "all") ∨
    ∀ entry ∈ n.allowedDomains, ∃ d ∈ n.shown T, ∃ name ∈ listed d, Covers T name entry

variable {T n}

theorem isDomainAllowed_iff {domain : String} (h : n.allowAll = false) :
    n.isDomainAllowed T domain = true ↔ ∃ entry ∈ n.allowedDomains, Covers T entry domain := by
  unfold isDomainAllowed
  rw [h, if_neg Bool.false_ne_true]
  dsimp only
  rw [List.any_eq_true]
  refine exists_congr fun entry => and_congr_right fun _ => ?_
  rw [Bool.or_eq_true, beq_iff_eq, endsWith_iff, Covers]

theorem Covers.refl (name : String) : Covers T name name := .inl rfl

/-- A suffix of a suffix is a suffix. -/
theorem Covers.trans {name entry domain : String} (h : Covers T name entry)
    (h' : Covers T entry domain) : Covers T name domain := by
  obtain heq | ⟨front, hfront⟩ := h
  · unfold Covers at h' ⊢
    rwa [heq] at h'
  · obtain heq' | ⟨front', hfront'⟩ := h'
    · exact .inr ⟨front, heq'.trans hfront⟩
    · refine .inr ⟨front' ++ ("." ++ front), ?_⟩
      rw [hfront', hfront]
      simp only [String.append_assoc]

/-! ### What is listed -/

theorem domains_eq_dedup :
    (sortBy id (n.shown T)).destutter (· ≠ ·) = (sortBy id (n.shown T)).dedup := by
  have hsort : (sortBy id (n.shown T)).Pairwise (· ≤ ·) := pairwise_sortBy id _
  exact hsort.destutter_eq_dedup

theorem mem_domains {d : String} :
    d ∈ (sortBy id (n.shown T)).destutter (· ≠ ·) ↔ d ∈ n.shown T := by
  rw [domains_eq_dedup, List.mem_dedup, (sortBy_perm id _).mem_iff]

theorem listed_append (d e : String) : listed (d ++ "," ++ e) = listed d ++ listed e := by
  have hcut : (d ++ "," ++ e).toList = d.toList ++ ',' :: e.toList := by simp
  rw [listed, hcut, List.splitOn_append_cons_self, List.map_append]
  rfl

/-- A joined list names what its members name. -/
theorem listed_intercalate {ds : List String} (h : ds ≠ []) :
    listed (String.intercalate "," ds) = ds.flatMap listed := by
  induction ds with
  | nil => exact absurd rfl h
  | cons d rest ih =>
    cases rest with
    | nil => simp
    | cons e rest =>
      rw [String.intercalate_cons_cons, listed_append, ih (List.cons_ne_nil e rest)]
      rfl

theorem mem_listed_reachSummary {name : String} (h : n.allowAll = false) :
    (∃ summary ∈ n.reachSummary T, name ∈ listed summary) ↔ ∃ d ∈ n.shown T, name ∈ listed d := by
  unfold reachSummary
  rw [h, if_neg Bool.false_ne_true]
  dsimp only
  split
  case isTrue hnil =>
    have hnone : n.shown T = [] := by
      refine List.eq_nil_iff_forall_not_mem.mpr fun d hd => ?_
      rw [← mem_domains, hnil] at hd
      cases hd
    rw [hnone]
    simp
  case isFalse hne =>
    constructor
    · rintro ⟨summary, hsummary, hname⟩
      cases hsummary
      rw [listed_intercalate hne, List.mem_flatMap] at hname
      obtain ⟨d, hd, hname⟩ := hname
      exact ⟨d, mem_domains.mp hd, hname⟩
    · rintro ⟨d, hd, hname⟩
      refine ⟨_, rfl, ?_⟩
      rw [listed_intercalate hne, List.mem_flatMap]
      exact ⟨d, mem_domains.mpr hd, hname⟩

theorem domains_eq_nil_iff :
    (sortBy id (n.shown T)).destutter (· ≠ ·) = [] ↔ n.shown T = [] := by
  simp only [List.eq_nil_iff_forall_not_mem, mem_domains]

/-- A name without commas is a list of itself. -/
theorem eq_of_listed_eq {d name : String} (h : listed d = [name]) : d = name := by
  have hpieces : d.toList.splitOn ',' = [name.toList] := by
    have hmap := congrArg (List.map String.toList) h
    simpa [listed, Function.comp_def] using hmap
  refine String.toList_injective ?_
  calc d.toList = [','].intercalate (d.toList.splitOn ',') := (List.intercalate_splitOn ',').symm
    _ = name.toList := by rw [hpieces, List.intercalate_singleton]

theorem listed_ne_nil (d : String) : listed d ≠ [] :=
  mt List.map_eq_nil_iff.mp (List.splitOn_ne_nil _ _)

/-- Only a list of one name lists one name. -/
theorem eq_singleton_of_flatMap_listed {ds : List String} {name : String}
    (h : ds.flatMap listed = [name]) : ds = [name] := by
  cases ds with
  | nil => cases h
  | cons d rest =>
    obtain ⟨x, xs, hd⟩ := List.exists_cons_of_ne_nil (listed_ne_nil d)
    rw [List.flatMap_cons, hd, List.cons_append, List.cons.injEq, List.append_eq_nil_iff] at h
    obtain ⟨rfl, rfl, hrest⟩ := h
    rw [eq_of_listed_eq hd]
    cases rest with
    | nil => rfl
    | cons e rest =>
      rw [List.flatMap_cons, List.append_eq_nil_iff] at hrest
      exact absurd hrest.1 (listed_ne_nil e)

/-- Names that differ and are all one name are that name. -/
theorem eq_singleton_of_nodup {ds : List String} {name : String} (hne : ds ≠ [])
    (hnodup : ds.Nodup) (h : ∀ d ∈ ds, d = name) : ds = [name] := by
  obtain ⟨d, rest, rfl⟩ := List.exists_cons_of_ne_nil hne
  obtain rfl := h d List.mem_cons_self
  cases rest with
  | nil => rfl
  | cons e rest =>
    have he := h e (List.mem_cons_of_mem _ List.mem_cons_self)
    exact absurd (he ▸ List.mem_cons_self) (List.nodup_cons.mp hnodup).1

/-- The word `all` is shown for a list of domains only when it is all it names. -/
theorem reachSummary_eq_all_iff (h : n.allowAll = false) :
    n.reachSummary T = some "all" ↔ n.shown T ≠ [] ∧ ∀ d ∈ n.shown T, d = "all" := by
  have hall : listed "all" = ["all"] := by decide
  unfold reachSummary
  rw [h, if_neg Bool.false_ne_true]
  dsimp only
  rw [if_congr domains_eq_nil_iff rfl rfl]
  split
  case isTrue hnil =>
    rw [hnil]
    simp
  case isFalse hne =>
    rw [Option.some.injEq]
    have hds : (sortBy id (n.shown T)).destutter (· ≠ ·) ≠ [] := mt domains_eq_nil_iff.mp hne
    constructor
    · intro heq
      have hlist := congrArg listed heq
      rw [listed_intercalate hds, hall] at hlist
      refine ⟨hne, fun d hd => ?_⟩
      rw [← mem_domains, eq_singleton_of_flatMap_listed hlist] at hd
      exact List.mem_singleton.mp hd
    · rintro ⟨-, heq⟩
      have hnodup : ((sortBy id (n.shown T)).destutter (· ≠ ·)).Nodup := by
        rw [domains_eq_dedup]
        exact List.nodup_dedup _
      rw [eq_singleton_of_nodup hds hnodup fun d hd => heq d (mem_domains.mp hd),
        String.intercalate_singleton]

/-- **What is allowed is shown**, for every domain, exactly when the entries are. -/
theorem withinReach_iff_entriesShown (T : CaseTables) (n : NetworkPermissions) :
    (∀ domain, WithinReach T n domain) ↔ EntriesShown T n := by
  unfold EntriesShown
  cases h : n.allowAll with
  | true =>
    refine ⟨fun _ => .inl rfl, fun _ domain _ => .inl ?_⟩
    rw [reachSummary, h, if_pos rfl]
  | false =>
    rw [← reachSummary_eq_all_iff h]
    constructor
    · intro within
      by_cases hall : n.reachSummary T = some "all"
      · exact .inr (.inl hall)
      refine .inr (.inr fun entry hentry => ?_)
      have hallowed := (isDomainAllowed_iff (T := T) h).mpr ⟨entry, hentry, Covers.refl entry⟩
      obtain hall' | ⟨summary, hsummary, name, hname, hcovers⟩ := within entry hallowed
      · exact absurd hall' hall
      · obtain ⟨d, hd, hname⟩ := (mem_listed_reachSummary h).mp ⟨summary, hsummary, hname⟩
        exact ⟨d, hd, name, hname, hcovers⟩
    · rintro (hno | hall | covered) domain hallowed
      · cases hno
      · exact .inl hall
      · obtain ⟨entry, hentry, hdomain⟩ := (isDomainAllowed_iff h).mp hallowed
        obtain ⟨d, hd, name, hname, hcovers⟩ := covered entry hentry
        obtain ⟨summary, hsummary, hname⟩ := (mem_listed_reachSummary h).mpr ⟨d, hd, hname⟩
        exact .inr ⟨summary, hsummary, name, hname, hcovers.trans hdomain⟩

/-- One empty entry allows every domain that ends with a dot, and nothing is shown. -/
theorem empty_entry_unshown :
    ¬ ∀ (n : NetworkPermissions) (domain : String), WithinReach CaseTables.ascii n domain := by
  intro claim
  have hshown : shown CaseTables.ascii ⟨false, [""]⟩ = [] := by decide
  have hnone : reachSummary CaseTables.ascii ⟨false, [""]⟩ = none :=
    if_pos (domains_eq_nil_iff.mpr hshown)
  have hallowed : isDomainAllowed CaseTables.ascii ⟨false, [""]⟩ "evil.example." = true := by
    decide
  obtain hall | ⟨summary, hsummary, -⟩ := claim ⟨false, [""]⟩ "evil.example." hallowed
  · rw [hnone] at hall
    cases hall
  · rw [hnone] at hsummary
    cases hsummary

end NetworkPermissions

end Arlen.Permissions
