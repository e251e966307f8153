import Arlen.Lib.Str
import Mathlib.Data.List.Count
import Mathlib.Data.List.Induction
import Mathlib.Data.List.Perm.Basic
import Mathlib.Data.String.Basic

/-!
# The declared ceiling

`parse_scope_entries` (`daemons/knowledge/src/permission.rs`) turns the entries
of a profile's `[graph]` section into entity scopes: field entries are grouped by
type through a hash map, a full grant displaces the field entries of its exact
type, and types and fields are sorted. The scopes are serialised into the grant's
ceiling, and the grant history is collapsed where the ceiling string repeats.
-/

namespace Arlen.Knowledge

open Arlen.Lib

structure EntityScope where
  entityType : String
  fields : Option (List String)
  excludeFields : List String
deriving DecidableEq, Repr

/-- The hash map from types to their fields, one entry a type. -/
abbrev TypeFields := List (String × List String)

/-- The order in which a hash map yields its entries: any order. -/
structure HashOrder where
  iterate : TypeFields → TypeFields
  perm : ∀ m, (iterate m).Perm m

/-- `entry(entity_type).or_default().push(field)`. -/
def pushField : TypeFields → String → String → TypeFields
  | [], t, f => [(t, [f])]
  | (t', fs) :: rest, t, f =>
    if t' = t then (t', fs ++ [f]) :: rest else (t', fs) :: pushField rest t f

/-- The first loop: one entry into the field map or the full types. -/
def parseEntry (acc : TypeFields × List String) (entry : String) : TypeFields × List String :=
  if endsWith entry ".*" then (acc.1, acc.2 ++ [entry])
  else
    match splitn 3 '.' entry with
    | [a, b, f] => (pushField acc.1 (a ++ "." ++ b) f, acc.2)
    | [_, _] => (acc.1, acc.2 ++ [entry])
    | _ => acc

/-- The second loop: a full grant displaces the field entries of its type. -/
def grantFull (acc : TypeFields × List EntityScope) (entityType : String) :
    TypeFields × List EntityScope :=
  (acc.1.filter (·.1 ≠ entityType), acc.2 ++ [⟨entityType, none, []⟩])

def sortStrings (l : List String) : List String := l.mergeSort (· ≤ ·)

def EntityScope.sortFields (s : EntityScope) : EntityScope :=
  { s with fields := s.fields.map sortStrings, excludeFields := sortStrings s.excludeFields }

def sortByType (scopes : List EntityScope) : List EntityScope :=
  scopes.mergeSort fun a b => a.entityType ≤ b.entityType

def parseScopeEntries (order : HashOrder) (entries : List String) : List EntityScope :=
  let parsed := entries.foldl parseEntry ([], [])
  let granted := parsed.2.foldl grantFull (parsed.1, [])
  let scopes := granted.2 ++ (order.iterate granted.1).map fun m => ⟨m.1, some m.2, []⟩
  (sortByType scopes).map EntityScope.sortFields

/-! ## What one entry grants -/

inductive Grant where
  | full (entityType : String)
  | field (entityType : String) (field : String)
deriving DecidableEq, Repr

def grantOf (entry : String) : Option Grant :=
  if endsWith entry ".*" then some (.full entry)
  else
    match splitn 3 '.' entry with
    | [a, b, f] => some (.field (a ++ "." ++ b) f)
    | [_, _] => some (.full entry)
    | _ => none

def fullType (entry : String) : Bool := grantOf entry = some (.full entry)

def fieldOf (t entry : String) : Option String :=
  match grantOf entry with
  | some (.field t' f) => if t' = t then some f else none
  | _ => none

variable {entries : List String} {x t f : String}

theorem grantOf_full (h : grantOf x = some (.full t)) : t = x := by
  unfold grantOf at h
  split at h
  · exact (Grant.full.inj (Option.some.inj h)).symm
  · split at h
    · cases h
    · exact (Grant.full.inj (Option.some.inj h)).symm
    · cases h

/-- A field entry is its type, a dot and its field. -/
theorem grantOf_field (h : grantOf x = some (.field t f)) : x = t ++ ("." ++ f) := by
  unfold grantOf at h
  split at h
  · cases h
  · split at h
    · next a b f' hs =>
      obtain ⟨rfl, rfl⟩ := Grant.field.inj (Option.some.inj h)
      simp only [splitn] at hs
      split at hs
      · cases hs
      · next a' rest ha =>
        obtain ⟨rfl, -⟩ := splitOnce_eq_some.1 ha
        split at hs
        · cases hs
        · next b' rest' hb =>
          obtain ⟨rfl, -⟩ := splitOnce_eq_some.1 hb
          obtain ⟨rfl, rfl, rfl⟩ : a' = a ∧ b' = b ∧ rest' = f' := by simpa using hs
          have hdot : String.singleton '.' = "." := rfl
          simp only [hdot, String.append_assoc]
    · cases h
    · cases h

theorem parseEntry_eq (acc : TypeFields × List String) (entry : String) :
    parseEntry acc entry =
      match grantOf entry with
      | some (.full _) => (acc.1, acc.2 ++ [entry])
      | some (.field t f) => (pushField acc.1 t f, acc.2)
      | none => acc := by
  unfold parseEntry grantOf
  split
  · rfl
  · split <;> rfl

/-! ## The field map -/

/-- The field map of a list of entries: one entry a type, with the fields its
entries name, in order. -/
structure Grouped (entries : List String) (m : TypeFields) : Prop where
  nodup : (m.map (·.1)).Nodup
  fields : ∀ t fs, (t, fs) ∈ m → fs = entries.filterMap (fieldOf t)
  types : ∀ t, t ∈ m.map (·.1) ↔ entries.filterMap (fieldOf t) ≠ []

theorem mem_keys_pushField (m : TypeFields) (t f : String) {k : String} :
    k ∈ (pushField m t f).map (·.1) ↔ k = t ∨ k ∈ m.map (·.1) := by
  induction m with
  | nil => simp [pushField]
  | cons p m ih =>
    obtain ⟨t', fs⟩ := p
    unfold pushField
    split
    · next h => simp [h]
    · simp only [List.map_cons, List.mem_cons, ih]
      tauto

theorem nodup_pushField {m : TypeFields} (h : (m.map (·.1)).Nodup) (t f : String) :
    ((pushField m t f).map (·.1)).Nodup := by
  induction m with
  | nil => simp [pushField]
  | cons p m ih =>
    obtain ⟨t', fs⟩ := p
    rw [List.map_cons, List.nodup_cons] at h
    unfold pushField
    split
    · exact List.nodup_cons.2 h
    · next hne =>
      refine List.nodup_cons.2 ⟨?_, ih h.2⟩
      rw [mem_keys_pushField]
      rintro (heq | hmem)
      · exact hne heq
      · exact h.1 hmem

/-- An entry of the map after a push: the pushed one grown at its end, or another. -/
theorem mem_pushField {m : TypeFields} (h : (m.map (·.1)).Nodup) {t f k : String}
    {fs : List String} (hm : (k, fs) ∈ pushField m t f) :
    k ≠ t ∧ (k, fs) ∈ m ∨
      k = t ∧ ((∃ gs, (t, gs) ∈ m ∧ fs = gs ++ [f]) ∨ t ∉ m.map (·.1) ∧ fs = [f]) := by
  induction m with
  | nil =>
    simp only [pushField, List.mem_singleton, Prod.mk.injEq] at hm
    exact .inr ⟨hm.1, .inr ⟨by simp, hm.2⟩⟩
  | cons p m ih =>
    obtain ⟨t', gs⟩ := p
    rw [List.map_cons, List.nodup_cons] at h
    unfold pushField at hm
    split at hm
    · next heq =>
      rcases List.mem_cons.1 hm with hm | hm
      · obtain ⟨rfl, rfl⟩ := Prod.mk.inj hm
        exact .inr ⟨heq, .inl ⟨gs, by simp [heq], rfl⟩⟩
      · refine .inl ⟨?_, List.mem_cons_of_mem _ hm⟩
        intro hk
        have hmem : k ∈ m.map (·.1) := List.mem_map_of_mem (f := Prod.fst) hm
        exact h.1 (by rw [heq, ← hk]; exact hmem)
    · next hne =>
      rcases List.mem_cons.1 hm with hm | hm
      · obtain ⟨rfl, rfl⟩ := Prod.mk.inj hm
        exact .inl ⟨hne, List.mem_cons_self⟩
      · rcases ih h.2 hm with ⟨hkt, hmem⟩ | ⟨rfl, ⟨gs', hmem, rfl⟩ | ⟨hnot, rfl⟩⟩
        · exact .inl ⟨hkt, List.mem_cons_of_mem _ hmem⟩
        · exact .inr ⟨rfl, .inl ⟨gs', List.mem_cons_of_mem _ hmem, rfl⟩⟩
        · refine .inr ⟨rfl, .inr ⟨?_, rfl⟩⟩
          rw [List.map_cons, List.mem_cons]
          rintro (heq | hmem)
          · exact hne heq.symm
          · exact hnot hmem

theorem fieldOf_eq_some : fieldOf t x = some f ↔ grantOf x = some (.field t f) := by
  unfold fieldOf
  split
  · next t' f' h =>
    rw [h]
    simp only [Option.ite_none_right_eq_some, Option.some.injEq, Grant.field.injEq]
  · next h =>
    constructor
    · intro h'
      cases h'
    · intro h'
      exact absurd h' (h t f)

/-- Another entry leaves the fields of a type as they are, unless it names one. -/
theorem fieldOf_eq_none (h : ∀ f, grantOf x ≠ some (.field t f)) : fieldOf t x = none :=
  Option.eq_none_iff_forall_ne_some.2 fun f hf => h f (fieldOf_eq_some.1 hf)

theorem filterMap_snoc_field (h : grantOf x = some (.field t f)) (k : String) :
    (entries ++ [x]).filterMap (fieldOf k) =
      entries.filterMap (fieldOf k) ++ if t = k then [f] else [] := by
  rw [List.filterMap_append]
  congr 1
  split
  · next heq => simp [fieldOf_eq_some.2 (heq ▸ h)]
  · next hne =>
    have hnone : fieldOf k x = none := by
      refine fieldOf_eq_none fun f' h' => hne ?_
      rw [h] at h'
      exact (Grant.field.inj (Option.some.inj h')).1
    simp [hnone]

theorem Grouped.push {m : TypeFields} (hg : Grouped entries m)
    (h : grantOf x = some (.field t f)) : Grouped (entries ++ [x]) (pushField m t f) := by
  refine ⟨nodup_pushField hg.nodup t f, fun k fs hm => ?_, fun k => ?_⟩
  · rw [filterMap_snoc_field h]
    rcases mem_pushField hg.nodup hm with ⟨hne, hmem⟩ | ⟨rfl, ⟨gs, hmem, rfl⟩ | ⟨hnot, rfl⟩⟩
    · rw [if_neg (Ne.symm hne), List.append_nil]
      exact hg.fields k fs hmem
    · rw [if_pos rfl, ← hg.fields k gs hmem]
    · have hempty : entries.filterMap (fieldOf k) = [] := not_not.1 (mt (hg.types k).2 hnot)
      rw [if_pos rfl, hempty, List.nil_append]
  · rw [mem_keys_pushField, filterMap_snoc_field h]
    by_cases hk : t = k
    · simp [hk]
    · simp [hk, Ne.symm hk, hg.types k]

theorem Grouped.skip {m : TypeFields} (hg : Grouped entries m)
    (h : ∀ t f, grantOf x ≠ some (.field t f)) : Grouped (entries ++ [x]) m := by
  have hsame : ∀ t, (entries ++ [x]).filterMap (fieldOf t) = entries.filterMap (fieldOf t) := by
    intro t
    simp [List.filterMap_append, fieldOf_eq_none (h t)]
  exact ⟨hg.nodup, fun t fs hm => (hsame t).symm ▸ hg.fields t fs hm,
    fun t => (hsame t).symm ▸ hg.types t⟩

/-- **The first loop**: the field map groups the field entries, and the full types
are the full entries in their order. -/
theorem foldl_parseEntry (entries : List String) :
    Grouped entries (entries.foldl parseEntry ([], [])).1 ∧
      (entries.foldl parseEntry ([], [])).2 = entries.filter fullType := by
  induction entries using List.reverseRecOn with
  | nil => exact ⟨⟨by simp, by simp, by simp⟩, rfl⟩
  | append_singleton entries x ih =>
    rw [List.foldl_append, List.foldl_cons, List.foldl_nil, parseEntry_eq, List.filter_append]
    cases hx : grantOf x with
    | none => exact ⟨ih.1.skip (by simp [hx]), by simp [ih.2, fullType, hx]⟩
    | some grant =>
      cases grant with
      | full t =>
        obtain rfl := grantOf_full hx
        exact ⟨ih.1.skip (by simp [hx]), by simp [ih.2, fullType, hx]⟩
      | field t f => exact ⟨ih.1.push hx, by simp [ih.2, fullType, hx]⟩

/-- **The second loop**: every full type is granted, and its field entries go. -/
theorem foldl_grantFull (full : List String) (m : TypeFields) (scopes : List EntityScope) :
    full.foldl grantFull (m, scopes) =
      (m.filter (·.1 ∉ full), scopes ++ full.map fun t => ⟨t, none, []⟩) := by
  induction full generalizing m scopes with
  | nil => simp
  | cons t full ih =>
    rw [List.foldl_cons, grantFull, ih, List.filter_filter]
    simp [Bool.and_comm]

/-! ## The result up to its order -/

/-- The scope of a type granted in full, and of one granted by its fields. -/
def fullScope (t : String) : EntityScope := ⟨t, none, []⟩

def fieldScope (entries : List String) (t : String) : EntityScope :=
  ⟨t, some (sortStrings (entries.filterMap (fieldOf t))), []⟩

/-- The types left with field entries. -/
def FieldType (entries : List String) (t : String) : Prop :=
  entries.filterMap (fieldOf t) ≠ [] ∧ t ∉ entries.filter fullType

theorem sortFields_full (t : String) : (fullScope t).sortFields = fullScope t := by
  simp [fullScope, EntityScope.sortFields, sortStrings]

/-- The scopes, in whatever order: one for each full entry, and one for each type
left with field entries. -/
theorem parseScopeEntries_perm (order : HashOrder) (entries : List String) :
    ∃ types : List String, types.Nodup ∧ (∀ t, t ∈ types ↔ FieldType entries t) ∧
      (parseScopeEntries order entries).Perm
        ((entries.filter fullType).map fullScope ++ types.map (fieldScope entries)) := by
  obtain ⟨hg, hfull⟩ := foldl_parseEntry entries
  generalize hm : (entries.foldl parseEntry ([], [])).1 = m at hg
  have hkept : ∀ p : String × List String, p ∈ m.filter (·.1 ∉ entries.filter fullType) ↔
      p ∈ m ∧ p.1 ∉ entries.filter fullType :=
    fun p => by rw [List.mem_filter, decide_eq_true_eq]
  refine ⟨(m.filter (·.1 ∉ entries.filter fullType)).map (·.1),
    hg.nodup.sublist (List.filter_sublist.map _), fun t => ?_, ?_⟩
  · rw [FieldType, ← hg.types t, List.mem_map, List.mem_map]
    constructor
    · rintro ⟨p, hp, rfl⟩
      exact ⟨⟨p, ((hkept p).1 hp).1, rfl⟩, ((hkept p).1 hp).2⟩
    · rintro ⟨⟨p, hp, rfl⟩, hnot⟩
      exact ⟨p, (hkept p).2 ⟨hp, hnot⟩, rfl⟩
  · simp only [parseScopeEntries, hfull, hm, foldl_grantFull, List.nil_append]
    refine ((List.mergeSort_perm _ _).map _).trans ?_
    rw [List.map_append, List.map_map]
    refine List.Perm.append ?_ ?_
    · refine List.Perm.of_eq (List.map_congr_left fun t _ => ?_)
      exact sortFields_full t
    · rw [List.map_map]
      refine ((order.perm _).map _).trans (List.Perm.of_eq ?_)
      rw [List.map_map]
      refine List.map_congr_left ?_
      rintro ⟨t, fs⟩ hp
      obtain rfl := hg.fields t fs ((hkept _).1 hp).1
      simp [EntityScope.sortFields, fieldScope, sortStrings]

theorem pairwise_sort_by {α : Type} (key : α → String) (l : List α) :
    (l.mergeSort fun a b => key a ≤ key b).Pairwise (key · ≤ key ·) := by
  have h : (l.mergeSort fun a b => decide (key a ≤ key b)).Pairwise
      fun a b => decide (key a ≤ key b) = true := by
    refine List.pairwise_mergeSort (fun a b c hab hbc => ?_) (fun a b => ?_) l
    · exact decide_eq_true (le_trans (of_decide_eq_true hab) (of_decide_eq_true hbc))
    · simpa using le_total (key a) (key b)
  exact h.imp of_decide_eq_true

theorem pairwise_sorted (order : HashOrder) (entries : List String) :
    (parseScopeEntries order entries).Pairwise (·.entityType ≤ ·.entityType) := by
  unfold parseScopeEntries sortByType
  rw [List.pairwise_map]
  exact pairwise_sort_by EntityScope.entityType _

theorem sortStrings_eq_iff {l l' : List String} : sortStrings l = sortStrings l' ↔ l.Perm l' := by
  have hperm : ∀ l, (sortStrings l).Perm l := fun l => List.mergeSort_perm l _
  have hsorted : ∀ l, (sortStrings l).Pairwise (· ≤ ·) := pairwise_sort_by id
  constructor
  · intro h
    exact (hperm l).symm.trans (h ▸ hperm l')
  · intro h
    exact List.Perm.eq_of_pairwise (fun _ _ _ _ => le_antisymm) (hsorted l) (hsorted l')
      ((hperm l).trans (h.trans (hperm l').symm))

/-! ## One grant, one ceiling -/

/-- The entry counts: it grants a full type, or a field of a type that is not
granted in full. -/
def Counts (entries : List String) (x : String) : Prop :=
  grantOf x = some (.full x) ∨
    ∃ t f, grantOf x = some (.field t f) ∧ t ∉ entries.filter fullType

variable {entries' : List String}

/-- How often a full entry occurs, read off the scopes. -/
theorem count_fullScope (hx : grantOf x = some (.full x)) (types : List String) :
    ((entries.filter fullType).map fullScope ++ types.map (fieldScope entries)).count
      (fullScope x) = entries.count x := by
  have hinj : Function.Injective fullScope := fun _ _ h => congrArg EntityScope.entityType h
  have hnone : (types.map (fieldScope entries)).count (fullScope x) = 0 := by
    refine List.count_eq_zero.2 fun hm => ?_
    obtain ⟨t, -, ht⟩ := List.mem_map.1 hm
    exact absurd (congrArg EntityScope.fields ht) (by simp [fieldScope, fullScope])
  rw [List.count_append, hnone, List.count_map_of_injective _ _ hinj, Nat.add_zero]
  exact List.count_filter (by simp [fullType, hx])

/-- How often a field entry occurs, read off the fields of its type. -/
theorem count_fieldOf (hx : grantOf x = some (.field t f)) :
    (entries.filterMap (fieldOf t)).count f = entries.count x := by
  rw [List.count_filterMap, List.count]
  refine List.countP_congr fun y _ => ?_
  rw [beq_iff_eq, beq_iff_eq, fieldOf_eq_some]
  constructor
  · intro hy
    rw [grantOf_field hy, grantOf_field hx]
  · rintro rfl
    exact hx

theorem perm_filter_full (h : ∀ x, Counts entries x → entries.count x = entries'.count x) :
    (entries.filter fullType).Perm (entries'.filter fullType) := by
  refine List.perm_iff_count.2 fun x => ?_
  by_cases hx : fullType x = true
  · rw [List.count_filter hx, List.count_filter hx]
    exact h x (.inl (by simpa [fullType] using hx))
  · rw [List.count_eq_zero.2 (by simp [hx]), List.count_eq_zero.2 (by simp [hx])]

theorem perm_fields (h : ∀ x, Counts entries x → entries.count x = entries'.count x)
    (ht : t ∉ entries.filter fullType) :
    (entries.filterMap (fieldOf t)).Perm (entries'.filterMap (fieldOf t)) := by
  refine List.perm_iff_count.2 fun f => ?_
  by_cases hx : ∃ x, grantOf x = some (.field t f)
  · obtain ⟨x, hx⟩ := hx
    rw [count_fieldOf hx, count_fieldOf hx]
    exact h x (.inr ⟨t, f, hx, ht⟩)
  · have hzero : ∀ l : List String, (l.filterMap (fieldOf t)).count f = 0 := by
      refine fun l => List.count_eq_zero.2 fun hm => hx ?_
      obtain ⟨x, -, hf⟩ := List.mem_filterMap.1 hm
      exact ⟨x, fieldOf_eq_some.1 hf⟩
    rw [hzero, hzero]

/-- A scope of the result is determined by its type. -/
theorem scope_of_type {types : List String} (htypes : ∀ t, t ∈ types ↔ FieldType entries t)
    {s : EntityScope}
    (hs : s ∈ (entries.filter fullType).map fullScope ++ types.map (fieldScope entries)) :
    s = if s.entityType ∈ entries.filter fullType then fullScope s.entityType
      else fieldScope entries s.entityType := by
  rcases List.mem_append.1 hs with hs | hs
  · obtain ⟨t, ht, rfl⟩ := List.mem_map.1 hs
    exact (if_pos ht).symm
  · obtain ⟨t, ht, rfl⟩ := List.mem_map.1 hs
    exact (if_neg ((htypes t).1 ht).2).symm

/-- Equal scopes tell how often each entry that counts occurs. -/
theorem count_of_parse_eq {order order' : HashOrder} (hset : ∀ x, x ∈ entries ↔ x ∈ entries')
    (heq : parseScopeEntries order entries = parseScopeEntries order' entries')
    (hx : Counts entries x) : entries.count x = entries'.count x := by
  obtain ⟨types, -, htypes, hperm⟩ := parseScopeEntries_perm order entries
  obtain ⟨types', -, htypes', hperm'⟩ := parseScopeEntries_perm order' entries'
  have hcanon := hperm.symm.trans (heq ▸ hperm')
  rcases hx with hx | ⟨t, f, hx, ht⟩
  · rw [← count_fullScope hx types, hcanon.count_eq, count_fullScope hx]
  by_cases hmem : x ∈ entries
  · -- the type has a field scope on both sides, with the same sorted fields
    have hfield : FieldType entries t := by
      refine ⟨fun hnil => ?_, ht⟩
      have hf := List.mem_filterMap.2 ⟨x, hmem, fieldOf_eq_some.2 hx⟩
      rw [hnil] at hf
      cases hf
    have hin : fieldScope entries t ∈
        (entries'.filter fullType).map fullScope ++ types'.map (fieldScope entries') :=
      hcanon.mem_iff.1 (List.mem_append_right _ (List.mem_map_of_mem ((htypes t).2 hfield)))
    have hsame : fieldScope entries t = if t ∈ entries'.filter fullType then fullScope t
        else fieldScope entries' t := scope_of_type htypes' hin
    have ht' : t ∉ entries'.filter fullType := by simpa [hset] using ht
    rw [if_neg ht'] at hsame
    have hfields := Option.some.inj (congrArg EntityScope.fields hsame)
    rw [← count_fieldOf hx, ← count_fieldOf hx]
    exact (sortStrings_eq_iff.1 hfields).count_eq f
  · rw [List.count_eq_zero.2 hmem, List.count_eq_zero.2 (mt (hset x).2 hmem)]

/-- The scopes depend on how often each entry that counts occurs, and on nothing else. -/
theorem parse_eq_of_count (order order' : HashOrder) (hset : ∀ x, x ∈ entries ↔ x ∈ entries')
    (h : ∀ x, Counts entries x → entries.count x = entries'.count x) :
    parseScopeEntries order entries = parseScopeEntries order' entries' := by
  obtain ⟨types, hnd, htypes, hperm⟩ := parseScopeEntries_perm order entries
  obtain ⟨types', hnd', htypes', hperm'⟩ := parseScopeEntries_perm order' entries'
  have hfull : ∀ t, t ∈ entries.filter fullType ↔ t ∈ entries'.filter fullType := by
    simp [hset]
  have hfields : ∀ t, t ∉ entries.filter fullType →
      fieldScope entries t = fieldScope entries' t := by
    intro t ht
    simp only [fieldScope, EntityScope.mk.injEq, Option.some.injEq, true_and, and_true]
    exact sortStrings_eq_iff.2 (perm_fields h ht)
  have hsame : types.Perm types' := by
    refine (List.perm_ext_iff_of_nodup hnd hnd').2 fun t => ?_
    rw [htypes, htypes', FieldType, FieldType, hfull]
    refine and_congr_left fun ht => not_congr ?_
    have hp := perm_fields h (mt (hfull t).1 ht)
    exact ⟨fun hnil => by simpa [hnil] using hp, fun hnil => by simpa [hnil] using hp⟩
  have hcanon : ((entries.filter fullType).map fullScope ++ types.map (fieldScope entries)).Perm
      ((entries'.filter fullType).map fullScope ++ types'.map (fieldScope entries')) := by
    refine ((perm_filter_full h).map _).append ?_
    rw [List.map_congr_left fun t ht => hfields t ((htypes t).1 ht).2]
    exact hsame.map _
  refine List.Perm.eq_of_pairwise (fun a b ha hb hab hba => ?_) (pairwise_sorted _ _)
    (pairwise_sorted _ _) (hperm.trans (hcanon.trans hperm'.symm))
  have htype := le_antisymm hab hba
  rw [scope_of_type htypes (hperm.mem_iff.1 ha),
    scope_of_type htypes (hcanon.mem_iff.2 (hperm'.mem_iff.1 hb)), htype]

/-- **When two profiles have one ceiling.** For two lists with the same set of
entries, in whatever order and whatever order their hash maps take, the scopes are
equal exactly when every entry that counts occurs equally often in both; the
string serialised from them is then equal. -/
theorem parse_eq_iff_counts (order order' : HashOrder)
    (hset : ∀ x, x ∈ entries ↔ x ∈ entries') :
    (parseScopeEntries order entries = parseScopeEntries order' entries' ↔
        ∀ x, Counts entries x → entries.count x = entries'.count x) ∧
      ((∀ x, Counts entries x → entries.count x = entries'.count x) →
        ∀ json : List EntityScope → String,
          json (parseScopeEntries order entries) = json (parseScopeEntries order' entries')) := by
  refine ⟨⟨fun heq x hx => count_of_parse_eq hset heq hx, parse_eq_of_count order order' hset⟩,
    fun h json => ?_⟩
  rw [parse_eq_of_count order order' hset h]

/-- A map that yields its entries as they were first inserted. -/
def asInserted : HashOrder := ⟨id, fun m => List.Perm.refl m⟩

/-- A map that yields them the other way round. -/
def reversed : HashOrder := ⟨List.reverse, List.reverse_perm⟩

theorem parse_eq_iff_counts_swapped :
    parseScopeEntries asInserted ["system.File.path", "system.File.app_id", "system.Session"] =
      parseScopeEntries reversed ["system.Session", "system.File.app_id", "system.File.path"] := by
  refine (parse_eq_iff_counts asInserted reversed ?_).1.2 ?_
  · intro x
    simp only [List.mem_cons, List.not_mem_nil, or_false]
    tauto
  · intro x _
    refine List.Perm.count_eq ?_ x
    decide

/-- A profile that names one field twice has another ceiling than one that names
it once. -/
theorem repeated_field_changes_ceiling :
    ¬ ∀ (order order' : HashOrder) (entries entries' : List String),
      (∀ x, x ∈ entries ↔ x ∈ entries') →
        parseScopeEntries order entries = parseScopeEntries order' entries' := by
  intro h
  have heq := h asInserted asInserted ["system.File.path"] ["system.File.path", "system.File.path"]
    (by simp)
  have hone : ["system.File.path"].foldl parseEntry ([], []) = ([("system.File", ["path"])], []) := by
    decide
  have htwo : ["system.File.path", "system.File.path"].foldl parseEntry ([], []) =
      ([("system.File", ["path", "path"])], []) := by
    decide
  simp only [parseScopeEntries, hone, htwo, asInserted, sortByType, List.foldl_nil, id,
    List.map_cons, List.map_nil, List.nil_append, List.mergeSort_singleton] at heq
  have hfields := congrArg EntityScope.fields (List.cons.inj heq).1
  have hlen := congrArg List.length (Option.some.inj hfields)
  simp [sortStrings] at hlen

end Arlen.Knowledge
