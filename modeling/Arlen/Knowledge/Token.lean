import Arlen.Knowledge.Scopes

/-!
# What a token reads

`can_read` and `readable_fields` of `daemons/knowledge/src/token.rs`, over the scopes that
`parse_scope_entries` makes of a profile's read entries. `readable_fields` answers with the
first scope that matches, and that is enough: a wildcard sorts before every type under it,
so a grant in full is met before the fields of a type.
-/

namespace Arlen.Knowledge

open Arlen.Lib

/-- The scopes of a token that reading looks at. -/
structure CapabilityToken where
  readScopes : List EntityScope
deriving DecidableEq, Repr

/-- `type_matches`. -/
def typeMatches (pattern entityType : String) : Bool :=
  match stripSuffix pattern ".*" with
  | some pre => startsWith entityType pre && startsWith (dropPrefix entityType pre) "."
  | none => pattern = entityType

def scopeMatches (scopes : List EntityScope) (entityType : String) : Bool :=
  scopes.any (typeMatches ·.entityType entityType)

namespace CapabilityToken

def canRead (token : CapabilityToken) (entityType : String) : Bool :=
  scopeMatches token.readScopes entityType

/-- `None` is no scope at all, `Some(None)` every field. -/
def readableFields (token : CapabilityToken) (entityType : String) : Option (Option (List String)) :=
  (token.readScopes.find? (typeMatches ·.entityType entityType)).map EntityScope.fields

end CapabilityToken

/-! ## What an entry says -/

/-- The entry grants the type in full. -/
inductive InFull : String → String → Prop where
  | exact (a b : String) (ha : '.' ∉ a.toList) (hb : '.' ∉ b.toList)
      (hw : endsWith (a ++ ("." ++ b)) ".*" = false) : InFull (a ++ ("." ++ b)) (a ++ ("." ++ b))
  | wildcard (p r : String) : InFull (p ++ ".*") (p ++ ("." ++ r))

/-- The entry names a field of the type: of its three parts the first two are the type. -/
inductive NamesField : String → String → String → Prop where
  | field (a b f : String) (ha : '.' ∉ a.toList) (hb : '.' ∉ b.toList)
      (hw : endsWith (a ++ ("." ++ (b ++ ("." ++ f)))) ".*" = false) :
      NamesField (a ++ ("." ++ (b ++ ("." ++ f)))) (a ++ ("." ++ b)) f

def isIdentChar (c : Char) : Bool := c.isAlphanum || c = '_' || c = '-'

/-- A segment of letters, digits, underscores and dashes. -/
def Identifier (seg : List Char) : Prop := seg ≠ [] ∧ ∀ c ∈ seg, isIdentChar c = true

instance (seg : List Char) : Decidable (Identifier seg) :=
  inferInstanceAs (Decidable (seg ≠ [] ∧ ∀ c ∈ seg, isIdentChar c = true))

/-- Segments of identifiers, the last of which may be a star. -/
def EntryForm (entry : String) : Prop :=
  (∀ seg ∈ (entry.toList.splitOn '.').dropLast, Identifier seg) ∧
    ∀ seg ∈ (entry.toList.splitOn '.').getLast?, Identifier seg ∨ seg = ['*']

instance (entry : String) : Decidable (EntryForm entry) :=
  inferInstanceAs (Decidable (_ ∧ _))

variable {entries : List String} {e t f T : String}

theorem stripSuffix_eq_none_of (h : endsWith e ".*" = false) : stripSuffix e ".*" = none := by
  unfold stripSuffix
  rw [if_neg (by rw [h]; exact Bool.false_ne_true)]

theorem typeMatches_exact (h : endsWith e ".*" = false) : typeMatches e T = true ↔ e = T := by
  unfold typeMatches
  rw [stripSuffix_eq_none_of h]
  exact decide_eq_true_iff

theorem typeMatches_wildcard (p T : String) :
    typeMatches (p ++ ".*") T = true ↔ ∃ r, T = p ++ ("." ++ r) := by
  unfold typeMatches
  rw [stripSuffix_eq_some.2 rfl]
  exact startsWith_dropPrefix_iff

theorem inFull_iff : InFull e T ↔ fullType e = true ∧ typeMatches e T = true := by
  unfold fullType grantOf
  constructor
  · intro h
    cases h with
    | exact a b ha hb hw =>
      refine ⟨?_, (typeMatches_exact hw).2 rfl⟩
      have hs : splitn 3 '.' (a ++ ("." ++ b)) = [a, b] := splitn_three_eq_pair.2 ⟨rfl, ha, hb⟩
      rw [if_neg (by rw [hw]; exact Bool.false_ne_true), hs, decide_eq_true rfl]
    | wildcard p r =>
      refine ⟨?_, (typeMatches_wildcard p _).2 ⟨r, rfl⟩⟩
      rw [if_pos (endsWith_iff.2 ⟨p, rfl⟩), decide_eq_true rfl]
  · rintro ⟨hfull, hm⟩
    cases hw : endsWith e ".*" with
    | true =>
      obtain ⟨p, rfl⟩ := endsWith_iff.1 hw
      obtain ⟨r, rfl⟩ := (typeMatches_wildcard p T).1 hm
      exact .wildcard p r
    | false =>
      rw [if_neg (by rw [hw]; exact Bool.false_ne_true)] at hfull
      obtain rfl := (typeMatches_exact hw).1 hm
      split at hfull
      · exact absurd (of_decide_eq_true hfull) (by simp)
      · next a b hs =>
        obtain ⟨rfl, ha, hb⟩ := splitn_three_eq_pair.1 hs
        exact .exact a b ha hb hw
      · exact absurd (of_decide_eq_true hfull) (by simp)

theorem namesField_iff : NamesField e T f ↔ fieldOf T e = some f := by
  rw [fieldOf_eq_some]
  unfold grantOf
  constructor
  · rintro ⟨a, b, f, ha, hb, hw⟩
    have hs : splitn 3 '.' (a ++ ("." ++ (b ++ ("." ++ f)))) = [a, b, f] :=
      splitn_three_eq_triple.2 ⟨rfl, ha, hb⟩
    rw [if_neg (by rw [hw]; exact Bool.false_ne_true), hs]
    simp only [String.append_assoc]
  · intro h
    cases hw : endsWith e ".*" with
    | true =>
      rw [if_pos hw] at h
      cases h
    | false =>
      rw [if_neg (by rw [hw]; exact Bool.false_ne_true)] at h
      split at h
      · next a b f' hs =>
        obtain ⟨rfl, ha, hb⟩ := splitn_three_eq_triple.1 hs
        obtain ⟨rfl, rfl⟩ := Grant.field.inj (Option.some.inj h)
        rw [String.append_assoc]
        exact .field a b f' ha hb hw
      · cases h
      · cases h

/-! ## The order of the scopes -/

theorem star_lt_of_isIdentChar {c : Char} (h : isIdentChar c = true) : '*' < c := by
  show (42 : UInt32) < c.val
  unfold isIdentChar Char.isAlphanum Char.isAlpha Char.isUpper Char.isLower Char.isDigit at h
  simp only [Bool.or_eq_true, Bool.and_eq_true, decide_eq_true_eq] at h
  rw [UInt32.lt_iff_toNat_lt]
  rcases h with ((((h | h) | h) | rfl) | rfl)
  · exact Nat.lt_of_lt_of_le (by decide) h.1
  · exact Nat.lt_of_lt_of_le (by decide) h.1
  · exact Nat.lt_of_lt_of_le (by decide) h.1
  · decide
  · decide

/-- A type that an entry names a field of: two identifiers. -/
theorem NamesField.type_form (he : EntryForm e) (h : NamesField e T f) :
    ∃ a b : String, T = a ++ ("." ++ b) ∧ Identifier a.toList ∧ Identifier b.toList := by
  obtain ⟨a, b, f, ha, hb, -⟩ := h
  have hsplit : (a ++ ("." ++ (b ++ ("." ++ f)))).toList.splitOn '.' =
      a.toList :: b.toList :: f.toList.splitOn '.' := by
    simp only [String.toList_append]
    show (a.toList ++ '.' :: (b.toList ++ '.' :: f.toList)).splitOn '.' = _
    rw [List.splitOn_append_cons_self_of_not_mem ha, List.splitOn_append_cons_self_of_not_mem hb]
  have hfront := he.1
  rw [hsplit, List.dropLast_cons_of_ne_nil (List.cons_ne_nil _ _),
    List.dropLast_cons_of_ne_nil (List.splitOn_ne_nil _ _)] at hfront
  exact ⟨a, b, rfl, hfront _ List.mem_cons_self,
    hfront _ (List.mem_cons_of_mem _ List.mem_cons_self)⟩

variable {a b p r : String}

/-- The last character of a type of two identifiers. -/
theorem isIdentChar_getLast (hb : Identifier b.toList) {c : Char}
    (hc : (a ++ ("." ++ b)).toList.getLast? = some c) : isIdentChar c = true := by
  rw [String.toList_append, String.toList_append, List.getLast?_append_of_ne_nil _ (by simp),
    List.getLast?_append_of_ne_nil _ hb.1] at hc
  exact hb.2 c (List.mem_of_getLast? hc)

theorem not_wildcard (hb : Identifier b.toList) : endsWith (a ++ ("." ++ b)) ".*" = false := by
  rw [← Bool.not_eq_true, endsWith_iff]
  rintro ⟨p, hp⟩
  have hlast : (a ++ ("." ++ b)).toList.getLast? = some '*' := by
    rw [hp, String.toList_append, List.getLast?_append_of_ne_nil _ (by decide)]
    decide
  exact absurd (isIdentChar_getLast hb hlast) (by decide)

/-- A wildcard sorts before the types of two identifiers under it. -/
theorem wildcard_lt (ha : Identifier a.toList) (hb : Identifier b.toList)
    (h : a ++ ("." ++ b) = p ++ ("." ++ r)) : p ++ ".*" < a ++ ("." ++ b) := by
  have hchars : ∀ c ∈ r.toList, '*' < c := by
    intro c hc
    have hmem : c ∈ (a ++ ("." ++ b)).toList := by
      rw [h, String.toList_append, String.toList_append]
      exact List.mem_append_right _ (List.mem_append_right _ hc)
    rw [String.toList_append, String.toList_append] at hmem
    rcases List.mem_append.1 hmem with hc | hmem
    · exact star_lt_of_isIdentChar (ha.2 c hc)
    · rcases List.mem_append.1 hmem with hc | hc
      · obtain rfl : c = '.' := by simpa using hc
        decide
      · exact star_lt_of_isIdentChar (hb.2 c hc)
  rw [h, String.lt_iff_toList_lt, String.toList_append, String.toList_append, String.toList_append]
  refine List.append_left_lt ?_
  show ['.', '*'] < '.' :: r.toList
  cases hr : r.toList with
  | nil =>
    have hlast : (a ++ ("." ++ b)).toList.getLast? = some '.' := by
      rw [h, String.toList_append, String.toList_append, hr, List.append_nil,
        List.getLast?_append_of_ne_nil _ (by decide)]
      decide
    exact absurd (isIdentChar_getLast hb hlast) (by decide)
  | cons c cs =>
    refine List.cons_lt_cons_self.2 (List.Lex.rel ?_)
    exact hchars c (by rw [hr]; exact List.mem_cons_self)

/-! ## What the token answers -/

variable {order : HashOrder} {s : EntityScope}

def tokenOf (order : HashOrder) (entries : List String) : CapabilityToken :=
  ⟨parseScopeEntries order entries⟩

theorem mem_scopes : s ∈ (tokenOf order entries).readScopes ↔
    (∃ e ∈ entries, fullType e = true ∧ s = fullScope e) ∨
      ∃ t, FieldType entries t ∧ s = fieldScope entries t := by
  obtain ⟨types, -, htypes, hperm⟩ := parseScopeEntries_perm order entries
  unfold tokenOf
  rw [hperm.mem_iff, List.mem_append, List.mem_map, List.mem_map]
  simp only [List.mem_filter, htypes, and_assoc, eq_comm]

/-- The types left with field entries are two identifiers. -/
theorem FieldType.form (h : ∀ e ∈ entries, EntryForm e) (ht : FieldType entries t) :
    ∃ a b : String, t = a ++ ("." ++ b) ∧ Identifier a.toList ∧ Identifier b.toList := by
  obtain ⟨f, hf⟩ := List.exists_mem_of_ne_nil _ ht.1
  obtain ⟨e, he, hf⟩ := List.mem_filterMap.1 hf
  exact (namesField_iff.2 hf).type_form (h e he)

theorem typeMatches_fieldType (h : ∀ e ∈ entries, EntryForm e) (ht : FieldType entries t) :
    typeMatches t T = true ↔ t = T := by
  obtain ⟨a, b, rfl, -, hb⟩ := ht.form h
  exact typeMatches_exact (not_wildcard hb)

/-- The fields a type's entries name, as its scope has them. -/
theorem mem_fieldScope : f ∈ sortStrings (entries.filterMap (fieldOf T)) ↔
    ∃ e ∈ entries, NamesField e T f := by
  unfold sortStrings
  rw [List.mem_mergeSort, List.mem_filterMap]
  simp only [namesField_iff]

theorem canRead_iff (h : ∀ e ∈ entries, EntryForm e) : (tokenOf order entries).canRead T = true ↔
    (∃ e ∈ entries, InFull e T) ∨ ∃ e ∈ entries, ∃ f, NamesField e T f := by
  unfold CapabilityToken.canRead scopeMatches
  rw [List.any_eq_true]
  constructor
  · rintro ⟨s, hs, hm⟩
    rcases mem_scopes.1 hs with ⟨e, he, hfull, rfl⟩ | ⟨t, ht, rfl⟩
    · exact .inl ⟨e, he, inFull_iff.2 ⟨hfull, hm⟩⟩
    · obtain rfl := (typeMatches_fieldType h ht).1 hm
      obtain ⟨f, hf⟩ := List.exists_mem_of_ne_nil _ ht.1
      obtain ⟨e, he, hf⟩ := List.mem_filterMap.1 hf
      exact .inr ⟨e, he, f, namesField_iff.2 hf⟩
  · rintro (⟨e, he, hin⟩ | ⟨e, he, f, hf⟩)
    · obtain ⟨hfull, hm⟩ := inFull_iff.1 hin
      exact ⟨fullScope e, mem_scopes.2 (.inl ⟨e, he, hfull, rfl⟩), hm⟩
    · obtain ⟨a, b, hT, -, hb⟩ := hf.type_form (h e he)
      have hself : typeMatches T T = true := (typeMatches_exact (hT ▸ not_wildcard hb)).2 rfl
      by_cases hfull : T ∈ entries.filter fullType
      · obtain ⟨hmem, hfull⟩ := List.mem_filter.1 hfull
        exact ⟨fullScope T, mem_scopes.2 (.inl ⟨T, hmem, hfull, rfl⟩), hself⟩
      · have hne : entries.filterMap (fieldOf T) ≠ [] :=
          List.ne_nil_of_mem (List.mem_filterMap.2 ⟨e, he, namesField_iff.1 hf⟩)
        exact ⟨fieldScope entries T, mem_scopes.2 (.inr ⟨T, ⟨hne, hfull⟩, rfl⟩), hself⟩

/-- A type's own fields are never met before a grant of the type in full. -/
theorem not_fieldScope_first (h : ∀ e ∈ entries, EntryForm e) (he : e ∈ entries) (hin : InFull e T)
    (ht : FieldType entries T) {before after : List EntityScope}
    (hsplit : (tokenOf order entries).readScopes = before ++ fieldScope entries T :: after)
    (hbefore : ∀ s ∈ before, typeMatches s.entityType T = false) : False := by
  obtain ⟨hfull, hm⟩ := inFull_iff.1 hin
  have hmem : fullScope e ∈ (tokenOf order entries).readScopes :=
    mem_scopes.2 (.inl ⟨e, he, hfull, rfl⟩)
  rw [hsplit] at hmem
  have hafter : fullScope e ∈ after := by
    rcases List.mem_append.1 hmem with hb | hmem
    · exact absurd ((hbefore _ hb).symm.trans hm) Bool.false_ne_true
    · rcases List.mem_cons.1 hmem with heq | ha
      · exact absurd (congrArg EntityScope.fields heq) (by simp [fullScope, fieldScope])
      · exact ha
  have hsorted := pairwise_sorted order entries
  rw [show parseScopeEntries order entries = before ++ fieldScope entries T :: after from hsplit]
    at hsorted
  have hle : T ≤ e := (List.pairwise_cons.1 (List.pairwise_append.1 hsorted).2.1).1 _ hafter
  obtain ⟨a, b, hT, ha, hb⟩ := ht.form h
  cases hin with
  | exact => exact ht.2 (List.mem_filter.2 ⟨he, hfull⟩)
  | wildcard p r => exact absurd (hT ▸ wildcard_lt ha hb hT.symm) (not_lt.2 hle)

/-- The scope that answers for a type: one that grants it in full where there is one, and
else the scope of its fields. -/
theorem readableFields_cases (h : ∀ e ∈ entries, EntryForm e) :
    ((∃ e ∈ entries, InFull e T) ∧ (tokenOf order entries).readableFields T = some none) ∨
      (¬ ∃ e ∈ entries, InFull e T) ∧
        (((tokenOf order entries).readableFields T = none ∧
            ∀ e ∈ entries, ∀ f, ¬ NamesField e T f) ∨
          (tokenOf order entries).readableFields T =
            some (some (sortStrings (entries.filterMap (fieldOf T))))) := by
  unfold CapabilityToken.readableFields
  cases hfind : (tokenOf order entries).readScopes.find? (typeMatches ·.entityType T) with
  | none =>
    have hread : ¬ (tokenOf order entries).canRead T = true := by
      unfold CapabilityToken.canRead scopeMatches
      rw [List.any_eq_true]
      rintro ⟨s, hs, hm⟩
      exact List.find?_eq_none.1 hfind s hs hm
    rw [canRead_iff h, not_or] at hread
    exact .inr ⟨hread.1, .inl ⟨rfl, fun e he f hf => hread.2 ⟨e, he, f, hf⟩⟩⟩
  | some s =>
    obtain ⟨hm, before, after, hsplit, hbefore⟩ := List.find?_eq_some_iff_append.1 hfind
    have hs : s ∈ (tokenOf order entries).readScopes := List.mem_of_find?_eq_some hfind
    rcases mem_scopes.1 hs with ⟨e, he, hfull, rfl⟩ | ⟨t, ht, rfl⟩
    · exact .inl ⟨⟨e, he, inFull_iff.2 ⟨hfull, hm⟩⟩, rfl⟩
    · obtain rfl := (typeMatches_fieldType h ht).1 hm
      refine .inr ⟨?_, .inr rfl⟩
      rintro ⟨e, he, hin⟩
      refine not_fieldScope_first h he hin ht hsplit fun s hs => ?_
      simpa using hbefore s hs

/-- A token reads what its profile's entries grant, all together: a type that an entry
grants in full with all its fields, and another with the fields its entries name. -/
theorem token_reads (order : HashOrder) (entries : List String) (T : String)
    (h : ∀ e ∈ entries, EntryForm e) :
    ((tokenOf order entries).canRead T = true ↔
      (∃ e ∈ entries, InFull e T) ∨ ∃ e ∈ entries, ∃ f, NamesField e T f) ∧
    ((tokenOf order entries).readableFields T = some none ↔ ∃ e ∈ entries, InFull e T) ∧
    ((¬ ∃ e ∈ entries, InFull e T) → ∀ f,
      (∃ fs, (tokenOf order entries).readableFields T = some (some fs) ∧ f ∈ fs) ↔
        ∃ e ∈ entries, NamesField e T f) := by
  refine ⟨canRead_iff h, ?_⟩
  rcases @readableFields_cases _ T order h with ⟨hfull, hr⟩ | ⟨hfull, ⟨hr, hnone⟩ | hr⟩ <;> rw [hr]
  · exact ⟨⟨fun _ => hfull, fun _ => rfl⟩, fun hnot => absurd hfull hnot⟩
  · refine ⟨⟨fun hn => (by cases hn), fun hex => absurd hex hfull⟩, fun _ f => ⟨?_, ?_⟩⟩
    · rintro ⟨fs, hfs, -⟩
      cases hfs
    · rintro ⟨e, he, hf⟩
      exact absurd hf (hnone e he f)
  · refine ⟨⟨fun hn => (by cases hn), fun hex => absurd hex hfull⟩, fun _ f => ⟨?_, ?_⟩⟩
    · rintro ⟨fs, hfs, hf⟩
      obtain rfl := Option.some.inj (Option.some.inj hfs)
      exact mem_fieldScope.1 hf
    · intro hf
      exact ⟨_, rfl, mem_fieldScope.2 hf⟩

/-- A wildcard over a type whose fields are named too. -/
theorem token_reads_wildcard :
    ((tokenOf asInserted ["com.anki.name", "com.*"]).canRead "com.anki" = true ↔
      (∃ e ∈ ["com.anki.name", "com.*"], InFull e "com.anki") ∨
        ∃ e ∈ ["com.anki.name", "com.*"], ∃ f, NamesField e "com.anki" f) ∧
    ((tokenOf asInserted ["com.anki.name", "com.*"]).readableFields "com.anki" = some none ↔
      ∃ e ∈ ["com.anki.name", "com.*"], InFull e "com.anki") ∧
    ((¬ ∃ e ∈ ["com.anki.name", "com.*"], InFull e "com.anki") → ∀ f,
      (∃ fs, (tokenOf asInserted ["com.anki.name", "com.*"]).readableFields "com.anki" =
          some (some fs) ∧ f ∈ fs) ↔
        ∃ e ∈ ["com.anki.name", "com.*"], NamesField e "com.anki" f) :=
  token_reads asInserted ["com.anki.name", "com.*"] "com.anki" (by decide)

end Arlen.Knowledge
