import Arlen.Installd.Steps
import Arlen.Lib.Toml
import Arlen.Lib.TomlText

/-!
# The shortcuts a package gets

The file `write_keybindings_fragment` writes, read as TOML. Only quotes are escaped in it:
the remark behind a pair is the label as it is, and a backslash or a control character of
a binding or an action is written as it is. What the compositor reads is what the package
is entitled to exactly if none of these is there, no binding comes twice and no scope is
one the manifest does not know.
-/

namespace Arlen.Installd

open Arlen.Lib

/-! ## What a package is entitled to -/

/-- A focused binding, or a global one of a package that may register such. -/
def Entitled (m : Manifest) (kb : KeybindingEntry) : Prop :=
  kb.scope = "focused" ∨ kb.scope = "global" ∧ m.permissions.canRegisterGlobalBindings = true

instance {m : Manifest} {kb : KeybindingEntry} : Decidable (Entitled m kb) :=
  inferInstanceAs (Decidable (_ ∨ _))

/-- The table of the bindings in this file is what the package is entitled to. -/
def Exact (toml : String → Option Toml.Table) (m : Manifest) (content : Bytes) : Prop :=
  ∃ text doc, ∃ t : Toml.Table, decodeUtf8 content = some text ∧ toml text = some doc ∧
    doc.get "keybindings" = some (.table t) ∧
    ∀ k n, t.get k = some n ↔ ∃ kb ∈ m.keybindings, Entitled m kb ∧ kb.defaultBinding = k ∧
      n = .string (kb.effectiveAction m.package.id)

/-- A reader of TOML reads the texts of one table as they are. -/
structure ReadsToml (toml : String → Option Toml.Table) : Prop where
  table : ∀ {text name pairs}, TomlText.table text.toList = .ok (name, pairs) →
    ∃ doc, ∃ t : Toml.Table, toml text = some doc ∧ doc.get (String.ofList name) = some (.table t) ∧
      ∀ k : String, t.get k = (pairs.lookup k.toList).map fun v => .string (String.ofList v)
  invalid : ∀ {text}, TomlText.table text.toList = .error .invalid → toml text = none

def KeybindingEntry.pair (m : Manifest) (kb : KeybindingEntry) : TomlText.Pair :=
  ⟨kb.defaultBinding.toList, (kb.effectiveAction m.package.id).toList, kb.label.toList⟩

/-- Nothing of the text stands on a line of its own but comments. -/
def staysRemark (text : List Char) : Bool :=
  (text.splitOn '\n').tail.all fun l => TomlText.isRemark (dropCr l)

/-- The text of the file is made of the lines it is meant to have: a label or an id of
several lines goes on in comments, and the quotes of a pair are the quotes around its
strings. -/
structure Contained (m : Manifest) : Prop where
  id : staysRemark m.package.id.toList = true
  label : ∀ kb ∈ shippable m, staysRemark kb.label.toList = true
  binding : ∀ kb ∈ shippable m, TomlText.isSealed false kb.defaultBinding.toList = true
  action : ∀ kb ∈ shippable m,
    TomlText.isSealed false (kb.effectiveAction m.package.id).toList = true

/-- Nothing in the manifest needs more than its quotes escaped, no binding comes twice, and
every scope is known. -/
structure Plain (m : Manifest) : Prop where
  id : TomlText.isCleanRemark m.package.id.toList = true
  label : ∀ kb ∈ shippable m, TomlText.isCleanRemark kb.label.toList = true
  binding : ∀ kb ∈ shippable m, TomlText.isBare kb.defaultBinding.toList = true
  action : ∀ kb ∈ shippable m, TomlText.isBare (kb.effectiveAction m.package.id).toList = true
  apart : ((shippable m).map (·.defaultBinding)).Nodup
  scope : ∀ kb ∈ m.keybindings, kb.scope = "global" ∨ kb.scope = "focused"

section
variable {m : Manifest} {kb : KeybindingEntry} {env : Env} {w w' : World}
  {toml : String → Option Toml.Table}

/-! ## The text and its lines -/

theorem toList_escapeQuotes (s : String) :
    (escapeQuotes s).toList = TomlText.escapeQuotes s.toList := String.toList_ofList

theorem toList_bindingLine : (bindingLine m kb).toList =
    TomlText.pairLine (kb.pair m).key (kb.pair m).value (kb.pair m).label ++ ['\n'] := by
  simp [bindingLine, toList_escapeQuotes, TomlText.pairLine, KeybindingEntry.pair]

/-- The lines ahead of the pairs. -/
def preamble (id : String) : List (List Char) :=
  ["# Auto-generated keybindings for ".toList ++ id.toList,
    "# Managed by installd — do not edit manually.".toList, [], "[keybindings]".toList]

theorem toList_join (ss : List String) : (String.join ss).toList = ss.flatMap String.toList := by
  induction ss with
  | nil => rfl
  | cons s ss ih => simp [String.join_cons, ih]

theorem toList_keybindingsText : (keybindingsText m).toList =
    (preamble m.package.id ++ (shippable m).map fun kb =>
      TomlText.pairLine (kb.pair m).key (kb.pair m).value (kb.pair m).label).flatMap
        (· ++ ['\n']) := by
  have hlines : ((shippable m).map (bindingLine m)).flatMap String.toList =
      ((shippable m).map fun kb => TomlText.pairLine (kb.pair m).key (kb.pair m).value
        (kb.pair m).label).flatMap (· ++ ['\n']) := by
    simp only [List.flatMap_map, toList_bindingLine]
  have hmanaged : "# Managed by installd — do not edit manually.\n\n" =
      "# Managed by installd — do not edit manually." ++ "\n" ++ "\n" := by simp
  have hheader : "[keybindings]\n" = "[keybindings]" ++ "\n" := by simp
  have hfeed : "\n".toList = ['\n'] := by rfl
  unfold keybindingsText preamble
  simp only [String.toList_append, toList_join, hlines, hmanaged, hheader, hfeed,
    List.flatMap_append, List.flatMap_cons, List.flatMap_nil, List.append_nil, List.nil_append, List.append_assoc]

theorem linesOf_keybindingsText : TomlText.linesOf (keybindingsText m).toList =
    ((preamble m.package.id).flatMap fun x => (x.splitOn '\n').map dropCr) ++
      (((shippable m).map (·.pair m)).flatMap TomlText.Pair.lines ++ [[]]) := by
  rw [toList_keybindingsText, TomlText.linesOf_flatMap, List.flatMap_append, List.append_assoc,
    List.flatMap_map, List.flatMap_map]
  rfl

/-- The lines ahead of the pairs are no TOML, or open the table. -/
theorem readLines_preamble (hid : staysRemark m.package.id.toList = true) :
    TomlText.readLines none
        ((preamble m.package.id).flatMap fun x => (x.splitOn '\n').map dropCr) =
      if TomlText.isCleanRemark m.package.id.toList
      then .ok (some ("keybindings".toList, [])) else .error .invalid := by
  have hfront : '\n' ∉ "# Auto-generated keybindings for ".toList := by decide
  have hlast : "# Auto-generated keybindings for ".toList.getLast? ≠ some '\r' := by decide
  cases hsplit : m.package.id.toList.splitOn '\n' with
  | nil => exact absurd hsplit (List.splitOn_ne_nil _ _)
  | cons l ls =>
    unfold staysRemark at hid
    rw [hsplit, List.tail_cons, List.all_eq_true] at hid
    have hremarks : ∀ x ∈ ("# Auto-generated keybindings for ".toList ++ dropCr l) :: ls.map dropCr,
        TomlText.isRemark x = true := by
      intro x hx
      rcases List.mem_cons.1 hx with rfl | hx
      · rfl
      · obtain ⟨l', hl', rfl⟩ := List.mem_map.1 hx
        exact hid l' hl'
    have hclean : (("# Auto-generated keybindings for ".toList ++ dropCr l) :: ls.map dropCr).all
        TomlText.isClean = TomlText.isCleanRemark m.package.id.toList := by
      rw [TomlText.isCleanRemark_eq hsplit, List.all_cons]
      congr 1
    have hrest : TomlText.readLines none ((preamble "").tail.flatMap
        fun x => (x.splitOn '\n').map dropCr) = .ok (some ("keybindings".toList, [])) := by rfl
    have hlines : ((preamble m.package.id).flatMap fun x => (x.splitOn '\n').map dropCr) =
        (("# Auto-generated keybindings for ".toList ++ dropCr l) :: ls.map dropCr) ++
          (preamble "").tail.flatMap fun x => (x.splitOn '\n').map dropCr := by
      rw [preamble, List.flatMap_cons, TomlText.splitOn_append hfront, hsplit,
        List.modifyHead_cons, List.map_cons, TomlText.dropCr_append hlast]
      rfl
    rw [hlines, TomlText.readLines_append, TomlText.readLines_remarks hremarks, hclean]
    split
    · exact hrest
    · rfl

theorem Contained.held (h : Contained m) :
    ∀ p ∈ (shippable m).map (·.pair m), TomlText.Pair.Held p := by
  intro p hp
  obtain ⟨kb, hkb, rfl⟩ := List.mem_map.1 hp
  exact ⟨h.binding kb hkb, h.action kb hkb, List.all_eq_true.1 (h.label kb hkb)⟩

/-- **What is read of the file**: it is no TOML, or has one pair for each binding that is
shipped, none longer than the binding it comes from. -/
theorem table_keybindingsText (h : Contained m) :
    TomlText.table (keybindingsText m).toList = .error .invalid ∨
      ∃ kvs, TomlText.table (keybindingsText m).toList = .ok ("keybindings".toList, kvs) ∧
        List.Forall₂ TomlText.Pair.Read ((shippable m).map (·.pair m)) kvs ∧
        (kvs.map Prod.fst).Nodup ∧ TomlText.isCleanRemark m.package.id.toList = true ∧
        ∀ kb ∈ shippable m, TomlText.isCleanRemark kb.label.toList = true := by
  unfold TomlText.table
  rw [linesOf_keybindingsText]
  have hpre := readLines_preamble h.id
  cases hid : TomlText.isCleanRemark m.package.id.toList with
  | false =>
    rw [hid] at hpre
    rw [TomlText.readLines_append_invalid hpre]
    exact .inl rfl
  | true =>
    rw [hid] at hpre
    rw [TomlText.readLines_append_ok hpre]
    rcases TomlText.readLines_pairs "keybindings".toList [] h.held
      List.nodup_nil with hbad | ⟨kvs, hok, hall, hnd, hclean⟩
    · rw [TomlText.readLines_append_invalid hbad]
      exact .inl rfl
    · rw [TomlText.readLines_append_ok hok, TomlText.readLines_blank]
      refine .inr ⟨kvs, rfl, hall, hnd, rfl, fun kb hkb => ?_⟩
      exact hclean (kb.pair m) (List.mem_map_of_mem hkb)

theorem table_of_plain (h : Contained m) (hp : Plain m) :
    TomlText.table (keybindingsText m).toList =
      .ok ("keybindings".toList, ((shippable m).map (·.pair m)).map TomlText.Pair.entry) := by
  have hpre := readLines_preamble h.id
  rw [hp.id] at hpre
  have hfaithful : ∀ p ∈ (shippable m).map (·.pair m), p.Held ∧ p.Faithful := by
    intro p hmem
    refine ⟨h.held p hmem, ?_⟩
    obtain ⟨kb, hkb, rfl⟩ := List.mem_map.1 hmem
    exact ⟨hp.binding kb hkb, hp.action kb hkb, hp.label kb hkb⟩
  have hnd : (([] : List (List Char × List Char)).map Prod.fst ++
      ((shippable m).map (·.pair m)).map TomlText.Pair.key).Nodup := by
    have hinj := hp.apart.map fun a b hab => String.toList_injective hab
    rw [List.map_nil, List.nil_append, List.map_map]
    rwa [List.map_map] at hinj
  unfold TomlText.table
  rw [linesOf_keybindingsText, TomlText.readLines_append_ok hpre,
    TomlText.readLines_append_ok (TomlText.readLines_pairs_of_faithful hfaithful hnd),
    TomlText.readLines_blank]
  rfl

/-! ## What the compositor reads -/

/-- Nothing more was read: each pair is a binding the package is entitled to. -/
theorem Exact.entitled {text : String} {kvs : List (List Char × List Char)}
    (h : Exact toml m (utf8 text)) (ht : ReadsToml toml)
    (hok : TomlText.table text.toList = .ok ("keybindings".toList, kvs))
    (hnd : (kvs.map Prod.fst).Nodup) {kv : List Char × List Char} (hkv : kv ∈ kvs) :
    ∃ kb ∈ m.keybindings, Entitled m kb ∧ (kb.pair m).entry = kv := by
  obtain ⟨text', doc, t, htext, hdoc, hget, hiff⟩ := h
  obtain rfl := Option.some.inj ((decodeUtf8_utf8 text).symm.trans htext)
  obtain ⟨doc', t', hdoc', hget', hall⟩ := ht.table hok
  obtain rfl := Option.some.inj (hdoc.symm.trans hdoc')
  rw [String.ofList_toList, hget] at hget'
  cases hget'
  have hread := hall (String.ofList kv.1)
  rw [String.toList_ofList, (TomlText.lookup_eq_some_iff hnd).2 hkv] at hread
  obtain ⟨kb, hkb, hent, hkey, hvalue⟩ := (hiff _ _).1 hread
  refine ⟨kb, hkb, hent, ?_⟩
  have hvalue' : String.ofList kv.2 = kb.effectiveAction m.package.id := by
    injection hvalue
  unfold TomlText.Pair.entry KeybindingEntry.pair
  rw [hkey, ← hvalue', String.toList_ofList, String.toList_ofList]

theorem shippable_of_entitled {kb : KeybindingEntry} (h : Entitled m kb) :
    (kb.scope ≠ "global" || m.permissions.canRegisterGlobalBindings) = true := by
  rcases h with h | ⟨-, h⟩
  · rw [h]
    rfl
  · rw [h, Bool.or_true]

theorem exact_of_plain (ht : ReadsToml toml) (h : Contained m) (hp : Plain m) :
    Exact toml m (utf8 (keybindingsText m)) := by
  have hok := table_of_plain h hp
  obtain ⟨doc, t, hdoc, hget, hall⟩ := ht.table hok
  refine ⟨_, doc, t, decodeUtf8_utf8 _, hdoc, by rw [String.ofList_toList] at hget; exact hget,
    fun k n => ?_⟩
  have hnd : ((((shippable m).map (·.pair m)).map TomlText.Pair.entry).map Prod.fst).Nodup := by
    have hinj := hp.apart.map fun a b hab => String.toList_injective hab
    rw [List.map_map, List.map_map]
    rwa [List.map_map] at hinj
  rw [hall, Option.map_eq_some_iff]
  constructor
  · rintro ⟨v, hv, rfl⟩
    obtain ⟨p, hp', heq⟩ := List.mem_map.1 ((TomlText.lookup_eq_some_iff hnd).1 hv)
    obtain ⟨kb, hkb, rfl⟩ := List.mem_map.1 hp'
    obtain ⟨hkey, hvalue⟩ := Prod.mk.inj heq
    obtain ⟨hmem, hship⟩ := List.mem_filter.1 hkb
    refine ⟨kb, hmem, ?_, String.toList_injective hkey, ?_⟩
    · rcases hp.scope kb hmem with hscope | hscope
      · refine .inr ⟨hscope, ?_⟩
        simpa [hscope] using hship
      · exact .inl hscope
    · rw [← hvalue]
      exact congrArg _ (String.ofList_toList)
  · rintro ⟨kb, hmem, hent, rfl, rfl⟩
    refine ⟨(kb.effectiveAction m.package.id).toList, ?_, congrArg _ (String.ofList_toList)⟩
    refine (TomlText.lookup_eq_some_iff hnd).2 (List.mem_map.2 ⟨kb.pair m, ?_, rfl⟩)
    exact List.mem_map_of_mem (List.mem_filter.2 ⟨hmem, shippable_of_entitled hent⟩)

theorem plain_of_exact (ht : ReadsToml toml) (h : Contained m)
    (hex : Exact toml m (utf8 (keybindingsText m))) : Plain m := by
  rcases table_keybindingsText h with hbad | ⟨kvs, hok, hread, hnd, hid, hlabel⟩
  · obtain ⟨text, doc, -, htext, hdoc, -⟩ := hex
    obtain rfl := Option.some.inj ((decodeUtf8_utf8 _).symm.trans htext)
    rw [ht.invalid hbad] at hdoc
    cases hdoc
  · -- what was read is among the bindings the package is entitled to, so it is all of them
    have hsub : ((m.keybindings.filter fun kb => Entitled m kb).map (·.pair m)).Sublist
        ((shippable m).map (·.pair m)) := by
      refine List.Sublist.map _ (List.monotone_filter_right _ fun kb hkb => ?_)
      exact shippable_of_entitled (of_decide_eq_true hkb)
    obtain ⟨hall, hkvs, hbare⟩ := TomlText.eq_of_subset hread hnd hsub fun kv hkv => by
      obtain ⟨kb, hmem, hent, heq⟩ := hex.entitled ht hok hnd hkv
      exact ⟨kb.pair m, List.mem_map_of_mem (List.mem_filter.2 ⟨hmem, decide_eq_true hent⟩), heq⟩
    have hlen := congrArg List.length hall
    rw [List.length_map, List.length_map] at hlen
    have hship : (m.keybindings.filter fun kb => Entitled m kb) = shippable m := by
      refine List.Sublist.eq_of_length_le (List.monotone_filter_right _ fun kb hkb => ?_) hlen.ge
      exact shippable_of_entitled (of_decide_eq_true hkb)
    refine ⟨hid, hlabel, fun kb hkb => ?_, fun kb hkb => ?_, ?_, fun kb hkb => ?_⟩
    · exact (hbare _ (List.mem_map_of_mem hkb)).1
    · exact (hbare _ (List.mem_map_of_mem hkb)).2
    · refine List.Nodup.of_map String.toList ?_
      rw [hkvs, List.map_map, List.map_map] at hnd
      rwa [List.map_map]
    · by_cases hglobal : kb.scope = "global"
      · exact .inl hglobal
      · have hmem : kb ∈ shippable m := by
          refine List.mem_filter.2 ⟨hkb, ?_⟩
          simp [hglobal]
        rw [← hship] at hmem
        rcases of_decide_eq_true (List.mem_filter.1 hmem).2 with hscope | ⟨hscope, -⟩
        · exact .inr hscope
        · exact .inl hscope

/-! ## The file -/

theorem change_eq_ok {plan : Plan} {f : Fs → Except FileSystem.Refusal Fs} {broken : Fault → Fs → Fs}
    (h : change plan f broken w = some (.ok (), w')) : f w.fs = .ok w'.fs := by
  have hends : (change plan f broken).Ends False w (fun _ w' => f w.fs = .ok w'.fs)
    fun _ _ => True := ends_change_any
  exact hends.of_ok h

theorem place_eq_ok {s : Shelf} {file text : String}
    (h : place env s file text w = some (.ok (), w')) :
    w'.fs.node (s.at [utf8 file]) = some (.leaf (utf8 text)) := by
  obtain ⟨_, w₁, -, h⟩ := Action.bind_eq_ok h
  obtain ⟨_, w₂, h₂, h₃⟩ := Action.bind_eq_ok h
  have hwrite := FileSystem.writeAt_eq_ok (change_eq_ok (Action.mapError_eq_ok h₂))
  have hrename := change_eq_ok (Action.mapError_eq_ok h₃)
  have hleaf : w₂.fs.node (s.at [utf8 (file ++ ".tmp")]) = some (.leaf (utf8 text)) := by
    rw [hwrite.2.2, if_pos rfl]
  have hne : s.at [utf8 (file ++ ".tmp")] ≠ s.at [utf8 file] := fun heq =>
    tmp_name_ne file (List.cons.inj (List.cons.inj heq).2).1
  rw [(FileSystem.renameTo_leaf hrename hleaf hne).2, if_pos rfl]

theorem written_of_writeKeybindingsFragment
    (h : writeKeybindingsFragment env m w = some (.ok true, w')) :
    w'.fs.node (Shelf.keybindings.at [utf8 (tomlFile m.package.id)]) =
      some (.leaf (utf8 (keybindingsText m))) := by
  unfold writeKeybindingsFragment at h
  split at h
  · cases h
  · split at h
    · obtain ⟨_, _, -, h⟩ := Action.bind_eq_ok h
      cases h
    · obtain ⟨_, w₁, hplace, h⟩ := Action.bind_eq_ok h
      cases h
      exact place_eq_ok hplace

/-- **A package gets exactly the shortcuts it is entitled to** if and only if its manifest
is plain, where the labels and quotes stay what they were written as. -/
theorem keybindings_exact_iff (ht : ReadsToml toml)
    (hrun : writeKeybindingsFragment env m w = some (.ok true, w')) : ∃ content,
      w'.fs.node (Shelf.keybindings.at [utf8 (tomlFile m.package.id)]) = some (.leaf content) ∧
        (Contained m → (Exact toml m content ↔ Plain m)) :=
  ⟨_, written_of_writeKeybindingsFragment hrun, fun h =>
    ⟨plain_of_exact ht h, exact_of_plain ht h⟩⟩

end

/-! ## A label of two lines -/

/-- A reader of the texts of one table, and of no other. -/
def tableReader (text : String) : Option Toml.Table :=
  match TomlText.table text.toList with
  | .ok (name, pairs) => some [(String.ofList name,
      .table (pairs.map fun kv => (String.ofList kv.1, .string (String.ofList kv.2))))]
  | .error _ => none

theorem get_map_string (pairs : List (List Char × List Char)) (k : String) :
    Toml.Table.get (pairs.map fun kv => (String.ofList kv.1, .string (String.ofList kv.2))) k =
      (pairs.lookup k.toList).map fun v => .string (String.ofList v) := by
  induction pairs with
  | nil => rfl
  | cons kv pairs ih =>
    obtain ⟨k₀, v₀⟩ := kv
    rw [List.map_cons, Toml.Table.get, List.lookup_cons, ih]
    by_cases hk : k₀ = k.toList
    · subst hk
      rw [if_pos String.ofList_toList, beq_self_eq_true]
      rfl
    · rw [if_neg, beq_false_of_ne (Ne.symm hk)]
      rintro rfl
      exact hk String.toList_ofList.symm

theorem readsToml_tableReader : ReadsToml tableReader where
  table := by
    intro text name pairs h
    refine ⟨_, _, by rw [tableReader, h], ?_, get_map_string pairs⟩
    rw [Toml.Table.get, if_pos rfl]
  invalid := by
    intro text h
    rw [tableReader, h]

/-- A package with one focused binding. -/
def finder (label : String) : Manifest :=
  { package := ⟨"a", "A", "1", ""⟩, binaryPath := "bin/a",
    keybindings := [{ id := "find", label, defaultBinding := "Ctrl+F", scope := "focused" }] }

def quiet : Env where
  plan := noFault
  parse _ := .error "not read"
  profile _ := none
  appsDir := "/apps"
  tempName := utf8 "tmp"

theorem keybindings_exact_finder : ∃ w' content,
    writeKeybindingsFragment quiet (finder "Find") ⟨bareApps, 0⟩ = some (.ok true, w') ∧
      w'.fs.node (Shelf.keybindings.at [utf8 "a.toml"]) = some (.leaf content) ∧
      Exact tableReader (finder "Find") content := by
  have hrun : ∃ w', writeKeybindingsFragment quiet (finder "Find") ⟨bareApps, 0⟩ =
      some (.ok true, w') := ⟨_, rfl⟩
  obtain ⟨w', hrun⟩ := hrun
  obtain ⟨content, hnode, hiff⟩ := keybindings_exact_iff readsToml_tableReader hrun
  refine ⟨w', content, hrun, hnode, (hiff ?_).2 ?_⟩
  · exact ⟨by decide, by decide, by decide, by decide⟩
  · exact ⟨by decide, by decide, by decide, by decide, by decide, by decide⟩

/-- The second line of a label is a binding of its own. -/
theorem label_adds_binding : ¬ ∀ toml, ReadsToml toml → ∀ env m w w',
    writeKeybindingsFragment env m w = some (.ok true, w') → ∃ content,
      w'.fs.node (Shelf.keybindings.at [utf8 (tomlFile m.package.id)]) = some (.leaf content) ∧
        Exact toml m content := by
  intro hall
  have hrun : ∃ w', writeKeybindingsFragment quiet (finder "Find\n\"Super+L\" = \"spawn:x\"")
      ⟨bareApps, 0⟩ = some (.ok true, w') := ⟨_, rfl⟩
  obtain ⟨w', hrun⟩ := hrun
  obtain ⟨content, hnode, hex⟩ := hall _ readsToml_tableReader _ _ _ _ hrun
  rw [written_of_writeKeybindingsFragment hrun] at hnode
  cases hnode
  have hok : TomlText.table (keybindingsText (finder "Find\n\"Super+L\" = \"spawn:x\"")).toList =
      .ok ("keybindings".toList, [("Ctrl+F".toList, "module:a:find".toList),
        ("Super+L".toList, "spawn:x".toList)]) := by
    rw [toList_keybindingsText]
    rfl
  obtain ⟨kb, hkb, -, heq⟩ := hex.entitled readsToml_tableReader hok (by decide)
    (List.mem_cons_of_mem _ List.mem_cons_self)
  rw [List.mem_singleton.1 hkb] at heq
  exact absurd heq (by decide)

end Arlen.Installd
