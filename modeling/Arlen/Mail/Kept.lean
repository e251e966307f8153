import Arlen.Mail.Maildir

/-!
# No mail is lost

A message is followed by its name: a call that answers with a new id has moved the
message to it, and a delete that answers with none has unlinked it. A rename
replaces whatever message stands at its destination, so a message is followed to
the end of a run exactly as long as no call renames onto a name another one has.
-/

namespace Arlen.Mail

open Arlen.Lib

variable {disk disk' : Disk} {id folder sub name newId rel a b s : Str} {p q dir : List Str}
  {content : Bytes}

/-! ## Ids and locations -/

theorem eq_of_rsplitOnce {pat : Str} (h : rsplitOnce pat s = some (a, b)) : s = a ++ (pat ++ b) := by
  induction s generalizing a with
  | nil => cases h
  | cons c s ih =>
    rw [rsplitOnce] at h
    split at h
    · next a' b' h' =>
      obtain ⟨rfl, rfl⟩ := Prod.mk.inj (Option.some.inj h)
      rw [ih h']
      rfl
    · split at h
      · next hp =>
        obtain ⟨rfl, rfl⟩ := Prod.mk.inj (Option.some.inj h)
        obtain ⟨r, hr⟩ := List.isPrefixOf_iff_prefix.1 hp
        rw [← hr, List.drop_left, List.nil_append]
      · cases h

theorem slash_not_mem_of_none (h : rsplitOnce ['/'] s = none) : '/' ∉ s := by
  induction s with
  | nil => exact List.not_mem_nil
  | cons c s ih =>
    rw [rsplitOnce] at h
    split at h
    · cases h
    · next h' =>
      split at h
      · cases h
      · next hp =>
        intro hm
        rcases List.mem_cons.1 hm with rfl | hm
        · exact hp (by simp)
        · exact ih h' hm

theorem slash_not_mem_behind (h : rsplitOnce ['/'] s = some (a, b)) : '/' ∉ b := by
  induction s generalizing a with
  | nil => cases h
  | cons c s ih =>
    rw [rsplitOnce] at h
    split at h
    · next h' =>
      obtain ⟨rfl, rfl⟩ := Prod.mk.inj (Option.some.inj h)
      exact ih h'
    · next h' =>
      split at h
      · obtain ⟨rfl, rfl⟩ := Prod.mk.inj (Option.some.inj h)
        exact slash_not_mem_of_none h'
      · cases h

theorem pathOf_append (a b : Str) : pathOf (a ++ '/' :: b) = pathOf a ++ pathOf b := by
  unfold pathOf List.splitOn
  exact List.splitOnP_append_cons a b (by simp)

theorem pathOf_of_not_mem (h : '/' ∉ s) : pathOf s = [s] := by
  unfold pathOf List.splitOn
  refine List.splitOnP_eq_singleton fun x hx => ?_
  refine beq_eq_false_iff_ne.2 ?_
  rintro rfl
  exact h hx

/-- `new` or `cur`. -/
def IsSub (sub : Str) : Prop := sub = new ∨ sub = cur

instance (sub : Str) : Decidable (IsSub sub) := inferInstanceAs (Decidable (_ ∨ _))

theorem IsSub.slash (h : IsSub sub) : '/' ∉ sub := by
  rcases h with rfl | rfl <;> decide

theorem pathOf_splitFolder {head : Str} (h : ∀ t, head ≠ '/' :: t) :
    pathOf head = folderDir (splitFolder head).1 ++ [(splitFolder head).2] := by
  unfold splitFolder
  cases hf : rsplitOnce ['/'] head with
  | none =>
    rw [pathOf_of_not_mem (slash_not_mem_of_none hf)]
    rfl
  | some fs =>
    obtain ⟨f, sub⟩ := fs
    have hhead := eq_of_rsplitOnce hf
    have hne : f ≠ [] := by
      rintro rfl
      exact h _ hhead
    rw [hhead, List.singleton_append, pathOf_append, pathOf_of_not_mem (slash_not_mem_behind hf)]
    simp only [Option.getD_some]
    rw [folderDir, if_neg hne]

/-- The location of a safe id is its folder's directory, `new` or `cur`, and its name. -/
theorem pathOf_of_splitId (hsafe : safeId id = true) (h : splitId id = some (folder, sub, name)) :
    pathOf id = folderDir folder ++ [sub] ++ [name] ∧ IsSub sub ∧ '/' ∉ name := by
  unfold splitId at h
  split at h
  · cases h
  · next head name' hhead =>
    have hname := slash_not_mem_behind hhead
    have hid := eq_of_rsplitOnce hhead
    have hstart : ∀ t, head ≠ '/' :: t := by
      rintro t rfl
      rw [hid] at hsafe
      simp [safeId] at hsafe
    simp only at h
    split_ifs at h with h₁ h₂
    simp only [Option.some.injEq, Prod.mk.injEq] at h
    obtain ⟨rfl, rfl, rfl⟩ := h
    have hsub : IsSub (splitFolder head).2 := by
      unfold IsSub
      tauto
    refine ⟨?_, hsub, hname⟩
    rw [hid, List.singleton_append, pathOf_append, pathOf_of_not_mem hname,
      pathOf_splitFolder hstart]

theorem pathOf_joinId (hsub : '/' ∉ sub) (hname : '/' ∉ name) :
    pathOf (joinId folder sub name) = folderDir folder ++ [sub] ++ [name] := by
  unfold joinId folderDir
  split
  · rw [pathOf_append, pathOf_of_not_mem hsub, pathOf_of_not_mem hname]
    rfl
  · rw [pathOf_append, pathOf_append, pathOf_of_not_mem hsub, pathOf_of_not_mem hname,
      List.append_assoc]

theorem slash_withFlag (h : '/' ∉ name) : '/' ∉ withFlag name 'S' := by
  unfold withFlag
  split
  · next stem flags hs =>
    have hname := eq_of_rsplitOnce hs
    have hstem : '/' ∉ stem := fun hm => h (by rw [hname]; exact List.mem_append_left _ hm)
    have hflags : '/' ∉ flags := fun hm => h (by
      rw [hname]
      exact List.mem_append_right _ (List.mem_append_right _ hm))
    split
    · simp [hstem, hflags]
    · intro hm
      rcases List.mem_append.1 hm with hm | hm
      · simp [hstem] at hm
      · have hsorted := (List.destutter_sublist _ _).subset hm
        have hin := (sortBy_perm _ _).mem_iff.1 hsorted
        simp [hflags] at hin
  · simp [h]

/-! ## Messages -/

/-- A location in some folder's `new/` or `cur/`. -/
def Slot (p : List Str) : Prop := ∃ dir sub name, IsSub sub ∧ p = dir ++ [sub] ++ [name]

/-- What stands in `new/` and `cur/` are files. -/
def Account (disk : Disk) : Prop := ∀ p, Slot p → disk.node p ≠ some .dir

def Message (disk : Disk) (p : List Str) (content : Bytes) : Prop :=
  Slot p ∧ disk.node p = some (.leaf content)

/-- A call, with the fault it meets. -/
inductive Call where
  | markSeen (id : Str) (fault : Option String)
  | moveTo (id dest : Str) (fault : Option String)
  | delete (id : Str) (fault : Option String)
  | saveDraft (o : Origin) (secs : Nat) (to' subject body : Str) (fault : DraftFault)
deriving DecidableEq

def Call.run (disk : Disk) : Call → Outcome
  | .markSeen id fault => Mail.markSeen disk fault id
  | .moveTo id dest fault => Mail.moveTo disk fault id dest
  | .delete id fault => Mail.delete disk fault id
  | .saveDraft o secs to' subject body fault => Mail.saveDraft disk fault o secs to' subject body

/-- Where the message of the given id stands. -/
def Call.source : Call → Option (List Str)
  | .markSeen id _ => some (pathOf id)
  | .moveTo id _ _ => some (pathOf id)
  | .delete id _ => some (pathOf id)
  | .saveDraft .. => none

/-- Where a move renames to, when it comes to that. -/
def moveTarget (disk : Disk) (id dest : Str) : Option String → Option (List Str)
  | some _ => none
  | none =>
    match messagePath disk id, splitId id with
    | some _, some (folder, sub, name) =>
      if (dest ≠ [] ∧ safeId dest = false) ∨ isMaildir disk (folderDir dest) = false ∨
        folder = dest then none
      else some (folderDir dest ++ [sub] ++ [name])
    | _, _ => none

/-- Where a call renames to, when it comes to that. -/
def Call.target (disk : Disk) : Call → Option (List Str)
  | .markSeen _ (some _) => none
  | .markSeen id none =>
    match messagePath disk id, splitId id with
    | some _, some (folder, _, name) => some (folderDir folder ++ [cur] ++ [withFlag name 'S'])
    | _, _ => none
  | .moveTo id dest fault => moveTarget disk id dest fault
  | .delete id fault =>
    (splitId id).bind fun (folder, _, _) =>
      ((folderOf disk .trash).filter (· ≠ folder)).bind fun rel => moveTarget disk id rel fault
  | .saveDraft o .. => some ([draftsRel disk] ++ [cur] ++ [draftName o])

/-- No message but the call's own has the name the call renames to. -/
def Clear (disk : Disk) (c : Call) : Prop :=
  ∀ dst, c.target disk = some dst → disk.node dst = none ∨ c.source = some dst

/-- The text a call puts under the id it answers with. -/
def Call.Content (disk : Disk) (content : Bytes) : Call → Prop
  | .markSeen id _ => Message disk (pathOf id) content
  | .moveTo id _ _ => Message disk (pathOf id) content
  | .delete id _ => Message disk (pathOf id) content
  | .saveDraft _ secs to' subject body _ =>
    content = utf8 (String.ofList (draftText secs to' subject body))

/-! ## One call -/

/-- Same messages. -/
def SameMail (disk disk' : Disk) : Prop := ∀ p, Slot p → disk'.node p = disk.node p

/-- What a call does to the messages. -/
inductive Effect (disk : Disk) (c : Call) : Outcome → Prop where
  | refused (e : WriteProblem) (disk' : Disk) : SameMail disk disk' → Effect disk c (.error e, disk')
  | stays (newId : Str) (content : Bytes) : c.source = some (pathOf newId) →
      Message disk (pathOf newId) content → Effect disk c (.ok (some newId), disk)
  | moved (src : List Str) (newId : Str) (content : Bytes) (disk' : Disk) : c.source = some src →
      Message disk src content → c.target disk = some (pathOf newId) → Slot (pathOf newId) →
      (∀ p, Slot p → disk'.node p = if p = pathOf newId then some (.leaf content)
        else if p = src then none else disk.node p) → Effect disk c (.ok (some newId), disk')
  | unlinked (id : Str) (fault : Option String) (content : Bytes) (disk' : Disk) :
      c = .delete id fault → Message disk (pathOf id) content →
      (∀ p, Slot p → disk'.node p = if p = pathOf id then none else disk.node p) →
      Effect disk c (.ok none, disk')
  | drafted (newId : Str) (content : Bytes) (disk' : Disk) : c.source = none →
      c.Content disk content → c.target disk = some (pathOf newId) → Slot (pathOf newId) →
      (∀ p, Slot p → disk'.node p = if p = pathOf newId then some (.leaf content)
        else disk.node p) → Effect disk c (.ok (some newId), disk')

theorem slot_concat (dir : List Str) (hsub : IsSub sub) : Slot (dir ++ [sub] ++ [name]) := ⟨dir, sub, name, hsub, rfl⟩

theorem Account.leaf (hacc : Account disk) (hslot : Slot p) (h : disk.node p ≠ none) :
    ∃ content, disk.node p = some (.leaf content) := by
  cases hp : disk.node p with
  | none => exact absurd hp h
  | some e =>
    cases e with
    | dir => exact absurd hp (hacc p hslot)
    | leaf content => exact ⟨content, rfl⟩

/-- An id that a call finds names a message. -/
theorem message_of_id (hacc : Account disk) (hpath : messagePath disk id = some p)
    (hid : splitId id = some (folder, sub, name)) :
    p = pathOf id ∧ pathOf id = folderDir folder ++ [sub] ++ [name] ∧ IsSub sub ∧ '/' ∉ name ∧
      ∃ content, Message disk (pathOf id) content := by
  unfold messagePath at hpath
  split_ifs at hpath with h
  obtain ⟨hloc, hsub, hname⟩ := pathOf_of_splitId h.1 hid
  have hslot : Slot (pathOf id) := by
    rw [hloc]
    exact slot_concat _ hsub
  obtain ⟨content, hcontent⟩ := hacc.leaf hslot h.2
  exact ⟨(Option.some.inj hpath).symm, hloc, hsub, hname, content, hslot, hcontent⟩

theorem call_eq_ok {fault : Option String} {op : Disk → Except FileSystem.Refusal Disk}
    (h : call fault disk op = .ok disk') : fault = none ∧ op disk = .ok disk' := by
  unfold call at h
  split at h
  · cases h
  · split at h
    · next hop =>
      rw [hop, Except.ok.inj h]
      exact ⟨rfl, rfl⟩
    · cases h

/-- A message renamed to a slot. -/
theorem effect_renameTo {c : Call} {fault : Option String} {src : List Str} {content : Bytes}
    (hacc : Account disk) (hsrc : c.source = some src) (hmsg : Message disk src content)
    (hsub : IsSub sub) (hid : pathOf newId = dir ++ [sub] ++ [name])
    (htarget : fault = none → c.target disk = some (pathOf newId)) :
    Effect disk c (renameTo disk fault src (dir ++ [sub]) name newId) := by
  have hslot : Slot (pathOf newId) := by
    rw [hid]
    exact slot_concat _ hsub
  unfold renameTo
  split
  · next disk' hcall =>
    obtain ⟨-, -, ⟨hself, rfl⟩ | ⟨-, hdir, hne, hapart, rfl⟩⟩ :=
      FileSystem.rename_eq_ok (call_eq_ok hcall).2
    · rw [← hid] at hself
      subst hself
      exact .stays newId content hsrc hmsg
    · refine .moved src newId content _ hsrc hmsg (htarget (call_eq_ok hcall).1) hslot fun p _ => ?_
      rw [hid]
      exact FileSystem.node_move_leaf hmsg.2 (hid ▸ hacc _ hslot) p
  · exact .refused _ _ fun _ _ => rfl

theorem effect_markSeen (hacc : Account disk) (id : Str) (fault : Option String) :
    Effect disk (.markSeen id fault) (markSeen disk fault id) := by
  unfold markSeen
  split
  · next src folder sub name hpath hid =>
    obtain ⟨rfl, hloc, -, hname, content, hmsg⟩ := message_of_id hacc hpath hid
    have hnew : pathOf (joinId folder cur (withFlag name 'S')) =
        folderDir folder ++ [cur] ++ [withFlag name 'S'] :=
      pathOf_joinId (by decide) (slash_withFlag hname)
    simp only
    split
    · next heq =>
      rw [← hnew] at heq
      refine .stays _ content ?_ (heq ▸ hmsg)
      rw [← heq]
      rfl
    · refine effect_renameTo hacc rfl hmsg (Or.inr rfl) hnew ?_
      rintro rfl
      simp only [Call.target, hpath, hid, hnew]
  · exact .refused _ _ fun _ _ => rfl

/-- A move, made by a call that has the move's source and target. -/
theorem effect_moveTo_as {c : Call} {dest : Str} (hacc : Account disk) (fault : Option String)
    (hsrc : c.source = some (pathOf id)) (htarget : c.target disk = moveTarget disk id dest fault) :
    Effect disk c (moveTo disk fault id dest) := by
  unfold moveTo
  split
  · next src folder sub name hpath hid =>
    obtain ⟨rfl, hloc, hsub, hname, content, hmsg⟩ := message_of_id hacc hpath hid
    split
    · exact .refused _ _ fun _ _ => rfl
    next hsafe =>
    split
    · exact .refused _ _ fun _ _ => rfl
    next hmail =>
    split
    · exact .stays id content hsrc hmsg
    · next hne =>
      have hnew : pathOf (joinId dest sub name) = folderDir dest ++ [sub] ++ [name] :=
        pathOf_joinId hsub.slash hname
      refine effect_renameTo hacc hsrc hmsg hsub hnew ?_
      rintro rfl
      simp only [htarget, moveTarget, hpath, hid]
      rw [if_neg (by tauto), hnew]
  · exact .refused _ _ fun _ _ => rfl

theorem effect_delete (hacc : Account disk) (id : Str) (fault : Option String) :
    Effect disk (.delete id fault) (delete disk fault id) := by
  unfold delete
  split
  · next src folder sub name hpath hid =>
    obtain ⟨rfl, hloc, hsub, hname, content, hmsg⟩ := message_of_id hacc hpath hid
    split
    · next rel hrel =>
      refine effect_moveTo_as hacc fault rfl ?_
      simp only [Call.target, hid, Option.bind_some, hrel]
    · split
      · next disk' hcall =>
        obtain ⟨b, hb, hp, rfl⟩ := FileSystem.unlink_eq_ok (call_eq_ok hcall).2
        exact .unlinked id fault content _ rfl hmsg fun p _ => FileSystem.node_erase_leaf hb p
      · exact .refused _ _ fun _ _ => rfl
  · exact .refused _ _ fun _ _ => rfl

/-! ## Drafts -/

theorem kindOf_folderOf {kind : FolderKind} (hkind : kind ≠ .inbox)
    (h : folderOf disk kind = some rel) : kindOf rel = some kind := by
  unfold folderOf at h
  obtain ⟨f, hf, rfl⟩ := Option.map_eq_some_iff.1 h
  have hfkind : f.kind = kind := by simpa using List.find?_some hf
  have hmem := List.mem_of_find?_eq_some hf
  unfold folders at hmem
  split at hmem
  · rcases List.mem_cons.1 hmem with rfl | hmem
    · exact absurd hfkind.symm hkind
    · obtain ⟨name, -, hname⟩ := List.mem_filterMap.1 ((sortBy_perm _ _).mem_iff.1 hmem)
      obtain ⟨k, hk, hif⟩ := Option.bind_eq_some_iff.1 hname
      split at hif
      · obtain rfl := Option.some.inj hif
        exact hk.trans (congrArg some hfkind)
      · cases hif
  · cases hmem

theorem kindOf_draftsRel (disk : Disk) : kindOf (draftsRel disk) = some .drafts := by
  unfold draftsRel
  cases h : folderOf disk .drafts with
  | none => decide +kernel
  | some rel => exact kindOf_folderOf (by decide) h

theorem eq_drafts_of_kindOf (h : kindOf rel = some .drafts) :
    (rel.dropWhile (· = '.')).map Char.toLower = "drafts".toList := by
  unfold kindOf at h
  simp only at h
  split_ifs at h with h₁ h₂ h₃ h₄
  · cases h
  · exact h₂
  · cases h
  · cases h

theorem slash_not_mem_drafts (h : kindOf rel = some .drafts) : '/' ∉ rel := by
  intro hm
  have hkept : '/' ∈ rel.dropWhile (· = '.') := by
    rw [← List.takeWhile_append_dropWhile (p := (· = '.')) (l := rel)] at hm
    rcases List.mem_append.1 hm with hm | hm
    · exact absurd (List.mem_takeWhile_imp hm) (by decide)
    · exact hm
  have hlow := List.mem_map_of_mem (f := Char.toLower) hkept
  rw [eq_drafts_of_kindOf h] at hlow
  exact absurd hlow (by decide +kernel)

theorem not_isSub_drafts (h : kindOf rel = some .drafts) : ¬ IsSub rel := by
  rintro (rfl | rfl)
  · exact absurd h (by decide +kernel)
  · exact absurd h (by decide +kernel)

theorem slash_not_mem_toDigits (n : Nat) : '/' ∉ Nat.toDigits 10 n := by
  intro hm
  exact absurd (Nat.isDigit_of_mem_toDigits (by decide) (Nat.le_refl 10) hm) (by decide)

theorem slash_not_mem_host (raw : Str) : '/' ∉ host raw := by
  unfold host
  simp only
  split
  · decide +kernel
  · simp

theorem slash_not_mem_draftName (o : Origin) : '/' ∉ draftName o := by
  unfold draftName uniqueStem
  simp [slash_not_mem_toDigits, slash_not_mem_host]

theorem not_slot_of_sub {n : Str} (dir : List Str) (h : ¬ IsSub sub) : ¬ Slot (dir ++ [sub] ++ [n]) := by
  rintro ⟨dir', sub', name', hsub, heq⟩
  have h₁ := (List.append_inj' heq rfl).1
  have h₂ := List.singleton_inj.1 (List.append_inj' h₁ rfl).2
  exact h (h₂ ▸ hsub)

theorem not_slot_singleton (n : Str) : ¬ Slot [n] := by
  rintro ⟨dir, sub, name, -, heq⟩
  have := congrArg List.length heq
  simp at this

theorem sameMail_ensureDirs {fault : Option (Nat × String)} {dirs : List (List Str × Str)}
    {r : Except WriteProblem Unit} (h : ∀ d ∈ dirs, ¬ Slot (d.1 ++ [d.2]))
    (he : ensureDirs dirs fault disk = (r, disk')) : SameMail disk disk' := by
  induction dirs generalizing disk fault with
  | nil =>
    obtain ⟨-, rfl⟩ := Prod.mk.inj he
    exact fun _ _ => rfl
  | cons d dirs ih =>
    obtain ⟨dir, name⟩ := d
    have hrest : ∀ d ∈ dirs, ¬ Slot (d.1 ++ [d.2]) := fun d hd => h d (List.mem_cons_of_mem _ hd)
    unfold ensureDirs at he
    split at he
    · obtain ⟨-, rfl⟩ := Prod.mk.inj he
      exact fun _ _ => rfl
    · obtain ⟨-, rfl⟩ := Prod.mk.inj he
      exact fun _ _ => rfl
    · next heq hno =>
      obtain ⟨⟨rfl, rfl⟩, rfl⟩ := List.cons.inj heq
      simp only at he
      split at he
      · exact ih hrest he
      split at he
      · next hmk =>
        obtain ⟨hdir, hdst, rfl⟩ := FileSystem.mkdir_eq_ok hmk
        intro p hp
        rw [ih hrest he p hp, FileSystem.node_put_of_ne]
        rintro rfl
        exact h (dir, name) (List.mem_cons_self ..) hp
      · obtain ⟨-, rfl⟩ := Prod.mk.inj he
        exact fun _ _ => rfl

theorem sameMail_write {text : Bytes} (h : ¬ Slot (dir ++ [name]))
    (hw : disk.write dir name text = .ok disk') : SameMail disk disk' := by
  obtain ⟨hdir, hdst, rfl⟩ := FileSystem.write_eq_ok hw
  intro p hp
  refine FileSystem.node_put_of_ne ?_
  rintro rfl
  exact h hp

/-- Staging touches no message; when it succeeds, the text is staged. -/
theorem stage_spec {fault : DraftFault} {text : Bytes} {r : Except WriteProblem Unit}
    (hnot : ¬ Slot (dir ++ [name])) (h : stage disk fault dir name text = (r, disk')) :
    SameMail disk disk' ∧ (r = .ok () → disk'.node (dir ++ [name]) = some (.leaf text)) := by
  unfold stage at h
  split at h
  · obtain ⟨rfl, rfl⟩ := Prod.mk.inj h
    exact ⟨fun _ _ => rfl, nofun⟩
  · split at h
    · next hw =>
      obtain ⟨rfl, rfl⟩ := Prod.mk.inj h
      exact ⟨sameMail_write hnot hw, nofun⟩
    · obtain ⟨rfl, rfl⟩ := Prod.mk.inj h
      exact ⟨fun _ _ => rfl, nofun⟩
  · split at h
    · next hw =>
      obtain ⟨rfl, rfl⟩ := Prod.mk.inj h
      refine ⟨sameMail_write hnot hw, fun _ => ?_⟩
      obtain ⟨hdir, hdst, rfl⟩ := FileSystem.write_eq_ok hw
      exact FileSystem.node_put_self
    · obtain ⟨rfl, rfl⟩ := Prod.mk.inj h
      exact ⟨fun _ _ => rfl, nofun⟩

theorem Account.of_sameMail (hacc : Account disk) (h : SameMail disk disk') : Account disk' := by
  intro p hp
  rw [h p hp]
  exact hacc p hp

theorem effect_saveDraft (hacc : Account disk) (o : Origin) (secs : Nat) (to' subject body : Str)
    (fault : DraftFault) : Effect disk (.saveDraft o secs to' subject body fault)
      (saveDraft disk fault o secs to' subject body) := by
  have hkind := kindOf_draftsRel disk
  have hrel := slash_not_mem_drafts hkind
  have hsub := not_isSub_drafts hkind
  have hdirs : ∀ d ∈ [([], draftsRel disk), ([draftsRel disk], tmp), ([draftsRel disk], new),
      ([draftsRel disk], cur)], ¬ Slot (d.1 ++ [d.2]) := by
    intro d hd
    simp only [List.mem_cons, List.not_mem_nil, or_false] at hd
    rcases hd with rfl | rfl | rfl | rfl
    · exact not_slot_singleton _
    all_goals exact not_slot_of_sub [] hsub
  have hstaged : ¬ Slot ([draftsRel disk, tmp] ++ [draftName o]) :=
    not_slot_of_sub [draftsRel disk] (by decide)
  unfold saveDraft
  simp only
  split
  · next disk₁ he =>
    exact .refused _ _ (sameMail_ensureDirs hdirs he)
  · next disk₁ he =>
    have h₁ := sameMail_ensureDirs hdirs he
    split
    · next disk₂ hs =>
      have h₂ := (stage_spec hstaged hs).1
      exact .refused _ _ fun p hp => (h₂ p hp).trans (h₁ p hp)
    · next disk₂ hs =>
      obtain ⟨h₂, htext⟩ := stage_spec hstaged hs
      have hleaf : disk₂.node [draftsRel disk, tmp, draftName o] = some (.leaf _) := htext rfl
      have h₁₂ : SameMail disk disk₂ := fun p hp => (h₂ p hp).trans (h₁ p hp)
      have hnew : pathOf (joinId (draftsRel disk) cur (draftName o)) =
          [draftsRel disk, cur] ++ [draftName o] := by
        rw [pathOf_joinId (by decide) (slash_not_mem_draftName o), folderDir]
        split
        · next hnil =>
          rw [hnil] at hkind
          exact absurd hkind (by decide +kernel)
        · rw [pathOf_of_not_mem hrel]
          rfl
      have hslot : Slot ([draftsRel disk, cur] ++ [draftName o]) :=
        slot_concat [draftsRel disk] (Or.inr rfl)
      unfold renameTo
      split
      · next disk₃ hcall =>
        obtain ⟨-, -, ⟨hself, -⟩ | ⟨-, hdir, hne, hapart, rfl⟩⟩ :=
          FileSystem.rename_eq_ok (call_eq_ok hcall).2
        · rw [show [draftsRel disk, tmp, draftName o] = [draftsRel disk, tmp] ++ [draftName o]
            from rfl] at hself
          rw [hself] at hstaged
          exact absurd hslot hstaged
        · refine .drafted _ _ _ rfl rfl ?_ (hnew ▸ hslot) fun p hp => ?_
          · rw [hnew]
            rfl
          · rw [hnew, FileSystem.node_move_leaf hleaf
              (hacc.of_sameMail h₁₂ _ hslot) p, h₁₂ p hp]
            have hpne : p ≠ [draftsRel disk, tmp, draftName o] := by
              rintro rfl
              exact hstaged hp
            rw [if_neg hpne]
      · exact .refused _ _ h₁₂

/-- **What each call does to the mail.** -/
theorem effect_run (hacc : Account disk) (c : Call) : Effect disk c (c.run disk) := by
  cases c with
  | markSeen id fault => exact effect_markSeen hacc id fault
  | moveTo id dest fault => exact effect_moveTo_as hacc fault rfl rfl
  | delete id fault => exact effect_delete hacc id fault
  | saveDraft o secs to' subject body fault =>
    exact effect_saveDraft hacc o secs to' subject body fault

theorem account_run (hacc : Account disk) (c : Call) : Account (c.run disk).2 := by
  generalize hout : c.run disk = out
  have h := effect_run hacc c
  rw [hout] at h
  intro p hp
  cases h with
  | refused e disk' hsame => exact hacc.of_sameMail hsame p hp
  | stays => exact hacc p hp
  | moved src newId content disk' _ _ _ _ hnode =>
    simp only [hnode p hp]
    split
    · nofun
    split
    · nofun
    · exact hacc p hp
  | unlinked id fault content disk' _ _ hnode =>
    simp only [hnode p hp]
    split
    · nofun
    · exact hacc p hp
  | drafted newId content disk' _ _ _ _ hnode =>
    simp only [hnode p hp]
    split
    · nofun
    · exact hacc p hp

/-! ## Runs -/

/-- Where a message is after a call, by what the call answers. -/
def Call.follow (disk : Disk) (c : Call) (p : List Str) : Option (List Str) :=
  if c.source = some p then
    match (c.run disk).1 with
    | .ok (some newId) => some (pathOf newId)
    | .ok none => none
    | .error _ => some p
  else some p

/-- The mailbox after a run. -/
def final (disk : Disk) (calls : List Call) : Disk := calls.foldl (fun disk c => (c.run disk).2) disk

/-- Where a message is after a run. -/
def fate : Disk → List Call → List Str → Option (List Str)
  | _, [], p => some p
  | disk, c :: calls, p => (c.follow disk p).bind (fate (c.run disk).2 calls)

/-- Every call of the run is clear when it is made. -/
def ClearRun : Disk → List Call → Prop
  | _, [] => True
  | disk, c :: calls => Clear disk c ∧ ClearRun (c.run disk).2 calls

/-- A delete of the message answered that it is gone. -/
def Deleted (disk : Disk) (calls : List Call) (p : List Str) : Prop :=
  ∃ before id fault after, calls = before ++ .delete id fault :: after ∧
    fate disk before p = some (pathOf id) ∧ (delete (final disk before) fault id).1 = .ok none

/-- The message is there at the end of the run, or was deleted. -/
def Kept (disk : Disk) (calls : List Call) (p : List Str) (content : Bytes) : Prop :=
  (∃ q, fate disk calls p = some q ∧ Message (final disk calls) q content) ∨ Deleted disk calls p

/-- One clear call keeps each message, where its answer says. -/
theorem kept_call {c : Call} (hacc : Account disk) (hclear : Clear disk c)
    (hmsg : Message disk p content) :
    (∃ q, c.follow disk p = some q ∧ Message (c.run disk).2 q content) ∨
      ∃ id fault, c = .delete id fault ∧ p = pathOf id ∧ (c.run disk).1 = .ok none := by
  generalize hout : c.run disk = out
  have h := effect_run hacc c
  rw [hout] at h
  cases h with
  | refused e disk' hsame =>
    refine Or.inl ⟨p, ?_, hmsg.1, ?_⟩
    · simp [Call.follow, hout]
    · simp only [hsame p hmsg.1, hmsg.2]
  | stays newId content' hsrc hmsg' =>
    refine Or.inl ⟨p, ?_, hmsg⟩
    unfold Call.follow
    split
    · next heq =>
      rw [hsrc] at heq
      simp only [hout, Option.some.inj heq]
    · rfl
  | moved src newId content' disk' hsrc hmsg' htarget hslot hnode =>
    by_cases hp : p = src
    · subst hp
      obtain rfl : content' = content := by
        have := hmsg'.2.symm.trans hmsg.2
        simpa using this
      refine Or.inl ⟨pathOf newId, ?_, hslot, ?_⟩
      · simp [Call.follow, hout, hsrc]
      · simp only [hnode _ hslot, if_true]
    · refine Or.inl ⟨p, ?_, hmsg.1, ?_⟩
      · simp [Call.follow, hsrc, Ne.symm hp]
      -- Another message: it does not have the name the call renames to.
      · have hne : p ≠ pathOf newId := by
          rintro rfl
          rcases hclear _ htarget with hnone | hself
          · rw [hmsg.2] at hnone
            cases hnone
          · rw [hsrc] at hself
            exact hp (Option.some.inj hself).symm
        simp only [hnode p hmsg.1, if_neg hne, if_neg hp, hmsg.2]
  | unlinked id fault content' disk' hc hmsg' hnode =>
    by_cases hp : p = pathOf id
    · exact Or.inr ⟨id, fault, hc, hp, rfl⟩
    · refine Or.inl ⟨p, ?_, hmsg.1, ?_⟩
      · simp [Call.follow, hc, Call.source, Ne.symm hp]
      · simp only [hnode p hmsg.1, if_neg hp, hmsg.2]
  | drafted newId content' disk' hsrc _ htarget _ hnode =>
    refine Or.inl ⟨p, ?_, hmsg.1, ?_⟩
    · simp [Call.follow, hsrc]
    · have hne : p ≠ pathOf newId := by
        rintro rfl
        rcases hclear _ htarget with hnone | hself
        · rw [hmsg.2] at hnone
          cases hnone
        · rw [hsrc] at hself
          cases hself
      simp only [hnode p hmsg.1, if_neg hne, hmsg.2]

/-- The id a call answers with names what the call was given. -/
theorem content_of_ok {c : Call} (hacc : Account disk) (h : (c.run disk).1 = .ok (some newId)) :
    ∃ content, c.Content disk content ∧ Message (c.run disk).2 (pathOf newId) content := by
  generalize hout : c.run disk = out at h
  have heff := effect_run hacc c
  rw [hout] at heff
  have hgiven : ∀ {src content}, c.source = some src → Message disk src content →
      c.Content disk content := by
    intro src content hsrc hmsg
    cases c with
    | saveDraft => cases hsrc
    | _ =>
      obtain rfl := Option.some.inj hsrc
      exact hmsg
  cases heff with
  | refused => cases h
  | unlinked => cases h
  | stays newId' content hsrc hmsg =>
    obtain rfl := Option.some.inj (Except.ok.inj h)
    exact ⟨content, hgiven hsrc hmsg, hmsg⟩
  | moved src newId' content disk' hsrc hmsg _ hslot hnode =>
    obtain rfl := Option.some.inj (Except.ok.inj h)
    refine ⟨content, hgiven hsrc hmsg, hslot, ?_⟩
    simp only [hnode _ hslot, if_true]
  | drafted newId' content disk' hsrc hcontent _ hslot hnode =>
    obtain rfl := Option.some.inj (Except.ok.inj h)
    refine ⟨content, hcontent, hslot, ?_⟩
    simp only [hnode _ hslot, if_true]

theorem account_final (hacc : Account disk) (calls : List Call) : Account (final disk calls) := by
  induction calls generalizing disk with
  | nil => exact hacc
  | cons c calls ih => exact ih (account_run hacc c)

theorem ClearRun.append {before after : List Call} (h : ClearRun disk (before ++ after)) :
    ClearRun (final disk before) after := by
  induction before generalizing disk with
  | nil => exact h
  | cons c before ih => exact ih h.2

theorem kept_run {calls : List Call} (hacc : Account disk) (hclear : ClearRun disk calls)
    (hmsg : Message disk p content) : Kept disk calls p content := by
  induction calls generalizing disk p with
  | nil => exact Or.inl ⟨p, rfl, hmsg⟩
  | cons c calls ih =>
    rcases kept_call hacc hclear.1 hmsg with ⟨q, hq, hmsg'⟩ | ⟨id, fault, rfl, rfl, hgone⟩
    · rcases ih (account_run hacc c) hclear.2 hmsg' with ⟨r, hr, hend⟩ | hdel
      · refine Or.inl ⟨r, ?_, hend⟩
        rw [fate, hq]
        exact hr
      · obtain ⟨before, id, fault, after, rfl, hfate, hgone⟩ := hdel
        refine Or.inr ⟨c :: before, id, fault, after, rfl, ?_, hgone⟩
        rw [fate, hq]
        exact hfate
    · exact Or.inr ⟨[], id, fault, calls, rfl, rfl, hgone⟩

/-- **No mail is lost** in a run whose renames each go to a free name: every message
of the account, and every draft saved, is at the end where the answers say it went,
with its content, or a delete of it answered that it is gone; and every id answered
names the content of the id that was given. -/
theorem mail_is_kept (disk : Disk) (calls : List Call) (hacc : Account disk)
    (hclear : ClearRun disk calls) :
    (∀ p content, Message disk p content → Kept disk calls p content) ∧
      ∀ before c after newId, calls = before ++ c :: after →
        (c.run (final disk before)).1 = .ok (some newId) →
        ∃ content, c.Content (final disk before) content ∧
          Message (final disk (before ++ [c])) (pathOf newId) content ∧
          Kept (final disk (before ++ [c])) after (pathOf newId) content := by
  refine ⟨fun p content hmsg => kept_run hacc hclear hmsg, ?_⟩
  rintro before c after newId rfl hok
  have hbefore := account_final hacc before
  obtain ⟨content, hgiven, hmsg⟩ := content_of_ok hbefore hok
  have hfinal : final disk (before ++ [c]) = (c.run (final disk before)).2 := by
    simp [final]
  rw [hfinal]
  exact ⟨content, hgiven, hmsg, kept_run (account_run hbefore c) hclear.append.2 hmsg⟩

/-! ## Two names for one message -/

def onlyCur : Disk := FileSystem.bare.put [] cur .dir (by decide) (by decide)

def emptyInbox : Disk := onlyCur.put [] new .dir (by decide) (by decide)

/-- An inbox with one unread message. -/
def inboxOfOne : Disk := emptyInbox.put [new] ['a'] (.leaf [1]) (by decide) (by decide)

/-- The same inbox, where another client left the name the read mark gives. -/
def inboxOfTwo : Disk :=
  inboxOfOne.put [cur] ['a', ':', '2', ',', 'S'] (.leaf [2]) (by decide) (by decide)

/-- The empty inbox has the two directories alone. -/
theorem node_emptyInbox {p : List Str} (hnew : p ≠ [] ++ [new]) (hcur : p ≠ [] ++ [cur])
    (hroot : p ≠ []) : emptyInbox.node p = none := by
  have h₁ : emptyInbox.node p = onlyCur.node p := FileSystem.node_put_of_ne hnew
  have h₂ : onlyCur.node p = FileSystem.bare.node p := FileSystem.node_put_of_ne hcur
  rw [h₁, h₂]
  cases p with
  | nil => exact absurd rfl hroot
  | cons n p => rfl

theorem account_emptyInbox : Account emptyInbox := by
  rintro p ⟨dir, sub, name, -, rfl⟩
  rw [node_emptyInbox]
  · nofun
  · exact fun h => absurd (congrArg List.length h) (by simp)
  · exact fun h => absurd (congrArg List.length h) (by simp)
  · simp

theorem account_inboxOfOne : Account inboxOfOne := by
  intro p hp
  by_cases h : p = [new] ++ [['a']]
  · rw [h]
    nofun
  · have hnode : inboxOfOne.node p = emptyInbox.node p := FileSystem.node_put_of_ne h
    rw [hnode]
    exact account_emptyInbox p hp

/-- Marking the message, and one that is not there. -/
theorem mail_is_kept_inbox :
    Account inboxOfOne ∧ ClearRun inboxOfOne
        [.markSeen ['n', 'e', 'w', '/', 'a'] none, .markSeen ['n', 'e', 'w', '/', 'b'] none] ∧
      Kept inboxOfOne [.markSeen ['n', 'e', 'w', '/', 'a'] none,
        .markSeen ['n', 'e', 'w', '/', 'b'] none] [new, ['a']] [1] := by
  have hclear : ClearRun inboxOfOne
      [.markSeen ['n', 'e', 'w', '/', 'a'] none, .markSeen ['n', 'e', 'w', '/', 'b'] none] := by
    refine ⟨fun dst h => ?_, fun dst h => ?_, trivial⟩
    · have hdst : dst = [cur, ['a', ':', '2', ',', 'S']] :=
        Option.some.inj (h.symm.trans (by decide))
      rw [hdst]
      exact Or.inl (by decide)
    · have hnone : some dst = none := h.symm.trans (by decide)
      cases hnone
  refine ⟨account_inboxOfOne, hclear, ?_⟩
  exact (mail_is_kept _ _ account_inboxOfOne hclear).1 [new, ['a']] [1]
    ⟨⟨[], new, ['a'], Or.inl rfl, rfl⟩, by decide⟩

/-- The read mark renames the unread message onto the other one, which is gone. -/
theorem mark_seen_replaces :
    Account inboxOfTwo ∧ Message inboxOfTwo [cur, ['a', ':', '2', ',', 'S']] [2] ∧
      (markSeen inboxOfTwo none ['n', 'e', 'w', '/', 'a']).1 =
        .ok (some ['c', 'u', 'r', '/', 'a', ':', '2', ',', 'S']) ∧
      ∀ p, ¬ Message (final inboxOfTwo [.markSeen ['n', 'e', 'w', '/', 'a'] none]) p [2] := by
  have hacc : Account inboxOfTwo := by
    intro p hp
    by_cases h : p = [cur] ++ [['a', ':', '2', ',', 'S']]
    · rw [h]
      nofun
    · have hnode : inboxOfTwo.node p = inboxOfOne.node p := FileSystem.node_put_of_ne h
      rw [hnode]
      exact account_inboxOfOne p hp
  refine ⟨hacc, ⟨⟨[], cur, _, Or.inr rfl, rfl⟩, by decide⟩, by decide, ?_⟩
  have hfinal : final inboxOfTwo [.markSeen ['n', 'e', 'w', '/', 'a'] none] =
      inboxOfTwo.move [new, ['a']] [cur] ['a', ':', '2', ',', 'S'] (by decide) (by decide)
        (by decide) := rfl
  rintro p ⟨-, hp⟩
  have hleaf : inboxOfTwo.node [new, ['a']] = some (.leaf [1]) := by decide
  rw [hfinal, FileSystem.node_move_leaf hleaf (by decide)] at hp
  split_ifs at hp with hdst hsrc
  · cases hp
  · have h₁ : inboxOfTwo.node p = inboxOfOne.node p := FileSystem.node_put_of_ne hdst
    have h₂ : inboxOfOne.node p = emptyInbox.node p := FileSystem.node_put_of_ne hsrc
    rw [h₁, h₂] at hp
    rw [node_emptyInbox] at hp
    · cases hp
    all_goals
      rintro rfl
      cases hp

end Arlen.Mail
