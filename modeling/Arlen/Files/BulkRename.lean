import Arlen.Files.Calls
import Arlen.Lib.Case
import Arlen.Lib.Decimal
import Arlen.Lib.Json
import Arlen.Lib.Moves
import Arlen.Permissions.Filesystem

/-!
# Bulk renames

`plan_rename` of `apps/files/core/src/bulk_rename.rs` and `apply_bulk_rename` of
`ops.rs`: a rule gives every selected name a new one, and the names that change are
exchanged by way of temporary ones. The directory comes out as planned exactly where
nothing that is planned, temporary or unselected is in the way.
-/

namespace Arlen.Files

open Arlen.Lib Arlen.Permissions

/-! ## The plan -/

inductive CaseTransform where
  | lower
  | upper
  | title
deriving DecidableEq

structure Numbering where
  template : String
  start : Nat
  step : Nat
  pad : Nat
deriving DecidableEq

structure RenameRule where
  find : Option String := none
  replace : String := ""
  findCaseInsensitive : Bool := false
  case : Option CaseTransform := none
  numbering : Option Numbering := none
deriving DecidableEq

inductive ConflictKind where
  | none
  | unchanged
  | invalid
  | duplicate
deriving DecidableEq

structure RenamePreview where
  old : String
  new : String
  conflict : ConflictKind
deriving DecidableEq

/-- The case tables of both directions. -/
structure Casing extends CaseTables where
  upper : Char → List Char

/-- How many characters at the front of `hay` match, letter case apart; `lowered` is the
lower case of those `consumed` already. -/
def ciMatchLen (T : Casing) (lowerFind : List Char) : List Char → List Char → Nat → Option Nat
  | [], lowered, consumed => if lowerFind.isPrefixOf lowered then some consumed else none
  | ch :: hay, lowered, consumed =>
    let lowered := lowered ++ T.lower ch
    if Text.byteLen lowerFind ≤ Text.byteLen lowered then
      if lowerFind.isPrefixOf lowered then some (consumed + 1) else none
    else ciMatchLen T lowerFind hay lowered (consumed + 1)

/-- `replace_ci`, from a place where the characters of a match still to be skipped are
`skip`. -/
def replaceCi (T : Casing) (lowerFind replace : List Char) : List Char → Nat → List Char
  | [], _ => []
  | _ :: rest, skip + 1 => replaceCi T lowerFind replace rest skip
  | ch :: rest, 0 =>
    match ciMatchLen T lowerFind (ch :: rest) [] 0 with
    | some matched => replace ++ replaceCi T lowerFind replace rest (matched - 1)
    | none => ch :: replaceCi T lowerFind replace rest 0

def titleWord (T : Casing) : List Char → List Char
  | [] => []
  | first :: chars => T.upper first ++ chars

def applyCase (T : Casing) (name : String) : CaseTransform → String
  | .lower => T.toLowercase name
  | .upper => String.ofList (name.toList.flatMap T.upper)
  | .title =>
    String.ofList ([' '].intercalate ((name.toList.splitOn ' ').map (titleWord T)))

def applyNumbering (name : String) (num : Numbering) (seq : Nat) : String :=
  let number := zeroPadded num.pad seq
  let named := replaceFrom "\x7bname\x7d".toList name.toList num.template.toList 0
  if Text.contains "\x7bn\x7d".toList num.template.toList then
    String.ofList (replaceFrom "\x7bn\x7d".toList number named 0)
  else String.ofList (named ++ number)

def isValidName (name : String) : Bool :=
  name ≠ "" && name ≠ "." && name ≠ ".." && !name.toList.contains '/' &&
    !name.toList.contains '\x00'

/-- The new name of the `i`-th row. The sequence number is a `u64` and wraps. -/
def newName (T : Casing) (rule : RenameRule) (i : Nat) (name : String) : String :=
  let s :=
    match rule.find with
    | some find =>
      if find = "" then name
      else if rule.findCaseInsensitive then
        String.ofList (replaceCi T (T.toLowercase find).toList rule.replace.toList name.toList 0)
      else String.ofList (replaceFrom find.toList rule.replace.toList name.toList 0)
    | none => name
  let s :=
    match rule.case with
    | some case => applyCase T s case
    | none => s
  match rule.numbering with
  | some num => applyNumbering s num ((num.start + i * num.step) % 2 ^ 64)
  | none => s

def newNames (T : Casing) (names : List String) (rule : RenameRule) : List String :=
  names.zipIdx.map fun (name, i) => newName T rule i name

def planRename (T : Casing) (names : List String) (rule : RenameRule) : List RenamePreview :=
  let news := newNames T names rule
  (names.zip news).map fun (old, new) =>
    { old, new
      conflict :=
        if !isValidName new then .invalid
        else if 1 < news.count new then .duplicate
        else if new = old then .unchanged
        else .none }

/-! ## The operation -/

/-- `parent.join(name)`, for a name without a separator. -/
def join (parent : Loc) (name : String) : Loc := parent ++ [utf8 name]

def existsNoFollow (env : Env) (p : Loc) : Op Bool := do
  match ← (lstat env p).attempt with
  | .ok _ => pure true
  | .error _ => pure false

/-- The error a row ends the whole batch in. -/
def refusal (p : RenamePreview) : Option OpError :=
  match p.conflict with
  | .invalid => some (.invalidName p.new)
  | .duplicate => some (.alreadyExists p.new)
  | .none | .unchanged => none

/-- The rows that change. -/
def changes (plan : List RenamePreview) : List (String × String) :=
  (plan.filter fun p => p.conflict = .none ∧ p.new ≠ p.old).map fun p => (p.old, p.new)

/-- A final name that no row vacates must not exist. -/
def guardTarget (env : Env) (parent : Loc) (vacated : List String) (change : String × String) :
    Op Unit := do
  if change.2 ∈ vacated then pure ()
  else if ← existsNoFollow env (join parent change.2) then .fail (.alreadyExists change.2)
  else pure ()

/-- The temporary name of the `i`-th change. -/
def tmpName (env : Env) (i : Nat) : String :=
  ".arlen-bulk-rename." ++ toString env.pid ++ "." ++ toString i

structure Staged where
  tmp : String
  old : String
  new : String
deriving DecidableEq

/-- Move the staged entries back, the newest first, as far as that goes. -/
def rollback (env : Env) (parent : Loc) (staged : List Staged) : Op Unit :=
  Action.forEach staged.reverse fun s => do
    let _ ← (rename env (join parent s.tmp) (join parent s.old)).attempt

/-- Phase one, from the `i`-th change on. -/
def vacate (env : Env) (parent : Loc) :
    Nat → List (String × String) → List Staged → Op (List Staged)
  | _, [], staged => pure staged
  | i, (old, new) :: rest, staged => do
    let tmp := tmpName env i
    if ← existsNoFollow env (join parent tmp) then
      rollback env parent staged
      .fail (.alreadyExists tmp)
    else
      match ← (rename env (join parent old) (join parent tmp)).attempt with
      | .error e =>
        rollback env parent staged
        .fail (.io e)
      | .ok () => vacate env parent (i + 1) rest (staged ++ [⟨tmp, old, new⟩])

/-- Phase two: how many entries are renamed. -/
def place (env : Env) (parent : Loc) : List Staged → Nat → Op Nat
  | [], applied => pure applied
  | s :: staged, applied => do
    (rename env (join parent s.tmp) (join parent s.new)).mapError .io
    place env parent staged (applied + 1)

def applyBulkRename (T : Casing) (env : Env) (parent : Loc) (names : List String)
    (rule : RenameRule) : Op Nat := do
  let plan := planRename T names rule
  match plan.findSome? refusal with
  | some e => .fail e
  | none =>
    let changes := changes plan
    if changes = [] then pure 0
    else
      Action.forEach changes (guardTarget env parent (changes.map (·.1)))
      let staged ← vacate env parent 0 changes []
      place env parent staged 0

/-! ## The directory -/

/-- What stands under a name of a directory, down to the last location. -/
def shelf (fs : Fs) (parent : Loc) (name : Name) : Loc → Option (Entry Leaf) :=
  fun r => fs.node (parent ++ name :: r)

def nothing : Loc → Option (Entry Leaf) := fun _ => none

def Staged.row (s : Staged) : Moves.Row Name := ⟨utf8 s.old, utf8 s.tmp, utf8 s.new⟩

/-- The changes with their temporary names, from the `i`-th on. -/
def stagedOf (env : Env) : Nat → List (String × String) → List Staged
  | _, [] => []
  | i, (old, new) :: rest => ⟨tmpName env i, old, new⟩ :: stagedOf env (i + 1) rest

/-- What a bulk rename is to do. -/
def plannedRows (T : Casing) (env : Env) (names : List String) (rule : RenameRule) :
    List (Moves.Row Name) :=
  (stagedOf env 0 (changes (planRename T names rule))).map Staged.row

/-- The entries of the directory are renamed as planned, and nothing outside it changes. -/
structure Renamed (parent : Loc) (rows : List (Moves.Row Name)) (fs fs' : Fs) : Prop where
  asPlanned : Moves.AsPlanned nothing rows (shelf fs parent) (shelf fs' parent)
  outside : ∀ q, (∀ name, ¬ parent ++ [name] <+: q) → fs'.node q = fs.node q

variable {T : Casing} {env : Env} {parent : Loc} {names : List String} {rule : RenameRule}
  {w w' : World} {x y : Name} {fs fs' : Fs} {i n : Nat} {cs : List (String × String)}
  {done out : List Staged}

theorem shelf_ne_nothing : shelf fs parent x ≠ nothing ↔ fs.node (parent ++ [x]) ≠ none := by
  constructor
  · intro h hnone
    refine h (funext fun r => ?_)
    show fs.node (parent ++ x :: r) = none
    rw [List.append_cons]
    exact FileSystem.node_none_of_isPrefix hnone (List.prefix_append _ _)
  · intro h heq
    exact h (congrFun heq [])

theorem prefix_name {r : Loc} : parent ++ [x] <+: parent ++ y :: r ↔ x = y := by
  rw [List.prefix_append_right_inj, List.cons_prefix_cons]
  exact ⟨fun h => h.1, fun h => ⟨h, List.nil_prefix⟩⟩

/-- A rename inside the directory is a move of one shelf. -/
theorem shelf_renameTo (h : fs.renameTo (parent ++ [x]) (parent ++ [y]) = .ok fs') :
    shelf fs parent x ≠ nothing ∧
      shelf fs' parent = Moves.move nothing (shelf fs parent) (x, y) ∧
      ∀ q, (∀ name, ¬ parent ++ [name] <+: q) → fs'.node q = fs.node q := by
  obtain ⟨hsrc, -, ⟨heq, rfl⟩ | ⟨-, hmoved⟩⟩ := FileSystem.renameTo_eq_ok h
  · have hxy : x = y := by simpa using heq
    refine ⟨shelf_ne_nothing.mpr hsrc, funext fun z => ?_, fun _ _ => rfl⟩
    unfold Moves.move
    dsimp only
    split_ifs with hy hx
    · rw [hy, hxy]
    · exact absurd (hx.trans hxy) hy
    · rfl
  · refine ⟨shelf_ne_nothing.mpr hsrc, funext fun z => ?_,
      fun q hq => hmoved.rest q (hq x) (hq y)⟩
    unfold Moves.move
    dsimp only
    split_ifs with hy hx
    · funext r
      have hbelow := hmoved.below r
      rw [← List.append_cons, ← List.append_cons] at hbelow
      rw [hy]
      exact hbelow
    · funext r
      refine hmoved.source _ (prefix_name.mpr hx.symm) fun hpre => hy ?_
      exact (prefix_name.mp hpre).symm
    · funext r
      exact hmoved.rest _ (fun hpre => hx (prefix_name.mp hpre).symm)
        fun hpre => hy (prefix_name.mp hpre).symm

/-! ## The calls -/

theorem attempt_eq_ok {α : Type} {act : Io α} {r : Except IoError α}
    (h : (act.attempt : Op _) w = some (.ok r, w')) : act w = some (r, w') := by
  unfold Action.attempt at h
  rcases hact : act w with _ | ⟨r', w''⟩
  · rw [hact] at h
    cases h
  · rw [hact] at h
    cases h
    rfl

theorem rename_eq_ok {src dst : Loc} (h : rename env src dst w = some (.ok (), w')) :
    w.fs.renameTo src dst = .ok w'.fs := by
  unfold rename change at h
  cases hplan : env.plan w.made (.rename src dst) with
  | some fault =>
    rw [hplan] at h
    cases h
  | none =>
    rw [hplan] at h
    dsimp only at h
    cases hto : w.fs.renameTo src dst with
    | error e =>
      rw [hto] at h
      cases h
    | ok fs =>
      rw [hto] at h
      cases h
      rfl

/-- A look changes nothing; one that does not fail finds what stands there. -/
theorem existsNoFollow_eq_ok {p : Loc} {b : Bool} (h : existsNoFollow env p w = some (.ok b, w')) :
    w'.fs = w.fs ∧
      ((∀ k, env.plan k (.lstat p) = none) → b = false → w.fs.node p = none) := by
  unfold existsNoFollow at h
  obtain ⟨r, w₁, hlook, h⟩ := Action.bind_eq_ok h
  unfold Action.attempt lstat query at hlook
  cases hplan : env.plan w.made (.lstat p) with
  | some fault =>
    rw [hplan] at hlook
    cases hlook
    cases h
    refine ⟨rfl, fun hno => ?_⟩
    rw [hno] at hplan
    cases hplan
  | none =>
    rw [hplan] at hlook
    cases hlook
    dsimp only at h
    cases hnode : w.fs.node p with
    | none =>
      rw [hnode] at h
      cases h
      exact ⟨rfl, fun _ _ => rfl⟩
    | some e =>
      rw [hnode] at h
      cases h
      exact ⟨rfl, fun _ hb => nomatch hb⟩

/-- No look fails at a name that is there. -/
def Looks (env : Env) : Prop := ∀ k p, env.plan k (.lstat p) = none

theorem guardTarget_eq_ok {vacated : List String} {c : String × String}
    (h : guardTarget env parent vacated c w = some (.ok (), w')) :
    w'.fs = w.fs ∧ (Looks env → c.2 ∉ vacated → w.fs.node (join parent c.2) = none) := by
  unfold guardTarget at h
  split_ifs at h with hvacated
  · cases h
    exact ⟨rfl, fun _ hno => absurd hvacated hno⟩
  · obtain ⟨b, w₁, hlook, h⟩ := Action.bind_eq_ok h
    obtain ⟨hfs, hfree⟩ := existsNoFollow_eq_ok hlook
    cases b with
    | true => cases h
    | false =>
      cases h
      exact ⟨hfs, fun hlooks _ => hfree (fun k => hlooks k _) rfl⟩

theorem guardTargets_eq_ok {vacated : List String}
    (h : Action.forEach cs (guardTarget env parent vacated) w = some (.ok (), w')) :
    w'.fs = w.fs ∧
      (Looks env → ∀ c ∈ cs, c.2 ∉ vacated → w.fs.node (join parent c.2) = none) := by
  induction cs generalizing w with
  | nil =>
    cases h
    exact ⟨rfl, fun _ c hc => nomatch hc⟩
  | cons c cs ih =>
    obtain ⟨u, w₁, hfirst, h⟩ := Action.bind_eq_ok h
    obtain ⟨hfs₁, hfree₁⟩ := guardTarget_eq_ok hfirst
    obtain ⟨hfs, hfree⟩ := ih h
    rw [hfs₁] at hfs hfree
    refine ⟨hfs, fun hlooks c' hc' => ?_⟩
    rcases List.mem_cons.mp hc' with rfl | hc'
    · exact hfree₁ hlooks
    · exact hfree hlooks c' hc'

/-- Phase one takes every change to its temporary name. -/
theorem vacate_eq_ok (h : vacate env parent i cs done w = some (.ok out, w')) :
    out = done ++ stagedOf env i cs ∧
      shelf w'.fs parent = Moves.moveAll nothing (shelf w.fs parent)
        (Moves.vacating ((stagedOf env i cs).map Staged.row)) ∧
      (∀ q, (∀ name, ¬ parent ++ [name] <+: q) → w'.fs.node q = w.fs.node q) ∧
      (Looks env →
        Moves.Free nothing (shelf w.fs parent) ((stagedOf env i cs).map Staged.row)) := by
  induction cs generalizing i done w with
  | nil =>
    cases h
    exact ⟨(List.append_nil _).symm, rfl, fun _ _ => rfl, fun _ => trivial⟩
  | cons c cs ih =>
    obtain ⟨old, new⟩ := c
    obtain ⟨b, w₁, hlook, h⟩ := Action.bind_eq_ok h
    obtain ⟨hfs₁, hfree₁⟩ := existsNoFollow_eq_ok hlook
    cases b with
    | true =>
      obtain ⟨-, w₂, -, h⟩ := Action.bind_eq_ok h
      cases h
    | false =>
      obtain ⟨r, w₂, hrename, h⟩ := Action.bind_eq_ok h
      cases r with
      | error e =>
        obtain ⟨-, w₃, -, h⟩ := Action.bind_eq_ok h
        cases h
      | ok u =>
        have hto : w₁.fs.renameTo (join parent old) (join parent (tmpName env i)) = .ok w₂.fs :=
          rename_eq_ok (attempt_eq_ok hrename)
        rw [hfs₁] at hto
        obtain ⟨-, hshelf, hrest⟩ := shelf_renameTo hto
        obtain ⟨hout, hmoved, houtside, hfree⟩ := ih h
        rw [hshelf] at hmoved hfree
        refine ⟨?_, hmoved, fun q hq => (houtside q hq).trans (hrest q hq), fun hlooks => ?_⟩
        · rw [hout, List.append_assoc]
          rfl
        · refine ⟨?_, hfree hlooks⟩
          by_contra hne
          exact shelf_ne_nothing.mp hne (hfree₁ (fun k => hlooks k _) rfl)

/-- Phase two takes every change from its temporary name to its own. -/
theorem place_eq_ok {staged : List Staged} {applied : Nat}
    (h : place env parent staged applied w = some (.ok n, w')) :
    n = applied + staged.length ∧
      Moves.Stands nothing (shelf w.fs parent) (Moves.placing (staged.map Staged.row)) ∧
      shelf w'.fs parent = Moves.moveAll nothing (shelf w.fs parent)
        (Moves.placing (staged.map Staged.row)) ∧
      ∀ q, (∀ name, ¬ parent ++ [name] <+: q) → w'.fs.node q = w.fs.node q := by
  induction staged generalizing applied w with
  | nil =>
    cases h
    exact ⟨rfl, trivial, rfl, fun _ _ => rfl⟩
  | cons s staged ih =>
    obtain ⟨u, w₁, hrename, h⟩ := Action.bind_eq_ok h
    obtain ⟨hstands, hshelf, hrest⟩ := shelf_renameTo (rename_eq_ok (Action.mapError_eq_ok hrename))
    obtain ⟨hn, hall, hmoved, houtside⟩ := ih h
    rw [hshelf] at hall hmoved
    refine ⟨?_, ⟨hstands, hall⟩, hmoved, fun q hq => (houtside q hq).trans (hrest q hq)⟩
    rw [hn, List.length_cons]
    omega

/-! ## The rows -/

theorem length_newNames : (newNames T names rule).length = names.length := by
  unfold newNames
  rw [List.length_map, List.length_zipIdx]

theorem planRename_map_old : (planRename T names rule).map (·.old) = names := by
  unfold planRename
  rw [List.map_map]
  exact List.map_fst_zip (le_of_eq length_newNames.symm)

theorem planRename_map_new : (planRename T names rule).map (·.new) = newNames T names rule := by
  unfold planRename
  rw [List.map_map]
  exact List.map_snd_zip (le_of_eq length_newNames)

/-- In a plan with no row refused no two new names are the same. -/
theorem nodup_newNames (h : (planRename T names rule).findSome? refusal = none) :
    (newNames T names rule).Nodup := by
  rw [List.nodup_iff_count_le_one]
  intro new
  by_cases hmem : new ∈ newNames T names rule
  · rw [← planRename_map_new] at hmem
    obtain ⟨p, hp, rfl⟩ := List.mem_map.mp hmem
    have hrefusal := List.findSome?_eq_none_iff.mp h p hp
    by_contra hcount
    unfold planRename at hp
    obtain ⟨⟨old, new⟩, -, rfl⟩ := List.mem_map.mp hp
    unfold refusal at hrefusal
    dsimp only at hrefusal hcount
    rw [if_pos (not_le.mp hcount)] at hrefusal
    split_ifs at hrefusal
  · rw [List.count_eq_zero_of_not_mem hmem]
    exact Nat.zero_le 1

theorem conflict_eq_none_iff {p : RenamePreview}
    (h : (planRename T names rule).findSome? refusal = none) (hp : p ∈ planRename T names rule) :
    p.conflict = .none ↔ p.new ≠ p.old := by
  have hrefusal := List.findSome?_eq_none_iff.mp h p hp
  unfold planRename at hp
  obtain ⟨⟨old, new⟩, -, rfl⟩ := List.mem_map.mp hp
  unfold refusal at hrefusal
  dsimp only at hrefusal ⊢
  split_ifs at hrefusal ⊢ with hvalid hcount hsame
  · exact ⟨fun heq => (nomatch heq), fun hne => absurd hsame hne⟩
  · exact ⟨fun _ => hsame, fun _ => rfl⟩

/-- The changes are the rows whose name differs. -/
theorem length_changes (h : (planRename T names rule).findSome? refusal = none) :
    (changes (planRename T names rule)).length =
      (names.zip (newNames T names rule)).countP fun p => p.2 ≠ p.1 := by
  have hpairs : names.zip (newNames T names rule) =
      (planRename T names rule).map fun p => (p.old, p.new) := by
    unfold planRename
    rw [List.map_map]
    exact (List.map_id _).symm
  unfold changes
  rw [List.length_map, hpairs, List.countP_map, ← List.countP_eq_length_filter]
  refine List.countP_congr fun p hp => ?_
  have hiff := conflict_eq_none_iff h hp
  simp only [Function.comp_apply, decide_eq_true_eq]
  exact ⟨fun hboth => hboth.2, fun hne => ⟨hiff.mpr hne, hne⟩⟩

theorem map_fst_changes (plan : List RenamePreview) :
    ((changes plan).map (·.1)).Sublist (plan.map (·.old)) := by
  unfold changes
  rw [List.map_map]
  exact List.filter_sublist.map _

theorem map_snd_changes (plan : List RenamePreview) :
    ((changes plan).map (·.2)).Sublist (plan.map (·.new)) := by
  unfold changes
  rw [List.map_map]
  exact List.filter_sublist.map _

theorem utf8_injective : Function.Injective utf8 := fun _ _ h => utf8_inj h

theorem tmpName_injective : Function.Injective (tmpName env) := by
  intro i j h
  have hchars := congrArg String.toList h
  unfold tmpName at hchars
  simp only [String.toList_append] at hchars
  have hdigits := List.append_cancel_left hchars
  rw [Nat.toString_eq_repr, Nat.toString_eq_repr, Nat.toList_repr, Nat.toList_repr] at hdigits
  exact Json.toDigits_inj hdigits

theorem map_src_stagedOf : ((stagedOf env i cs).map Staged.row).map Moves.Row.src =
    (cs.map (·.1)).map utf8 := by
  induction cs generalizing i with
  | nil => rfl
  | cons c cs ih => exact congrArg (utf8 c.1 :: ·) ih

theorem map_dst_stagedOf : ((stagedOf env i cs).map Staged.row).map Moves.Row.dst =
    (cs.map (·.2)).map utf8 := by
  induction cs generalizing i with
  | nil => rfl
  | cons c cs ih => exact congrArg (utf8 c.2 :: ·) ih

theorem map_tmp_stagedOf : ((stagedOf env i cs).map Staged.row).map Moves.Row.tmp =
    ((List.range' i cs.length).map (tmpName env)).map utf8 := by
  induction cs generalizing i with
  | nil => rfl
  | cons c cs ih => exact congrArg (utf8 (tmpName env i) :: ·) ih

theorem length_stagedOf : (stagedOf env i cs).length = cs.length := by
  induction cs generalizing i with
  | nil => rfl
  | cons c cs ih => exact congrArg (· + 1) ih

/-- The rows of a plan none of which is refused are proper. -/
theorem proper_plannedRows (env : Env) (hnames : names.Nodup)
    (hentries : ∀ name ∈ names, fs.node (join parent name) ≠ none)
    (h : (planRename T names rule).findSome? refusal = none) :
    Moves.Proper nothing (plannedRows T env names rule) (shelf fs parent) where
  srcs := by
    unfold plannedRows
    rw [map_src_stagedOf]
    refine List.Nodup.map utf8_injective ((map_fst_changes _).nodup ?_)
    rw [planRename_map_old]
    exact hnames
  tmps := by
    unfold plannedRows
    rw [map_tmp_stagedOf]
    exact ((List.nodup_range').map tmpName_injective).map utf8_injective
  dsts := by
    unfold plannedRows
    rw [map_dst_stagedOf]
    refine List.Nodup.map utf8_injective ((map_snd_changes _).nodup ?_)
    rw [planRename_map_new]
    exact nodup_newNames h
  stands row hrow := by
    have hsrc := List.mem_map_of_mem (f := Moves.Row.src) hrow
    unfold plannedRows at hsrc
    rw [map_src_stagedOf] at hsrc
    obtain ⟨old, hold, heq⟩ := List.mem_map.mp hsrc
    have hmem := (map_fst_changes _).subset hold
    rw [planRename_map_old] at hmem
    rw [← heq]
    exact shelf_ne_nothing.mpr (hentries old hmem)

/-! ## The whole rename -/

/-- What a bulk rename that returns has done. -/
theorem applyBulkRename_eq_ok (h : applyBulkRename T env parent names rule w = some (.ok n, w')) :
    (planRename T names rule).findSome? refusal = none ∧
      n = (changes (planRename T names rule)).length ∧
      shelf w'.fs parent =
        Moves.staged nothing (shelf w.fs parent) (plannedRows T env names rule) ∧
      Moves.Stands nothing
        (Moves.moveAll nothing (shelf w.fs parent) (Moves.vacating (plannedRows T env names rule)))
        (Moves.placing (plannedRows T env names rule)) ∧
      (∀ q, (∀ name, ¬ parent ++ [name] <+: q) → w'.fs.node q = w.fs.node q) ∧
      (Looks env → Moves.Free nothing (shelf w.fs parent) (plannedRows T env names rule) ∧
        ∀ c ∈ changes (planRename T names rule),
          c.2 ∉ (changes (planRename T names rule)).map (·.1) →
            w.fs.node (join parent c.2) = none) := by
  unfold applyBulkRename at h
  dsimp only at h
  cases hrefusal : (planRename T names rule).findSome? refusal with
  | some e =>
    rw [hrefusal] at h
    cases h
  | none =>
    rw [hrefusal] at h
    dsimp only at h
    unfold plannedRows
    by_cases hchanges : changes (planRename T names rule) = []
    · rw [if_pos hchanges] at h
      cases h
      rw [hchanges]
      exact ⟨rfl, rfl, rfl, trivial, fun _ _ => rfl, fun _ => ⟨trivial, fun c hc => nomatch hc⟩⟩
    · rw [if_neg hchanges] at h
      obtain ⟨u, w₁, hguard, h⟩ := Action.bind_eq_ok h
      obtain ⟨staged, w₂, hvacate, h⟩ := Action.bind_eq_ok h
      obtain ⟨hfs₁, hguarded⟩ := guardTargets_eq_ok hguard
      obtain ⟨hstaged, hvacated, houtside₁, hfree⟩ := vacate_eq_ok hvacate
      rw [List.nil_append] at hstaged
      rw [hstaged] at h
      obtain ⟨hn, hstands, hplaced, houtside₂⟩ := place_eq_ok h
      rw [hfs₁] at hvacated houtside₁ hfree
      rw [hvacated] at hstands hplaced
      refine ⟨rfl, ?_, hplaced, hstands, fun q hq => (houtside₂ q hq).trans (houtside₁ q hq),
        fun hlooks => ⟨hfree hlooks, hguarded hlooks⟩⟩
      rw [hn, length_stagedOf]
      omega

/-- **A bulk rename is the planned permutation exactly where nothing is in the way**: not a
temporary name that a later change still stands under, nor an entry that a look missed. -/
theorem applyBulkRename_iff_clear (hnames : names.Nodup)
    (hentries : ∀ name ∈ names, w.fs.node (join parent name) ≠ none)
    (h : applyBulkRename T env parent names rule w = some (.ok n, w')) :
    (n = (names.zip (newNames T names rule)).countP (fun p => p.2 ≠ p.1) ∧
      Renamed parent (plannedRows T env names rule) w.fs w'.fs) ↔
      Moves.Clear nothing (plannedRows T env names rule) (shelf w.fs parent) := by
  obtain ⟨hrefusal, hn, hshelf, hstands, houtside, -⟩ := applyBulkRename_eq_ok h
  have hproper := proper_plannedRows env hnames hentries hrefusal
  rw [← hproper.asPlanned_iff hstands, ← hshelf]
  constructor
  · exact fun hall => hall.2.asPlanned
  · exact fun hplanned => ⟨hn.trans (length_changes hrefusal), hplanned, houtside⟩

/-- Where no look fails, what is in the way can only be a later change. -/
theorem clear_iff_waiting (hlooks : Looks env) (hnames : names.Nodup)
    (hentries : ∀ name ∈ names, w.fs.node (join parent name) ≠ none)
    (h : applyBulkRename T env parent names rule w = some (.ok n, w')) :
    Moves.Clear nothing (plannedRows T env names rule) (shelf w.fs parent) ↔
      (plannedRows T env names rule).Pairwise fun row later => row.dst ≠ later.tmp := by
  obtain ⟨hrefusal, -, -, -, -, hfree⟩ := applyBulkRename_eq_ok h
  obtain ⟨hfree, hguarded⟩ := hfree hlooks
  have hproper := proper_plannedRows env hnames hentries hrefusal
  refine ⟨fun hclear => hclear.waiting, hproper.clear_of_free hfree fun row hrow hdst => ?_⟩
  have hmem := List.mem_map_of_mem (f := Moves.Row.dst) hrow
  unfold plannedRows at hmem ⊢
  rw [map_dst_stagedOf, List.map_map] at hmem
  rw [map_src_stagedOf]
  obtain ⟨c, hc, heq⟩ := List.mem_map.mp hmem
  rw [← heq] at hdst ⊢
  by_contra hno
  refine shelf_ne_nothing.mp hdst (hguarded c hc fun hvacated => hno ?_)
  exact List.mem_map_of_mem hvacated

/-- The letters of ASCII. -/
def plainCasing : Casing := { CaseTables.ascii with upper := fun c => [c.toUpper] }

/-- No call fails, no link leads anywhere, and the process is number 7. -/
def quiet : Env := ⟨fun _ _ => none, fun _ _ => none, fun _ _ => none, 7⟩

def twoFiles : Fs :=
  (FileSystem.bare.put [] (utf8 "f1") (.leaf (.file [1])) rfl (by decide)).put [] (utf8 "f2")
    (.leaf (.file [2])) rfl (by decide)

def numberedFrom (template : String) (start : Nat) : RenameRule :=
  { numbering := some ⟨template, start, 1, 0⟩ }

/-- The first file takes the second's name, and the second the next. -/
def shift : RenameRule := numberedFrom "f{n}" 2

/-- The first file takes the second's temporary name. -/
def ontoTemporary : RenameRule := numberedFrom ".arlen-bulk-rename.7.{n}" 1

theorem shift_renamed :
    ∃ w', applyBulkRename plainCasing quiet [] ["f1", "f2"] shift ⟨twoFiles, 0⟩ =
        some (.ok 2, w') ∧
      2 = (["f1", "f2"].zip (newNames plainCasing ["f1", "f2"] shift)).countP
        (fun p => p.2 ≠ p.1) ∧
      Renamed [] (plannedRows plainCasing quiet ["f1", "f2"] shift) twoFiles w'.fs := by
  have hrun : (applyBulkRename plainCasing quiet [] ["f1", "f2"] shift ⟨twoFiles, 0⟩).map
      (·.1.toOption) = some (some 2) := by decide +kernel
  obtain ⟨⟨r, w'⟩, hrun, hr⟩ := Option.map_eq_some_iff.1 hrun
  cases r with
  | error e => cases hr
  | ok n =>
    cases hr
    have hnames : ["f1", "f2"].Nodup := by decide
    have hentries : ∀ name ∈ ["f1", "f2"], twoFiles.node (join [] name) ≠ none := by
      decide +kernel
    have hclear := (clear_iff_waiting (fun _ _ => rfl) hnames hentries hrun).mpr
      (by decide +kernel)
    exact ⟨w', hrun, (applyBulkRename_iff_clear hnames hentries hrun).mpr hclear⟩

/-- The first file takes the temporary name of the second, which is lost. -/
theorem second_file_lost :
    ∃ w', applyBulkRename plainCasing quiet [] ["f1", "f2"] ontoTemporary ⟨twoFiles, 0⟩ =
        some (.ok 2, w') ∧
      w'.fs.names [] = [utf8 ".arlen-bulk-rename.7.2"] ∧
      w'.fs.node [utf8 ".arlen-bulk-rename.7.2"] = some (.leaf (.file [1])) ∧
      ¬ Renamed [] (plannedRows plainCasing quiet ["f1", "f2"] ontoTemporary) twoFiles w'.fs := by
  have hrun : (applyBulkRename plainCasing quiet [] ["f1", "f2"] ontoTemporary ⟨twoFiles, 0⟩).map
      (fun r => (r.1.toOption, r.2.fs.names [], r.2.fs.node [utf8 ".arlen-bulk-rename.7.2"],
        r.2.fs.node [utf8 ".arlen-bulk-rename.7.1"])) =
      some (some 2, [utf8 ".arlen-bulk-rename.7.2"], some (.leaf (.file [1])), none) := by
    decide +kernel
  obtain ⟨⟨r, w'⟩, hrun, hr⟩ := Option.map_eq_some_iff.1 hrun
  obtain ⟨hok, hrest⟩ := Prod.mk.inj hr
  obtain ⟨hnames, hrest⟩ := Prod.mk.inj hrest
  obtain ⟨hfirst, hplanned⟩ := Prod.mk.inj hrest
  cases r with
  | error e => cases hok
  | ok n =>
    cases hok
    refine ⟨w', hrun, hnames, hfirst, fun hrenamed => ?_⟩
    have htarget : Moves.target (plannedRows plainCasing quiet ["f1", "f2"] ontoTemporary)
        (utf8 "f1") = utf8 ".arlen-bulk-rename.7.1" := by decide +kernel
    have hplaced := hrenamed.asPlanned.placed (utf8 "f1")
      (shelf_ne_nothing.mpr (by decide +kernel))
    rw [htarget] at hplaced
    have hfile : w'.fs.node [utf8 ".arlen-bulk-rename.7.1"] = twoFiles.node [utf8 "f1"] :=
      congrFun hplaced []
    rw [hplanned] at hfile
    revert hfile
    decide +kernel

end Arlen.Files
