import Arlen.Lib.Action
import Arlen.Lib.Bytes
import Arlen.Lib.FileSystem

/-!
# The files of a host

`std::fs` over a tree of directories, files, symbolic links and other nodes. A call
names a location it starts from and the names down from there, and follows the links on
the way as its manual page says. Any call may fail; one that fails changes nothing, a
write, which may have written some of its bytes, and `remove_dir_all`, which may have
removed part of its tree, apart.
-/

namespace Arlen.Lib.Host

abbrev Name := Bytes

abbrev Loc := List Name

/-- `..`, by which a path names the directory above. -/
def parentName : Name := [0x2e, 0x2e]

/-- What is not a directory. -/
inductive Leaf where
  | file (content : Bytes)
  | link (text : Bytes)
  | special
deriving DecidableEq, Repr

abbrev Fs := FileSystem Name Leaf

inductive IoError where
  | refused (why : FileSystem.Refusal)
  /-- A link or a way up leads nowhere, or the links lead in a circle. -/
  | loop
  | invalid
  | other (code : Nat)
deriving DecidableEq

/-- How a call fails: its error, the bytes a write has written by then and what a
`remove_dir_all` has removed. -/
structure Fault where
  error : IoError
  landed : Nat
  removed : List Loc
deriving DecidableEq

/-- The tree, the calls made and the bytes written to files. -/
structure World where
  fs : Fs
  made : Nat
  wrote : Nat

/-- Which calls fail, and where a symbolic link leads. -/
structure Env where
  plan : Nat → Option Fault
  through : Fs → Loc → Option Loc

abbrev Io := Action World IoError

def World.called (w : World) : World := { w with made := w.made + 1 }

@[simp] theorem World.called_fs (w : World) : w.called.fs = w.fs := rfl

@[simp] theorem World.called_wrote (w : World) : w.called.wrote = w.wrote := rfl

/-! ## Ways down the tree -/

/-- The location the names lead to, links on the way followed. -/
def walk (env : Env) (fs : Fs) (base : Loc) : List Name → Option Loc
  | [] => some base
  | n :: rest =>
    if n = parentName then
      if fs.node base = some .dir then walk env fs base.dropLast rest else none
    else
      match fs.node (base ++ [n]) with
      | some (.leaf (.link _)) => (env.through fs (base ++ [n])).bind fun p => walk env fs p rest
      | _ => walk env fs (base ++ [n]) rest

/-- The location of the last name itself. -/
def place (env : Env) (fs : Fs) (base : Loc) (names : List Name) : Option Loc :=
  match names.getLast? with
  | none => some base
  | some n =>
    if n = parentName then walk env fs base names
    else (walk env fs base names.dropLast).map (· ++ [n])

/-- No link stands at or below the location. -/
def LinkFree (fs : Fs) (base : Loc) : Prop :=
  ∀ p text, base <+: p → fs.node p ≠ some (.leaf (.link text))

theorem walk_eq {env : Env} {fs : Fs} {root base : Loc} {names : List Name}
    (h : LinkFree fs root) (hb : root <+: base) (hdown : parentName ∉ names) :
    walk env fs base names = some (base ++ names) := by
  induction names generalizing base with
  | nil => simp [walk]
  | cons n rest ih =>
    have hnext : root <+: base ++ [n] := hb.trans (List.prefix_append _ _)
    have hn : n ≠ parentName := fun heq => hdown (heq ▸ List.mem_cons_self)
    unfold walk
    rw [if_neg hn]
    split
    · next text hlink => exact absurd hlink (h _ text hnext)
    · rw [ih hnext fun hm => hdown (List.mem_cons_of_mem _ hm), List.append_assoc,
        List.singleton_append]

theorem place_of_walk {env : Env} {fs : Fs} {base : Loc} {names : List Name}
    (hdown : parentName ∉ names)
    (hwalk : walk env fs base names.dropLast = some (base ++ names.dropLast)) :
    place env fs base names = some (base ++ names) := by
  unfold place
  cases hlast : names.getLast? with
  | none => rw [List.getLast?_eq_none_iff.1 hlast, List.append_nil]
  | some n =>
    have hn : n ≠ parentName := fun heq => hdown (heq ▸ List.mem_of_getLast? hlast)
    simp only [if_neg hn, hwalk, Option.map_some, List.append_assoc,
      List.dropLast_append_getLast? n hlast]

theorem place_eq {env : Env} {fs : Fs} {base : Loc} {names : List Name} (h : LinkFree fs base)
    (hdown : parentName ∉ names) : place env fs base names = some (base ++ names) :=
  place_of_walk hdown (walk_eq h (List.prefix_refl _) fun hm => hdown (List.mem_of_mem_dropLast hm))

/-! ## Calls -/

/-- A call that only looks. -/
def query {α : Type} (env : Env) (f : Fs → Except IoError α) : Io α := fun w =>
  match env.plan w.made with
  | some fault => some (.error fault.error, w.called)
  | none => some (f w.fs, w.called)

/-- A call that changes the tree. -/
def change (env : Env) (f : Fs → Except IoError Fs) (broken : Fault → Fs → Fs := fun _ fs => fs) :
    Io Unit := fun w =>
  match env.plan w.made with
  | some fault => some (.error fault.error, { w.called with fs := broken fault w.fs })
  | none =>
    match f w.fs with
    | .ok fs => some (.ok (), { w.called with fs })
    | .error e => some (.error e, w.called)

def orRefused (r : Except FileSystem.Refusal Fs) : Except IoError Fs :=
  match r with
  | .ok fs => .ok fs
  | .error why => .error (.refused why)

/-- Look at, or change, a location if there is one. -/
def atPlace {α : Type} (p : Option Loc) (f : Loc → Except IoError α) : Except IoError α :=
  match p with
  | some p => f p
  | none => .error .loop

/-- `symlink_metadata`. -/
def lstat (env : Env) (base : Loc) (names : List Name) : Io (Entry Leaf) :=
  query env fun fs => atPlace (place env fs base names) fun p =>
    match fs.node p with
    | some e => .ok e
    | none => .error (.refused .noEntry)

/-- `metadata`. -/
def stat (env : Env) (base : Loc) (names : List Name) : Io (Entry Leaf) :=
  query env fun fs => atPlace (walk env fs base names) fun p =>
    match fs.node p with
    | some e => .ok e
    | none => .error (.refused .noEntry)

/-- `Path::exists`. -/
def pathExists (env : Env) (base : Loc) (names : List Name) : Io Bool := do
  match ← (stat env base names).attempt with
  | .ok _ => return true
  | .error _ => return false

/-- `Path::is_dir`. -/
def isDir (env : Env) (base : Loc) (names : List Name) : Io Bool := do
  match ← (stat env base names).attempt with
  | .ok e => return e = .dir
  | .error _ => return false

/-- `fs::read`. -/
def read (env : Env) (base : Loc) (names : List Name) : Io Bytes :=
  query env fun fs => atPlace (walk env fs base names) fun p =>
    match fs.node p with
    | some (.leaf (.file content)) => .ok content
    | some .dir => .error (.refused .isDirectory)
    | some (.leaf _) => .error .invalid
    | none => .error (.refused .noEntry)

/-- `mkdir`. -/
def mkdir (env : Env) (base : Loc) (names : List Name) : Io Unit :=
  change env fun fs => atPlace (place env fs base names) fun p => orRefused (fs.mkdirAt p)

/-- A failed `mkdir` of `create_dir_all` does not count where a directory is. -/
def unlessDir (env : Env) (base : Loc) (names : List Name) (e : IoError) : Io Unit := do
  if ← isDir env base names then return () else Action.fail e

/-- `create_dir_all`, of the names from the last to the first. -/
def createDirAllUp (env : Env) (base : Loc) : List Name → Io Unit
  | [] => do
    match ← (mkdir env base []).attempt with
    | .ok () => return ()
    | .error e => unlessDir env base [] e
  | n :: up => do
    let names := (n :: up).reverse
    match ← (mkdir env base names).attempt with
    | .ok () => return ()
    | .error (.refused .noEntry) =>
      createDirAllUp env base up
      match ← (mkdir env base names).attempt with
      | .ok () => return ()
      | .error e => unlessDir env base names e
    | .error e => unlessDir env base names e

def createDirAll (env : Env) (base : Loc) (names : List Name) : Io Unit :=
  createDirAllUp env base names.reverse

/-- The tree behind an `open` that creates and cuts the file at `p`. -/
def truncated (p : Loc) (fs : Fs) : Except IoError Fs :=
  match fs.node p with
  | some (.leaf .special) => .ok fs
  | _ => orRefused (fs.writeAt p (.file []))

/-- `File::create`, with the location of the opened file. -/
def create (env : Env) (base : Loc) (names : List Name) : Io Loc := fun w =>
  match env.plan w.made, walk env w.fs base names with
  | some fault, _ => some (.error fault.error, w.called)
  | none, none => some (.error .loop, w.called)
  | none, some p =>
    match truncated p w.fs with
    | .ok fs => some (.ok p, { w.called with fs })
    | .error e => some (.error e, w.called)

/-- The tree behind bytes written to the end of the file opened at `p`. -/
def appended (p : Loc) (bytes : Bytes) (fs : Fs) : Fs :=
  match fs.node p with
  | some (.leaf (.file content)) =>
    match fs.writeAt p (.file (content ++ bytes)) with
    | .ok fs' => fs'
    | .error _ => fs
  | _ => fs

/-- `write_all` to the file opened at `p`. -/
def writeAll (env : Env) (p : Loc) (bytes : Bytes) : Io Unit := fun w =>
  let landed : World → Bytes → World := fun w b =>
    { w.called with fs := appended p b w.fs, wrote := w.wrote + b.length }
  match env.plan w.made with
  | some fault => some (.error fault.error, landed w (bytes.take fault.landed))
  | none => some (.ok (), landed w bytes)

/-- `fs::write`. -/
def write (env : Env) (base : Loc) (names : List Name) (bytes : Bytes) : Io Unit := do
  let p ← create env base names
  writeAll env p bytes

/-- `remove_file`. -/
def removeFile (env : Env) (base : Loc) (names : List Name) : Io Unit :=
  change env fun fs => atPlace (place env fs base names) fun p => orRefused (fs.unlink p)

/-! ## Confinement -/

/-- Beyond `root` the tree is as it was at the start; at `root` is a directory, and
below it are directories and files only. -/
structure Confined (root : Loc) (start fs : Fs) : Prop where
  beyond : ∀ p, ¬ root <+: p → fs.node p = start.node p
  atRoot : fs.node root = some .dir
  plain : ∀ p, root <+: p →
    fs.node p = none ∨ fs.node p = some .dir ∨ ∃ content, fs.node p = some (.leaf (.file content))

section
variable {root p : Loc} {start fs fs' : Fs} {env : Env} {names : List Name} {P : Nat → Prop}
  {total : Prop} {bytes : Bytes}

theorem Confined.linkFree (h : Confined root start fs) : LinkFree fs root := by
  intro p text hp hlink
  rcases h.plain p hp with hn | hd | ⟨content, hf⟩
  · rw [hlink] at hn
    cases hn
  · rw [hlink] at hd
    cases hd
  · rw [hlink] at hf
    cases hf

theorem Confined.walk_eq (h : Confined root start fs) (hdown : parentName ∉ names) :
    walk env fs root names = some (root ++ names) :=
  Host.walk_eq h.linkFree (List.prefix_refl _) hdown

/-- Put a directory or a file below the root, or take one away, and leave the rest. -/
theorem Confined.update (h : Confined root start fs) (hp : root <+: p) (hne : p ≠ root)
    {e : Option (Entry Leaf)}
    (he : e = none ∨ e = some .dir ∨ ∃ content, e = some (.leaf (.file content)))
    (hfs : ∀ q, fs'.node q = if q = p then e else fs.node q) : Confined root start fs' := by
  refine ⟨fun q hq => ?_, ?_, fun q hq => ?_⟩
  · rw [hfs, if_neg, h.beyond q hq]
    rintro rfl
    exact hq hp
  · rw [hfs, if_neg hne.symm, h.atRoot]
  · rw [hfs]
    split
    · exact he
    · exact h.plain q hq

theorem ne_root_of_node (h : Confined root start fs) (hp : fs.node p ≠ some .dir) : p ≠ root := by
  rintro rfl
  exact hp h.atRoot

/-- What a call keeps: the tree is confined, and of the bytes written `P` holds. -/
def Within (root : Loc) (start : Fs) (P : Nat → Prop) (w : World) : Prop :=
  Confined root start w.fs ∧ P w.wrote

theorem keeps_query {α : Type} {f : Fs → Except IoError α} :
    (query env f).Keeps total (Within root start P) := by
  intro w hw
  unfold Action.Ends query
  cases env.plan w.made with
  | some fault => exact hw
  | none =>
    cases f w.fs with
    | ok a => exact hw
    | error e => exact hw

theorem keeps_change {f : Fs → Except IoError Fs}
    (hf : ∀ fs fs', Confined root start fs → f fs = .ok fs' → Confined root start fs') :
    (change env f).Keeps total (Within root start P) := by
  intro w hw
  unfold Action.Ends change
  cases env.plan w.made with
  | some fault => exact hw
  | none =>
    cases hr : f w.fs with
    | ok fs' => exact ⟨hf _ _ hw.1 hr, hw.2⟩
    | error e => exact hw

theorem keeps_lstat {base : Loc} : (lstat env base names).Keeps total (Within root start P) :=
  keeps_query

theorem keeps_stat {base : Loc} : (stat env base names).Keeps total (Within root start P) :=
  keeps_query

theorem keeps_read {base : Loc} : (read env base names).Keeps total (Within root start P) :=
  keeps_query

theorem keeps_pathExists {base : Loc} :
    (pathExists env base names).Keeps total (Within root start P) := by
  refine Action.Keeps.bind keeps_stat.attempt fun r => ?_
  cases r <;> exact Action.Keeps.pure _

theorem keeps_isDir {base : Loc} : (isDir env base names).Keeps total (Within root start P) := by
  refine Action.Keeps.bind keeps_stat.attempt fun r => ?_
  cases r <;> exact Action.Keeps.pure _

theorem orRefused_eq_ok {r : Except FileSystem.Refusal Fs} : orRefused r = .ok fs ↔ r = .ok fs := by
  cases r <;> simp [orRefused]

theorem Confined.place_eq (h : Confined root start fs) (hdown : parentName ∉ names) :
    place env fs root names = some (root ++ names) :=
  Host.place_eq h.linkFree hdown

theorem keeps_mkdir (hdown : parentName ∉ names) :
    (mkdir env root names).Keeps total (Within root start P) := by
  refine keeps_change fun fs fs' h hr => ?_
  rw [h.place_eq hdown] at hr
  obtain ⟨hnone, -, hnode⟩ := FileSystem.mkdirAt_eq_ok (orRefused_eq_ok.1 hr)
  refine h.update (List.prefix_append _ _) (ne_root_of_node h ?_) (.inr (.inl rfl)) hnode
  rw [hnone]
  nofun

theorem keeps_unlessDir {base : Loc} {e : IoError} :
    (unlessDir env base names e).Keeps total (Within root start P) := by
  refine Action.Keeps.bind keeps_isDir fun b => ?_
  cases b
  · exact Action.Keeps.fail e
  · exact Action.Keeps.pure _

theorem keeps_createDirAllUp (hdown : parentName ∉ names) :
    (createDirAllUp env root names).Keeps total (Within root start P) := by
  induction names with
  | nil =>
    refine Action.Keeps.bind (keeps_mkdir List.not_mem_nil).attempt fun r => ?_
    cases r with
    | ok _ => exact Action.Keeps.pure _
    | error e => exact keeps_unlessDir
  | cons n above ih =>
    have hmkdir : (mkdir env root (n :: above).reverse).Keeps total (Within root start P) :=
      keeps_mkdir (by rwa [List.mem_reverse])
    refine Action.Keeps.bind hmkdir.attempt fun r => ?_
    split
    · exact Action.Keeps.pure _
    · refine Action.Keeps.bind (ih fun hm => hdown (List.mem_cons_of_mem _ hm)) fun _ =>
        Action.Keeps.bind hmkdir.attempt fun r => ?_
      cases r with
      | ok _ => exact Action.Keeps.pure _
      | error e => exact keeps_unlessDir
    · exact keeps_unlessDir

theorem keeps_createDirAll (hdown : parentName ∉ names) :
    (createDirAll env root names).Keeps total (Within root start P) :=
  keeps_createDirAllUp (by rwa [List.mem_reverse])

theorem Confined.truncated (h : Confined root start fs) (hp : root <+: p)
    (hr : truncated p fs = .ok fs') : Confined root start fs' := by
  unfold Host.truncated at hr
  split at hr
  · obtain rfl := Except.ok.inj hr
    exact h
  · obtain ⟨hdir, -, hnode⟩ := FileSystem.writeAt_eq_ok (orRefused_eq_ok.1 hr)
    exact h.update hp (ne_root_of_node h hdir) (.inr (.inr ⟨[], rfl⟩)) hnode

/-- An opened file lies below the root. -/
theorem ends_create {w : World} (hdown : parentName ∉ names) (hw : Within root start P w) :
    (create env root names).Ends total w
      (fun p w' => root <+: p ∧ Within root start P w') (fun _ => Within root start P) := by
  unfold Action.Ends create
  rw [hw.1.walk_eq hdown]
  cases env.plan w.made with
  | some fault => exact hw
  | none =>
    cases hr : truncated (root ++ names) w.fs with
    | ok fs' =>
      simp only [hr]
      exact ⟨List.prefix_append _ _, hw.1.truncated (List.prefix_append _ _) hr, hw.2⟩
    | error e =>
      simp only [hr]
      exact hw

theorem Confined.appended (h : Confined root start fs) (hp : root <+: p) (bytes : Bytes) :
    Confined root start (appended p bytes fs) := by
  unfold Host.appended
  split
  · next content _ =>
    split
    · next fs' hw =>
      obtain ⟨hdir, -, hnode⟩ := FileSystem.writeAt_eq_ok hw
      exact h.update hp (ne_root_of_node h hdir) (.inr (.inr ⟨content ++ bytes, rfl⟩)) hnode
    · exact h
  · exact h

/-- A write adds its bytes, or the first of them. -/
theorem ends_writeAll {w : World} (hp : root <+: p) (hw : Within root start P w) :
    (writeAll env p bytes).Ends total w
      (fun _ w' => Confined root start w'.fs ∧ w'.wrote = w.wrote + bytes.length)
      (fun _ w' => Confined root start w'.fs ∧ w'.wrote ≤ w.wrote + bytes.length) := by
  unfold Action.Ends writeAll
  cases env.plan w.made with
  | some fault =>
    refine ⟨hw.1.appended hp _, ?_⟩
    exact Nat.add_le_add_left (List.length_take_le' fault.landed bytes) _
  | none => exact ⟨hw.1.appended hp _, rfl⟩

theorem keeps_write (hdown : parentName ∉ names) :
    (write env root names bytes).Keeps total (Within root start fun _ => True) := by
  intro w hw
  refine (ends_create hdown hw).bind fun p w' hw' => ?_
  refine (ends_writeAll hw'.1 hw'.2).mono ?_ ?_
  · exact fun _ w'' h => ⟨h.1, trivial⟩
  · exact fun _ w'' h => ⟨h.1, trivial⟩

theorem keeps_removeFile (hdown : parentName ∉ names) :
    (removeFile env root names).Keeps total (Within root start P) := by
  refine keeps_change fun fs fs' h hr => ?_
  rw [h.place_eq hdown] at hr
  obtain ⟨⟨b, hb⟩, hnode⟩ := FileSystem.node_of_unlink (orRefused_eq_ok.1 hr)
  refine h.update (List.prefix_append _ _) (ne_root_of_node h ?_) (.inl rfl) hnode
  rw [hb]
  nofun

end

/-! ## What calls keep of the tree -/

section
variable {base p : Loc} {start fs fs' : Fs} {env : Env} {names : List Name} {total : Prop}
  {bytes : Bytes} {w : World} {I : Fs → Prop}

theorem keeps_query_fs {α : Type} {f : Fs → Except IoError α} :
    (query env f).Keeps total fun w => I w.fs := by
  intro w hw
  unfold Action.Ends query
  cases env.plan w.made with
  | some fault => exact hw
  | none =>
    cases f w.fs with
    | ok a => exact hw
    | error e => exact hw

theorem keeps_change_fs {f : Fs → Except IoError Fs}
    (hf : ∀ fs fs', I fs → f fs = .ok fs' → I fs') : (change env f).Keeps total fun w => I w.fs := by
  intro w hw
  unfold Action.Ends change
  cases env.plan w.made with
  | some fault => exact hw
  | none =>
    cases hr : f w.fs with
    | ok fs' => exact hf _ _ hw hr
    | error e => exact hw

theorem keeps_isDir_fs : (isDir env base names).Keeps total fun w => I w.fs := by
  refine Action.Keeps.bind keeps_query_fs.attempt fun r => ?_
  cases r <;> exact Action.Keeps.pure _

theorem keeps_unlessDir_fs {e : IoError} :
    (unlessDir env base names e).Keeps total fun w => I w.fs := by
  refine Action.Keeps.bind keeps_isDir_fs fun b => ?_
  cases b
  · exact Action.Keeps.fail e
  · exact Action.Keeps.pure _

/-- The tree is as it was, but for directories where nothing was. -/
def Grown (start fs : Fs) : Prop :=
  ∀ p, fs.node p = start.node p ∨ (start.node p = none ∧ fs.node p = some .dir)

theorem Grown.refl (fs : Fs) : Grown fs fs := fun _ => .inl rfl

theorem Grown.leaf (h : Grown start fs) {b : Leaf} :
    fs.node p = some (.leaf b) ↔ start.node p = some (.leaf b) := by
  rcases h p with heq | ⟨hnone, hdir⟩
  · rw [heq]
  · rw [hnone, hdir]
    exact ⟨fun h => (by cases h), fun h => (by cases h)⟩

theorem keeps_mkdir_grown : (mkdir env base names).Keeps total fun w => Grown start w.fs := by
  refine keeps_change_fs fun fs fs' h hr => ?_
  cases hplace : place env fs base names with
  | none =>
    rw [hplace] at hr
    cases hr
  | some q =>
    rw [hplace] at hr
    obtain ⟨hnone, -, hnode⟩ := FileSystem.mkdirAt_eq_ok (orRefused_eq_ok.1 hr)
    intro p
    by_cases heq : p = q
    · refine .inr ⟨?_, by rw [hnode, if_pos heq]⟩
      rcases h p with hold | ⟨hold, -⟩
      · rw [← hold, heq, hnone]
      · exact hold
    · rw [hnode, if_neg heq]
      exact h p

theorem keeps_createDirAllUp_grown :
    (createDirAllUp env base names).Keeps total fun w => Grown start w.fs := by
  induction names with
  | nil =>
    refine Action.Keeps.bind keeps_mkdir_grown.attempt fun r => ?_
    cases r with
    | ok _ => exact Action.Keeps.pure _
    | error e => exact keeps_unlessDir_fs
  | cons n up ih =>
    refine Action.Keeps.bind keeps_mkdir_grown.attempt fun r => ?_
    split
    · exact Action.Keeps.pure _
    · refine Action.Keeps.bind ih fun _ => Action.Keeps.bind keeps_mkdir_grown.attempt fun r => ?_
      cases r with
      | ok _ => exact Action.Keeps.pure _
      | error e => exact keeps_unlessDir_fs
    · exact keeps_unlessDir_fs

theorem keeps_createDirAll_grown :
    (createDirAll env base names).Keeps total fun w => Grown start w.fs :=
  keeps_createDirAllUp_grown

theorem truncated_eq_ok (hspecial : fs.node p ≠ some (.leaf .special))
    (h : truncated p fs = .ok fs') :
    ∀ q, fs'.node q = if q = p then some (.leaf (.file [])) else fs.node q := by
  unfold truncated at h
  split at h
  · next hnode => exact absurd hnode hspecial
  · exact (FileSystem.writeAt_eq_ok (orRefused_eq_ok.1 h)).2.2

theorem node_appended {content : Bytes} (h : fs.node p = some (.leaf (.file content)))
    (hp : p ≠ []) (q : Loc) : (appended p bytes fs).node q =
      if q = p then some (.leaf (.file (content ++ bytes))) else fs.node q := by
  have hdir : fs.node p.dropLast = some .dir := by
    refine fs.closed _ (p.getLast hp) ?_
    rw [List.dropLast_append_getLast, h]
    exact Option.some_ne_none _
  obtain ⟨fs', hw⟩ := FileSystem.exists_writeAt (b := Leaf.file (content ++ bytes)) hp hdir
    (by rw [h]; exact fun heq => by cases heq)
  unfold appended
  rw [h]
  dsimp only
  rw [hw]
  exact (FileSystem.writeAt_eq_ok hw).2.2 q

/-- A write that goes well puts the file there and changes nothing else. -/
theorem ends_write_exact (hfree : LinkFree w.fs base) (hdown : parentName ∉ names)
    (hspecial : w.fs.node (base ++ names) ≠ some (.leaf .special)) :
    (write env base names bytes).Ends False w
      (fun _ w' => ∀ q, w'.fs.node q =
        if q = base ++ names then some (.leaf (.file bytes)) else w.fs.node q)
      (fun _ _ => True) := by
  have hcreate : (create env base names).Ends False w
      (fun p w' => p = base ++ names ∧ p ≠ [] ∧ ∀ q, w'.fs.node q =
        if q = p then some (.leaf (.file [])) else w.fs.node q) (fun _ _ => True) := by
    unfold Action.Ends create
    rw [walk_eq hfree (List.prefix_refl _) hdown]
    cases env.plan w.made with
    | some fault => trivial
    | none =>
      cases hr : truncated (base ++ names) w.fs with
      | error e => simp only [hr]
      | ok fs' =>
        simp only [hr]
        have hnode := truncated_eq_ok hspecial hr
        refine ⟨trivial, fun hnil => ?_, hnode⟩
        have hroot := hnode []
        rw [fs'.root, hnil, if_pos rfl] at hroot
        cases hroot
  refine hcreate.bind fun p w' ⟨hp, hnil, hnode⟩ => ?_
  unfold Action.Ends writeAll
  cases env.plan w'.made with
  | some fault => trivial
  | none =>
    intro q
    have hfile : w'.fs.node p = some (.leaf (.file [])) := by rw [hnode, if_pos rfl]
    have happ : (appended p bytes w'.fs).node q =
        if q = p then some (.leaf (.file ([] ++ bytes))) else w'.fs.node q :=
      node_appended hfile hnil q
    rw [List.nil_append] at happ
    rw [← hp]
    refine happ.trans ?_
    by_cases heq : q = p
    · rw [if_pos heq, if_pos heq]
    · rw [if_neg heq, if_neg heq, hnode, if_neg heq]

end

end Arlen.Lib.Host
