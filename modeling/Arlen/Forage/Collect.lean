import Arlen.Forage.Reproducible
import Arlen.Lib.Host

/-!
# What a package is collected from

`collect_artifacts` of `forage/package/src/lib.rs`. What the build directory is asked
about a declared path is one sighting of it; the staging directory is a tree of the host.
Names that are not text are passed over inside a directory, with the files they name, and
a directory declared as a binary is listed among the binaries though it is no file.
-/

namespace Arlen.Forage.Collect

open Arlen.Lib Arlen.Lib.Host
open Arlen.Forage.Lunpkg (OsName)

/-! ## What is declared and what is there -/

structure Artifacts where
  bin : List Path.PathBuf
  lib : List Path.PathBuf
  includes : List Path.PathBuf
  share : List Path.PathBuf
  libexec : List Path.PathBuf
  desktop : Option Path.PathBuf
  icon : Option Path.PathBuf

/-- The entries of a directory of the build, in the order they are read. A leaf without a
content is no regular file. -/
inductive BuildDir where
  | nil
  | leaf (name : OsName) (content : Option Bytes) (rest : BuildDir)
  | link (name : OsName) (rest : BuildDir)
  | dir (name : OsName) (inner rest : BuildDir)

inductive Found where
  | leaf (content : Option Bytes)
  | dir (entries : BuildDir)

/-- What is at a path: whether the path itself is a link, whether its real path lies in the
build directory, and what it leads to. -/
structure Sighting where
  isLink : Bool
  inside : Bool
  what : Found

/-- A build directory: its path, its real path, and what its paths lead to. -/
structure Build where
  path : Path.PathBuf
  real : Loc
  see : Path.PathBuf → Option Sighting

inductive PackageError where
  | io (error : IoError)
  | escapes (path : String)
  | notFound (path : String)
  | symlink (path : String)
  | noName (path : String)
  | collision (path : String)
  | stagingNotEmpty (path : String)
  | stagingInsideBuild (path : String)
deriving DecidableEq

structure Collection where
  files : List String
  binaries : List String
deriving DecidableEq, Repr

abbrev Collecting := Action World PackageError

/-- A call on the build directory, of which this is the answer. -/
def ask {α : Type} (env : Env) (answer : α) : Collecting α :=
  (query env fun _ => .ok answer).mapError .io

/-! ## Preparing -/

/-- A directory to stage in: the path it is given by, and where it is. -/
structure Dir where
  text : Path.PathBuf
  loc : Loc

def readDir (env : Env) (loc : Loc) : Io (List Host.Name) :=
  query env fun fs =>
    match fs.node loc with
    | some .dir => .ok (fs.names loc)
    | some (.leaf _) => .error (.refused .notDirectory)
    | none => .error (.refused .noEntry)

def prepareStaging (env : Env) (staging : Dir) (build : Build) : Collecting Unit := do
  if ← (pathExists env staging.loc []).mapError .io then
    let names ← (readDir env staging.loc).mapError .io
    if names ≠ [] then Action.fail (.stagingNotEmpty (fromUtf8Lossy staging.text))
    else
      let real ← ask env staging.loc
      if build.real.isPrefixOf real || real.isPrefixOf build.real then
        Action.fail (.stagingInsideBuild (fromUtf8Lossy staging.text))
      else return ()
  else
    (createDirAll env staging.loc []).mapError .io
    let real ← ask env staging.loc
    if build.real.isPrefixOf real || real.isPrefixOf build.real then
      Action.fail (.stagingInsideBuild (fromUtf8Lossy staging.text))
    else return ()

/-! ## Preflight -/

/-- A category of artifacts: its path, as a text and by its names. -/
inductive Category where
  | bin
  | lib
  | includes
  | libexec
  | share
  | applications
  | icons
deriving DecidableEq, Repr

def Category.text : Category → String
  | bin => "bin"
  | lib => "lib"
  | includes => "include"
  | libexec => "libexec"
  | share => "share"
  | applications => "share/applications"
  | icons => "share/icons"

def Category.names (c : Category) : List Host.Name := (utf8 c.text).splitOn 0x2f

def declared (artifacts : Artifacts) : List (Path.PathBuf × Category × Bool) :=
  artifacts.bin.map (·, Category.bin, true) ++ artifacts.lib.map (·, Category.lib, false) ++
    artifacts.includes.map (·, Category.includes, false) ++
    artifacts.libexec.map (·, Category.libexec, false) ++
    artifacts.share.map (·, Category.share, false) ++
    artifacts.desktop.toList.map (·, Category.applications, false) ++
    artifacts.icon.toList.map (·, Category.icons, false)

def isContainedRelative (p : Path.PathBuf) : Bool :=
  !Path.isAbsolute p && (Path.components p).all fun c =>
    match c with
    | .normal _ | .curDir => true
    | _ => false

/-- The name a declared path is staged under. -/
def artifactName (decl : Path.PathBuf) : Option String :=
  ((Path.fileName decl).bind decodeUtf8).filter fun n => n ≠ "" && n ≠ "." && n ≠ ".."

structure Planned where
  src : Path.PathBuf
  what : Found
  category : Category
  name : String
  isBinary : Bool

def Planned.relRoot (p : Planned) : String := p.category.text ++ "/" ++ p.name

def Planned.destRoot (p : Planned) : List Host.Name := p.category.names ++ [utf8 p.name]

/-- A round of the preflight, behind the artifacts planned before it. -/
def plan (env : Env) (build : Build) (decl : Path.PathBuf) (category : Category) (isBinary : Bool)
    (before : List Planned) : Collecting Planned :=
  let text := fromUtf8Lossy decl
  if !isContainedRelative decl then Action.fail (.escapes text)
  else
    match artifactName decl with
    | none => Action.fail (.noName text)
    | some name => do
      -- `exists` takes a call that fails for a path that is not there.
      match ← ((ask env (build.see decl)).attempt : Collecting _) with
      | .error _ | .ok none => Action.fail (.notFound text)
      | .ok (some sighting) =>
        if ← ask env sighting.isLink then Action.fail (.symlink text)
        else if !(← ask env sighting.inside) then Action.fail (.escapes text)
        else
          let planned : Planned :=
            ⟨Path.push build.path decl, sighting.what, category, name, isBinary⟩
          if planned.relRoot ∈ before.map Planned.relRoot then
            Action.fail (.collision planned.relRoot)
          else return planned

def preflight (env : Env) (build : Build) :
    List (Path.PathBuf × Category × Bool) → List Planned → Collecting (List Planned)
  | [], planned => return planned
  | (decl, category, isBinary) :: rest, planned => do
    let p ← plan env build decl category isBinary planned
    preflight env build rest (planned ++ [p])

/-! ## Copying -/

structure Collector where
  used : List String := []
  files : List String := []
  binaries : List String := []

def claim (rel : String) (c : Collector) : Collecting Collector :=
  if rel ∈ c.used then Action.fail (.collision rel)
  else return { c with used := rel :: c.used }

/-- `fs::copy`, of a file and of nothing else. -/
def copy (env : Env) (staging : Dir) (dest : List Host.Name) : Found → Io Unit
  | .leaf (some content) => do
    query env fun _ => .ok ()
    write env staging.loc dest content
  | .leaf none | .dir _ => query env fun _ => .error .invalid

/-- Claim a destination, copy the file there and list it. -/
def copyFile (env : Env) (staging : Dir) (what : Found) (dest : List Host.Name) (rel : String)
    (c : Collector) : Collecting Collector := do
  let c ← claim rel c
  (copy env staging dest what).mapError .io
  return { c with files := c.files ++ [rel] }

/-- `Path::is_dir`, of a path of the build. -/
def isDirectory (env : Env) (b : Bool) : Collecting Bool := do
  match ← ((ask env b).attempt : Collecting _) with
  | .ok b => return b
  | .error _ => return false

/-- The loop of `copy_dir`. -/
def copyEntries (env : Env) (staging : Dir) (src : Path.PathBuf) (dest : List Host.Name)
    (rel : String) : BuildDir → Collector → Collecting Collector
  | .nil, c => return c
  | .leaf n content rest, c => do
    ask env ()
    match decodeUtf8 n.bytes with
    | none => copyEntries env staging src dest rel rest c
    | some name =>
      ask env ()
      let _ ← isDirectory env false
      let c ← copyFile env staging (.leaf content) (dest ++ [n.bytes]) (rel ++ "/" ++ name) c
      copyEntries env staging src dest rel rest c
  | .link n rest, c => do
    ask env ()
    match decodeUtf8 n.bytes with
    | none => copyEntries env staging src dest rel rest c
    | some _ =>
      ask env ()
      Action.fail (.symlink (fromUtf8Lossy (Path.push src n.bytes)))
  | .dir n inner rest, c => do
    ask env ()
    match decodeUtf8 n.bytes with
    | none => copyEntries env staging src dest rel rest c
    | some name =>
      ask env ()
      if ← isDirectory env true then
        (createDirAll env staging.loc (dest ++ [n.bytes])).mapError .io
        ask env ()
        let c ← copyEntries env staging (Path.push src n.bytes) (dest ++ [n.bytes])
          (rel ++ "/" ++ name) inner c
        copyEntries env staging src dest rel rest c
      else
        let c ← copyFile env staging (.dir inner) (dest ++ [n.bytes]) (rel ++ "/" ++ name) c
        copyEntries env staging src dest rel rest c

def copyDir (env : Env) (staging : Dir) (src : Path.PathBuf) (dest : List Host.Name) (rel : String)
    (entries : BuildDir) (c : Collector) : Collecting Collector := do
  (createDirAll env staging.loc dest).mapError .io
  ask env ()
  copyEntries env staging src dest rel entries c

/-- Stage an artifact under its destination root. -/
def stageArtifact (env : Env) (staging : Dir) (p : Planned) (c : Collector) : Collecting Collector :=
  match p.what with
  | .dir entries => do
    if ← isDirectory env true then copyDir env staging p.src p.destRoot p.relRoot entries c
    else copyFile env staging p.what p.destRoot p.relRoot c
  | .leaf _ => do
    let _ ← isDirectory env false
    copyFile env staging p.what p.destRoot p.relRoot c

/-- A round of the copy pass. -/
def copyPlanned (env : Env) (staging : Dir) (p : Planned) (c : Collector) : Collecting Collector := do
  (createDirAll env staging.loc p.category.names).mapError .io
  let c ← stageArtifact env staging p c
  return if p.isBinary then { c with binaries := c.binaries ++ [p.relRoot] } else c

def copyPass (env : Env) (staging : Dir) : List Planned → Collector → Collecting Collector
  | [], c => return c
  | p :: rest, c => do
    let c ← copyPlanned env staging p c
    copyPass env staging rest c

def collectArtifacts (env : Env) (build : Build) (artifacts : Artifacts) (staging : Dir) :
    Collecting Collection := do
  ask env ()
  prepareStaging env staging build
  let planned ← preflight env build (declared artifacts) []
  let c ← copyPass env staging planned {}
  return ⟨sortBy id c.files, sortBy id c.binaries⟩

/-! ## What is below a directory -/

namespace BuildDir

/-- The regular files below a directory that are reached by names `pass` lets through. -/
def filesBy (pass : OsName → Bool) : BuildDir → List (List Host.Name × Bytes)
  | nil => []
  | leaf n content rest =>
    (if pass n then content.toList.map fun c => ([n.bytes], c) else []) ++ filesBy pass rest
  | link _ rest => filesBy pass rest
  | dir n inner rest =>
    (if pass n then (filesBy pass inner).map fun f => (n.bytes :: f.1, f.2) else []) ++
      filesBy pass rest

def regular : BuildDir → List (List Host.Name × Bytes) := filesBy fun _ => true

/-- The files that `copy_dir` does not pass over. -/
def textual : BuildDir → List (List Host.Name × Bytes) := filesBy fun n => (decodeUtf8 n.bytes).isSome

theorem ne_nil_of_mem_filesBy {pass : OsName → Bool} {d : BuildDir} {f : List Host.Name × Bytes}
    (h : f ∈ d.filesBy pass) : f.1 ≠ [] := by
  induction d with
  | nil => cases h
  | leaf n content rest ih =>
    rcases List.mem_append.1 h with h | h
    · split at h
      · obtain ⟨c, -, rfl⟩ := List.mem_map.1 h
        exact List.cons_ne_nil _ _
      · cases h
    · exact ih h
  | link n rest ih => exact ih h
  | dir n inner rest ihinner ih =>
    rcases List.mem_append.1 h with h | h
    · split at h
      · obtain ⟨g, -, rfl⟩ := List.mem_map.1 h
        exact List.cons_ne_nil _ _
      · cases h
    · exact ih h

/-- What is not passed over are the files whose names are text. -/
theorem mem_textual {d : BuildDir} {f : List Host.Name × Bytes} :
    f ∈ d.textual ↔ f ∈ d.regular ∧ ∀ n ∈ f.1, decodeUtf8 n ≠ none := by
  unfold textual regular
  induction d generalizing f with
  | nil => exact ⟨fun h => (by cases h), fun h => (by cases h.1)⟩
  | leaf n content rest ih =>
    rw [filesBy, filesBy, if_pos rfl, List.mem_append, List.mem_append, ih, or_and_right]
    refine or_congr_left ?_
    cases hn : decodeUtf8 n.bytes with
    | none =>
      rw [Option.isSome_none, if_neg Bool.false_ne_true]
      constructor
      · exact fun h => (by cases h)
      · rintro ⟨h, htext⟩
        obtain ⟨c, -, rfl⟩ := List.mem_map.1 h
        exact absurd hn (htext _ List.mem_cons_self)
    | some name =>
      rw [Option.isSome_some, if_pos rfl]
      refine ⟨fun h => ⟨h, ?_⟩, And.left⟩
      obtain ⟨c, -, rfl⟩ := List.mem_map.1 h
      exact List.forall_mem_singleton.2 (by rw [hn]; exact Option.some_ne_none _)
  | link n rest ih => exact ih
  | dir n inner rest ihinner ih =>
    rw [filesBy, filesBy, if_pos rfl, List.mem_append, List.mem_append, ih, or_and_right]
    refine or_congr_left ?_
    cases hn : decodeUtf8 n.bytes with
    | none =>
      rw [Option.isSome_none, if_neg Bool.false_ne_true]
      constructor
      · exact fun h => (by cases h)
      · rintro ⟨h, htext⟩
        obtain ⟨g, -, rfl⟩ := List.mem_map.1 h
        exact absurd hn (htext _ List.mem_cons_self)
    | some name =>
      rw [Option.isSome_some, if_pos rfl]
      constructor
      · intro h
        obtain ⟨g, hg, rfl⟩ := List.mem_map.1 h
        obtain ⟨hg, htext⟩ := ihinner.1 hg
        refine ⟨List.mem_map_of_mem hg, List.forall_mem_cons.2 ⟨?_, htext⟩⟩
        rw [hn]
        exact Option.some_ne_none _
      · rintro ⟨h, htext⟩
        obtain ⟨g, hg, rfl⟩ := List.mem_map.1 h
        exact List.mem_map_of_mem (ihinner.2 ⟨hg, (List.forall_mem_cons.1 htext).2⟩)

end BuildDir

/-! ## Destinations -/

/-- The path's names are text without a separator and lead down, and there is one. -/
def WellNamed (p : List Host.Name) : Prop :=
  p ≠ [] ∧ ∀ n ∈ p, (0x2f ∉ n ∧ n ≠ parentName) ∧ decodeUtf8 n ≠ none

theorem WellNamed.down {p : List Host.Name} (h : WellNamed p) : parentName ∉ p :=
  fun hm => (h.2 _ hm).1.2 rfl

/-- The text names the path. -/
def Names (t : String) (p : List Host.Name) : Prop := utf8 t = [0x2f].intercalate p

theorem intercalate_concat {p : List Host.Name} (hp : p ≠ []) (n : Host.Name) :
    ([0x2f] : Bytes).intercalate (p ++ [n]) = [0x2f].intercalate p ++ 0x2f :: n := by
  induction p with
  | nil => exact absurd rfl hp
  | cons m p ih =>
    cases p with
    | nil => rw [List.singleton_append, List.intercalate_cons_cons, List.intercalate_singleton,
        List.intercalate_singleton, List.append_assoc, List.singleton_append]
    | cons k p =>
      rw [List.cons_append, List.cons_append, List.intercalate_cons_cons, ← List.cons_append,
        ih (List.cons_ne_nil _ _), List.intercalate_cons_cons, List.append_assoc, List.append_assoc,
        List.append_assoc]

theorem Names.concat {t name : String} {p : List Host.Name} {n : Host.Name} (h : Names t p)
    (hp : p ≠ []) (hn : decodeUtf8 n = some name) : Names (t ++ "/" ++ name) (p ++ [n]) := by
  have hslash : utf8 "/" = [0x2f] := by decide
  unfold Names at *
  rw [utf8_append, utf8_append, h, hslash, utf8_of_decodeUtf8 hn, intercalate_concat hp,
    List.append_assoc, List.singleton_append]

theorem WellNamed.concat {p : List Host.Name} {n : OsName} (h : WellNamed p)
    (hn : decodeUtf8 n.bytes ≠ none) : WellNamed (p ++ [n.bytes]) :=
  ⟨List.append_ne_nil_of_left_ne_nil h.1 _,
    List.forall_mem_append.2 ⟨h.2, List.forall_mem_singleton.2
      ⟨⟨n.plain.2.2.2, n.plain.2.2.1⟩, hn⟩⟩⟩

/-- A text names one path. -/
theorem Names.unique {t : String} {p q : List Host.Name} (hp : Names t p) (hq : Names t q)
    (hp' : WellNamed p) (hq' : WellNamed q) : p = q := by
  unfold Names at hp hq
  rw [← List.splitOn_intercalate 0x2f (fun n hn => (hp'.2 n hn).1.1) hp'.1, ← hp, hq,
    List.splitOn_intercalate 0x2f (fun n hn => (hq'.2 n hn).1.1) hq'.1]

theorem Category.wellNamed (c : Category) : WellNamed c.names := by
  unfold WellNamed
  cases c <;> decide

theorem Category.names_text (c : Category) : Names c.text c.names :=
  (List.intercalate_splitOn 0x2f).symm

/-! ## Copying -/

section
variable {env : Env} {staging : Dir} {w : World} {c : Collector} {dest : List Host.Name} {rel : String}
  {done : List (List Host.Name × Bytes)} {fs fs' : Fs}

/-- Where the copy pass stands: the files in the staging directory are the ones `done`, and
their names are listed once each. -/
structure Inv (staging : Dir) (done : List (List Host.Name × Bytes)) (c : Collector) (fs : Fs) :
    Prop where
  leaf : ∀ p l, fs.node (staging.loc ++ p) = some (.leaf l) ↔
    ∃ content, l = .file content ∧ (p, content) ∈ done
  names : c.files.map utf8 = done.map fun f => [0x2f].intercalate f.1
  used : ∀ t, t ∈ c.used ↔ t ∈ c.files
  wellNamed : ∀ f ∈ done, WellNamed f.1
  nodup : c.files.Nodup

theorem Inv.linkFree (h : Inv staging done c fs) : LinkFree fs staging.loc := by
  intro p text hp hlink
  obtain ⟨q, rfl⟩ := hp
  obtain ⟨content, hl, -⟩ := (h.leaf q _).1 hlink
  cases hl

theorem Inv.grown (h : Inv staging done c fs) (hg : Grown fs fs') : Inv staging done c fs' :=
  ⟨fun p l => hg.leaf.trans (h.leaf p l), h.names, h.used, h.wellNamed, h.nodup⟩

/-- A listed name is that of a file. -/
theorem Inv.mem_files (h : Inv staging done c fs) {t : String} :
    t ∈ c.files ↔ ∃ f ∈ done, Names t f.1 := by
  constructor
  · intro ht
    have hm := List.mem_map_of_mem (f := utf8) ht
    rw [h.names] at hm
    obtain ⟨f, hf, heq⟩ := List.mem_map.1 hm
    exact ⟨f, hf, heq.symm⟩
  · rintro ⟨f, hf, hname⟩
    have hm := List.mem_map_of_mem (f := fun f => [0x2f].intercalate f.1) hf
    rw [← h.names] at hm
    obtain ⟨t', ht', heq⟩ := List.mem_map.1 hm
    obtain rfl := utf8_inj (heq.trans hname.symm)
    exact ht'

/-- A file more. -/
theorem Inv.copied (h : Inv staging done c fs) (hdest : WellNamed dest) (hrel : Names rel dest)
    (hnew : rel ∉ c.used) {content : Bytes} (hfs : ∀ q, fs'.node q =
      if q = staging.loc ++ dest then some (.leaf (.file content)) else fs.node q) :
    Inv staging (done ++ [(dest, content)])
      { c with used := rel :: c.used, files := c.files ++ [rel] } fs' := by
  have hfresh : rel ∉ c.files := fun hm => hnew ((h.used rel).2 hm)
  have hnot : ∀ content, (dest, content) ∉ done := fun content hm =>
    hfresh (h.mem_files.2 ⟨_, hm, hrel⟩)
  refine ⟨fun p l => ?_, ?_, fun t => ?_, ?_, ?_⟩
  · rw [hfs]
    by_cases heq : p = dest
    · rw [heq, if_pos rfl]
      constructor
      · intro hl
        obtain rfl := Entry.leaf.inj (Option.some.inj hl)
        exact ⟨content, rfl, List.mem_append_right _ (List.mem_singleton_self _)⟩
      · rintro ⟨content', rfl, hm⟩
        rcases List.mem_append.1 hm with hm | hm
        · exact absurd hm (hnot content')
        · obtain ⟨-, rfl⟩ := Prod.mk.inj (List.mem_singleton.1 hm)
          rfl
    · rw [if_neg fun hq => heq (List.append_cancel_left hq), h.leaf]
      refine exists_congr fun content' => and_congr_right fun _ => ?_
      rw [List.mem_append, List.mem_singleton, or_iff_left fun hp => heq (Prod.mk.inj hp).1]
  · rw [List.map_append, List.map_append, h.names]
    exact congrArg _ (congrArg (· :: []) hrel)
  · rw [List.mem_cons, List.mem_append, List.mem_singleton, h.used, or_comm]
  · exact List.forall_mem_append.2 ⟨h.wellNamed, List.forall_mem_singleton.2 hdest⟩
  · exact List.nodup_append.2 ⟨h.nodup, List.nodup_singleton _, fun t ht t' ht' heq =>
      hfresh (by rw [← List.mem_singleton.1 ht', ← heq]; exact ht)⟩

/-- What is asked is answered, and changes nothing. -/
theorem ends_ask {α : Type} (answer : α) : (ask env answer).Ends False w
    (fun a w' => a = answer ∧ w'.fs = w.fs) (fun _ _ => True) := by
  refine Action.Ends.mapError ?_
  unfold Action.Ends query
  cases env.plan w.made with
  | some fault => trivial
  | none => exact ⟨rfl, rfl⟩

theorem ends_isDirectory (b : Bool) : (isDirectory env b).Ends False w
    (fun a w' => (a = true → b = true) ∧ w'.fs = w.fs) (fun _ _ => True) := by
  unfold isDirectory
  have hask : ((ask env b).attempt : Collecting _).Ends False w
      (fun r w' => (∀ a, r = .ok a → a = b) ∧ w'.fs = w.fs) (fun _ _ => True) := by
    refine Action.Ends.attempt (Action.Ends.mapError ?_)
    unfold Action.Ends query
    cases env.plan w.made with
    | some fault => exact ⟨fun a h => (by cases h), rfl⟩
    | none => exact ⟨fun a h => (Except.ok.inj h).symm, rfl⟩
  refine hask.bind fun r w' ⟨hr, hfs⟩ => ?_
  cases r with
  | ok a => exact Action.Ends.pure ⟨fun h => hr a rfl ▸ h, hfs⟩
  | error e => exact Action.Ends.pure ⟨fun h => (by cases h), hfs⟩

theorem ends_createDirAll {names : List Host.Name} (h : Inv staging done c w.fs) :
    ((createDirAll env staging.loc names).mapError PackageError.io).Ends False w
      (fun _ w' => Inv staging done c w'.fs) (fun _ _ => True) := by
  have hgrown : (createDirAll env staging.loc names).Keeps False fun w' => Grown w.fs w'.fs :=
    keeps_createDirAll_grown
  exact Action.Ends.mapError ((hgrown w (.refl _)).mono (fun _ _ hg => h.grown hg) fun _ _ _ => trivial)

theorem ends_claim (rel : String) (c : Collector) (w : World) : (claim rel c).Ends False w
    (fun c' w' => rel ∉ c.used ∧ c' = { c with used := rel :: c.used } ∧ w' = w)
    (fun _ _ => True) := by
  unfold claim
  split
  · exact Action.Ends.fail trivial
  · next hnew => exact Action.Ends.pure ⟨hnew, rfl, rfl⟩

/-- A copy that goes well is one of a regular file. -/
theorem ends_copyFile {what : Found} (h : Inv staging done c w.fs) (hdest : WellNamed dest)
    (hrel : Names rel dest) :
    (copyFile env staging what dest rel c).Ends False w
      (fun c' w' => ∃ content, what = .leaf (some content) ∧
        Inv staging (done ++ [(dest, content)]) c' w'.fs ∧ c'.binaries = c.binaries)
      (fun _ _ => True) := by
  refine (ends_claim rel c w).bind ?_
  rintro c' w' ⟨hnew, rfl, rfl⟩
  have hcopy : ((copy env staging dest what).mapError PackageError.io).Ends False w'
      (fun _ w'' => ∃ content, what = .leaf (some content) ∧ ∀ q, w''.fs.node q =
        if q = staging.loc ++ dest then some (.leaf (.file content)) else w'.fs.node q)
      (fun _ _ => True) := by
    refine Action.Ends.mapError ?_
    unfold copy
    split
    · next content =>
      have hopen : (query env fun _ => (.ok () : Except IoError Unit)).Ends False w'
          (fun _ w'' => w''.fs = w'.fs) (fun _ _ => True) := by
        unfold Action.Ends query
        cases env.plan w'.made <;> trivial
      refine hopen.bind fun _ w'' hfs => ?_
      have hspecial : w''.fs.node (staging.loc ++ dest) ≠ some (.leaf .special) := by
        rw [hfs]
        intro hs
        obtain ⟨_, hl, -⟩ := (h.leaf dest _).1 hs
        cases hl
      have hfree : LinkFree w''.fs staging.loc := by
        rw [hfs]
        exact h.linkFree
      refine (ends_write_exact hfree hdest.down hspecial).mono (fun _ v hv => ⟨content, rfl, ?_⟩) fun _ _ h => h
      rw [hfs] at hv
      exact hv
    · unfold Action.Ends query
      cases env.plan w'.made <;> trivial
    · unfold Action.Ends query
      cases env.plan w'.made <;> trivial
  refine hcopy.bind fun _ w'' ⟨content, hwhat, hfs⟩ => ?_
  exact Action.Ends.pure ⟨content, hwhat, h.copied hdest hrel hnew hfs, rfl⟩

/-- The files below `dest`, with their paths from the staging directory. -/
def below (dest : List Host.Name) (files : List (List Host.Name × Bytes)) :
    List (List Host.Name × Bytes) :=
  files.map fun f => (dest ++ f.1, f.2)

theorem below_append (dest : List Host.Name) (l l' : List (List Host.Name × Bytes)) :
    below dest (l ++ l') = below dest l ++ below dest l' := List.map_append

theorem below_cons (dest : List Host.Name) (n : Host.Name) (l : List (List Host.Name × Bytes)) :
    below dest (l.map fun f => (n :: f.1, f.2)) = below (dest ++ [n]) l := by
  unfold below
  rw [List.map_map]
  refine List.map_congr_left fun f _ => ?_
  show (dest ++ n :: f.1, f.2) = (dest ++ [n] ++ f.1, f.2)
  rw [List.append_assoc, List.singleton_append]

/-- The loop copies the files it does not pass over. -/
theorem ends_copyEntries {src : Path.PathBuf} {d : BuildDir} (h : Inv staging done c w.fs)
    (hdest : WellNamed dest) (hrel : Names rel dest) :
    (copyEntries env staging src dest rel d c).Ends False w
      (fun c' w' => Inv staging (done ++ below dest d.textual) c' w'.fs ∧
        c'.binaries = c.binaries) (fun _ _ => True) := by
  induction d generalizing src dest rel done c w with
  | nil =>
    refine Action.Ends.pure ⟨?_, rfl⟩
    have hnil : done ++ below dest BuildDir.nil.textual = done := List.append_nil _
    rw [hnil]
    exact h
  | leaf n content rest ih =>
    refine (ends_ask ()).bind fun _ w₁ ⟨_, hfs₁⟩ => ?_
    rw [← hfs₁] at h
    have htext : (BuildDir.leaf n content rest).textual =
        (if (decodeUtf8 n.bytes).isSome then content.toList.map fun c => ([n.bytes], c) else []) ++
          rest.textual := rfl
    rw [htext]
    split
    · next hn =>
      rw [hn]
      exact ih h hdest hrel
    · next name hn =>
      rw [hn]
      refine (ends_ask ()).bind fun _ w₂ ⟨_, hfs₂⟩ => ?_
      refine (ends_isDirectory false).bind fun _ w₃ ⟨_, hfs₃⟩ => ?_
      rw [← hfs₂, ← hfs₃] at h
      have hn' : decodeUtf8 n.bytes ≠ none := by
        rw [hn]
        exact Option.some_ne_none _
      refine (ends_copyFile h (hdest.concat hn') (hrel.concat hdest.1 hn)).bind ?_
      rintro c' w₄ ⟨found, hwhat, hinv, hbin⟩
      obtain rfl := Found.leaf.inj hwhat
      refine (ih hinv hdest hrel).mono (fun c'' w₅ ⟨hinv', hbin'⟩ => ⟨?_, hbin'.trans hbin⟩) fun _ _ h => h
      rw [List.append_assoc] at hinv'
      exact hinv'
  | link n rest ih =>
    refine (ends_ask ()).bind fun _ w₁ ⟨_, hfs₁⟩ => ?_
    rw [← hfs₁] at h
    split
    · exact ih h hdest hrel
    · exact (ends_ask ()).bind fun _ w₂ _ => Action.Ends.fail trivial
  | dir n inner rest ihinner ih =>
    refine (ends_ask ()).bind fun _ w₁ ⟨_, hfs₁⟩ => ?_
    rw [← hfs₁] at h
    have htext : (BuildDir.dir n inner rest).textual =
        (if (decodeUtf8 n.bytes).isSome then inner.textual.map fun f => (n.bytes :: f.1, f.2) else []) ++
          rest.textual := rfl
    rw [htext]
    split
    · next hn =>
      rw [hn]
      exact ih h hdest hrel
    · next name hn =>
      rw [hn, Option.isSome_some, if_pos rfl, below_append, below_cons, ← List.append_assoc]
      have hn' : decodeUtf8 n.bytes ≠ none := by
        rw [hn]
        exact Option.some_ne_none _
      have hdest' := hdest.concat hn'
      have hrel' := hrel.concat hdest.1 hn
      refine (ends_ask ()).bind fun _ w₂ ⟨_, hfs₂⟩ => ?_
      refine (ends_isDirectory true).bind fun there w₃ ⟨_, hfs₃⟩ => ?_
      rw [← hfs₂, ← hfs₃] at h
      split
      · refine (ends_createDirAll h).bind fun _ w₄ hinv => ?_
        refine (ends_ask ()).bind fun _ w₅ ⟨_, hfs₅⟩ => ?_
        rw [← hfs₅] at hinv
        refine (ihinner hinv hdest' hrel').bind fun c' w₆ ⟨hinv', hbin⟩ => ?_
        exact (ih hinv' hdest hrel).mono (fun c'' w₇ ⟨hinv'', hbin'⟩ => ⟨hinv'', hbin'.trans hbin⟩)
          fun _ _ h => h
      · refine (ends_copyFile h hdest' hrel').bind ?_
        rintro c' w₄ ⟨found, hwhat, -⟩
        cases hwhat

/-- What a planned artifact adds to the staging directory. -/
def Planned.files (p : Planned) : List (List Host.Name × Bytes) :=
  match p.what with
  | .leaf content => content.toList.map fun content => (p.destRoot, content)
  | .dir entries => below p.destRoot entries.textual

/-- The name came from a path. -/
def Planned.Named (p : Planned) : Prop := 0x2f ∉ utf8 p.name ∧ utf8 p.name ≠ parentName

theorem Planned.wellNamed {p : Planned} (hp : p.Named) : WellNamed p.destRoot := by
  obtain ⟨hne, hall⟩ := p.category.wellNamed
  refine ⟨List.append_ne_nil_of_left_ne_nil hne _, List.forall_mem_append.2 ⟨hall, ?_⟩⟩
  refine List.forall_mem_singleton.2 ⟨hp, ?_⟩
  rw [decodeUtf8_utf8]
  exact Option.some_ne_none _

theorem Planned.names_relRoot (p : Planned) : Names p.relRoot p.destRoot :=
  p.category.names_text.concat p.category.wellNamed.1 (decodeUtf8_utf8 p.name)

theorem ends_stageArtifact {p : Planned} (hp : p.Named) (h : Inv staging done c w.fs) :
    (stageArtifact env staging p c).Ends False w
      (fun c' w' => Inv staging (done ++ p.files) c' w'.fs ∧ p.what ≠ .leaf none ∧
        c'.binaries = c.binaries) (fun _ _ => True) := by
  have hfile : ∀ {w' : World}, w'.fs = w.fs →
      (copyFile env staging p.what p.destRoot p.relRoot c).Ends False w'
        (fun c' w'' => Inv staging (done ++ p.files) c' w''.fs ∧ p.what ≠ .leaf none ∧
          c'.binaries = c.binaries) (fun _ _ => True) := by
    intro w' hfs
    rw [← hfs] at h
    refine (ends_copyFile h (Planned.wellNamed hp) p.names_relRoot).mono ?_ fun _ _ h => h
    rintro c' w'' ⟨content, hwhat, hinv, hbin⟩
    unfold Planned.files
    rw [hwhat]
    exact ⟨hinv, fun h => (by cases h), hbin⟩
  unfold stageArtifact
  split
  · next entries hwhat =>
    refine (ends_isDirectory true).bind fun there w₁ ⟨_, hfs₁⟩ => ?_
    split
    · rw [← hfs₁] at h
      refine (ends_createDirAll h).bind fun _ w₂ h₂ => ?_
      refine (ends_ask ()).bind fun _ w₃ ⟨_, hfs₃⟩ => ?_
      rw [← hfs₃] at h₂
      refine (ends_copyEntries h₂ (Planned.wellNamed hp) p.names_relRoot).mono ?_ fun _ _ h => h
      rintro c' w₄ ⟨hinv, hbin⟩
      unfold Planned.files
      rw [hwhat]
      exact ⟨hinv, fun h => (by cases h), hbin⟩
    · exact hfile hfs₁
  · exact (ends_isDirectory false).bind fun _ w₁ ⟨_, hfs₁⟩ => hfile hfs₁

theorem ends_copyPlanned {p : Planned} (hp : p.Named) (h : Inv staging done c w.fs) :
    (copyPlanned env staging p c).Ends False w
      (fun c' w' => Inv staging (done ++ p.files) c' w'.fs ∧ p.what ≠ .leaf none ∧
        c'.binaries = c.binaries ++ if p.isBinary then [p.relRoot] else [])
      (fun _ _ => True) := by
  unfold copyPlanned
  refine (ends_createDirAll h).bind fun _ w₁ h₁ => ?_
  refine (ends_stageArtifact hp h₁).bind fun c' w₂ ⟨hinv, hwhat, hbin⟩ => Action.Ends.pure ?_
  split
  · exact ⟨⟨hinv.leaf, hinv.names, hinv.used, hinv.wellNamed, hinv.nodup⟩, hwhat,
      congrArg (· ++ [p.relRoot]) hbin⟩
  · exact ⟨hinv, hwhat, by rw [hbin, List.append_nil]⟩

/-- The names of the binaries planned. -/
def binariesOf (planned : List Planned) : List String :=
  (planned.filter Planned.isBinary).map Planned.relRoot

theorem ends_copyPass {planned : List Planned} (hp : ∀ p ∈ planned, p.Named)
    (h : Inv staging done c w.fs) :
    (copyPass env staging planned c).Ends False w
      (fun c' w' => Inv staging (done ++ planned.flatMap Planned.files) c' w'.fs ∧
        (∀ p ∈ planned, p.what ≠ .leaf none) ∧ c'.binaries = c.binaries ++ binariesOf planned)
      (fun _ _ => True) := by
  induction planned generalizing done c w with
  | nil =>
    refine Action.Ends.pure ⟨?_, fun p hp => (by cases hp), (List.append_nil _).symm⟩
    rw [List.flatMap_nil, List.append_nil]
    exact h
  | cons p rest ih =>
    obtain ⟨hp, hrest⟩ := List.forall_mem_cons.1 hp
    refine (ends_copyPlanned hp h).bind fun c' w₁ ⟨hinv, hwhat, hbin⟩ => ?_
    refine (ih hrest hinv).mono (fun c'' w₂ ⟨hinv', hwhat', hbin'⟩ => ?_) fun _ _ h => h
    refine ⟨?_, List.forall_mem_cons.2 ⟨hwhat, hwhat'⟩, ?_⟩
    · rw [List.flatMap_cons, ← List.append_assoc]
      exact hinv'
    · rw [hbin', hbin, List.append_assoc]
      unfold binariesOf
      cases hb : p.isBinary with
      | false => rw [List.filter_cons_of_neg (by rw [hb]; exact Bool.false_ne_true)]; rfl
      | true => rw [List.filter_cons_of_pos hb]; rfl

/-! ## Preflight -/

/-- The artifact was planned as declared. -/
structure Plans (build : Build) (d : Path.PathBuf × Category × Bool) (p : Planned) : Prop where
  category : p.category = d.2.1
  isBinary : p.isBinary = d.2.2
  name : artifactName d.1 = some p.name
  seen : ∃ sighting, build.see d.1 = some sighting ∧ sighting.what = p.what

theorem Plans.named {build : Build} {d : Path.PathBuf × Category × Bool} {p : Planned}
    (h : Plans build d p) : p.Named := by
  have hname := h.name
  unfold artifactName at hname
  obtain ⟨hname, hpass⟩ := Option.filter_eq_some_iff.1 hname
  obtain ⟨b, hb, hdec⟩ := Option.bind_eq_some_iff.1 hname
  unfold Path.fileName at hb
  split at hb
  · next b' hlast =>
    obtain rfl := Option.some.inj hb
    have hup : p.name ≠ ".." := by
      rintro heq
      rw [heq] at hpass
      exact absurd hpass (by decide)
    refine ⟨?_, fun heq => hup (utf8_inj (heq.trans (by decide)))⟩
    rw [utf8_of_decodeUtf8 hdec]
    exact Path.not_mem_of_normal (List.mem_of_getLast? hlast)
  · cases hb

theorem ends_plan {build : Build} {d : Path.PathBuf × Category × Bool} {before : List Planned} :
    (plan env build d.1 d.2.1 d.2.2 before).Ends False w
      (fun p w' => Plans build d p ∧ p.relRoot ∉ before.map Planned.relRoot ∧ w'.fs = w.fs)
      (fun _ _ => True) := by
  unfold plan
  split
  · exact Action.Ends.fail trivial
  · split
    · exact Action.Ends.fail trivial
    · next name hname =>
      have hsee : ((ask env (build.see d.1)).attempt : Collecting _).Ends False w
          (fun r w' => (∀ a, r = .ok a → a = build.see d.1) ∧ w'.fs = w.fs) (fun _ _ => True) := by
        refine Action.Ends.attempt (Action.Ends.mapError ?_)
        unfold Action.Ends query
        cases env.plan w.made with
        | some fault => exact ⟨fun a h => (by cases h), rfl⟩
        | none => exact ⟨fun a h => (Except.ok.inj h).symm, rfl⟩
      refine hsee.bind fun r w₁ ⟨hr, hfs₁⟩ => ?_
      rcases r with e | _ | sighting
      · exact Action.Ends.fail trivial
      · exact Action.Ends.fail trivial
      · refine (ends_ask sighting.isLink).bind fun link w₂ ⟨_, hfs₂⟩ => ?_
        split
        · exact Action.Ends.fail trivial
        · refine (ends_ask sighting.inside).bind fun inside w₃ ⟨_, hfs₃⟩ => ?_
          split
          · exact Action.Ends.fail trivial
          · dsimp only
            split
            · exact Action.Ends.fail trivial
            · next hnew =>
              refine Action.Ends.pure ⟨⟨rfl, rfl, hname, sighting, (hr _ rfl).symm, rfl⟩, hnew, ?_⟩
              rw [hfs₃, hfs₂, hfs₁]

theorem ends_preflight {build : Build} {ds done : List (Path.PathBuf × Category × Bool)}
    {planned : List Planned} (h : List.Forall₂ (Plans build) done planned)
    (hnodup : (planned.map Planned.relRoot).Nodup) :
    (preflight env build ds planned).Ends False w
      (fun planned' w' => List.Forall₂ (Plans build) (done ++ ds) planned' ∧
        (planned'.map Planned.relRoot).Nodup ∧ w'.fs = w.fs) (fun _ _ => True) := by
  induction ds generalizing done planned w with
  | nil =>
    rw [List.append_nil]
    exact Action.Ends.pure ⟨h, hnodup, rfl⟩
  | cons d ds ih =>
    refine (ends_plan (d := d)).bind fun p w₁ ⟨hplans, hnew, hfs₁⟩ => ?_
    have hnodup' : ((planned ++ [p]).map Planned.relRoot).Nodup := by
      rw [List.map_append, List.nodup_append]
      refine ⟨hnodup, List.nodup_singleton _, fun t ht t' ht' heq => hnew ?_⟩
      rw [← List.mem_singleton.1 ht', ← heq]
      exact ht
    refine (ih (List.rel_append h (.cons hplans .nil)) hnodup').mono ?_ fun _ _ h => h
    rintro planned' w₂ ⟨hall, hn, hfs₂⟩
    rw [List.append_assoc] at hall
    exact ⟨hall, hn, by rw [hfs₂, hfs₁]⟩

/-! ## Preparing -/

/-- Where no file is, none is staged. -/
theorem Inv.empty (h : ∀ p l, fs.node (staging.loc ++ p) ≠ some (.leaf l)) : Inv staging [] {} fs :=
  ⟨fun p l => iff_of_false (h p l) fun ⟨_, _, hm⟩ => (by cases hm), rfl, fun _ => Iff.rfl,
    fun _ hf => (by cases hf), List.nodup_nil⟩

theorem ends_pathExists (hanswer : env.plan w.made = none) :
    ((pathExists env staging.loc []).mapError PackageError.io).Ends False w
      (fun b w' => w'.fs = w.fs ∧ (b = false → w.fs.node staging.loc = none)) (fun _ _ => True) := by
  refine Action.Ends.mapError ?_
  have hstat : ((stat env staging.loc []).attempt : Io _).Ends False w
      (fun r w' => w'.fs = w.fs ∧ (∀ e, r = .error e → w.fs.node staging.loc = none))
      (fun _ _ => True) := by
    refine Action.Ends.attempt ?_
    unfold Action.Ends stat query
    rw [hanswer]
    dsimp only [walk, atPlace]
    cases hnode : w.fs.node staging.loc with
    | none => exact ⟨rfl, fun _ _ => rfl⟩
    | some e => exact ⟨rfl, fun _ h => (by cases h)⟩
  unfold pathExists
  refine hstat.bind fun r w' ⟨hfs, hr⟩ => ?_
  cases r with
  | ok e => exact Action.Ends.pure ⟨hfs, fun h => (by cases h)⟩
  | error e => exact Action.Ends.pure ⟨hfs, fun _ => hr e rfl⟩

theorem ends_readDir : ((readDir env staging.loc).mapError PackageError.io).Ends False w
    (fun names w' => w'.fs = w.fs ∧ w.fs.node staging.loc = some .dir ∧
      names = w.fs.names staging.loc) (fun _ _ => True) := by
  refine Action.Ends.mapError ?_
  unfold Action.Ends readDir query
  cases env.plan w.made with
  | some fault => trivial
  | none =>
    dsimp only
    cases hnode : w.fs.node staging.loc with
    | none => trivial
    | some e =>
      cases e with
      | dir => exact ⟨rfl, rfl, rfl⟩
      | leaf b => trivial

/-- No file is in the staging directory when the preparing is done. -/
theorem ends_prepareStaging {build : Build} (hanswer : env.plan w.made = none) :
    (prepareStaging env staging build).Ends False w
      (fun _ w' => Inv staging [] {} w'.fs) (fun _ _ => True) := by
  have hoverlap : ∀ {w' : World}, Inv staging [] {} w'.fs →
      (do
        let real ← ask env staging.loc
        if build.real.isPrefixOf real || real.isPrefixOf build.real then
          Action.fail (.stagingInsideBuild (fromUtf8Lossy staging.text))
        else return () : Collecting Unit).Ends False w' (fun _ w'' => Inv staging [] {} w''.fs)
        (fun _ _ => True) := by
    intro w' hinv
    refine (ends_ask staging.loc).bind fun real w'' ⟨_, hfs⟩ => ?_
    split
    · exact Action.Ends.fail trivial
    · exact Action.Ends.pure (hfs ▸ hinv)
  unfold prepareStaging
  refine (ends_pathExists hanswer).bind fun b w₁ ⟨hfs₁, hnone⟩ => ?_
  split
  · refine ends_readDir.bind fun names w₂ ⟨hfs₂, hdir, hnames⟩ => ?_
    split
    · exact Action.Ends.fail trivial
    · next hempty =>
      refine hoverlap (Inv.empty fun p l hleaf => ?_)
      rw [hfs₂] at hleaf
      by_cases hp : p = []
      · rw [hp, List.append_nil, hdir] at hleaf
        cases hleaf
      · have hnil : w₁.fs.names staging.loc = [] := hnames ▸ not_not.1 hempty
        have hbelow := FileSystem.node_below_empty hnil (List.prefix_append staging.loc p)
          fun heq => hp (List.append_right_eq_self.1 heq.symm)
        rw [hbelow] at hleaf
        cases hleaf
  · next hb =>
    have hgrown : (createDirAll env staging.loc []).Keeps False fun w' => Grown w₁.fs w'.fs :=
      keeps_createDirAll_grown
    have hmade : ((createDirAll env staging.loc []).mapError PackageError.io).Ends False w₁
        (fun _ w' => Grown w₁.fs w'.fs) (fun _ _ => True) :=
      Action.Ends.mapError ((hgrown w₁ (.refl _)).mono (fun _ _ h => h) fun _ _ _ => trivial)
    refine hmade.bind fun _ w₂ hg => hoverlap (Inv.empty fun p l hleaf => ?_)
    rw [hg.leaf, hfs₁] at hleaf
    have habsent := FileSystem.node_none_of_isPrefix (hnone (Bool.eq_false_iff.2 hb))
      (List.prefix_append staging.loc p)
    rw [habsent] at hleaf
    cases hleaf

end

/-! ## The package -/

section
variable {env : Env} {staging : Dir} {build : Build} {artifacts : Artifacts} {w w' : World}
  {d : Path.PathBuf × Category × Bool} {planned : List Planned}

/-- The declared path puts the file at `p`, whatever its names. -/
def Declares (build : Build) (d : Path.PathBuf × Category × Bool) (p : List Host.Name)
    (content : Bytes) : Prop :=
  ∃ name sighting, artifactName d.1 = some name ∧ build.see d.1 = some sighting ∧
    match sighting.what with
    | .leaf found => found = some content ∧ p = d.2.1.names ++ [utf8 name]
    | .dir entries => ∃ rest, (rest, content) ∈ entries.regular ∧ p = d.2.1.names ++ [utf8 name] ++ rest

/-- The package is what was declared. -/
structure Exact (build : Build) (artifacts : Artifacts) (staging : Dir) (c : Collection) (fs : Fs) :
    Prop where
  staged : ∀ p content, fs.node (staging.loc ++ p) = some (.leaf (.file content)) ↔
    ∃ d ∈ declared artifacts, Declares build d p content
  files : ∀ t, t ∈ c.files ↔
    ∃ p content, fs.node (staging.loc ++ p) = some (.leaf (.file content)) ∧ Names t p
  sorted : c.files.Pairwise (· < ·)
  binaries : ∀ t ∈ c.binaries, t ∈ c.files

theorem Plans.mem_files {p : Planned} (h : Plans build d p) {f : List Host.Name × Bytes} :
    f ∈ p.files ↔ Declares build d f.1 f.2 ∧ ∀ n ∈ f.1, decodeUtf8 n ≠ none := by
  obtain ⟨sighting, hseen, hwhat⟩ := h.seen
  have hroot : p.destRoot = d.2.1.names ++ [utf8 p.name] := by
    unfold Planned.destRoot
    rw [h.category]
  have hiff : Declares build d f.1 f.2 ↔ match sighting.what with
      | .leaf found => found = some f.2 ∧ f.1 = p.destRoot
      | .dir entries => ∃ rest, (rest, f.2) ∈ entries.regular ∧ f.1 = p.destRoot ++ rest := by
    unfold Declares
    rw [hroot]
    constructor
    · rintro ⟨name, sighting', hname, hsee, hm⟩
      obtain rfl := Option.some.inj (hname.symm.trans h.name)
      obtain rfl := Option.some.inj (hsee.symm.trans hseen)
      exact hm
    · exact fun hm => ⟨p.name, sighting, h.name, hseen, hm⟩
  rw [hiff, hwhat]
  have htext := (Planned.wellNamed h.named).2
  unfold Planned.files
  cases p.what with
  | leaf found =>
    dsimp only
    rw [List.mem_map]
    constructor
    · rintro ⟨content, hc, rfl⟩
      exact ⟨⟨Option.mem_toList.1 hc, rfl⟩, fun n hn => (htext n hn).2⟩
    · rintro ⟨⟨rfl, hp⟩, -⟩
      exact ⟨f.2, Option.mem_toList.2 rfl, by rw [← hp]⟩
  | dir entries =>
    dsimp only
    unfold below
    rw [List.mem_map]
    constructor
    · rintro ⟨g, hg, rfl⟩
      obtain ⟨hg, hnames⟩ := BuildDir.mem_textual.1 hg
      exact ⟨⟨g.1, hg, rfl⟩, List.forall_mem_append.2 ⟨fun n hn => (htext n hn).2, hnames⟩⟩
    · rintro ⟨⟨rest, hrest, hp⟩, hnames⟩
      rw [hp] at hnames
      exact ⟨(rest, f.2), BuildDir.mem_textual.2 ⟨hrest, (List.forall_mem_append.1 hnames).2⟩,
        by rw [← hp]⟩

theorem mem_planned_files (h : List.Forall₂ (Plans build) (declared artifacts) planned)
    {f : List Host.Name × Bytes} : f ∈ planned.flatMap Planned.files ↔
      (∃ d ∈ declared artifacts, Declares build d f.1 f.2) ∧ ∀ n ∈ f.1, decodeUtf8 n ≠ none := by
  generalize declared artifacts = ds at h
  induction h with
  | nil => exact ⟨fun hf => (by cases hf), fun ⟨⟨d, hd, _⟩, _⟩ => (by cases hd)⟩
  | cons hplans _ ih =>
    rw [List.flatMap_cons, List.mem_append, ih, hplans.mem_files, List.exists_mem_cons_iff,
      or_and_right]

theorem mem_declared_true {decl : Path.PathBuf} {category : Category} :
    (decl, category, true) ∈ declared artifacts ↔ decl ∈ artifacts.bin ∧ category = .bin := by
  unfold declared
  simp only [List.mem_append, List.mem_map, Prod.mk.injEq, Bool.false_eq_true, and_false,
    exists_false, or_false]
  constructor
  · rintro ⟨a, ha, rfl, rfl, -⟩
    exact ⟨ha, rfl⟩
  · rintro ⟨ha, rfl⟩
    exact ⟨decl, ha, rfl, rfl, trivial⟩

theorem exists_planned (h : List.Forall₂ (Plans build) (declared artifacts) planned)
    (hd : d ∈ declared artifacts) : ∃ p ∈ planned, Plans build d p := by
  generalize declared artifacts = ds at h hd
  induction h with
  | nil => cases hd
  | @cons d' p' _ _ hplans _ ih =>
    rcases List.mem_cons.1 hd with rfl | hd
    · exact ⟨p', List.mem_cons_self, hplans⟩
    · obtain ⟨p, hp, hdp⟩ := ih hd
      exact ⟨p, List.mem_cons_of_mem _ hp, hdp⟩

theorem exists_declared (h : List.Forall₂ (Plans build) (declared artifacts) planned) {p : Planned}
    (hp : p ∈ planned) : ∃ d ∈ declared artifacts, Plans build d p := by
  generalize declared artifacts = ds at h
  induction h with
  | nil => cases hp
  | @cons d' p' _ _ hplans _ ih =>
    rcases List.mem_cons.1 hp with rfl | hp
    · exact ⟨d', List.mem_cons_self, hplans⟩
    · obtain ⟨d, hd, hdp⟩ := ih hp
      exact ⟨d, List.mem_cons_of_mem _ hd, hdp⟩

/-- What a collection that went well has done. -/
theorem ends_collectArtifacts (hanswer : env.plan (w.made + 1) = none) :
    (collectArtifacts env build artifacts staging).Ends False w
      (fun c w' => ∃ planned c', List.Forall₂ (Plans build) (declared artifacts) planned ∧
        (planned.map Planned.relRoot).Nodup ∧ (∀ p ∈ planned, p.what ≠ .leaf none) ∧
        Inv staging (planned.flatMap Planned.files) c' w'.fs ∧ c'.binaries = binariesOf planned ∧
        c = ⟨sortBy id c'.files, sortBy id c'.binaries⟩)
      (fun _ _ => True) := by
  have hreal : (ask env ()).Ends False w (fun _ w' => w'.made = w.made + 1) (fun _ _ => True) := by
    refine Action.Ends.mapError ?_
    unfold Action.Ends query
    cases env.plan w.made with
    | some fault => trivial
    | none => exact rfl
  unfold collectArtifacts
  refine hreal.bind fun _ w₁ hmade => ?_
  rw [← hmade] at hanswer
  refine (ends_prepareStaging hanswer).bind fun _ w₂ hempty => ?_
  refine (ends_preflight .nil List.nodup_nil).bind fun planned w₃ ⟨hplans, hnodup, hfs₃⟩ => ?_
  rw [List.nil_append] at hplans
  have hnamed : ∀ p ∈ planned, p.Named := by
    intro p hp
    obtain ⟨d, -, hdp⟩ := exists_declared hplans hp
    exact hdp.named
  rw [← hfs₃] at hempty
  refine (ends_copyPass hnamed hempty).bind fun c' w₄ ⟨hinv, hwhat, hbin⟩ => Action.Ends.pure ?_
  exact ⟨planned, c', hplans, hnodup, hwhat, hinv, hbin, rfl⟩

/-- A destination root of a binary that is a file's path is the file's own. -/
theorem not_dir_of_listed (hnodup : (planned.map Planned.relRoot).Nodup) {p : Planned}
    (hp : p ∈ planned) (hbin : p.category = .bin) {content : Bytes}
    (hm : (p.destRoot, content) ∈ planned.flatMap Planned.files) (entries : BuildDir) :
    p.what ≠ .dir entries := by
  intro hdir
  obtain ⟨p', hp', hm⟩ := List.mem_flatMap.1 hm
  unfold Planned.files at hm
  split at hm
  · next found hwhat =>
    obtain ⟨_, -, heq⟩ := List.mem_map.1 hm
    have hroot : p'.destRoot = p.destRoot := (Prod.mk.inj heq).1
    have hrel : p'.relRoot = p.relRoot := by
      refine utf8_inj (p'.names_relRoot.trans (Eq.trans ?_ p.names_relRoot.symm))
      rw [hroot]
    obtain rfl := List.inj_on_of_nodup_map hnodup hp' hp hrel
    rw [hwhat] at hdir
    cases hdir
  · next entries' _ =>
    obtain ⟨f, hf, heq⟩ := List.mem_map.1 hm
    have hlen := congrArg List.length (Prod.mk.inj heq).1
    have hrest := List.length_pos_of_ne_nil (BuildDir.ne_nil_of_mem_filesBy hf)
    have hcat := List.length_pos_of_ne_nil p'.category.wellNamed.1
    have hone : Category.bin.names.length = 1 := by decide
    unfold Planned.destRoot at hlen
    rw [hbin] at hlen
    simp only [List.length_append, List.length_singleton, hone] at hlen
    omega

/-- **The package is what was declared** just when the directories declared hold no file
under a name that is not text, and no directory is declared as a binary. -/
theorem collectArtifacts_iff (hanswer : env.plan (w.made + 1) = none) {c : Collection}
    (hrun : collectArtifacts env build artifacts staging w = some (.ok c, w')) :
    Exact build artifacts staging c w'.fs ↔
      (∀ d ∈ declared artifacts, ∀ sighting entries, build.see d.1 = some sighting →
        sighting.what = .dir entries → ∀ f ∈ entries.regular, ∀ n ∈ f.1, decodeUtf8 n ≠ none) ∧
      ∀ decl ∈ artifacts.bin, ∀ sighting entries, build.see decl = some sighting →
        sighting.what ≠ .dir entries := by
  obtain ⟨planned, c', hplans, hnodup, hwhat, hinv, hbin, rfl⟩ :=
    (ends_collectArtifacts hanswer).of_ok hrun
  have hnode : ∀ p content, w'.fs.node (staging.loc ++ p) = some (.leaf (.file content)) ↔
      (p, content) ∈ planned.flatMap Planned.files := by
    intro p content
    rw [hinv.leaf]
    exact ⟨fun ⟨_, heq, hm⟩ => Leaf.file.inj heq ▸ hm, fun hm => ⟨content, rfl, hm⟩⟩
  have hlisted : ∀ t, t ∈ sortBy id c'.files ↔ t ∈ c'.files := fun t =>
    (sortBy_perm id c'.files).mem_iff
  constructor
  · intro h
    constructor
    · intro d hd sighting entries hsee hdir f hf
      obtain ⟨p, -, hdp⟩ := exists_planned hplans hd
      have hdeclares : Declares build d (d.2.1.names ++ [utf8 p.name] ++ f.1) f.2 :=
        ⟨p.name, sighting, hdp.name, hsee, by rw [hdir]; exact ⟨f.1, hf, rfl⟩⟩
      have hm := (hnode _ _).1 ((h.staged _ _).2 ⟨d, hd, hdeclares⟩)
      exact (List.forall_mem_append.1 ((mem_planned_files hplans).1 hm).2).2
    · intro decl hdecl sighting entries hsee hdir
      have hd : (decl, .bin, true) ∈ declared artifacts := mem_declared_true.2 ⟨hdecl, rfl⟩
      obtain ⟨p, hp, hdp⟩ := exists_planned hplans hd
      have hmem : p.relRoot ∈ binariesOf planned :=
        List.mem_map_of_mem (List.mem_filter.2 ⟨hp, hdp.isBinary⟩)
      have hfile := h.binaries p.relRoot
        ((sortBy_perm id c'.binaries).mem_iff.2 (hbin ▸ hmem))
      obtain ⟨f, hf, hname⟩ := hinv.mem_files.1 ((hlisted _).1 hfile)
      obtain ⟨q, content⟩ := f
      obtain rfl := hname.unique p.names_relRoot (hinv.wellNamed _ hf) (Planned.wellNamed hdp.named)
      obtain ⟨sighting', hsee', hwhat'⟩ := hdp.seen
      obtain rfl := Option.some.inj (hsee'.symm.trans hsee)
      exact not_dir_of_listed hnodup hp hdp.category hf entries (hwhat'.symm.trans hdir)
  · rintro ⟨htexts, hbins⟩
    refine ⟨fun p content => ?_, fun t => ?_, ?_, fun t ht => ?_⟩
    · rw [hnode, mem_planned_files hplans]
      refine and_iff_left_of_imp ?_
      rintro ⟨d, hd, hdeclares⟩
      obtain ⟨q, -, hdq⟩ := exists_planned hplans hd
      obtain ⟨name, sighting, hname, hsee, hm⟩ := hdeclares
      obtain rfl := Option.some.inj (hname.symm.trans hdq.name)
      have hroot : ∀ n ∈ d.2.1.names ++ [utf8 q.name], decodeUtf8 n ≠ none := by
        rw [← hdq.category]
        exact fun n hn => ((Planned.wellNamed hdq.named).2 n hn).2
      cases hdir : sighting.what with
      | leaf found =>
        rw [hdir] at hm
        obtain ⟨-, rfl⟩ := hm
        exact hroot
      | dir entries =>
        rw [hdir] at hm
        obtain ⟨rest, hrest, rfl⟩ := hm
        exact List.forall_mem_append.2 ⟨hroot, htexts d hd sighting entries hsee hdir _ hrest⟩
    · rw [hlisted, hinv.mem_files]
      constructor
      · rintro ⟨f, hf, hname⟩
        exact ⟨f.1, f.2, (hnode _ _).2 hf, hname⟩
      · rintro ⟨p, content, hp, hname⟩
        exact ⟨(p, content), (hnode _ _).1 hp, hname⟩
    · have hle := pairwise_sortBy id c'.files
      have hne : (sortBy id c'.files).Nodup := (sortBy_perm id c'.files).nodup_iff.2 hinv.nodup
      exact (hle.and hne).imp fun h => lt_of_le_of_ne h.1 h.2
    · have ht := (sortBy_perm id c'.binaries).mem_iff.1 ht
      rw [hbin] at ht
      obtain ⟨p, hp, rfl⟩ := List.mem_map.1 ht
      obtain ⟨hp, hisBinary⟩ := List.mem_filter.1 hp
      obtain ⟨⟨decl, category, isBinary⟩, hd, hdp⟩ := exists_declared hplans hp
      obtain rfl : isBinary = true := hdp.isBinary.symm.trans hisBinary
      obtain ⟨hdecl, -⟩ := mem_declared_true.1 hd
      obtain ⟨sighting, hsee, hseen⟩ := hdp.seen
      have hfile : ∃ content, p.what = .leaf (some content) := by
        cases hw : p.what with
        | leaf found =>
          cases found with
          | none => exact absurd hw (hwhat p hp)
          | some content => exact ⟨content, rfl⟩
        | dir entries => exact absurd (hseen.trans hw) (hbins decl hdecl sighting entries hsee)
      obtain ⟨content, hcontent⟩ := hfile
      have hm : (p.destRoot, content) ∈ planned.flatMap Planned.files := by
        refine List.mem_flatMap.2 ⟨p, hp, ?_⟩
        unfold Planned.files
        rw [hcontent]
        exact List.mem_singleton_self _
      exact (hlisted _).2 (hinv.mem_files.2 ⟨_, hm, p.names_relRoot⟩)

end

/-! ## Two packages -/

/-- Calls that do not fail. -/
def quiet : Env := ⟨fun _ => none, fun _ _ => none⟩

def stagingDir : Dir := ⟨utf8 "/s", [utf8 "s"]⟩

/-- A file in the directory `assets`, under a name that is no text, and the file `app`. -/
def smallBuild : Build where
  path := utf8 "/b"
  real := [utf8 "b"]
  see p :=
    if p = utf8 "assets" then
      some ⟨false, true, .dir (.leaf ⟨[0xff], by decide⟩ (some [1]) .nil)⟩
    else if p = utf8 "app" then some ⟨false, true, .leaf (some [2])⟩
    else none

def onlyShare : Artifacts := ⟨[], [], [], [utf8 "assets"], [], none, none⟩

def onlyBin : Artifacts := ⟨[utf8 "app"], [], [], [], [], none, none⟩

/-- The file under the name that is no text is left out, and the collection goes well. -/
theorem leaves_out_a_file : ∃ c w',
    collectArtifacts quiet smallBuild onlyShare stagingDir ⟨.bare, 0, 0⟩ = some (.ok c, w') ∧
      w'.fs.node [utf8 "s", utf8 "share", utf8 "assets", [0xff]] = none ∧
      ¬Exact smallBuild onlyShare stagingDir c w'.fs := by
  obtain ⟨c, w', hrun, hnode⟩ := Action.exists_ok_of_map_eq
    (a := collectArtifacts quiet smallBuild onlyShare stagingDir) (s := ⟨.bare, 0, 0⟩)
    (f := fun w => w.fs.node [utf8 "s", utf8 "share", utf8 "assets", [0xff]]) (c := none)
    (by decide)
  refine ⟨c, w', hrun, hnode, fun h => ?_⟩
  have hdeclares : Declares smallBuild (utf8 "assets", .share, false)
      [utf8 "share", utf8 "assets", [0xff]] [1] :=
    ⟨"assets", _, by decide, rfl, [[0xff]], List.mem_singleton_self _, by decide⟩
  have hstaged := (h.staged _ _).2 ⟨_, List.mem_singleton_self _, hdeclares⟩
  rw [show stagingDir.loc ++ [utf8 "share", utf8 "assets", [0xff]] =
    [utf8 "s", utf8 "share", utf8 "assets", [0xff]] from rfl, hnode] at hstaged
  cases hstaged

/-- The file declared as a binary is staged, and is all there is in the package. -/
theorem collectArtifacts_iff_app : ∃ c w',
    collectArtifacts quiet smallBuild onlyBin stagingDir ⟨.bare, 0, 0⟩ = some (.ok c, w') ∧
      w'.fs.node [utf8 "s", utf8 "bin", utf8 "app"] = some (.leaf (.file [2])) ∧
      (∀ sighting entries, smallBuild.see (utf8 "app") = some sighting →
        sighting.what ≠ .dir entries) ∧
      Exact smallBuild onlyBin stagingDir c w'.fs := by
  obtain ⟨c, w', hrun, hnode⟩ := Action.exists_ok_of_map_eq
    (a := collectArtifacts quiet smallBuild onlyBin stagingDir) (s := ⟨.bare, 0, 0⟩)
    (f := fun w => w.fs.node [utf8 "s", utf8 "bin", utf8 "app"])
    (c := some (.leaf (.file [2]))) (by decide)
  have hfile : ∀ sighting entries, smallBuild.see (utf8 "app") = some sighting →
      sighting.what ≠ .dir entries := by
    intro sighting entries hsee
    obtain rfl := Option.some.inj hsee
    nofun
  refine ⟨c, w', hrun, hnode, hfile, (collectArtifacts_iff rfl hrun).2 ⟨fun d hd sighting entries hsee hdir =>
    ?_, fun decl hdecl sighting entries hsee => ?_⟩⟩
  · obtain rfl := List.mem_singleton.1 hd
    exact absurd hdir (hfile sighting entries hsee)
  · obtain rfl := List.mem_singleton.1 hdecl
    exact hfile sighting entries hsee

end Arlen.Forage.Collect
