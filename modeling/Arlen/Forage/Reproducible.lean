import Arlen.Forage.Package
import Arlen.Lib.Path
import Arlen.Lib.Str
import Mathlib.Data.List.Lex
import Mathlib.Logic.Equiv.List

/-!
# A package from two places

`write_lunpkg` of `forage/package/src/writer.rs` with the paths it is handed and the modes
it reads. What a file is called in the archive depends on the tree alone. Whether it is
executable does not: the rule about `bin/` is asked of the whole path, and the other rule
looks at every execute bit. The archive itself (`tar`, `zstd`) is a parameter.
-/

namespace Arlen.Forage.Lunpkg

open Arlen.Lib

/-! ## Staging directories -/

/-- The name of an entry of a directory, as the system gives it. -/
structure OsName where
  bytes : Bytes
  plain : bytes ≠ [] ∧ bytes ≠ utf8 "." ∧ bytes ≠ utf8 ".." ∧ 0x2f ∉ bytes
deriving DecidableEq

/-- The entries of a directory, in the order they are read. -/
inductive Staged where
  | nil
  | file (name : OsName) (mode : UInt32) (content : Blob) (rest : Staged)
  | link (name : OsName) (rest : Staged)
  | dir (name : OsName) (inner rest : Staged)
deriving DecidableEq

inductive Node where
  | file (mode : UInt32) (content : Blob)
  | link
  | dir
deriving DecidableEq

namespace Staged

def names : Staged → List OsName
  | nil => []
  | file n _ _ rest | link n rest | dir n _ rest => n :: rest.names

/-- No directory has two entries of one name. -/
def Proper : Staged → Prop
  | nil => True
  | file n _ _ rest | link n rest => n ∉ rest.names ∧ rest.Proper
  | dir n inner rest => n ∉ rest.names ∧ inner.Proper ∧ rest.Proper

/-- What is below a directory, each with its path. -/
def nodes : Staged → List (List OsName × Node)
  | nil => []
  | file n mode content rest => ([n], .file mode content) :: rest.nodes
  | link n rest => ([n], .link) :: rest.nodes
  | dir n inner rest =>
    ([n], .dir) :: (inner.nodes.map (fun f => (n :: f.1, f.2)) ++ rest.nodes)

end Staged

/-- A directory to pack, and the path it is given by. -/
structure Staging where
  location : Path.PathBuf
  location_ne_nil : location ≠ []
  entries : Staged
  proper : entries.Proper

/-! ## Packing -/

inductive WriteError where
  | escapes (path : String)
  | symlink (name : String)
  | nonUtf8 (path : String)
  | reservedEntry (name : String)
deriving DecidableEq, Repr

structure Entry where
  name : String
  content : Blob
  executable : Bool
deriving DecidableEq

/-- `Path::strip_prefix`. -/
def stripPrefix (path base : Path.PathBuf) : Option (List Path.Component) :=
  if (Path.components base).isPrefixOf (Path.components path) then
    some ((Path.components path).drop (Path.components base).length)
  else none

/-- The loop of `archive_name`. -/
def archiveParts : List Path.Component → Option (List String)
  | [] => some []
  | .normal p :: rest => (decodeUtf8 p).bind fun part => (archiveParts rest).map (part :: ·)
  | .curDir :: rest => archiveParts rest
  | .rootDir :: _ | .parentDir :: _ => none

def archiveName (rel : List Path.Component) : Option String :=
  match archiveParts rel with
  | none | some [] => none
  | some parts => some (String.intercalate "/" parts)

def isExecutable (path : Path.PathBuf) (mode : UInt32) : Bool :=
  (match (Path.components path).head? with
    | some (.normal p) => decide (decodeUtf8 p = some "bin")
    | _ => false) || mode &&& 0o111 != 0

/-- The name of a child in the archive. -/
def nameOf (base path : Path.PathBuf) : Except WriteError String :=
  match stripPrefix path base with
  | none => .error (.escapes (fromUtf8Lossy path))
  | some rel =>
    match archiveName rel with
    | none => .error (.nonUtf8 (fromUtf8Lossy path))
    | some name => .ok name

/-- The children in the order of their names, each once the one before it went well. -/
def inOrder (parts : List (OsName × Except WriteError (List Entry))) :
    Except WriteError (List Entry) := do
  let collected ← (sortBy (·.1.bytes.map UInt8.toNat) parts).mapM (·.2)
  return collected.flatten

/-- What `collect_staged` does with each child of `current`. -/
def stagedParts (base current : Path.PathBuf) :
    Staged → List (OsName × Except WriteError (List Entry))
  | .nil => []
  | .file n mode content rest =>
    let path := Path.push current n.bytes
    (n, (nameOf base path).map fun name => [⟨name, content, isExecutable path mode⟩]) ::
      stagedParts base current rest
  | .link n rest =>
    (n, nameOf base (Path.push current n.bytes) >>= fun name => throw (.symlink name)) ::
      stagedParts base current rest
  | .dir n inner rest =>
    let path := Path.push current n.bytes
    (n, nameOf base path >>= fun _ => inOrder (stagedParts base path inner)) ::
      stagedParts base current rest

def collectStaged (s : Staging) : Except WriteError (List Entry) :=
  inOrder (stagedParts s.location s.location s.entries)

def gather (s : Staging) (manifest : Blob) : Except WriteError (List Entry) := do
  let entries ← collectStaged s
  match entries.find? (reserved ·.name) with
  | some e => throw (.reservedEntry e.name)
  | none => return sortBy Entry.name (entries ++ [⟨manifestFile, manifest, false⟩])

/-- The header of a file in the archive, all of it but what is filled in from the rest. -/
structure Header where
  size : Nat
  mtime : Nat := 0
  uid : Nat := 0
  gid : Nat := 0
  mode : Nat
  username : String := ""
  groupname : String := ""
deriving DecidableEq

structure Member where
  header : Header
  path : String
  content : Bytes
deriving DecidableEq

/-- A round of the loop of `write_archive`. -/
def memberOf (e : Entry) : Member where
  header := { size := e.content.bytes.length, mode := if e.executable then 0o755 else 0o644 }
  path := e.name
  content := e.content.bytes

def withSignature (sign : Digest → Blob) (entries : List Entry) : List Entry :=
  let hash := contentHash (entries.map fun e => ⟨e.name, e.content⟩)
  sortBy Entry.name (entries ++ [⟨signatureFile, sign hash, false⟩])

def writeLunpkg (tarZst : List Member → Bytes) (sign : Digest → Blob) (s : Staging)
    (manifest : Blob) : Except WriteError Bytes := do
  let entries ← gather s manifest
  return tarZst ((withSignature sign entries).map memberOf)

/-! ## Paths -/

variable {path path' : List OsName} {base : Path.PathBuf} {n : OsName} {d : Staged}

theorem piece_bytes (n : OsName) : Path.piece n.bytes = some (.normal n.bytes) := by
  obtain ⟨hnil, hdot, hdots, -⟩ := n.plain
  unfold Path.piece
  rw [if_neg (not_or.2 ⟨hnil, hdot⟩), if_neg hdots]

/-- The path of a node, from that of its directory. -/
def down (base : Path.PathBuf) (path : List OsName) : Path.PathBuf :=
  path.foldl (fun p n => Path.push p n.bytes) base

theorem down_concat (base : Path.PathBuf) (path : List OsName) (n : OsName) :
    down base (path ++ [n]) = Path.push (down base path) n.bytes := by
  unfold down
  rw [List.foldl_append, List.foldl_cons, List.foldl_nil]

theorem push_ne_nil (hbase : base ≠ []) (q : Path.PathBuf) : Path.push base q ≠ [] := by
  unfold Path.push
  split
  · exact List.append_ne_nil_of_left_ne_nil hbase _
  · exact List.append_ne_nil_of_left_ne_nil hbase _

theorem components_down (hbase : base ≠ []) (path : List OsName) :
    down base path ≠ [] ∧
      Path.components (down base path) =
        Path.components base ++ path.map fun n => .normal n.bytes := by
  induction path using List.reverseRecOn with
  | nil => exact ⟨hbase, by rw [List.map_nil, List.append_nil]; rfl⟩
  | append_singleton path n ih =>
    rw [down_concat]
    refine ⟨push_ne_nil ih.1 _, ?_⟩
    rw [Path.components_push ih.1 (piece_bytes n) n.plain.2.2.2, ih.2, List.map_append,
      List.append_assoc]
    rfl

/-! ## Names -/

/-- The text of a path, where its names are text. -/
def nameText (path : List OsName) : Option String :=
  (path.mapM fun n => decodeUtf8 n.bytes).map (String.intercalate "/")

theorem archiveParts_names (path : List OsName) :
    archiveParts (path.map fun n => .normal n.bytes) = path.mapM fun n => decodeUtf8 n.bytes := by
  induction path with
  | nil => rfl
  | cons n path ih =>
    rw [List.map_cons, archiveParts, ih, List.mapM_cons]
    cases decodeUtf8 n.bytes with
    | none => rfl
    | some part => cases path.mapM fun n => decodeUtf8 n.bytes <;> rfl

theorem nameOf_down (hbase : base ≠ []) (hpath : path ≠ []) :
    nameOf base (down base path) =
      match nameText path with
      | some name => .ok name
      | none => .error (.nonUtf8 (fromUtf8Lossy (down base path))) := by
  have hstrip : stripPrefix (down base path) base = some (path.map fun n => .normal n.bytes) := by
    unfold stripPrefix
    rw [(components_down hbase path).2, if_pos (List.isPrefixOf_iff_prefix.2
      (List.prefix_append _ _)), List.drop_left]
  unfold nameOf
  rw [hstrip]
  dsimp only
  unfold archiveName nameText
  rw [archiveParts_names]
  cases hparts : path.mapM fun n => decodeUtf8 n.bytes with
  | none => rfl
  | some parts =>
    cases parts with
    | nil =>
      obtain ⟨n, rest, rfl⟩ := List.exists_cons_of_ne_nil hpath
      rw [List.mapM_cons] at hparts
      simp [Option.bind_eq_some_iff] at hparts
    | cons part parts => rfl

/-- Only the place of the staging directory decides the first rule. -/
theorem isExecutable_down (hbase : base ≠ []) (mode : UInt32) :
    isExecutable (down base path) mode = isExecutable base mode := by
  unfold isExecutable
  rw [(components_down hbase path).2,
    List.head?_append_of_ne_nil _ (Path.components_ne_nil hbase)]

/-! ## What is collected -/

/-- The entries of the files below a directory. -/
def entriesOf (base : Path.PathBuf) (nodes : List (List OsName × Node)) : List Entry :=
  nodes.filterMap fun f =>
    match f.2 with
    | .file mode content => some ⟨(nameText f.1).getD "", content, isExecutable base mode⟩
    | _ => none

theorem entriesOf_file (base : Path.PathBuf) (p : List OsName) (mode : UInt32) (content : Blob)
    (nodes : List (List OsName × Node)) : entriesOf base ((p, .file mode content) :: nodes) =
      ⟨(nameText p).getD "", content, isExecutable base mode⟩ :: entriesOf base nodes := rfl

theorem mem_entriesOf {nodes : List (List OsName × Node)} {e : Entry} : e ∈ entriesOf base nodes ↔
    ∃ p mode content, (p, .file mode content) ∈ nodes ∧
      e = ⟨(nameText p).getD "", content, isExecutable base mode⟩ := by
  unfold entriesOf
  rw [List.mem_filterMap]
  constructor
  · rintro ⟨⟨p, node⟩, hmem, he⟩
    cases node with
    | file mode content => exact ⟨p, mode, content, hmem, (Option.some.inj he).symm⟩
    | link => cases he
    | dir => cases he
  · rintro ⟨p, mode, content, hmem, rfl⟩
    exact ⟨_, hmem, rfl⟩

/-- Every path is text, and nothing is a link. -/
def Packable (nodes : List (List OsName × Node)) : Prop :=
  ∀ f ∈ nodes, nameText f.1 ≠ none ∧ f.2 ≠ .link

/-- The nodes below `path`, with their paths from above it. -/
def below (path : List OsName) (nodes : List (List OsName × Node)) : List (List OsName × Node) :=
  nodes.map fun f => (path ++ f.1, f.2)

theorem below_cons (f : List OsName × Node) (nodes : List (List OsName × Node)) :
    below path (f :: nodes) = (path ++ f.1, f.2) :: below path nodes := rfl

theorem below_dir (path : List OsName) (n : OsName) (inner rest : Staged) :
    below path (Staged.dir n inner rest).nodes =
      (path ++ [n], .dir) :: (below (path ++ [n]) inner.nodes ++ below path rest.nodes) := by
  have hnodes : (Staged.dir n inner rest).nodes =
      ([n], .dir) :: (inner.nodes.map (fun f => (n :: f.1, f.2)) ++ rest.nodes) := rfl
  unfold below
  rw [hnodes, List.map_cons, List.map_append, List.map_map]
  simp [Function.comp_def]

theorem packable_cons {f : List OsName × Node} {nodes : List (List OsName × Node)} :
    Packable (f :: nodes) ↔ (nameText f.1 ≠ none ∧ f.2 ≠ .link) ∧ Packable nodes :=
  List.forall_mem_cons

theorem packable_append {nodes nodes' : List (List OsName × Node)} :
    Packable (nodes ++ nodes') ↔ Packable nodes ∧ Packable nodes' := List.forall_mem_append

theorem nameOf_concat (hbase : base ≠ []) (path : List OsName) (n : OsName) :
    nameOf base (Path.push (down base path) n.bytes) =
      match nameText (path ++ [n]) with
      | some name => .ok name
      | none => .error (.nonUtf8 (fromUtf8Lossy (down base (path ++ [n])))) := by
  rw [← down_concat]
  exact nameOf_down hbase (List.append_ne_nil_of_right_ne_nil _ (List.cons_ne_nil _ _))

theorem nameOf_concat_eq_ok (hbase : base ≠ []) {name : String} :
    nameOf base (Path.push (down base path) n.bytes) = .ok name ↔
      nameText (path ++ [n]) = some name := by
  rw [nameOf_concat hbase]
  cases nameText (path ++ [n]) with
  | none => exact ⟨fun h => (by cases h), fun h => (by cases h)⟩
  | some name' => exact ⟨fun h => congrArg some (Except.ok.inj h), fun h => by rw [Option.some.inj h]⟩

theorem inOrder_eq_ok {parts : List (OsName × Except WriteError (List Entry))} {es : List Entry}
    (h : inOrder parts = .ok es) :
    ∃ ess, parts.mapM (·.2) = .ok ess ∧ ess.flatten.Perm es := by
  simp only [inOrder, bind_eq_ok, pure_eq_ok] at h
  obtain ⟨ess, hess, rfl⟩ := h
  obtain ⟨ess', hess', hp⟩ := mapM_ok_of_perm (sortBy_perm _ _) hess
  exact ⟨ess', hess', hp.flatten⟩

/-- What goes well has text for its paths and no links, and becomes the entries of its files. -/
theorem stagedParts_eq_ok (hbase : base ≠ []) {ess : List (List Entry)}
    (h : (stagedParts base (down base path) d).mapM (·.2) = .ok ess) :
    Packable (below path d.nodes) ∧ ess.flatten.Perm (entriesOf base (below path d.nodes)) := by
  induction d generalizing path ess with
  | nil =>
    obtain rfl := pure_eq_ok.1 h
    exact ⟨fun f hf => (by cases hf), List.Perm.refl _⟩
  | file n mode content rest ih =>
    simp only [stagedParts, List.mapM_cons, bind_eq_ok, pure_eq_ok] at h
    obtain ⟨es, hes, ess, hess, rfl⟩ := h
    obtain ⟨hpack, hperm⟩ := ih hess
    cases hname : nameOf base (Path.push (down base path) n.bytes) with
    | error e =>
      rw [hname] at hes
      cases hes
    | ok name =>
      rw [hname] at hes
      obtain rfl := Except.ok.inj hes
      rw [nameOf_concat_eq_ok hbase] at hname
      refine ⟨packable_cons.2 ⟨⟨?_, fun h => (by cases h)⟩, hpack⟩, ?_⟩
      · rw [hname]
        exact Option.some_ne_none _
      · rw [← down_concat, isExecutable_down hbase]
        have hentry := entriesOf_file base (path ++ [n]) mode content (below path rest.nodes)
        rw [hname] at hentry
        exact (hperm.cons _).trans (.of_eq hentry.symm)
  | link n rest ih =>
    simp only [stagedParts, List.mapM_cons, bind_eq_ok] at h
    obtain ⟨es, ⟨name, -, hes⟩, -⟩ := h
    cases hes
  | dir n inner rest ihinner ih =>
    simp only [stagedParts, List.mapM_cons, bind_eq_ok, pure_eq_ok] at h
    obtain ⟨es, ⟨name, hname, hes⟩, ess, hess, rfl⟩ := h
    obtain ⟨hpack, hperm⟩ := ih hess
    obtain ⟨ess', hess', hp⟩ := inOrder_eq_ok hes
    rw [← down_concat] at hess'
    obtain ⟨hpack', hperm'⟩ := ihinner hess'
    rw [nameOf_concat_eq_ok hbase] at hname
    rw [below_dir]
    refine ⟨packable_cons.2 ⟨⟨?_, fun h => (by cases h)⟩, packable_append.2 ⟨hpack', hpack⟩⟩, ?_⟩
    · rw [hname]
      exact Option.some_ne_none _
    · unfold entriesOf at *
      rw [List.filterMap_cons_none rfl, List.filterMap_append, List.flatten_cons]
      exact (hp.symm.trans hperm').append hperm

theorem inOrder_ok {parts : List (OsName × Except WriteError (List Entry))}
    (h : ∀ part ∈ parts, ∃ es, part.2 = .ok es) : ∃ es, inOrder parts = .ok es := by
  have hsorted : ∀ part ∈ sortBy (·.1.bytes.map UInt8.toNat) parts, ∃ es, part.2 = .ok es :=
    fun part hp => h part ((sortBy_perm _ _).mem_iff.1 hp)
  obtain ⟨ess, hess⟩ := exists_mapM_ok hsorted
  refine ⟨ess.flatten, ?_⟩
  rw [inOrder, hess]
  rfl

theorem exists_nameOf (hbase : base ≠ []) (hn : nameText (path ++ [n]) ≠ none) :
    ∃ name, nameOf base (Path.push (down base path) n.bytes) = .ok name := by
  obtain ⟨name, hname⟩ := Option.ne_none_iff_exists'.1 hn
  exact ⟨name, (nameOf_concat_eq_ok hbase).2 hname⟩

theorem stagedParts_ok (hbase : base ≠ []) (h : Packable (below path d.nodes)) :
    ∀ part ∈ stagedParts base (down base path) d, ∃ es, part.2 = .ok es := by
  induction d generalizing path with
  | nil => exact fun part hp => by cases hp
  | file n mode content rest ih =>
    obtain ⟨⟨hn, -⟩, hrest⟩ := packable_cons.1 h
    obtain ⟨name, hok⟩ := exists_nameOf hbase hn
    exact List.forall_mem_cons.2 ⟨⟨_, by dsimp only; rw [hok]; rfl⟩, ih hrest⟩
  | link n rest ih =>
    obtain ⟨⟨-, hlink⟩, -⟩ := packable_cons.1 h
    exact absurd rfl hlink
  | dir n inner rest ihinner ih =>
    rw [below_dir] at h
    obtain ⟨⟨hn, -⟩, hboth⟩ := packable_cons.1 h
    obtain ⟨hinner, hrest⟩ := packable_append.1 hboth
    obtain ⟨name, hok⟩ := exists_nameOf hbase hn
    obtain ⟨es, hes⟩ := inOrder_ok (ihinner hinner)
    refine List.forall_mem_cons.2 ⟨⟨es, ?_⟩, ih hrest⟩
    dsimp only
    rw [hok, ← down_concat]
    exact hes

/-- What is collected, and when: the whole tree has text for its paths and no links. -/
theorem collectStaged_eq_ok {s : Staging} {es : List Entry} (h : collectStaged s = .ok es) :
    Packable s.entries.nodes ∧ es.Perm (entriesOf s.location s.entries.nodes) := by
  obtain ⟨ess, hess, hp⟩ := inOrder_eq_ok h
  have hparts : (stagedParts s.location (down s.location []) s.entries).mapM (·.2) = .ok ess := hess
  obtain ⟨hpack, hperm⟩ := stagedParts_eq_ok s.location_ne_nil hparts
  have hall : below [] s.entries.nodes = s.entries.nodes := List.map_id' _
  rw [hall] at hpack hperm
  exact ⟨hpack, hp.symm.trans hperm⟩

theorem collectStaged_of_packable {s : Staging} (h : Packable s.entries.nodes) :
    ∃ es, collectStaged s = .ok es := by
  have hall : below [] s.entries.nodes = s.entries.nodes := List.map_id' _
  rw [← hall] at h
  exact inOrder_ok (stagedParts_ok s.location_ne_nil h)

/-! ## Names of the archive -/

theorem utf8_intercalate (parts : List String) :
    utf8 (String.intercalate "/" parts) = [0x2f].intercalate (parts.map utf8) := by
  induction parts with
  | nil => rfl
  | cons a parts ih =>
    cases parts with
    | nil =>
      rw [String.intercalate_singleton, List.map_singleton, List.intercalate_singleton]
    | cons b rest =>
      have hslash : utf8 "/" = [0x2f] := by decide
      rw [String.intercalate_cons_cons, utf8_append, utf8_append, ih, hslash, List.map_cons,
        List.map_cons, List.map_cons, List.intercalate_cons_cons, List.append_assoc]

theorem map_utf8_of_mapM {parts : List String}
    (h : (path.mapM fun n => decodeUtf8 n.bytes) = some parts) :
    parts.map utf8 = path.map OsName.bytes := by
  induction path generalizing parts with
  | nil =>
    obtain rfl := Option.some.inj h
    rfl
  | cons n path ih =>
    rw [List.mapM_cons] at h
    obtain ⟨part, hpart, h⟩ := Option.bind_eq_some_iff.1 h
    obtain ⟨rest, hrest, h⟩ := Option.bind_eq_some_iff.1 h
    obtain rfl := Option.some.inj h
    rw [List.map_cons, List.map_cons, ih hrest, utf8_of_decodeUtf8 hpart]

theorem utf8_of_nameText {t : String} (h : nameText path = some t) :
    utf8 t = [0x2f].intercalate (path.map OsName.bytes) := by
  obtain ⟨parts, hparts, rfl⟩ := Option.map_eq_some_iff.1 h
  rw [utf8_intercalate, map_utf8_of_mapM hparts]

theorem splitOn_nameText {t : String} (hpath : path ≠ []) (h : nameText path = some t) :
    (utf8 t).splitOn 0x2f = path.map OsName.bytes := by
  rw [utf8_of_nameText h]
  refine List.splitOn_intercalate 0x2f (List.forall_mem_map.2 fun n _ => n.plain.2.2.2) ?_
  rwa [Ne, List.map_eq_nil_iff]

theorem OsName.ext_bytes {n m : OsName} (h : n.bytes = m.bytes) : n = m := by
  cases n
  cases m
  cases h
  rfl

theorem nameText_inj {t : String} (hpath : path ≠ []) (hpath' : path' ≠ [])
    (h : nameText path = some t) (h' : nameText path' = some t) : path = path' := by
  refine List.map_injective_iff.2 (fun _ _ => OsName.ext_bytes) ?_
  rw [← splitOn_nameText hpath h, ← splitOn_nameText hpath' h']

/-- The file lies below the directory `bin`. -/
def UnderBin (path : List OsName) : Prop :=
  1 < path.length ∧ path.head?.map OsName.bytes = some (utf8 "bin")

theorem startsWith_bin {t : String} (hpath : path ≠ []) (h : nameText path = some t) :
    startsWith t "bin/" = true ↔ UnderBin path := by
  rw [startsWith_iff]
  constructor
  · rintro ⟨r, rfl⟩
    have hsplit := splitOn_nameText hpath h
    have hbin : utf8 ("bin/" ++ r) = utf8 "bin" ++ 0x2f :: utf8 r := by
      rw [utf8_append]
      rfl
    have hfree : (0x2f : UInt8) ∉ utf8 "bin" := by decide
    rw [hbin, List.splitOn_append_cons_self_of_not_mem hfree] at hsplit
    constructor
    · have hlen := congrArg List.length hsplit
      have hpos := List.length_pos_of_ne_nil (List.splitOn_ne_nil 0x2f (utf8 r))
      rw [List.length_cons, List.length_map] at hlen
      omega
    · rw [← List.head?_map, ← hsplit]
      rfl
  · rintro ⟨hlen, hhead⟩
    obtain ⟨n, m, rest, rfl⟩ : ∃ n m rest, path = n :: m :: rest := by
      match path, hlen with
      | n :: m :: rest, _ => exact ⟨n, m, rest, rfl⟩
    have hn : n.bytes = utf8 "bin" := Option.some.inj hhead
    obtain ⟨parts, hparts, rfl⟩ := Option.map_eq_some_iff.1 h
    have hmap := map_utf8_of_mapM hparts
    rw [List.map_cons, List.map_cons, hn] at hmap
    obtain ⟨b, tail, rfl, hb, htail⟩ := List.map_eq_cons_iff.1 hmap
    obtain ⟨p, ps, rfl, -, -⟩ := List.map_eq_cons_iff.1 htail
    obtain rfl := utf8_inj hb
    exact ⟨String.intercalate "/" (p :: ps), by
      rw [String.intercalate_cons_cons]
      rfl⟩

/-! ## Trees that are the same -/

theorem ne_nil_of_mem_nodes {f : List OsName × Node} (h : f ∈ d.nodes) : f.1 ≠ [] := by
  induction d with
  | nil => cases h
  | file n mode content rest ih | link n rest ih =>
    rcases List.mem_cons.1 h with rfl | h
    · exact List.cons_ne_nil _ _
    · exact ih h
  | dir n inner rest ihinner ih =>
    rcases List.mem_cons.1 h with rfl | h
    · exact List.cons_ne_nil _ _
    · rcases List.mem_append.1 h with h | h
      · obtain ⟨g, -, rfl⟩ := List.mem_map.1 h
        exact List.cons_ne_nil _ _
      · exact ih h

theorem head_mem_names {f : List OsName × Node} (h : f ∈ d.nodes) : ∃ n ∈ d.names, f.1.head? = some n := by
  induction d with
  | nil => cases h
  | file n mode content rest ih | link n rest ih =>
    rcases List.mem_cons.1 h with rfl | h
    · exact ⟨n, List.mem_cons_self, rfl⟩
    · obtain ⟨m, hm, heq⟩ := ih h
      exact ⟨m, List.mem_cons_of_mem _ hm, heq⟩
  | dir n inner rest ihinner ih =>
    rcases List.mem_cons.1 h with rfl | h
    · exact ⟨n, List.mem_cons_self, rfl⟩
    · rcases List.mem_append.1 h with h | h
      · obtain ⟨g, -, rfl⟩ := List.mem_map.1 h
        exact ⟨n, List.mem_cons_self, rfl⟩
      · obtain ⟨m, hm, heq⟩ := ih h
        exact ⟨m, List.mem_cons_of_mem _ hm, heq⟩

theorem fst_ne_of_notMem {f : List OsName × Node} (hn : n ∉ d.names) (h : f ∈ d.nodes) :
    f.1.head? ≠ some n := by
  obtain ⟨m, hm, heq⟩ := head_mem_names h
  rintro hhead
  rw [heq] at hhead
  exact hn (Option.some.inj hhead ▸ hm)

/-- A path leads to one node. -/
theorem nodup_paths (h : d.Proper) : (d.nodes.map Prod.fst).Nodup := by
  have hfresh : ∀ {rest : Staged} {n : OsName}, n ∉ rest.names → ∀ p ∈ rest.nodes.map Prod.fst,
      p.head? ≠ some n := by
    intro rest n hn p hp
    obtain ⟨f, hf, rfl⟩ := List.mem_map.1 hp
    exact fst_ne_of_notMem hn hf
  induction d with
  | nil => exact List.nodup_nil
  | file n mode content rest ih | link n rest ih =>
    refine List.nodup_cons.2 ⟨fun hm => hfresh h.1 _ hm rfl, ih h.2⟩
  | dir n inner rest ihinner ih =>
    have hsplit : (Staged.dir n inner rest).nodes.map Prod.fst =
        [n] :: ((inner.nodes.map Prod.fst).map (n :: ·) ++ rest.nodes.map Prod.fst) := by
      have hnodes : (Staged.dir n inner rest).nodes =
          ([n], .dir) :: (inner.nodes.map (fun f => (n :: f.1, f.2)) ++ rest.nodes) := rfl
      rw [hnodes, List.map_cons, List.map_append, List.map_map, List.map_map]
      rfl
    rw [hsplit, List.nodup_cons, List.nodup_append]
    refine ⟨fun hm => ?_, (ihinner h.2.1).map List.cons_injective, ih h.2.2, fun p hp q hq heq => ?_⟩
    · rcases List.mem_append.1 hm with hm | hm
      · obtain ⟨p, hp, heq⟩ := List.mem_map.1 hm
        obtain ⟨f, hf, rfl⟩ := List.mem_map.1 hp
        exact ne_nil_of_mem_nodes hf (List.cons.inj heq).2
      · exact hfresh h.1 _ hm rfl
    · obtain ⟨p, -, rfl⟩ := List.mem_map.1 hp
      exact hfresh h.1 _ hq (heq ▸ rfl)

theorem node_unique {node node' : Node} (h : d.Proper) (hf : (path, node) ∈ d.nodes)
    (hf' : (path, node') ∈ d.nodes) : node = node' := by
  have hinj := (List.nodup_map_iff_inj_on (nodup_paths h).of_map).1 (nodup_paths h)
  exact congrArg Prod.snd (hinj _ hf _ hf' rfl)

/-- Of one kind, and for files of one content and one bit for the owner to execute. -/
def Alike : Node → Node → Prop
  | .file mode content, .file mode' content' =>
    content = content' ∧ mode &&& 0o100 = mode' &&& 0o100
  | .link, .link => True
  | .dir, .dir => True
  | _, _ => False

structure SameTree (d d' : Staged) : Prop where
  there : ∀ f ∈ d.nodes, ∃ f' ∈ d'.nodes, f'.1 = f.1 ∧ Alike f.2 f'.2
  back : ∀ f' ∈ d'.nodes, ∃ f ∈ d.nodes, f'.1 = f.1 ∧ Alike f.2 f'.2

/-- The directory is given by a relative path into `bin`, or the file has an execute bit. -/
def Marks (s : Staging) (mode : UInt32) : Prop :=
  (Path.components s.location).head? = some (.normal (utf8 "bin")) ∨ mode &&& 0o111 ≠ 0

theorem isExecutable_iff {s : Staging} {mode : UInt32} :
    isExecutable s.location mode = true ↔ Marks s mode := by
  unfold isExecutable Marks
  rw [Bool.or_eq_true, bne_iff_ne]
  refine or_congr_left ?_
  cases hhead : (Path.components s.location).head? with
  | none => exact ⟨fun h => (by cases h), fun h => (by cases h)⟩
  | some c =>
    cases c with
    | normal p =>
      dsimp only
      rw [decide_eq_true_eq]
      constructor
      · intro h
        rw [utf8_of_decodeUtf8 h]
      · intro h
        obtain rfl := Path.Component.normal.inj (Option.some.inj h)
        exact decodeUtf8_utf8 "bin"
    | rootDir | curDir | parentDir => exact ⟨fun h => (by cases h), fun h => (by cases h)⟩

/-! ## What is packed -/

section
variable {s a b : Staging} {manifest : Blob} {sign : Digest → Blob} {entries : List Entry} {e e' : Entry}

/-- The entries the signature covers, in order. -/
theorem gather_eq_ok (h : gather s manifest = .ok entries) :
    Packable s.entries.nodes ∧ (∀ e ∈ entriesOf s.location s.entries.nodes, reserved e.name = false) ∧
      ∃ staged, staged.Perm (entriesOf s.location s.entries.nodes) ∧
        entries = sortBy Entry.name (staged ++ [⟨manifestFile, manifest, false⟩]) := by
  simp only [gather, bind_eq_ok] at h
  obtain ⟨staged, hstaged, h⟩ := h
  obtain ⟨hpack, hperm⟩ := collectStaged_eq_ok hstaged
  split at h
  · cases h
  · next hnone =>
    obtain rfl := pure_eq_ok.1 h
    refine ⟨hpack, fun e he => ?_, staged, hperm, rfl⟩
    exact Bool.eq_false_iff.2 (List.find?_eq_none.1 hnone _ (hperm.mem_iff.2 he))

theorem gather_of_packable (hpack : Packable s.entries.nodes)
    (hfree : ∀ e ∈ entriesOf s.location s.entries.nodes, reserved e.name = false) :
    ∃ entries, gather s manifest = .ok entries := by
  obtain ⟨staged, hstaged⟩ := collectStaged_of_packable hpack
  have hnone : staged.find? (reserved ·.name) = none := by
    refine List.find?_eq_none.2 fun e he => ?_
    rw [hfree e ((collectStaged_eq_ok hstaged).2.mem_iff.1 he)]
    exact Bool.false_ne_true
  refine ⟨sortBy Entry.name (staged ++ [⟨manifestFile, manifest, false⟩]), ?_⟩
  simp only [gather, bind_eq_ok]
  refine ⟨staged, hstaged, ?_⟩
  rw [hnone]
  rfl

/-- In a tree of text, a name is that of one file. -/
theorem file_of_name (hpack : Packable s.entries.nodes) {p : List OsName} {mode : UInt32}
    {content : Blob} (hf : (p, .file mode content) ∈ s.entries.nodes)
    (he : e ∈ entriesOf s.location s.entries.nodes) (hname : e.name = (nameText p).getD "") :
    e = ⟨(nameText p).getD "", content, isExecutable s.location mode⟩ := by
  obtain ⟨p', mode', content', hf', rfl⟩ := mem_entriesOf.1 he
  obtain ⟨t, ht⟩ := Option.ne_none_iff_exists'.1 (hpack _ hf).1
  obtain ⟨t', ht'⟩ := Option.ne_none_iff_exists'.1 (hpack _ hf').1
  dsimp only at ht ht' hname
  rw [ht, ht', Option.getD_some, Option.getD_some] at hname
  subst hname
  obtain rfl := nameText_inj (ne_nil_of_mem_nodes hf) (ne_nil_of_mem_nodes hf') ht ht'
  obtain ⟨rfl, rfl⟩ := Node.file.inj (node_unique s.proper hf hf')
  rfl

theorem entry_unique (hpack : Packable s.entries.nodes)
    (he : e ∈ entriesOf s.location s.entries.nodes) (he' : e' ∈ entriesOf s.location s.entries.nodes)
    (h : e.name = e'.name) : e = e' := by
  obtain ⟨p, mode, content, hf, rfl⟩ := mem_entriesOf.1 he
  exact (file_of_name hpack hf he' h.symm).symm

theorem nodup_entriesOf (hpack : Packable s.entries.nodes) :
    (entriesOf s.location s.entries.nodes).Nodup := by
  have hpaths : s.entries.nodes.Pairwise fun f f' => f.1 ≠ f'.1 :=
    List.pairwise_map.1 (nodup_paths s.proper)
  unfold entriesOf List.Nodup
  rw [List.pairwise_filterMap]
  refine hpaths.imp_of_mem fun {f f'} hf hf' hne e he e' he' heq => hne ?_
  obtain ⟨p, node⟩ := f
  obtain ⟨p', node'⟩ := f'
  have hname : ∀ {p : List OsName} {node : Node} {e : Entry}, (match node with
      | .file mode content => some (⟨(nameText p).getD "", content, isExecutable s.location mode⟩ : Entry)
      | _ => none) = some e → e.name = (nameText p).getD "" := by
    intro p node e h
    cases node with
    | file mode content => rw [← Option.some.inj h]
    | link | dir => cases h
  obtain ⟨t, ht⟩ := Option.ne_none_iff_exists'.1 (hpack _ hf).1
  obtain ⟨t', ht'⟩ := Option.ne_none_iff_exists'.1 (hpack _ hf').1
  have htt : t = t' := by
    have hn := hname he
    have hn' := hname he'
    dsimp only at ht ht'
    rw [ht, Option.getD_some] at hn
    rw [ht', Option.getD_some] at hn'
    rw [← hn, heq, hn']
  subst htt
  exact nameText_inj (ne_nil_of_mem_nodes hf) (ne_nil_of_mem_nodes hf') ht ht'

theorem mem_withSignature (h : gather s manifest = .ok entries) :
    e ∈ withSignature sign entries ↔ e ∈ entriesOf s.location s.entries.nodes ∨
      e = ⟨manifestFile, manifest, false⟩ ∨
      e = ⟨signatureFile, sign (contentHash (entries.map fun e => ⟨e.name, e.content⟩)), false⟩ := by
  obtain ⟨-, -, staged, hperm, heq⟩ := gather_eq_ok h
  unfold withSignature
  rw [(sortBy_perm Entry.name _).mem_iff, List.mem_append, List.mem_singleton, heq,
    (sortBy_perm Entry.name _).mem_iff, List.mem_append, List.mem_singleton, hperm.mem_iff, or_assoc]

theorem SameTree.packable (h : SameTree a.entries b.entries) (hpack : Packable a.entries.nodes) :
    Packable b.entries.nodes := by
  intro f' hf'
  obtain ⟨f, hf, hpath, halike⟩ := h.back f' hf'
  obtain ⟨hname, hlink⟩ := hpack f hf
  rw [hpath]
  refine ⟨hname, fun hl => ?_⟩
  rw [hl] at halike
  cases hnode : f.2 with
  | link => exact hlink hnode
  | file mode content | dir =>
    rw [hnode] at halike
    exact halike

/-- A file of the one tree is one of the other, with its content. -/
theorem SameTree.file (h : SameTree a.entries b.entries) {p : List OsName} {mode : UInt32}
    {content : Blob} (hf : (p, .file mode content) ∈ a.entries.nodes) :
    ∃ mode', (p, .file mode' content) ∈ b.entries.nodes := by
  obtain ⟨⟨p', node'⟩, hf', rfl, halike⟩ := h.there _ hf
  cases node' with
  | file mode' content' =>
    obtain ⟨rfl, -⟩ := halike
    exact ⟨mode', hf'⟩
  | link | dir => exact halike.elim

theorem SameTree.refl (d : Staged) : SameTree d d := by
  have halike : ∀ x, Alike x x := by
    intro x
    cases x with
    | file mode content => exact ⟨rfl, rfl⟩
    | link | dir => trivial
  exact ⟨fun f hf => ⟨f, hf, rfl, halike _⟩, fun f hf => ⟨f, hf, rfl, halike _⟩⟩

theorem SameTree.symm (h : SameTree a.entries b.entries) : SameTree b.entries a.entries := by
  have halike : ∀ x y, Alike x y → Alike y x := by
    intro x y hxy
    cases x <;> cases y <;> first | exact hxy | exact ⟨hxy.1.symm, hxy.2.symm⟩
  exact ⟨fun f hf => (h.back f hf).imp fun _ hf' => ⟨hf'.1, hf'.2.1.symm, halike _ _ hf'.2.2⟩,
    fun f hf => (h.there f hf).imp fun _ hf' => ⟨hf'.1, hf'.2.1.symm, halike _ _ hf'.2.2⟩⟩

/-- Where the files are marked alike, the entries are the same. -/
theorem entriesOf_perm (h : SameTree a.entries b.entries) (hpack : Packable a.entries.nodes)
    (hmarks : ∀ p mode content mode', (p, .file mode content) ∈ a.entries.nodes →
      (p, .file mode' content) ∈ b.entries.nodes → (Marks a mode ↔ Marks b mode')) :
    (entriesOf a.location a.entries.nodes).Perm (entriesOf b.location b.entries.nodes) := by
  have hexec : ∀ p mode content mode', (p, .file mode content) ∈ a.entries.nodes →
      (p, .file mode' content) ∈ b.entries.nodes →
        isExecutable a.location mode = isExecutable b.location mode' := by
    intro p mode content mode' hf hf'
    rw [Bool.eq_iff_iff, isExecutable_iff, isExecutable_iff]
    exact hmarks p mode content mode' hf hf'
  rw [List.perm_ext_iff_of_nodup (nodup_entriesOf hpack) (nodup_entriesOf (h.packable hpack))]
  intro e
  constructor
  · intro he
    obtain ⟨p, mode, content, hf, rfl⟩ := mem_entriesOf.1 he
    obtain ⟨mode', hf'⟩ := h.file hf
    exact mem_entriesOf.2 ⟨p, mode', content, hf', by rw [hexec p mode content mode' hf hf']⟩
  · intro he
    obtain ⟨p, mode', content, hf', rfl⟩ := mem_entriesOf.1 he
    obtain ⟨mode, hf⟩ := h.symm.file hf'
    exact mem_entriesOf.2 ⟨p, mode, content, hf, by rw [hexec p mode content mode' hf hf']⟩

theorem gather_congr {entries' : List Entry} (ha : gather a manifest = .ok entries)
    (hb : gather b manifest = .ok entries')
    (hperm : (entriesOf a.location a.entries.nodes).Perm (entriesOf b.location b.entries.nodes)) :
    entries = entries' := by
  obtain ⟨hpack, hfree, staged, hstaged, rfl⟩ := gather_eq_ok ha
  obtain ⟨-, -, staged', hstaged', rfl⟩ := gather_eq_ok hb
  refine (sortBy_eq_iff ?_).2 ((hstaged.trans (hperm.trans hstaged'.symm)).append_right _)
  have hmanifest : ∀ e ∈ entriesOf a.location a.entries.nodes, e.name ≠ manifestFile :=
    fun e he => (ne_of_not_reserved (hfree e he)).1
  intro e he e' he' hname
  rw [List.mem_append, List.mem_singleton, hstaged.mem_iff] at he he'
  rcases he with he | rfl
  · rcases he' with he' | rfl
    · exact entry_unique hpack he he' hname
    · exact absurd hname (hmanifest e he)
  · rcases he' with he' | rfl
    · exact absurd hname.symm (hmanifest e' he')
    · rfl

/-- In the archive a file has the mode its marks give it. -/
theorem mode_of_mem (h : gather s manifest = .ok entries) {p : List OsName} {mode : UInt32}
    {content : Blob} (hf : (p, .file mode content) ∈ s.entries.nodes)
    (he : e ∈ withSignature sign entries) (hname : e.name = (nameText p).getD "") :
    (memberOf e).header.mode = if isExecutable s.location mode then 0o755 else 0o644 := by
  obtain ⟨hpack, hfree, -⟩ := gather_eq_ok h
  have hmem : (⟨(nameText p).getD "", content, isExecutable s.location mode⟩ : Entry) ∈
      entriesOf s.location s.entries.nodes := mem_entriesOf.2 ⟨p, mode, content, hf, rfl⟩
  obtain ⟨hman, hsig⟩ := ne_of_not_reserved (hfree _ hmem)
  rcases (mem_withSignature h).1 he with he | rfl | rfl
  · rw [file_of_name hpack hf he hname]
    rfl
  · exact absurd hname.symm hman
  · exact absurd hname.symm hsig

/-- The entries below `bin/` are the files below the directory `bin`. -/
theorem bin_entries (h : gather s manifest = .ok entries) :
    (∀ e ∈ withSignature sign entries, startsWith e.name "bin/" = true →
      (memberOf e).header.mode = 0o755) ↔
    ∀ p mode content, (p, .file mode content) ∈ s.entries.nodes → UnderBin p → Marks s mode := by
  obtain ⟨hpack, hfree, -⟩ := gather_eq_ok h
  constructor
  · intro hall p mode content hf hbin
    obtain ⟨t, ht⟩ := Option.ne_none_iff_exists'.1 (hpack _ hf).1
    have hmem : (⟨(nameText p).getD "", content, isExecutable s.location mode⟩ : Entry) ∈
        withSignature sign entries :=
      (mem_withSignature h).2 (.inl (mem_entriesOf.2 ⟨p, mode, content, hf, rfl⟩))
    have hmode := hall _ hmem (by
      dsimp only at ht ⊢
      rw [ht, Option.getD_some, startsWith_bin (ne_nil_of_mem_nodes hf) ht]
      exact hbin)
    rw [mode_of_mem h hf hmem rfl] at hmode
    by_contra hmark
    rw [if_neg (mt isExecutable_iff.1 hmark)] at hmode
    cases hmode
  · intro hall e he hbin
    rcases (mem_withSignature h).1 he with he' | rfl | rfl
    · obtain ⟨p, mode, content, hf, rfl⟩ := mem_entriesOf.1 he'
      obtain ⟨t, ht⟩ := Option.ne_none_iff_exists'.1 (hpack _ hf).1
      dsimp only at ht hbin
      rw [ht, Option.getD_some, startsWith_bin (ne_nil_of_mem_nodes hf) ht] at hbin
      rw [mode_of_mem h hf he rfl, if_pos (isExecutable_iff.2 (hall p mode content hf hbin))]
    · exact absurd hbin (show ¬startsWith manifestFile "bin/" = true by decide)
    · exact absurd hbin (show ¬startsWith signatureFile "bin/" = true by decide)

/-- Two staging directories of the same tree give one archive, and one with every entry below
`bin/` executable, just when their files are marked alike and those below `bin` are marked. -/
theorem writeLunpkg_iff {tarZst : List Member → Bytes} (htar : Function.Injective tarZst)
    (sign : Digest → Blob) {a b : Staging} {manifest : Blob} {archive : Bytes}
    (hsame : SameTree a.entries b.entries)
    (hok : writeLunpkg tarZst sign a manifest = .ok archive) :
    (writeLunpkg tarZst sign b manifest = .ok archive ∧
      ∀ members, tarZst members = archive → ∀ m ∈ members, startsWith m.path "bin/" = true →
        m.header.mode = 0o755) ↔
    (∀ p mode content mode', (p, .file mode content) ∈ a.entries.nodes →
      (p, .file mode' content) ∈ b.entries.nodes → (Marks a mode ↔ Marks b mode')) ∧
    ∀ p mode content, (p, .file mode content) ∈ a.entries.nodes → UnderBin p → Marks a mode := by
  simp only [writeLunpkg, bind_eq_ok, pure_eq_ok] at hok
  obtain ⟨entries, ha, rfl⟩ := hok
  obtain ⟨hpack, hfree, -⟩ := gather_eq_ok ha
  have hnames : ∀ e ∈ entriesOf b.location b.entries.nodes, reserved e.name = false := by
    intro e he
    obtain ⟨p, mode', content, hf', rfl⟩ := mem_entriesOf.1 he
    obtain ⟨mode, hf⟩ := hsame.symm.file hf'
    have hmem : (⟨(nameText p).getD "", content, isExecutable a.location mode⟩ : Entry) ∈
        entriesOf a.location a.entries.nodes := mem_entriesOf.2 ⟨p, mode, content, hf, rfl⟩
    have hname := hfree _ hmem
    exact hname
  obtain ⟨entries', hb⟩ : ∃ entries', gather b manifest = .ok entries' :=
    gather_of_packable (hsame.packable hpack) hnames
  have hwrite : writeLunpkg tarZst sign b manifest =
      .ok (tarZst ((withSignature sign entries').map memberOf)) := by
    rw [writeLunpkg, hb]
    rfl
  have hbytes : writeLunpkg tarZst sign b manifest =
        .ok (tarZst ((withSignature sign entries).map memberOf)) ↔
      ∀ p mode content mode', (p, .file mode content) ∈ a.entries.nodes →
        (p, .file mode' content) ∈ b.entries.nodes → (Marks a mode ↔ Marks b mode') := by
    rw [hwrite]
    constructor
    · intro h p mode content mode' hf hf'
      have hmembers := htar (Except.ok.inj h)
      have hmem : (⟨(nameText p).getD "", content, isExecutable a.location mode⟩ : Entry) ∈
          withSignature sign entries :=
        (mem_withSignature ha).2 (.inl (mem_entriesOf.2 ⟨p, mode, content, hf, rfl⟩))
      have hmap := List.mem_map_of_mem (f := memberOf) hmem
      rw [← hmembers] at hmap
      obtain ⟨e', he', heq⟩ := List.mem_map.1 hmap
      have hmode := mode_of_mem hb hf' he' (congrArg Member.path heq)
      rw [heq, mode_of_mem ha hf hmem rfl] at hmode
      rw [← isExecutable_iff, ← isExecutable_iff, ← Bool.eq_iff_iff]
      cases hx : isExecutable a.location mode <;> cases hy : isExecutable b.location mode' <;>
        rw [hx, hy] at hmode <;> first | rfl | cases hmode
    · intro h
      rw [gather_congr ha hb (entriesOf_perm hsame hpack h)]
  have hbin : (∀ e ∈ withSignature sign entries, startsWith e.name "bin/" = true →
        (memberOf e).header.mode = 0o755) ↔
      ∀ p mode content, (p, .file mode content) ∈ a.entries.nodes → UnderBin p → Marks a mode :=
    bin_entries ha
  rw [← hbin]
  refine and_congr hbytes ?_
  constructor
  · intro h e he hname
    exact h _ rfl _ (List.mem_map_of_mem he) hname
  · intro h members hmembers m hm hname
    obtain rfl := htar hmembers
    obtain ⟨e, he, rfl⟩ := List.mem_map.1 hm
    exact h e he hname

end

/-! ## One tool in two places -/

def binName : OsName := ⟨utf8 "bin", by decide⟩

def toolName : OsName := ⟨utf8 "tool", by decide⟩

def oneByte : Blob := ⟨[1], by decide⟩

/-- A tree with the file `bin/tool`. -/
def toolTree (mode : UInt32) : Staged := .dir binName (.file toolName mode oneByte .nil) .nil

theorem toolTree_proper (mode : UInt32) : (toolTree mode).Proper :=
  ⟨List.not_mem_nil, ⟨List.not_mem_nil, trivial⟩, trivial⟩

/-- The tree, given by the path `/s`. -/
def absolutely (mode : UInt32) : Staging := ⟨utf8 "/s", by decide, toolTree mode, toolTree_proper mode⟩

/-- The tree, given by the path `bin/s`. -/
def belowBin (mode : UInt32) : Staging := ⟨utf8 "bin/s", by decide, toolTree mode, toolTree_proper mode⟩

theorem nil_fits : ([] : Bytes).length < 2 ^ 63 := by decide

def noManifest : Blob := ⟨[], nil_fits⟩

def noSignature : Digest → Blob := fun _ => ⟨[], nil_fits⟩

theorem gather_toolTree (s : Staging) (mode : UInt32) (h : s.entries = toolTree mode) :
    ∃ entries, gather s noManifest = .ok entries ∧
      ⟨"bin/tool", oneByte, isExecutable s.location mode⟩ ∈ withSignature noSignature entries := by
  have hbin : nameText [binName] = some "bin" := by decide
  have htool : nameText [binName, toolName] = some "bin/tool" := by decide
  have hnodes : s.entries.nodes =
      [([binName], .dir), ([binName, toolName], .file mode oneByte)] := by
    rw [h]
    rfl
  have hpack : Packable s.entries.nodes := by
    rw [hnodes]
    refine packable_cons.2 ⟨⟨?_, fun h => by cases h⟩, packable_cons.2 ⟨⟨?_, fun h => by cases h⟩, ?_⟩⟩
    · rw [hbin]
      exact Option.some_ne_none _
    · rw [htool]
      exact Option.some_ne_none _
    · exact fun f hf => by cases hf
  have hentries : entriesOf s.location s.entries.nodes =
      [⟨"bin/tool", oneByte, isExecutable s.location mode⟩] := by
    have hentry : entriesOf s.location [([binName], .dir), ([binName, toolName], .file mode oneByte)] =
        [⟨(nameText [binName, toolName]).getD "", oneByte, isExecutable s.location mode⟩] := rfl
    rw [hnodes, hentry, htool]
    rfl
  have hfree : ∀ e ∈ entriesOf s.location s.entries.nodes, reserved e.name = false := by
    rw [hentries]
    exact List.forall_mem_singleton.2 (show reserved "bin/tool" = false by decide)
  obtain ⟨entries, hgather⟩ : ∃ entries, gather s noManifest = .ok entries :=
    gather_of_packable hpack hfree
  refine ⟨entries, hgather, (mem_withSignature hgather).2 (.inl ?_)⟩
  rw [hentries]
  exact List.mem_singleton_self _

/-- The same tool, without an execute bit, is a plain file from the one place and executable
from the other. -/
theorem bin_depends_on_place :
    (∃ entries, gather (absolutely 0o100644) noManifest = .ok entries ∧
      ∃ e ∈ withSignature noSignature entries, e.name = "bin/tool" ∧
        (memberOf e).header.mode = 0o644) ∧
    ∃ entries, gather (belowBin 0o100644) noManifest = .ok entries ∧
      ∃ e ∈ withSignature noSignature entries, e.name = "bin/tool" ∧
        (memberOf e).header.mode = 0o755 := by
  constructor
  · obtain ⟨entries, hgather, hmem⟩ := gather_toolTree (absolutely 0o100644) _ rfl
    exact ⟨entries, hgather, _, hmem, rfl, by decide⟩
  · obtain ⟨entries, hgather, hmem⟩ := gather_toolTree (belowBin 0o100644) _ rfl
    exact ⟨entries, hgather, _, hmem, rfl, by decide⟩

/-- What a member says, as numbers. -/
def fieldsOf (m : Member) : List (List ℕ) :=
  [[m.header.size, m.header.mtime, m.header.uid, m.header.gid, m.header.mode],
    m.header.username.toList.map Char.toNat, m.header.groupname.toList.map Char.toNat,
    m.path.toList.map Char.toNat, m.content.map UInt8.toNat]

/-- Archives that can be read back. -/
def unaryArchive (members : List Member) : Bytes :=
  List.replicate (Encodable.encode (members.map fieldsOf)) 0

theorem unaryArchive_injective : Function.Injective unaryArchive := by
  have hchars : ∀ s t : String, s.toList.map Char.toNat = t.toList.map Char.toNat → s = t :=
    fun s t h => String.toList_injective
      (List.map_injective_iff.2 (fun c d hcd => Char.ext (UInt32.toNat_inj.1 hcd)) h)
  intro members members' h
  have hcode := congrArg List.length h
  unfold unaryArchive at hcode
  rw [List.length_replicate, List.length_replicate] at hcode
  refine List.map_injective_iff.2 (fun m m' hm => ?_) (Encodable.encode_injective hcode)
  obtain ⟨⟨size, mtime, uid, gid, mode, username, groupname⟩, path, content⟩ := m
  obtain ⟨⟨size', mtime', uid', gid', mode', username', groupname'⟩, path', content'⟩ := m'
  simp only [fieldsOf, List.cons.injEq, and_true] at hm
  obtain ⟨⟨rfl, rfl, rfl, rfl, rfl⟩, huser, hgroup, hpath, hcontent⟩ := hm
  rw [hchars _ _ huser, hchars _ _ hgroup, hchars _ _ hpath,
    List.map_injective_iff.2 (fun _ _ => UInt8.toNat_inj.1) hcontent]

theorem writeLunpkg_iff_tool : ∃ archive,
    writeLunpkg unaryArchive noSignature (absolutely 0o100755) noManifest = .ok archive ∧
    ((writeLunpkg unaryArchive noSignature (belowBin 0o100755) noManifest = .ok archive ∧
      ∀ members, unaryArchive members = archive → ∀ m ∈ members, startsWith m.path "bin/" = true →
        m.header.mode = 0o755) ↔
    (∀ p mode content mode', (p, .file mode content) ∈ (absolutely 0o100755).entries.nodes →
      (p, .file mode' content) ∈ (belowBin 0o100755).entries.nodes →
        (Marks (absolutely 0o100755) mode ↔ Marks (belowBin 0o100755) mode')) ∧
    ∀ p mode content, (p, .file mode content) ∈ (absolutely 0o100755).entries.nodes →
      UnderBin p → Marks (absolutely 0o100755) mode) := by
  obtain ⟨entries, hgather, -⟩ := gather_toolTree (absolutely 0o100755) _ rfl
  have hwrite : writeLunpkg unaryArchive noSignature (absolutely 0o100755) noManifest =
      .ok (unaryArchive ((withSignature noSignature entries).map memberOf)) := by
    rw [writeLunpkg, hgather]
    rfl
  exact ⟨_, hwrite, writeLunpkg_iff unaryArchive_injective noSignature (.refl _) hwrite⟩

end Arlen.Forage.Lunpkg
