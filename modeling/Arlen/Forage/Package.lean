import Arlen.Lib.Except
import Arlen.Lib.Sha256
import Arlen.Lib.Sort
import Arlen.Lib.Text
import Arlen.Lib.Utf8
import Mathlib.Data.List.Dedup
import Mathlib.Data.String.Basic

/-!
# What a package's signature covers

`write_lunpkg` of `forage/package/src/writer.rs` and `compute_content_hash` of
`daemons/installd/installd/src/signature.rs`. A directory is the list of its entries in
the order `read_dir` gives them; a staging tree may hold symbolic links, which the
packager refuses, and a directory a package was extracted to holds none. Both sides feed
SHA-256 one frame for each file in the order of the names, so they agree whatever order
they read in, and the frames can be read back.
-/

namespace Arlen.Forage

open Arlen.Lib

/-! ## Trees -/

/-- The name of an entry of a directory. -/
structure Name where
  text : String
  plain : text ≠ "" ∧ text ≠ "." ∧ text ≠ ".." ∧ '/' ∉ text.toList ∧ Char.ofNat 0 ∉ text.toList
deriving DecidableEq

/-- Bytes that one vector holds. -/
structure Blob where
  bytes : Bytes
  fits : bytes.length < 2 ^ 63
deriving DecidableEq

/-- The entries of a directory, in the order they are read; `ℓ` are its links. -/
inductive Listing (ℓ : Type) where
  | nil
  | file (name : Name) (content : Blob) (rest : Listing ℓ)
  | link (name : Name) (target : ℓ) (rest : Listing ℓ)
  | dir (name : Name) (inner rest : Listing ℓ)
deriving DecidableEq

namespace Listing

variable {ℓ : Type}

def names : Listing ℓ → List Name
  | nil => []
  | file n _ rest | link n _ rest | dir n _ rest => n :: rest.names

/-- No directory has two entries of one name. -/
def Proper : Listing ℓ → Prop
  | nil => True
  | file n _ rest | link n _ rest => n ∉ rest.names ∧ rest.Proper
  | dir n inner rest => n ∉ rest.names ∧ inner.Proper ∧ rest.Proper

/-- The regular files below a directory, each with its path. -/
def files : Listing ℓ → List (List Name × Blob)
  | nil => []
  | file n content rest => ([n], content) :: rest.files
  | link _ _ rest => rest.files
  | dir n inner rest => inner.files.map (fun f => (n :: f.1, f.2)) ++ rest.files

instance decidableProper : (d : Listing ℓ) → Decidable d.Proper
  | nil => .isTrue trivial
  | file n _ rest | link n _ rest =>
    have := decidableProper rest
    inferInstanceAs (Decidable (n ∉ rest.names ∧ rest.Proper))
  | dir n inner rest =>
    have := decidableProper inner
    have := decidableProper rest
    inferInstanceAs (Decidable (n ∉ rest.names ∧ inner.Proper ∧ rest.Proper))

end Listing

structure Tree (ℓ : Type) where
  entries : Listing ℓ
  proper : entries.Proper

/-- The relative path of a file, with forward slashes. -/
def joined (path : List Name) : String := String.intercalate "/" (path.map Name.text)

/-! ## Packing -/

/-- A file of the archive. -/
structure Entry where
  name : String
  content : Blob
deriving DecidableEq

inductive WriteError where
  | symlink (name : String)
  | reservedEntry (name : String)
deriving DecidableEq, Repr

def manifestFile : String := "manifest.toml"

def signatureFile : String := "signature.sig"

/-- The children in the order of their names, each once the one before it went well. -/
def inOrder (parts : List (Name × Except WriteError (List Entry))) :
    Except WriteError (List Entry) := do
  let collected ← (sortBy (·.1.text) parts).mapM (·.2)
  return collected.flatten

/-- What `collect_staged` does with each child of the directory at `path`. -/
def stagedParts (path : List Name) : Listing String → List (Name × Except WriteError (List Entry))
  | .nil => []
  | .file n content rest => (n, .ok [⟨joined (path ++ [n]), content⟩]) :: stagedParts path rest
  | .link n _ rest => (n, .error (.symlink (joined (path ++ [n])))) :: stagedParts path rest
  | .dir n inner rest => (n, inOrder (stagedParts (path ++ [n]) inner)) :: stagedParts path rest

def collectStaged (staging : Tree String) : Except WriteError (List Entry) :=
  inOrder (stagedParts [] staging.entries)

/-- The name is one the writer adds, or leads below one. -/
def reserved (name : String) : Bool :=
  [manifestFile, signatureFile].any fun r => name = r || (utf8 (r ++ "/")).isPrefixOf (utf8 name)

/-- The first half of `write_lunpkg`: the entries the signature covers. -/
def gather (staging : Tree String) (manifest : Blob) : Except WriteError (List Entry) := do
  let entries ← collectStaged staging
  match entries.find? (reserved ·.name) with
  | some e => throw (.reservedEntry e.name)
  | none => return sortBy Entry.name (entries ++ [⟨manifestFile, manifest⟩])

/-- The low `w` bytes of a number, least significant first. -/
def leBytes (w n : Nat) : Bytes := (beBytes w n).reverse

/-- What a file adds to the hash: its path, a NUL, its length and its content. -/
def frame (name : String) (content : Blob) : Bytes :=
  utf8 name ++ ([0] ++ (leBytes 8 content.bytes.length ++ content.bytes))

/-- The bytes `content_hash` feeds to SHA-256. -/
def hashInput (entries : List Entry) : Bytes :=
  (sortBy Entry.name (entries.filter (·.name ≠ signatureFile))).flatMap
    fun e => frame e.name e.content

def contentHash (entries : List Entry) : Digest := sha256 (hashInput entries)

/-- The second half of `write_lunpkg`: the entries the archive gets. -/
def withSignature (sign : Digest → Blob) (entries : List Entry) : List Entry :=
  sortBy Entry.name (entries ++ [⟨signatureFile, sign (contentHash entries)⟩])

def writeLunpkg (sign : Digest → Blob) (staging : Tree String) (manifest : Blob) :
    Except WriteError (List Entry) := do
  let entries ← gather staging manifest
  return withSignature sign entries

/-! ## Checking -/

/-- `collect_files_recursive`, for the directory at `path`. -/
def collectFiles (path : List Name) : Listing Empty → List String
  | .nil => []
  | .file n _ rest =>
    let rel := joined (path ++ [n])
    if rel ≠ signatureFile then rel :: collectFiles path rest else collectFiles path rest
  | .link _ target _ => nomatch target
  | .dir n inner rest => collectFiles (path ++ [n]) inner ++ collectFiles path rest

/-- `collect_files_sorted`: the set of the names, in order. -/
def collectFilesSorted (dir : Tree Empty) : List String :=
  sortBy id (collectFiles [] dir.entries).dedup

/-- `fs::read`, of a path given by its components. -/
def Listing.read : Listing Empty → List (List Char) → Option Blob
  | .nil, _ => none
  | .file n content rest, p =>
    if p.head? = some n.text.toList then if p.tail = [] then some content else none
    else rest.read p
  | .link _ target _, _ => nomatch target
  | .dir n inner rest, p =>
    if p.head? = some n.text.toList then inner.read p.tail else rest.read p

inductive SignatureError where
  | io (path : String)
deriving DecidableEq, Repr

/-- A round of the loop of `compute_content_hash`. -/
def readFrame (dir : Tree Empty) (rel : String) : Except SignatureError Bytes :=
  match dir.entries.read (rel.toList.splitOn '/') with
  | some content => .ok (frame rel content)
  | none => .error (.io rel)

/-- The bytes `compute_content_hash` feeds to SHA-256. -/
def checkInput (dir : Tree Empty) : Except SignatureError Bytes := do
  let frames ← (collectFilesSorted dir).mapM (readFrame dir)
  return frames.flatten

def computeContentHash (dir : Tree Empty) : Except SignatureError Digest := do
  let input ← checkInput dir
  return sha256 input

variable {ℓ : Type} {d : Listing ℓ} {path path' : List Name} {content : Blob}

theorem toList_joined (path : List Name) :
    (joined path).toList = ['/'].intercalate (path.map (·.text.toList)) := by
  rw [joined, String.toList_intercalate, List.map_map]
  rfl

theorem splitOn_joined (h : path ≠ []) :
    (joined path).toList.splitOn '/' = path.map (·.text.toList) := by
  rw [toList_joined]
  refine List.splitOn_intercalate '/' (fun l hl => ?_) (by simpa using h)
  obtain ⟨n, -, rfl⟩ := List.mem_map.1 hl
  exact n.plain.2.2.2.1

theorem Name.ext_text {n m : Name} (h : n.text.toList = m.text.toList) : n = m := by
  obtain ⟨t, ht⟩ := n
  obtain ⟨t', ht'⟩ := m
  obtain rfl : t = t' := String.toList_injective h
  rfl

theorem joined_inj (h : path ≠ []) (h' : path' ≠ []) (heq : joined path = joined path') :
    path = path' := by
  have hmap : path.map (·.text.toList) = path'.map (·.text.toList) := by
    rw [← splitOn_joined h, ← splitOn_joined h', heq]
  exact List.map_injective_iff.2 (fun n m hnm => Name.ext_text hnm) hmap

theorem ne_nil_of_mem_files (h : (path, content) ∈ d.files) : path ≠ [] := by
  induction d with
  | nil => cases h
  | file n c rest ih =>
    rcases List.mem_cons.1 h with heq | h
    · obtain ⟨rfl, -⟩ := Prod.mk.inj heq
      exact List.cons_ne_nil _ _
    · exact ih h
  | link n t rest ih => exact ih h
  | dir n inner rest _ ih =>
    rcases List.mem_append.1 h with h | h
    · obtain ⟨f, -, heq⟩ := List.mem_map.1 h
      obtain ⟨rfl, -⟩ := Prod.mk.inj heq
      exact List.cons_ne_nil _ _
    · exact ih h

/-- A file lies below an entry of the directory. -/
theorem head_mem_names {n : Name} (h : (n :: path, content) ∈ d.files) : n ∈ d.names := by
  induction d with
  | nil => cases h
  | file m c rest ih =>
    rcases List.mem_cons.1 h with heq | h
    · obtain ⟨hp, -⟩ := Prod.mk.inj heq
      rw [(List.cons.inj hp).1]
      exact List.mem_cons_self
    · exact List.mem_cons_of_mem _ (ih h)
  | link m t rest ih => exact List.mem_cons_of_mem _ (ih h)
  | dir m inner rest _ ih =>
    rcases List.mem_append.1 h with h | h
    · obtain ⟨f, -, heq⟩ := List.mem_map.1 h
      obtain ⟨hp, -⟩ := Prod.mk.inj heq
      rw [← (List.cons.inj hp).1]
      exact List.mem_cons_self
    · exact List.mem_cons_of_mem _ (ih h)

theorem nodup_paths (h : d.Proper) : (d.files.map Prod.fst).Nodup := by
  induction d with
  | nil => exact List.nodup_nil
  | file n c rest ih =>
    rw [Listing.files, List.map_cons, List.nodup_cons]
    refine ⟨fun hmem => ?_, ih h.2⟩
    obtain ⟨⟨p, c'⟩, hf, rfl⟩ := List.mem_map.1 hmem
    exact h.1 (head_mem_names hf)
  | link n t rest ih => exact ih h.2
  | dir n inner rest ihinner ih =>
    rw [Listing.files, List.map_append, List.map_map, List.nodup_append]
    refine ⟨?_, ih h.2.2, ?_⟩
    · have hcomp : (Prod.fst ∘ fun f : List Name × Blob => (n :: f.1, f.2)) =
          (n :: ·) ∘ Prod.fst := rfl
      rw [hcomp, ← List.map_map]
      exact (ihinner h.2.1).map (List.cons_injective)
    · intro p hp q hq heq
      obtain ⟨f, -, rfl⟩ := List.mem_map.1 hp
      obtain ⟨⟨q, c⟩, hf, rfl⟩ := List.mem_map.1 hq
      obtain rfl : n :: f.1 = q := heq
      exact h.1 (head_mem_names hf)

/-- The entry of the archive a file becomes. -/
def entryOf (f : List Name × Blob) : Entry := ⟨joined f.1, f.2⟩

theorem nodup_entry_names (h : d.Proper) : (d.files.map (Entry.name ∘ entryOf)).Nodup := by
  have hpaths := nodup_paths h
  rw [List.nodup_map_iff_inj_on hpaths.of_map] at hpaths
  rw [List.nodup_map_iff_inj_on (nodup_paths h).of_map]
  rintro ⟨p, c⟩ hf ⟨p', c'⟩ hf' heq
  exact hpaths _ hf _ hf' (joined_inj (ne_nil_of_mem_files hf) (ne_nil_of_mem_files hf') heq)

/-- The files a signature covers, as entries. -/
def covered (dir : Tree Empty) : List Entry :=
  (dir.entries.files.map entryOf).filter (·.name ≠ signatureFile)

/-- The first `x` of a list divides it. -/
theorem append_cons_inj_of_notMem {α : Type} {x : α} {a a' r r' : List α} (ha : x ∉ a)
    (ha' : x ∉ a') (h : a ++ x :: r = a' ++ x :: r') : a = a' ∧ r = r' := by
  induction a generalizing a' with
  | nil =>
    cases a' with
    | nil => exact ⟨rfl, (List.cons.inj h).2⟩
    | cons y a' => exact absurd (List.mem_cons.2 (.inl (List.cons.inj h).1)) ha'
  | cons y a ih =>
    cases a' with
    | nil => exact absurd (List.mem_cons.2 (.inl (List.cons.inj h).1.symm)) ha
    | cons z a' =>
      obtain ⟨rfl, htail⟩ := List.cons.inj h
      obtain ⟨rfl, hr⟩ := ih (fun h => ha (List.mem_cons_of_mem _ h))
        (fun h => ha' (List.mem_cons_of_mem _ h)) htail
      exact ⟨rfl, hr⟩

/-- Where the children all go well, the order they are taken in only orders the entries. -/
theorem inOrder_eq_ok {parts : List (Name × Except WriteError (List Entry))} {es : List Entry}
    (h : inOrder parts = .ok es) :
    ∃ ess, parts.mapM (·.2) = .ok ess ∧ ess.flatten.Perm es := by
  simp only [inOrder, bind_eq_ok, pure_eq_ok] at h
  obtain ⟨ess, hess, rfl⟩ := h
  obtain ⟨ess', hess', hp⟩ := mapM_ok_of_perm (sortBy_perm _ _) hess
  exact ⟨ess', hess', hp.flatten⟩

theorem stagedParts_eq_ok {d : Listing String} {ess : List (List Entry)}
    (h : (stagedParts path d).mapM (·.2) = .ok ess) :
    ess.flatten.Perm (d.files.map fun f => ⟨joined (path ++ f.1), f.2⟩) := by
  induction d generalizing path ess with
  | nil =>
    obtain rfl := pure_eq_ok.1 h
    exact .refl _
  | file n c rest ih =>
    simp only [stagedParts, List.mapM_cons, bind_eq_ok, pure_eq_ok] at h
    obtain ⟨es, hes, ess, hess, rfl⟩ := h
    obtain rfl := Except.ok.inj hes
    exact (ih hess).cons _
  | link n t rest ih =>
    simp only [stagedParts, List.mapM_cons, bind_eq_ok] at h
    obtain ⟨es, hes, -⟩ := h
    cases hes
  | dir n inner rest ihinner ih =>
    simp only [stagedParts, List.mapM_cons, bind_eq_ok, pure_eq_ok] at h
    obtain ⟨es, hes, ess, hess, rfl⟩ := h
    obtain ⟨ess', hess', hp⟩ := inOrder_eq_ok hes
    rw [List.flatten_cons, Listing.files, List.map_append, List.map_map]
    refine List.Perm.append (hp.symm.trans ?_) (ih hess)
    simpa [Function.comp_def] using ihinner hess'

theorem collectStaged_eq_ok {staging : Tree String} {es : List Entry}
    (h : collectStaged staging = .ok es) : es.Perm (staging.entries.files.map entryOf) := by
  obtain ⟨ess, hess, hp⟩ := inOrder_eq_ok h
  exact hp.symm.trans (stagedParts_eq_ok hess)

/-- The name of the manifest, as the name of a file. -/
def manifestName : Name := ⟨manifestFile, by decide⟩

theorem joined_manifestName : joined [manifestName] = manifestFile := rfl

theorem ne_of_not_reserved {name : String} (h : reserved name = false) :
    name ≠ manifestFile ∧ name ≠ signatureFile := by
  constructor
  · rintro rfl
    exact absurd h (by decide)
  · rintro rfl
    exact absurd h (by decide)

theorem gather_perm {staging : Tree String} {manifest : Blob} {entries : List Entry}
    (h : gather staging manifest = .ok entries) :
    entries.Perm (staging.entries.files.map entryOf ++ [⟨manifestFile, manifest⟩]) ∧
      ∀ f ∈ staging.entries.files, reserved (joined f.1) = false := by
  simp only [gather, bind_eq_ok] at h
  obtain ⟨staged, hstaged, h⟩ := h
  have hperm := collectStaged_eq_ok hstaged
  split at h
  · cases h
  · next hnone =>
    obtain rfl := pure_eq_ok.1 h
    refine ⟨(sortBy_perm _ _).trans (hperm.append_right _), fun f hf => ?_⟩
    have hmem := hperm.mem_iff.2 (List.mem_map_of_mem hf)
    exact Bool.eq_false_iff.2 (List.find?_eq_none.1 hnone _ hmem)

/-- The signed entries are files by their paths, each name once, and no signature. -/
theorem gather_eq_ok {staging : Tree String} {manifest : Blob} {entries : List Entry}
    (h : gather staging manifest = .ok entries) :
    (entries.map Entry.name).Nodup ∧
      ∀ e ∈ entries, e.name ≠ signatureFile ∧ ∃ path, joined path = e.name := by
  obtain ⟨hperm, hfree⟩ := gather_perm h
  constructor
  · rw [(hperm.map Entry.name).nodup_iff, List.map_append, List.map_map, List.nodup_append]
    refine ⟨nodup_entry_names staging.proper, List.nodup_singleton _, ?_⟩
    intro a ha b hb hab
    obtain ⟨f, hf, rfl⟩ := List.mem_map.1 ha
    exact (ne_of_not_reserved (hfree f hf)).1 (hab.trans (List.mem_singleton.1 hb))
  · intro e he
    rcases List.mem_append.1 (hperm.mem_iff.1 he) with he | he
    · obtain ⟨f, hf, rfl⟩ := List.mem_map.1 he
      exact ⟨(ne_of_not_reserved (hfree f hf)).2, f.1, rfl⟩
    · obtain rfl := List.mem_singleton.1 he
      refine ⟨?_, [manifestName], joined_manifestName⟩
      show manifestFile ≠ signatureFile
      decide

theorem mem_withSignature {sign : Digest → Blob} {entries : List Entry} {e : Entry}
    (h : e.name ≠ signatureFile) : e ∈ withSignature sign entries ↔ e ∈ entries := by
  rw [withSignature, (sortBy_perm Entry.name _).mem_iff, List.mem_append, List.mem_singleton,
    or_iff_left]
  rintro rfl
  exact h rfl

/-- The tree holds no link. -/
def Listing.Regular : Listing String → Prop
  | .nil => True
  | .file _ _ rest => rest.Regular
  | .link _ _ _ => False
  | .dir _ inner rest => inner.Regular ∧ rest.Regular

theorem inOrder_ok {parts : List (Name × Except WriteError (List Entry))}
    (h : ∀ part ∈ parts, ∃ es, part.2 = .ok es) : ∃ es, inOrder parts = .ok es := by
  have hsorted : ∀ part ∈ sortBy (·.1.text) parts, ∃ es, part.2 = .ok es := fun part hp =>
    h part ((sortBy_perm _ _).mem_iff.1 hp)
  obtain ⟨ess, hess⟩ := exists_mapM_ok hsorted
  refine ⟨ess.flatten, ?_⟩
  rw [inOrder, hess]
  rfl

theorem stagedParts_ok {d : Listing String} (h : d.Regular) :
    ∀ part ∈ stagedParts path d, ∃ es, part.2 = .ok es := by
  induction d generalizing path with
  | nil => exact fun part hp => absurd hp List.not_mem_nil
  | file n c rest ih => exact List.forall_mem_cons.2 ⟨⟨_, rfl⟩, ih h⟩
  | link n t rest ih => exact h.elim
  | dir n inner rest ihinner ih =>
    exact List.forall_mem_cons.2 ⟨inOrder_ok (ihinner h.1), ih h.2⟩

end Arlen.Forage
