import Arlen.Forage.Source

/-!
# A source is prepared in its directory

Whatever an archive holds and whatever the patches say, extracting and patching change
nothing beyond the build directory, leave only directories and files in it and write no
more than the cap. No link ever stands in the directory, so every path without `..` leads
where it reads; the first entry that breaks a rule ends the extraction.
-/

namespace Arlen.Forage

open Arlen.Lib Arlen.Lib.Host

variable {π : Type} {env : Env} {dest recipeDir : Dir} {start : Fs} {P : Nat → Prop}
  {limits : ExtractLimits} {p : Path.PathBuf} {w : World} {report : ExtractReport}

/-! ## Calls of a path -/

/-- Above the directory everything is there already. -/
theorem keeps_createDirAll_above {root base : Loc} (h : base <+: root) :
    (createDirAll env base []).Keeps True (Host.Within root start P) := by
  have hmkdir : (mkdir env base []).Keeps True (Host.Within root start P) := by
    refine keeps_change fun fs fs' hfs hr => ?_
    have hnone := (FileSystem.mkdirAt_eq_ok (orRefused_eq_ok.1 hr)).1
    exact absurd hnone (FileSystem.node_ne_none_of_isPrefix (by rw [hfs.atRoot]; nofun) h)
  refine Action.Keeps.bind hmkdir.attempt fun r => ?_
  cases r with
  | ok _ => exact Action.Keeps.pure _
  | error e => exact keeps_unlessDir

/-- The path leads down from the directory it is joined to. -/
structure Down (dir : Dir) (p : Path.PathBuf) : Prop where
  base : dir.baseOf p = dir.loc
  names : parentName ∉ namesOf p

/-- **A safe path leads down.** -/
theorem down_of_isSafeRelative (dir : Dir) (h : isSafeRelative p = true) : Down dir p := by
  unfold isSafeRelative at h
  rw [Bool.and_eq_true, List.all_eq_true] at h
  obtain ⟨hrelative, hcomponents⟩ := h
  refine ⟨if_neg (by simpa using hrelative), fun hm => ?_⟩
  obtain ⟨c, hc, hname⟩ := List.mem_filterMap.1 hm
  cases c with
  | normal n => exact (Path.mem_of_normal hc).2 (Option.some.inj hname)
  | parentDir => exact absurd (hcomponents _ hc) (by decide)
  | rootDir | curDir => cases hname

theorem keeps_createDirAllAt (hdown : Down dest p) :
    (createDirAllAt env dest p).Keeps True (Host.Within dest.loc start P) := by
  unfold createDirAllAt
  rw [hdown.base]
  split
  · refine Action.Keeps.bind keeps_isDir fun b => ?_
    cases b
    · exact Action.Keeps.bind (keeps_createDirAll fun hm =>
        hdown.names (List.mem_of_mem_dropLast hm)) fun _ => keeps_unlessDir
    · exact Action.Keeps.pure _
  · exact keeps_createDirAll hdown.names

theorem keeps_createParent (hdown : Down dest p) :
    (createParent env dest p).Keeps True (Host.Within dest.loc start P) := by
  have hnames := hdown.names
  unfold createParent
  rw [hdown.base]
  split
  · split
    · exact Action.Keeps.pure _
    · exact keeps_createDirAll_above (List.dropLast_prefix _)
  · next hcut =>
    rw [hcut] at hnames
    exact keeps_createDirAll fun hm => hnames (List.mem_of_mem_dropLast hm)

theorem keeps_fileOnly {α : Type} {call : Io α} {I : World → Prop} (hq : ∀ w, I w → I w.called)
    (h : call.Keeps True I) : (fileOnly env p call).Keeps True I := by
  unfold fileOnly
  split
  · intro w hw
    unfold Action.Ends query
    cases env.plan w.made with
    | some fault => exact hq w hw
    | none => exact hq w hw
  · exact h

/-- A file that was opened lies below the directory. -/
theorem ends_open (hdown : Down dest p) (hw : Host.Within dest.loc start P w) :
    (fileOnly env p (create env (dest.baseOf p) (namesOf p))).Ends True w
      (fun q w' => dest.loc <+: q ∧ Host.Within dest.loc start P w')
      (fun _ => Host.Within dest.loc start P) := by
  unfold fileOnly
  split
  · unfold Action.Ends query
    cases env.plan w.made with
    | some fault => exact hw
    | none => exact hw
  · rw [hdown.base]
    exact ends_create hdown.names hw

/-! ## Extracting -/

/-- The bytes the reads of an entry give. -/
def sizeOfReads : List (Except IoError Bytes) → Nat
  | [] => 0
  | .error _ :: _ => 0
  | .ok chunk :: rest => if chunk = [] then 0 else chunk.length + sizeOfReads rest

/-- The bytes an entry writes. -/
def sizeOfEntry : Except IoError TarEntry → Nat
  | .error _ => 0
  | .ok entry =>
    match entry.type with
    | .regular | .gnuSparse => sizeOfReads entry.reads
    | _ => 0

/-- Where the extraction stands: `base` bytes were written before it. -/
structure Budget (dest : Dir) (start : Fs) (limits : ExtractLimits) (base : Nat)
    (report : ExtractReport) (w : World) : Prop where
  confined : Confined dest.loc start w.fs
  within : report.totalBytes ≤ limits.maxTotalBytes
  wrote : w.wrote = base + report.totalBytes

/-- Where the extraction may stop. -/
structure Stopped (dest : Dir) (start : Fs) (limits : ExtractLimits) (base : Nat)
    (e : ExtractError) (w : World) : Prop where
  confined : Confined dest.loc start w.fs
  exact : e ≠ .underflow
  wrote : w.wrote ≤ base + limits.maxTotalBytes

variable {base : Nat}

theorem Budget.stopped (h : Budget dest start limits base report w) {e : ExtractError}
    (he : e ≠ .underflow) : Stopped dest start limits base e w :=
  ⟨h.confined, he, by rw [h.wrote]; exact Nat.add_le_add_left h.within _⟩

/-- What keeps the tree confined and the count keeps the budget. -/
theorem Budget.ends {α : Type} {call : Io α} (h : Budget dest start limits base report w)
    (hcall : call.Keeps True (Host.Within dest.loc start (· = base + report.totalBytes))) :
    (call.mapError ExtractError.io).Ends True w
      (fun _ => Budget dest start limits base report) (Stopped dest start limits base) := by
  refine Action.Ends.mapError ((hcall w ⟨h.confined, h.wrote⟩).mono ?_ ?_)
  · exact fun _ w' hw => ⟨hw.1, h.within, hw.2⟩
  · exact fun e w' hw => Budget.stopped ⟨hw.1, h.within, hw.2⟩ nofun

/-- The loop writes what it reads, and never more than is left. -/
theorem ends_copyLoop {q : Loc} (hq : dest.loc <+: q) {remaining cap : Nat}
    (reads : List (Except IoError Bytes)) {written : Nat} (hle : written ≤ remaining)
    (hw : Confined dest.loc start w.fs) :
    (copyLoop env q remaining cap reads written).Ends True w
      (fun n w' => Confined dest.loc start w'.fs ∧ n = written + sizeOfReads reads ∧
        n ≤ remaining ∧ w'.wrote + written = w.wrote + n)
      (fun e w' => Confined dest.loc start w'.fs ∧ e ≠ .underflow ∧
        w'.wrote + written ≤ w.wrote + remaining) := by
  induction reads generalizing written w with
  | nil => exact Action.Ends.pure ⟨hw, rfl, hle, rfl⟩
  | cons r rest ih =>
    cases r with
    | error e => exact Action.Ends.fail ⟨hw, nofun, Nat.add_le_add_left hle _⟩
    | ok chunk =>
      unfold copyLoop sizeOfReads
      split
      · exact Action.Ends.pure ⟨hw, rfl, hle, rfl⟩
      · split
        · exact Action.Ends.fail ⟨hw, nofun, Nat.add_le_add_left hle _⟩
        · next hfit =>
          have hwrite : ((writeAll env q chunk).mapError ExtractError.io).Ends True w
              (fun _ w' => Confined dest.loc start w'.fs ∧ w'.wrote = w.wrote + chunk.length)
              (fun e w' => Confined dest.loc start w'.fs ∧ e ≠ .underflow ∧
                w'.wrote + written ≤ w.wrote + remaining) := by
            refine Action.Ends.mapError ((ends_writeAll (P := fun _ => True) hq
              ⟨hw, trivial⟩).mono (fun _ w' h => h) ?_)
            exact fun e w' h => ⟨h.1, nofun, by have := h.2; omega⟩
          refine hwrite.bind fun _ w' hw' => (ih (by omega) hw'.1).mono ?_ ?_
          · rintro n w'' ⟨hc, hn, hr, hwrote⟩
            exact ⟨hc, by omega, hr, by have := hw'.2; omega⟩
          · rintro e w'' ⟨hc, he, hwrote⟩
            exact ⟨hc, he, by have := hw'.2; omega⟩

theorem ends_extractFile (env : Env) (reads : List (Except IoError Bytes)) (hdown : Down dest p)
    (h : Budget dest start limits base report w) :
    (extractFile env dest limits p reads report).Ends True w
      (fun report' w' => Budget dest start limits base report' w' ∧
        report'.totalBytes = report.totalBytes + sizeOfReads reads)
      (Stopped dest start limits base) := by
  refine (h.ends (keeps_createParent hdown)).bind fun _ w' h' => ?_
  rw [if_neg (Nat.not_lt.2 h'.within)]
  have hopen : ((fileOnly env p (create env (dest.baseOf p) (namesOf p))).mapError
      ExtractError.io).Ends True w' (fun q w'' => dest.loc <+: q ∧ Budget dest start limits base report w'')
      (Stopped dest start limits base) := by
    have hw : Host.Within dest.loc start (· = base + report.totalBytes) w' := ⟨h'.confined, h'.wrote⟩
    refine Action.Ends.mapError ((ends_open hdown hw).mono ?_ ?_)
    · exact fun q w'' hw => ⟨hw.1, hw.2.1, h'.within, hw.2.2⟩
    · exact fun e w'' hw => Budget.stopped ⟨hw.1, h'.within, hw.2⟩ nofun
  have hcopy : (copyCapped env dest p reads (limits.maxTotalBytes - report.totalBytes)
      limits.maxTotalBytes).Ends True w'
      (fun n w'' => Confined dest.loc start w''.fs ∧ n = sizeOfReads reads ∧
        n ≤ limits.maxTotalBytes - report.totalBytes ∧ w''.wrote = base + report.totalBytes + n)
      (Stopped dest start limits base) := by
    refine hopen.bind fun q w'' hq => ?_
    have hcap := hq.2.within
    have hwrote := hq.2.wrote
    refine (ends_copyLoop hq.1 reads (Nat.zero_le _) hq.2.confined).mono ?_ ?_
    · rintro n v ⟨hc, hn, hr, hv⟩
      exact ⟨hc, by omega, hr, by omega⟩
    · rintro e v ⟨hc, he, hv⟩
      exact ⟨hc, he, by omega⟩
  refine hcopy.bind fun n w'' hn => Action.Ends.pure ?_
  obtain ⟨hc, hn, hr, hv⟩ := hn
  have hcap := h'.within
  refine ⟨⟨hc, ?_, ?_⟩, ?_⟩
  · show report.totalBytes + n ≤ limits.maxTotalBytes
    omega
  · rw [hv, Nat.add_assoc]
  · rw [hn]

theorem ends_extractEntry (env : Env) (count : Nat) (entry : Except IoError TarEntry)
    (h : Budget dest start limits base report w) :
    (extractEntry env dest limits count entry report).Ends True w
      (fun report' w' => Budget dest start limits base report' w' ∧
        report'.totalBytes = report.totalBytes + sizeOfEntry entry)
      (Stopped dest start limits base) := by
  unfold extractEntry
  split
  · exact Action.Ends.fail (h.stopped nofun)
  · next entry =>
    obtain ⟨path, type, reads⟩ := entry
    split
    · exact Action.Ends.fail (h.stopped nofun)
    · split
      · exact Action.Ends.fail (h.stopped nofun)
      · split
        · next hsafe =>
          have hdown := down_of_isSafeRelative dest hsafe
          cases type with
          | directory =>
            exact (h.ends (keeps_createDirAllAt hdown)).bind fun _ w' h' =>
              Action.Ends.pure ⟨h', rfl⟩
          | regular | gnuSparse => exact ends_extractFile env reads hdown h
          | symlink | link | char | block | fifo | other _ =>
            exact Action.Ends.fail (h.stopped nofun)
        · exact Action.Ends.fail (h.stopped nofun)

theorem ends_extractEntries (env : Env) (entries : List (Except IoError TarEntry)) (count : Nat)
    (h : Budget dest start limits base report w) :
    (extractEntries env dest limits entries count report).Ends True w
      (fun report' w' => Budget dest start limits base report' w' ∧
        report'.totalBytes = report.totalBytes + (entries.map sizeOfEntry).sum)
      (Stopped dest start limits base) := by
  induction entries generalizing count report w with
  | nil => exact Action.Ends.pure ⟨h, rfl⟩
  | cons entry rest ih =>
    refine (ends_extractEntry env count entry h).bind fun report' w' h' => ?_
    refine (ih (count + 1) h'.1).mono ?_ fun e w'' hs => hs
    rintro report'' w'' ⟨hb, ht⟩
    refine ⟨hb, ?_⟩
    rw [ht, h'.2, List.map_cons, List.sum_cons, Nat.add_assoc]

theorem ends_extractTar (env : Env) (archive : Archive) (bytes : Bytes)
    (h : Budget dest start limits base {} w) :
    (extractTar env archive bytes dest limits).Ends True w
      (fun report w' => Budget dest start limits base report w') (Stopped dest start limits base) := by
  refine (h.ends (keeps_createDirAll List.not_mem_nil)).bind fun _ w' h' => ?_
  cases archive (decompressor bytes) bytes with
  | error e =>
    refine Action.Ends.fail (h'.stopped ?_)
    cases e <;> nofun
  | ok entries => exact (ends_extractEntries env entries 0 h').mono (fun _ _ hr => hr.1) fun _ _ hs => hs

/-! ## The first entry that breaks a rule -/

/-- Behind the entries `pre`, the entry leads out of the directory, is no file or
directory, or goes over a cap. -/
def Violates (limits : ExtractLimits) (pre : List (Except IoError TarEntry)) (entry : TarEntry) :
    Prop :=
  (∃ path, entry.path = .ok path ∧ isSafeRelative path = false) ∨
    entry.type ∉ [.directory, .regular, .gnuSparse] ∨
    limits.maxEntries < pre.length + 1 ∨
    limits.maxTotalBytes < (pre.map sizeOfEntry).sum + sizeOfEntry (.ok entry)

/-- An entry that breaks a rule fails. -/
theorem ends_extractEntry_violating (env : Env) {pre : List (Except IoError TarEntry)}
    {bad : TarEntry} (hbad : Violates limits pre bad) (h : Budget dest start limits base report w)
    (htotal : report.totalBytes = (pre.map sizeOfEntry).sum) :
    (extractEntry env dest limits pre.length (.ok bad) report).Ends True w
      (fun _ _ => False) (fun _ _ => True) := by
  rcases hbad with ⟨path, hpath, hunsafe⟩ | htype | hcount | hsize
  · unfold extractEntry
    simp only [hpath, hunsafe, Bool.false_eq_true, if_false]
    split
    · exact Action.Ends.fail trivial
    · exact Action.Ends.fail trivial
  · obtain ⟨path, type, reads⟩ := bad
    simp only [extractEntry]
    split
    · exact Action.Ends.fail trivial
    · split
      · exact Action.Ends.fail trivial
      · split
        · cases type with
          | directory | regular | gnuSparse => exact absurd htype (by simp)
          | symlink | link | char | block | fifo | other _ => exact Action.Ends.fail trivial
        · exact Action.Ends.fail trivial
  · simp only [extractEntry, hcount, if_true]
    exact Action.Ends.fail trivial
  · refine (ends_extractEntry env pre.length (.ok bad) h).mono ?_ fun _ _ _ => trivial
    rintro report' w' ⟨hb, ht⟩
    have hle := hb.within
    omega

theorem extractEntries_append (pre post : List (Except IoError TarEntry)) (count : Nat)
    (report : ExtractReport) :
    extractEntries env dest limits (pre ++ post) count report = (do
      let report ← extractEntries env dest limits pre count report
      extractEntries env dest limits post (count + pre.length) report) := by
  induction pre generalizing count report with
  | nil => rfl
  | cons entry pre ih =>
    simp only [List.cons_append, extractEntries, List.length_cons, ih, Action.bind_assoc]
    rw [show count + (pre.length + 1) = count + 1 + pre.length by omega]

/-- The extraction stops with an error at an entry that breaks a rule, or before it:
what follows the entry makes no difference. -/
theorem stops_at_violation {pre post : List (Except IoError TarEntry)} {bad : TarEntry}
    (hbad : Violates limits pre bad) (h : Budget dest start limits base {} w) :
    ∃ e w', extractEntries env dest limits (pre ++ .ok bad :: post) 0 {} w = some (.error e, w') ∧
      extractEntries env dest limits (pre ++ [.ok bad]) 0 {} w = some (.error e, w') := by
  have hpre := ends_extractEntries env pre 0 h
  rw [extractEntries_append, extractEntries_append]
  rcases hr : extractEntries env dest limits pre 0 {} w with _ | ⟨e | r, w'⟩
  · exact absurd hr (hpre.returns trivial)
  · exact ⟨e, w', Action.bind_of_error hr, Action.bind_of_error hr⟩
  · obtain ⟨hb, ht⟩ := hpre.of_ok hr
    obtain ⟨e, w'', hs⟩ :=
      (ends_extractEntry_violating env hbad hb (by simpa using ht)).fails
    rw [Action.bind_of_ok hr, Action.bind_of_ok hr, Nat.zero_add]
    exact ⟨e, w'', Action.bind_of_error hs, Action.bind_of_error hs⟩

/-! ## Patching -/

theorem keeps_probe {rel : Path.PathBuf} (names seen : List Host.Name) :
    (probe env dest rel seen names).Keeps True (Host.Within dest.loc start P) := by
  induction names generalizing seen with
  | nil => exact Action.Keeps.pure _
  | cons n rest ih =>
    refine Action.Keeps.bind keeps_lstat.attempt fun r => ?_
    split
    · exact Action.Keeps.fail _
    · exact ih _

/-- What follows a safe target goes down. -/
theorem keeps_behind_safeTarget {β : Type} {rel : Path.PathBuf} {rest : Path.PathBuf → Patching β}
    (hrest : Down dest rel → ∀ target, (rest target).Keeps True (Host.Within dest.loc start P)) :
    (safeTarget env dest rel >>= rest).Keeps True (Host.Within dest.loc start P) := by
  unfold safeTarget containedJoin
  by_cases hsafe : isSafeRelative rel = true
  · rw [if_pos hsafe]
    exact Action.Keeps.bind (Action.Keeps.bind (keeps_probe _ _) fun _ => Action.Keeps.pure _)
      (hrest (down_of_isSafeRelative _ hsafe))
  · rw [if_neg hsafe]
    exact fun w hw => hw

theorem keeps_readCapped {dir : Dir} {rel path : Path.PathBuf} {cap : Nat} :
    (readCapped env dir rel path cap).Keeps True (Host.Within dest.loc start P) := by
  refine Action.Keeps.bind keeps_stat.mapError fun found => ?_
  split
  · exact Action.Keeps.fail _
  · exact (keeps_fileOnly (fun w => id) keeps_read).mapError

theorem keeps_deleteFile {patchPath : Path.PathBuf} {orig : Option String} :
    (deleteFile env dest patchPath orig).Keeps True (Host.Within dest.loc start P) := by
  unfold deleteFile
  split
  · exact Action.Keeps.fail _
  · split
    · exact Action.Keeps.fail _
    · refine keeps_behind_safeTarget fun hdown target => Action.Keeps.bind ?_ fun there => ?_
      · split
        · exact keeps_isDir.mapError
        · exact keeps_pathExists.mapError
      · split
        · rw [hdown.base]
          exact (keeps_fileOnly (fun w => id) (keeps_removeFile hdown.names)).mapError
        · exact Action.Keeps.pure _

theorem keeps_baseText {patchPath rel target : Path.PathBuf} {orig : Option String}
    {limits : PatchLimits} :
    (baseText env dest patchPath rel target orig limits).Keeps True (Host.Within dest.loc start P) := by
  unfold baseText
  split
  · exact Action.Keeps.pure _
  · refine Action.Keeps.bind keeps_readCapped fun bytes => ?_
    split
    · exact Action.Keeps.pure _
    · exact Action.Keeps.fail _

theorem keeps_putPatched {rel target : Path.PathBuf} {patched : String} {limits : PatchLimits}
    (hdown : Down dest rel) :
    (putPatched env dest rel target patched limits).Keeps True
      (Host.Within dest.loc start fun _ => True) := by
  unfold putPatched
  split
  · exact Action.Keeps.fail _
  · refine Action.Keeps.bind (keeps_createParent hdown).mapError fun _ => ?_
    rw [hdown.base]
    exact (keeps_fileOnly (fun w => id) (keeps_write hdown.names)).mapError

theorem keeps_applyFileDiff {diffy : Diffy π} {patchPath : Path.PathBuf} {chunk : String}
    {limits : PatchLimits} :
    (applyFileDiff env diffy dest patchPath chunk limits).Keeps True
      (Host.Within dest.loc start fun _ => True) := by
  unfold applyFileDiff
  dsimp only
  split
  · exact Action.Keeps.fail _
  · split
    · exact keeps_deleteFile
    · split
      · exact Action.Keeps.fail _
      · split
        · exact Action.Keeps.fail _
        · refine keeps_behind_safeTarget fun hdown target =>
            Action.Keeps.bind keeps_baseText fun text => ?_
          split
          · exact Action.Keeps.fail _
          · exact keeps_putPatched hdown

theorem keeps_applyPatches {diffy : Diffy π} {patches : List Path.PathBuf} {limits : PatchLimits} :
    (applyPatches env diffy dest recipeDir patches limits).Keeps True
      (Host.Within dest.loc start fun _ => True) := by
  refine Action.Keeps.forEach fun rel _ => ?_
  unfold applyPatch
  split
  · exact Action.Keeps.fail _
  · refine Action.Keeps.bind keeps_readCapped fun bytes => ?_
    split
    · exact Action.Keeps.fail _
    · exact Action.Keeps.forEach fun chunk _ => keeps_applyFileDiff

/-! ## Preparing -/

/-- An empty directory holds nothing that leads out of it. -/
theorem confined_of_empty (hdir : start.node dest.loc = some .dir)
    (hempty : start.names dest.loc = []) : Confined dest.loc start start := by
  refine ⟨fun _ _ => rfl, hdir, fun p hp => ?_⟩
  by_cases heq : dest.loc = p
  · rw [← heq]
    exact .inr (.inl hdir)
  · exact .inl (FileSystem.node_below_empty hempty hp heq)

/-- **Preparing a source is confined.** From an empty directory, for every archive, list of
patches and failing of calls: nothing beyond the directory changes, only directories and
files are left in it, the extraction writes at most its cap and its budget never
underflows, and it stops with an error at the first entry that breaks a rule. -/
theorem prepare_confined (env : Env) (archive : Archive) (diffy : Diffy π) (bytes : Bytes)
    (dest recipeDir : Dir) (limits : ExtractLimits) (patches : List Path.PathBuf)
    (patchLimits : PatchLimits) (w : World) (hdir : w.fs.node dest.loc = some .dir)
    (hempty : w.fs.names dest.loc = []) :
    (prepare env archive diffy bytes dest recipeDir limits patches patchLimits).Ends True w
      (fun _ w' => Confined dest.loc w.fs w'.fs) (fun _ w' => Confined dest.loc w.fs w'.fs) ∧
    (extractTar env archive bytes dest limits).Ends True w
      (fun report w' => report.totalBytes ≤ limits.maxTotalBytes ∧
        w'.wrote = w.wrote + report.totalBytes)
      (fun e w' => e ≠ .underflow ∧ w'.wrote ≤ w.wrote + limits.maxTotalBytes) ∧
    ∀ pre bad post, Violates limits pre bad →
      ∃ e w', extractEntries env dest limits (pre ++ .ok bad :: post) 0 {} w = some (.error e, w') ∧
        extractEntries env dest limits (pre ++ [.ok bad]) 0 {} w = some (.error e, w') := by
  have hstart : Budget dest w.fs limits w.wrote {} w :=
    ⟨confined_of_empty hdir hempty, Nat.zero_le _, rfl⟩
  have hextract := ends_extractTar env archive bytes hstart
  refine ⟨?_, ?_, ?_⟩
  · refine Action.Ends.bind (Action.Ends.mapError (hextract.mono (fun _ w' h => h.confined)
      fun _ w' h => h.confined)) fun _ w' hw' => Action.Ends.mapError ?_
    refine (keeps_applyPatches w' ⟨hw', trivial⟩).mono ?_ ?_
    · exact fun _ w'' h => h.1
    · exact fun _ w'' h => h.1
  · exact hextract.mono (fun _ w' h => ⟨h.within, h.wrote⟩) fun _ w' h => ⟨h.exact, h.wrote⟩
  · exact fun pre bad post hbad => stops_at_violation hbad hstart

/-- Calls that do not fail, on a tree without links. -/
def quiet : Env := ⟨fun _ => none, fun _ _ => none⟩

def rootDir : Dir := ⟨utf8 "/", []⟩

/-- The empty directory `/b`. -/
def buildDir : Dir := ⟨utf8 "/b", [utf8 "b"]⟩

def buildTree : Fs := FileSystem.put .bare [] (utf8 "b") .dir rfl (fun h => by cases h)

/-- A file, and an entry that the directory has to be kept from. -/
def archiveWith (bad : TarEntry) : Archive := fun _ _ =>
  .ok [.ok ⟨.ok (utf8 "a/f"), .regular, [.ok [1, 2]]⟩, .ok bad]

def linkEntry : TarEntry := ⟨.ok (utf8 "l"), .symlink, []⟩

def upEntry : TarEntry := ⟨.ok (utf8 "a/../../f"), .regular, [.ok [3]]⟩

def noDiff : Diffy Unit := ⟨fun _ => .ok (), fun text _ => some text⟩

/-- What an extraction leaves of the file, of the link and of the file above the directory. -/
def leftBehind (bad : TarEntry) : Option (List (Option (Lib.Entry Leaf)) × Nat) :=
  (extractTar quiet (archiveWith bad) [] buildDir {} ⟨buildTree, 0, 0⟩).map fun r =>
    ([[utf8 "b", utf8 "a", utf8 "f"], [utf8 "b", utf8 "l"], [utf8 "f"]].map r.2.fs.node, r.2.wrote)

/-- A file opened by the path of the second entry is above the directory. -/
example : ((create quiet (buildDir.baseOf (utf8 "a/../../f")) (namesOf (utf8 "a/../../f"))
    ⟨FileSystem.put buildTree [utf8 "b"] (utf8 "a") .dir rfl (fun h => by cases h), 0, 0⟩).map
      fun r => r.2.fs.node [utf8 "f"]) = some (some (.leaf (.file []))) := by decide

/-- The file is written. Neither the link nor the file above the directory is. -/
theorem prepare_confined_two :
    (∀ bad, (prepare quiet (archiveWith bad) noDiff [] buildDir rootDir {} [] {}).Ends True
      ⟨buildTree, 0, 0⟩ (fun _ w' => Confined buildDir.loc buildTree w'.fs)
      (fun _ w' => Confined buildDir.loc buildTree w'.fs)) ∧
    leftBehind linkEntry = some ([some (.leaf (.file [1, 2])), none, none], 2) ∧
    leftBehind upEntry = some ([some (.leaf (.file [1, 2])), none, none], 2) :=
  ⟨fun bad => (prepare_confined quiet (archiveWith bad) noDiff [] buildDir rootDir {} [] {}
    ⟨buildTree, 0, 0⟩ rfl rfl).1, by decide, by decide⟩

end Arlen.Forage
