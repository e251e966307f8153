import Arlen.Forage.Capabilities
import Arlen.Forage.Source
import Arlen.Lib.Except
import Arlen.Lib.Sha256

/-!
# Resolving a recipe across the tracked cookbooks

`resolve_against` of `forage/cookbook-registry` over `resolve` of
`forage/cookbook-resolve`. Loading and verifying a cookbook's metadata (`tough`), reading
`root.json` and decoding a signed capability cap are parameters, so a cookbook may come
out in any way. A root that is there and is not the pinned one stops the search; a root
that cannot be read is passed over, and so is a cookbook whose resolution fails.
-/

namespace Arlen.Forage

open Arlen.Lib Arlen.Lib.Host

/-! ## One cookbook's signed recipes -/

/-- A value of a target's custom metadata, as far as it is told apart. -/
inductive CustomValue where
  | null
  | string (s : String)
  | other (json : String)
deriving DecidableEq, Repr

/-- A signed target. -/
structure Target where
  sha256 : Bytes
  custom : String → Option CustomValue

structure ResolvedRecipe where
  name : String
  gitUrl : String
  commit : String
  recipeHash : String
  capabilityCap : Option Capabilities
deriving DecidableEq, Repr

inductive ResolveError where
  | badUrl (dir : String)
  | badName (name : String)
  | verify (why : String)
  | notFound (name : String)
  | malformed (name reason : String)
deriving DecidableEq, Repr

/-- The error's message. -/
def ResolveError.text : ResolveError → String
  | .badUrl dir => "metadata directory " ++ dir ++ " is not an absolute path"
  | .badName name => "invalid recipe name " ++ "\x60" ++ name ++ "\x60"
  | .verify why => "cookbook failed verification: " ++ why
  | .notFound name => "recipe " ++ "\x60" ++ name ++ "\x60" ++ " is not in this cookbook"
  | .malformed name reason =>
    "recipe " ++ "\x60" ++ name ++ "\x60" ++ " target is malformed: " ++ reason

/-- What the crates for the metadata do: load and verify the chain from a trusted root,
read a target name (`ν`), and decode a capability cap. -/
structure Tough (ν : Type) where
  load : Bytes → Path.PathBuf → Except String (ν → Option Target)
  targetName : String → Option ν
  capabilities : CustomValue → Except String (Option Capabilities)

variable {ν : Type}

/-- `string_field`. -/
def stringField (target : Target) (key recipeName : String) : Except ResolveError String :=
  match target.custom key with
  | some (.string s) => .ok s
  | _ => .error (.malformed recipeName ("missing or non-string " ++ "\x60" ++ key ++ "\x60"))

/-- The cap of a target, if it has one. -/
def capabilityCap (tough : Tough ν) (target : Target) (recipeName : String) :
    Except ResolveError (Option Capabilities) :=
  match target.custom "capability_cap" with
  | none | some .null => .ok none
  | some value =>
    (tough.capabilities value).mapError fun e => .malformed recipeName ("capability_cap: " ++ e)

def resolvedFromTarget (tough : Tough ν) (target : Target) (recipeName : String) :
    Except ResolveError ResolvedRecipe := do
  let gitUrl ← stringField target "git_url" recipeName
  let commit ← stringField target "commit" recipeName
  let cap ← capabilityCap tough target recipeName
  return { name := recipeName, gitUrl := gitUrl, commit := commit,
           recipeHash := hex target.sha256, capabilityCap := cap }

/-- `resolve`: the recipe's pointer in a cookbook verified against the root. -/
def resolve (tough : Tough ν) (pinnedRoot : Bytes) (metadataDir : Path.PathBuf)
    (recipeName : String) : Except ResolveError ResolvedRecipe :=
  if Path.isAbsolute metadataDir then
    match tough.load pinnedRoot metadataDir with
    | .error e => .error (.verify e)
    | .ok targets =>
      match tough.targetName recipeName with
      | none => .error (.badName recipeName)
      | some name =>
        match targets name with
        | none => .error (.notFound recipeName)
        | some target => resolvedFromTarget tough target recipeName
  else .error (.badUrl (display metadataDir))

/-! ## The registry -/

structure Cookbook where
  name : String
  source : String
  pinnedRootSha256 : Option String
deriving DecidableEq, Repr

/-- The machine: where data is kept, and what reading a file gives. -/
structure Machine where
  dataDir : Option Path.PathBuf
  read : Path.PathBuf → Except IoError Bytes

def cloneDir (machine : Machine) (name : String) : Path.PathBuf :=
  joinPath (joinPath (machine.dataDir.getD (utf8 ".")) (utf8 "arlen/forage/cookbooks")) (utf8 name)

def cookbookMetadataDir (machine : Machine) (c : Cookbook) : Path.PathBuf :=
  joinPath (if startsWith c.source "git+" then cloneDir machine c.name else utf8 c.source)
    (utf8 "metadata")

/-- `sha256_hex`. -/
def sha256Hex (bytes : Bytes) : String := hex (sha256 bytes).bytes

/-- What the search does at one cookbook. -/
inductive Consulted where
  | unpinned
  | unreadable
  | mismatch
  | answered (recipe : ResolvedRecipe)
  | notFound
  | failed (error : ResolveError)

/-- A round of the loop of `resolve_against`. -/
def consult (machine : Machine) (tough : Tough ν) (recipeName : String) (c : Cookbook) : Consulted :=
  match c.pinnedRootSha256 with
  | none => .unpinned
  | some pin =>
    let metadataDir := cookbookMetadataDir machine c
    match machine.read (joinPath metadataDir (utf8 "root.json")) with
    | .error _ => .unreadable
    | .ok rootBytes =>
      if sha256Hex rootBytes ≠ pin then .mismatch
      else
        match resolve tough rootBytes metadataDir recipeName with
        | .ok resolved => .answered resolved
        | .error (.notFound _) => .notFound
        | .error e => .failed e

def mismatchText (c : Cookbook) : String :=
  "cookbook '" ++ c.name ++ "' root.json no longer matches its pinned hash; " ++
    "refusing (re-add it if the change is expected)"

/-- What is left to say when no cookbook answered. -/
def unresolvedText (recipeName : String) (lastErr : Option String) (considered : Bool) : String :=
  match lastErr with
  | some e => e
  | none =>
    if considered then "no tracked cookbook provides '" ++ recipeName ++ "'"
    else "no tracked cookbook is signed and pinned; nothing to resolve from"

/-- The loop of `resolve_against`, behind the cookbooks it went past. -/
def resolveLoop (machine : Machine) (tough : Tough ν) (recipeName : String) :
    List Cookbook → Option String → Bool → Except String ResolvedRecipe
  | [], lastErr, considered => .error (unresolvedText recipeName lastErr considered)
  | c :: rest, lastErr, considered =>
    match consult machine tough recipeName c with
    | .unpinned | .unreadable => resolveLoop machine tough recipeName rest lastErr considered
    | .mismatch => .error (mismatchText c)
    | .answered resolved => .ok resolved
    | .notFound => resolveLoop machine tough recipeName rest lastErr true
    | .failed e =>
      resolveLoop machine tough recipeName rest
        (some ("cookbook '" ++ c.name ++ "': " ++ e.text)) true

def resolveAgainst (machine : Machine) (tough : Tough ν) (cookbooks : List Cookbook)
    (recipeName : String) : Except String ResolvedRecipe :=
  if cookbooks = [] then
    .error "no cookbooks are tracked (forage cookbook add <name> git+<url>)"
  else resolveLoop machine tough recipeName cookbooks none false

/-! ## What the search goes past -/

variable {machine : Machine} {tough : Tough ν} {recipeName : String} {c : Cookbook}
  {cookbooks : List Cookbook} {r : ResolvedRecipe}

/-- The search goes on behind the cookbook. -/
def Consulted.goesOn : Consulted → Bool
  | .mismatch | .answered _ => false
  | _ => true

/-- The index of a cookbook, verified from the root, has no such recipe. -/
def Lacks (machine : Machine) (tough : Tough ν) (recipeName : String) (c : Cookbook)
    (root : Bytes) : Prop :=
  ∃ targets name, tough.load root (cookbookMetadataDir machine c) = .ok targets ∧
    tough.targetName recipeName = some name ∧ targets name = none

theorem resolvedFromTarget_ne_notFound {target : Target} {n : String} :
    resolvedFromTarget tough target recipeName ≠ .error (.notFound n) := by
  unfold resolvedFromTarget
  have hfield : ∀ key, stringField target key recipeName ≠ .error (.notFound n) := by
    intro key
    unfold stringField
    split <;> exact fun h => by cases h
  have hcap : capabilityCap tough target recipeName ≠ .error (.notFound n) := by
    unfold capabilityCap
    split
    · exact fun h => by cases h
    · exact fun h => by cases h
    · cases tough.capabilities _ <;> exact fun h => by cases h
  intro h
  rcases bind_eq_error.1 h with hurl | ⟨_, _, h⟩
  · exact hfield "git_url" hurl
  · rcases bind_eq_error.1 h with hcommit | ⟨_, _, h⟩
    · exact hfield "commit" hcommit
    · rcases bind_eq_error.1 h with hc | ⟨_, _, h⟩
      · exact hcap hc
      · cases h

/-- A recipe is not found only in an index that was verified. -/
theorem resolve_notFound {root : Bytes} {dir : Path.PathBuf} {n : String}
    (h : resolve tough root dir recipeName = .error (.notFound n)) :
    ∃ targets name, tough.load root dir = .ok targets ∧
      tough.targetName recipeName = some name ∧ targets name = none := by
  unfold resolve at h
  split at h
  · split at h
    · cases h
    · next targets hload =>
      split at h
      · cases h
      · next name hname =>
        split at h
        · next hnone => exact ⟨targets, name, hload, hname, hnone⟩
        · exact absurd h resolvedFromTarget_ne_notFound
  · cases h

/-- What holds of a pinned cookbook with a readable root, by how it came out. -/
theorem consult_readable {pin : String} {root : Bytes} (hpin : c.pinnedRootSha256 = some pin)
    (hread : machine.read (joinPath (cookbookMetadataDir machine c) (utf8 "root.json")) = .ok root) :
    consult machine tough recipeName c =
      if sha256Hex root ≠ pin then .mismatch
      else
        match resolve tough root (cookbookMetadataDir machine c) recipeName with
        | .ok resolved => .answered resolved
        | .error (.notFound _) => .notFound
        | .error e => .failed e := by
  unfold consult
  rw [hpin]
  simp only
  rw [hread]

theorem resolveLoop_goesOn {rest : List Cookbook} {lastErr : Option String} {considered : Bool}
    (h : resolveLoop machine tough recipeName (c :: rest) lastErr considered = .ok r) :
    consult machine tough recipeName c = .answered r ∨
      (consult machine tough recipeName c).goesOn = true ∧ ∃ lastErr' considered',
        resolveLoop machine tough recipeName rest lastErr' considered' = .ok r := by
  unfold resolveLoop at h
  cases hc : consult machine tough recipeName c with
  | unpinned | unreadable | notFound | failed _ =>
    rw [hc] at h
    exact .inr ⟨rfl, _, _, h⟩
  | mismatch =>
    rw [hc] at h
    cases h
  | answered resolved =>
    rw [hc] at h
    cases h
    exact .inl rfl

/-- The search answers with the first cookbook that answers, and stops at none before. -/
theorem resolveLoop_eq_ok {lastErr : Option String} {considered : Bool}
    (h : resolveLoop machine tough recipeName cookbooks lastErr considered = .ok r) :
    ∃ before c after, cookbooks = before ++ c :: after ∧
      consult machine tough recipeName c = .answered r ∧
      ∀ c' ∈ before, (consult machine tough recipeName c').goesOn = true := by
  induction cookbooks generalizing lastErr considered with
  | nil => cases h
  | cons c rest ih =>
    rcases resolveLoop_goesOn h with hans | ⟨hgo, lastErr', considered', h⟩
    · exact ⟨[], c, rest, rfl, hans, by simp⟩
    · obtain ⟨before, c', after, rfl, hans, hbefore⟩ := ih h
      exact ⟨c :: before, c', after, rfl, hans, List.forall_mem_cons.2 ⟨hgo, hbefore⟩⟩

theorem resolveAgainst_eq_ok (h : resolveAgainst machine tough cookbooks recipeName = .ok r) :
    ∃ before c after, cookbooks = before ++ c :: after ∧
      consult machine tough recipeName c = .answered r ∧
      ∀ c' ∈ before, (consult machine tough recipeName c').goesOn = true := by
  unfold resolveAgainst at h
  split at h
  · cases h
  · exact resolveLoop_eq_ok h

/-- The recipe comes from a cookbook, and every pinned cookbook before it was verified
against its pin and does not index the recipe. -/
def FailClosed (machine : Machine) (tough : Tough ν) (cookbooks : List Cookbook)
    (recipeName : String) : Prop :=
  ∀ r, resolveAgainst machine tough cookbooks recipeName = .ok r →
    ∃ before c after, cookbooks = before ++ c :: after ∧
      consult machine tough recipeName c = .answered r ∧
      ∀ c' ∈ before, ∀ pin, c'.pinnedRootSha256 = some pin →
        ∃ root, machine.read (joinPath (cookbookMetadataDir machine c') (utf8 "root.json")) = .ok root ∧
          sha256Hex root = pin ∧ Lacks machine tough recipeName c' root

theorem consult_unreadable {pin : String} {e : IoError} (hpin : c.pinnedRootSha256 = some pin)
    (hread : machine.read (joinPath (cookbookMetadataDir machine c) (utf8 "root.json")) =
      .error e) : consult machine tough recipeName c = .unreadable := by
  unfold consult
  rw [hpin]
  simp only
  rw [hread]

/-- The search goes past a root it cannot read as if the cookbook were not there. -/
theorem resolveLoop_skip {front back : List Cookbook} {lastErr : Option String} {considered : Bool}
    (hc : consult machine tough recipeName c = .unreadable) :
    resolveLoop machine tough recipeName (front ++ c :: back) lastErr considered =
      resolveLoop machine tough recipeName (front ++ back) lastErr considered := by
  induction front generalizing lastErr considered with
  | nil =>
    rw [List.nil_append, List.nil_append]
    conv_lhs => unfold resolveLoop
    rw [hc]
  | cons c' front ih =>
    rw [List.cons_append, List.cons_append]
    unfold resolveLoop
    cases consult machine tough recipeName c' with
    | unpinned | unreadable | notFound | failed _ => exact ih
    | mismatch | answered _ => rfl

theorem resolveAgainst_skip {front back : List Cookbook}
    (hc : consult machine tough recipeName c = .unreadable)
    (h : resolveAgainst machine tough (front ++ c :: back) recipeName = .ok r) :
    resolveAgainst machine tough (front ++ back) recipeName = .ok r := by
  unfold resolveAgainst at h ⊢
  rw [if_neg (by simp), resolveLoop_skip hc] at h
  by_cases hnil : front ++ back = []
  · rw [hnil] at h
    cases h
  · rw [if_neg hnil, h]

/-- A recipe comes from the first cookbook that answers. A pinned cookbook before it whose
root can be read has the pinned root, and its verified index has no such recipe unless its
own resolution failed. A pinned cookbook whose root cannot be read is skipped: without it the
answer is the same. -/
theorem resolve_precedence (machine : Machine) (tough : Tough ν) (cookbooks : List Cookbook)
    (recipeName : String) (r : ResolvedRecipe)
    (h : resolveAgainst machine tough cookbooks recipeName = .ok r) :
    (∃ before c after, cookbooks = before ++ c :: after ∧
      consult machine tough recipeName c = .answered r ∧
      ∀ c' ∈ before, ∀ pin root, c'.pinnedRootSha256 = some pin →
        machine.read (joinPath (cookbookMetadataDir machine c') (utf8 "root.json")) = .ok root →
        sha256Hex root = pin ∧
          ((∀ e, consult machine tough recipeName c' ≠ .failed e) →
            Lacks machine tough recipeName c' root)) ∧
    ∀ front c back pin e, cookbooks = front ++ c :: back → c.pinnedRootSha256 = some pin →
      machine.read (joinPath (cookbookMetadataDir machine c) (utf8 "root.json")) = .error e →
      resolveAgainst machine tough (front ++ back) recipeName = .ok r := by
  refine ⟨?_, fun front c back pin e hcut hpin hread => ?_⟩
  swap
  · rw [hcut] at h
    exact resolveAgainst_skip (consult_unreadable hpin hread) h
  obtain ⟨before, c, after, hsplit, hans, hbefore⟩ := resolveAgainst_eq_ok h
  refine ⟨before, c, after, hsplit, hans, ?_⟩
  intro c' hc' pin root hpin hread
  have hgo := hbefore c' hc'
  rw [consult_readable hpin hread] at hgo
  have hroot : sha256Hex root = pin := by
    by_contra hne
    rw [if_pos hne] at hgo
    cases hgo
  refine ⟨hroot, fun hfailed => ?_⟩
  rw [consult_readable hpin hread, if_neg (not_not.2 hroot)] at hfailed
  rw [if_neg (not_not.2 hroot)] at hgo
  cases hres : resolve tough root (cookbookMetadataDir machine c') recipeName with
  | ok resolved =>
    rw [hres] at hgo
    cases hgo
  | error e =>
    rw [hres] at hfailed
    cases e with
    | notFound n => exact resolve_notFound hres
    | badUrl _ | badName _ | verify _ | malformed _ _ => exact absurd rfl (hfailed _)

/-! ## A clone that lost its root -/

/-- The first cookbook's directory holds no root. -/
def threeTaps : Machine where
  dataDir := none
  read := fun p =>
    if p = utf8 "/b/metadata/root.json" ∨ p = utf8 "/c/metadata/root.json" then .ok []
    else .error .invalid

/-- The metadata of the second cookbook lead to an index of no recipe, all others to an index
of one. -/
def oneRecipe : Tough String where
  load := fun _ dir => .ok fun name =>
    if name = "com.example.Tool" ∧ dir ≠ utf8 "/b/metadata" then
      some ⟨[], fun key => if key = "capability_cap" then none else some (.string "x")⟩
    else none
  targetName := some
  capabilities := fun _ => .ok none

def lostTap : Cookbook := ⟨"a", "/a", some (sha256Hex [])⟩

def otherTap : Cookbook := ⟨"b", "/b", some (sha256Hex [])⟩

def goodTap : Cookbook := ⟨"c", "/c", some (sha256Hex [])⟩

def taps : List Cookbook := [otherTap, lostTap, goodTap]

def toolRecipe : ResolvedRecipe := ⟨"com.example.Tool", "x", "x", "", none⟩

theorem consult_lostTap : consult threeTaps oneRecipe "com.example.Tool" lostTap = .unreadable := rfl

theorem consult_otherTap :
    consult threeTaps oneRecipe "com.example.Tool" otherTap = .notFound := by
  have hread : threeTaps.read (joinPath (cookbookMetadataDir threeTaps otherTap)
      (utf8 "root.json")) = .ok [] := rfl
  rw [consult_readable rfl hread, if_neg (not_not.2 rfl)]
  rfl

theorem consult_goodTap :
    consult threeTaps oneRecipe "com.example.Tool" goodTap = .answered toolRecipe := by
  have hread : threeTaps.read (joinPath (cookbookMetadataDir threeTaps goodTap)
      (utf8 "root.json")) = .ok [] := rfl
  rw [consult_readable rfl hread, if_neg (not_not.2 rfl)]
  rfl

theorem resolveAgainst_taps :
    resolveAgainst threeTaps oneRecipe taps "com.example.Tool" = .ok toolRecipe := by
  unfold resolveAgainst taps resolveLoop resolveLoop resolveLoop
  rw [consult_otherTap, consult_lostTap, consult_goodTap]
  rfl

/-- The index before has no such recipe, and the answer is the same without the lost root. -/
theorem resolve_precedence_taps :
    Lacks threeTaps oneRecipe "com.example.Tool" otherTap [] ∧
    resolveAgainst threeTaps oneRecipe [otherTap, goodTap] "com.example.Tool" = .ok toolRecipe := by
  obtain ⟨⟨before, c, after, hsplit, hans, hbefore⟩, hskip⟩ :=
    resolve_precedence threeTaps oneRecipe taps "com.example.Tool" toolRecipe resolveAgainst_taps
  have hmem : otherTap ∈ before := by
    cases before with
    | nil =>
      obtain ⟨rfl, -⟩ := List.cons.inj hsplit
      rw [consult_otherTap] at hans
      cases hans
    | cons c' before =>
      obtain ⟨rfl, -⟩ := List.cons.inj hsplit
      exact List.mem_cons_self
  refine ⟨(hbefore otherTap hmem _ [] rfl rfl).2 fun e he => ?_,
    hskip [otherTap] lostTap [goodTap] _ .invalid rfl rfl rfl⟩
  rw [consult_otherTap] at he
  cases he

/-- A pinned cookbook without a root is passed over, and a lower one answers. -/
theorem lost_root_passed_over :
    ¬ FailClosed threeTaps oneRecipe [lostTap, goodTap] "com.example.Tool" := by
  intro h
  have hanswer : resolveAgainst threeTaps oneRecipe [lostTap, goodTap] "com.example.Tool" =
      .ok toolRecipe := by
    unfold resolveAgainst resolveLoop resolveLoop
    rw [consult_lostTap, consult_goodTap]
    rfl
  obtain ⟨before, c, after, hsplit, hans, hbefore⟩ := h toolRecipe hanswer
  cases before with
  | nil =>
    obtain ⟨rfl, -⟩ := List.cons.inj hsplit
    rw [consult_lostTap] at hans
    cases hans
  | cons c' before =>
    obtain ⟨rfl, -⟩ := List.cons.inj hsplit
    obtain ⟨root, hread, -⟩ := hbefore lostTap List.mem_cons_self _ rfl
    cases hread

end Arlen.Forage
