import Arlen.Lib.Utf8
import Arlen.Lib.Text

/-!
# Paths

`std::path::Path` on Unix. `Components` drops repeated separators and `.` but keeps
`..`, and equality and `starts_with` compare components. `resolve` is the path
those components denote once each `..` has taken back the component before it:
for a spelling without `..` the components are the path.
-/

namespace Arlen.Lib.Path

/-- The bytes of a path. -/
abbrev PathBuf := Bytes

inductive Component where
  | rootDir
  | curDir
  | parentDir
  | normal (name : Bytes)
deriving DecidableEq, Repr

/-- What stands between two separators, behind the first component. -/
def piece (b : Bytes) : Option Component :=
  if b = [] ∨ b = utf8 "." then none
  else if b = utf8 ".." then some .parentDir
  else some (.normal b)

def isAbsolute (p : PathBuf) : Bool := p.head? = some 0x2f

/-- `Path::components`. A `.` counts at the head of a relative path only. -/
def components (p : PathBuf) : List Component :=
  let pieces := p.splitOn 0x2f
  if isAbsolute p then .rootDir :: pieces.filterMap piece
  else if pieces.head? = some (utf8 ".") then .curDir :: pieces.tail.filterMap piece
  else pieces.filterMap piece

/-- `a == b` on paths. -/
def eqPath (a b : PathBuf) : Bool := components a = components b

/-- `Path::starts_with`. -/
def startsWith (p base : PathBuf) : Bool := (components base).isPrefixOf (components p)

/-- `Path::file_name`. -/
def fileName (p : PathBuf) : Option Bytes :=
  match (components p).getLast? with
  | some (.normal name) => some name
  | _ => none

/-- A name is one of the pieces of the path, and no `..`. -/
theorem mem_of_normal {p : PathBuf} {b : Bytes} (h : .normal b ∈ components p) :
    b ∈ p.splitOn 0x2f ∧ b ≠ utf8 ".." := by
  have hpiece : ∀ pieces : List Bytes, pieces ⊆ p.splitOn 0x2f →
      Component.normal b ∈ pieces.filterMap piece → b ∈ p.splitOn 0x2f ∧ b ≠ utf8 ".." := by
    intro pieces hsub hm
    obtain ⟨b', hb', hp⟩ := List.mem_filterMap.1 hm
    unfold piece at hp
    split_ifs at hp with h₁ h₂
    · cases hp
    · obtain rfl := Component.normal.inj (Option.some.inj hp)
      exact ⟨hsub hb', h₂⟩
  unfold components at h
  dsimp only at h
  split at h
  · exact hpiece _ (fun _ h => h) (List.mem_of_ne_of_mem (fun h => by cases h) h)
  · split at h
    · exact hpiece _ (List.tail_sublist _).subset (List.mem_of_ne_of_mem (fun h => by cases h) h)
    · exact hpiece _ (fun _ h => h) h

theorem not_mem_of_normal {p : PathBuf} {b : Bytes} (h : .normal b ∈ components p) : 0x2f ∉ b :=
  Text.not_mem_of_mem_splitOn (mem_of_normal h).1

/-! ## Lexical resolution -/

/-- One component, from the names that stand before it. -/
def resolveStep (names : List Bytes) : Component → List Bytes
  | .rootDir => []
  | .curDir => names
  | .parentDir => names.dropLast
  | .normal name => names ++ [name]

/-- The names an absolute path denotes. -/
def resolve (p : PathBuf) : List Bytes := (components p).foldl resolveStep []

/-- The path is written without `..`. -/
def Plain (p : PathBuf) : Prop := Component.parentDir ∉ components p

instance (p : PathBuf) : Decidable (Plain p) := inferInstanceAs (Decidable (¬ _))

variable {p q : PathBuf}

theorem foldl_resolveStep_normal (names start : List Bytes) :
    (names.map Component.normal).foldl resolveStep start = start ++ names := by
  induction names generalizing start with
  | nil => simp
  | cons n names ih =>
    rw [List.map_cons, List.foldl_cons, ih, resolveStep, List.append_assoc]
    rfl

/-- Pieces without `..` are names. -/
theorem exists_names {pieces : List Bytes}
    (h : Component.parentDir ∉ pieces.filterMap piece) :
    ∃ names : List Bytes, pieces.filterMap piece = names.map .normal := by
  induction pieces with
  | nil => exact ⟨[], rfl⟩
  | cons b pieces ih =>
    have htail : Component.parentDir ∉ pieces.filterMap piece := fun hm =>
      h (List.mem_filterMap.2 (by
        obtain ⟨a, ha, hp⟩ := List.mem_filterMap.1 hm
        exact ⟨a, List.mem_cons_of_mem _ ha, hp⟩))
    obtain ⟨names, hnames⟩ := ih htail
    cases hb : piece b with
    | none =>
      rw [List.filterMap_cons_none hb, hnames]
      exact ⟨names, rfl⟩
    | some c =>
      have hc : ∃ n, c = .normal n := by
        unfold piece at hb
        split_ifs at hb with h₁ h₂
        · refine absurd (List.mem_filterMap.2 ⟨b, List.mem_cons_self, ?_⟩) h
          rw [piece, if_neg h₁, if_pos h₂]
        · exact ⟨b, (Option.some.inj hb).symm⟩
      obtain ⟨n, rfl⟩ := hc
      rw [List.filterMap_cons_some hb, hnames]
      exact ⟨n :: names, rfl⟩

/-- **A plain absolute path** is the root and the names it denotes. -/
theorem components_of_plain (habs : isAbsolute p = true) (h : Plain p) :
    components p = .rootDir :: (resolve p).map .normal := by
  have hcomp : components p = .rootDir :: (p.splitOn 0x2f).filterMap piece := if_pos habs
  have htail : Component.parentDir ∉ (p.splitOn 0x2f).filterMap piece := fun hm =>
    h (by rw [hcomp]; exact List.mem_cons_of_mem _ hm)
  obtain ⟨names, hnames⟩ := exists_names htail
  have hres : resolve p = names := by
    unfold resolve
    rw [hcomp, hnames, List.foldl_cons, foldl_resolveStep_normal]
    rfl
  rw [hres, hcomp, hnames]

theorem map_normal_inj {a b : List Bytes} :
    a.map Component.normal = b.map .normal ↔ a = b :=
  ⟨fun h => List.map_injective_iff.2 (fun _ _ => Component.normal.inj) h, congrArg _⟩

/-- Plain paths are equal when they denote the same names. -/
theorem eqPath_iff (hp : isAbsolute p = true) (hq : isAbsolute q = true) (hp' : Plain p)
    (hq' : Plain q) : eqPath p q = true ↔ resolve p = resolve q := by
  unfold eqPath
  rw [decide_eq_true_eq, components_of_plain hp hp', components_of_plain hq hq',
    List.cons_inj_right, map_normal_inj]

/-- One plain path leads with another when its names do. -/
theorem startsWith_iff (hp : isAbsolute p = true) (hq : isAbsolute q = true) (hp' : Plain p)
    (hq' : Plain q) : startsWith p q = true ↔ resolve q <+: resolve p := by
  unfold startsWith
  rw [List.isPrefixOf_iff_prefix, components_of_plain hp hp', components_of_plain hq hq',
    List.cons_prefix_cons, and_iff_right rfl]
  constructor
  · rintro ⟨r, hr⟩
    obtain ⟨a, b, hab, ha, -⟩ := List.map_eq_append_iff.1 hr.symm
    rw [map_normal_inj] at ha
    exact ⟨b, by rw [hab, ha]⟩
  · exact fun h => h.map _

/-! ## Going down -/

/-- `Path::join`, of a relative path. -/
def push (p q : PathBuf) : PathBuf :=
  if p = [] ∨ p.getLast? = some 0x2f then p ++ q else p ++ 0x2f :: q

theorem components_append_slash (hp : p ≠ []) (q : PathBuf) :
    components (p ++ 0x2f :: q) = components p ++ (q.splitOn 0x2f).filterMap piece := by
  have habs : isAbsolute (p ++ 0x2f :: q) = isAbsolute p := by
    unfold isAbsolute
    rw [List.head?_append_of_ne_nil _ hp]
  have hpieces := List.splitOn_ne_nil 0x2f p
  unfold components
  dsimp only
  rw [habs, List.splitOn_append_cons_self, List.head?_append_of_ne_nil _ hpieces,
    List.tail_append_of_ne_nil hpieces, List.filterMap_append, List.filterMap_append]
  split
  · rfl
  · split <;> rfl

theorem components_of_isAbsolute (habs : isAbsolute p = true) :
    components p = .rootDir :: (p.splitOn 0x2f).filterMap piece := if_pos habs

/-- A name is one component more. -/
theorem components_push {n : Bytes} (hp : p ≠ []) (hn : piece n = some (.normal n))
    (hslash : 0x2f ∉ n) : components (push p n) = components p ++ [.normal n] := by
  have hname : (n.splitOn 0x2f).filterMap piece = [.normal n] := by
    rw [List.splitOn_eq_singleton hslash, List.filterMap_cons_some hn, List.filterMap_nil]
  unfold push
  by_cases hlast : p.getLast? = some 0x2f
  · obtain ⟨q, rfl⟩ := List.getLast?_eq_some_iff.1 hlast
    rw [if_pos (.inr hlast), List.append_assoc, List.singleton_append]
    by_cases hq : q = []
    · subst hq
      have hcons : (0x2f :: n).splitOn (0x2f : UInt8) = [] :: n.splitOn 0x2f :=
        List.splitOn_append_cons_self [] n
      rw [List.nil_append, List.nil_append, components_of_isAbsolute rfl, hcons, List.filterMap_cons_none rfl, hname]
      rfl
    · rw [components_append_slash hq, components_append_slash hq, hname]
      simp [piece]
  · rw [if_neg (not_or.2 ⟨hp, hlast⟩), components_append_slash hp, hname]

theorem components_ne_nil (hp : p ≠ []) : components p ≠ [] := by
  unfold components
  dsimp only
  split
  · exact List.cons_ne_nil _ _
  · next habs =>
    split
    · exact List.cons_ne_nil _ _
    · next hdot =>
      obtain ⟨c, r, rfl⟩ := List.exists_cons_of_ne_nil hp
      obtain ⟨b, bs, hbs⟩ := List.exists_cons_of_ne_nil (List.splitOn_ne_nil 0x2f r)
      have hc : ¬(c == 0x2f) = true := fun hc => habs (decide_eq_true (congrArg some (eq_of_beq hc)))
      rw [List.splitOn_cons_eq_if_modifyHead, if_neg hc, hbs, List.modifyHead_cons] at hdot ⊢
      have hsome : ∃ k, piece (c :: b) = some k := by
        unfold piece
        rw [if_neg]
        · split
          · exact ⟨_, rfl⟩
          · exact ⟨_, rfl⟩
        · rintro (h | h)
          · cases h
          · exact hdot (congrArg some h)
      obtain ⟨k, hk⟩ := hsome
      rw [List.filterMap_cons_some hk]
      exact List.cons_ne_nil _ _

end Arlen.Lib.Path
