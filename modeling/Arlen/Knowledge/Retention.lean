import Arlen.Knowledge.Scopes
import Arlen.Lib.Runs
import Mathlib.Data.List.Dedup

/-!
# The collapse of a grant history

`collapse_grant_history` of `daemons/knowledge/src/retention.rs`: of the superseded grants
of an app, in the order they were issued, those between the first and the last of a run of
one ceiling are deleted. The runs are those of the superseded grants alone. Where a live
or revoked grant of another ceiling stands between them, the ends of two runs of the
history are the middle of one of theirs.
-/

namespace Arlen.Knowledge

open Arlen.Lib

/-- The columns of a Grant that the pass reads; a cell that is not text reads as empty. -/
structure GrantNode where
  id : String
  appId : String
  declaredCeiling : String
  issuedAt : Int
  superseded : Bool
  revoked : Bool
deriving DecidableEq, Repr

/-- The Grant nodes of the graph in the order of app and issue time. -/
structure GrantHistory where
  nodes : List GrantNode
  ids : (nodes.map GrantNode.id).Nodup
  ordered : nodes.Pairwise fun a b =>
    a.appId < b.appId ∨ a.appId = b.appId ∧ a.issuedAt ≤ b.issuedAt

/-- `g.superseded = true AND g.revoked = false`. -/
def GrantNode.collapsible (g : GrantNode) : Bool := g.superseded && !g.revoked

/-- The rows of the query: app, id and ceiling. -/
def grantRows (nodes : List GrantNode) : List (String × String × String) :=
  (nodes.filter GrantNode.collapsible).map fun g => (g.appId, g.id, g.declaredCeiling)

/-- The row has text in all its cells. -/
def rowReadable (r : String × String × String) : Bool := r.1 ≠ "" && r.2.1 ≠ "" && r.2.2 ≠ ""

/-- `per_app`: the apps in order, each with its ids and ceilings. -/
def perApp (rows : List (String × String × String)) : List (String × List (String × String)) :=
  (sortStrings (rows.map Prod.fst).dedup).map fun app =>
    (app, (rows.filter (·.1 = app)).map Prod.snd)

/-- `collapsible_grants`: of each run of one ceiling all but the first and the last. -/
def collapsibleGrants : List (String × String) → List String
  | [] => []
  | r :: rest =>
    let run := rest.takeWhile (·.2 = r.2)
    (if 1 < run.length then run.dropLast.map Prod.fst else []) ++
      collapsibleGrants (rest.dropWhile (·.2 = r.2))
termination_by rows => rows.length
decreasing_by exact Nat.lt_succ_of_le (List.dropWhile_sublist _).length_le

/-- The ids the pass sets out to delete. -/
def dropped (nodes : List GrantNode) : List String :=
  (perApp ((grantRows nodes).filter rowReadable)).flatMap fun p => collapsibleGrants p.2

/-- `MATCH (g:Grant {id}) WHERE g.superseded = true AND g.revoked = false DETACH DELETE g`. -/
def deleteGrant (nodes : List GrantNode) (id : String) : List GrantNode :=
  nodes.filter fun g => !(g.id = id && g.collapsible)

/-- The pass, with the ids whose delete the graph carries out. -/
def collapseGrantHistory (carried : String → Bool) (nodes : List GrantNode) : List GrantNode :=
  (dropped nodes).foldl (fun nodes id => if carried id then deleteGrant nodes id else nodes) nodes

/-! ## What the pass deletes -/

variable {nodes : List GrantNode} {carried : String → Bool} {g : GrantNode} {app id : String}

theorem collapsibleGrants_eq (rows : List (String × String)) :
    collapsibleGrants rows = (middles Prod.snd rows).map Prod.fst := by
  induction rows using collapsibleGrants.induct with
  | case1 => simp [collapsibleGrants, middles]
  | case2 r rest ih =>
    unfold collapsibleGrants middles
    dsimp only
    rw [ih, List.map_append]
    congr 1
    split
    · rfl
    · next hshort =>
      -- a run of one or two has no middle
      have hnil : (rest.takeWhile (·.2 = r.2)).dropLast = [] :=
        List.eq_nil_of_length_eq_zero (by rw [List.length_dropLast]; omega)
      rw [hnil, List.map_nil]

/-- The superseded grants of an app, as the pass reads them. -/
def supersededOf (nodes : List GrantNode) (app : String) : List GrantNode :=
  nodes.filter fun g =>
    g.collapsible && rowReadable (g.appId, g.id, g.declaredCeiling) && g.appId = app

/-- All grants of an app. -/
def historyOf (nodes : List GrantNode) (app : String) : List GrantNode :=
  nodes.filter (·.appId = app)

theorem perApp_rows (nodes : List GrantNode) (app : String) :
    (((grantRows nodes).filter rowReadable).filter (·.1 = app)).map Prod.snd =
      (supersededOf nodes app).map fun g => (g.id, g.declaredCeiling) := by
  unfold grantRows supersededOf
  rw [List.filter_map, List.filter_map, List.map_map, List.filter_filter, List.filter_filter]
  refine congrArg₂ List.map rfl (List.filter_congr fun g _ => ?_)
  simp only [Function.comp]
  rw [Bool.and_comm, Bool.and_comm (decide _), Bool.and_assoc]

theorem mem_collapsibleGrants {gs : List GrantNode} :
    id ∈ collapsibleGrants (gs.map fun g => (g.id, g.declaredCeiling)) ↔
      ∃ g, Inner GrantNode.declaredCeiling gs g ∧ g.id = id := by
  rw [collapsibleGrants_eq, List.mem_map]
  simp only [mem_middles, inner_map]
  constructor
  · rintro ⟨_, ⟨g, hg, rfl⟩, rfl⟩
    exact ⟨g, hg, rfl⟩
  · rintro ⟨g, hg, rfl⟩
    exact ⟨_, ⟨g, hg, rfl⟩, rfl⟩

theorem mem_of_inner {gs : List GrantNode} (h : Inner GrantNode.declaredCeiling gs g) : g ∈ gs := by
  obtain ⟨before, after, rfl, -⟩ := h
  exact List.mem_append_right _ List.mem_cons_self

theorem mem_supersededOf : g ∈ supersededOf nodes app ↔ g ∈ nodes ∧ g.collapsible = true ∧
    rowReadable (g.appId, g.id, g.declaredCeiling) = true ∧ g.appId = app := by
  unfold supersededOf
  rw [List.mem_filter, Bool.and_eq_true, Bool.and_eq_true, decide_eq_true_iff, and_assoc]

theorem mem_dropped : id ∈ dropped nodes ↔
    ∃ app g, Inner GrantNode.declaredCeiling (supersededOf nodes app) g ∧ g.id = id := by
  unfold dropped perApp
  simp only [List.mem_flatMap, List.mem_map]
  constructor
  · rintro ⟨_, ⟨app, -, rfl⟩, hid⟩
    rw [perApp_rows] at hid
    exact ⟨app, mem_collapsibleGrants.1 hid⟩
  · rintro ⟨app, g, hg, rfl⟩
    obtain ⟨hmem, hcol, hread, rfl⟩ := mem_supersededOf.1 (mem_of_inner hg)
    refine ⟨_, ⟨g.appId, ?_, rfl⟩, ?_⟩
    · unfold sortStrings
      rw [List.mem_mergeSort, List.mem_dedup]
      refine List.mem_map.2 ⟨(g.appId, g.id, g.declaredCeiling), List.mem_filter.2 ⟨?_, hread⟩, rfl⟩
      exact List.mem_map.2 ⟨g, List.mem_filter.2 ⟨hmem, hcol⟩, rfl⟩
    · rw [perApp_rows]
      exact mem_collapsibleGrants.2 ⟨g, hg, rfl⟩

theorem foldl_delete (ids : List String) (nodes : List GrantNode) :
    ids.foldl (fun nodes id => if carried id then deleteGrant nodes id else nodes) nodes =
      nodes.filter fun g => !(g.collapsible && carried g.id && g.id ∈ ids) := by
  induction ids generalizing nodes with
  | nil =>
    refine (List.filter_eq_self.2 fun g _ => ?_).symm
    simp
  | cons id ids ih =>
    rw [List.foldl_cons, ih]
    cases hid : carried id with
    | true =>
      rw [if_pos rfl]
      unfold deleteGrant
      rw [List.filter_filter]
      refine List.filter_congr fun g _ => ?_
      by_cases heq : g.id = id
      · cases hcol : g.collapsible <;> simp [heq, hid]
      · simp [heq]
    | false =>
      rw [if_neg Bool.false_ne_true]
      refine List.filter_congr fun g _ => ?_
      by_cases heq : g.id = id
      · simp [heq, hid]
      · simp [heq]

/-! ## The history keeps its form -/

namespace GrantHistory

variable {h : GrantHistory}

theorem nodup (h : GrantHistory) : h.nodes.Nodup := h.ids.of_map

/-- The pass over a history. -/
def collapse (h : GrantHistory) (carried : String → Bool) : GrantHistory where
  nodes := collapseGrantHistory carried h.nodes
  ids := by
    unfold collapseGrantHistory
    rw [foldl_delete]
    exact h.ids.sublist (List.filter_sublist.map _)
  ordered := by
    unfold collapseGrantHistory
    rw [foldl_delete]
    exact h.ordered.sublist List.filter_sublist

/-- The grant stays: it is no inner one of its app's superseded grants, or its delete is
not carried out. -/
def Stays (h : GrantHistory) (carried : String → Bool) (g : GrantNode) : Prop :=
  carried g.id = true → ¬ Inner GrantNode.declaredCeiling (supersededOf h.nodes g.appId) g

/-- What the deletes leave. -/
def keeps (h : GrantHistory) (carried : String → Bool) (g : GrantNode) : Bool :=
  !(g.collapsible && carried g.id && g.id ∈ dropped h.nodes)

theorem nodes_collapse (h : GrantHistory) (carried : String → Bool) :
    (h.collapse carried).nodes = h.nodes.filter (h.keeps carried) := foldl_delete _ _

theorem keeps_iff (hmem : g ∈ h.nodes) : h.keeps carried g = true ↔ h.Stays carried g := by
  unfold keeps Stays
  simp only [Bool.not_eq_true', Bool.and_eq_false_iff, decide_eq_false_iff_not, mem_dropped]
  constructor
  · rintro hkept hcar hin
    have hcol := (mem_supersededOf.1 (mem_of_inner hin)).2.1
    rcases hkept with (hnot | hnot) | hnot
    · exact Bool.false_ne_true (hnot.symm.trans hcol)
    · exact Bool.false_ne_true (hnot.symm.trans hcar)
    · exact hnot ⟨_, g, hin, rfl⟩
  · intro hstays
    by_cases hcar : carried g.id = true
    · refine .inr ?_
      rintro ⟨app, g', hin, hid⟩
      obtain ⟨hmem', -, -, rfl⟩ := mem_supersededOf.1 (mem_of_inner hin)
      obtain rfl := List.inj_on_of_nodup_map h.ids hmem' hmem hid
      exact hstays hcar hin
    · exact .inl (.inr (Bool.eq_false_of_not_eq_true hcar))

theorem mem_collapse : g ∈ (h.collapse carried).nodes ↔ g ∈ h.nodes ∧ h.Stays carried g := by
  rw [nodes_collapse, List.mem_filter]
  exact and_congr_right keeps_iff

theorem historyOf_collapse (app : String) : historyOf (h.collapse carried).nodes app =
    (historyOf h.nodes app).filter (h.keeps carried) := by
  unfold historyOf
  rw [nodes_collapse, List.filter_filter, List.filter_filter]
  exact List.filter_congr fun g _ => Bool.and_comm _ _

theorem supersededOf_collapse (app : String) : supersededOf (h.collapse carried).nodes app =
    (supersededOf h.nodes app).filter (h.keeps carried) := by
  unfold supersededOf
  rw [nodes_collapse, List.filter_filter, List.filter_filter]
  exact List.filter_congr fun g _ => Bool.and_comm _ _

/-! ## What the history is to keep -/

/-- The pass erases no change of an app's authority. -/
structure KeepsAuthority (h : GrantHistory) (carried : String → Bool) : Prop where
  /-- Every run of one ceiling in the full history keeps its first and its last grant. -/
  ends : ∀ app g, RunEnd GrantNode.declaredCeiling (historyOf h.nodes app) g →
    g ∈ (h.collapse carried).nodes
  /-- Revoked and live grants stay. -/
  others : ∀ g ∈ h.nodes, g.revoked = true ∨ g.superseded = false →
    g ∈ (h.collapse carried).nodes
  /-- Neighbours of two ceilings were neighbours before. -/
  changes : ∀ app before x y after,
    historyOf (h.collapse carried).nodes app = before ++ x :: y :: after →
    x.declaredCeiling ≠ y.declaredCeiling →
    ∃ before' after', historyOf h.nodes app = before' ++ x :: y :: after'
  /-- Once every delete went through, a second pass deletes nothing. -/
  again : (∀ id, carried id = true) → ∀ carried',
    ((h.collapse carried).collapse carried').nodes = (h.collapse carried).nodes

theorem mem_of_runEnd {gs : List GrantNode} (h : RunEnd GrantNode.declaredCeiling gs g) : g ∈ gs := by
  obtain ⟨before, after, rfl, -⟩ := h
  exact List.mem_append_right _ List.mem_cons_self

/-- A second pass finds no run with a middle. -/
theorem collapse_collapse (hall : ∀ id, carried id = true) (carried' : String → Bool) :
    ((h.collapse carried).collapse carried').nodes = (h.collapse carried).nodes := by
  rw [nodes_collapse (h.collapse carried), List.filter_eq_self]
  intro g hg
  rw [keeps_iff hg]
  intro _
  rw [supersededOf_collapse]
  refine not_inner_filter (h.nodup.filter _) fun z hz => ?_
  obtain ⟨hmem, -, -, happ⟩ := mem_supersededOf.1 hz
  rw [← Bool.not_eq_true, keeps_iff hmem]
  unfold Stays
  rw [happ]
  simp [hall]

/-- Authority is kept exactly when no grant whose delete goes through stands between two
superseded grants of its own ceiling, and next to a grant of another in the full history. -/
theorem collapse_keeps_authority_iff (h : GrantHistory) (carried : String → Bool) :
    h.KeepsAuthority carried ↔
      ¬ ∃ g, carried g.id = true ∧
        RunEnd GrantNode.declaredCeiling (historyOf h.nodes g.appId) g ∧
        Inner GrantNode.declaredCeiling (supersededOf h.nodes g.appId) g := by
  constructor
  · rintro hkeeps ⟨g, hcar, hend, hin⟩
    exact (mem_collapse.1 (hkeeps.ends g.appId g hend)).2 hcar hin
  · intro hnone
    have hends : ∀ app g, RunEnd GrantNode.declaredCeiling (historyOf h.nodes app) g →
        g ∈ (h.collapse carried).nodes := by
      intro app g hend
      obtain ⟨hmem, happ⟩ := List.mem_filter.1 (mem_of_runEnd hend)
      obtain rfl := of_decide_eq_true happ
      exact mem_collapse.2 ⟨hmem, fun hcar hin => hnone ⟨g, hcar, hend, hin⟩⟩
    refine ⟨hends, ?_, ?_, collapse_collapse⟩
    · intro g hmem hother
      refine mem_collapse.2 ⟨hmem, fun _ hin => ?_⟩
      have hcol := (mem_supersededOf.1 (mem_of_inner hin)).2.1
      unfold GrantNode.collapsible at hcol
      rcases hother with hrev | hsup
      · rw [hrev, Bool.not_true, Bool.and_false] at hcol
        cases hcol
      · rw [hsup, Bool.false_and] at hcol
        cases hcol
    · intro app before x y after hsplit hne
      rw [historyOf_collapse] at hsplit
      refine neighbours_of_filter (fun z hz hend => ?_) hsplit hne
      have hmem := (List.mem_filter.1 hz).1
      exact (keeps_iff hmem).2 (mem_collapse.1 (hends app z hend)).2

/-- Two mints of one ceiling on each side of a revoked grant of another. -/
def interleaved : GrantHistory where
  nodes := [⟨"1", "com.a", "A", 1, true, false⟩, ⟨"2", "com.a", "A", 2, true, false⟩,
    ⟨"3", "com.a", "B", 3, false, true⟩, ⟨"4", "com.a", "A", 4, true, false⟩,
    ⟨"5", "com.a", "A", 5, true, false⟩]
  ids := by decide
  ordered := by decide

/-- The grants beside the revoked one are deleted, and with them when the app had `A`. -/
theorem interleaved_loses_ends : ¬ interleaved.KeepsAuthority fun _ => true := by
  intro hkeeps
  have hmem := hkeeps.ends "com.a" ⟨"2", "com.a", "A", 2, true, false⟩
    ⟨[⟨"1", "com.a", "A", 1, true, false⟩], _, rfl, .inr (by decide)⟩
  refine (mem_collapse.1 hmem).2 rfl ⟨[⟨"1", "com.a", "A", 1, true, false⟩],
    [⟨"4", "com.a", "A", 4, true, false⟩, ⟨"5", "com.a", "A", 5, true, false⟩], ?_, rfl, rfl⟩
  decide

end GrantHistory

end Arlen.Knowledge
