import Arlen.Lib.Walk
import Mathlib.Data.Finset.Sort
import Mathlib.Data.List.Destutter
import Mathlib.Data.String.Basic

/-!
# The id manifest of a capsule

`expand_scope` (`contracts/capsule/src/scope.rs`) and its counterpart over the live
graph, `capsule_expand` (`daemons/knowledge/src/capsule.rs`), which reads the
neighbours through a query that may fail and refuses a manifest past a bound.
-/

namespace Arlen.Capsule

open Arlen.Lib

structure CapsuleScope where
  roots : List String
  expandHops : Nat
deriving DecidableEq, Repr

def expandScope (scope : CapsuleScope) (neighbors : String → List String) : Finset String :=
  let included := scope.roots.toFinset
  walk neighbors scope.expandHops included (included.sort (· ≤ ·))

/-! ## The live walk -/

def maxCapsuleManifest : Nat := 5000

def tooLarge : String := "capsule scope too large: more than 5000 nodes"

/-- The rows the graph answers for a node, or why it could not. -/
abbrev Query := String → Except String (List (List String))

/-- The ids in the first column, sorted and without repetitions. -/
def capsuleIds (rows : List (List String)) : List String :=
  (((rows.filterMap List.head?).filter (· ≠ "")).mergeSort (· ≤ ·)).destutter (· ≠ ·)

def capsuleNeighbors (query : Query) (nodeId : String) : Except String (List String) := do
  let rows ← query nodeId
  pure (capsuleIds rows)

/-- `visit`, refusing what makes the set too large. -/
def visitCapped (acc : Finset String × List String) (x : String) :
    Except String (Finset String × List String) :=
  if x ∈ acc.1 then .ok acc
  else if maxCapsuleManifest < (insert x acc.1).card then .error tooLarge
  else .ok (insert x acc.1, acc.2 ++ [x])

def hopCapped (query : Query) (included : Finset String) (frontier : List String) :
    Except String (Finset String × List String) :=
  frontier.foldlM (fun acc node => do
    let ids ← capsuleNeighbors query node
    ids.foldlM visitCapped acc) (included, [])

def walkCapped (query : Query) : Nat → Finset String → List String →
    Except String (Finset String)
  | 0, included, _ => .ok included
  | n + 1, included, frontier =>
    if frontier = [] then .ok included
    else do
      let next ← hopCapped query included frontier
      walkCapped query n next.1 next.2

def capsuleExpand (query : Query) (scope : CapsuleScope) : Except String (List String) :=
  let included := scope.roots.toFinset
  if maxCapsuleManifest < included.card then .error tooLarge
  else do
    let manifest ← walkCapped query scope.expandHops included (included.sort (· ≤ ·))
    pure (manifest.sort (· ≤ ·))

/-! ## What the manifest is -/

variable {neighbors neighbors' : String → List String} {scope : CapsuleScope} {x : String}
  {roots roots' : List String} {hops hops' : Nat}

/-- **The manifest is what lies within the hops of a root.** -/
theorem mem_expandScope :
    x ∈ expandScope scope neighbors ↔ Within neighbors scope.roots scope.expandHops x := by
  have hsat : Saturated neighbors scope.roots.toFinset (scope.roots.toFinset.sort (· ≤ ·)) := by
    refine ⟨fun y hy => (Finset.mem_sort (· ≤ ·)).1 hy, fun y hy hn => ?_⟩
    exact absurd ((Finset.mem_sort (· ≤ ·)).2 hy) hn
  unfold expandScope
  rw [mem_walk hsat]
  simp only [List.mem_toFinset, Within]

theorem expandScope_subset (hhops : hops ≤ hops') (hroots : ∀ r ∈ roots, r ∈ roots')
    (hne : ∀ y, ∀ z ∈ neighbors y, z ∈ neighbors' y) :
    expandScope ⟨roots, hops⟩ neighbors ⊆ expandScope ⟨roots', hops'⟩ neighbors' := by
  intro x hx
  rw [mem_expandScope] at hx ⊢
  exact hx.mono hhops hroots hne

theorem expandScope_congr (hroots : ∀ r, r ∈ roots ↔ r ∈ roots')
    (hne : ∀ y z, z ∈ neighbors y ↔ z ∈ neighbors' y) :
    expandScope ⟨roots, hops⟩ neighbors = expandScope ⟨roots', hops⟩ neighbors' := by
  refine Finset.Subset.antisymm ?_ ?_
  · exact expandScope_subset (Nat.le_refl _) (fun r => (hroots r).1) fun y z => (hne y z).1
  · exact expandScope_subset (Nat.le_refl _) (fun r => (hroots r).2) fun y z => (hne y z).2

/-! ## The live walk is the walk, up to its bound -/

section Capped

variable {query : Query} {rows : String → List (List String)}
  {acc : Finset String × List String} {l frontier : List String} {included : Finset String}

/-- A set with at most as many ids as a manifest may have, or a refusal. -/
def capped {α : Type} (size : α → Nat) (a : α) : Except String α :=
  if maxCapsuleManifest < size a then .error tooLarge else .ok a

theorem card_le_visit (acc : Finset String × List String) (l : List String) :
    acc.1.card ≤ (l.foldl visit acc).1.card := by
  refine Finset.card_le_card fun x hx => ?_
  exact mem_foldl_visit.2 (Or.inl hx)

theorem foldlM_visitCapped (h : acc.1.card ≤ maxCapsuleManifest) :
    l.foldlM visitCapped acc = capped (·.1.card) (l.foldl visit acc) := by
  induction l generalizing acc with
  | nil => exact (if_neg (Nat.not_lt.2 h)).symm
  | cons x l ih =>
    rw [List.foldlM_cons, List.foldl_cons]
    unfold visitCapped
    by_cases hx : x ∈ acc.1
    · rw [if_pos hx, visit_of_mem hx]
      exact ih h
    · rw [if_neg hx, visit_of_not_mem hx]
      split
      · next hlarge =>
        have hle := card_le_visit (insert x acc.1, acc.2 ++ [x]) l
        unfold capped
        rw [if_pos (Nat.lt_of_lt_of_le hlarge hle)]
        rfl
      · next hsmall => exact ih (Nat.le_of_not_lt hsmall)

theorem hopCapped_eq (hq : ∀ id, query id = .ok (rows id))
    (h : included.card ≤ maxCapsuleManifest) (frontier : List String) :
    hopCapped query included frontier =
      capped (·.1.card) (hop (fun id => capsuleIds (rows id)) included frontier) := by
  have hids : ∀ id, capsuleNeighbors query id = .ok (capsuleIds (rows id)) := by
    intro id
    unfold capsuleNeighbors
    rw [hq]
    rfl
  have hstep : ∀ (l : List String) acc, l.foldlM (fun acc node => do
        let ids ← capsuleNeighbors query node
        ids.foldlM visitCapped acc) acc =
      (l.flatMap fun id => capsuleIds (rows id)).foldlM visitCapped acc := by
    intro l
    induction l with
    | nil => exact fun _ => rfl
    | cons node l ih =>
      intro acc
      rw [List.foldlM_cons, List.flatMap_cons, List.foldlM_append, hids node]
      exact congrArg (_ >>= ·) (funext ih)
  unfold hopCapped hop
  rw [hstep, foldlM_visitCapped h, foldl_visit_eq_flatMap]

theorem walkCapped_eq (hq : ∀ id, query id = .ok (rows id))
    (h : included.card ≤ maxCapsuleManifest) (n : Nat) (frontier : List String) :
    walkCapped query n included frontier =
      capped Finset.card (walk (fun id => capsuleIds (rows id)) n included frontier) := by
  induction n generalizing included frontier with
  | zero => exact (if_neg (Nat.not_lt.2 h)).symm
  | succ n ih =>
    rw [walkCapped, walk]
    split
    · exact (if_neg (Nat.not_lt.2 h)).symm
    · rw [hopCapped_eq hq h]
      unfold capped
      split
      · next hlarge =>
        have hle := Finset.card_le_card (@subset_walk _ _ (fun id => capsuleIds (rows id)) n
          (hop (fun id => capsuleIds (rows id)) included frontier).1
          (hop (fun id => capsuleIds (rows id)) included frontier).2)
        rw [if_pos (Nat.lt_of_lt_of_le hlarge hle)]
        rfl
      · next hsmall => exact ih (Nat.le_of_not_lt hsmall) _

/-- **The live walk** returns the manifest, or refuses one that is too large. -/
theorem capsuleExpand_eq (hq : ∀ id, query id = .ok (rows id)) :
    capsuleExpand query scope =
      let manifest := expandScope scope fun id => capsuleIds (rows id)
      if maxCapsuleManifest < manifest.card then .error tooLarge
      else .ok (manifest.sort (· ≤ ·)) := by
  unfold capsuleExpand expandScope
  simp only
  split
  · next hlarge =>
    have hle := Finset.card_le_card (@subset_walk _ _ (fun id => capsuleIds (rows id))
      scope.expandHops scope.roots.toFinset (scope.roots.toFinset.sort (· ≤ ·)))
    rw [if_pos (by omega)]
  · next hsmall =>
    rw [walkCapped_eq hq (Nat.le_of_not_lt hsmall)]
    unfold capped
    split
    · rfl
    · rfl

end Capped

/-! ## Past the bound -/

/-- More roots than a manifest may have ids. -/
def manyRoots : List String :=
  (List.range (maxCapsuleManifest + 1)).map fun n => String.ofList (List.replicate n 'a')

theorem nodup_manyRoots : manyRoots.Nodup := by
  refine List.Nodup.map ?_ List.nodup_range
  intro n m h
  have hlen := congrArg (fun s : String => s.toList.length) h
  simpa using hlen

/-- A manifest the walk finds and the live walk refuses. -/
theorem capsuleExpand_refuses : capsuleExpand (fun _ => .ok []) ⟨manyRoots, 0⟩ = .error tooLarge := by
  unfold capsuleExpand
  rw [if_pos]
  rw [List.toFinset_card_of_nodup nodup_manyRoots, manyRoots, List.length_map, List.length_range]
  exact Nat.lt_succ_self _

/-- The live walk does not return the manifest of every scope: that of `manyRoots` is
refused. -/
theorem live_manifest_not_total :
    ¬ ∀ (query : Query) (rows : String → List (List String)) (scope : CapsuleScope),
      (∀ id, query id = .ok (rows id)) →
        capsuleExpand query scope =
          .ok ((expandScope scope fun id => capsuleIds (rows id)).sort (· ≤ ·)) := by
  intro h
  have hok := h (fun _ => .ok []) (fun _ => []) ⟨manyRoots, 0⟩ fun _ => rfl
  rw [capsuleExpand_refuses] at hok
  cases hok

end Arlen.Capsule
