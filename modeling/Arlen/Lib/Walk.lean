import Mathlib.Data.Finset.Insert

/-!
# Breadth-first walks

A walk keeps the set it has included and the frontier, what the last hop added.
One hop looks up the neighbours of the frontier only. What has left the frontier
has its neighbours included already (`Saturated`), so that after `n` hops the set
is what lies at distance at most `n`, whatever the order of the lookups.
-/

namespace Arlen.Lib

variable {α : Type*}

/-- `k` steps along the neighbours lead from the one to the other. -/
inductive Steps (neighbors : α → List α) : Nat → α → α → Prop where
  | refl (x : α) : Steps neighbors 0 x x
  | head {k : Nat} {x y z : α} (hxy : y ∈ neighbors x) (hyz : Steps neighbors k y z) :
      Steps neighbors (k + 1) x z

/-- At distance at most `n` from one of the roots. -/
def Within (neighbors : α → List α) (roots : List α) (n : Nat) (x : α) : Prop :=
  ∃ r ∈ roots, ∃ k, k ≤ n ∧ Steps neighbors k r x

theorem Within.mono {neighbors neighbors' : α → List α} {roots roots' : List α} {n n' : Nat} {x : α}
    (hn : n ≤ n') (hr : ∀ r ∈ roots, r ∈ roots') (hne : ∀ y, ∀ z ∈ neighbors y, z ∈ neighbors' y)
    (h : Within neighbors roots n x) : Within neighbors' roots' n' x := by
  obtain ⟨r, hr', k, hk, hs⟩ := h
  refine ⟨r, hr r hr', k, hk.trans hn, ?_⟩
  clear hr' hk
  induction hs with
  | refl x => exact .refl x
  | head hxy _ ih => exact .head (hne _ _ hxy) ih

variable [DecidableEq α]

/-- Include a neighbour, and remember it when it is new. -/
def visit (acc : Finset α × List α) (x : α) : Finset α × List α :=
  if x ∈ acc.1 then acc else (insert x acc.1, acc.2 ++ [x])

/-- One hop: the neighbours of the frontier. -/
def hop (neighbors : α → List α) (included : Finset α) (frontier : List α) : Finset α × List α :=
  frontier.foldl (fun acc node => (neighbors node).foldl visit acc) (included, [])

def walk (neighbors : α → List α) : Nat → Finset α → List α → Finset α
  | 0, included, _ => included
  | n + 1, included, frontier =>
    if frontier = [] then included
    else walk neighbors n (hop neighbors included frontier).1 (hop neighbors included frontier).2

variable {neighbors : α → List α} {included : Finset α} {frontier l : List α}
  {acc : Finset α × List α} {x y : α}

theorem visit_of_mem (h : x ∈ acc.1) : visit acc x = acc := if_pos h

theorem visit_of_not_mem (h : x ∉ acc.1) : visit acc x = (insert x acc.1, acc.2 ++ [x]) := if_neg h

theorem foldl_visit_eq_flatMap (acc : Finset α × List α) (frontier : List α) :
    frontier.foldl (fun acc node => (neighbors node).foldl visit acc) acc =
      (frontier.flatMap neighbors).foldl visit acc := by
  rw [List.foldl_flatMap]

/-- What a run of visits includes. -/
theorem mem_foldl_visit : x ∈ (l.foldl visit acc).1 ↔ x ∈ acc.1 ∨ x ∈ l := by
  induction l generalizing acc with
  | nil => simp
  | cons y l ih =>
    rw [List.foldl_cons, ih]
    by_cases hy : y ∈ acc.1
    · rw [visit_of_mem hy]
      constructor
      · rintro (h | h)
        · exact Or.inl h
        · exact Or.inr (List.mem_cons_of_mem _ h)
      · rintro (h | h)
        · exact Or.inl h
        · rcases List.mem_cons.1 h with rfl | h
          · exact Or.inl hy
          · exact Or.inr h
    · rw [visit_of_not_mem hy, Finset.mem_insert, List.mem_cons]
      tauto

/-- What a run of visits remembers: what it was told before, and what is new. -/
theorem mem_next_foldl_visit :
    x ∈ (l.foldl visit acc).2 ↔ x ∈ acc.2 ∨ x ∈ l ∧ x ∉ acc.1 := by
  induction l generalizing acc with
  | nil => simp
  | cons y l ih =>
    rw [List.foldl_cons, ih]
    by_cases hy : y ∈ acc.1
    · rw [visit_of_mem hy, List.mem_cons]
      constructor
      · rintro (h | ⟨h, hn⟩)
        · exact Or.inl h
        · exact Or.inr ⟨Or.inr h, hn⟩
      · rintro (h | ⟨rfl | h, hn⟩)
        · exact Or.inl h
        · exact absurd hy hn
        · exact Or.inr ⟨h, hn⟩
    · rw [visit_of_not_mem hy]
      simp only [List.mem_append, Finset.mem_insert, List.mem_cons, List.not_mem_nil, or_false,
        not_or]
      constructor
      · rintro ((h | rfl) | ⟨h, hne, hn⟩)
        · exact Or.inl h
        · exact Or.inr ⟨Or.inl rfl, hy⟩
        · exact Or.inr ⟨Or.inr h, hn⟩
      · rintro (h | ⟨rfl | h, hn⟩)
        · exact Or.inl (Or.inl h)
        · exact Or.inl (Or.inr rfl)
        · by_cases hxy : x = y
          · exact Or.inl (Or.inr hxy)
          · exact Or.inr ⟨h, hxy, hn⟩

theorem mem_hop : x ∈ (hop neighbors included frontier).1 ↔
    x ∈ included ∨ ∃ y ∈ frontier, x ∈ neighbors y := by
  unfold hop
  rw [foldl_visit_eq_flatMap, mem_foldl_visit, List.mem_flatMap]

theorem mem_next_hop : x ∈ (hop neighbors included frontier).2 ↔
    (∃ y ∈ frontier, x ∈ neighbors y) ∧ x ∉ included := by
  unfold hop
  rw [foldl_visit_eq_flatMap, mem_next_foldl_visit, List.mem_flatMap]
  simp

theorem subset_walk (n : Nat) (included : Finset α) (frontier : List α) :
    included ⊆ walk neighbors n included frontier := by
  induction n generalizing included frontier with
  | zero => exact Finset.Subset.refl _
  | succ n ih =>
    rw [walk]
    split
    · exact Finset.Subset.refl _
    · exact fun x hx => ih _ _ (mem_hop.2 (Or.inl hx))

/-- The frontier is included, and so is every neighbour of what has left it. -/
structure Saturated (neighbors : α → List α) (included : Finset α) (frontier : List α) : Prop where
  mem : ∀ x ∈ frontier, x ∈ included
  closed : ∀ x ∈ included, x ∉ frontier → ∀ y ∈ neighbors x, y ∈ included

theorem Saturated.hop (h : Saturated neighbors included frontier) :
    Saturated neighbors (hop neighbors included frontier).1
      (hop neighbors included frontier).2 where
  mem := by
    intro x hx
    exact mem_hop.2 (Or.inr (mem_next_hop.1 hx).1)
  closed := by
    intro x hx hnext y hy
    have hin : x ∈ included := by
      by_contra hn
      exact hnext (mem_next_hop.2 ⟨(mem_hop.1 hx).resolve_left hn, hn⟩)
    by_cases hf : x ∈ frontier
    · exact mem_hop.2 (Or.inr ⟨x, hf, hy⟩)
    · exact mem_hop.2 (Or.inl (h.closed x hin hf y hy))

omit [DecidableEq α] in
theorem Saturated.mem_of_steps (h : Saturated neighbors included []) {k : Nat}
    (hs : Steps neighbors k x y) (hx : x ∈ included) : y ∈ included := by
  induction hs with
  | refl x => exact hx
  | head hxy _ ih => exact ih (h.closed _ hx List.not_mem_nil _ hxy)

/-- **A walk reaches what lies within its hops.** -/
theorem mem_walk (h : Saturated neighbors included frontier) (n : Nat) :
    x ∈ walk neighbors n included frontier ↔
      ∃ y ∈ included, ∃ k, k ≤ n ∧ Steps neighbors k y x := by
  induction n generalizing included frontier with
  | zero =>
    constructor
    · intro hx
      exact ⟨x, hx, 0, Nat.le_refl 0, .refl x⟩
    · rintro ⟨y, hy, k, hk, hs⟩
      obtain rfl : k = 0 := Nat.le_zero.1 hk
      cases hs
      exact hy
  | succ n ih =>
    rw [walk]
    split
    · next hf =>
      subst hf
      constructor
      · intro hx
        exact ⟨x, hx, 0, Nat.zero_le _, .refl x⟩
      · rintro ⟨y, hy, k, _, hs⟩
        exact h.mem_of_steps hs hy
    · rw [ih h.hop]
      constructor
      · rintro ⟨y, hy, k, hk, hs⟩
        rcases mem_hop.1 hy with hy | ⟨z, hz, hyz⟩
        · exact ⟨y, hy, k, by omega, hs⟩
        · exact ⟨z, h.mem z hz, k + 1, by omega, .head hyz hs⟩
      · rintro ⟨y, hy, k, hk, hs⟩
        cases hs with
        | refl _ => exact ⟨x, mem_hop.2 (Or.inl hy), 0, Nat.zero_le _, .refl x⟩
        | @head k _ z _ hyz hzx =>
          have hz : z ∈ (Lib.hop neighbors included frontier).1 := by
            by_cases hf : y ∈ frontier
            · exact mem_hop.2 (Or.inr ⟨y, hf, hyz⟩)
            · exact mem_hop.2 (Or.inl (h.closed y hy hf z hyz))
          exact ⟨z, hz, k, by omega, hzx⟩

end Arlen.Lib
