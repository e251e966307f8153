import Mathlib.Data.List.Basic
import Mathlib.Data.List.Nodup
import Mathlib.Data.List.TakeWhile

/-!
# Runs of a list

A run is a stretch of consecutive elements of one key. An element is `Inner` to its run
when its neighbours on both sides have its key; the others are the runs' ends. `middles`
are the inner elements, read one run after the other. Without them a list has no inner
elements, and where the ends of a list's runs are kept, whatever else is, every change of
key is between elements that were neighbours before.
-/

namespace Arlen.Lib

variable {α β : Type*} {key : α → β} {l before after : List α} {x y : α}

/-- The element's neighbours have its key. -/
def Inner (key : α → β) (l : List α) (x : α) : Prop :=
  ∃ before after, l = before ++ x :: after ∧
    before.getLast?.map key = some (key x) ∧ after.head?.map key = some (key x)

/-- The element is the first or the last of its run. -/
def RunEnd (key : α → β) (l : List α) (x : α) : Prop :=
  ∃ before after, l = before ++ x :: after ∧
    (before.getLast?.map key ≠ some (key x) ∨ after.head?.map key ≠ some (key x))

theorem split_unique {before' after' : List α} (hl : l.Nodup) (h : l = before ++ x :: after)
    (h' : l = before' ++ x :: after') : before = before' ∧ after = after' := by
  rw [h] at hl
  obtain ⟨hb, ha⟩ : x ∉ before ∧ x ∉ after := by
    rw [List.nodup_middle, List.nodup_cons, List.mem_append, not_or] at hl
    exact hl.1
  obtain ⟨h₁, -, h₂⟩ := (List.append_cons_inj_of_notMem hb ha).1 (h.symm.trans h')
  exact ⟨h₁, h₂⟩

/-- The inner elements of an image are the images of the inner ones. -/
theorem inner_map {γ : Type*} {f : γ → α} {l : List γ} {y : α} :
    Inner key (l.map f) y ↔ ∃ x, Inner (fun x => key (f x)) l x ∧ f x = y := by
  constructor
  · rintro ⟨before, after, hsplit, hb, ha⟩
    obtain ⟨b, rest, rfl, rfl, hrest⟩ := List.map_eq_append_iff.1 hsplit
    obtain ⟨x, a, rfl, rfl, rfl⟩ := List.map_eq_cons_iff.1 hrest
    rw [List.getLast?_map, Option.map_map] at hb
    rw [List.head?_map, Option.map_map] at ha
    exact ⟨x, ⟨b, a, rfl, hb, ha⟩, rfl⟩
  · rintro ⟨x, ⟨b, a, rfl, hb, ha⟩, rfl⟩
    refine ⟨b.map f, a.map f, by rw [List.map_append, List.map_cons], ?_, ?_⟩
    · rw [List.getLast?_map, Option.map_map]
      exact hb
    · rw [List.head?_map, Option.map_map]
      exact ha

/-! ## The middles of the runs -/

theorem getLast?_cons_or {prev : Option β} :
    ((y :: before).getLast?.map key).or prev = (before.getLast?.map key).or (some (key y)) := by
  rw [List.getLast?_cons]
  cases before.getLast? <;> rfl

section Middles

variable [DecidableEq β]

/-- The inner elements behind an element of the key `prev`. -/
def innerFrom (key : α → β) : Option β → List α → List α
  | _, [] => []
  | prev, x :: rest =>
    (if prev = some (key x) ∧ rest.head?.map key = some (key x) then [x] else []) ++
      innerFrom key (some (key x)) rest

/-- What lies between the first and the last element of each run. -/
def middles (key : α → β) : List α → List α
  | [] => []
  | x :: rest =>
    (rest.takeWhile (key · = key x)).dropLast ++ middles key (rest.dropWhile (key · = key x))
termination_by l => l.length
decreasing_by exact Nat.lt_succ_of_le (List.dropWhile_sublist _).length_le

theorem innerFrom_cons (prev : Option β) (x : α) (rest : List α) :
    innerFrom key prev (x :: rest) =
      (if prev = some (key x) ∧ rest.head?.map key = some (key x) then [x] else []) ++
        innerFrom key (some (key x)) rest := rfl

theorem mem_innerFrom {prev : Option β} : x ∈ innerFrom key prev l ↔
    ∃ before after, l = before ++ x :: after ∧
      ((before.getLast?.map key).or prev) = some (key x) ∧
      after.head?.map key = some (key x) := by
  induction l generalizing prev with
  | nil => simp [innerFrom]
  | cons y rest ih =>
    rw [innerFrom_cons, List.mem_append, ih]
    constructor
    · rintro (h | ⟨before, after, rfl, hb, ha⟩)
      · split at h
        · next hy =>
          obtain rfl := List.mem_singleton.1 h
          exact ⟨[], rest, rfl, hy⟩
        · cases h
      · exact ⟨y :: before, after, rfl, getLast?_cons_or.trans hb, ha⟩
    · rintro ⟨before, after, hsplit, hb, ha⟩
      cases before with
      | nil =>
        obtain ⟨rfl, rfl⟩ := List.cons.inj hsplit
        exact .inl (by rw [if_pos ⟨hb, ha⟩]; exact List.mem_singleton_self _)
      | cons z before =>
        obtain ⟨rfl, rfl⟩ := List.cons.inj hsplit
        exact .inr ⟨before, after, rfl, getLast?_cons_or.symm.trans hb, ha⟩

/-- A run behind an element of its key is inner but for its last. -/
theorem innerFrom_run {k : β} {run rest : List α} (hrun : ∀ y ∈ run, key y = k)
    (hrest : rest.head?.map key ≠ some k) :
    innerFrom key (some k) (run ++ rest) = run.dropLast ++ innerFrom key (some k) rest := by
  induction run with
  | nil => rfl
  | cons y run ih =>
    obtain ⟨rfl, hrun⟩ := List.forall_mem_cons.1 hrun
    rw [List.cons_append, innerFrom_cons, ih hrun]
    cases run with
    | nil => rw [List.nil_append, if_neg fun h => hrest h.2, List.dropLast_nil, List.nil_append,
        List.nil_append, List.dropLast_singleton, List.nil_append]
    | cons z run =>
      rw [if_pos ⟨rfl, congrArg some (hrun z List.mem_cons_self)⟩, ← List.append_assoc]
      rfl

theorem innerFrom_of_head {prev : Option β} (h : ∀ k ∈ prev, l.head?.map key ≠ some k) :
    innerFrom key prev l = innerFrom key none l := by
  cases l with
  | nil => rfl
  | cons x rest =>
    rw [innerFrom_cons, innerFrom_cons, if_neg fun hx => h _ hx.1 rfl,
      if_neg fun hx => (by cases hx.1)]

theorem middles_eq (key : α → β) (l : List α) : middles key l = innerFrom key none l := by
  induction l using @middles.induct _ _ _ key with
  | case1 => simp [middles, innerFrom]
  | case2 x rest ih =>
    have hhead : (rest.dropWhile (key · = key x)).head?.map key ≠ some (key x) := by
      intro hk
      obtain ⟨y, hy, hkey⟩ := Option.map_eq_some_iff.1 hk
      have hnot := List.head?_dropWhile_not (key · = key x) rest
      rw [hy] at hnot
      exact absurd hkey (by simpa using hnot)
    have hrun : ∀ y ∈ rest.takeWhile (key · = key x), key y = key x := by
      intro y hy
      have hdec := List.mem_takeWhile_imp hy
      exact of_decide_eq_true hdec
    have hrest := innerFrom_run hrun hhead
    rw [List.takeWhile_append_dropWhile] at hrest
    have hgap : ∀ k ∈ some (key x), (rest.dropWhile (key · = key x)).head?.map key ≠ some k := by
      rintro k ⟨⟩
      exact hhead
    unfold middles
    rw [innerFrom_cons, if_neg fun h => (by cases h.1), List.nil_append, hrest, ih,
      innerFrom_of_head hgap]

theorem mem_middles : x ∈ middles key l ↔ Inner key l x := by
  rw [middles_eq, mem_innerFrom]
  simp only [Option.or_none, Inner]

end Middles

/-! ## Keeping the ends -/

variable {keep : α → Bool} {between : List α}

/-- Between elements of two keys there is the end of a run, or nothing. -/
theorem exists_runEnd (h : l = before ++ x :: (between ++ y :: after)) (hne : key x ≠ key y)
    (hb : between ≠ []) : ∃ z ∈ between, RunEnd key l z := by
  induction between generalizing before x with
  | nil => exact absurd rfl hb
  | cons z between ih =>
    have hsplit : l = (before ++ [x]) ++ z :: (between ++ y :: after) := by
      rw [h, List.append_assoc]
      rfl
    by_cases hz : key x = key z
    · cases between with
      | nil =>
        refine ⟨z, List.mem_cons_self, before ++ [x], y :: after, hsplit, .inr ?_⟩
        exact fun heq => hne (hz.trans (Option.some.inj heq).symm)
      | cons z' between =>
        obtain ⟨e, he, hend⟩ := ih hsplit (hz ▸ hne) (List.cons_ne_nil _ _)
        exact ⟨e, List.mem_cons_of_mem _ he, hend⟩
    · refine ⟨z, List.mem_cons_self, before ++ [x], between ++ y :: after, hsplit, .inl ?_⟩
      rw [List.getLast?_append_cons, List.getLast?_singleton]
      exact fun heq => hz (Option.some.inj heq)

/-- Where the ends are kept, a change of key is between neighbours of before. -/
theorem neighbours_of_filter (hends : ∀ z ∈ l, RunEnd key l z → keep z = true)
    (h : l.filter keep = before ++ x :: y :: after) (hne : key x ≠ key y) :
    ∃ before' after', l = before' ++ x :: y :: after' := by
  obtain ⟨b, rest, hl, -, hrest⟩ := List.filter_eq_append_iff.1 h
  obtain ⟨u, v, hu, -, -, hv⟩ := List.filter_eq_cons_iff.1 hrest
  obtain ⟨between, w, hw, hdropped, -, -⟩ := List.filter_eq_cons_iff.1 hv
  have hsplit : l = (b ++ u) ++ x :: (between ++ y :: w) := by
    rw [hl, hu, hw, List.append_assoc]
  cases between with
  | nil => exact ⟨b ++ u, w, hsplit⟩
  | cons z between =>
    obtain ⟨e, he, hend⟩ := exists_runEnd hsplit hne (List.cons_ne_nil z between)
    have hmem : e ∈ l := by
      rw [hsplit]
      exact List.mem_append_right _ (List.mem_cons_of_mem _ (List.mem_append_left _ he))
    exact absurd (hends e hmem hend) (hdropped e he)

/-- The neighbour that was taken from between was of the element's own run. -/
theorem key_before (hl : (before ++ x :: after).Nodup)
    (hkeep : ∀ z ∈ before ++ x :: after, keep z = false → Inner key (before ++ x :: after) z)
    (h : (before.filter keep).getLast?.map key = some (key x)) :
    before.getLast?.map key = some (key x) := by
  rcases List.eq_nil_or_concat' before with rfl | ⟨front, z, rfl⟩
  · cases h
  · rw [List.getLast?_concat, Option.map_some]
    cases hz : keep z with
    | true =>
      rwa [List.filter_append, List.filter_cons_of_pos hz, List.filter_nil,
        List.getLast?_concat] at h
    | false =>
      obtain ⟨b, a, hsplit, -, ha⟩ := hkeep z (by simp) hz
      rw [List.append_assoc, List.singleton_append] at hl hsplit
      obtain ⟨-, rfl⟩ := split_unique hl rfl hsplit
      exact ha.symm

theorem key_after (hl : (before ++ x :: after).Nodup)
    (hkeep : ∀ z ∈ before ++ x :: after, keep z = false → Inner key (before ++ x :: after) z)
    (h : (after.filter keep).head?.map key = some (key x)) :
    after.head?.map key = some (key x) := by
  cases after with
  | nil => cases h
  | cons z rest =>
    cases hz : keep z with
    | true =>
      rwa [List.filter_cons_of_pos hz] at h
    | false =>
      obtain ⟨b, a, hsplit, hb, -⟩ := hkeep z (by simp) hz
      have hcut : before ++ x :: z :: rest = (before ++ [x]) ++ z :: rest := by
        rw [List.append_assoc, List.singleton_append]
      obtain ⟨rfl, -⟩ := split_unique hl hcut hsplit
      rw [List.getLast?_concat] at hb
      exact hb.symm

/-- Without its inner elements a list has none. -/
theorem not_inner_filter (hl : l.Nodup) (hkeep : ∀ z ∈ l, keep z = false ↔ Inner key l z) :
    ¬ Inner key (l.filter keep) x := by
  rintro ⟨before, after, hsplit, hb, ha⟩
  obtain ⟨b, rest, rfl, rfl, hrest⟩ := List.filter_eq_append_iff.1 hsplit
  obtain ⟨u, a, rfl, hu, hx, rfl⟩ := List.filter_eq_cons_iff.1 hrest
  rw [← List.append_assoc] at hl hkeep
  have hfirst : (b ++ u).filter keep = b.filter keep := by
    rw [List.filter_append, List.filter_eq_nil_iff.2 hu, List.append_nil]
  rw [← hfirst] at hb
  have hdropped := fun z hz => (hkeep z hz).1
  have hin : Inner key ((b ++ u) ++ x :: a) x :=
    ⟨b ++ u, a, rfl, key_before hl hdropped hb, key_after hl hdropped ha⟩
  rw [← hkeep x (List.mem_append_right _ List.mem_cons_self), hx] at hin
  cases hin

end Arlen.Lib
