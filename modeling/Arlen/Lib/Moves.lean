import Mathlib.Data.List.Nodup
import Mathlib.Data.List.Induction

/-!
# Moves one after the other

Places hold contents. A move takes the content of one place to another, over what is
there, and leaves the first one empty. Where no move goes to a place a later one starts
from, a list of moves takes each content to where its own move says. Rows that go through
temporary places do so twice, and come out as planned exactly where none of these places
is in the way.
-/

namespace Arlen.Lib.Moves

variable {ν τ : Type*} [DecidableEq ν] {empty : τ} {D D' : ν → τ} {m : ν × ν}
  {l r moves : List (ν × ν)} {x y : ν}

/-- What stands at `m.1` is taken to `m.2`. -/
def move (empty : τ) (D : ν → τ) (m : ν × ν) : ν → τ := fun z =>
  if z = m.2 then D m.1 else if z = m.1 then empty else D z

def moveAll (empty : τ) (D : ν → τ) (moves : List (ν × ν)) : ν → τ := moves.foldl (move empty) D

/-- Something stands at the start of each move when it is its turn. -/
def Stands (empty : τ) (D : ν → τ) : List (ν × ν) → Prop
  | [] => True
  | m :: moves => D m.1 ≠ empty ∧ Stands empty (move empty D m) moves

theorem move_dst : move empty D m m.2 = D m.1 := if_pos rfl

theorem move_src (h : m.1 ≠ m.2) : move empty D m m.1 = empty := by
  unfold move
  rw [if_neg h, if_pos rfl]

theorem move_of_ne (hsrc : y ≠ m.1) (hdst : y ≠ m.2) : move empty D m y = D y := by
  unfold move
  rw [if_neg hdst, if_neg hsrc]

theorem moveAll_append : moveAll empty D (l ++ r) = moveAll empty (moveAll empty D l) r :=
  List.foldl_append

theorem moveAll_concat : moveAll empty D (l ++ [m]) = move empty (moveAll empty D l) m :=
  moveAll_append

theorem stands_append :
    Stands empty D (l ++ r) ↔ Stands empty D l ∧ Stands empty (moveAll empty D l) r := by
  induction l generalizing D with
  | nil => exact ⟨fun h => ⟨trivial, h⟩, fun h => h.2⟩
  | cons m l ih =>
    show _ ∧ Stands empty _ (l ++ r) ↔ _
    rw [ih, ← and_assoc]
    rfl

/-- A place that no move starts from or goes to keeps its content. -/
theorem moveAll_of_notMem (hsrc : y ∉ moves.map Prod.fst) (hdst : y ∉ moves.map Prod.snd) :
    moveAll empty D moves y = D y := by
  induction moves using List.reverseRecOn with
  | nil => rfl
  | append_singleton l m ih =>
    rw [List.map_append, List.mem_append, not_or] at hsrc hdst
    rw [moveAll_concat, move_of_ne, ih hsrc.1 hdst.1]
    · exact fun h => hsrc.2 (List.mem_singleton.mpr h)
    · exact fun h => hdst.2 (List.mem_singleton.mpr h)

/-- An empty place that no move goes to stays empty. -/
theorem moveAll_of_empty (h : D y = empty) (hdst : y ∉ moves.map Prod.snd) :
    moveAll empty D moves y = empty := by
  induction moves using List.reverseRecOn with
  | nil => exact h
  | append_singleton l m ih =>
    rw [List.map_append, List.mem_append, not_or] at hdst
    have hne : y ≠ m.2 := fun heq => hdst.2 (List.mem_singleton.mpr heq)
    rw [moveAll_concat]
    by_cases hsrc : y = m.1
    · rw [hsrc] at hne ⊢
      exact move_src hne
    · rw [move_of_ne hsrc hne, ih hdst.1]

/-- A place that a move leaves stays empty if no later one goes to it. -/
theorem moveAll_src (hne : m.1 ≠ m.2) (h : m.1 ∉ r.map Prod.snd) :
    moveAll empty D (l ++ m :: r) m.1 = empty := by
  rw [List.append_cons, moveAll_append, moveAll_concat]
  exact moveAll_of_empty (move_src hne) h

/-- **Each content is taken where its move says**, if no move goes where a later one
starts. -/
theorem moveAll_dst (h : moves.Pairwise fun m m' => m.2 ≠ m'.1) (hsrc : (moves.map Prod.fst).Nodup)
    (hdst : (moves.map Prod.snd).Nodup) (hm : m ∈ moves) : moveAll empty D moves m.2 = D m.1 := by
  induction moves using List.reverseRecOn with
  | nil => cases hm
  | append_singleton l last ih =>
    obtain ⟨hl, -, hlast⟩ := List.pairwise_append.mp h
    rw [List.map_append, List.nodup_append] at hsrc hdst
    rw [moveAll_concat]
    rcases List.mem_append.mp hm with hm | hm
    · have hsnd := List.mem_map_of_mem (f := Prod.snd) hm
      rw [move_of_ne (hlast m hm last List.mem_cons_self)
        (hdst.2.2 _ hsnd _ (List.mem_singleton_self _)), ih hl hsrc.1 hdst.1 hm]
    · rw [List.mem_singleton.mp hm, move_dst, moveAll_of_notMem]
      · exact fun hmem => hsrc.2.2 _ hmem _ (List.mem_singleton_self _) rfl
      · intro hmem
        obtain ⟨m', hm', heq⟩ := List.mem_map.mp hmem
        exact hlast m' hm' last List.mem_cons_self heq

/-! ### Rows through temporary places -/

structure Row (ν : Type*) where
  src : ν
  tmp : ν
  dst : ν

def vacating (rows : List (Row ν)) : List (ν × ν) := rows.map fun r => (r.src, r.tmp)

def placing (rows : List (Row ν)) : List (ν × ν) := rows.map fun r => (r.tmp, r.dst)

def staged (empty : τ) (D : ν → τ) (rows : List (Row ν)) : ν → τ :=
  moveAll empty (moveAll empty D (vacating rows)) (placing rows)

/-- Where the rows take what stands at a place. -/
def target (rows : List (Row ν)) (x : ν) : ν :=
  match rows.find? (·.src = x) with
  | some row => row.dst
  | none => x

/-- Everything is where the rows take it, no two things in one place, and nothing else
stands anywhere. -/
structure AsPlanned (empty : τ) (rows : List (Row ν)) (D D' : ν → τ) : Prop where
  placed : ∀ x, D x ≠ empty → D' (target rows x) = D x
  apart : ∀ x y, D x ≠ empty → D y ≠ empty → target rows x = target rows y → x = y
  only : ∀ y, D' y ≠ empty → ∃ x, D x ≠ empty ∧ target rows x = y

/-- Nothing is in the way: a final or a temporary place that is taken is vacated, in time,
and no row is placed where a later one still waits. -/
structure Clear (empty : τ) (rows : List (Row ν)) (D : ν → τ) : Prop where
  dst : ∀ row ∈ rows, D row.dst ≠ empty → row.dst ∈ rows.map Row.src
  tmp : ∀ row ∈ rows, D row.tmp ≠ empty → row.tmp ∈ rows.map Row.src
  inTime : rows.Pairwise fun row later => row.tmp ≠ later.src
  waiting : rows.Pairwise fun row later => row.dst ≠ later.tmp

/-- Each temporary place is free when something is to be taken there. -/
def Free (empty : τ) (D : ν → τ) : List (Row ν) → Prop
  | [] => True
  | row :: rows => D row.tmp = empty ∧ Free empty (move empty D (row.src, row.tmp)) rows

/-- Rows with distinct places, each of which starts at something. -/
structure Proper (empty : τ) (rows : List (Row ν)) (D : ν → τ) : Prop where
  srcs : (rows.map Row.src).Nodup
  tmps : (rows.map Row.tmp).Nodup
  dsts : (rows.map Row.dst).Nodup
  stands : ∀ row ∈ rows, D row.src ≠ empty

variable {rows before later : List (Row ν)} {row : Row ν}

omit [DecidableEq ν] in
theorem map_fst_vacating : (vacating rows).map Prod.fst = rows.map Row.src := List.map_map

omit [DecidableEq ν] in
theorem map_snd_vacating : (vacating rows).map Prod.snd = rows.map Row.tmp := List.map_map

omit [DecidableEq ν] in
theorem map_fst_placing : (placing rows).map Prod.fst = rows.map Row.tmp := List.map_map

omit [DecidableEq ν] in
theorem map_snd_placing : (placing rows).map Prod.snd = rows.map Row.dst := List.map_map

theorem free_append : Free empty D (before ++ later) ↔
    Free empty D before ∧ Free empty (moveAll empty D (vacating before)) later := by
  induction before generalizing D with
  | nil => exact ⟨fun h => ⟨trivial, h⟩, fun h => h.2⟩
  | cons row before ih =>
    show _ ∧ Free empty _ (before ++ later) ↔ _
    rw [ih, ← and_assoc]
    rfl

theorem target_of_notMem (h : x ∉ rows.map Row.src) : target rows x = x := by
  unfold target
  have hnone : rows.find? (·.src = x) = none := by
    refine List.find?_eq_none.mpr fun row hrow heq => h ?_
    exact List.mem_map.mpr ⟨row, hrow, of_decide_eq_true heq⟩
  rw [hnone]

/-- A place that a row is left from is empty in the end, if neither this nor a later row is
placed there. -/
theorem staged_tmp (hne : row.tmp ≠ row.dst) (h : row.tmp ∉ later.map Row.dst) :
    staged empty D (before ++ row :: later) row.tmp = empty := by
  rw [← map_snd_placing] at h
  unfold staged
  rw [placing, List.map_append, List.map_cons]
  exact moveAll_src hne h

/-- What holds of each member and those before it holds pairwise. -/
theorem pairwise_of_split {α : Type*} {R : α → α → Prop} {l : List α}
    (h : ∀ before b later, l = before ++ b :: later → ∀ a ∈ before, R a b) : l.Pairwise R := by
  induction l using List.reverseRecOn with
  | nil => exact .nil
  | append_singleton l b ih =>
    refine List.pairwise_append.mpr ⟨ih ?_, List.pairwise_singleton _ _, ?_⟩
    · rintro before b' later rfl a ha
      exact h before b' (later ++ [b]) (by simp) a ha
    · intro a ha b' hb'
      rw [List.mem_singleton.mp hb']
      exact h l b [] rfl a ha

namespace Proper

variable {row' : Row ν}

omit [DecidableEq ν] in
theorem eq_of_src (h : Proper empty rows D) (hrow : row ∈ rows) (hrow' : row' ∈ rows)
    (heq : row.src = row'.src) : row = row' :=
  List.inj_on_of_nodup_map h.srcs hrow hrow' heq

omit [DecidableEq ν] in
theorem eq_of_dst (h : Proper empty rows D) (hrow : row ∈ rows) (hrow' : row' ∈ rows)
    (heq : row.dst = row'.dst) : row = row' :=
  List.inj_on_of_nodup_map h.dsts hrow hrow' heq

theorem target_src (h : Proper empty rows D) (hrow : row ∈ rows) :
    target rows row.src = row.dst := by
  unfold target
  cases hfind : rows.find? (·.src = row.src) with
  | some row' =>
    have hsrc := List.find?_some hfind
    rw [h.eq_of_src (List.mem_of_find?_eq_some hfind) hrow (of_decide_eq_true hsrc)]
  | none =>
    have hno := List.find?_eq_none.mp hfind row hrow
    exact absurd (decide_eq_true rfl) hno

/-! #### With nothing in the way -/

theorem staged_dst (h : Proper empty rows D) (hclear : Clear empty rows D) (hrow : row ∈ rows) :
    staged empty D rows row.dst = D row.src := by
  have hvacated : moveAll empty D (vacating rows) row.tmp = D row.src :=
    moveAll_dst (m := (row.src, row.tmp)) (List.pairwise_map.mpr hclear.inTime)
      (by rw [map_fst_vacating]; exact h.srcs) (by rw [map_snd_vacating]; exact h.tmps)
      (List.mem_map.mpr ⟨row, hrow, rfl⟩)
  rw [← hvacated]
  exact moveAll_dst (m := (row.tmp, row.dst)) (List.pairwise_map.mpr hclear.waiting)
    (by rw [map_fst_placing]; exact h.tmps) (by rw [map_snd_placing]; exact h.dsts)
    (List.mem_map.mpr ⟨row, hrow, rfl⟩)

theorem staged_of_notMem (hsrc : x ∉ rows.map Row.src) (htmp : x ∉ rows.map Row.tmp)
    (hdst : x ∉ rows.map Row.dst) : staged empty D rows x = D x := by
  unfold staged
  rw [moveAll_of_notMem, moveAll_of_notMem]
  · rw [map_fst_vacating]
    exact hsrc
  · rw [map_snd_vacating]
    exact htmp
  · rw [map_fst_placing]
    exact htmp
  · rw [map_snd_placing]
    exact hdst

/-- A place that is vacated for good is empty. -/
theorem staged_src (hrow : row ∈ rows) (htmp : row.src ∉ rows.map Row.tmp)
    (hdst : row.src ∉ rows.map Row.dst) : staged empty D rows row.src = empty := by
  have hne : row.src ≠ row.tmp := fun heq => htmp (List.mem_map.mpr ⟨row, hrow, heq.symm⟩)
  obtain ⟨l, r, hsplit⟩ := List.append_of_mem
    (show (row.src, row.tmp) ∈ vacating rows from List.mem_map.mpr ⟨row, hrow, rfl⟩)
  unfold staged
  refine moveAll_of_empty ?_ (by rw [map_snd_placing]; exact hdst)
  rw [← map_snd_vacating, hsplit, List.map_append, List.map_cons] at htmp
  rw [hsplit]
  refine moveAll_src (m := (row.src, row.tmp)) hne fun hmem => htmp ?_
  exact List.mem_append_right _ (List.mem_cons_of_mem _ hmem)

theorem asPlanned_of_clear (h : Proper empty rows D) (hclear : Clear empty rows D) :
    AsPlanned empty rows D (staged empty D rows) where
  placed x hx := by
    by_cases hsrc : x ∈ rows.map Row.src
    · obtain ⟨row, hrow, rfl⟩ := List.mem_map.mp hsrc
      rw [h.target_src hrow, h.staged_dst hclear hrow]
    · rw [target_of_notMem hsrc, staged_of_notMem hsrc]
      · intro htmp
        obtain ⟨row, hrow, rfl⟩ := List.mem_map.mp htmp
        exact hsrc (hclear.tmp row hrow hx)
      · intro hdst
        obtain ⟨row, hrow, rfl⟩ := List.mem_map.mp hdst
        exact hsrc (hclear.dst row hrow hx)
  apart x y hx hy heq := by
    have hstays : ∀ {row z}, row ∈ rows → z ∉ rows.map Row.src → D z ≠ empty →
        row.dst ≠ z := by
      rintro row z hrow hz hD rfl
      exact hz (hclear.dst row hrow hD)
    by_cases hsrc : x ∈ rows.map Row.src
    · obtain ⟨row, hrow, rfl⟩ := List.mem_map.mp hsrc
      rw [h.target_src hrow] at heq
      by_cases hsrc' : y ∈ rows.map Row.src
      · obtain ⟨row', hrow', rfl⟩ := List.mem_map.mp hsrc'
        rw [h.target_src hrow'] at heq
        rw [h.eq_of_dst hrow hrow' heq]
      · rw [target_of_notMem hsrc'] at heq
        exact absurd heq (hstays hrow hsrc' hy)
    · rw [target_of_notMem hsrc] at heq
      by_cases hsrc' : y ∈ rows.map Row.src
      · obtain ⟨row', hrow', rfl⟩ := List.mem_map.mp hsrc'
        rw [h.target_src hrow'] at heq
        exact absurd heq.symm (hstays hrow' hsrc hx)
      · rwa [target_of_notMem hsrc'] at heq
  only y hy := by
    by_cases hdst : y ∈ rows.map Row.dst
    · obtain ⟨row, hrow, rfl⟩ := List.mem_map.mp hdst
      exact ⟨row.src, h.stands row hrow, h.target_src hrow⟩
    by_cases htmp : y ∈ rows.map Row.tmp
    · obtain ⟨row, hrow, rfl⟩ := List.mem_map.mp htmp
      obtain ⟨before, later, rfl⟩ := List.append_of_mem hrow
      rw [List.map_append, List.map_cons, List.mem_append, List.mem_cons, not_or, not_or] at hdst
      exact absurd (staged_tmp hdst.2.1 hdst.2.2) hy
    by_cases hsrc : y ∈ rows.map Row.src
    · obtain ⟨row, hrow, rfl⟩ := List.mem_map.mp hsrc
      exact absurd (staged_src hrow htmp hdst) hy
    · rw [staged_of_notMem hsrc htmp hdst] at hy
      exact ⟨y, hy, target_of_notMem hsrc⟩

/-! #### With something in the way -/

theorem waiting_of_asPlanned (h : Proper empty rows D)
    (hp : AsPlanned empty rows D (staged empty D rows)) :
    rows.Pairwise fun row later => row.dst ≠ later.tmp := by
  refine pairwise_of_split ?_
  rintro before b later rfl row hrow heq
  have hb : b ∈ before ++ b :: later := List.mem_append_right _ List.mem_cons_self
  have hmem : row ∈ before ++ b :: later := List.mem_append_left _ hrow
  obtain ⟨-, hnodup, hapart⟩ := List.nodup_append.mp (List.map_append ▸ h.dsts)
  have hrowdst := List.mem_map_of_mem (f := Row.dst) hrow
  have hempty : staged empty D (before ++ b :: later) b.tmp = empty := by
    refine staged_tmp ?_ fun hlater => ?_
    · rw [← heq]
      exact hapart _ hrowdst _ List.mem_cons_self
    · rw [← heq] at hlater
      exact hapart _ hrowdst _ (List.mem_cons_of_mem _ hlater) rfl
  have hplaced := hp.placed row.src (h.stands row hmem)
  rw [h.target_src hmem, heq, hempty] at hplaced
  exact h.stands row hmem hplaced.symm

/-- A temporary place that another row starts from later is empty when it is its turn. -/
theorem inTime_of_stands (h : Proper empty rows D)
    (hstands : Stands empty (moveAll empty D (vacating rows)) (placing rows))
    (hwaiting : rows.Pairwise fun row later => row.dst ≠ later.tmp) :
    rows.Pairwise fun row later => row.tmp ≠ later.src := by
  refine pairwise_of_split ?_
  rintro before b later rfl row hrow heq
  have hrowtmp := List.mem_map_of_mem (f := Row.tmp) hrow
  obtain ⟨-, -, hapart⟩ := List.nodup_append.mp (List.map_append ▸ h.tmps)
  have hvacated : moveAll empty D (vacating (before ++ b :: later)) row.tmp = empty := by
    rw [vacating, List.map_append, List.map_cons, heq]
    refine moveAll_src (m := (b.src, b.tmp)) ?_ fun hlater => ?_
    · rw [← heq]
      exact hapart _ hrowtmp _ List.mem_cons_self
    · rw [← heq] at hlater
      exact hapart _ hrowtmp _ (List.mem_cons_of_mem _ (map_snd_vacating ▸ hlater)) rfl
  obtain ⟨before₁, before₂, rfl⟩ := List.append_of_mem hrow
  rw [placing, List.append_assoc, List.map_append, stands_append] at hstands
  refine hstands.2.1 (moveAll_of_empty (by rw [← List.append_assoc]; exact hvacated) ?_)
  intro hdst
  obtain ⟨early, hearly, hdst⟩ := List.mem_map.mp (show row.tmp ∈ before₁.map Row.dst from
    map_snd_placing ▸ hdst)
  rw [List.append_assoc] at hwaiting
  exact (List.pairwise_append.mp hwaiting).2.2 early hearly row
    (List.mem_append_left _ List.mem_cons_self) hdst

theorem clear_of_asPlanned (h : Proper empty rows D)
    (hstands : Stands empty (moveAll empty D (vacating rows)) (placing rows))
    (hp : AsPlanned empty rows D (staged empty D rows)) : Clear empty rows D := by
  have hwaiting := h.waiting_of_asPlanned hp
  have hdst : ∀ row ∈ rows, D row.dst ≠ empty → row.dst ∈ rows.map Row.src := by
    intro row hrow hD
    by_contra hno
    have hsrc := hp.apart row.src row.dst (h.stands row hrow) hD
      (by rw [h.target_src hrow, target_of_notMem hno])
    exact hno (hsrc ▸ List.mem_map_of_mem hrow)
  refine ⟨hdst, fun row hrow hD => ?_, h.inTime_of_stands hstands hwaiting, hwaiting⟩
  by_contra hno
  have hplaced := hp.placed row.tmp hD
  rw [target_of_notMem hno] at hplaced
  have hfree : row.tmp ∉ rows.map Row.dst := by
    intro hmem
    obtain ⟨row', hrow', heq⟩ := List.mem_map.mp hmem
    rw [← heq] at hno hD
    exact hno (hdst row' hrow' hD)
  obtain ⟨before, later, rfl⟩ := List.append_of_mem hrow
  rw [List.map_append, List.map_cons, List.mem_append, List.mem_cons, not_or, not_or] at hfree
  exact hD (hplaced.symm.trans (staged_tmp hfree.2.1 hfree.2.2))

/-- Temporary places that are free when it is their turn are vacated, in time. -/
theorem clear_of_free (h : Proper empty rows D) (hfree : Free empty D rows)
    (hdst : ∀ row ∈ rows, D row.dst ≠ empty → row.dst ∈ rows.map Row.src)
    (hwaiting : rows.Pairwise fun row later => row.dst ≠ later.tmp) : Clear empty rows D := by
  have hbefore : ∀ before row later, rows = before ++ row :: later → D row.tmp ≠ empty →
      row.tmp ∈ before.map Row.src := by
    rintro before row later rfl hD
    by_contra hsrc
    refine hD (Eq.trans (Eq.symm (moveAll_of_notMem ?_ ?_)) (free_append.mp hfree).2.1)
    · rw [map_fst_vacating]
      exact hsrc
    · rw [map_snd_vacating]
      intro htmp
      exact (List.nodup_append.mp (List.map_append ▸ h.tmps)).2.2 _ htmp _ List.mem_cons_self rfl
  refine ⟨hdst, fun row hrow hD => ?_, pairwise_of_split ?_, hwaiting⟩
  · obtain ⟨before, later, hsplit⟩ := List.append_of_mem hrow
    have := hbefore before row later hsplit hD
    rw [hsplit, List.map_append]
    exact List.mem_append_left _ this
  · rintro before b later rfl row hrow heq
    obtain ⟨before₁, before₂, rfl⟩ := List.append_of_mem hrow
    have hb : b ∈ before₁ ++ row :: before₂ ++ b :: later :=
      List.mem_append_right _ List.mem_cons_self
    have hmem := hbefore before₁ row (before₂ ++ b :: later) (by simp) (by
      rw [heq]
      exact h.stands b hb)
    rw [heq] at hmem
    have hsrcs := List.map_append ▸ h.srcs
    refine (List.nodup_append.mp hsrcs).2.2 _ ?_ _ List.mem_cons_self rfl
    rw [List.map_append]
    exact List.mem_append_left _ hmem

/-- **The rows come out as planned exactly where nothing is in the way.** -/
theorem asPlanned_iff (h : Proper empty rows D)
    (hstands : Stands empty (moveAll empty D (vacating rows)) (placing rows)) :
    AsPlanned empty rows D (staged empty D rows) ↔ Clear empty rows D :=
  ⟨h.clear_of_asPlanned hstands, h.asPlanned_of_clear⟩

end Proper

end Arlen.Lib.Moves
