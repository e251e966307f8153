import Arlen.Lib.Lines
import Mathlib.Data.List.TakeWhile

/-!
# Texts made of pieces

A text is the pieces between its line feeds. `str::lines` reads each piece as a line, but
drops a carriage return before a line feed and an empty piece at the end.
-/

namespace Arlen.Lib

variable {ls after : List String} {l : String}

/-- A line without the carriage return that belongs to its line feed. -/
def stripCr (l : String) : String := String.ofList (dropCr l.toList)

/-- The lines that `str::lines` gives of the pieces. -/
def asRead : List String → List String
  | [] => []
  | [l] => if l = "" then [] else [l]
  | l :: m :: rest => stripCr l :: asRead (m :: rest)

theorem linesFrom_last {line s : List Char} (h : '\n' ∉ s) :
    linesFrom line s = if line ++ s = [] then [] else [String.ofList (line ++ s)] := by
  induction s generalizing line with
  | nil => rw [List.append_nil, linesFrom]
  | cons c s ih =>
    have hc : c ≠ '\n' := fun heq => h (heq ▸ List.mem_cons_self)
    rw [linesFrom, if_neg hc, ih fun hm => h (List.mem_cons_of_mem _ hm), List.append_assoc,
      List.singleton_append]

/-- The pieces are read one by one. -/
theorem lines_intercalate (h : ∀ l ∈ ls, '\n' ∉ l.toList) :
    lines (String.intercalate "\n" ls) = asRead ls := by
  unfold lines
  rw [String.toList_intercalate]
  induction ls with
  | nil => rfl
  | cons l ls ih =>
    obtain ⟨hl, hls⟩ := List.forall_mem_cons.1 h
    cases ls with
    | nil =>
      rw [List.map_singleton, List.intercalate_singleton, linesFrom_last hl, List.nil_append,
        String.ofList_toList, asRead]
      exact if_congr (String.toList_eq_nil_iff) rfl rfl
    | cons m rest =>
      have hcut : "\n".toList.intercalate ((l :: m :: rest).map String.toList) =
          l.toList ++ '\n' :: "\n".toList.intercalate ((m :: rest).map String.toList) := by
        simp [List.intercalate]
      rw [hcut, linesFrom_append hl, ih hls, List.nil_append, asRead, stripCr]

theorem asRead_append (hne : after ≠ []) : asRead (ls ++ after) = ls.map stripCr ++ asRead after := by
  induction ls with
  | nil => rfl
  | cons l ls ih =>
    have hcons : ∀ ms : List String, ms ≠ [] → asRead (l :: ms) = stripCr l :: asRead ms := by
      intro ms hms
      cases ms with
      | nil => exact absurd rfl hms
      | cons m ms => rfl
    rw [List.cons_append, hcons _ (List.append_ne_nil_of_right_ne_nil _ hne), ih]
    rfl

theorem stripCr_eq_self : stripCr l = l ↔ l.toList.getLast? ≠ some '\r' := by
  unfold stripCr dropCr
  split
  · next hlast =>
    refine ⟨fun h => ?_, fun h => absurd hlast h⟩
    have hlen := congrArg (fun s => s.toList.length) h
    have hpos := List.length_pos_of_mem (List.mem_of_getLast? hlast)
    simp only [String.toList_ofList, List.length_dropLast] at hlen
    omega
  · next hlast => exact ⟨fun _ => hlast, fun _ => String.ofList_toList⟩

theorem map_stripCr_eq_self : ls.map stripCr = ls ↔ ∀ l ∈ ls, l.toList.getLast? ≠ some '\r' := by
  induction ls with
  | nil => simp
  | cons l ls ih =>
    rw [List.map_cons, List.cons.injEq, stripCr_eq_self, ih, List.forall_mem_cons]

/-- The pieces are read as they stand: none that a line feed follows ends with a carriage
return, and none that ends the text is empty. -/
theorem asRead_append_eq : asRead (ls ++ after) = ls ++ asRead after ↔
    (∀ l ∈ if after = [] then ls.dropLast else ls, l.toList.getLast? ≠ some '\r') ∧
      (after = [] → ls.getLast? ≠ some "") := by
  by_cases hne : after = []
  · subst hne
    rw [List.append_nil, if_pos rfl, asRead, List.append_nil]
    rcases List.eq_nil_or_concat' ls with rfl | ⟨front, l, rfl⟩
    · simp [asRead]
    · rw [asRead_append (List.cons_ne_nil _ _), List.dropLast_concat, List.getLast?_concat,
        ← map_stripCr_eq_self, asRead]
      by_cases hl : l = ""
      · rw [if_pos hl, List.append_nil]
        constructor
        · intro h
          have hlen := congrArg List.length h
          simp at hlen
        · rintro ⟨-, h⟩
          exact absurd (congrArg some hl) (h rfl)
      · rw [if_neg hl, List.append_left_inj]
        exact ⟨fun h => ⟨h, fun _ heq => hl (Option.some.inj heq)⟩, And.left⟩
  · rw [asRead_append hne, if_neg hne, List.append_left_inj, map_stripCr_eq_self]
    exact ⟨fun h => ⟨h, fun hnil => absurd hnil hne⟩, And.left⟩

theorem noLf_asRead (h : ∀ l ∈ ls, '\n' ∉ l.toList) : ∀ l ∈ asRead ls, '\n' ∉ l.toList := by
  have hstrip : ∀ l : String, '\n' ∉ l.toList → '\n' ∉ (stripCr l).toList := by
    intro l hl hm
    unfold stripCr dropCr at hm
    rw [String.toList_ofList] at hm
    split at hm
    · exact hl ((List.dropLast_sublist _).mem hm)
    · exact hl hm
  induction ls with
  | nil => exact fun l hl => by cases hl
  | cons l ls ih =>
    obtain ⟨hl, hls⟩ := List.forall_mem_cons.1 h
    cases ls with
    | nil =>
      rw [asRead]
      split
      · exact fun l hl => by cases hl
      · exact List.forall_mem_singleton.2 hl
    | cons m rest => exact List.forall_mem_cons.2 ⟨hstrip l hl, ih hls⟩

/-- The first line read is the first piece, but for a carriage return. -/
theorem head_asRead {l : String} (h : l ∈ (asRead ls).head?) :
    ∃ piece, piece ∈ ls.head? ∧ (l = piece ∨ l = stripCr piece) := by
  match ls with
  | [] => cases h
  | [piece] =>
    rw [asRead] at h
    split at h
    · cases h
    · exact ⟨piece, rfl, .inl (Option.some.inj h).symm⟩
  | piece :: m :: rest => exact ⟨piece, rfl, .inr (Option.some.inj h).symm⟩

theorem length_asRead_le (ls : List String) : (asRead ls).length ≤ ls.length := by
  induction ls with
  | nil => exact Nat.le_refl _
  | cons l ls ih =>
    cases ls with
    | nil =>
      rw [asRead]
      split <;> simp
    | cons m rest => exact Nat.succ_le_succ ih

/-- Pieces that the lines read begin with are read as they stand. -/
theorem asRead_append_of_prefix (h : ls <+: asRead (ls ++ after)) :
    asRead (ls ++ after) = ls ++ asRead after := by
  by_cases hne : after = []
  · subst hne
    rw [List.append_nil] at *
    have heq := h.eq_of_length_le (length_asRead_le ls)
    rw [← heq, asRead, List.append_nil]
  · rw [asRead_append hne] at h ⊢
    have heq : ls = ls.map stripCr :=
      (List.prefix_of_prefix_length_le h (List.prefix_append _ _) (by simp)).eq_of_length (by simp)
    rw [← heq]

/-- Texts of whole lines are told apart by their lines. -/
theorem join_inj {ls ms : List String} (hls : ls ≠ []) (hms : ms ≠ [])
    (hl : ∀ l ∈ ls, '\n' ∉ l.toList) (hm : ∀ l ∈ ms, '\n' ∉ l.toList)
    (h : String.intercalate "\n" ls ++ "\n" = String.intercalate "\n" ms ++ "\n") : ls = ms := by
  have hlist : ['\n'].intercalate (ls.map String.toList) = ['\n'].intercalate (ms.map String.toList) := by
    have h := congrArg String.toList (String.append_left_inj _ |>.1 h)
    rwa [String.toList_intercalate, String.toList_intercalate] at h
  have hsplit := congrArg (List.splitOn '\n') hlist
  rw [List.splitOn_intercalate '\n' (List.forall_mem_map.2 hl) (by simpa using hls),
    List.splitOn_intercalate '\n' (List.forall_mem_map.2 hm) (by simpa using hms)] at hsplit
  exact List.map_injective_iff.2 (fun _ _ => String.toList_injective) hsplit

/-- A stretch that a test reads off ends where the test fails. -/
theorem takeWhile_append_eq {α : Type*} {p : α → Bool} {l rest : List α} :
    (l ++ rest).takeWhile p = l ↔ (∀ x ∈ l, p x = true) ∧ ∀ x ∈ rest.head?, p x = false := by
  constructor
  · intro h
    have hall : ∀ x ∈ l, p x = true := by
      intro x hx
      rw [← h] at hx
      exact List.mem_takeWhile_imp hx
    refine ⟨hall, fun x hx => ?_⟩
    rw [List.takeWhile_append_of_pos hall, List.append_right_eq_self] at h
    obtain ⟨tail, rfl⟩ := List.head?_eq_some_iff.1 hx
    by_contra hp
    rw [List.takeWhile_cons_of_pos (by simpa using hp)] at h
    cases h
  · rintro ⟨hall, hstop⟩
    rw [List.takeWhile_append_of_pos hall]
    cases rest with
    | nil => rw [List.takeWhile_nil, List.append_nil]
    | cons x rest =>
      rw [List.takeWhile_cons_of_neg (by rw [hstop x rfl]; exact Bool.false_ne_true),
        List.append_nil]

end Arlen.Lib
