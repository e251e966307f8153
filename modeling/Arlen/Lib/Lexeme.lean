import Mathlib.Data.List.Chain

/-!
# Words, symbols and quoted literals

A text written as a list of lexemes: words over a word alphabet, single symbols
outside it, and literals between two quotes with an escape character. Words
stand apart when no two are neighbours. Masking the literals by blanks then
leaves a text whose maximal word runs are the words that were written, so a
search for a whole word finds the written words and nothing else.
-/

namespace Arlen.Lib

variable {α β : Type}

/-! ## Whole words -/

/-- The runs of word characters between the others, empty ones included. -/
def runs (isWord : α → Bool) (s : List α) : List (List α) := s.splitOnP fun a => !isWord a

section Runs

variable {isWord : α → Bool}

theorem runs_append_cons (a b : List α) {c : α} (h : isWord c = false) :
    runs isWord (a ++ c :: b) = runs isWord a ++ runs isWord b :=
  List.splitOnP_append_cons a b (by simp [h])

theorem runs_cons (b : List α) {c : α} (h : isWord c = false) :
    runs isWord (c :: b) = [] :: runs isWord b :=
  runs_append_cons [] b h

theorem runs_word {w : List α} (h : ∀ a ∈ w, isWord a = true) : runs isWord w = [w] :=
  List.splitOnP_eq_singleton (by simpa using h)

/-- A map that keeps the word alphabet keeps the runs. -/
theorem runs_map {isWord' : β → Bool} {f : α → β} (h : ∀ a, isWord' (f a) = isWord a)
    (s : List α) : runs isWord' (s.map f) = (runs isWord s).map (List.map f) := by
  induction s with
  | nil => rfl
  | cons a s ih =>
    simp only [runs, List.map_cons, List.splitOnP_cons_eq_if_modifyHead, h] at ih ⊢
    split
    · simp [ih]
    · rw [ih]
      cases s.splitOnP _ <;> simp

/-- `w` stands in `s` with no word character beside it. -/
def WholeWord (isWord : α → Bool) (w s : List α) : Prop :=
  ∃ a b, s = a ++ w ++ b ∧ (∀ x ∈ a.getLast?, isWord x = false) ∧ ∀ x ∈ b.head?, isWord x = false

theorem WholeWord.mem_runs {w s : List α} (hw : ∀ a ∈ w, isWord a = true)
    (h : WholeWord isWord w s) : w ∈ runs isWord s := by
  obtain ⟨a, b, rfl, ha, hb⟩ := h
  have hright : w ∈ runs isWord (w ++ b) := by
    cases b with
    | nil => simp [runs_word hw]
    | cons c b => simp [runs_append_cons w b (hb c rfl), runs_word hw]
  rcases List.eq_nil_or_concat a with rfl | ⟨a, d, rfl⟩
  · simpa using hright
  · have hd : isWord d = false := ha d (by simp)
    have hsplit : a ++ [d] ++ w ++ b = a ++ d :: (w ++ b) := by simp
    rw [List.concat_eq_append, hsplit, runs_append_cons a _ hd]
    exact List.mem_append_right _ hright

/-- A text is one word, or a word, a separator and the rest. -/
theorem word_or_split (isWord : α → Bool) (s : List α) :
    (∀ a ∈ s, isWord a = true) ∨
      ∃ p c r, s = p ++ c :: r ∧ (∀ a ∈ p, isWord a = true) ∧ isWord c = false := by
  induction s with
  | nil => exact .inl (by simp)
  | cons a s ih =>
    cases ha : isWord a with
    | false => exact .inr ⟨[], a, s, rfl, by simp, ha⟩
    | true =>
      rcases ih with hs | ⟨p, c, r, rfl, hp, hc⟩
      · exact .inl (by simpa [ha] using hs)
      · exact .inr ⟨a :: p, c, r, rfl, by simpa [ha] using hp, hc⟩

theorem wholeWord_of_mem_runs {w s : List α} (h : w ∈ runs isWord s) : WholeWord isWord w s := by
  -- by the first separator: the run before it, then what follows it
  induction hn : s.length using Nat.strong_induction_on generalizing s with
  | _ n ih =>
    rcases word_or_split isWord s with hs | ⟨p, c, r, rfl, hp, hc⟩
    · rw [runs_word hs, List.mem_singleton] at h
      exact ⟨[], [], by simp [h], by simp, by simp⟩
    · rw [runs_append_cons _ _ hc, runs_word hp, List.singleton_append, List.mem_cons] at h
      rcases h with rfl | h
      · exact ⟨[], c :: r, by simp, by simp, by simp [hc]⟩
      · have hlen : r.length < n := by
          rw [← hn, List.length_append, List.length_cons]
          omega
        obtain ⟨a, b, rfl, ha, hb⟩ := ih r.length hlen h rfl
        refine ⟨p ++ c :: a, b, by simp, ?_, hb⟩
        intro x hx
        cases a with
        | nil =>
          have hcx : c = x := by simpa using hx
          exact hcx ▸ hc
        | cons d a => exact ha x (by simpa [List.getLast?_append, List.getLast?_cons_cons] using hx)

/-- **Whole words are runs**: a word stands by itself in a text where it is one
of the runs. -/
theorem wholeWord_iff_mem_runs {w s : List α} (hw : ∀ a ∈ w, isWord a = true) :
    WholeWord isWord w s ↔ w ∈ runs isWord s :=
  ⟨WholeWord.mem_runs hw, wholeWord_of_mem_runs⟩

end Runs

/-! ## Lexemes -/

inductive Lexeme (α : Type) where
  | word (w : List α)
  | sym (a : α)
  | str (body : List α)
  deriving DecidableEq, Repr

/-- The character classes of a text. The symbols are those that open neither a
literal nor anything else a scanner passes over. -/
structure Lexis (α : Type) where
  isWord : α → Bool
  isSym : α → Bool
  quote : α
  escape : α
  blank : α
  blank_sep : isWord blank = false
  sym_sep : ∀ a, isSym a = true → isWord a = false

/-- A literal's body: an escape takes the character after it along, and no quote
stands bare. -/
inductive Closed (quote escape : α) : List α → Prop where
  | nil : Closed quote escape []
  | escaped {a : α} {s : List α} : Closed quote escape s → Closed quote escape (escape :: a :: s)
  | plain {a : α} {s : List α} : a ≠ quote → a ≠ escape → Closed quote escape s →
      Closed quote escape (a :: s)

theorem Closed.append {quote escape : α} {s t : List α} (hs : Closed quote escape s)
    (ht : Closed quote escape t) : Closed quote escape (s ++ t) := by
  induction hs with
  | nil => exact ht
  | escaped _ ih => exact .escaped ih
  | plain hq he _ ih => exact .plain hq he ih

theorem Closed.of_plain {quote escape : α} {s : List α} (h : ∀ a ∈ s, a ≠ quote ∧ a ≠ escape) :
    Closed quote escape s := by
  induction s with
  | nil => exact .nil
  | cons a s ih =>
    have ha := h a List.mem_cons_self
    exact .plain ha.1 ha.2 (ih fun b hb => h b (List.mem_cons_of_mem _ hb))

/-- What holds of the parts and is kept by the separator holds of the joined list. -/
theorem intercalate_rec {P : List α → Prop} {sep : List α} (hnil : P [])
    (hsep : ∀ s t, P s → P t → P (s ++ sep ++ t)) {l : List (List α)} (h : ∀ s ∈ l, P s) :
    P (sep.intercalate l) := by
  induction l with
  | nil => exact hnil
  | cons s l ih =>
    have hs := h s List.mem_cons_self
    have hl := ih fun t ht => h t (List.mem_cons_of_mem _ ht)
    cases l with
    | nil => simpa using hs
    | cons t l =>
      rw [List.intercalate_cons_cons]
      exact hsep _ _ hs hl

theorem map_intercalate (f : α → β) (sep : List α) (l : List (List α)) :
    (sep.intercalate l).map f = (sep.map f).intercalate (l.map (List.map f)) := by
  induction l with
  | nil => rfl
  | cons s l ih =>
    cases l with
    | nil => simp
    | cons t l =>
      simp only [List.intercalate_cons_cons, List.map_append, ih, List.map_cons]

/-- A separator that `f` drops leaves no trace in the joined list. -/
theorem filterMap_intercalate {f : α → Option β} {sep : List α} (h : sep.filterMap f = [])
    (l : List (List α)) : (sep.intercalate l).filterMap f = l.flatMap (List.filterMap f) := by
  induction l with
  | nil => rfl
  | cons s l ih =>
    cases l with
    | nil => simp
    | cons t l =>
      simp only [List.intercalate_cons_cons, List.filterMap_append, h, List.append_nil, ih,
        List.flatMap_cons]

namespace Lexis

variable (L : Lexis α)

def render : Lexeme α → List α
  | .word w => w
  | .sym a => [a]
  | .str s => L.quote :: (s ++ [L.quote])

/-- A literal is blanked out, quotes included. -/
def mask : Lexeme α → List α
  | .word w => w
  | .sym a => [a]
  | .str s => List.replicate (s.length + 2) L.blank

def text (ts : List (Lexeme α)) : List α := ts.flatMap L.render

def masked (ts : List (Lexeme α)) : List α := ts.flatMap L.mask

/-- A lexeme of the right characters. -/
def Ok : Lexeme α → Prop
  | .word w => w ≠ [] ∧ ∀ a ∈ w, L.isWord a = true
  | .sym a => L.isSym a = true
  | .str s => Closed L.quote L.escape s

/-- No two words are neighbours. -/
def Apart (ts : List (Lexeme α)) : Prop :=
  ts.IsChain fun s t => ∀ v w, ¬ (s = .word v ∧ t = .word w)

variable {L} {ts us : List (Lexeme α)} {a : α} {w s : List α}

@[simp] theorem text_nil : L.text [] = [] := rfl

@[simp] theorem text_cons (t : Lexeme α) : L.text (t :: ts) = L.render t ++ L.text ts := rfl

@[simp] theorem text_append : L.text (ts ++ us) = L.text ts ++ L.text us := List.flatMap_append

theorem text_flatMap {f : β → List (Lexeme α)} (l : List β) :
    L.text (l.flatMap f) = l.flatMap fun b => L.text (f b) := List.flatMap_assoc

theorem text_intercalate (sep : List (Lexeme α)) (l : List (List (Lexeme α))) :
    L.text (sep.intercalate l) = (L.text sep).intercalate (l.map L.text) := by
  induction l with
  | nil => rfl
  | cons ts l ih =>
    cases l with
    | nil => simp
    | cons us l => simpa [List.intercalate_cons_cons] using ih

@[simp] theorem text_syms (s : List α) : L.text (s.map Lexeme.sym) = s := by
  induction s with
  | nil => rfl
  | cons a s ih => simp [render, ih]

@[simp] theorem masked_nil : L.masked [] = [] := rfl

@[simp] theorem masked_cons (t : Lexeme α) : L.masked (t :: ts) = L.mask t ++ L.masked ts := rfl

@[simp] theorem apart_nil : Apart ([] : List (Lexeme α)) := List.isChain_nil

@[simp] theorem apart_word : Apart [Lexeme.word w] := List.isChain_singleton _

@[simp] theorem apart_sym_cons : Apart (.sym a :: ts) ↔ Apart ts := by
  simp [Apart, List.isChain_cons]

@[simp] theorem apart_str_cons : Apart (.str s :: ts) ↔ Apart ts := by
  simp [Apart, List.isChain_cons]

@[simp] theorem apart_word_sym : Apart (.word w :: .sym a :: ts) ↔ Apart ts := by
  have h : Apart (.sym a :: ts) ↔ Apart ts := apart_sym_cons
  rw [← h]
  simp [Apart, List.isChain_cons]

/-- A symbol keeps what stands before it from what stands behind. -/
@[simp] theorem apart_append_sym : Apart (ts ++ .sym a :: us) ↔ Apart ts ∧ Apart us := by
  have h : Apart (.sym a :: us) ↔ Apart us := apart_sym_cons
  rw [← h]
  simp [Apart, List.isChain_append]

@[simp] theorem apart_syms_append : Apart (s.map Lexeme.sym ++ ts) ↔ Apart ts := by
  induction s with
  | nil => rfl
  | cons a s ih => simpa using ih

theorem apart_append_syms (h : s ≠ []) :
    Apart (ts ++ (s.map Lexeme.sym ++ us)) ↔ Apart ts ∧ Apart us := by
  obtain ⟨a, s, rfl⟩ := List.exists_cons_of_ne_nil h
  simp

theorem apart_word_syms (h : s ≠ []) :
    Apart (.word w :: (s.map Lexeme.sym ++ us)) ↔ Apart us := by
  obtain ⟨a, s, rfl⟩ := List.exists_cons_of_ne_nil h
  simp

/-- **The words of a text are its runs**: with the literals masked, the nonempty
runs of word characters are the words that were written. -/
theorem mem_runs_masked (hok : ∀ t ∈ ts, L.Ok t) (hapart : Apart ts) (hw : w ≠ []) :
    w ∈ runs L.isWord (L.masked ts) ↔ Lexeme.word w ∈ ts := by
  have hblank : ∀ n (r : List α), w ∈ runs L.isWord (List.replicate n L.blank ++ r) ↔
      w ∈ runs L.isWord r := by
    intro n r
    induction n with
    | zero => simp
    | succ n ih => simp [List.replicate_succ, runs_cons _ L.blank_sep, hw, ih]
  induction ts with
  | nil =>
    have hnil : runs L.isWord ([] : List α) = [[]] := runs_word (by simp)
    simp [hnil, hw]
  | cons t ts ih =>
    have htail := ih (fun t' hm => hok t' (List.mem_cons_of_mem _ hm)) hapart.of_cons
    have ht := hok t List.mem_cons_self
    cases t with
    | sym b =>
      have hb := L.sym_sep b ht
      simpa [mask, runs_cons _ hb, hw] using htail
    | str body => simpa [mask, hblank] using htail
    | word v =>
      cases ts with
      | nil => simp [mask, runs_word ht.2]
      | cons t' ts =>
        have ht' := hok t' (by simp)
        -- what follows a word starts with a character outside the word alphabet
        obtain ⟨c, r, hr, hc⟩ : ∃ c r, L.masked (t' :: ts) = c :: r ∧ L.isWord c = false := by
          cases t' with
          | word v' => exact absurd ⟨rfl, rfl⟩ (hapart.rel v v')
          | sym b => exact ⟨b, _, rfl, L.sym_sep b ht'⟩
          | str body => exact ⟨L.blank, _, rfl, L.blank_sep⟩
        rw [masked_cons, hr, mask, runs_append_cons _ _ hc, runs_word ht.2]
        rw [hr, runs_cons _ hc, List.mem_cons, or_iff_right hw] at htail
        rw [List.singleton_append, List.mem_cons, List.mem_cons, Lexeme.word.injEq]
        exact or_congr Iff.rfl htail

end Lexis

end Arlen.Lib
