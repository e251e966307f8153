import Arlen.Graph.Cypher
import Arlen.Lib.Lexeme

/-!
# What the self-check sees

The scanner's own rules as a lexis: words of letters, digits and `_`, literals
between single quotes with backslash escapes, and symbols that open neither a
literal nor a comment. Over a text of such lexemes the scanner is exact: the
stripped text is the masked one, a keyword is found where it was written as a
word, and the labels are the words behind a colon.
-/

namespace Arlen.Graph

open Arlen.Lib

/-- ASCII, no word byte, no quote and no slash. -/
def isSymByte (b : UInt8) : Bool := !isWordByte b && b != 34 && b != 39 && b != 47 && b < 128

def cypherLexis : Lexis UInt8 where
  isWord := isWordByte
  isSym := isSymByte
  quote := 39
  escape := 92
  blank := 32
  blank_sep := by decide
  sym_sep := by
    intro b hb
    simp only [isSymByte, Bool.and_eq_true, Bool.not_eq_true'] at hb
    exact hb.1.1.1.1

variable {ts : List (Lexeme UInt8)}

/-! ## Byte classes -/

theorem isWordByte_iff {b : UInt8} : isWordByte b = true ↔
    (65 ≤ b.toNat ∧ b.toNat ≤ 90) ∨ (97 ≤ b.toNat ∧ b.toNat ≤ 122) ∨
      (48 ≤ b.toNat ∧ b.toNat ≤ 57) ∨ b.toNat = 95 := by
  simp [isWordByte, isAsciiAlphanumeric, isAsciiAlphabetic, isAsciiDigit, UInt8.le_iff_toNat_le,
    ← UInt8.toNat_inj, or_assoc]

theorem isWordByte_lt {b : UInt8} (h : isWordByte b = true) : b.toNat < 128 := by
  rw [isWordByte_iff] at h
  omega

theorem isSymByte_lt {b : UInt8} (h : isSymByte b = true) : b.toNat < 128 := by
  simp only [isSymByte, Bool.and_eq_true, decide_eq_true_eq] at h
  exact h.2

theorem isWordByte_toAsciiUppercase (b : UInt8) :
    isWordByte (toAsciiUppercase b) = isWordByte b := by
  rw [Bool.eq_iff_iff, isWordByte_iff, isWordByte_iff, toAsciiUppercase]
  split
  · next h =>
    simp only [Bool.and_eq_true, decide_eq_true_eq, UInt8.le_iff_toNat_le, UInt8.reduceToNat] at h
    have hsub : (b - 32).toNat = b.toNat - 32 :=
      UInt8.toNat_sub_of_le _ _ (UInt8.le_iff_toNat_le.2 (by simp; omega))
    omega
  · rfl

theorem toAsciiUppercase_digit {b : UInt8} (h : isAsciiDigit b = true) :
    toAsciiUppercase b = b := by
  simp only [isAsciiDigit, Bool.and_eq_true, decide_eq_true_eq, UInt8.le_iff_toNat_le,
    UInt8.reduceToNat] at h
  have hlow : ¬ 97 ≤ b := by
    simp only [UInt8.le_iff_toNat_le, UInt8.reduceToNat]
    omega
  simp [toAsciiUppercase, hlow]

/-- A word byte or symbol opens neither a literal nor a comment. -/
theorem skipInert_plain {b : UInt8} (h : isWordByte b = true ∨ isSymByte b = true) (r : Bytes) :
    skipInert (b :: r) = none := by
  have hne : b ≠ 34 ∧ b ≠ 39 ∧ b ≠ 47 := by
    rcases h with h | h
    · refine ⟨?_, ?_, ?_⟩ <;> rintro rfl <;> revert h <;> decide
    · simp only [isSymByte, Bool.and_eq_true, bne_iff_ne] at h
      exact ⟨h.1.1.1.2, h.1.1.2, h.1.2⟩
  simp [skipInert, hne]

/-! ## Stripping -/

theorem skipString_closed {s : Bytes} (h : Closed 39 92 s) (r : Bytes) :
    skipString 39 (s ++ 39 :: r) = r := by
  induction h with
  | nil => cases r <;> simp [skipString]
  | escaped _ ih => simpa [skipString] using ih
  | @plain a s hq he _ ih =>
    -- the closing quote is still to come, so the loop has a second byte to look at
    obtain ⟨c, t, ht⟩ : ∃ c t, s ++ 39 :: r = c :: t := by cases s <;> simp
    rw [List.cons_append, ht, skipString]
    simpa [hq, he, ← ht] using ih

theorem skipInert_str {s : Bytes} (h : Closed 39 92 s) (r : Bytes) :
    skipInert (39 :: (s ++ 39 :: r)) = some r := by
  simp [skipInert, skipString_closed h]

theorem stripBytes_some {s r : Bytes} (h : skipInert s = some r) :
    stripBytes s = List.replicate (s.length - r.length) 32 ++ stripBytes r := by
  rw [stripBytes]
  split
  · next h' => rw [Option.some.inj (h.symm.trans h')]
  · next h' => rw [h] at h'; cases h'

theorem stripBytes_plain {b : UInt8} (h : isWordByte b = true ∨ isSymByte b = true) (r : Bytes) :
    stripBytes (b :: r) = b :: stripBytes r := by
  have hnone := skipInert_plain h r
  rw [stripBytes]
  split
  · next h' => rw [hnone] at h'; cases h'
  · rfl

theorem stripBytes_word {w : Bytes} (h : ∀ b ∈ w, isWordByte b = true) (r : Bytes) :
    stripBytes (w ++ r) = w ++ stripBytes r := by
  induction w with
  | nil => rfl
  | cons b w ih =>
    rw [List.cons_append, stripBytes_plain (.inl (h b List.mem_cons_self)),
      ih fun c hc => h c (List.mem_cons_of_mem _ hc), List.cons_append]

/-- **Stripping masks the literals** and touches nothing else. -/
theorem stripBytes_text (hok : ∀ t ∈ ts, cypherLexis.Ok t) :
    stripBytes (cypherLexis.text ts) = cypherLexis.masked ts := by
  induction ts with
  | nil => rw [Lexis.text_nil, stripBytes]; rfl
  | cons t ts ih =>
    have ht := hok t List.mem_cons_self
    have htail := ih fun t' hm => hok t' (List.mem_cons_of_mem _ hm)
    rw [Lexis.text_cons, Lexis.masked_cons, ← htail]
    cases t with
    | word w => exact stripBytes_word ht.2 _
    | sym b => exact stripBytes_plain (.inr ht) _
    | str s =>
      have hskip := skipInert_str (s := s) ht (cypherLexis.text ts)
      have htext : cypherLexis.render (.str s) ++ cypherLexis.text ts =
          39 :: (s ++ 39 :: cypherLexis.text ts) := by
        simp [Lexis.render, cypherLexis]
      rw [htext, stripBytes_some hskip]
      simp [Lexis.mask, cypherLexis]
      omega

theorem mask_lt {t : Lexeme UInt8} (h : cypherLexis.Ok t) : ∀ b ∈ cypherLexis.mask t,
    b.toNat < 128 := by
  intro b hb
  cases t with
  | word w => exact isWordByte_lt (h.2 b hb)
  | sym a =>
    obtain rfl := List.mem_singleton.1 hb
    exact isSymByte_lt h
  | str s =>
    obtain rfl := List.eq_of_mem_replicate hb
    decide

/-- The stripped text of some lexemes is the masked one; being ASCII, it decodes. -/
theorem utf8_stripStringsAndComments {c : String} (hok : ∀ t ∈ ts, cypherLexis.Ok t)
    (hc : utf8 c = cypherLexis.text ts) :
    utf8 (stripStringsAndComments c) = cypherLexis.masked ts := by
  have hlt : ∀ b ∈ cypherLexis.masked ts, b.toNat < 128 := by
    intro b hb
    obtain ⟨t, ht, hb⟩ := List.mem_flatMap.1 hb
    exact mask_lt (hok t ht) b hb
  obtain ⟨s, hs⟩ := exists_utf8_of_ascii hlt
  rw [stripStringsAndComments, hc, stripBytes_text hok, ← hs, decodeUtf8_utf8, Option.getD_some]

/-! ## Keywords -/

theorem wholeWordAt_append (a n b : Bytes) :
    wholeWordAt (a ++ n ++ b) n a.length = true ↔
      (∀ x ∈ a.getLast?, isWordByte x = false) ∧ ∀ x ∈ b.head?, isWordByte x = false := by
  have hbefore : (a.length == 0 || !isWordByte ((a ++ n ++ b).getD (a.length - 1) 0)) = true ↔
      ∀ x ∈ a.getLast?, isWordByte x = false := by
    rcases List.eq_nil_or_concat a with rfl | ⟨a, d, rfl⟩
    · simp
    · simp [List.getD_eq_getElem?_getD]
  have hafter : (a.length + n.length == (a ++ n ++ b).length ||
      !isWordByte ((a ++ n ++ b).getD (a.length + n.length) 0)) = true ↔
      ∀ x ∈ b.head?, isWordByte x = false := by
    cases b with
    | nil => simp
    | cons c b =>
      have hget : (a ++ n ++ c :: b).getD (a.length + n.length) 0 = c := by
        rw [← List.length_append, List.getD_eq_getElem?_getD,
          List.getElem?_append_right (Nat.le_refl _), Nat.sub_self]
        rfl
      rw [hget]
      simp
  have hhere : ((a ++ n ++ b).drop a.length).take n.length = n := by simp
  rw [wholeWordAt, hhere, beq_self_eq_true, Bool.true_and, Bool.and_eq_true, hbefore, hafter]

/-- The scan over all positions finds a needle where it stands as a whole word. -/
theorem any_positions_iff {s n : Bytes} :
    (positions s n).any (wholeWordAt s n) = true ↔ WholeWord isWordByte n s := by
  rw [List.any_eq_true]
  constructor
  · rintro ⟨i, hi, hat⟩
    have hle : i + n.length ≤ s.length := by
      have := List.mem_range.1 hi
      omega
    have hn : (s.drop i).take n.length = n := by
      simp only [wholeWordAt, Bool.and_eq_true, beq_iff_eq] at hat
      exact hat.1.1
    have hs : s = s.take i ++ n ++ s.drop (i + n.length) := by
      conv_lhs => rw [← List.take_append_drop i s, ← List.take_append_drop n.length (s.drop i), hn]
      rw [List.append_assoc, List.drop_drop]
    have hlen : (s.take i).length = i := List.length_take_of_le (by omega)
    generalize s.take i = a at hs hlen
    generalize s.drop (i + n.length) = b at hs
    subst hs hlen
    exact ⟨a, b, rfl, (wholeWordAt_append a n b).1 hat⟩
  · rintro ⟨a, b, rfl, hab⟩
    refine ⟨a.length, List.mem_range.2 ?_, (wholeWordAt_append a n b).2 hab⟩
    simp only [List.length_append]
    omega

/-- The keywords are words. -/
theorem forbidden_word : ∀ kw ∈ forbidden, utf8 kw ≠ [] ∧ ∀ b ∈ utf8 kw, isWordByte b = true := by
  have hall : (forbidden.all fun kw => !(utf8 kw).isEmpty && (utf8 kw).all isWordByte) = true := by
    decide
  intro kw hkw
  have := List.all_eq_true.1 hall kw hkw
  simpa using this

/-- **A forbidden keyword is found where a word spells it.** -/
theorem forbiddenKeyword_eq_none {c : String} (hok : ∀ t ∈ ts, cypherLexis.Ok t)
    (hapart : Lexis.Apart ts) (hc : utf8 c = cypherLexis.masked ts) :
    forbiddenKeyword c = none ↔
      ∀ w, Lexeme.word w ∈ ts → ∀ kw ∈ forbidden, utf8 kw ≠ w.map toAsciiUppercase := by
  have hfound : ∀ kw ∈ forbidden,
      ((positions ((utf8 c).map toAsciiUppercase) (utf8 kw)).any
        (wholeWordAt ((utf8 c).map toAsciiUppercase) (utf8 kw)) = true ↔
      ∃ w, Lexeme.word w ∈ ts ∧ utf8 kw = w.map toAsciiUppercase) := by
    intro kw hkw
    obtain ⟨hne, hword⟩ := forbidden_word kw hkw
    rw [any_positions_iff, wholeWord_iff_mem_runs hword, hc,
      runs_map isWordByte_toAsciiUppercase, List.mem_map]
    constructor
    · rintro ⟨w, hw, heq⟩
      have hw0 : w ≠ [] := by
        rintro rfl
        exact hne heq.symm
      exact ⟨w, (Lexis.mem_runs_masked hok hapart hw0).1 hw, heq.symm⟩
    · rintro ⟨w, hw, heq⟩
      have hw0 : w ≠ [] := (hok _ hw).1
      exact ⟨w, (Lexis.mem_runs_masked hok hapart hw0).2 hw, heq.symm⟩
  rw [forbiddenKeyword, List.find?_eq_none]
  constructor
  · intro h w hw kw hkw heq
    exact h kw hkw ((hfound kw hkw).2 ⟨w, hw, heq⟩)
  · intro h kw hkw hany
    obtain ⟨w, hw, heq⟩ := (hfound kw hkw).1 hany
    exact h w hw kw hkw heq

/-! ## The limit -/

/-- A last line of `LIMIT` and a number is found. -/
theorem hasLimit_of_masked {c : String} {x : UInt8} {d : Bytes} (hx : isAsciiDigit x = true)
    (hc : utf8 c = cypherLexis.masked
      (ts ++ [.sym 10, .word (utf8 "LIMIT"), .sym 32, .word (x :: d)])) : hasLimit c = true := by
  have hlimit : (utf8 "LIMIT").map toAsciiUppercase = utf8 "LIMIT" := by decide
  have hup := toAsciiUppercase_digit hx
  have hblank : x ≠ 32 ∧ x ≠ 9 := by
    refine ⟨?_, ?_⟩ <;> rintro rfl <;> revert hx <;> decide
  have hbytes : (utf8 c).map toAsciiUppercase =
      (cypherLexis.masked ts).map toAsciiUppercase ++ [10] ++ utf8 "LIMIT" ++
        (32 :: x :: d.map toAsciiUppercase) := by
    rw [hc]
    simp only [Lexis.masked, List.flatMap_append, List.flatMap_cons, List.flatMap_nil, Lexis.mask,
      List.map_append, List.map_cons, List.map_nil, List.append_nil, hlimit, hup]
    simp [show toAsciiUppercase 10 = 10 by decide, show toAsciiUppercase 32 = 32 by decide]
  simp only [hasLimit, hbytes]
  generalize (cypherLexis.masked ts).map toAsciiUppercase = a
  refine List.any_eq_true.2 ⟨(a ++ [10]).length, List.mem_range.2 ?_, Bool.and_eq_true_iff.2 ⟨?_, ?_⟩⟩
  · simp only [List.length_append]
    omega
  · rw [wholeWordAt_append]
    simp [show isWordByte 10 = false by decide, show isWordByte 32 = false by decide]
  · have hdrop : (a ++ [10] ++ utf8 "LIMIT" ++ 32 :: x :: d.map toAsciiUppercase).drop
        ((a ++ [10]).length + (utf8 "LIMIT").length) = 32 :: x :: d.map toAsciiUppercase := by
      rw [← List.length_append, List.drop_left]
    rw [hdrop]
    simp [digitFollows, hblank, hx]

/-! ## Labels -/

/-- Behind every colon stands a word that `ok` accepts, closed by a symbol that
ends a label, or such a symbol at once. -/
inductive Labelled (ok : Bytes → Prop) : List (Lexeme UInt8) → Prop where
  | nil : Labelled ok []
  | other {t : Lexeme UInt8} {ts : List (Lexeme UInt8)} : t ≠ .sym 58 → Labelled ok ts →
      Labelled ok (t :: ts)
  | label {w : Bytes} {b : UInt8} {ts : List (Lexeme UInt8)} : ok w → isLabelChar b = false →
      Labelled ok (.sym b :: ts) → Labelled ok (.sym 58 :: .word w :: .sym b :: ts)
  | bare {b : UInt8} {ts : List (Lexeme UInt8)} : b ≠ 58 → isLabelChar b = false →
      Labelled ok (.sym b :: ts) → Labelled ok (.sym 58 :: .sym b :: ts)

theorem Labelled.append {ok : Bytes → Prop} {us : List (Lexeme UInt8)} (hts : Labelled ok ts)
    (hus : Labelled ok us) : Labelled ok (ts ++ us) := by
  induction hts with
  | nil => exact hus
  | other ht _ ih => exact .other ht ih
  | label hw hb _ ih => exact .label hw hb ih
  | bare hc hb _ ih => exact .bare hc hb ih

theorem namespacesFrom_some {s r : Bytes} (h : skipInert s = some r) (out : List String) :
    namespacesFrom s out = namespacesFrom r out := by
  rw [namespacesFrom]
  split
  · next h' => rw [Option.some.inj (h.symm.trans h')]
  · next h' => rw [h] at h'; cases h'

theorem namespacesFrom_plain {b : UInt8} (h : isWordByte b = true ∨ isSymByte b = true)
    (hb : b ≠ 58) (r : Bytes) (out : List String) :
    namespacesFrom (b :: r) out = namespacesFrom r out := by
  have hnone := skipInert_plain h r
  rw [namespacesFrom]
  split
  · next h' => rw [hnone] at h'; cases h'
  · simp [hb]

theorem namespacesFrom_colon (r : Bytes) (out : List String) (h : r.head? ≠ some 58) :
    namespacesFrom (58 :: r) out =
      namespacesFrom (r.dropWhile isLabelChar) (pushLabel out (r.takeWhile isLabelChar)) := by
  have hnone : skipInert (58 :: r) = none := skipInert_plain (.inr (by decide)) r
  rw [namespacesFrom]
  split
  · next h' => rw [hnone] at h'; cases h'
  · simp [h]

theorem ne_colon_of_isWordByte {b : UInt8} (h : isWordByte b = true) : b ≠ 58 := by
  rintro rfl
  revert h
  decide

theorem namespacesFrom_word {w : Bytes} (h : ∀ b ∈ w, isWordByte b = true) (r : Bytes)
    (out : List String) : namespacesFrom (w ++ r) out = namespacesFrom r out := by
  induction w with
  | nil => rfl
  | cons b w ih =>
    have hb := h b List.mem_cons_self
    rw [List.cons_append, namespacesFrom_plain (.inl hb) (ne_colon_of_isWordByte hb),
      ih fun c hc => h c (List.mem_cons_of_mem _ hc)]

theorem mem_pushLabel {out : List String} {w : Bytes} {l : String} (h : l ∈ pushLabel out w) :
    l ∈ out ∨ utf8 l = w := by
  unfold pushLabel at h
  split at h
  · exact .inl h
  split at h
  · exact .inl h
  · next l' hl' =>
    split at h
    · rcases List.mem_append.1 h with h | h
      · exact .inl h
      · obtain rfl := List.mem_singleton.1 h
        exact .inr (utf8_of_decodeUtf8 hl')
    · exact .inl h

/-- **The labels of a text are the words behind its colons.** -/
theorem mem_namespacesFrom {ok : Bytes → Prop} (hok : ∀ t ∈ ts, cypherLexis.Ok t)
    (hlab : Labelled ok ts) {out : List String} {l : String}
    (h : l ∈ namespacesFrom (cypherLexis.text ts) out) : l ∈ out ∨ ok (utf8 l) := by
  induction hlab generalizing out with
  | nil =>
    rw [Lexis.text_nil, namespacesFrom] at h
    exact .inl h
  | @other t ts ht _ ih =>
    have htok := hok t List.mem_cons_self
    refine ih (fun t' hm => hok t' (List.mem_cons_of_mem _ hm)) ?_
    rw [Lexis.text_cons] at h
    cases t with
    | word w => rwa [Lexis.render, namespacesFrom_word htok.2] at h
    | sym b =>
      have hne : b ≠ 58 := fun hb => ht (by rw [hb])
      rwa [Lexis.render, List.singleton_append, namespacesFrom_plain (.inr htok) hne] at h
    | str s =>
      have htext : cypherLexis.render (.str s) ++ cypherLexis.text ts =
          39 :: (s ++ 39 :: cypherLexis.text ts) := by
        simp [Lexis.render, cypherLexis]
      rwa [htext, namespacesFrom_some (skipInert_str htok _)] at h
  | @label w b ts hw hb _ ih =>
    obtain ⟨hne, hword⟩ : w ≠ [] ∧ ∀ x ∈ w, isWordByte x = true := hok (.word w) (by simp)
    have hlabel : ∀ x ∈ w, isLabelChar x = true := fun x hx => by simp [isLabelChar, hword x hx]
    have htext : cypherLexis.text (.sym 58 :: .word w :: .sym b :: ts) =
        58 :: (w ++ b :: cypherLexis.text ts) := rfl
    have hhead : (w ++ b :: cypherLexis.text ts).head? ≠ some 58 := by
      obtain ⟨x, w, rfl⟩ := List.exists_cons_of_ne_nil hne
      simpa using ne_colon_of_isWordByte (hword x List.mem_cons_self)
    rw [htext, namespacesFrom_colon _ _ hhead, List.takeWhile_append_of_pos hlabel,
      List.dropWhile_append_of_pos hlabel, List.takeWhile_cons_of_neg (by simp [hb]),
      List.dropWhile_cons_of_neg (by simp [hb]), List.append_nil] at h
    rcases ih (fun t hm => hok t (List.mem_cons_of_mem _ (List.mem_cons_of_mem _ hm))) h with h | h
    · rcases mem_pushLabel h with h | h
      · exact .inl h
      · exact .inr (h ▸ hw)
    · exact .inr h
  | @bare b ts hb58 hb _ ih =>
    have htext : cypherLexis.text (.sym 58 :: .sym b :: ts) = 58 :: b :: cypherLexis.text ts := rfl
    have hhead : (b :: cypherLexis.text ts).head? ≠ some 58 := by simpa using hb58
    rw [htext, namespacesFrom_colon _ _ hhead, List.takeWhile_cons_of_neg (by simp [hb]),
      List.dropWhile_cons_of_neg (by simp [hb])] at h
    exact ih (fun t hm => hok t (List.mem_cons_of_mem _ hm)) h

/-! ## The whole check -/

/-- **The self-check is exact on lexemes**: a text of words that stand apart, with
declared labels and a limit at the end, passes unless a word spells a forbidden
keyword. -/
theorem verifyBuiltCypher_iff {c : String} {x : UInt8} {d : Bytes} {expected : List String}
    {us : List (Lexeme UInt8)}
    (hts : ts = us ++ [.sym 10, .word (utf8 "LIMIT"), .sym 32, .word (x :: d)])
    (hx : isAsciiDigit x = true) (hc : utf8 c = cypherLexis.text ts)
    (hok : ∀ t ∈ ts, cypherLexis.Ok t) (hapart : Lexis.Apart ts)
    (hlab : Labelled (fun w => ∃ l ∈ expected, utf8 l = w) ts) :
    verifyBuiltCypher c expected = .ok () ↔
      ∀ w, Lexeme.word w ∈ ts → ∀ kw ∈ forbidden, utf8 kw ≠ w.map toAsciiUppercase := by
  have hstrip := utf8_stripStringsAndComments hok hc
  have hlimit : hasLimit (stripStringsAndComments c) = true :=
    hasLimit_of_masked hx (hts ▸ hstrip)
  have hlabels : ((extractNamespaces c).find? fun l => !expected.contains l) = none := by
    rw [List.find?_eq_none]
    intro l hl
    rw [extractNamespaces, hc] at hl
    rcases mem_namespacesFrom hok hlab hl with h | ⟨l', hl', heq⟩
    · cases h
    · simpa [← utf8_inj heq] using hl'
  rw [← forbiddenKeyword_eq_none hok hapart hstrip]
  simp only [verifyBuiltCypher, hlimit, hlabels]
  cases forbiddenKeyword (stripStringsAndComments c) <;> simp

end Arlen.Graph
