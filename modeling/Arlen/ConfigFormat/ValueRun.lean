import Arlen.ConfigFormat.Rewrite

/-!
# The run of a value on its line

What a line of each dialect looks like around the value of its key: a plain line has the value
behind its first separator, up to the closing quote, an inline comment or the end of the line; a
statement has it behind the comma that follows its quoted key, up to the closing quote or the
bracket. The span that parsing a line gives is that of the run described here.
-/

namespace Arlen.ConfigFormat

open Arlen.Lib

variable {F : Type} {f64 : Float64 F} {d : LineDialect} {sec : Option Str} {raw y t : Str}
  {q comment : Char}

/-! ## Runs -/

def Blank (s : Str) : Prop := ∀ c ∈ s, isWhitespace c = true

/-- The text does not end in white space. -/
def Trimmed (s : Str) : Prop := ∀ c, s.getLast? = some c → isWhitespace c = false

/-- A text between quotes: none of the kind stands in it but behind a backslash. -/
inductive Enclosed (q : Char) : Str → Prop
  | nil : Enclosed q []
  | escaped {c : Char} {s : Str} : Enclosed q s → Enclosed q ('\\' :: c :: s)
  | plain {c : Char} {s : Str} (hescape : c ≠ '\\') (hquote : c ≠ q) : Enclosed q s →
      Enclosed q (c :: s)

/-- An inline comment begins with the comment character behind a space or a tab. -/
def Uncommented (comment : Char) (s : Str) : Prop :=
  s.IsChain fun b c => b = ' ' ∨ b = '\t' → c ≠ comment

/-- A value and what follows it on a plain line. -/
inductive PlainRun (comment : Char) : Str → Str → Prop
  | quoted {q : Char} {s back : Str} (hq : q = '"' ∨ q = '\'') (hs : Enclosed q s) :
      PlainRun comment (q :: s ++ [q]) back
  | unclosed {q : Char} {s blanks : Str} (hq : q = '"' ∨ q = '\'') (hs : Trimmed (q :: s))
      (hblanks : Blank blanks) (hopen : ∀ u v, Enclosed q u → s ++ blanks ≠ u ++ q :: v) :
      PlainRun comment (q :: s) blanks
  | bare {c : Char} {s blanks back : Str} (hc : c ≠ '"' ∧ c ≠ '\'')
      (hstart : isWhitespace c = false) (hs : Trimmed (c :: s)) (hblanks : Blank blanks)
      (hrun : Uncommented comment (c :: s ++ blanks))
      (hback : back = [] ∨ ∃ u, back = comment :: u ∧
        (blanks.getLast? = some ' ' ∨ blanks.getLast? = some '\t')) :
      PlainRun comment (c :: s) (blanks ++ back)
  | empty : PlainRun comment [] []

/-- A value and what follows it in a statement. -/
inductive StatementRun : Str → Str → Prop
  | quoted {q : Char} {s back : Str} (hq : q = '"' ∨ q = '\'') (hs : Enclosed q s) :
      StatementRun (q :: s ++ [q]) back
  | bare {s blanks back : Str} {c : Char} (hfirst : ∀ x u, s ++ blanks = x :: u →
        (x ≠ '"' ∧ x ≠ '\'') ∧ isWhitespace x = false) (hs : Trimmed s)
      (hblanks : Blank blanks) (hinside : ∀ x ∈ s ++ blanks, x ≠ ')' ∧ x ≠ ';')
      (hc : c = ')' ∨ c = ';') : StatementRun s (blanks ++ c :: back)

/-- A line of the dialect, cut before and behind the value of its key. -/
inductive ValueRun (d : LineDialect) : Str → Str → Str → Prop
  | plain {key blanks run back : Str} {sep : Char} (hd : d.statement = none)
      (hkey : ∀ c ∈ key, c ∉ d.separators) (hsep : sep ∈ d.separators) (hblanks : Blank blanks)
      (hrun : PlainRun d.commentChar run back) : ValueRun d (key ++ sep :: blanks) run back
  | statement {func key gap run back ws₁ ws₂ ws₃ ws₄ : Str} (hd : d.statement = some func)
      (h₁ : Blank ws₁) (h₂ : Blank ws₂) (h₃ : Blank ws₃) (hkey : Enclosed '"' key)
      (hgap : ',' ∉ gap) (h₄ : Blank ws₄) (hrun : StatementRun run back) :
      ValueRun d (ws₁ ++ func ++ ws₂ ++ ['('] ++ ws₃ ++ '"' :: key ++ '"' :: gap ++ ',' :: ws₄)
        run back

/-! ## Scanning to the end of a run -/

theorem exists_trimEnd_eq (s : Str) :
    ∃ blanks, s = Text.trimEnd s ++ blanks ∧ Blank blanks ∧ Trimmed (Text.trimEnd s) := by
  refine ⟨s.rtakeWhile isWhitespace, List.rdropWhile_append_rtakeWhile.symm,
    fun c hc => List.mem_rtakeWhile_imp hc, fun c hc => ?_⟩
  have hne : Text.trimEnd s ≠ [] := by
    rintro h
    rw [h] at hc
    cases hc
  rw [List.getLast?_eq_some_getLast hne] at hc
  cases hc
  exact Bool.eq_false_iff.2 (List.rdropWhile_last_not _ _ hne)

/-- **The quote that closes a text** is the first that stands behind no backslash. -/
theorem enclosed_of_find {n : Nat} {e : Bool} (h : findUnescapedQuote q e y = some n) :
    ∃ u v, y = u ++ q :: v ∧ u.length = n ∧
      if e then ∃ c u', u = c :: u' ∧ Enclosed q u' else Enclosed q u := by
  induction y generalizing e n with
  | nil => cases e <;> cases h
  | cons c y ih =>
    cases e with
    | true =>
      obtain ⟨k, hk, rfl⟩ := Option.map_eq_some_iff.1 h
      obtain ⟨u, v, rfl, rfl, hu⟩ := ih hk
      exact ⟨c :: u, v, rfl, rfl, c, u, rfl, hu⟩
    | false =>
      rw [findUnescapedQuote] at h
      split at h
      · next hc =>
        obtain ⟨k, hk, rfl⟩ := Option.map_eq_some_iff.1 h
        obtain ⟨u, v, rfl, rfl, x, u', rfl, hu⟩ := ih hk
        exact ⟨c :: x :: u', v, rfl, rfl, by rw [hc]; exact .escaped hu⟩
      · next hc =>
        split at h
        · next hq =>
          cases h
          exact ⟨[], y, by rw [hq]; rfl, rfl, .nil⟩
        · next hq =>
          obtain ⟨k, hk, rfl⟩ := Option.map_eq_some_iff.1 h
          obtain ⟨u, v, rfl, rfl, hu⟩ := ih hk
          exact ⟨c :: u, v, rfl, rfl, .plain hc hq hu⟩

theorem find_of_enclosed (hq : q ≠ '\\') {u : Str} (h : Enclosed q u) (v : Str) :
    findUnescapedQuote q false (u ++ q :: v) = some u.length := by
  induction h with
  | nil => simp [findUnescapedQuote, hq]
  | escaped h ih => simp [findUnescapedQuote, ih]
  | plain hescape hquote h ih => simp [findUnescapedQuote, hescape, hquote, ih]

theorem uncommented_of_find {prev : Bool} (h : findInlineComment comment prev y = none) :
    (prev = true → y.head? ≠ some comment) ∧ Uncommented comment y := by
  induction y generalizing prev with
  | nil => exact ⟨fun _ => nofun, .nil⟩
  | cons c y ih =>
    rw [findInlineComment] at h
    split at h
    · cases h
    · next hc =>
      obtain ⟨hhead, hrest⟩ := ih (Option.map_eq_none_iff.1 h)
      refine ⟨fun hprev heq => hc ⟨Option.some.inj heq, hprev⟩, ?_⟩
      cases y with
      | nil => exact .singleton _
      | cons x y =>
        refine List.isChain_cons_cons.2 ⟨fun hspace heq => hhead ?_ (by rw [heq]; rfl), hrest⟩
        rcases hspace with rfl | rfl <;> rfl

theorem commented_of_find {prev : Bool} {n : Nat} (h : findInlineComment comment prev y = some n) :
    ∃ u v, y = u ++ comment :: v ∧ u.length = n ∧ Uncommented comment u ∧
      (prev = true → u.head? ≠ some comment) ∧
      (u = [] ∧ prev = true ∨ u.getLast? = some ' ' ∨ u.getLast? = some '\t') := by
  induction y generalizing prev n with
  | nil => cases h
  | cons c y ih =>
    rw [findInlineComment] at h
    split at h
    · next hc =>
      cases h
      exact ⟨[], y, by rw [hc.1]; rfl, rfl, .nil, fun _ => (by simp), .inl ⟨rfl, hc.2⟩⟩
    · next hc =>
      obtain ⟨k, hk, rfl⟩ := Option.map_eq_some_iff.1 h
      obtain ⟨u, v, rfl, rfl, hu, hhead, hlast⟩ := ih hk
      refine ⟨c :: u, v, rfl, rfl, ?_, fun hprev heq => hc ⟨Option.some.inj heq, hprev⟩, .inr ?_⟩
      · cases u with
        | nil => exact .singleton _
        | cons x u =>
          refine List.isChain_cons_cons.2 ⟨fun hspace heq => hhead ?_ (by rw [heq]; rfl), hu⟩
          rcases hspace with rfl | rfl <;> rfl
      · rcases hlast with ⟨rfl, hspace⟩ | hlast
        · simpa using hspace
        · cases u with
          | nil => rcases hlast with h | h <;> cases h
          | cons x u => simpa using hlast

/-! ## The span is that of the run -/

theorem exists_trimEnd_cons {c : Char} {s : Str} (hc : isWhitespace c = false) :
    ∃ run blanks, Text.trimEnd (c :: s) = c :: run ∧ s = run ++ blanks ∧ Blank blanks ∧
      Trimmed (c :: run) := by
  obtain ⟨blanks, hs, hblanks, htrim⟩ := exists_trimEnd_eq (c :: s)
  cases hrun : Text.trimEnd (c :: s) with
  | nil =>
    rw [hrun, List.nil_append] at hs
    have := hblanks c (hs ▸ List.mem_cons_self)
    rw [hc] at this
    cases this
  | cons x run =>
    rw [hrun] at hs htrim
    obtain ⟨rfl, rfl⟩ := List.cons.inj hs
    exact ⟨run, blanks, rfl, rfl, hblanks, htrim⟩

theorem isWhitespace_quote (hq : q = '"' ∨ q = '\'') : isWhitespace q = false := by
  rcases hq with rfl | rfl <;> decide

theorem trimEnd_quoted (hq : q = '"' ∨ q = '\'') (s : Str) :
    Text.trimEnd (q :: s ++ [q]) = q :: s ++ [q] :=
  List.rdropWhile_concat_neg _ _ _ (by simp [isWhitespace_quote hq])

/-- Behind the separator. -/
theorem plainRun_of_valueRun (hy : ∀ c s, y = c :: s → isWhitespace c = false) :
    ∃ back, y = Text.trimEnd (valueRun comment y) ++ back ∧
      PlainRun comment (Text.trimEnd (valueRun comment y)) back := by
  cases y with
  | nil => exact ⟨[], rfl, .empty⟩
  | cons q rest =>
    have hfirst := hy q rest rfl
    unfold valueRun
    simp only
    split
    · next hq =>
      have hslash : q ≠ '\\' := by rcases hq with rfl | rfl <;> decide
      cases hclose : findUnescapedQuote q false rest with
      | some n =>
        obtain ⟨u, v, rfl, rfl, hu⟩ := enclosed_of_find hclose
        have htake : q :: (u ++ q :: v).take (u.length + 1) = q :: u ++ [q] := by
          rw [List.take_length_add_append]
          rfl
        simp only [htake, trimEnd_quoted hq]
        exact ⟨v, by simp, .quoted hq hu⟩
      | none =>
        obtain ⟨s, blanks, hrun, rfl, hblanks, htrim⟩ := exists_trimEnd_cons (s := rest) hfirst
        simp only [hrun]
        refine ⟨blanks, rfl, .unclosed hq htrim hblanks fun u v hu heq => ?_⟩
        rw [heq, find_of_enclosed hslash hu] at hclose
        cases hclose
    · next hq =>
      have hbare : q ≠ '"' ∧ q ≠ '\'' := not_or.1 hq
      cases hstop : findInlineComment comment false (q :: rest) with
      | some n =>
        obtain ⟨u, v, hcut, rfl, hu, -, hlast⟩ := commented_of_find hstop
        have hspace : u.getLast? = some ' ' ∨ u.getLast? = some '\t' :=
          hlast.resolve_left fun h => Bool.false_ne_true h.2
        rw [hcut]
        simp only [List.take_left]
        cases u with
        | nil => rcases hspace with h | h <;> cases h
        | cons x u =>
          obtain ⟨rfl, hrest⟩ := List.cons.inj hcut
          obtain ⟨s, blanks, hrun, rfl, hblanks, htrim⟩ := exists_trimEnd_cons (s := u) hfirst
          rw [hrun]
          refine ⟨blanks ++ comment :: v, by simp, .bare hbare hfirst htrim hblanks hu
            (.inr ⟨v, rfl, ?_⟩)⟩
          rcases List.eq_nil_or_concat blanks with rfl | ⟨bs, b, rfl⟩
          · rw [List.append_nil] at hspace
            have hsolid := htrim
            rcases hspace with h | h <;> exact absurd (hsolid _ h) (by decide)
          · rw [List.concat_eq_append, ← List.cons_append, ← List.append_assoc,
              List.getLast?_concat] at hspace
            rwa [List.concat_eq_append, List.getLast?_concat]
      | none =>
        obtain ⟨s, blanks, hrun, rfl, hblanks, htrim⟩ := exists_trimEnd_cons (s := rest) hfirst
        simp only [hrun]
        have hback := PlainRun.bare hbare hfirst htrim hblanks
          (uncommented_of_find hstop).2 (.inl rfl)
        rw [List.append_nil] at hback
        exact ⟨blanks, rfl, hback⟩

/-- Behind the comma. -/
theorem statementRun_of_find {n : Nat} (hy : ∀ c s, y = c :: s → isWhitespace c = false)
    (h : findStatementValueEnd y = some n) :
    ∃ back, y = Text.trimEnd (y.take n) ++ back ∧ StatementRun (Text.trimEnd (y.take n)) back := by
  cases y with
  | nil => cases h
  | cons q rest =>
    unfold findStatementValueEnd at h
    simp only at h
    split at h
    · next hq =>
      obtain ⟨n, hclose, rfl⟩ := Option.map_eq_some_iff.1 h
      obtain ⟨u, v, rfl, rfl, hu⟩ := enclosed_of_find hclose
      have htake : (q :: (u ++ q :: v)).take (1 + u.length + 1) = q :: u ++ [q] := by
        rw [Nat.add_comm 1, List.take_succ_cons, List.take_length_add_append]
        rfl
      rw [htake, trimEnd_quoted hq]
      exact ⟨v, by simp, .quoted hq hu⟩
    · next hq =>
      have hbare : q ≠ '"' ∧ q ≠ '\'' := not_or.1 hq
      obtain ⟨hlt, hstop, hinside⟩ := List.findIdx?_eq_some_iff_getElem.1 h
      have hcut : q :: rest = (q :: rest).take n ++ (q :: rest)[n] :: (q :: rest).drop (n + 1) := by
        rw [← List.drop_eq_getElem_cons hlt, List.take_append_drop]
      obtain ⟨blanks, hrun, hblanks, htrim⟩ := exists_trimEnd_eq ((q :: rest).take n)
      refine ⟨blanks ++ (q :: rest)[n] :: (q :: rest).drop (n + 1), ?_,
        .bare (fun x u hx => ?_) htrim hblanks (fun x hx => ?_) (by simpa using hstop)⟩
      · rw [← List.append_assoc, ← hrun, ← hcut]
      · rw [← hrun] at hx
        rw [hx] at hcut
        obtain ⟨rfl, -⟩ := List.cons.inj hcut
        exact ⟨hbare, hy _ _ rfl⟩
      · rw [← hrun] at hx
        obtain ⟨j, hj, rfl⟩ := List.getElem_of_mem hx
        rw [List.length_take] at hj
        have := hinside j (by omega)
        rw [List.getElem_take]
        simpa using this

/-- A statement up to its comma. -/
theorem statementHead_cut {func name region : Str} (h : statementHead func raw = some (name, region)) :
    ∃ ws₁ ws₂ ws₃ key gap, raw =
      ws₁ ++ func ++ ws₂ ++ ['('] ++ ws₃ ++ '"' :: key ++ '"' :: gap ++ ',' :: region ∧
      Blank ws₁ ∧ Blank ws₂ ∧ Blank ws₃ ∧ Enclosed '"' key ∧ ',' ∉ gap := by
  obtain ⟨⟨start, quoted⟩, hquote, h⟩ := Option.bind_eq_some_iff.1 h
  obtain ⟨n, hn, h⟩ := Option.bind_eq_some_iff.1 h
  obtain ⟨m, hm, h⟩ := Option.map_eq_some_iff.1 h
  obtain ⟨ws₁, ws₂, ws₃, hraw, -, h₁, h₂, h₃⟩ := keyQuote_cut hquote
  obtain ⟨key, v, rfl, rfl, hkey⟩ := enclosed_of_find hn
  have hv : (key ++ '"' :: v).drop (key.length + 1) = v := by simp
  rw [hv] at hm
  obtain ⟨gap, b, rfl, rfl, hgap⟩ := exists_of_find hm
  obtain ⟨-, hregion⟩ := Prod.mk.inj h
  rw [← List.drop_drop, hv, ← List.drop_drop, List.drop_left, List.drop_one, List.tail_cons]
    at hregion
  subst hregion
  exact ⟨ws₁, ws₂, ws₃, key, gap, by rw [hraw]; simp, h₁, h₂, h₃, hkey, hgap⟩

theorem trimStart_first {region : Str} :
    ∀ c s, Text.trimStart region = c :: s → isWhitespace c = false := by
  intro c s h
  have hne : region.dropWhile isWhitespace ≠ [] := by
    intro hnil
    unfold Text.trimStart at h
    rw [hnil] at h
    cases h
  have hhead := List.head_dropWhile_not isWhitespace hne
  unfold Text.trimStart at h
  simpa [h] using hhead

/-- **The span of a key line is that of its value's run.** -/
theorem valueRun_of_parseLine {kv : KeyVal F} (hd : Proper d)
    (h : parseLine f64 d sec raw = .keyVal kv) :
    ∃ front run back, raw = front ++ run ++ back ∧ kv.start = front.length ∧
      kv.stop = front.length + run.length ∧ ValueRun d front run back := by
  have hkv := parseKeyLine_of_parseLine h
  rw [parseKeyLine_eq hd] at hkv
  obtain ⟨⟨name, region⟩, hhead, hkv⟩ := Option.bind_eq_some_iff.1 hkv
  obtain ⟨t, ht, rfl⟩ := Option.map_eq_some_iff.1 hkv
  obtain ⟨ws, hregion, hws, -⟩ := exists_trimStart_eq region
  -- the value begins behind the head and the blanks after it
  have hspan : ∀ {front back : Str}, raw = front ++ Text.trimStart region →
      Text.trimStart region = t ++ back → ValueRun d front t back →
      ∃ front run back, raw = front ++ run ++ back ∧
        raw.length - (Text.trimStart region).length = front.length ∧
        raw.length - (Text.trimStart region).length + t.length = front.length + run.length ∧
        ValueRun d front run back := by
    intro front back hraw hback hrun
    have hstart : raw.length - (Text.trimStart region).length = front.length := by
      rw [hraw, List.length_append, Nat.add_sub_cancel_right]
    refine ⟨front, t, back, ?_, hstart, by rw [hstart], hrun⟩
    rw [List.append_assoc, ← hback, ← hraw]
  unfold head at hhead
  unfold behind at ht
  cases hfunc : d.statement with
  | some func =>
    rw [hfunc] at hhead ht
    obtain ⟨ws₁, ws₂, ws₃, key, gap, hraw, h₁, h₂, h₃, hkey, hgap⟩ := statementHead_cut hhead
    obtain ⟨n, hn, rfl⟩ := Option.map_eq_some_iff.1 ht
    obtain ⟨back, hback, hrun⟩ := statementRun_of_find trimStart_first hn
    refine hspan ?_ hback (.statement hfunc h₁ h₂ h₃ hkey hgap hws hrun)
    rw [hraw]
    conv_lhs => rw [hregion]
    simp
  | none =>
    rw [hfunc] at hhead ht
    obtain rfl := Option.some.inj ht
    obtain ⟨back, hback, hrun⟩ := @plainRun_of_valueRun _ d.commentChar (@trimStart_first region)
    rcases separator_cases d.separators raw with hno | ⟨k, sep, region', rfl, hsep, hk⟩
    · simp only [plainHead_of_no_separator hno] at hhead
      cases hhead
    · simp only [plainHead_append hsep hk] at hhead
      split at hhead
      · cases hhead
      · cases hhead
        refine hspan ?_ hback (.plain hfunc hk hsep hws hrun)
        conv_lhs => rw [hregion]
        simp

end Arlen.ConfigFormat
