import Arlen.ConfigFormat.Rewrite

/-!
# Strings of an `.env` file

A string that needs quotes is written in them, with its quotes and backslashes escaped, and is
read back whatever stands on the line behind it. A string without white space, quotes, `#` and
`=` is written as it is, and is read as any bare text is: as a boolean or a number if it looks
like one, and with each pair of backslashes made one.
-/

namespace Arlen.ConfigFormat

open Arlen.Lib

variable {F : Type} {f64 : Float64 F} {s t rest key text out : Str}

/-! ## In quotes -/

/-- `shell_quote` puts the string in quotes. -/
def needsQuotes (s : Str) (commentChar : Char) : Bool :=
  s.isEmpty ||
    s.any fun c => isWhitespace c || c == '"' || c == '\'' || c == commentChar || c == '='

def shellEscape (c : Char) : Str :=
  if c = '"' then ['\\', '"'] else if c = '\\' then ['\\', '\\'] else [c]

theorem shellQuote_eq (s : Str) (commentChar : Char) : shellQuote s commentChar =
    if needsQuotes s commentChar then '"' :: s.flatMap shellEscape ++ ['"'] else s := rfl

theorem unescapeShell_cons {c : Char} (hc : c ≠ '\\') (s : Str) :
    unescapeShell (c :: s) = c :: unescapeShell s :=
  unescapeShell.eq_3 c s (fun _ h _ => hc h) fun _ h _ => hc h

theorem shellEscape_cases (c : Char) :
    shellEscape c = ['\\', c] ∧ (c = '"' ∨ c = '\\') ∨ shellEscape c = [c] ∧ c ≠ '"' ∧ c ≠ '\\' := by
  unfold shellEscape
  by_cases hq : c = '"'
  · exact .inl ⟨by rw [if_pos hq, hq], .inl hq⟩
  · by_cases hb : c = '\\'
    · exact .inl ⟨by rw [if_neg hq, if_pos hb, hb], .inr hb⟩
    · exact .inr ⟨by rw [if_neg hq, if_neg hb], hq, hb⟩

theorem unescapeShell_escaped (s : Str) : unescapeShell (s.flatMap shellEscape) = s := by
  induction s with
  | nil => rfl
  | cons c s ih =>
    rw [List.flatMap_cons]
    rcases shellEscape_cases c with ⟨hc, rfl | rfl⟩ | ⟨hc, -, hb⟩
    · rw [hc, List.cons_append, List.singleton_append, unescapeShell, ih]
    · rw [hc, List.cons_append, List.singleton_append, unescapeShell, ih]
    · rw [hc, List.singleton_append, unescapeShell_cons hb, ih]

theorem findUnescapedQuote_escaped (s rest : Str) :
    findUnescapedQuote '"' false (s.flatMap shellEscape ++ '"' :: rest) =
      some (s.flatMap shellEscape).length := by
  induction s with
  | nil => rfl
  | cons c s ih =>
    rw [List.flatMap_cons, List.append_assoc, List.length_append]
    rcases shellEscape_cases c with ⟨hc, -⟩ | ⟨hc, hq, hb⟩
    · rw [hc]
      simp only [List.cons_append, List.nil_append, findUnescapedQuote, if_true, ih,
        Option.map_some, List.length_cons, List.length_nil, Option.some.injEq]
      omega
    · rw [hc]
      simp only [List.cons_append, List.nil_append, findUnescapedQuote, if_neg hb, if_neg hq, ih,
        Option.map_some, List.length_cons, List.length_nil, Option.some.injEq]
      omega

/-- **A quoted string is read back**, whatever stands behind it. -/
theorem behind_quoted {d : LineDialect} (hstatement : d.statement = none) (s rest : Str) :
    behind d ('"' :: s.flatMap shellEscape ++ ['"'] ++ rest) =
      some ('"' :: s.flatMap shellEscape ++ ['"']) := by
  unfold behind
  rw [hstatement]
  simp only [valueRun, List.cons_append, List.append_assoc, List.nil_append]
  rw [findUnescapedQuote_escaped]
  simp only [true_or, if_true]
  have htake : (s.flatMap shellEscape ++ '"' :: rest).take ((s.flatMap shellEscape).length + 1) =
      s.flatMap shellEscape ++ ['"'] := by
    rw [List.take_length_add_append, List.take_succ_cons, List.take_zero]
  rw [htake, ← List.cons_append, Text.trimEnd_append (by simp) (by simp; decide)]

theorem parseScalar_quoted (s : Str) :
    parseScalar f64 ('"' :: s.flatMap shellEscape ++ ['"']) = .string s := by
  have hstrip : stripSurroundingQuotes ('"' :: s.flatMap shellEscape ++ ['"']) =
      s.flatMap shellEscape := by
    simp [stripSurroundingQuotes]
  unfold parseScalar
  simp only [hstrip]
  have hlen : (s.flatMap shellEscape).length ≠
      ('"' :: s.flatMap shellEscape ++ ['"']).length := by
    simp only [List.length_append, List.length_cons]
    omega
  rw [if_pos hlen, unescapeShell_escaped]

/-! ## Backslashes -/

/-- Of backslashes alone half stay, rounded up. -/
theorem unescapeShell_replicate (n : Nat) :
    unescapeShell (List.replicate n '\\') = List.replicate (n - n / 2) '\\' := by
  induction n using Nat.strongRecOn with
  | _ n ih =>
    match n with
    | 0 => rfl
    | 1 => rfl
    | n + 2 =>
      rw [List.replicate_succ, List.replicate_succ, unescapeShell, ih n (by omega),
        ← List.replicate_succ]
      congr 1
      omega

/-- A text that does not begin with a backslash, behind backslashes. -/
theorem unescapeShell_replicate_cons (n : Nat) {c : Char} (hb : c ≠ '\\') (s : Str) :
    ∃ k, unescapeShell (List.replicate n '\\' ++ c :: s) =
      List.replicate k '\\' ++ c :: unescapeShell s ∧ k ≤ n := by
  induction n using Nat.strongRecOn with
  | _ n ih =>
    match n with
    | 0 => exact ⟨0, unescapeShell_cons hb s, Nat.le_refl _⟩
    | 1 =>
      by_cases hq : c = '"'
      · subst hq
        exact ⟨0, rfl, Nat.zero_le _⟩
      · refine ⟨1, ?_, Nat.le_refl _⟩
        show unescapeShell ('\\' :: c :: s) = '\\' :: c :: unescapeShell s
        rw [unescapeShell.eq_3 _ _ (fun _ _ h => hq (List.cons.inj h).1)
          (fun _ _ h => hb (List.cons.inj h).1), unescapeShell_cons hb]
    | n + 2 =>
      obtain ⟨k, hk, hle⟩ := ih n (by omega)
      refine ⟨k + 1, ?_, by omega⟩
      rw [List.replicate_succ, List.replicate_succ, List.cons_append, List.cons_append, unescapeShell,
        hk]
      rfl

theorem exists_replicate (s : Str) : ∃ n t, s = List.replicate n '\\' ++ t ∧
    ∀ c r, t = c :: r → c ≠ '\\' := by
  induction s with
  | nil => exact ⟨0, [], rfl, fun c r h => by cases h⟩
  | cons c s ih =>
    by_cases hc : c = '\\'
    · obtain ⟨n, t, rfl, ht⟩ := ih
      exact ⟨n + 1, t, by rw [hc]; rfl, ht⟩
    · refine ⟨0, c :: s, rfl, fun d r h => ?_⟩
      rw [← (List.cons.inj h).1]
      exact hc

/-- Where more backslashes are asked for than there are, there is nothing else. -/
theorem unescapeShell_eq_cons_iff {j : Nat} :
    unescapeShell (s ++ t) = List.replicate (j + 1) '\\' ++ s ↔
      ∃ n m, s = List.replicate n '\\' ∧ t = List.replicate m '\\' ∧
        n + m - (n + m) / 2 = j + 1 + n := by
  constructor
  · intro h
    obtain ⟨n, s', rfl, hs'⟩ := exists_replicate s
    cases s' with
    | cons c r =>
      -- Not more backslashes come out than go in.
      have hc := hs' c r rfl
      rw [List.append_assoc, List.cons_append] at h
      obtain ⟨k, hk, hle⟩ := unescapeShell_replicate_cons n hc (r ++ t)
      rw [hk, ← List.append_assoc, List.replicate_append_replicate] at h
      have hget := congrArg (·[k]?) h
      simp only [List.getElem?_append_right (Nat.le_of_eq (List.length_replicate (n := k))),
        List.length_replicate, Nat.sub_self, List.getElem?_cons_zero] at hget
      rw [List.getElem?_append_left (by simp; omega), List.getElem?_replicate,
        if_pos (by omega)] at hget
      exact absurd (Option.some.inj hget) hc
    | nil =>
      rw [List.append_nil] at h ⊢
      obtain ⟨m, t', rfl, ht'⟩ := exists_replicate t
      rw [← List.append_assoc, List.replicate_append_replicate,
        List.replicate_append_replicate] at h
      cases t' with
      | nil =>
        rw [List.append_nil, unescapeShell_replicate] at h
        have hlen := congrArg List.length h
        simp only [List.length_replicate] at hlen
        exact ⟨n, m, rfl, List.append_nil _, hlen⟩
      | cons c r =>
        obtain ⟨k, hk, -⟩ := unescapeShell_replicate_cons (n + m) (ht' c r rfl) r
        rw [hk] at h
        have hmem : c ∈ List.replicate (j + 1 + n) '\\' := by
          rw [← h]
          simp
        exact absurd (List.eq_of_mem_replicate hmem) (ht' c r rfl)
  · rintro ⟨n, m, rfl, rfl, hnm⟩
    rw [List.replicate_append_replicate, unescapeShell_replicate, hnm,
      List.replicate_append_replicate]

/-- Before the backslashes at its end, no two stand together; and behind it stand as many as
at its end, or one less. -/
def Settled (s t : Str) : Prop :=
  ∃ u n m, s = u ++ List.replicate n '\\' ∧ t = List.replicate m '\\' ∧
    ¬ ['\\', '\\'] <:+: u ∧ u.getLast? ≠ some '\\' ∧ (m = n ∨ m + 1 = n)

theorem settled_cons {c : Char} (hc : c ≠ '\\') : Settled (c :: s) t ↔ Settled s t := by
  constructor
  · rintro ⟨u, n, m, hs, ht, hu, hlast, hm⟩
    cases u with
    | nil =>
      have hmem : c ∈ List.replicate n '\\' := by
        rw [List.nil_append] at hs
        rw [← hs]
        simp
      exact absurd (List.eq_of_mem_replicate hmem) hc
    | cons d u =>
      obtain ⟨rfl, rfl⟩ := List.cons.inj hs
      refine ⟨u, n, m, rfl, ht, fun h => hu (List.infix_cons h), fun h => hlast ?_, hm⟩
      rw [List.getLast?_cons, h]
      rfl
  · rintro ⟨u, n, m, rfl, ht, hu, hlast, hm⟩
    refine ⟨c :: u, n, m, rfl, ht, fun h => ?_, fun h => ?_, hm⟩
    · rcases List.infix_cons_iff.1 h with hpre | hin
      · exact hc (List.cons_prefix_cons.1 hpre).1.symm
      · exact hu hin
    · rw [List.getLast?_cons] at h
      cases hl : u.getLast? with
      | none =>
        rw [hl] at h
        exact hc (Option.some.inj h)
      | some x =>
        rw [hl] at h
        exact hlast (hl.trans h)

/-- A single backslash does not matter. -/
theorem settled_backslash {c : Char} (hc : c ≠ '\\') :
    Settled ('\\' :: c :: s) t ↔ Settled (c :: s) t := by
  constructor
  · rintro ⟨u, n, m, hs, ht, hu, hlast, hm⟩
    cases u with
    | nil =>
      have hmem : c ∈ List.replicate n '\\' := by
        rw [List.nil_append] at hs
        rw [← hs]
        simp
      exact absurd (List.eq_of_mem_replicate hmem) hc
    | cons d u =>
      obtain ⟨rfl, hrest⟩ := List.cons.inj hs
      refine ⟨u, n, m, hrest, ht, fun h => hu (List.infix_cons h), fun h => hlast ?_, hm⟩
      rw [List.getLast?_cons, h]
      rfl
  · rintro ⟨u, n, m, hs, ht, hu, hlast, hm⟩
    cases u with
    | nil =>
      have hmem : c ∈ List.replicate n '\\' := by
        rw [List.nil_append] at hs
        rw [← hs]
        simp
      exact absurd (List.eq_of_mem_replicate hmem) hc
    | cons d u =>
      obtain ⟨rfl, rfl⟩ := List.cons.inj hs
      refine ⟨'\\' :: c :: u, n, m, rfl, ht, fun h => ?_, fun h => hlast ?_, hm⟩
      · rcases List.infix_cons_iff.1 h with hpre | hin
        · exact hc (List.cons_prefix_cons.1 (List.cons_prefix_cons.1 hpre).2).1.symm
        · exact hu hin
      · rwa [List.getLast?_cons_cons] at h

/-- Two backslashes at the beginning: there is nothing else. -/
theorem settled_two : Settled ('\\' :: '\\' :: s) t ↔
    ∃ n m, s = List.replicate n '\\' ∧ t = List.replicate m '\\' ∧ (m = n + 2 ∨ m = n + 1) := by
  constructor
  · rintro ⟨u, n, m, hs, ht, hu, hlast, hm⟩
    match u with
    | [] =>
      match n with
      | 0 | 1 => simp at hs
      | n + 2 => exact ⟨n, m, (List.cons.inj (List.cons.inj hs).2).2, ht, by omega⟩
    | [d] =>
      rw [← (List.cons.inj hs).1] at hlast
      exact absurd rfl hlast
    | d :: e :: u =>
      obtain ⟨rfl, hrest⟩ := List.cons.inj hs
      obtain ⟨rfl, -⟩ := List.cons.inj hrest
      exact absurd (List.prefix_append ['\\', '\\'] u).isInfix hu
  · rintro ⟨n, m, rfl, ht, hm⟩
    exact ⟨[], n + 2, m, rfl, ht, by simp, by simp, by omega⟩

theorem settled_one : Settled ['\\'] t ↔ t = [] ∨ t = ['\\'] := by
  constructor
  · rintro ⟨u, n, m, hs, rfl, -, hlast, hm⟩
    match u with
    | [] =>
      have hn := congrArg List.length hs
      simp only [List.length_cons, List.length_nil, List.nil_append, List.length_replicate] at hn
      have hm : m = 1 ∨ m = 0 := by omega
      rcases hm with rfl | rfl
      · exact .inr rfl
      · exact .inl rfl
    | d :: u =>
      obtain ⟨rfl, hrest⟩ := List.cons.inj hs
      rw [(List.append_eq_nil_iff.1 hrest.symm).1] at hlast
      exact absurd rfl hlast
  · rintro (rfl | rfl)
    · exact ⟨[], 1, 0, rfl, rfl, by simp, by simp, .inr rfl⟩
    · exact ⟨[], 1, 1, rfl, rfl, by simp, by simp, .inl rfl⟩

/-- **When undoing the escapes gives the text back.** -/
theorem unescapeShell_eq_iff (hq : '"' ∉ s) : unescapeShell (s ++ t) = s ↔ Settled s t := by
  induction hn : s.length using Nat.strongRecOn generalizing s with
  | _ n ih =>
  subst hn
  have hmem : ∀ {c : Char} {r : Str}, '"' ∉ c :: r → c ≠ '"' ∧ '"' ∉ r := fun h =>
    ⟨fun heq => h (heq ▸ List.mem_cons_self), fun hr => h (List.mem_cons_of_mem _ hr)⟩
  match s with
  | [] =>
    rw [List.nil_append]
    constructor
    · intro h
      have ht : t = [] := by
        unfold unescapeShell at h
        split at h
        · cases h
        · cases h
        · cases h
        · rfl
      exact ⟨[], 0, 0, rfl, ht, by simp, by simp, .inl rfl⟩
    · rintro ⟨u, n, m, hs, rfl, -, -, hm⟩
      obtain ⟨-, hn⟩ := List.append_eq_nil_iff.1 hs.symm
      have hn : n = 0 := by simpa using hn
      have hm : m = 0 := by omega
      rw [hm]
      rfl
  | c :: r =>
    by_cases hc : c = '\\'
    · subst hc
      match r with
      | [] =>
        rw [settled_one]
        constructor
        · intro h
          obtain ⟨m, t', rfl, ht'⟩ := exists_replicate t
          cases t' with
          | nil =>
            rw [List.append_nil, List.singleton_append, ← List.replicate_succ,
              unescapeShell_replicate] at h
            have hm := congrArg List.length h
            simp only [List.length_replicate, List.length_cons, List.length_nil] at hm
            have hm : m = 0 ∨ m = 1 := by omega
            rcases hm with rfl | rfl
            · exact .inl rfl
            · exact .inr rfl
          | cons c r =>
            obtain ⟨k, hk, -⟩ := unescapeShell_replicate_cons (m + 1) (ht' c r rfl) r
            have heq : ['\\'] ++ (List.replicate m '\\' ++ c :: r) =
                List.replicate (m + 1) '\\' ++ c :: r := rfl
            rw [heq, hk] at h
            have hc : c ∈ ['\\'] := by
              rw [← h]
              simp
            exact absurd (List.mem_singleton.1 hc) (ht' c r rfl)
        · rintro (rfl | rfl) <;> rfl
      | d :: r =>
        obtain ⟨hd, hr⟩ := hmem (hmem hq).2
        by_cases hb : d = '\\'
        · subst hb
          have hmore := unescapeShell_eq_cons_iff (s := r) (t := t) (j := 0)
          rw [List.cons_append, List.cons_append, unescapeShell, List.cons.injEq]
          simp only [true_and]
          refine hmore.trans (settled_two.trans ?_).symm
          refine exists_congr fun n => exists_congr fun m => and_congr_right fun _ =>
            and_congr_right fun _ => ?_
          omega
        · rw [settled_backslash hb, settled_cons hb, List.cons_append, List.cons_append,
            unescapeShell.eq_3 _ _ (fun _ _ h => hd (List.cons.inj h).1)
              (fun _ _ h => hb (List.cons.inj h).1), unescapeShell_cons hb]
          simp only [List.cons.injEq, true_and]
          exact ih r.length (by simp only [List.length_cons]; omega) hr rfl
    · rw [settled_cons hc, List.cons_append, unescapeShell_cons hc]
      simp only [List.cons.injEq, true_and]
      exact ih r.length (by simp) (hmem hq).2 rfl

/-! ## What a written string is read as -/

/-- As a bare text, neither a boolean nor a number. -/
def Untyped (f64 : Float64 F) (s : Str) : Prop :=
  parseBool s = none ∧ parseI64 s = none ∧ parseFloat f64 s = none

/-- The string is written in quotes; or with what stands behind it, it is no boolean and no
number, and its backslashes stay. -/
def Survives (f64 : Float64 F) (s behind : Str) : Prop :=
  needsQuotes s '#' = true ∨ Untyped f64 (s ++ behind) ∧ Settled s behind

/-- What stands behind the value on the key's line, up to a comment. -/
def leftBehind (f64 : Float64 F) (text key : Str) : Str :=
  match (parseLines f64 LineFormat.env.dialect none (splitLines text)).find?
    (LineModel.carries key) with
  | some (.keyVal kv) => (runOn LineFormat.env.dialect (kv.raw.drop kv.stop)).getD []
  | _ => []

theorem solid_of_not_needsQuotes (h : ¬ needsQuotes s '#' = true) : s ≠ [] ∧
    ∀ c ∈ s, isWhitespace c = false ∧ c ≠ '"' ∧ c ≠ '\'' ∧ c ≠ '#' := by
  unfold needsQuotes at h
  simp only [Bool.or_eq_true, List.isEmpty_iff, List.any_eq_true, beq_iff_eq, not_or, not_exists,
    not_and] at h
  refine ⟨h.1, fun c hc => ?_⟩
  obtain ⟨⟨⟨⟨hspace, hq⟩, hq'⟩, hcomment⟩, -⟩ := h.2 c hc
  exact ⟨Bool.not_eq_true _ ▸ hspace, hq, hq', hcomment⟩

theorem parseScalar_eq_string_iff (hq : ∀ c r, s ++ t = c :: r → c ≠ '"' ∧ c ≠ '\'') :
    parseScalar f64 (s ++ t) = .string s ↔ Untyped f64 (s ++ t) ∧ unescapeShell (s ++ t) = s := by
  have hstrip : stripSurroundingQuotes (s ++ t) = s ++ t := by
    unfold stripSurroundingQuotes
    split
    · rfl
    · next c r hcr =>
      rw [if_neg fun h => ?_]
      exact (not_or.2 (hq c r hcr)) h.1
  unfold parseScalar Untyped
  simp only [hstrip, ne_eq, not_true_eq_false, if_false]
  cases hbool : parseBool (s ++ t) with
  | some b => simp
  | none =>
    cases hint : parseI64 (s ++ t) with
    | some i => simp
    | none =>
      cases hfloat : parseFloat f64 (s ++ t) with
      | some f => simp
      | none => simp

variable (f64) in
/-- **A written string**, with anything behind it. -/
theorem behind_shellQuote (s rest : Str) : ∃ v,
    behind LineFormat.env.dialect (shellQuote s '#' ++ rest) = some v ∧
      (scalar f64 LineFormat.env.dialect v = .string s ↔
        Survives f64 s ((runOn LineFormat.env.dialect rest).getD [])) := by
  rw [shellQuote_eq]
  unfold Survives
  by_cases hneeds : needsQuotes s '#' = true
  · rw [if_pos hneeds, behind_quoted rfl]
    exact ⟨_, rfl, iff_of_true (parseScalar_quoted s) (.inl hneeds)⟩
  · rw [if_neg hneeds, or_iff_right hneeds]
    obtain ⟨hne, hsolid⟩ := solid_of_not_needsQuotes hneeds
    have hbare : Bare LineFormat.env.dialect s :=
      ⟨hne, fun c hc => (hsolid c hc).1, fun c hc => ⟨(hsolid c hc).2.1, (hsolid c hc).2.2.1⟩,
        fun hmem => (hsolid _ hmem).2.2.2 rfl, fun h => absurd rfl h⟩
    rw [behind_bare hbare]
    obtain ⟨t, ht⟩ : ∃ t, runOn LineFormat.env.dialect rest = some t := ⟨_, rfl⟩
    rw [ht]
    refine ⟨s ++ t, rfl, ?_⟩
    rw [Option.getD_some, ← unescapeShell_eq_iff fun hmem => (hsolid _ hmem).2.1 rfl]
    refine parseScalar_eq_string_iff fun c r hcr => ?_
    obtain ⟨x, s', rfl⟩ := List.exists_cons_of_ne_nil hne
    rw [← (List.cons.inj hcr).1]
    exact hbare.unquoted x List.mem_cons_self

theorem token_shellQuote (s : Str) : Token LineFormat.env.dialect (shellQuote s '#') := by
  refine ⟨?_, fun h => by cases h⟩
  rw [shellQuote_eq]
  by_cases hneeds : needsQuotes s '#' = true
  · rw [if_pos hneeds]
    exact ⟨'"', _, rfl, by decide⟩
  · rw [if_neg hneeds]
    obtain ⟨hne, hsolid⟩ := solid_of_not_needsQuotes hneeds
    obtain ⟨x, s', rfl⟩ := List.exists_cons_of_ne_nil hne
    exact ⟨x, s', rfl, (hsolid x List.mem_cons_self).1⟩

/-! ## A key set and read -/

/-- Names of variables, and more: every name of letters, digits and underscores is one. -/
structure EnvKey (key : Str) : Prop where
  ne_nil : key ≠ []
  solid : ∀ c ∈ key, isWhitespace c = false ∧ c ≠ '=' ∧ c ≠ '#' ∧ c ≠ '/'

variable (f64) in
theorem entry_new (hkey : EnvKey key) (s : Str) : ∃ v,
    behind LineFormat.env.dialect (shellQuote s '#' ++ []) = some v ∧
      (parseLine f64 LineFormat.env.dialect none (key ++ '=' :: shellQuote s '#')).entry =
        some (key, scalar f64 LineFormat.env.dialect v) := by
  obtain ⟨v, hv, -⟩ := behind_shellQuote f64 s []
  refine ⟨v, hv, ?_⟩
  obtain ⟨c, r, rfl⟩ := List.exists_cons_of_ne_nil hkey.ne_nil
  obtain ⟨hc, -, hcomment, hslash⟩ := hkey.solid c List.mem_cons_self
  have htext : KeyText LineFormat.env.dialect (c :: r ++ '=' :: shellQuote s '#') := by
    refine ⟨?_, fun h => by cases h⟩
    rw [List.cons_append, Text.trimStart_cons hc]
    have hne : ¬ c = LineFormat.env.dialect.commentChar := hcomment
    simp [List.isPrefixOf, hne, Ne.symm hslash]
  have hname : keyName (c :: r) = c :: r := by
    have hsolid : ∀ x ∈ c :: r, isWhitespace x = false := fun x hx => (hkey.solid x hx).1
    unfold keyName
    rw [Text.trim_of_solid hsolid]
    have hexport : Text.stripPrefix "export ".toList (c :: r) = none := by
      rw [Option.eq_none_iff_forall_ne_some]
      intro y hy
      have hmem : ' ' ∈ c :: r := by
        rw [Text.stripPrefix_eq_some.1 hy]
        simp
      exact absurd (hsolid ' ' hmem) (by decide)
    rw [hexport, Option.getD_none, Text.trim_of_solid hsolid]
  obtain ⟨x, y, htoken, hx⟩ := (token_shellQuote s).solid
  have hhead : head LineFormat.env.dialect (c :: r ++ '=' :: shellQuote s '#') =
      some (c :: r, shellQuote s '#') := by
    show plainHead ['='] (c :: r ++ '=' :: shellQuote s '#') = _
    rw [plainHead_append (by simp) fun x hx => by simpa using (hkey.solid x hx).2.1, hname,
      if_neg (by simp)]
  have htrim : Text.trimStart (shellQuote s '#') = shellQuote s '#' ++ [] := by
    rw [htoken, Text.trimStart_cons hx, List.append_nil]
  rw [parseLine_of_keyText htext, parseKeyLine_eq LineFormat.env.proper, hhead, Option.bind_some]
  simp only [htrim, hv, Option.map_some]
  rfl

theorem parse_of_le {d : LineDialect} (h : Text.byteLen text ≤ maxConfigBytes) :
    LineModel.parse f64 text d =
      .ok ⟨d, parseLines f64 d none (splitLines text), text.getLast? == some '\n'⟩ :=
  if_neg (Nat.not_lt.2 h)

theorem sectionAfter_of_no_sections {d : LineDialect} (h : d.sections = false) {ls : List Str} :
    sectionAfter f64 d none ls = none := by
  have hnone : ∀ raw, (parseLine f64 d none raw).heading = none := by
    intro raw
    unfold parseLine
    simp only [h, Bool.false_eq_true, if_false]
    split
    · rfl
    · split <;> rfl
  induction ls with
  | nil => rfl
  | cons raw ls ih =>
    unfold sectionAfter at ih ⊢
    rw [List.foldl_cons, hnone]
    exact ih

theorem insertKey_env (lines : List (Line F)) (newline : Bool) (key s : Str) :
    LineModel.insertKey f64 ⟨LineFormat.env.dialect, lines, newline⟩ key (.string s) =
      .ok (LineModel.emitText (lines.map Line.raw ++ [key ++ '=' :: shellQuote s '#']) newline) := by
  have hline : LineModel.formatKeyLine (F := F) ⟨LineFormat.env.dialect, lines, newline⟩ key
      (shellQuote s '#') = key ++ '=' :: shellQuote s '#' := by
    simp [LineModel.formatKeyLine, LineFormat.dialect]
  have hraws : (lines ++ [Line.other (key ++ '=' :: shellQuote s '#')]).map Line.raw =
      lines.map Line.raw ++ [key ++ '=' :: shellQuote s '#'] := List.map_append
  rw [← hraws, ← hline]
  rfl

variable (f64) in
/-- The written text, and what the key is read as in it. -/
theorem env_set_reads (hkey : EnvKey key) (hs : '\n' ∉ s)
    (htext : Text.byteLen text ≤ maxConfigBytes) : ∃ ls v,
      LineFormat.env.set f64 text key (.string s) =
        .ok (LineModel.emitText ls (text.getLast? == some '\n')) ∧
      (∀ l ∈ ls, '\n' ∉ l) ∧
      (entries f64 LineFormat.env.dialect none ls).get key = some v ∧
      (v = .string s ↔ Survives f64 s (leftBehind f64 text key)) := by
  have hlines : ∀ l ∈ splitLines text, '\n' ∉ l := fun l hl => not_mem_of_mem_splitLines hl
  have htoken : '\n' ∉ shellQuote s '#' := newline_not_mem_shellQuote hs
  unfold LineFormat.set
  rw [parse_of_le htext]
  simp only
  rcases carried_cases f64 LineFormat.env.dialect none (splitLines text) key with
    hno | ⟨pre, raw, post, kv, hc⟩
  · obtain ⟨v, hv, hentry⟩ := entry_new f64 hkey s
    obtain ⟨v', hv', hiff⟩ := behind_shellQuote f64 s []
    obtain rfl := Option.some.inj (hv.symm.trans hv')
    have hfind : LineModel.findKeyIndex ⟨LineFormat.env.dialect,
        parseLines f64 LineFormat.env.dialect none (splitLines text),
        text.getLast? == some '\n'⟩ key = none := List.findIdx?_eq_none_iff.2 hno
    have hbehind : leftBehind f64 text key = [] := by
      unfold leftBehind
      rw [List.find?_eq_none.2 fun line hline => by rw [hno line hline]; simp]
    have hnew : (parseLine f64 LineFormat.env.dialect
        (sectionAfter f64 LineFormat.env.dialect none (splitLines text))
        (key ++ '=' :: shellQuote s '#')).entry =
          some (key, scalar f64 LineFormat.env.dialect v) := by
      rw [sectionAfter_of_no_sections rfl]
      exact hentry
    refine ⟨splitLines text ++ [key ++ '=' :: shellQuote s '#'], _, ?_, ?_,
      Carried.lookup_eq hno hnew, ?_⟩
    · have hset : LineModel.set f64 ⟨LineFormat.env.dialect,
          parseLines f64 LineFormat.env.dialect none (splitLines text),
          text.getLast? == some '\n'⟩ key (.string s) =
            .ok (LineModel.emitText (splitLines text ++ [key ++ '=' :: shellQuote s '#'])
              (text.getLast? == some '\n')) := by
        unfold LineModel.set
        rw [hfind]
        simp only
        rw [insertKey_env, map_raw_parseLines]
      rw [hset]
    · intro l hl
      rcases List.mem_append.1 hl with hl | hl
      · exact hlines l hl
      · rw [List.mem_singleton.1 hl]
        simp only [List.mem_append, List.mem_cons, not_or]
        exact ⟨fun hmem => absurd (hkey.solid _ hmem).1 (by decide), by decide, htoken⟩
    · rw [hbehind]
      exact hiff
  · obtain ⟨v, hv, hiff⟩ := behind_shellQuote f64 s (kv.raw.drop kv.stop)
    have hraw := raw_eq_of_keyVal hc.line
    obtain ⟨name, hname, -, hrewritten⟩ := entry_rewritten LineFormat.env.proper hc.line
    obtain ⟨hentry, -⟩ := hrewritten _ (token_shellQuote s)
      (sectionAfter f64 LineFormat.env.dialect none pre)
    rw [← hraw, hv, Option.map_some, ← hname, hc.key_eq] at hentry
    have hbehind : leftBehind f64 text key =
        (runOn LineFormat.env.dialect (kv.raw.drop kv.stop)).getD [] := by
      unfold leftBehind
      have hfind : (parseLines f64 LineFormat.env.dialect none (splitLines text)).find?
          (LineModel.carries key) = some (.keyVal kv) := by
        rw [hc.lines_eq, List.find?_append, List.find?_eq_none.2 fun line hline => by
          rw [hc.before line hline]; simp]
        have hkv : LineModel.carries key (Line.keyVal kv) = true := beq_iff_eq.2 hc.key_eq
        simp [hkv]
      rw [hfind]
    rw [hc.cut] at hlines
    refine ⟨pre ++ kv.rewritten (shellQuote s '#') :: post, _, ?_, ?_,
      Carried.lookup_eq hc.before hentry, ?_⟩
    · rw [hc.set_eq (shellQuote s '#') rfl]
    · intro l hl
      rcases List.mem_append.1 hl with hl | hl
      · exact hlines l (List.mem_append_left _ hl)
      · rcases List.mem_cons.1 hl with rfl | hl
        · refine newline_not_mem_rewritten ?_ htoken
          rw [hraw]
          exact hlines raw (by simp)
        · exact hlines l (List.mem_append_right _ (List.mem_cons_of_mem _ hl))
    · rw [hbehind]
      exact hiff

/-- **A string of an `.env` file survives** exactly if it is written in quotes, or is read as
the bare text it is written as. -/
theorem env_string_survives_iff (hkey : EnvKey key) (hs : '\n' ∉ s)
    (htext : Text.byteLen text ≤ maxConfigBytes) :
    ∃ out, LineFormat.env.set f64 text key (.string s) = .ok out ∧
      (Text.byteLen out ≤ maxConfigBytes →
        ((∃ m, LineFormat.env.read f64 out = .ok m ∧ m.get key = some (.string s)) ↔
          Survives f64 s (leftBehind f64 text key))) := by
  obtain ⟨ls, v, hset, hls, hget, hiff⟩ := env_set_reads f64 hkey hs htext
  refine ⟨_, hset, fun hout => ?_⟩
  rw [read_eq, if_neg (Nat.not_lt.2 hout), entries_emitText LineFormat.env.proper hls, ← hiff]
  constructor
  · rintro ⟨m, hm, hread⟩
    cases hm
    exact Option.some.inj (hget.symm.trans hread)
  · rintro rfl
    exact ⟨_, rfl, hget⟩

/-- A quoted string in place of a bare one, before a comment. -/
theorem env_string_survives_quoted :
    LineFormat.env.set noFloat "NAME=old # b\n".toList "NAME".toList (.string "a # b".toList) =
      .ok "NAME=\"a # b\" # b\n".toList ∧
    ∃ m, LineFormat.env.read noFloat "NAME=\"a # b\" # b\n".toList = .ok m ∧
      m.get "NAME".toList = some (.string "a # b".toList) := by
  have hset : LineFormat.env.set noFloat "NAME=old # b\n".toList "NAME".toList
      (.string "a # b".toList) = .ok "NAME=\"a # b\" # b\n".toList := by rfl
  obtain ⟨out, hout, hiff⟩ := @env_string_survives_iff _ noFloat
    "a # b".toList "NAME".toList "NAME=old # b\n".toList ⟨by decide, by decide⟩ (by decide)
    (by decide)
  obtain rfl := Except.ok.inj (hset.symm.trans hout)
  exact ⟨hset, (hiff (by decide)).2 (.inl (by decide))⟩

/-- Two backslashes are written bare and read as one. -/
theorem env_string_lost : ¬ ∀ text key s out : Str, EnvKey key → '\n' ∉ s →
    Text.byteLen text ≤ maxConfigBytes →
    LineFormat.env.set noFloat text key (.string s) = .ok out →
    Text.byteLen out ≤ maxConfigBytes →
    ∃ m, LineFormat.env.read noFloat out = .ok m ∧ m.get key = some (.string s) := by
  intro h
  obtain ⟨m, hread, hget⟩ := h [] "HOST".toList "\\\\server".toList "HOST=\\\\server".toList
    ⟨by decide, by decide⟩ (by decide) (by decide) (by rfl) (by decide)
  have hread' : LineFormat.env.read noFloat "HOST=\\\\server".toList =
      .ok [("HOST".toList, .string "\\server".toList)] := by rfl
  obtain rfl := Except.ok.inj (hread'.symm.trans hread)
  exact absurd hget (by decide)

end Arlen.ConfigFormat
