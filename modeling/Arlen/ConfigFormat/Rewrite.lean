import Arlen.ConfigFormat.Reread
import Mathlib.Data.List.InsertIdx

/-!
# Key lines, cut before the value

A key line is a head, up to the separator or the comma, and a region with the value and what
stands behind it. The key is read from the head alone and the value from the region alone, so
whatever is put in the region's place, the key stays. A carriage return at the end of a line
changes neither.
-/

namespace Arlen.ConfigFormat

open Arlen.Lib

variable {F : Type} {f64 : Float64 F} {d : LineDialect} {sec : Option Str}
  {raw name region k y : Str}

/-! ## Plain lines -/

/-- The key that stands before a separator. -/
def keyName (k : Str) : Str :=
  Text.trim ((Text.stripPrefix "export ".toList (Text.trim k)).getD (Text.trim k))

/-- The key of a plain line, and the region behind its separator. -/
def plainHead (separators : List Char) (raw : Str) : Option (Str × Str) :=
  match raw.dropWhile (!separators.contains ·) with
  | [] => none
  | _ :: region =>
    let name := keyName (raw.takeWhile (!separators.contains ·))
    if name.isEmpty then none else some (name, region)

/-- The value's run, at the beginning of a text. -/
def valueRun (comment : Char) (y : Str) : Str :=
  match y with
  | [] => []
  | q :: rest =>
    if q = '"' ∨ q = '\'' then
      match findUnescapedQuote q false rest with
      | some close => q :: rest.take (close + 1)
      | none => y
    else
      match findInlineComment comment false y with
      | some stop => y.take stop
      | none => y

theorem valueRun_isPrefix (comment : Char) (y : Str) : valueRun comment y <+: y := by
  unfold valueRun
  split
  · exact List.prefix_refl _
  · next q rest =>
    split
    · split
      · exact List.cons_prefix_cons.2 ⟨rfl, List.take_prefix _ _⟩
      · exact List.prefix_refl _
    · split
      · exact List.take_prefix _ _
      · exact List.prefix_refl _

theorem take_length_valueRun (comment : Char) (y : Str) :
    y.take (valueRun comment y).length = valueRun comment y :=
  (List.prefix_iff_eq_take.1 (valueRun_isPrefix comment y)).symm

theorem findInlineComment_lt {comment : Char} {b : Bool} {s : Str} {n : Nat}
    (h : findInlineComment comment b s = some n) : n < s.length := by
  induction s generalizing b n with
  | nil => cases h
  | cons c s ih =>
    rw [findInlineComment] at h
    split at h
    · cases h
      exact Nat.succ_pos _
    · obtain ⟨k, hk, rfl⟩ := Option.map_eq_some_iff.1 h
      exact Nat.succ_lt_succ (ih hk)

theorem locateValueEnd_eq (hq : d.quote = .shell ∨ d.quote = .bare) (front y : Str) :
    locateValueEnd (front ++ y) front.length d =
      front.length + (valueRun d.commentChar y).length := by
  unfold locateValueEnd valueRun
  rw [List.drop_left]
  cases y with
  | nil => rfl
  | cons q rest =>
    simp only [hq, true_and]
    split
    · cases hclose : findUnescapedQuote q false rest with
      | none => simp
      | some n =>
        obtain ⟨u, v, rfl, rfl⟩ := eq_of_findUnescapedQuote hclose
        simp
        omega
    · cases hstop : findInlineComment d.commentChar false (q :: rest) with
      | none => simp
      | some n =>
        have := findInlineComment_lt hstop
        simp only [List.length_take]
        omega

theorem find_append_cons {c : Char} {front back : Str} (h : c ∉ front) :
    find c (front ++ c :: back) = some front.length := by
  unfold find
  rw [List.findIdx?_append, List.findIdx?_eq_none_iff.2 fun x hx => by
    simpa using fun heq : x = c => h (heq ▸ hx)]
  simp [List.findIdx?_cons]

theorem find_of_not_mem {c : Char} {s : Str} (h : c ∉ s) : find c s = none :=
  List.findIdx?_eq_none_iff.2 fun x hx => by simpa using fun heq : x = c => h (heq ▸ hx)

theorem exists_of_find {c : Char} {s : Str} {n : Nat} (h : find c s = some n) :
    ∃ a b, s = a ++ c :: b ∧ a.length = n ∧ c ∉ a := by
  obtain ⟨hlt, hc, hfirst⟩ := List.findIdx?_eq_some_iff_getElem.1 h
  refine ⟨s.take n, s.drop (n + 1), ?_, by simp; omega, fun hmem => ?_⟩
  · rw [← eq_of_beq hc, ← List.drop_eq_getElem_cons hlt, List.take_append_drop]
  · obtain ⟨j, hj, heq⟩ := List.getElem_of_mem hmem
    rw [List.length_take] at hj
    rw [List.getElem_take] at heq
    exact hfirst j (by omega) (by simp [heq])

theorem mem_of_find {c : Char} {s : Str} {n : Nat} (h : find c s = some n) : s[n]? = some c := by
  obtain ⟨hlt, hc, -⟩ := List.findIdx?_eq_some_iff_getElem.1 h
  rw [List.getElem?_eq_getElem hlt, eq_of_beq hc]

/-- The first separator. -/
theorem min_find {separators : List Char} {sep : Char} (hsep : sep ∈ separators)
    (hk : ∀ c ∈ k, c ∉ separators) (region : Str) :
    (separators.filterMap (find · (k ++ sep :: region))).min? = some k.length := by
  rw [List.min?_eq_some_iff]
  refine ⟨List.mem_filterMap.2 ⟨sep, hsep, find_append_cons fun h => hk sep h hsep⟩, ?_⟩
  intro n hn
  obtain ⟨c, hc, hfind⟩ := List.mem_filterMap.1 hn
  by_contra hlt
  have hget := mem_of_find hfind
  rw [List.getElem?_append_left (by omega)] at hget
  exact hk c (List.mem_of_getElem? hget) hc

theorem exists_trimStart_eq (s : Str) : ∃ ws, s = ws ++ Text.trimStart s ∧
    (∀ c ∈ ws, isWhitespace c = true) ∧ ws.length = s.length - (Text.trimStart s).length := by
  refine ⟨s.takeWhile isWhitespace, (List.takeWhile_append_dropWhile).symm,
    fun c hc => List.mem_takeWhile_imp hc, ?_⟩
  have hlen := congrArg List.length (List.takeWhile_append_dropWhile (p := isWhitespace) (l := s))
  rw [List.length_append] at hlen
  unfold Text.trimStart
  omega

/-- **A plain line with a separator.** -/
theorem parsePlainKeyLine_append (hq : d.quote = .shell ∨ d.quote = .bare) {sep : Char}
    (hsep : sep ∈ d.separators) (hk : ∀ c ∈ k, c ∉ d.separators) (region : Str) :
    parsePlainKeyLine f64 (k ++ sep :: region) d sec =
      if keyName k = [] then none
      else some ⟨k ++ sep :: region,
        (match sec with
          | some s => s ++ '.' :: keyName k
          | none => keyName k),
        parseScalar f64 (Text.trimEnd (valueRun d.commentChar (Text.trimStart region))),
        k.length + 1 + (region.length - (Text.trimStart region).length),
        k.length + 1 + (region.length - (Text.trimStart region).length) +
          (Text.trimEnd (valueRun d.commentChar (Text.trimStart region))).length⟩ := by
  obtain ⟨ws, hregion, -, hws⟩ := exists_trimStart_eq region
  unfold parsePlainKeyLine
  rw [min_find hsep hk, Option.bind_some]
  have htake : (k ++ sep :: region).take k.length = k := List.take_left
  have hdrop : (k ++ sep :: region).drop (k.length + 1) = region := by simp
  have hfront : k ++ sep :: region = (k ++ sep :: ws) ++ Text.trimStart region := by
    rw [List.append_assoc, List.cons_append, ← hregion]
  have hstart : k.length + 1 + (region.length - (Text.trimStart region).length) =
      (k ++ sep :: ws).length := by
    rw [List.length_append, List.length_cons, ← hws]
    omega
  simp only [htake, hdrop, hstart]
  unfold keyName
  rw [hfront, locateValueEnd_eq hq, List.drop_left, Nat.add_sub_cancel_left, take_length_valueRun]
  cases sec <;> simp only [List.isEmpty_iff]

theorem mem_takeWhile_separators {separators : List Char} {c : Char}
    (h : c ∈ raw.takeWhile (!separators.contains ·)) : c ∉ separators := by
  have := List.mem_takeWhile_imp h
  simpa using this

theorem plainHead_append {separators : List Char} {sep : Char} (hsep : sep ∈ separators)
    (hk : ∀ c ∈ k, c ∉ separators) (region : Str) :
    plainHead separators (k ++ sep :: region) =
      if keyName k = [] then none else some (keyName k, region) := by
  have hall : ∀ c ∈ k, (!separators.contains c) = true := fun c hc => by simpa using hk c hc
  unfold plainHead
  rw [List.dropWhile_append_of_pos hall, List.dropWhile_cons_of_neg (by simpa using hsep),
    List.takeWhile_append_of_pos hall, List.takeWhile_cons_of_neg (by simpa using hsep),
    List.append_nil]
  simp only [List.isEmpty_iff]

/-- A line has a separator, or it has none. -/
theorem separator_cases (separators : List Char) (raw : Str) :
    (∀ c ∈ raw, c ∉ separators) ∨ ∃ k sep region, raw = k ++ sep :: region ∧ sep ∈ separators ∧
      ∀ c ∈ k, c ∉ separators := by
  cases hdrop : raw.dropWhile (!separators.contains ·) with
  | nil =>
    refine .inl fun c hc => ?_
    have := List.dropWhile_eq_nil_iff.1 hdrop c hc
    simpa using this
  | cons sep region =>
    refine .inr ⟨raw.takeWhile (!separators.contains ·), sep, region, ?_, ?_,
      fun c hc => mem_takeWhile_separators hc⟩
    · rw [← hdrop, List.takeWhile_append_dropWhile]
    · have hne : raw.dropWhile (!separators.contains ·) ≠ [] := by rw [hdrop]; simp
      have hhead := List.head_dropWhile_not (!separators.contains ·) hne
      simp only [hdrop, List.head_cons] at hhead
      simpa using hhead

theorem plainHead_of_no_separator {separators : List Char} (h : ∀ c ∈ raw, c ∉ separators) :
    plainHead separators raw = none := by
  unfold plainHead
  rw [List.dropWhile_eq_nil_iff.2 fun c hc => by simpa using h c hc]

theorem parsePlainKeyLine_of_no_separator (h : ∀ c ∈ raw, c ∉ d.separators) :
    parsePlainKeyLine f64 raw d sec = none := by
  unfold parsePlainKeyLine
  have hnil : d.separators.filterMap (find · raw) = [] :=
    List.filterMap_eq_nil_iff.2 fun c hc => find_of_not_mem fun hmem => h c hmem hc
  rw [hnil]
  rfl

/-! ## Statements -/

/-- The key of a statement, and the region behind its comma. -/
def statementHead (func raw : Str) : Option (Str × Str) :=
  (keyQuote raw func).bind fun (_, quoted) =>
    (findUnescapedQuote '"' false quoted).bind fun n =>
      (find ',' (quoted.drop (n + 1))).map fun m =>
        (unescapeJs (quoted.take n), quoted.drop (n + 1 + (m + 1)))

theorem trimStart_append {ws : Str} (h : ∀ c ∈ ws, isWhitespace c = true) (y : Str) :
    Text.trimStart (ws ++ y) = Text.trimStart y :=
  List.dropWhile_append_of_pos h

theorem trimStart_append_ne_nil {s : Str} (h : Text.trimStart s ≠ []) (y : Str) :
    Text.trimStart (s ++ y) ≠ [] := by
  unfold Text.trimStart at h ⊢
  rw [List.dropWhile_append, if_neg (by simpa using h)]
  exact List.append_ne_nil_of_left_ne_nil h y

theorem stripPrefix_cons (c : Char) (y : Str) : Text.stripPrefix [c] (c :: y) = some y :=
  Text.stripPrefix_append [c] y

theorem keyQuote_cut {func quoted : Str} {n : Nat} (h : keyQuote raw func = some (n, quoted)) :
    ∃ ws₁ ws₂ ws₃, raw = ws₁ ++ func ++ ws₂ ++ ['('] ++ ws₃ ++ '"' :: quoted ∧
      n = (ws₁ ++ func ++ ws₂ ++ ['('] ++ ws₃).length + 1 ∧ (∀ c ∈ ws₁, isWhitespace c = true) ∧
      (∀ c ∈ ws₂, isWhitespace c = true) ∧ ∀ c ∈ ws₃, isWhitespace c = true := by
  obtain ⟨afterFn, hfn, h⟩ := Option.bind_eq_some_iff.1 h
  obtain ⟨afterParen, hparen, h⟩ := Option.bind_eq_some_iff.1 h
  obtain ⟨quoted', hquote, h⟩ := Option.map_eq_some_iff.1 h
  obtain ⟨ws₁, h₁, hws₁, -⟩ := exists_trimStart_eq raw
  obtain ⟨ws₂, h₂, hws₂, -⟩ := exists_trimStart_eq afterFn
  obtain ⟨ws₃, h₃, hws₃, -⟩ := exists_trimStart_eq afterParen
  rw [Text.stripPrefix_eq_some.1 hfn] at h₁
  rw [Text.stripPrefix_eq_some.1 hparen] at h₂
  rw [Text.stripPrefix_eq_some.1 hquote] at h₃
  have hraw : raw = ws₁ ++ func ++ ws₂ ++ ['('] ++ ws₃ ++ '"' :: quoted' := by
    rw [h₁, h₂, h₃]
    simp
  obtain ⟨hn, rfl⟩ := Prod.mk.inj h
  refine ⟨ws₁, ws₂, ws₃, hraw, ?_, hws₁, hws₂, hws₃⟩
  rw [← hn, hraw]
  simp
  omega

/-- Whatever stands behind the opening quote, it is found. -/
theorem keyQuote_eq_some {func quoted : Str} {n : Nat} (hfunc : ∃ c t, func = c :: t ∧
      isWhitespace c = false) (h : keyQuote raw func = some (n, quoted)) :
    ∃ front, raw = front ++ '"' :: quoted ∧ n = front.length + 1 ∧ Text.trimStart front ≠ [] ∧
      ∀ z, keyQuote (front ++ '"' :: z) func = some (front.length + 1, z) := by
  obtain ⟨ws₁, ws₂, ws₃, hraw, hn, hws₁, hws₂, hws₃⟩ := keyQuote_cut h
  refine ⟨ws₁ ++ func ++ ws₂ ++ ['('] ++ ws₃, hraw, hn, ?_, fun z => ?_⟩
  · obtain ⟨c, t, rfl, hc⟩ := hfunc
    simp only [List.append_assoc]
    rw [trimStart_append hws₁, List.cons_append, Text.trimStart_cons hc]
    simp
  · obtain ⟨c, t, rfl, hc⟩ := hfunc
    unfold keyQuote
    simp only [List.append_assoc]
    rw [trimStart_append hws₁, List.cons_append, Text.trimStart_cons hc, ← List.cons_append,
      Text.stripPrefix_append, Option.bind_some, trimStart_append hws₂, List.singleton_append,
      Text.trimStart_cons (by decide), stripPrefix_cons, Option.bind_some, trimStart_append hws₃,
      Text.trimStart_cons (by decide), stripPrefix_cons]
    simp
    omega

/-- The quote found does not depend on what stands behind it. -/
theorem findUnescapedQuote_congr {q : Char} {e : Bool} {u v : Str}
    (h : findUnescapedQuote q e (u ++ q :: v) = some u.length) (z : Str) :
    findUnescapedQuote q e (u ++ q :: z) = some u.length := by
  induction u generalizing e with
  | nil =>
    cases e with
    | true => simp [findUnescapedQuote] at h
    | false =>
      simp only [List.nil_append, findUnescapedQuote] at h ⊢
      split at h
      · simp at h
      · next hc => rw [if_neg hc, if_pos trivial, List.length_nil]
  | cons c u ih =>
    have hstep : ∀ {e}, (findUnescapedQuote q e (u ++ q :: v)).map (· + 1) = some (u.length + 1) →
        (findUnescapedQuote q e (u ++ q :: z)).map (· + 1) = some (u.length + 1) := by
      intro e he
      obtain ⟨n, hn, heq⟩ := Option.map_eq_some_iff.1 he
      rw [ih (hn.trans (by rw [Nat.succ.inj heq]))]
      rfl
    cases e with
    | true => exact hstep h
    | false =>
      simp only [List.cons_append, findUnescapedQuote, List.length_cons] at h ⊢
      split
      · next hc =>
        rw [if_pos hc] at h
        exact hstep h
      · next hc =>
        rw [if_neg hc] at h
        split
        · next hq =>
          rw [if_pos hq] at h
          simp at h
        · next hq =>
          rw [if_neg hq] at h
          exact hstep h

/-- Whatever stands behind the comma, the head is the same. -/
theorem statementHead_eq_some {func : Str} (hfunc : ∃ c t, func = c :: t ∧ isWhitespace c = false)
    (h : statementHead func raw = some (name, region)) :
    ∃ p, raw = p ++ ',' :: region ∧ Text.trimStart p ≠ [] ∧
      ∀ z, statementHead func (p ++ ',' :: z) = some (name, z) := by
  obtain ⟨⟨start, quoted⟩, hquote, h⟩ := Option.bind_eq_some_iff.1 h
  obtain ⟨n, hn, h⟩ := Option.bind_eq_some_iff.1 h
  obtain ⟨m, hm, h⟩ := Option.map_eq_some_iff.1 h
  obtain ⟨front, hraw, -, hfront, hall⟩ := keyQuote_eq_some hfunc hquote
  obtain ⟨u, v, rfl, rfl⟩ := eq_of_findUnescapedQuote hn
  have hv : (u ++ '"' :: v).drop (u.length + 1) = v := by simp
  rw [hv] at hm
  obtain ⟨a, b, rfl, rfl, ha⟩ := exists_of_find hm
  obtain ⟨hname, hregion⟩ := Prod.mk.inj h
  have hb : (u ++ '"' :: (a ++ ',' :: b)).drop (u.length + 1 + (a.length + 1)) = b := by
    rw [← List.drop_drop, hv, ← List.drop_drop, List.drop_left, List.drop_one, List.tail_cons]
  rw [hb] at hregion
  rw [List.take_left] at hname
  subst hregion
  refine ⟨front ++ '"' :: (u ++ '"' :: a), by rw [hraw]; simp, trimStart_append_ne_nil hfront _,
    fun z => ?_⟩
  have hz : front ++ '"' :: (u ++ '"' :: a) ++ ',' :: z = front ++ '"' :: (u ++ '"' :: (a ++ ',' :: z)) := by
    simp
  unfold statementHead
  rw [hz, hall, Option.bind_some]
  simp only
  rw [findUnescapedQuote_congr hn, Option.bind_some]
  have hv' : (u ++ '"' :: (a ++ ',' :: z)).drop (u.length + 1) = a ++ ',' :: z := by simp
  rw [hv', find_append_cons ha, Option.map_some, List.take_left, hname, ← List.drop_drop, hv',
    ← List.drop_drop, List.drop_left, List.drop_one, List.tail_cons]

/-- **A statement is its head and its region.** -/
theorem parseStatementLine_eq {func : Str} (hfunc : ∃ c t, func = c :: t ∧ isWhitespace c = false) :
    parseStatementLine f64 raw func = (statementHead func raw).bind fun (name, region) =>
      (findStatementValueEnd (Text.trimStart region)).map fun n =>
        ⟨raw, name, parseJsScalar f64 (Text.trimEnd ((Text.trimStart region).take n)),
          raw.length - (Text.trimStart region).length,
          raw.length - (Text.trimStart region).length +
            (Text.trimEnd ((Text.trimStart region).take n)).length⟩ := by
  unfold parseStatementLine statementHead
  cases hquote : keyQuote raw func with
  | none => rfl
  | some q =>
    obtain ⟨start, quoted⟩ := q
    obtain ⟨front, hraw, rfl, -, -⟩ := keyQuote_eq_some hfunc hquote
    simp only [Option.bind_some]
    cases hn : findUnescapedQuote '"' false quoted with
    | none => rfl
    | some n =>
      obtain ⟨u, v, rfl, rfl⟩ := eq_of_findUnescapedQuote hn
      simp only [Option.bind_some]
      have hfront : raw = (front ++ '"' :: (u ++ ['"'])) ++ v := by
        rw [hraw]
        simp
      have hlen : (front ++ '"' :: (u ++ ['"'])).length = front.length + 1 + u.length + 1 := by
        simp
        omega
      have hclose : raw.drop (front.length + 1 + u.length + 1) = v := by
        rw [hfront, ← hlen, List.drop_left]
      have hclose' : (u ++ '"' :: v).drop (u.length + 1) = v := by simp
      rw [hclose, hclose', List.take_left]
      cases hm : find ',' v with
      | none => rfl
      | some m =>
        obtain ⟨a, region, rfl, rfl, -⟩ := exists_of_find hm
        obtain ⟨ws, hregion, -, hws⟩ := exists_trimStart_eq region
        have hdrop : raw.drop (front.length + 1 + u.length + 1 + a.length + 1) = region := by
          rw [Nat.add_assoc, ← List.drop_drop, hclose]
          simp
        have hdrop' : (u ++ '"' :: (a ++ ',' :: region)).drop (u.length + 1 + (a.length + 1)) =
            region := by
          rw [← List.drop_drop, hclose']
          simp
        have hstart : front.length + 1 + u.length + 1 + a.length + 1 +
            (region.length - (Text.trimStart region).length) =
              raw.length - (Text.trimStart region).length := by
          have hle : (Text.trimStart region).length ≤ region.length :=
            (List.dropWhile_sublist _).length_le
          rw [hfront]
          simp
          omega
        have hvalue : region.drop (region.length - (Text.trimStart region).length) =
            Text.trimStart region := by
          rw [← hws]
          conv_lhs => rw [hregion, List.drop_left]
        simp only [Option.bind_some, Option.map_some, hdrop, hdrop', hstart]
        rw [← hstart, ← List.drop_drop, hdrop, hvalue]

/-! ## Heads and regions -/

/-- The key of a line without its section, and the region behind separator or comma. -/
def head (d : LineDialect) (raw : Str) : Option (Str × Str) :=
  match d.statement with
  | some func => statementHead func raw
  | none => plainHead d.separators raw

/-- The text of the value at the beginning of a region. -/
def behind (d : LineDialect) (y : Str) : Option Str :=
  match d.statement with
  | some _ => (findStatementValueEnd y).map fun n => Text.trimEnd (y.take n)
  | none => some (Text.trimEnd (valueRun d.commentChar y))

def scalar (f64 : Float64 F) (d : LineDialect) (t : Str) : ConfigValue F :=
  match d.statement with
  | some _ => parseJsScalar f64 t
  | none => parseScalar f64 t

/-- A key in a section. -/
def fullKey (d : LineDialect) (sec : Option Str) (name : Str) : Str :=
  match d.statement, sec with
  | none, some s => s ++ '.' :: name
  | _, _ => name

/-- What the four dialects have in common. -/
structure Proper (d : LineDialect) : Prop where
  quote : d.statement = none → d.quote = .shell ∨ d.quote = .bare
  separators : '\r' ∉ d.separators
  comment : isWhitespace d.commentChar = false
  func : ∀ func, d.statement = some func → ∃ c t, func = c :: t ∧ isWhitespace c = false

theorem LineFormat.proper (h : LineFormat) : Proper h.dialect := by
  cases h <;> refine ⟨by decide, by decide, by decide, ?_⟩ <;> intro func hfunc <;> cases hfunc
  exact ⟨'u', _, rfl, by decide⟩

/-- **A key line is its head and its region.** -/
theorem parseKeyLine_eq (hd : Proper d) : parseKeyLine f64 raw d sec =
    (head d raw).bind fun (name, region) => (behind d (Text.trimStart region)).map fun t =>
      ⟨raw, fullKey d sec name, scalar f64 d t, raw.length - (Text.trimStart region).length,
        raw.length - (Text.trimStart region).length + t.length⟩ := by
  unfold parseKeyLine head behind scalar fullKey
  cases hfunc : d.statement with
  | some func =>
    simp only
    rw [parseStatementLine_eq (hd.func func hfunc)]
    simp only [Option.map_map]
    rfl
  | none =>
    simp only
    rcases separator_cases d.separators raw with hno | ⟨k, sep, region, rfl, hsep, hk⟩
    · rw [parsePlainKeyLine_of_no_separator hno, plainHead_of_no_separator hno]
      rfl
    · rw [parsePlainKeyLine_append (hd.quote hfunc) hsep hk, plainHead_append hsep hk]
      have hle : (Text.trimStart region).length ≤ region.length :=
        (List.dropWhile_sublist _).length_le
      have hstart : k.length + 1 + (region.length - (Text.trimStart region).length) =
          (k ++ sep :: region).length - (Text.trimStart region).length := by
        rw [List.length_append, List.length_cons]
        omega
      rw [hstart]
      split
      · rfl
      · cases sec <;> rfl

/-- **Whatever is put in the region's place, the head is the same.** -/
theorem head_eq_some (hd : Proper d) (h : head d raw = some (name, region)) :
    ∃ p c, raw = p ++ c :: region ∧ c ≠ '\r' ∧ Text.trimStart p ≠ [] ∧
      ∀ z, head d (p ++ c :: z) = some (name, z) := by
  unfold head at h ⊢
  cases hfunc : d.statement with
  | some func =>
    rw [hfunc] at h
    obtain ⟨p, hraw, hp, hall⟩ := statementHead_eq_some (hd.func func hfunc) h
    exact ⟨p, ',', hraw, by decide, hp, hall⟩
  | none =>
    rw [hfunc] at h
    simp only at h ⊢
    rcases separator_cases d.separators raw with hno | ⟨k, sep, region', rfl, hsep, hk⟩
    · rw [plainHead_of_no_separator hno] at h
      cases h
    · rw [plainHead_append hsep hk] at h
      split at h
      · cases h
      · next hname =>
        cases h
        refine ⟨k, sep, rfl, fun heq => hd.separators (heq ▸ hsep), fun hnil => hname ?_, fun z => ?_⟩
        · unfold keyName Text.trim
          rw [hnil]
          rfl
        · rw [plainHead_append hsep hk, if_neg hname]

theorem head_append_return (hd : Proper d) :
    head d (raw ++ ['\r']) = (head d raw).map fun (name, region) => (name, region ++ ['\r']) := by
  cases h : head d raw with
  | some q =>
    obtain ⟨name, region⟩ := q
    obtain ⟨p, c, rfl, -, -, hall⟩ := head_eq_some hd h
    rw [List.append_assoc, List.cons_append, hall]
    rfl
  | none =>
    rw [Option.map_none, Option.eq_none_iff_forall_ne_some]
    rintro ⟨name, region⟩ hsome
    obtain ⟨p, c, hraw, hc, -, hall⟩ := head_eq_some hd hsome
    rcases List.eq_nil_or_concat region with rfl | ⟨y, x, rfl⟩
    · exact hc (List.singleton_inj.1 (List.append_inj' hraw rfl).2).symm
    · rw [List.concat_eq_append, ← List.cons_append, ← List.append_assoc] at hraw
      rw [(List.append_inj' hraw rfl).1, hall] at h
      cases h

/-! ## A carriage return at the end -/

theorem trimStart_append_return (s : Str) : Text.trimStart (s ++ ['\r']) =
    if Text.trimStart s = [] then [] else Text.trimStart s ++ ['\r'] := by
  unfold Text.trimStart
  rw [List.dropWhile_append]
  simp only [List.isEmpty_iff]
  rfl

theorem findUnescapedQuote_append_singleton {q c : Char} (hc : c ≠ q) {e : Bool} (s : Str) :
    findUnescapedQuote q e (s ++ [c]) = findUnescapedQuote q e s := by
  induction s generalizing e with
  | nil => cases e <;> simp [findUnescapedQuote, hc]
  | cons x s ih => cases e <;> simp [findUnescapedQuote, ih]

theorem findInlineComment_append_singleton {comment c : Char} (hc : c ≠ comment) {b : Bool}
    (s : Str) : findInlineComment comment b (s ++ [c]) = findInlineComment comment b s := by
  induction s generalizing b with
  | nil => simp [findInlineComment, hc]
  | cons x s ih => simp [findInlineComment, ih]

theorem findIdx?_append_singleton {p : Char → Bool} {c : Char} (hc : p c = false) (s : Str) :
    (s ++ [c]).findIdx? p = s.findIdx? p := by
  rw [List.findIdx?_append]
  simp [List.findIdx?_cons, hc]

theorem trimEnd_append_return (s : Str) : Text.trimEnd (s ++ ['\r']) = Text.trimEnd s := by
  unfold Text.trimEnd
  rw [List.rdropWhile_concat_pos _ _ _ (by decide)]

theorem behind_append_return (hd : Proper d) (hy : y ≠ []) : behind d (y ++ ['\r']) = behind d y := by
  obtain ⟨q, rest, rfl⟩ := List.exists_cons_of_ne_nil hy
  have hcomment : '\r' ≠ d.commentChar := fun h => absurd (h ▸ hd.comment) (by decide)
  unfold behind
  split
  · have hend : findStatementValueEnd (q :: rest ++ ['\r']) = findStatementValueEnd (q :: rest) := by
      simp only [findStatementValueEnd, List.cons_append]
      split
      · next hq =>
        have hne : '\r' ≠ q := by rcases hq with rfl | rfl <;> decide
        rw [findUnescapedQuote_append_singleton hne]
      · rw [← List.cons_append, findIdx?_append_singleton (by decide)]
    rw [hend]
    cases hn : findStatementValueEnd (q :: rest) with
    | none => rfl
    | some n =>
      have hle : n ≤ (q :: rest).length := by
        simp only [findStatementValueEnd] at hn
        split at hn
        · obtain ⟨k, hk, rfl⟩ := Option.map_eq_some_iff.1 hn
          obtain ⟨u, v, rfl, rfl⟩ := eq_of_findUnescapedQuote hk
          simp
          omega
        · obtain ⟨hlt, -⟩ := List.findIdx?_eq_some_iff_getElem.1 hn
          omega
      rw [Option.map_some, Option.map_some, List.take_append_of_le_length hle]
  · congr 1
    simp only [valueRun, List.cons_append]
    split
    · next hq =>
      have hne : '\r' ≠ q := by rcases hq with rfl | rfl <;> decide
      rw [findUnescapedQuote_append_singleton hne]
      cases hn : findUnescapedQuote q false rest with
      | none => exact trimEnd_append_return (q :: rest)
      | some n =>
        obtain ⟨u, v, rfl, rfl⟩ := eq_of_findUnescapedQuote hn
        simp only
        rw [List.take_append_of_le_length (by simp)]
    · rw [← List.cons_append, findInlineComment_append_singleton hcomment]
      cases hn : findInlineComment d.commentChar false (q :: rest) with
      | none => exact trimEnd_append_return (q :: rest)
      | some n =>
        have := findInlineComment_lt hn
        simp only
        rw [List.take_append_of_le_length (by omega)]

/-! ## What lines say -/

/-- The key and the value of a line. -/
def Line.entry : Line F → Option (Str × ConfigValue F)
  | .keyVal kv => some (kv.key, kv.value)
  | _ => none

/-- The section a line opens. -/
def Line.heading : Line F → Option Str
  | .header _ name => some name
  | _ => none

variable (f64 sec raw) in
theorem parseKeyLine_append_return (hd : Proper d) :
    (parseKeyLine f64 (raw ++ ['\r']) d sec).map (fun kv => (kv.key, kv.value)) =
      (parseKeyLine f64 raw d sec).map fun kv => (kv.key, kv.value) := by
  rw [parseKeyLine_eq hd, parseKeyLine_eq hd, head_append_return hd]
  cases h : head d raw with
  | none => rfl
  | some q =>
    obtain ⟨name, region⟩ := q
    have hbehind : behind d (Text.trimStart (region ++ ['\r'])) = behind d (Text.trimStart region) := by
      rw [trimStart_append_return]
      split
      · next hnil => rw [hnil]
      · next hne => exact behind_append_return hd hne
    simp only [Option.map_some, Option.bind_some, hbehind, Option.map_map]
    rfl

theorem isPrefixOf_append_return {p : Str} (hp : '\r' ∉ p) (s : Str) :
    p.isPrefixOf (s ++ ['\r']) = p.isPrefixOf s := by
  rw [Bool.eq_iff_iff, List.isPrefixOf_iff_prefix, List.isPrefixOf_iff_prefix, List.prefix_concat_iff]
  refine or_iff_right fun h => hp ?_
  rw [h]
  simp

theorem parseSectionHeader_append_return (s : Str) :
    parseSectionHeader (s ++ ['\r']) = parseSectionHeader s := by
  cases s with
  | nil => rfl
  | cons c s =>
    unfold parseSectionHeader
    by_cases hc : c = '['
    · subst hc
      rw [List.cons_append, stripPrefix_cons, stripPrefix_cons, Option.bind_some, Option.bind_some]
      have hfind : find ']' (s ++ ['\r']) = find ']' s := findIdx?_append_singleton (by decide) s
      rw [hfind]
      cases hn : find ']' s with
      | none => rfl
      | some n =>
        obtain ⟨a, b, rfl, rfl, -⟩ := exists_of_find hn
        simp
    · have hnone : ∀ t, Text.stripPrefix ['['] (c :: t) = none := by
        intro t
        rw [Option.eq_none_iff_forall_ne_some]
        intro r hr
        exact hc (List.cons.inj (Text.stripPrefix_eq_some.1 hr)).1
      rw [List.cons_append, hnone, hnone]

variable (f64 sec raw) in
theorem parseLine_append_return (hd : Proper d) :
    (parseLine f64 d sec (raw ++ ['\r'])).entry = (parseLine f64 d sec raw).entry ∧
      (parseLine f64 d sec (raw ++ ['\r'])).heading = (parseLine f64 d sec raw).heading := by
  unfold parseLine
  simp only [trimStart_append_return]
  by_cases hnil : Text.trimStart raw = []
  · simp only [hnil, if_true, List.isEmpty_nil, Bool.true_or]
    exact ⟨rfl, rfl⟩
  · simp only [if_neg hnil, isPrefixOf_append_return (by decide : '\r' ∉ "//".toList),
      parseSectionHeader_append_return]
    obtain ⟨c, t, hct⟩ := List.exists_cons_of_ne_nil hnil
    simp only [hct, List.cons_append, List.isEmpty_cons, List.head?_cons]
    split
    · exact ⟨rfl, rfl⟩
    · split
      · exact ⟨rfl, rfl⟩
      · have hkv := parseKeyLine_append_return f64 sec raw hd
        cases h : parseKeyLine f64 raw d sec with
        | none =>
          rw [h, Option.map_none, Option.map_eq_none_iff] at hkv
          rw [hkv]
          exact ⟨rfl, rfl⟩
        | some kv =>
          rw [h, Option.map_some, Option.map_eq_some_iff] at hkv
          obtain ⟨kv', hkv', heq⟩ := hkv
          rw [hkv']
          exact ⟨congrArg some heq, rfl⟩

/-! ## What a document says -/

/-- A line without its carriage return. -/
def stripReturn (l : Str) : Str := (Text.stripSuffix ['\r'] l).getD l

theorem stripReturn_cases (l : Str) :
    l = stripReturn l ++ ['\r'] ∨ stripReturn l = l ∧ (l.getLast? == some '\r') = false := by
  unfold stripReturn
  rcases eq_concat_or_stripSuffix l '\r' with ⟨s, hl, hs, -⟩ | ⟨hs, hlast⟩
  · rw [hs]
    exact .inl hl
  · rw [hs]
    exact .inr ⟨rfl, hlast⟩

variable (f64 sec raw) in
theorem parseLine_stripReturn (hd : Proper d) :
    (parseLine f64 d sec (stripReturn raw)).entry = (parseLine f64 d sec raw).entry ∧
      (parseLine f64 d sec (stripReturn raw)).heading = (parseLine f64 d sec raw).heading := by
  rcases stripReturn_cases raw with h | ⟨h, -⟩
  · have hsame := parseLine_append_return f64 sec (stripReturn raw) hd
    rw [← h] at hsame
    exact ⟨hsame.1.symm, hsame.2.symm⟩
  · rw [h]
    exact ⟨rfl, rfl⟩

/-- The keys and values of lines, from a section on. -/
def entries (f64 : Float64 F) (d : LineDialect) (sec : Option Str) (ls : List Str) : ConfigModel F :=
  (parseLines f64 d sec ls).filterMap Line.entry

/-- The section that stands behind lines. -/
def sectionAfter (f64 : Float64 F) (d : LineDialect) (sec : Option Str) (ls : List Str) :
    Option Str :=
  ls.foldl (fun sec raw => (parseLine f64 d sec raw).heading.or sec) sec

variable {ls ls' : List Str} {newline : Bool}

theorem parseLines_cons : parseLines f64 d sec (raw :: ls) =
    parseLine f64 d sec raw :: parseLines f64 d ((parseLine f64 d sec raw).heading.or sec) ls := by
  rw [parseLines]
  cases parseLine f64 d sec raw <;> rfl

theorem parseLines_append : parseLines f64 d sec (ls ++ ls') =
    parseLines f64 d sec ls ++ parseLines f64 d (sectionAfter f64 d sec ls) ls' := by
  induction ls generalizing sec with
  | nil => rfl
  | cons raw ls ih => rw [List.cons_append, parseLines_cons, parseLines_cons, ih]; rfl

theorem entries_append : entries f64 d sec (ls ++ ls') =
    entries f64 d sec ls ++ entries f64 d (sectionAfter f64 d sec ls) ls' := by
  unfold entries
  rw [parseLines_append, List.filterMap_append]

theorem entries_cons : entries f64 d sec (raw :: ls) = (parseLine f64 d sec raw).entry.toList ++
    entries f64 d ((parseLine f64 d sec raw).heading.or sec) ls := by
  unfold entries
  rw [parseLines_cons, List.filterMap_cons]
  cases (parseLine f64 d sec raw).entry <;> rfl

theorem entries_singleton :
    entries f64 d sec [raw] = (parseLine f64 d sec raw).entry.toList := by
  rw [entries_cons]
  exact List.append_nil _

theorem entries_map_stripReturn (hd : Proper d) :
    entries f64 d sec (ls.map stripReturn) = entries f64 d sec ls := by
  induction ls generalizing sec with
  | nil => rfl
  | cons raw ls ih =>
    obtain ⟨hentry, hheading⟩ := parseLine_stripReturn f64 sec raw hd
    rw [List.map_cons, entries_cons, entries_cons, hentry, hheading, ih]

theorem splitLines_eq {text : Str} (h : text ≠ []) :
    splitLines text = (((Text.stripSuffix ['\n'] text).getD text).splitOn '\n').map stripReturn := by
  unfold splitLines
  rw [if_neg (by simpa using h)]
  rfl

theorem entries_nil_line : entries f64 d sec [[]] = [] := rfl

theorem eq_of_intercalate_eq_nil (hls : ∀ l ∈ ls, '\n' ∉ l) (hne : ls ≠ [])
    (h : ['\n'].intercalate ls = []) : ls = [[]] := by
  have hsplit := List.splitOn_intercalate '\n' hls hne
  rw [h] at hsplit
  exact hsplit.symm

/-- **What is written out is read as the lines.** -/
theorem entries_emitText (hd : Proper d) (hls : ∀ l ∈ ls, '\n' ∉ l) :
    entries f64 d none (splitLines (LineModel.emitText ls newline)) = entries f64 d none ls := by
  by_cases hnil : ls = []
  · subst hnil
    cases newline <;> rfl
  have hsplit := List.splitOn_intercalate '\n' hls hnil
  unfold LineModel.emitText
  have hempty : ls.isEmpty = false := by simpa using hnil
  rw [hempty, Bool.not_false, Bool.and_true]
  cases newline with
  | true =>
    rw [if_pos rfl, splitLines_eq (by simp), stripSuffix_concat, Option.getD_some, hsplit,
      entries_map_stripReturn hd]
  | false =>
    rw [if_neg (by decide), List.append_nil]
    by_cases htext : ['\n'].intercalate ls = []
    · rw [htext, eq_of_intercalate_eq_nil hls hnil htext]
      rfl
    rw [splitLines_eq htext, entries_map_stripReturn hd]
    rcases eq_concat_or_stripSuffix (['\n'].intercalate ls) '\n' with ⟨t, ht, hs, -⟩ | ⟨hs, -⟩
    · rw [ht, List.splitOn_append_cons_self] at hsplit
      rw [hs, Option.getD_some, ← hsplit, List.splitOn_nil, entries_append, entries_nil_line,
        List.append_nil]
    · rw [hs, Option.getD_none, hsplit]

variable {h : LineFormat} {text : Str}

theorem toModel_eq (m : LineModel F) : m.toModel = m.lines.filterMap Line.entry := by
  unfold LineModel.toModel
  congr 1

theorem read_eq : h.read f64 text = if Text.byteLen text > maxConfigBytes then .error .tooLarge
    else .ok (entries f64 h.dialect none (splitLines text)) := by
  unfold LineFormat.read LineModel.parse
  by_cases hlarge : Text.byteLen text > maxConfigBytes
  · rw [if_pos hlarge, if_pos hlarge]
  · rw [if_neg hlarge, if_neg hlarge]
    simp only [toModel_eq]
    rfl

/-! ## A line rewritten -/

/-- Neither a comment nor a header. -/
def KeyText (d : LineDialect) (raw : Str) : Prop :=
  ((Text.trimStart raw).isEmpty || (Text.trimStart raw).head? == some d.commentChar ||
    "//".toList.isPrefixOf (Text.trimStart raw)) = false ∧
  (d.sections = true → parseSectionHeader (Text.trimStart raw) = none)

theorem parseLine_of_keyText (h : KeyText d raw) : parseLine f64 d sec raw =
    match parseKeyLine f64 raw d sec with
    | some kv => .keyVal kv
    | none => .other raw := by
  unfold parseLine
  simp only
  rw [h.1, if_neg (by decide)]
  cases hsections : d.sections with
  | true => cases parseKeyLine f64 raw d sec <;> simp only [↓reduceIte, h.2 hsections]
  | false => cases parseKeyLine f64 raw d sec <;> simp only [Bool.false_eq_true, ↓reduceIte]

theorem keyText_of_keyVal {kv : KeyVal F} (h : parseLine f64 d sec raw = .keyVal kv) :
    KeyText d raw := by
  unfold parseLine at h
  simp only at h
  split at h
  · cases h
  · next hcomment =>
    refine ⟨Bool.not_eq_true _ ▸ hcomment, fun hsections => ?_⟩
    rw [hsections, if_pos rfl] at h
    cases hheader : parseSectionHeader (Text.trimStart raw) with
    | none => rfl
    | some name =>
      rw [hheader] at h
      cases h

theorem parseSectionHeader_eq_none {s : Str} :
    parseSectionHeader s = none ↔ ∀ t, s = '[' :: t → ']' ∉ t := by
  unfold parseSectionHeader
  rw [Option.bind_eq_none_iff]
  constructor
  · rintro h t rfl hmem
    have hnone := h t (stripPrefix_cons '[' t)
    rw [Option.map_eq_none_iff] at hnone
    simpa using List.findIdx?_eq_none_iff.1 hnone ']' hmem
  · intro h t ht
    rw [find_of_not_mem (h t (Text.stripPrefix_eq_some.1 ht))]
    rfl

/-- Another region makes a line neither a comment nor a header. -/
theorem keyText_replace {p z z' : Str} {c : Char} (h : KeyText d (p ++ c :: z))
    (hp : Text.trimStart p ≠ []) (hz : d.sections = true → ']' ∈ z' → ']' ∈ z) :
    KeyText d (p ++ c :: z') := by
  have htrim : ∀ z, Text.trimStart (p ++ c :: z) = Text.trimStart p ++ c :: z := by
    intro z
    unfold Text.trimStart at hp ⊢
    rw [List.dropWhile_append, if_neg (by simpa using hp)]
  obtain ⟨x, t, hx⟩ := List.exists_cons_of_ne_nil hp
  obtain ⟨hcomment, hheader⟩ := h
  unfold KeyText
  rw [htrim, hx] at hcomment hheader ⊢
  constructor
  · rw [← hcomment]
    have htwo : ∀ z, "//".toList.isPrefixOf (x :: t ++ c :: z) =
        "//".toList.isPrefixOf (x :: (t ++ [c])) := by
      intro z
      cases t with
      | nil => simp [List.isPrefixOf]
      | cons y t => simp [List.isPrefixOf]
    rw [htwo, htwo]
    rfl
  · intro hsections
    have hnone := hheader hsections
    rw [parseSectionHeader_eq_none] at hnone ⊢
    intro s hs hmem
    rw [List.cons_append, List.cons.injEq] at hs
    obtain ⟨rfl, rfl⟩ := hs
    have hno := hnone (t ++ c :: z) rfl
    simp only [List.mem_append, List.mem_cons, not_or] at hno hmem
    rcases hmem with hmem | hmem | hmem
    · exact hno.1 hmem
    · exact hno.2.1 hmem
    · exact hno.2.2 (hz hsections hmem)

/-- A token that can stand for a value. -/
structure Token (d : LineDialect) (token : Str) : Prop where
  solid : ∃ c t, token = c :: t ∧ isWhitespace c = false
  bracket : d.sections = true → ']' ∉ token

/-- The line with another token in the value's place. -/
def KeyVal.rewritten (kv : KeyVal F) (token : Str) : Str :=
  kv.raw.take kv.start ++ token ++ kv.raw.drop kv.stop

/-- **A line rewritten keeps its key**, and its value is what the token and the rest of the
line are read as. -/
theorem entry_rewritten (hd : Proper d) {kv : KeyVal F}
    (hline : parseLine f64 d sec raw = .keyVal kv) : ∃ name, kv.key = fullKey d sec name ∧
      (∀ sec, (parseLine f64 d sec raw).entry = some (fullKey d sec name, kv.value) ∧
        (parseLine f64 d sec raw).heading = none) ∧
      ∀ token, Token d token → ∀ sec,
        (parseLine f64 d sec (kv.rewritten token)).entry =
          (behind d (token ++ raw.drop kv.stop)).map (fun t => (fullKey d sec name, scalar f64 d t)) ∧
        (parseLine f64 d sec (kv.rewritten token)).heading = none := by
  have htext := keyText_of_keyVal hline
  have hkv := parseKeyLine_of_parseLine hline
  have hraw := raw_of_parseKeyLine hkv
  rw [parseKeyLine_eq hd] at hkv
  obtain ⟨⟨name, region⟩, hhead, hkv⟩ := Option.bind_eq_some_iff.1 hkv
  obtain ⟨t, ht, rfl⟩ := Option.map_eq_some_iff.1 hkv
  obtain ⟨p, c, hcut, -, hp, hall⟩ := head_eq_some hd hhead
  obtain ⟨ws, hregion, hws, hlen⟩ := exists_trimStart_eq region
  have hheading : ∀ {raw}, KeyText d raw → ∀ sec, (parseLine f64 d sec raw).heading = none := by
    intro raw htext sec
    rw [parseLine_of_keyText htext]
    split <;> rfl
  have hentry : ∀ {raw}, KeyText d raw → ∀ sec, (parseLine f64 d sec raw).entry =
      (parseKeyLine f64 raw d sec).map fun kv => (kv.key, kv.value) := by
    intro raw htext sec
    rw [parseLine_of_keyText htext]
    split
    · next hkv => rw [hkv]; rfl
    · next hkv => rw [hkv]; rfl
  refine ⟨name, rfl, fun sec => ⟨?_, hheading htext sec⟩, fun token htoken sec' => ?_⟩
  · rw [hentry htext, parseKeyLine_eq hd, hhead, Option.bind_some]
    simp only [ht, Option.map_some]
  · have hfront : raw = (p ++ c :: ws) ++ Text.trimStart region := by
      rw [hcut, List.append_assoc, List.cons_append, ← hregion]
    have hstart : raw.length - (Text.trimStart region).length = (p ++ c :: ws).length := by
      rw [hfront, List.length_append]
      omega
    have hdrop : raw.drop (raw.length - (Text.trimStart region).length + t.length) =
        (Text.trimStart region).drop t.length := by
      rw [← List.drop_drop, hstart]
      conv_lhs => rw [hfront, List.drop_left]
    have htake : raw.take (raw.length - (Text.trimStart region).length) = p ++ c :: ws := by
      rw [hstart]
      conv_lhs => rw [hfront, List.take_left]
    have hnew : KeyVal.rewritten (F := F) ⟨raw, fullKey d sec name, scalar f64 d t,
        raw.length - (Text.trimStart region).length,
        raw.length - (Text.trimStart region).length + t.length⟩ token =
          p ++ c :: (ws ++ (token ++ (Text.trimStart region).drop t.length)) := by
      unfold KeyVal.rewritten
      rw [htake, hdrop]
      simp
    have hbracket : d.sections = true →
        ']' ∈ ws ++ (token ++ (Text.trimStart region).drop t.length) → ']' ∈ region := by
      intro hsections hmem
      rw [hregion]
      rcases List.mem_append.1 hmem with hmem | hmem
      · exact List.mem_append_left _ hmem
      · rcases List.mem_append.1 hmem with hmem | hmem
        · exact absurd hmem (htoken.bracket hsections)
        · exact List.mem_append_right _ (List.mem_of_mem_drop hmem)
    rw [hcut] at htext
    have htext' := keyText_replace htext hp hbracket
    rw [hnew]
    refine ⟨?_, hheading htext' sec'⟩
    obtain ⟨x, u, rfl, hx⟩ := htoken.solid
    rw [hentry htext', parseKeyLine_eq hd, hall, Option.bind_some]
    simp only
    rw [trimStart_append hws, List.cons_append, Text.trimStart_cons hx, hdrop, Option.map_map]
    rfl

theorem newline_not_mem_rewritten {kv : KeyVal F} {token : Str} (hraw : '\n' ∉ kv.raw)
    (htoken : '\n' ∉ token) : '\n' ∉ kv.rewritten token := by
  unfold KeyVal.rewritten
  simp only [List.mem_append, not_or]
  exact ⟨⟨fun h => hraw (List.mem_of_mem_take h), htoken⟩, fun h => hraw (List.mem_of_mem_drop h)⟩

/-! ## A bare token -/

/-- What runs on behind a bare token, up to a comment or the statement's end. -/
def runOn (d : LineDialect) (rest : Str) : Option Str :=
  match d.statement with
  | some _ => (rest.findIdx? fun c => c == ')' || c == ';').map fun n => Text.trimEnd (rest.take n)
  | none => some (Text.trimEnd
      (match findInlineComment d.commentChar false rest with
        | some n => rest.take n
        | none => rest))

/-- A token that needs no quotes. -/
structure Bare (d : LineDialect) (token : Str) : Prop where
  ne_nil : token ≠ []
  solid : ∀ c ∈ token, isWhitespace c = false
  unquoted : ∀ c ∈ token, c ≠ '"' ∧ c ≠ '\''
  comment : d.commentChar ∉ token
  statement : d.statement ≠ none → ∀ c ∈ token, (c == ')' || c == ';') = false

theorem findInlineComment_append {comment : Char} {b : Bool} {token : Str} (hne : token ≠ [])
    (hsolid : ∀ c ∈ token, isWhitespace c = false) (hcomment : comment ∉ token) (rest : Str) :
    findInlineComment comment b (token ++ rest) =
      (findInlineComment comment false rest).map (· + token.length) := by
  induction token generalizing b with
  | nil => exact absurd rfl hne
  | cons c token ih =>
    have hc : (c == ' ' || c == '\t') = false := by
      have hspace := hsolid c List.mem_cons_self
      rw [Bool.or_eq_false_iff, beq_eq_false_iff_ne, beq_eq_false_iff_ne]
      constructor <;> rintro rfl <;> exact absurd hspace (by decide)
    have hne' : c ≠ comment := fun h => hcomment (h ▸ List.mem_cons_self)
    rw [List.cons_append, findInlineComment, if_neg (fun h => hne' h.1), hc]
    cases token with
    | nil => rfl
    | cons x token =>
      rw [ih (by simp) (fun c hc => hsolid c (List.mem_cons_of_mem _ hc))
        (fun h => hcomment (List.mem_cons_of_mem _ h)), Option.map_map]
      congr 1

theorem trimEnd_solid_append {token : Str} (hsolid : ∀ c ∈ token, isWhitespace c = false) (s : Str) :
    Text.trimEnd (token ++ s) = token ++ Text.trimEnd s := by
  unfold Text.trimEnd
  induction s using List.reverseRecOn with
  | nil =>
    rw [List.append_nil, List.rdropWhile_nil, List.append_nil]
    exact Text.trimEnd_of_solid hsolid
  | append_singleton s c ih =>
    rw [← List.append_assoc]
    by_cases hc : isWhitespace c = true
    · rw [List.rdropWhile_concat_pos _ _ _ hc, List.rdropWhile_concat_pos _ _ _ hc, ih]
    · rw [List.rdropWhile_concat_neg _ _ _ hc, List.rdropWhile_concat_neg _ _ _ hc,
        List.append_assoc]

theorem behind_bare {token : Str} (h : Bare d token) (rest : Str) :
    behind d (token ++ rest) = (runOn d rest).map (token ++ ·) := by
  obtain ⟨q, t, rfl⟩ := List.exists_cons_of_ne_nil h.ne_nil
  have hq : ¬ (q = '"' ∨ q = '\'') := not_or.2 (h.unquoted q List.mem_cons_self)
  unfold behind runOn
  cases hfunc : d.statement with
  | some func =>
    have hend := h.statement (by rw [hfunc]; simp)
    have hfind : findStatementValueEnd (q :: t ++ rest) =
        (rest.findIdx? fun c => c == ')' || c == ';').map (· + (q :: t).length) := by
      simp only [findStatementValueEnd, List.cons_append, if_neg hq]
      rw [← List.cons_append, List.findIdx?_append, List.findIdx?_eq_none_iff.2 hend]
      rfl
    simp only [hfind, Option.map_map]
    congr 1
    funext n
    simp only [Function.comp_apply]
    rw [Nat.add_comm, List.take_length_add_append, trimEnd_solid_append h.solid]
  | none =>
    simp only [valueRun, List.cons_append, if_neg hq, Option.map_some]
    rw [← List.cons_append, findInlineComment_append h.ne_nil h.solid h.comment]
    cases findInlineComment d.commentChar false rest with
    | none =>
      simp only [Option.map_none, trimEnd_solid_append h.solid]
      rfl
    | some n =>
      simp only [Option.map_some]
      rw [Nat.add_comm, List.take_length_add_append, trimEnd_solid_append h.solid]
      rfl

/-! ## The line that carries a key -/

variable {key token : Str} {kv : KeyVal F}

/-- The first line that carries the key, between the lines before it and those behind. -/
structure Carried (f64 : Float64 F) (d : LineDialect) (sec : Option Str) (ls : List Str) (key : Str)
    (pre : List Str) (raw : Str) (post : List Str) (kv : KeyVal F) : Prop where
  cut : ls = pre ++ raw :: post
  line : parseLine f64 d (sectionAfter f64 d sec pre) raw = .keyVal kv
  key_eq : kv.key = key
  before : ∀ line ∈ parseLines f64 d sec pre, LineModel.carries key line = false

theorem carried_cases (f64 : Float64 F) (d : LineDialect) (sec : Option Str) (ls : List Str)
    (key : Str) : (∀ line ∈ parseLines f64 d sec ls, LineModel.carries key line = false) ∨
      ∃ pre raw post kv, Carried f64 d sec ls key pre raw post kv := by
  induction ls generalizing sec with
  | nil => exact .inl fun line hline => by cases hline
  | cons raw ls ih =>
    cases hcarries : LineModel.carries key (parseLine f64 d sec raw) with
    | true =>
      cases hline : parseLine f64 d sec raw with
      | keyVal kv =>
        rw [hline] at hcarries
        exact .inr ⟨[], raw, ls, kv, rfl, hline, eq_of_beq hcarries, fun line hline => by cases hline⟩
      | header r name =>
        rw [hline] at hcarries
        cases hcarries
      | other r =>
        rw [hline] at hcarries
        cases hcarries
    | false =>
      rcases ih ((parseLine f64 d sec raw).heading.or sec) with hno | ⟨pre, r, post, kv, hcarried⟩
      · refine .inl fun line hline => ?_
        rw [parseLines_cons] at hline
        rcases List.mem_cons.1 hline with rfl | hline
        · exact hcarries
        · exact hno line hline
      · refine .inr ⟨raw :: pre, r, post, kv, by rw [hcarried.cut]; rfl, hcarried.line, hcarried.key_eq,
          fun line hline => ?_⟩
        rw [parseLines_cons] at hline
        rcases List.mem_cons.1 hline with rfl | hline
        · exact hcarries
        · exact hcarried.before line hline

theorem length_parseLines : (parseLines f64 d sec ls).length = ls.length := by
  rw [← List.length_map Line.raw, map_raw_parseLines]

theorem raw_eq_of_keyVal (h : parseLine f64 d sec raw = .keyVal kv) : kv.raw = raw :=
  raw_of_parseKeyLine (parseKeyLine_of_parseLine h)

variable {pre post : List Str}

namespace Carried

theorem lines_eq (hc : Carried f64 d sec ls key pre raw post kv) : parseLines f64 d sec ls =
    parseLines f64 d sec pre ++ .keyVal kv ::
      parseLines f64 d (sectionAfter f64 d sec pre) post := by
  rw [hc.cut, parseLines_append, parseLines_cons, hc.line]
  rfl

theorem findKeyIndex_eq (hc : Carried f64 d sec ls key pre raw post kv) {newline : Bool} :
    LineModel.findKeyIndex ⟨d, parseLines f64 d sec ls, newline⟩ key = some pre.length := by
  unfold LineModel.findKeyIndex
  simp only
  rw [hc.lines_eq, List.findIdx?_append, List.findIdx?_eq_none_iff.2 hc.before]
  have hkv : LineModel.carries key (Line.keyVal kv) = true := beq_iff_eq.2 hc.key_eq
  simp [List.findIdx?_cons, hkv, length_parseLines]

variable (token) in
/-- **Setting a key that is there** rewrites its line. -/
theorem set_eq (hc : Carried f64 d none (splitLines text) key pre raw post kv)
    {value : ConfigValue F} {newline : Bool}
    (htoken : LineModel.serializeValue f64 ⟨d, parseLines f64 d none (splitLines text), newline⟩
      value = .ok token) :
    LineModel.set f64 ⟨d, parseLines f64 d none (splitLines text), newline⟩ key value =
      .ok (LineModel.emitText (pre ++ kv.rewritten token :: post) newline) := by
  unfold LineModel.set
  rw [hc.findKeyIndex_eq]
  simp only
  have hget : (parseLines f64 d none (splitLines text))[pre.length]? = some (.keyVal kv) := by
    rw [hc.lines_eq, List.getElem?_append_right (by rw [length_parseLines]), length_parseLines]
    simp
  rw [hget]
  simp only
  rw [htoken]
  simp only [LineModel.emit]
  rw [List.map_set, map_raw_parseLines, hc.cut, List.set_append_right _ _ (Nat.le_refl _),
    Nat.sub_self, List.set_cons_zero]
  rfl

/-- **Removing a key** takes its line away. -/
theorem remove_eq (hc : Carried f64 d none (splitLines text) key pre raw post kv)
    {newline : Bool} :
    LineModel.remove ⟨d, parseLines f64 d none (splitLines text), newline⟩ key =
      LineModel.emitText (pre ++ post) newline := by
  unfold LineModel.remove
  rw [hc.findKeyIndex_eq]
  simp only [LineModel.emit]
  rw [← List.eraseIdx_map, map_raw_parseLines, hc.cut, List.eraseIdx_append_of_length_le
    (Nat.le_refl _), Nat.sub_self, List.eraseIdx_cons_zero]

theorem lookup_eq (hbefore : ∀ line ∈ parseLines f64 d sec pre, LineModel.carries key line = false)
    {value : ConfigValue F}
    (hentry : (parseLine f64 d (sectionAfter f64 d sec pre) raw).entry = some (key, value)) :
    (entries f64 d sec (pre ++ raw :: post)).get key = some value := by
  have hnone : (entries f64 d sec pre).lookup key = none := by
    rw [List.lookup_eq_none_iff]
    intro p hp
    obtain ⟨line, hline, hentry⟩ := List.mem_filterMap.1 hp
    have hno := hbefore line hline
    cases line with
    | keyVal kv =>
      cases hentry
      simp only [LineModel.carries, beq_eq_false_iff_ne] at hno
      simpa using fun h : key = kv.key => hno h.symm
    | header r name => cases hentry
    | other r => cases hentry
  unfold ConfigModel.get
  rw [entries_append, List.lookup_append, hnone, entries_cons, hentry]
  simp

end Carried

end Arlen.ConfigFormat
