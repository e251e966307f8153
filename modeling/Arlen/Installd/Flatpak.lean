import Mathlib.Data.List.Destutter
import Mathlib.Data.String.Basic
import Arlen.Lib.Keyfile
import Arlen.Lib.Sort

/-!
# What an update of a Flatpak asks for

`flatpak.rs` of `daemons/installd/installd`: the `[Context]` of an app is read off what
`flatpak info --show-permissions` prints, and an update is held back when its context has
an entry that the installed one has not. Flatpak reads more than that: every section and
key, entries withdrawn with `!`, and the access to names on the buses. An update that
widens the app goes through exactly if it widens what is not compared, or grants an entry
the installed app has and withdraws.
-/

namespace Arlen.Installd.Flatpak

open Arlen.Lib

/-! ## The comparison -/

/-- The keys of `[Context]` that are read. -/
inductive Dimension where
  | filesystems
  | shared
  | sockets
  | devices
deriving DecidableEq, Repr

def Dimension.name : Dimension → String
  | .filesystems => "filesystems"
  | .shared => "shared"
  | .sockets => "sockets"
  | .devices => "devices"

def Dimension.key (d : Dimension) : List Char := d.name.toList

structure FlatpakContext where
  filesystems : List (List Char) := []
  shared : List (List Char) := []
  sockets : List (List Char) := []
  devices : List (List Char) := []
deriving DecidableEq

namespace FlatpakContext

def get (ctx : FlatpakContext) : Dimension → List (List Char)
  | .filesystems => ctx.filesystems
  | .shared => ctx.shared
  | .sockets => ctx.sockets
  | .devices => ctx.devices

/-- The arms of `match key.trim()`. -/
def set (ctx : FlatpakContext) (key : List Char) (items : List (List Char)) : FlatpakContext :=
  if key = "filesystems".toList then { ctx with filesystems := items }
  else if key = "shared".toList then { ctx with shared := items }
  else if key = "sockets".toList then { ctx with sockets := items }
  else if key = "devices".toList then { ctx with devices := items }
  else ctx

end FlatpakContext

/-- The entries of a list. -/
def items (val : List Char) : List (List Char) :=
  ((val.splitOn ';').map Text.trim).filter (· ≠ [])

def contextHeader : List Char := "[Context]".toList

/-- One line of `parse_show_permissions`, with whether it stands in the context. -/
def parseLine (s : Bool × FlatpakContext) (line : List Char) : Bool × FlatpakContext :=
  let line := Text.trim line
  if line.head? = some '[' then (Text.eqIgnoreAsciiCase line contextHeader, s.2)
  else if !s.1 then s
  else
    match Text.splitOnce '=' line with
    | none => s
    | some (key, val) => (s.1, s.2.set (Text.trim key) (items val))

def parseShowPermissions (output : String) : FlatpakContext :=
  (((lines output).map String.toList).foldl parseLine (false, {})).2

def widened (before after : FlatpakContext) : List String :=
  (sortBy id ([Dimension.filesystems, .shared, .sockets, .devices].flatMap fun d =>
    ((after.get d).filter (· ∉ before.get d)).map fun t =>
      d.name ++ ": " ++ String.ofList t)).destutter (· ≠ ·)

/-! ## What Flatpak reads -/

/-- Access to a name on a bus; each holds the ones before it. -/
inductive Access where
  | see
  | talk
  | own
deriving DecidableEq, Repr

def Access.rank : Access → Nat
  | .see => 1
  | .talk => 2
  | .own => 3

def Access.ofText (s : List Char) : Option Access :=
  if s = "see".toList then some .see
  else if s = "talk".toList then some .talk
  else if s = "own".toList then some .own
  else none

/-- The sections whose keys are names on a bus. -/
def policies : List (List Char) :=
  ["[Session Bus Policy]".toList, "[System Bus Policy]".toList]

inductive Permission where
  | item (header key entry : List Char)
  | bus (header name : List Char) (access : Access)
deriving DecidableEq

/-- Whether the list gives the entry or withdraws it, where it last names it. -/
def lastMention (entry : List Char) : List (List Char) → Option Bool
  | [] => none
  | t :: ts => (lastMention entry ts).or
      (if t = entry then some true else if t = '!' :: entry then some false else none)

/-- What an app with this listing may do. -/
def Grants (listing : String) : Permission → Prop
  | .item header key entry => header ∉ policies ∧ entry.head? ≠ some '!' ∧
      ∃ v, Keyfile.valueOf (Keyfile.entries listing) header key = some v ∧
        lastMention entry (items v) = some true
  | .bus header name access => header ∈ policies ∧
      ∃ v level, Keyfile.valueOf (Keyfile.entries listing) header name = some v ∧
        Access.ofText (Text.trim v) = some level ∧ access.rank ≤ level.rank

/-- The listing names the entry under the key, and withdraws it. -/
def Withdraws (listing : String) (d : Dimension) (entry : List Char) : Prop :=
  ∃ v, Keyfile.valueOf (Keyfile.entries listing) contextHeader d.key = some v ∧
    lastMention entry (items v) = some false

/-! ## What is compared of it -/

/-- The value of the key in the sections that are `[Context]` but for the case of letters. -/
def contextValue (listing : String) (d : Dimension) : Option (List Char) :=
  Keyfile.lastValue (fun e => Text.eqIgnoreAsciiCase e.header contextHeader && e.key == d.key)
    (Keyfile.entries listing)

/-- The entries under the key, withdrawn or not. -/
def written (listing : String) (d : Dimension) : List (List Char) :=
  ((contextValue listing d).map items).getD []

/-- No section that is `[Context]` but for the case of letters gives the key its value. -/
def ReadAlike (listing : String) (d : Dimension) : Prop :=
  contextValue listing d = Keyfile.valueOf (Keyfile.entries listing) contextHeader d.key

/-- Not an entry of one of the four lists, as they are read of both listings. -/
def Unseen (a b : String) (p : Permission) : Prop :=
  ∀ d entry, p = .item contextHeader d.key entry → ¬ (ReadAlike a d ∧ ReadAlike b d)

section
variable {a b : String} {d : Dimension} {ctx before after : FlatpakContext}
  {key entry : List Char} {its ts : List (List Char)} {ls : List (List Char)}
  {s : Bool × FlatpakContext} {header : Option (List Char)}

/-- The four keys are told apart. -/
theorem key_ne {d d' : Dimension} (h : d ≠ d') : d.key ≠ d'.key := by
  cases d <;> cases d' <;> first | exact absurd rfl h | decide

theorem set_key (d' : Dimension) :
    (ctx.set d'.key its).get d = if d'.key = d.key then its else ctx.get d := by
  have hset : ctx.set d'.key its = match d' with
      | .filesystems => { ctx with filesystems := its }
      | .shared => { ctx with shared := its }
      | .sockets => { ctx with sockets := its }
      | .devices => { ctx with devices := its } := by
    unfold FlatpakContext.set
    cases d' with
    | filesystems => exact if_pos rfl
    | shared => rw [if_neg (by decide)]; exact if_pos rfl
    | sockets => rw [if_neg (by decide), if_neg (by decide)]; exact if_pos rfl
    | devices => rw [if_neg (by decide), if_neg (by decide), if_neg (by decide)]; exact if_pos rfl
  rw [hset]
  by_cases h : d' = d
  · subst h
    rw [if_pos rfl]
    cases d' <;> rfl
  · rw [if_neg (key_ne h)]
    cases d' <;> cases d <;> first | rfl | exact absurd rfl h

theorem set_of_ne (h : ∀ d : Dimension, key ≠ d.key) : ctx.set key its = ctx := by
  have h₁ : key ≠ "filesystems".toList := h .filesystems
  have h₂ : key ≠ "shared".toList := h .shared
  have h₃ : key ≠ "sockets".toList := h .sockets
  have h₄ : key ≠ "devices".toList := h .devices
  unfold FlatpakContext.set
  rw [if_neg h₁, if_neg h₂, if_neg h₃, if_neg h₄]

theorem get_set : (ctx.set key its).get d = if key = d.key then its else ctx.get d := by
  by_cases h : ∃ d' : Dimension, key = d'.key
  · obtain ⟨d', rfl⟩ := h
    exact set_key d'
  · have hne : ∀ d' : Dimension, key ≠ d'.key := fun d' heq => h ⟨d', heq⟩
    rw [set_of_ne hne, if_neg (hne d)]

def inContext : Option (List Char) → Bool
  | none => false
  | some text => Text.eqIgnoreAsciiCase text contextHeader

/-- What a line does to the context, by what it is in a key file. -/
theorem parseLine_eq (l : List Char) : parseLine s l =
    match Keyfile.readLine l with
    | .header text => (inContext (some text), s.2)
    | .pair key value => if s.1 then (s.1, s.2.set key (items value)) else s
    | .other => s := by
  unfold parseLine Keyfile.readLine
  cases hl : Text.trim l with
  | nil =>
    simp only [List.head?_nil, reduceCtorEq, ↓reduceIte]
    cases s.1 <;> rfl
  | cons c t =>
    by_cases hb : c = '['
    · subst hb
      rfl
    · simp only [List.head?_cons, Option.some.injEq, hb, ↓reduceIte]
      by_cases hh : c = '#'
      · -- the key of a comment is none of the four
        subst hh
        simp only [↓reduceIte]
        cases hs : s.1 with
        | false => rfl
        | true =>
          cases hsplit : Text.splitOnce '=' ('#' :: t) with
          | none => rfl
          | some kv =>
            obtain ⟨key, val⟩ := kv
            obtain ⟨heq, -⟩ := Text.splitOnce_eq_some.1 hsplit
            cases key with
            | nil =>
              obtain ⟨h, -⟩ := List.cons.inj heq
              exact absurd h (by decide)
            | cons c key =>
              obtain ⟨rfl, -⟩ := List.cons.inj heq
              have hkey : ∀ d : Dimension, Text.trim ('#' :: key) ≠ d.key := by
                intro d h
                rw [Text.trim_cons (by decide)] at h
                have hhead := congrArg List.head? h
                rw [List.head?_cons] at hhead
                cases d <;> exact absurd hhead (by decide)
              simp only [Bool.not_true, Bool.false_eq_true, ↓reduceIte, set_of_ne hkey]
              rw [← hs]
      · simp only [hh, ↓reduceIte]
        cases hsplit : Text.splitOnce '=' (c :: t) with
        | none => cases s.1 <;> rfl
        | some kv => cases s.1 <;> simp

theorem foldl_parseLine (h : s.1 = inContext header) : (ls.foldl parseLine s).2.get d =
    ((Keyfile.lastValue
      (fun e => Text.eqIgnoreAsciiCase e.header contextHeader && e.key == d.key)
      (Keyfile.entriesFrom header ls)).map items).getD (s.2.get d) := by
  induction ls generalizing s header with
  | nil => rfl
  | cons l ls ih =>
    rw [List.foldl_cons, parseLine_eq]
    unfold Keyfile.entriesFrom
    cases hl : Keyfile.readLine l with
    | header text => exact ih rfl
    | other => cases header <;> exact ih h
    | pair key value =>
      cases header with
      | none =>
        simp only
        rw [h]
        exact ih h
      | some text =>
        simp only
        rw [Keyfile.lastValue]
        cases hctx : s.1 with
        | false =>
          rw [hctx] at h
          rw [if_neg Bool.false_ne_true, @ih s (some text) (by rw [hctx, h])]
          have htext : Text.eqIgnoreAsciiCase text contextHeader = false := h.symm
          rw [htext, Bool.false_and]
          simp
        | true =>
          rw [hctx] at h
          rw [if_pos rfl, @ih (true, s.2.set key (items value)) (some text) h,
            get_set]
          have htext : Text.eqIgnoreAsciiCase text contextHeader = true := h.symm
          rw [htext, Bool.true_and]
          cases Keyfile.lastValue _ (Keyfile.entriesFrom (some text) ls) with
          | some v => rfl
          | none =>
            by_cases hkey : key = d.key
            · simp [hkey]
            · simp [hkey]

/-- **What is read of a listing**: the entries of the four lists, withdrawn or not. -/
theorem get_parseShowPermissions (listing : String) (d : Dimension) :
    (parseShowPermissions listing).get d = written listing d := by
  have hfold := @foldl_parseLine d ((lines listing).map String.toList) (false, {}) none rfl
  unfold parseShowPermissions written contextValue Keyfile.entries
  rw [hfold]
  cases d <;> rfl

theorem widened_eq_nil_iff :
    widened before after = [] ↔ ∀ d, ∀ t ∈ after.get d, t ∈ before.get d := by
  unfold widened
  rw [List.destutter_eq_nil, ← List.length_eq_zero_iff, (sortBy_perm id _).length_eq,
    List.length_eq_zero_iff, List.flatMap_eq_nil_iff]
  constructor
  · intro h d t ht
    have hd := h d (by cases d <;> decide)
    rw [List.map_eq_nil_iff, List.filter_eq_nil_iff] at hd
    simpa using hd t ht
  · intro h d _
    rw [List.map_eq_nil_iff, List.filter_eq_nil_iff]
    intro t ht
    simpa using h d t ht

theorem mem_of_lastMention (h : lastMention entry ts = some true) : entry ∈ ts := by
  induction ts with
  | nil => cases h
  | cons t ts ih =>
    rw [lastMention, Option.or_eq_some_iff] at h
    rcases h with h | ⟨-, h⟩
    · exact List.mem_cons_of_mem _ (ih h)
    · by_cases ht : t = entry
      · rw [ht]
        exact List.mem_cons_self
      · rw [if_neg ht] at h
        split at h <;> cases h

theorem lastMention_ne_none (h : entry ∈ ts) : lastMention entry ts ≠ none := by
  induction ts with
  | nil => cases h
  | cons t ts ih =>
    rw [lastMention, ne_eq, Option.or_eq_none_iff]
    rintro ⟨hrest, ht⟩
    rcases List.mem_cons.1 h with rfl | h
    · rw [if_pos rfl] at ht
      cases ht
    · exact ih h hrest

theorem written_of_value {v : List Char} (hread : ReadAlike a d)
    (hv : Keyfile.valueOf (Keyfile.entries a) contextHeader d.key = some v) :
    written a d = items v := by
  rw [written, hread, hv]
  rfl

/-- An entry that both listings name is granted, or withdrawn. -/
theorem grants_or_withdraws (hread : ReadAlike a d) (hhead : entry.head? ≠ some '!')
    (hmem : entry ∈ written a d) :
    Grants a (.item contextHeader d.key entry) ∨ Withdraws a d entry := by
  cases hv : Keyfile.valueOf (Keyfile.entries a) contextHeader d.key with
  | none =>
    rw [written, hread, hv] at hmem
    cases hmem
  | some v =>
    rw [written_of_value hread hv] at hmem
    cases hm : lastMention entry (items v) with
    | none => exact absurd hm (lastMention_ne_none hmem)
    | some given =>
      cases given with
      | true => exact .inl ⟨by decide, hhead, v, hv, hm⟩
      | false => exact .inr ⟨v, hv, hm⟩

theorem not_withdraws_of_grants (h : Grants a (.item contextHeader d.key entry)) :
    ¬ Withdraws a d entry := by
  obtain ⟨-, -, v, hv, hm⟩ := h
  rintro ⟨v', hv', hm'⟩
  obtain rfl := Option.some.inj (hv.symm.trans hv')
  cases hm.symm.trans hm'

end

/-- **A widening update is held back** exactly if the four lists have an entry that was not
there, or the update widens neither what is not compared nor what the app withdraws. -/
theorem widened_nil_safe_iff (a b : String) :
    (widened (parseShowPermissions a) (parseShowPermissions b) = [] →
        ∀ p, Grants b p → Grants a p) ↔
      (∃ d, ∃ t ∈ written b d, t ∉ written a d) ∨
        (∀ p, Unseen a b p → Grants b p → Grants a p) ∧
          ∀ d entry, ReadAlike a d → ReadAlike b d →
            Grants b (.item contextHeader d.key entry) → ¬ Withdraws a d entry := by
  have hwidened : widened (parseShowPermissions a) (parseShowPermissions b) = [] ↔
      ∀ d, ∀ t ∈ written b d, t ∈ written a d := by
    rw [widened_eq_nil_iff]
    simp only [get_parseShowPermissions]
  rw [hwidened]
  constructor
  · intro h
    by_cases hnew : ∃ d, ∃ t ∈ written b d, t ∉ written a d
    · exact .inl hnew
    · have hsub : ∀ d, ∀ t ∈ written b d, t ∈ written a d := by
        intro d t ht
        by_contra hno
        exact hnew ⟨d, t, ht, hno⟩
      exact .inr ⟨fun p _ => h hsub p, fun d entry _ _ hb => not_withdraws_of_grants (h hsub _ hb)⟩
  · rintro (⟨d, t, ht, hno⟩ | ⟨hunseen, hseen⟩) hsub p hb
    · exact absurd (hsub d t ht) hno
    · by_cases hp : Unseen a b p
      · exact hunseen p hp hb
      · -- an entry of the four lists is named by both
        obtain ⟨d, entry, rfl, ha', hb'⟩ : ∃ d entry, p = .item contextHeader d.key entry ∧
            ReadAlike a d ∧ ReadAlike b d := by
          by_contra hno
          exact hp fun d entry heq hread => hno ⟨d, entry, heq, hread⟩
        obtain ⟨-, hhead, v, hv, hm⟩ := id hb
        have hmem : entry ∈ written b d := by
          rw [written_of_value hb' hv]
          exact mem_of_lastMention hm
        exact (grants_or_withdraws ha' hhead (hsub d entry hmem)).resolve_right
          (hseen d entry ha' hb' hb)

/-- The update may talk to the portal that starts programs on the host. -/
theorem bus_widening_unseen : ¬ ∀ a b : String,
    widened (parseShowPermissions a) (parseShowPermissions b) = [] →
      ∀ p, Grants b p → Grants a p := by
  intro h
  have hb : Grants "[Context]\nshared=network;\n[Session Bus Policy]\norg.freedesktop.Flatpak=talk\n"
      (.bus "[Session Bus Policy]".toList "org.freedesktop.Flatpak".toList .talk) :=
    ⟨by decide, "talk".toList, .talk, by decide, by decide, by decide⟩
  have ha := h "[Context]\nshared=network;\n" _ (widened_eq_nil_iff.2 (by
    intro d
    cases d <;> decide)) _ hb
  obtain ⟨-, v, level, hv, -⟩ := ha
  exact absurd hv (by
    have hnone : Keyfile.valueOf (Keyfile.entries "[Context]\nshared=network;\n")
      "[Session Bus Policy]".toList "org.freedesktop.Flatpak".toList = none := by decide
    rw [hnone]
    exact fun h => (by cases h))

end Arlen.Installd.Flatpak
