import Mathlib.Data.Finset.Basic
import Mathlib.Data.Finset.Dedup
import Mathlib.Data.List.Basic
import Mathlib.Data.Option.Basic
import Arlen.Lib.Bytes

/-!
# Documents of tables, and reading them

A document is a table of named nodes, edited in place key by key. A record is read
from a table by its keys or, as a deserializer also takes it, from an array in the
order of its fields; a field that is not there has its default.
-/

namespace Arlen.Lib.Toml

/-- A node. `tables` is an array of tables, written `[[key]]`; `scalar` is a number
or a date. -/
inductive Node where
  | string (s : String)
  | boolean (b : Bool)
  | scalar (text : String)
  | array (vs : List Node)
  | table (entries : List (String × Node))
  | tables (ts : List (List (String × Node)))

abbrev Table := List (String × Node)

namespace Node

def asStr : Node → Option String
  | string s => some s
  | _ => none

def asBool : Node → Option Bool
  | boolean b => some b
  | _ => none

/-- A table, standard or inline. -/
def asTable : Node → Option Table
  | table t => some t
  | _ => none

def asArray : Node → Option (List Node)
  | array vs => some vs
  | _ => none

def asTables : Node → Option (List Table)
  | tables ts => some ts
  | _ => none

@[simp] theorem asTable_eq_some {n : Node} {t : Table} : n.asTable = some t ↔ n = table t := by
  cases n <;> simp [asTable]

@[simp] theorem asArray_eq_some {n : Node} {vs : List Node} :
    n.asArray = some vs ↔ n = array vs := by
  cases n <;> simp [asArray]

@[simp] theorem asTables_eq_some {n : Node} {ts : List Table} :
    n.asTables = some ts ↔ n = tables ts := by
  cases n <;> simp [asTables]

@[simp] theorem asStr_eq_some {n : Node} {s : String} : n.asStr = some s ↔ n = string s := by
  cases n <;> simp [asStr]

@[simp] theorem asBool_eq_some {n : Node} {b : Bool} : n.asBool = some b ↔ n = boolean b := by
  cases n <;> simp [asBool]

end Node

/-! ## Keys -/

namespace Table

variable {t t' u : Table} {k k' key v : String} {n : Node} {b : Bool}

def get : Table → String → Option Node
  | [], _ => none
  | (k', n) :: t, k => if k' = k then some n else get t k

/-- Replace the value of a key in its place, or add the key at the end. -/
def insert : Table → String → Node → Table
  | [], k, n => [(k, n)]
  | (k', n') :: t, k, n => if k' = k then (k', n) :: t else (k', n') :: insert t k n

/-- Drop a key. -/
def remove (t : Table) (k : String) : Table := t.filter (·.1 ≠ k)

@[simp] theorem get_insert_self : (t.insert k n).get k = some n := by
  induction t with
  | nil => simp [insert, get]
  | cons e t ih =>
    obtain ⟨k', n'⟩ := e
    unfold insert
    split
    · next h => simp [get, h]
    · next h => simp [get, h, ih]

theorem get_insert_of_ne (h : k' ≠ k) : (t.insert k n).get k' = t.get k' := by
  induction t with
  | nil => simp [insert, get, Ne.symm h]
  | cons e t ih =>
    obtain ⟨k₀, n₀⟩ := e
    unfold insert
    split
    · next h₀ => simp [get, h₀, Ne.symm h]
    · simp [get, ih]

@[simp] theorem get_remove_self : (t.remove k).get k = none := by
  induction t with
  | nil => rfl
  | cons e t ih =>
    obtain ⟨k₀, n₀⟩ := e
    unfold remove at ih ⊢
    by_cases h₀ : k₀ = k
    · rw [List.filter_cons_of_neg (by simpa using h₀), ih]
    · rw [List.filter_cons_of_pos (by simpa using h₀), get, if_neg h₀, ih]

theorem get_remove_of_ne (h : k' ≠ k) : (t.remove k).get k' = t.get k' := by
  induction t with
  | nil => rfl
  | cons e t ih =>
    obtain ⟨k₀, n₀⟩ := e
    unfold remove at ih ⊢
    by_cases h₀ : k₀ = k
    · rw [List.filter_cons_of_neg (by simpa using h₀), ih, get, if_neg (h₀ ▸ Ne.symm h)]
    · rw [List.filter_cons_of_pos (by simpa using h₀), get, get, ih]

/-! ## Tables in a table -/

/-- Edit the table under a key; without one there is nothing to do. -/
def inTable (t : Table) (k : String) (f : Table → Bool × Table) : Bool × Table :=
  match (t.get k).bind Node.asTable with
  | some u => ((f u).1, t.insert k (.table (f u).2))
  | none => (false, t)

/-- Put an empty table under a key that has none. -/
def ensureTable (t : Table) (k : String) : Table :=
  match (t.get k).bind Node.asTable with
  | some _ => t
  | none => t.insert k (.table [])

theorem inTable_eq_true {f : Table → Bool × Table} (h : t.inTable k f = (true, t')) :
    ∃ u u', t.get k = some (.table u) ∧ f u = (true, u') ∧ t' = t.insert k (.table u') := by
  unfold inTable at h
  split at h
  · next u hu =>
    obtain ⟨h₁, rfl⟩ := Prod.mk.inj h
    obtain ⟨n, hn, hnu⟩ := Option.bind_eq_some_iff.1 hu
    rw [Node.asTable_eq_some] at hnu
    exact ⟨u, (f u).2, by rw [hn, hnu], Prod.ext h₁ rfl, rfl⟩
  · cases h

theorem inTable_of_get {f : Table → Bool × Table} (h : t.get k = some (.table u)) :
    t.inTable k f = ((f u).1, t.insert k (.table (f u).2)) := by
  simp [inTable, h, Node.asTable]

theorem ensureTable_of_get (h : t.get k = some (.table u)) : t.ensureTable k = t := by
  simp [ensureTable, h, Node.asTable]

end Table

/-! ## Reading -/

/-- What a record has under each field. -/
abbrev Fields := String → Option Node

/-- A record in an array, in the order of its fields. -/
def positions (order : List String) (vs : List Node) : Fields := Table.get (order.zip vs)

def Node.fields (order : List String) : Node → Option Fields
  | table t => some (Table.get t)
  | array vs => some (positions order vs)
  | tables ts => some (positions order (ts.map table))
  | _ => none

namespace Fields

variable {s s' : Fields} {k key v : String} {names : List String} {l : List String} {b : Bool}
  {c : Finset String}

/-- A record, empty when it is not there. -/
def record (s : Fields) (k : String) (order : List String) : Option Fields :=
  match s k with
  | none => some fun _ => none
  | some n => n.fields order

def flag (s : Fields) (k : String) : Option Bool :=
  match s k with
  | none => some false
  | some n => n.asBool

/-- The flags that are on, if all of them can be read. -/
def flags (s : Fields) (names : List String) : Option (Finset String) :=
  if ∀ k ∈ names, (s.flag k).isSome then some (names.toFinset.filter fun k => s.flag k = some true)
  else none

def strings (s : Fields) (k : String) : Option (List String) :=
  match s k with
  | none => some []
  | some (.array vs) => vs.mapM Node.asStr
  | some (.tables []) => some []
  | _ => none

/-- A field without a default. -/
def str (s : Fields) (k : String) : Option String := (s k).bind Node.asStr

/-- Nothing but the field `key` differs. -/
def AgreesBut (key : String) (s s' : Fields) : Prop := ∀ k, k ≠ key → s' k = s k

theorem agreesBut_insert {t : Table} {n : Node} : AgreesBut key t.get (t.insert key n).get :=
  fun _ h => Table.get_insert_of_ne h

theorem AgreesBut.flag (h : AgreesBut key s s') (hk : k ≠ key) : s'.flag k = s.flag k := by
  simp only [Fields.flag, h k hk]

theorem AgreesBut.strings (h : AgreesBut key s s') (hk : k ≠ key) : s'.strings k = s.strings k := by
  simp only [Fields.strings, h k hk]

theorem AgreesBut.record {order : List String} (h : AgreesBut key s s') (hk : k ≠ key) :
    s'.record k order = s.record k order := by
  simp only [Fields.record, h k hk]

theorem record_of_table {t : Table} {order : List String} (h : s k = some (.table t)) :
    s.record k order = some t.get := by
  simp only [Fields.record, h, Node.fields]

theorem AgreesBut.flags (h : AgreesBut key s s') (hk : key ∉ names) :
    s'.flags names = s.flags names := by
  have hflag : ∀ k ∈ names, s'.flag k = s.flag k := fun k hm =>
    h.flag fun heq => hk (heq ▸ hm)
  have hall : (∀ k ∈ names, (s'.flag k).isSome) ↔ ∀ k ∈ names, (s.flag k).isSome :=
    forall₂_congr fun k hm => by rw [hflag k hm]
  have hfilter : (names.toFinset.filter fun k => s'.flag k = some true) =
      names.toFinset.filter fun k => s.flag k = some true := by
    refine Finset.filter_congr fun k hm => ?_
    rw [hflag k (List.mem_toFinset.1 hm)]
  unfold Fields.flags
  simp only [hall, hfilter]

/-- Setting one flag. -/
theorem AgreesBut.flags_set (h : AgreesBut key s s') (hkey : s' key = some (.boolean b))
    (hmem : key ∈ names) (hc : s.flags names = some c) :
    s'.flags names = some (if b then insert key c else c.erase key) := by
  have hset : s'.flag key = some b := by simp [Fields.flag, hkey, Node.asBool]
  unfold Fields.flags at hc ⊢
  split at hc
  · next hall =>
    obtain rfl := Option.some.inj hc
    rw [if_pos]
    · congr 1
      ext k
      by_cases hk : k = key
      · subst hk
        cases b with
        | false => simp [hset]
        | true => simp [hset, hmem]
      · cases b with
        | false => simp [hk, h.flag hk]
        | true => simp [hk, h.flag hk]
    · intro k hm
      by_cases hk : k = key
      · rw [hk, hset]
        rfl
      · rw [h.flag hk]
        exact hall k hm
  · cases hc

theorem mem_names_of_flags (hc : s.flags names = some c) (hk : k ∈ c) : k ∈ names := by
  unfold Fields.flags at hc
  split at hc
  · obtain rfl := Option.some.inj hc
    exact List.mem_toFinset.1 (Finset.mem_of_mem_filter k hk)
  · cases hc

theorem mem_of_flags (hc : s.flags names = some c) (hmem : k ∈ names) :
    k ∈ c ↔ s k = some (.boolean true) := by
  unfold Fields.flags at hc
  split at hc
  · obtain rfl := Option.some.inj hc
    rw [Finset.mem_filter, List.mem_toFinset, and_iff_right hmem]
    unfold Fields.flag
    cases h : s k with
    | none => simp
    | some n => simp
  · cases hc

theorem mapM_asStr_eq_some {vs : List Node} : vs.mapM Node.asStr = some l ↔ vs = l.map .string := by
  induction vs generalizing l with
  | nil => cases l <;> simp
  | cons n vs ih =>
    cases l with
    | nil => simp [Option.bind_eq_some_iff]
    | cons v l => simp [ih, Option.bind_eq_some_iff]

theorem strings_of_array {vs : List Node} (h : s key = some (.array vs))
    (hl : s.strings key = some l) : vs = l.map .string := by
  simp only [Fields.strings, h] at hl
  exact mapM_asStr_eq_some.1 hl

theorem strings_map_string (h : s key = some (.array (l.map .string))) :
    s.strings key = some l := by
  simp only [Fields.strings, h]
  exact mapM_asStr_eq_some.2 rfl

end Fields

end Arlen.Lib.Toml
