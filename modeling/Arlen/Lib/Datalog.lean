import Mathlib.Data.List.Basic

/-!
# Datalog queries

Facts over a list, atoms with variables, and queries: a body of atoms and comparisons
between what they bind. A query is answered by matching its body atom by atom against
the facts (`solutions`). Where every compared variable is bound by the body, this finds
a solution exactly when some assignment makes every atom a fact and every comparison
true (`Query.ask_iff`).
-/

namespace Arlen.Lib.Datalog

/-- An argument of an atom. -/
inductive Arg (V C : Type)
  | var (v : V)
  | const (c : C)
deriving DecidableEq

structure Atom (P V C : Type) where
  pred : P
  args : List (Arg V C)
deriving DecidableEq

structure Fact (P C : Type) where
  pred : P
  args : List C
deriving DecidableEq

/-- A comparison of two arguments by an operator. -/
structure Cond (O V C : Type) where
  op : O
  left : Arg V C
  right : Arg V C
deriving DecidableEq

structure Query (O P V C : Type) where
  body : List (Atom P V C)
  conds : List (Cond O V C)
deriving DecidableEq

variable {O P V C : Type} {test : O → C → C → Bool} {σ : V → Option C} {a : Arg V C} {x : C}
  {facts : List (Fact P C)} {q : Query O P V C}

/-! ### Meaning -/

/-- What an argument stands for under an assignment. -/
def Arg.value (σ : V → Option C) : Arg V C → Option C
  | .var v => σ v
  | .const c => some c

/-- The atom is a fact under the assignment. -/
def Atom.Holds (facts : List (Fact P C)) (σ : V → Option C) (a : Atom P V C) : Prop :=
  ∃ f ∈ facts, f.pred = a.pred ∧ a.args.map (Arg.value σ) = f.args.map some

def Cond.holds (test : O → C → C → Bool) (σ : V → Option C) (c : Cond O V C) : Bool :=
  match c.left.value σ, c.right.value σ with
  | some x, some y => test c.op x y
  | _, _ => false

/-- The body binds the argument. -/
def Query.Binds (q : Query O P V C) (a : Arg V C) : Prop :=
  ∀ v, a = .var v → ∃ atom ∈ q.body, Arg.var v ∈ atom.args

/-- The body binds whatever is compared. -/
def Query.Safe (q : Query O P V C) : Prop :=
  ∀ c ∈ q.conds, q.Binds c.left ∧ q.Binds c.right

/-! ### Matching -/

/-- What the variables met so far stand for. -/
abbrev Binding (V C : Type) := List (V × C)

variable [DecidableEq V] {b : Binding V C}

/-- The binding says nothing that the assignment does not say. -/
def Below (b : Binding V C) (σ : V → Option C) : Prop :=
  ∀ v c, b.lookup v = some c → σ v = some c

theorem below_lookup (b : Binding V C) : Below b fun v => b.lookup v := fun _ _ h => h

theorem below_nil : Below ([] : Binding V C) σ := fun _ _ h => by cases h

theorem below_cons {v : V} (h : b.lookup v = none) :
    Below ((v, x) :: b) σ ↔ Below b σ ∧ σ v = some x := by
  constructor
  · refine fun hb => ⟨fun w c hw => hb w c ?_, hb v x (List.lookup_cons_self ..)⟩
    have hne : w ≠ v := fun heq => by
      rw [heq, h] at hw
      cases hw
    rw [List.lookup_cons, beq_false_of_ne hne]
    exact hw
  · rintro ⟨hb, hv⟩ w c hw
    rw [List.lookup_cons] at hw
    cases hwv : w == v with
    | true =>
      rw [hwv] at hw
      rw [eq_of_beq hwv, hv]
      exact hw
    | false =>
      rw [hwv] at hw
      exact hb w c hw

variable [DecidableEq P] [DecidableEq C]

def matchArg (b : Binding V C) (a : Arg V C) (x : C) : Option (Binding V C) :=
  match a with
  | .const c => if c = x then some b else none
  | .var v =>
    match b.lookup v with
    | some c => if c = x then some b else none
    | none => some ((v, x) :: b)

def matchArgs (b : Binding V C) : List (Arg V C) → List C → Option (Binding V C)
  | [], [] => some b
  | a :: args, x :: xs => (matchArg b a x).bind fun b => matchArgs b args xs
  | _, _ => none

def matchAtom (b : Binding V C) (a : Atom P V C) (f : Fact P C) : Option (Binding V C) :=
  if f.pred = a.pred then matchArgs b a.args f.args else none

/-- The bindings under which the facts hold every atom of the body. -/
def solutions (facts : List (Fact P C)) : List (Atom P V C) → Binding V C → List (Binding V C)
  | [], b => [b]
  | a :: body, b => facts.flatMap fun f => (matchAtom b a f).elim [] (solutions facts body)

def Query.ask (test : O → C → C → Bool) (q : Query O P V C) (facts : List (Fact P C)) : Bool :=
  (solutions facts q.body []).any fun b => q.conds.all (Cond.holds test fun v => b.lookup v)

/-! ### Matching finds what holds -/

/-- One argument is matched below an assignment exactly when it stands for the value. -/
theorem matchArg_iff :
    (∃ b', matchArg b a x = some b' ∧ Below b' σ) ↔ Below b σ ∧ a.value σ = some x := by
  cases a with
  | const c =>
    by_cases hc : c = x <;> simp [matchArg, Arg.value, hc]
  | var v =>
    cases hv : b.lookup v with
    | none =>
      have hmatch : matchArg b (.var v) x = some ((v, x) :: b) := by rw [matchArg, hv]
      rw [hmatch, Arg.value, ← below_cons hv]
      simp
    | some c =>
      have hmatch : matchArg b (.var v) x = if c = x then some b else none := by
        rw [matchArg, hv]
      rw [hmatch]
      constructor
      · rintro ⟨b', hb', hσ⟩
        split at hb'
        · next hc =>
          cases hb'
          exact ⟨hσ, hc ▸ hσ v c hv⟩
        · cases hb'
      · rintro ⟨hb, hx⟩
        have hc : c = x := Option.some.inj ((hb v c hv).symm.trans hx)
        exact ⟨b, if_pos hc, hb⟩

theorem matchArgs_iff {args : List (Arg V C)} {xs : List C} :
    (∃ b', matchArgs b args xs = some b' ∧ Below b' σ) ↔
      Below b σ ∧ args.map (Arg.value σ) = xs.map some := by
  induction args generalizing b xs with
  | nil => cases xs <;> simp [matchArgs]
  | cons a args ih =>
    cases xs with
    | nil => simp [matchArgs]
    | cons x xs =>
      rw [List.map_cons, List.map_cons, List.cons.injEq, ← and_assoc, ← matchArg_iff]
      constructor
      · rintro ⟨b', hmatch, hb'⟩
        obtain ⟨b₁, h₁, hrest⟩ := Option.bind_eq_some_iff.1 hmatch
        obtain ⟨hb₁, hxs⟩ := ih.1 ⟨b', hrest, hb'⟩
        exact ⟨⟨b₁, h₁, hb₁⟩, hxs⟩
      · rintro ⟨⟨b₁, h₁, hb₁⟩, hxs⟩
        obtain ⟨b', hrest, hb'⟩ := ih.2 ⟨hb₁, hxs⟩
        exact ⟨b', Option.bind_eq_some_iff.2 ⟨b₁, h₁, hrest⟩, hb'⟩

/-- Some solution is below an assignment exactly when the assignment makes every atom a
fact. -/
theorem solutions_iff {body : List (Atom P V C)} :
    (∃ b' ∈ solutions facts body b, Below b' σ) ↔
      Below b σ ∧ ∀ a ∈ body, a.Holds facts σ := by
  induction body generalizing b with
  | nil => simp [solutions]
  | cons a body ih =>
    rw [List.forall_mem_cons, ← and_assoc]
    constructor
    · rintro ⟨b', hb', hσ⟩
      obtain ⟨f, hf, hmem⟩ := List.mem_flatMap.1 hb'
      cases hm : matchAtom b a f with
      | none =>
        rw [hm] at hmem
        cases hmem
      | some b₁ =>
        rw [hm] at hmem
        obtain ⟨hb₁, hrest⟩ := ih.1 ⟨b', hmem, hσ⟩
        unfold matchAtom at hm
        split at hm
        · next hp =>
          obtain ⟨hb, hargs⟩ := matchArgs_iff.1 ⟨b₁, hm, hb₁⟩
          exact ⟨⟨hb, f, hf, hp, hargs⟩, hrest⟩
        · cases hm
    · rintro ⟨⟨hb, f, hf, hp, hargs⟩, hrest⟩
      obtain ⟨b₁, hm, hb₁⟩ := matchArgs_iff.2 ⟨hb, hargs⟩
      obtain ⟨b', hb', hσ⟩ := ih.2 ⟨hb₁, hrest⟩
      refine ⟨b', List.mem_flatMap.2 ⟨f, hf, ?_⟩, hσ⟩
      rw [matchAtom, if_pos hp, hm]
      exact hb'

/-- A solution agrees with any assignment above it on what the body binds. -/
theorem value_of_binds {b' : Binding V C} (hb' : b' ∈ solutions facts q.body b)
    (hσ : Below b' σ) (ha : q.Binds a) : a.value (fun v => b'.lookup v) = a.value σ := by
  cases a with
  | const c => rfl
  | var v =>
    obtain ⟨atom, hatom, hv⟩ := ha v rfl
    obtain ⟨-, hall⟩ := solutions_iff.1 ⟨b', hb', below_lookup b'⟩
    obtain ⟨f, -, -, hargs⟩ := hall atom hatom
    have hmem := List.mem_map_of_mem (f := Arg.value fun v => b'.lookup v) hv
    rw [hargs] at hmem
    obtain ⟨c, -, hc⟩ := List.mem_map.1 hmem
    exact hc.symm.trans (hσ v c hc.symm).symm

theorem Query.ask_iff (hsafe : q.Safe) :
    q.ask test facts = true ↔
      ∃ σ, (∀ a ∈ q.body, a.Holds facts σ) ∧ ∀ c ∈ q.conds, c.holds test σ = true := by
  unfold Query.ask
  rw [List.any_eq_true]
  constructor
  · rintro ⟨b, hb, hconds⟩
    exact ⟨_, (solutions_iff.1 ⟨b, hb, below_lookup b⟩).2, List.all_eq_true.1 hconds⟩
  · rintro ⟨σ, hbody, hconds⟩
    obtain ⟨b, hb, hσ⟩ := solutions_iff.2 ⟨below_nil, hbody⟩
    refine ⟨b, hb, List.all_eq_true.2 fun c hc => ?_⟩
    have hholds := hconds c hc
    unfold Cond.holds at hholds ⊢
    rw [value_of_binds hb hσ (hsafe c hc).1, value_of_binds hb hσ (hsafe c hc).2]
    exact hholds

end Arlen.Lib.Datalog
