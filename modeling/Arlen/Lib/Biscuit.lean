import Arlen.Lib.Bytes
import Arlen.Lib.Datalog

/-!
# Biscuit tokens

A Biscuit token is a signed list of blocks of Datalog facts and checks; the first is
the authority block. An authorizer adds facts of its own and policies. It allows a
token whose checks all pass when its first policy that applies is an allow policy. What
a check or a policy reads is limited to the blocks its scope trusts. The library that
signs, parses and evaluates is an `Engine`; `Engine.Documented` is what it promises.
Rules that derive facts are left out.
-/

namespace Arlen.Lib.Biscuit

open Datalog

inductive Term
  | str (s : String)
  | date (seconds : UInt64)
deriving DecidableEq

inductive Op
  | lessOrEqual
deriving DecidableEq

/-- Dates are compared; a comparison of anything else fails. -/
def Op.test : Op → Term → Term → Bool
  | .lessOrEqual, .date s, .date t => s ≤ t
  | .lessOrEqual, _, _ => false

abbrev Fact := Datalog.Fact String Term

abbrev Query := Datalog.Query Op String String Term

def fact (name : String) (t : Term) : Fact := { pred := name, args := [t] }

/-- `name($v)`. -/
def atom (name v : String) : Atom String String Term := { pred := name, args := [.var v] }

inductive Scope
  | authority
  | previous
deriving DecidableEq

/-- A query of a check or a policy, with what it says it is trusting. -/
structure Body where
  query : Query
  trusting : List Scope
deriving DecidableEq

structure Block where
  facts : List Fact
  checks : List Body
deriving DecidableEq

inductive PolicyKind
  | allow
  | deny
deriving DecidableEq

structure Policy where
  kind : PolicyKind
  body : Body
deriving DecidableEq

structure Authorizer where
  facts : List Fact
  policies : List Policy
deriving DecidableEq

/-! ### Authorization -/

inductive Origin
  | block (i : Nat)
  | authorizer
deriving DecidableEq

/-- Whether a body that stands in `own` reads the facts of `o`: always its own and the
authorizer's, and those of the authority block if it names no scope. -/
def Body.trusts (own : Origin) (r : Body) (o : Origin) : Bool :=
  o == own || o == .authorizer ||
    match o with
    | .block i => (i == 0 && (r.trusting.isEmpty || r.trusting.contains .authority)) ||
      (r.trusting.contains .previous &&
        match own with
        | .block j => i ≤ j
        | .authorizer => false)
    | .authorizer => true

/-- The facts of the blocks and of the authorizer, with where they stand. -/
def world (blocks : List Block) (a : Authorizer) : List (Origin × Fact) :=
  (blocks.zipIdx.flatMap fun (b, i) => b.facts.map (Origin.block i, ·)) ++
    a.facts.map (Origin.authorizer, ·)

/-- The facts a body in `own` reads. -/
def Body.reads (r : Body) (w : List (Origin × Fact)) (own : Origin) : List Fact :=
  (w.filter fun p => r.trusts own p.1).map Prod.snd

def Body.holds (w : List (Origin × Fact)) (own : Origin) (r : Body) : Bool :=
  r.query.ask Op.test (r.reads w own)

def checksPass (blocks : List Block) (w : List (Origin × Fact)) : Bool :=
  blocks.zipIdx.all fun (b, i) => b.checks.all (Body.holds w (.block i))

/-- Whether the authorizer allows a token of these blocks. -/
def allows (blocks : List Block) (a : Authorizer) : Bool :=
  let w := world blocks a
  checksPass blocks w &&
    ((a.policies.find? fun p => p.body.holds w .authorizer).any fun p => p.kind == .allow)

variable {blocks : List Block} {b : Block} {a : Authorizer} {r : Body} {f : Fact} {own : Origin}
  {w : List (Origin × Fact)}

theorem mem_reads : f ∈ r.reads w own ↔ ∃ o, (o, f) ∈ w ∧ r.trusts own o = true := by
  simp [Body.reads]

theorem mem_world {o : Origin} :
    (o, f) ∈ world blocks a ↔
      (∃ i b, blocks[i]? = some b ∧ o = .block i ∧ f ∈ b.facts) ∨ o = .authorizer ∧ f ∈ a.facts := by
  unfold world
  rw [List.mem_append]
  refine or_congr ?_ ?_
  · constructor
    · intro h
      obtain ⟨⟨b, i⟩, hb, hf⟩ := List.mem_flatMap.1 h
      obtain ⟨g, hg, heq⟩ := List.mem_map.1 hf
      cases heq
      exact ⟨i, b, List.mem_zipIdx_iff_getElem?.1 hb, rfl, hg⟩
    · rintro ⟨i, b, hb, rfl, hf⟩
      exact List.mem_flatMap.2 ⟨(b, i), List.mem_zipIdx_iff_getElem?.2 hb,
        List.mem_map_of_mem hf⟩
  · constructor
    · intro h
      obtain ⟨g, hg, heq⟩ := List.mem_map.1 h
      cases heq
      exact ⟨rfl, hg⟩
    · rintro ⟨rfl, hf⟩
      exact List.mem_map_of_mem hf

/-- A body that trusts no later block reads the authority block and the authorizer,
whatever blocks are appended. -/
theorem mem_reads_authority {rest : List Block}
    (hblock : ∀ i, r.trusts own (.block i) = true ↔ i = 0)
    (hown : r.trusts own .authorizer = true) :
    f ∈ r.reads (world (b :: rest) a) own ↔ f ∈ b.facts ∨ f ∈ a.facts := by
  rw [mem_reads]
  constructor
  · rintro ⟨o, ho, ht⟩
    rcases mem_world.1 ho with ⟨i, b', hb', rfl, hf⟩ | ⟨rfl, hf⟩
    · rw [(hblock i).1 ht, List.getElem?_cons_zero] at hb'
      exact .inl (Option.some.inj hb' ▸ hf)
    · exact .inr hf
  · rintro (hf | hf)
    · exact ⟨.block 0, mem_world.2 (.inl ⟨0, b, rfl, rfl, hf⟩), (hblock 0).2 rfl⟩
    · exact ⟨.authorizer, mem_world.2 (.inr ⟨rfl, hf⟩), hown⟩

/-- An atom of one variable holds of the value of some fact. -/
theorem atom_holds {name v : String} {facts : List Fact} {σ : String → Option Term} :
    (atom name v).Holds facts σ ↔ ∃ t, fact name t ∈ facts ∧ σ v = some t := by
  constructor
  · rintro ⟨⟨pred, args⟩, hf, rfl, hargs⟩
    obtain ⟨t, rfl, ht⟩ := List.map_eq_singleton_iff.1 hargs.symm
    exact ⟨t, hf, ht.symm⟩
  · rintro ⟨t, hf, hσ⟩
    exact ⟨_, hf, rfl, congrArg (fun x => [x]) hσ⟩

/-! ### The engine -/

structure RunLimits where
  maxFacts : Nat
  maxIterations : Nat
  maxTimeMillis : Nat

/-- Why a token was not authorized: its blocks could not be loaded, the evaluation was
given up, or the token was refused. -/
inductive AuthError
  | load (text : String)
  | runLimit (limit : String)
  | other (text : String)

/-- The library: `build` signs a block and writes the token, with the randomness it
draws; `fromBase64` parses a token and checks its signature. -/
structure Engine (KeyPair PublicKey : Type) where
  publicKey : KeyPair → PublicKey
  build : KeyPair → Block → Bytes → Except String String
  fromBase64 : String → PublicKey → Except String (List Block)
  authorize : List Block → Authorizer → RunLimits → Except AuthError Nat

/-- What the library documents: a built token parses as its block under its key and as
nothing else under any key, and an evaluation within the limits answers as `allows`
says. -/
structure Engine.Documented {KeyPair PublicKey : Type} (E : Engine KeyPair PublicKey) :
    Prop where
  parses : ∀ root block seed token, E.build root block seed = .ok token →
    E.fromBase64 token (E.publicKey root) = .ok [block]
  carries : ∀ root block seed token key blocks, E.build root block seed = .ok token →
    E.fromBase64 token key = .ok blocks → blocks = [block]
  accepts : ∀ blocks a limits, (world blocks a).length ≤ limits.maxFacts →
    allows blocks a = true → ∃ policy, E.authorize blocks a limits = .ok policy
  refuses : ∀ blocks a limits, (world blocks a).length ≤ limits.maxFacts →
    allows blocks a = false → ∃ text, E.authorize blocks a limits = .error (.other text)

end Arlen.Lib.Biscuit
