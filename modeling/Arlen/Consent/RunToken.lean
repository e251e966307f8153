import Arlen.Lib.Biscuit
import Arlen.Lib.Sha256
import Arlen.Lib.Utf8
import Arlen.Lib.Json

/-!
# The per-action consent token (`contracts/run-consent-token/src/lib.rs`)

Once a run or a terminal read is confirmed, a Biscuit token is minted that names the
tool and carries the SHA-256 digest of exactly what was confirmed, and expires. The
process that runs the command or reads the terminal verifies it. The hash, the Biscuit
library and the random bytes are parameters.
-/

namespace Arlen.Consent

open Arlen.Lib Arlen.Lib.Biscuit

def maxCommandLen : Nat := 4096

def maxArgLen : Nat := 128 * 1024

def maxArgs : Nat := 1024

inductive ConsentTokenError
  | biscuit (text : String)
  | invalidInput (what : String)
  | engineLimit (limit : String)

/-- The library's default bounds, with more time. -/
def datalogLimits : RunLimits := { maxFacts := 1000, maxIterations := 100, maxTimeMillis := 500 }

def isControlByte (b : UInt8) : Bool := b < 0x20 || b == 0x7f

def validateArgs : List String → Except ConsentTokenError Unit
  | [] => .ok ()
  | a :: args =>
    if maxArgLen < (utf8 a).length then .error (.invalidInput "argument too long")
    else if (utf8 a).any (· == 0) then .error (.invalidInput "argument has a NUL byte")
    else validateArgs args

def validateRun (command : String) (args : List String) : Except ConsentTokenError Unit :=
  if utf8 command = [] then .error (.invalidInput "empty command")
  else if maxCommandLen < (utf8 command).length then .error (.invalidInput "command too long")
  else if (utf8 command).any isControlByte then
    .error (.invalidInput "command has a control byte")
  else if maxArgs < args.length then .error (.invalidInput "too many arguments")
  else validateArgs args

/-! ### Digests -/

/-- `(n as u64).to_le_bytes()`. -/
def toLeBytes (n : Nat) : Bytes := (beBytes 8 n).reverse

/-- Bytes after their length. -/
def delimited (b : Bytes) : Bytes := toLeBytes b.length ++ b

/-- What is hashed of a command line. -/
def runPreimage (command : String) (args : List String) : Bytes :=
  delimited (utf8 command) ++
    (toLeBytes args.length ++ args.flatMap fun a => delimited (utf8 a))

def runDigest (sha256 : Bytes → Bytes) (command : String) (args : List String) : String :=
  hex (sha256 (runPreimage command args))

def readDigest (sha256 : Bytes → Bytes) (terminalId : String) (limit : UInt32)
    (includeUserBlocks includeRunning : Bool) : String :=
  hex (sha256 (delimited (utf8 terminalId) ++ (toLeBytes limit.toNat ++
    [includeUserBlocks.toUInt8, includeRunning.toUInt8])))

/-! ### Minting and verifying -/

inductive ConsentTool
  | runCommand
  | readOutput
deriving DecidableEq

def ConsentTool.name : ConsentTool → String
  | .runCommand => "run_command"
  | .readOutput => "get_recent_output"

/-- The predicate of the tool's digest. -/
def ConsentTool.digestName : ConsentTool → String
  | .runCommand => "run_digest"
  | .readOutput => "read_digest"

/-- `check if time($t), $t <= {expiry}`. -/
def ttlCheck (expiry : Int64) : Body :=
  { query :=
      { body := [atom "time" "t"],
        conds := [{ op := .lessOrEqual, left := .var "t",
                    right := .const (.date expiry.toUInt64) }] },
    trusting := [] }

def consentBlock (tool : ConsentTool) (digest : String) (nonce : Bytes) (expiry : Int64) :
    Block :=
  { facts := [fact "tool" (.str tool.name), fact tool.digestName (.str digest),
      fact "nonce" (.str (hex nonce))],
    checks := [ttlCheck expiry] }

/-- `allow if req_tool($t), tool($t), req_digest($d), run_digest($d) trusting authority`. -/
def consentPolicy (tool : ConsentTool) : Policy :=
  { kind := .allow,
    body :=
      { query :=
          { body := [atom "req_tool" "t", atom "tool" "t", atom "req_digest" "d",
              atom tool.digestName "d"],
            conds := [] },
        trusting := [.authority] } }

def consentAuthorizer (tool : ConsentTool) (digest : String) (now : Int64) : Authorizer :=
  { facts := [fact "time" (.date now.toUInt64), fact "req_tool" (.str tool.name),
      fact "req_digest" (.str digest)],
    policies := [consentPolicy tool] }

section Consent

variable {KeyPair PublicKey : Type} (E : Engine KeyPair PublicKey) (sha256 : Bytes → Bytes)

/-- The nonce is sixteen random bytes, or none when there is no entropy. -/
def signConsent (root : KeyPair) (tool : ConsentTool) (digest : String) (expiry : Int64)
    (nonce : Option Bytes) (seed : Bytes) : Except ConsentTokenError String :=
  match nonce with
  | none => .error (.invalidInput "nonce entropy unavailable")
  | some raw => (E.build root (consentBlock tool digest raw expiry) seed).mapError .biscuit

def mintRunConsent (root : KeyPair) (command : String) (args : List String) (expiry : Int64)
    (nonce : Option Bytes) (seed : Bytes) : Except ConsentTokenError String :=
  if expiry ≤ 0 then .error (.invalidInput "expiry not positive")
  else do
    validateRun command args
    signConsent E root .runCommand (runDigest sha256 command args) expiry nonce seed

def mintReadConsent (root : KeyPair) (terminalId : String) (limit : UInt32)
    (includeUserBlocks includeRunning : Bool) (expiry : Int64) (nonce : Option Bytes)
    (seed : Bytes) : Except ConsentTokenError String :=
  if expiry ≤ 0 then .error (.invalidInput "expiry not positive")
  else if utf8 terminalId = [] then .error (.invalidInput "terminal id is empty")
  else
    signConsent E root .readOutput
      (readDigest sha256 terminalId limit includeUserBlocks includeRunning) expiry nonce seed

/-- A token that is refused answers `false`; one that cannot be read, or whose evaluation
was given up, is an error. -/
def verifyConsent (token : String) (key : PublicKey) (tool : ConsentTool) (digest : String)
    (now : Int64) : Except ConsentTokenError Bool :=
  if now < 0 then .error (.invalidInput "negative time")
  else
    match E.fromBase64 token key with
    | .error text => .error (.biscuit text)
    | .ok blocks =>
      match E.authorize blocks (consentAuthorizer tool digest now) datalogLimits with
      | .ok _ => .ok true
      | .error (.load text) => .error (.biscuit text)
      | .error (.runLimit limit) => .error (.engineLimit limit)
      | .error (.other _) => .ok false

def verifyRunConsent (token : String) (key : PublicKey) (command : String)
    (args : List String) (now : Int64) : Except ConsentTokenError Bool :=
  verifyConsent E token key .runCommand (runDigest sha256 command args) now

def verifyReadConsent (token : String) (key : PublicKey) (terminalId : String)
    (limit : UInt32) (includeUserBlocks includeRunning : Bool) (now : Int64) :
    Except ConsentTokenError Bool :=
  verifyConsent E token key .readOutput
    (readDigest sha256 terminalId limit includeUserBlocks includeRunning) now

end Consent

/-! ### What is hashed determines the command line -/

variable {command command' digest digest' : String} {args args' : List String}

theorem length_toLeBytes (n : Nat) : (toLeBytes n).length = 8 := by simp [toLeBytes]

theorem toLeBytes_inj {n m : Nat} (hn : n < 2 ^ 64) (hm : m < 2 ^ 64)
    (h : toLeBytes n = toLeBytes m) : n = m :=
  beBytes_inj (w := 8) hn hm (List.reverse_inj.1 h)

theorem length_delimited (b : Bytes) : (delimited b).length = 8 + b.length := by
  simp [delimited, length_toLeBytes]

/-- Where a delimited field ends is read off its start. -/
theorem delimited_append_inj {a b x y : Bytes} (ha : a.length < 2 ^ 64)
    (hb : b.length < 2 ^ 64) (h : delimited a ++ x = delimited b ++ y) : a = b ∧ x = y := by
  unfold delimited at h
  rw [List.append_assoc, List.append_assoc] at h
  obtain ⟨hlen, h⟩ := List.append_inj h (by rw [length_toLeBytes, length_toLeBytes])
  exact List.append_inj h (toLeBytes_inj ha hb hlen)

theorem length_args_le (args : List String) :
    8 * args.length ≤ (args.flatMap fun a => delimited (utf8 a)).length := by
  induction args with
  | nil => exact Nat.zero_le _
  | cons a args ih =>
    rw [List.flatMap_cons, List.length_append, length_delimited, List.length_cons]
    omega

/-- Arguments of one number are told apart by their delimited bytes. -/
theorem delimited_args_inj
    (hfit : (args.flatMap fun a => delimited (utf8 a)).length < 2 ^ 64)
    (hlen : args'.length = args.length)
    (h : (args'.flatMap fun a => delimited (utf8 a)) =
      args.flatMap fun a => delimited (utf8 a)) : args' = args := by
  induction args generalizing args' with
  | nil => exact List.length_eq_zero_iff.1 hlen
  | cons a args ih =>
    cases args' with
    | nil => cases hlen
    | cons a' args' =>
      have hfit' := hfit
      rw [← h] at hfit'
      simp only [List.flatMap_cons] at h hfit hfit'
      simp only [List.length_append, length_delimited] at hfit hfit'
      obtain ⟨ha, hrest⟩ := delimited_append_inj (by omega) (by omega) h
      rw [utf8_inj ha, ih (by omega) (by simpa using hlen) hrest]

/-- Two command lines of one preimage are one, if one of them fits. -/
theorem runPreimage_inj (hfit : (runPreimage command args).length < 2 ^ 64)
    (h : runPreimage command' args' = runPreimage command args) :
    command' = command ∧ args' = args := by
  have hfit' := hfit
  rw [← h] at hfit'
  unfold runPreimage at h hfit hfit'
  simp only [List.length_append, length_delimited, length_toLeBytes] at hfit hfit'
  obtain ⟨hcommand, hrest⟩ := delimited_append_inj (by omega) (by omega) h
  obtain ⟨hcount, hargs⟩ :=
    List.append_inj hrest (by rw [length_toLeBytes, length_toLeBytes])
  have hle := length_args_le args
  have hle' := length_args_le args'
  have hlen := toLeBytes_inj (by omega) (by omega) hcount
  exact ⟨utf8_inj hcommand, delimited_args_inj (by omega) hlen hargs⟩

theorem validateArgs_ok (h : validateArgs args = .ok ()) :
    (args.flatMap fun a => delimited (utf8 a)).length ≤ args.length * (8 + maxArgLen) := by
  induction args with
  | nil => exact Nat.zero_le _
  | cons a args ih =>
    unfold validateArgs at h
    split at h
    · cases h
    · split at h
      · cases h
      · have hrest := ih h
        rw [List.flatMap_cons, List.length_append, length_delimited, List.length_cons,
          Nat.add_mul]
        omega

/-- The bytes of a valid command line are far below 2^64. -/
theorem validateRun_ok (h : validateRun command args = .ok ()) :
    (runPreimage command args).length < 2 ^ 64 := by
  unfold validateRun at h
  split at h
  · cases h
  · split at h
    · cases h
    · next hcommand =>
      split at h
      · cases h
      · split at h
        · cases h
        · next hcount =>
          have hargs := validateArgs_ok h
          have hmul := Nat.mul_le_mul_right (8 + maxArgLen) (Nat.le_of_not_lt hcount)
          unfold runPreimage
          rw [List.length_append, List.length_append, length_delimited, length_toLeBytes]
          simp only [maxCommandLen, maxArgs, maxArgLen] at *
          omega

/-! ### What a token authorizes -/

variable {tool tool' : ConsentTool} {nonce : Bytes} {expiry now : Int64} {rest : List Block}
  {t : Term}

theorem toUInt64_le_iff {i j : Int64} (hi : 0 ≤ i) (hj : 0 ≤ j) :
    i.toUInt64 ≤ j.toUInt64 ↔ i ≤ j := by
  rw [Int64.le_iff_toInt_le] at *
  rw [UInt64.le_iff_toNat_le]
  have hcast : ∀ k : Int64, 0 ≤ k.toInt → k.toInt = k.toUInt64.toNat := by
    intro k hk
    have hcond := BitVec.toInt_eq_toNat_cond k.toBitVec
    have hlt := k.toUInt64.toNat_lt
    have hint : k.toInt = k.toBitVec.toInt := rfl
    have hnat : k.toUInt64.toNat = k.toBitVec.toNat := rfl
    rw [hint] at hk ⊢
    rw [hnat] at hlt ⊢
    omega
  have hi' := hcast i hi
  have hj' := hcast j hj
  omega

/-- The facts the check of the authority block and the authorizer's policy both read. -/
theorem mem_consentFacts {name : String} :
    fact name t ∈ (consentBlock tool digest nonce expiry).facts ∨
        fact name t ∈ (consentAuthorizer tool' digest' now).facts ↔
      (name = "tool" ∧ t = .str tool.name ∨ name = tool.digestName ∧ t = .str digest ∨
        name = "nonce" ∧ t = .str (hex nonce)) ∨
      name = "time" ∧ t = .date now.toUInt64 ∨ name = "req_tool" ∧ t = .str tool'.name ∨
        name = "req_digest" ∧ t = .str digest' := by
  simp [consentBlock, consentAuthorizer, fact]

/-- The check of the authority block passes up to the expiry, whatever is appended. -/
theorem ttlCheck_holds_iff :
    (ttlCheck expiry).holds (world (consentBlock tool digest nonce expiry :: rest)
        (consentAuthorizer tool' digest' now)) (.block 0) = true ↔
      now.toUInt64 ≤ expiry.toUInt64 := by
  have hsafe : (ttlCheck expiry).query.Safe := by
    intro c hc
    rw [List.mem_singleton.1 hc]
    refine ⟨fun v hv => ⟨_, List.mem_cons_self, ?_⟩, fun v hv => by cases hv⟩
    cases hv
    exact List.mem_cons_self
  have hreads := fun f => @mem_reads_authority (consentBlock tool digest nonce expiry)
    (consentAuthorizer tool' digest' now) (ttlCheck expiry) f (.block 0) rest (by simp [Body.trusts, ttlCheck])
    (by simp [Body.trusts])
  -- the only time the check reads is the authorizer's
  have htime : ∀ t, fact "time" t ∈ (ttlCheck expiry).reads
      (world (consentBlock tool digest nonce expiry :: rest)
        (consentAuthorizer tool' digest' now)) (.block 0) ↔ t = .date now.toUInt64 := by
    intro t
    rw [hreads, mem_consentFacts]
    cases tool <;> simp [ConsentTool.digestName]
  unfold Body.holds
  rw [Datalog.Query.ask_iff hsafe]
  simp only [ttlCheck, List.forall_mem_singleton, atom_holds]
  constructor
  · rintro ⟨σ, ⟨t, ht, hσ⟩, hcond⟩
    rw [(htime t).1 ht] at hσ
    simpa [Datalog.Cond.holds, Datalog.Arg.value, hσ, Op.test] using hcond
  · intro hle
    refine ⟨fun _ => some (.date now.toUInt64), ⟨_, (htime _).2 rfl, rfl⟩, ?_⟩
    simpa [Datalog.Cond.holds, Datalog.Arg.value, Op.test] using hle

/-- The policy applies to a token of its own tool and digest, whatever is appended. -/
theorem consentPolicy_holds_iff :
    (consentPolicy tool').body.holds (world (consentBlock tool digest nonce expiry :: rest)
        (consentAuthorizer tool' digest' now)) .authorizer = true ↔
      tool = tool' ∧ digest = digest' := by
  unfold Body.holds
  have hreads := fun name t =>
    (@mem_reads_authority (consentBlock tool digest nonce expiry)
      (consentAuthorizer tool' digest' now) (consentPolicy tool').body (fact name t) .authorizer rest
      (by simp [Body.trusts, consentPolicy])
      (by simp [Body.trusts])).trans mem_consentFacts
  generalize (consentPolicy tool').body.reads _ _ = facts at hreads ⊢
  have hreqTool : ∀ t, fact "req_tool" t ∈ facts ↔ t = .str tool'.name := by
    intro t
    rw [hreads]
    cases tool <;> simp [ConsentTool.digestName]
  have htool : ∀ t, fact "tool" t ∈ facts ↔ t = .str tool.name := by
    intro t
    rw [hreads]
    cases tool <;> simp [ConsentTool.digestName]
  have hreqDigest : ∀ t, fact "req_digest" t ∈ facts ↔ t = .str digest' := by
    intro t
    rw [hreads]
    cases tool <;> simp [ConsentTool.digestName]
  have hdigest : ∀ t, fact tool'.digestName t ∈ facts ↔ tool = tool' ∧ t = .str digest := by
    intro t
    rw [hreads]
    cases tool <;> cases tool' <;> simp [ConsentTool.digestName]
  rw [Datalog.Query.ask_iff (by intro c hc; cases hc)]
  simp only [consentPolicy, List.forall_mem_cons, atom_holds, hreqTool, htool, hreqDigest,
    hdigest, exists_eq_left, and_assoc]
  constructor
  · rintro ⟨σ, -, -, hreq, ⟨t, htools, rfl, hd⟩, -⟩
    rw [hreq] at hd
    cases hd
    exact ⟨htools, rfl⟩
  · rintro ⟨rfl, rfl⟩
    refine ⟨fun v => if v = "t" then some (.str tool.name) else some (.str digest), ?_⟩
    simp

/-- Appended blocks can only narrow what a token authorizes. -/
theorem allows_of_appended
    (h : allows (consentBlock tool digest nonce expiry :: rest)
      (consentAuthorizer tool' digest' now) = true) :
    tool = tool' ∧ digest = digest' ∧ now.toUInt64 ≤ expiry.toUInt64 := by
  unfold allows at h
  rw [Bool.and_eq_true] at h
  obtain ⟨hchecks, hpolicy⟩ := h
  have httl := List.all_eq_true.1 (List.all_eq_true.1 hchecks
    (consentBlock tool digest nonce expiry, 0) (List.mem_zipIdx_iff_getElem?.2 rfl))
    (ttlCheck expiry) List.mem_cons_self
  obtain ⟨p, hp, -⟩ := (Option.any_eq_true _ _).1 hpolicy
  have hmem := List.mem_singleton.1 (List.mem_of_find?_eq_some hp)
  have hholds := List.find?_some hp
  rw [hmem] at hholds
  obtain ⟨htool, hdigest⟩ := consentPolicy_holds_iff.1 hholds
  exact ⟨htool, hdigest, ttlCheck_holds_iff.1 httl⟩

theorem allows_consent_iff :
    allows [consentBlock tool digest nonce expiry] (consentAuthorizer tool' digest' now) =
        true ↔ tool = tool' ∧ digest = digest' ∧ now.toUInt64 ≤ expiry.toUInt64 := by
  refine ⟨allows_of_appended, ?_⟩
  rintro ⟨rfl, rfl, hle⟩
  unfold allows
  rw [Bool.and_eq_true]
  constructor
  · refine List.all_eq_true.2 fun p hp => ?_
    rw [List.mem_singleton.1 hp]
    refine List.all_eq_true.2 fun r hr => ?_
    rw [List.mem_singleton.1 hr]
    exact ttlCheck_holds_iff.2 hle
  · have hholds := (@consentPolicy_holds_iff digest digest tool tool nonce expiry now []).2 ⟨rfl, rfl⟩
    unfold consentAuthorizer at hholds ⊢
    simp only [List.find?_singleton, hholds, ↓reduceIte]
    rfl

/-! ### Minted tokens -/

section Minted

variable {KeyPair PublicKey : Type} {E : Engine KeyPair PublicKey} {sha256 : Bytes → Bytes}
  {root : KeyPair} {key : PublicKey} {seed : Bytes} {token : String} {raw : Option Bytes}

theorem signConsent_some (nonce : Bytes) :
    signConsent E root tool digest expiry (some nonce) seed =
      (E.build root (consentBlock tool digest nonce expiry) seed).mapError .biscuit := rfl

theorem signConsent_eq_ok
    (h : signConsent E root tool digest expiry raw seed = .ok token) :
    ∃ nonce, E.build root (consentBlock tool digest nonce expiry) seed = .ok token := by
  cases raw with
  | none => cases h
  | some nonce =>
    refine ⟨nonce, ?_⟩
    rw [signConsent_some] at h
    cases hbuild : E.build root (consentBlock tool digest nonce expiry) seed with
    | ok t => simpa [hbuild, Except.mapError] using h
    | error e => simp [hbuild, Except.mapError] at h

theorem mintRunConsent_eq_ok
    (h : mintRunConsent E sha256 root command args expiry raw seed = .ok token) :
    0 < expiry ∧ validateRun command args = .ok () ∧ ∃ nonce, E.build root
      (consentBlock .runCommand (runDigest sha256 command args) nonce expiry) seed =
        .ok token := by
  unfold mintRunConsent at h
  split at h
  · cases h
  · next hexpiry =>
    cases hvalid : validateRun command args with
    | error e =>
      rw [hvalid] at h
      cases h
    | ok u =>
      rw [hvalid] at h
      exact ⟨Int64.not_le.1 hexpiry, rfl, signConsent_eq_ok h⟩

theorem mintReadConsent_eq_ok {terminalId : String} {limit : UInt32}
    {includeUserBlocks includeRunning : Bool}
    (h : mintReadConsent E sha256 root terminalId limit includeUserBlocks includeRunning expiry
      raw seed = .ok token) :
    0 < expiry ∧ ∃ nonce, E.build root (consentBlock .readOutput
      (readDigest sha256 terminalId limit includeUserBlocks includeRunning) nonce expiry) seed =
        .ok token := by
  unfold mintReadConsent at h
  split at h
  · cases h
  · next hexpiry =>
    split at h
    · cases h
    · exact ⟨Int64.not_le.1 hexpiry, signConsent_eq_ok h⟩

/-- A verification that accepts does so because the authorizer allows the token. -/
theorem verifyConsent_eq_true
    (h : verifyConsent E token key tool digest now = .ok true) :
    0 ≤ now ∧ ∃ blocks policy, E.fromBase64 token key = .ok blocks ∧
      E.authorize blocks (consentAuthorizer tool digest now) datalogLimits = .ok policy := by
  unfold verifyConsent at h
  split at h
  · cases h
  · next hnow =>
    refine ⟨Int64.not_lt.1 hnow, ?_⟩
    split at h
    · cases h
    · next blocks hblocks =>
      split at h
      · next policy hpolicy => exact ⟨blocks, policy, hblocks, hpolicy⟩
      · cases h
      · cases h
      · cases h

theorem length_world_consent :
    (world [consentBlock tool digest nonce expiry]
      (consentAuthorizer tool' digest' now)).length ≤ datalogLimits.maxFacts := by
  simp [world, consentBlock, consentAuthorizer, datalogLimits]

/-- Under any key, a built token is accepted only for its own tool and digest. -/
theorem verifyConsent_built (hE : E.Documented)
    (hbuild : E.build root (consentBlock tool digest nonce expiry) seed = .ok token)
    (h : verifyConsent E token key tool' digest' now = .ok true) :
    tool = tool' ∧ digest = digest' ∧ now.toUInt64 ≤ expiry.toUInt64 := by
  obtain ⟨-, blocks, policy, hblocks, hpolicy⟩ := verifyConsent_eq_true h
  rw [hE.carries root _ seed token key blocks hbuild hblocks] at hpolicy
  refine (@allows_consent_iff _ _ _ _ nonce _ _).1 (Bool.of_not_eq_false fun hno => ?_)
  obtain ⟨text, htext⟩ := hE.refuses _ _ datalogLimits length_world_consent hno
  rw [hpolicy] at htext
  cases htext

/-- Under its key, it is accepted for them up to its expiry. -/
theorem verifyConsent_accepts (hE : E.Documented)
    (hbuild : E.build root (consentBlock tool digest nonce expiry) seed = .ok token)
    (hnow : 0 ≤ now) (hle : now.toUInt64 ≤ expiry.toUInt64) :
    verifyConsent E token (E.publicKey root) tool digest now = .ok true := by
  obtain ⟨policy, hpolicy⟩ := hE.accepts _ _ datalogLimits length_world_consent
    ((@allows_consent_iff digest _ tool _ nonce _ _).2 ⟨rfl, rfl, hle⟩)
  unfold verifyConsent
  rw [if_neg (Int64.not_lt.2 hnow), hE.parses root _ seed token hbuild]
  simp only [hpolicy]

/-- A minted run token authorizes exactly its command line up to its expiry, and neither
kind of token passes for the other. -/
theorem run_consent_exact (hE : E.Documented) (hsha : Function.Injective sha256)
    (root : KeyPair) :
    (∀ command args expiry nonce seed token,
      mintRunConsent E sha256 root command args expiry nonce seed = .ok token →
      (∀ command' args' now, 0 ≤ now →
        (verifyRunConsent E sha256 token (E.publicKey root) command' args' now = .ok true ↔
          command' = command ∧ args' = args ∧ now ≤ expiry)) ∧
      ∀ key terminalId limit includeUserBlocks includeRunning now,
        verifyReadConsent E sha256 token key terminalId limit includeUserBlocks includeRunning
          now ≠ .ok true) ∧
    ∀ terminalId limit includeUserBlocks includeRunning expiry nonce seed token,
      mintReadConsent E sha256 root terminalId limit includeUserBlocks includeRunning expiry
        nonce seed = .ok token →
      ∀ key command args now, verifyRunConsent E sha256 token key command args now ≠ .ok true := by
  refine ⟨fun command args expiry nonce seed token hmint => ?_, ?_⟩
  · obtain ⟨hexpiry, hvalid, raw, hbuild⟩ := mintRunConsent_eq_ok hmint
    refine ⟨fun command' args' now hnow => ⟨fun h => ?_, ?_⟩, ?_⟩
    · obtain ⟨-, hdigest, hle⟩ := verifyConsent_built hE hbuild h
      have hpreimage := hsha (Json.hex_inj hdigest)
      obtain ⟨hcommand, hargs⟩ := runPreimage_inj (validateRun_ok hvalid) hpreimage.symm
      exact ⟨hcommand, hargs, (toUInt64_le_iff hnow (Int64.le_of_lt hexpiry)).1 hle⟩
    · rintro ⟨rfl, rfl, hle⟩
      exact verifyConsent_accepts hE hbuild hnow
        ((toUInt64_le_iff hnow (Int64.le_of_lt hexpiry)).2 hle)
    · intro key terminalId limit includeUserBlocks includeRunning now h
      cases (verifyConsent_built hE hbuild h).1
  · intro terminalId limit includeUserBlocks includeRunning expiry nonce seed token hmint
    obtain ⟨-, raw, hbuild⟩ := mintReadConsent_eq_ok hmint
    intro key command args now h
    cases (verifyConsent_built hE hbuild h).1

end Minted

/-- An injective hash that is SHA-256 on the preimage of `ls -l`. -/
def listingHash (m : Bytes) : Bytes :=
  if m = runPreimage "ls" ["-l"] then (sha256 m).bytes else List.replicate 33 0 ++ m

theorem listingHash_injective : Function.Injective listingHash := by
  intro m m' h
  unfold listingHash at h
  have hsize : ∀ m : Bytes, (sha256 m).bytes.length = 32 := fun m => (sha256 m).size
  split at h
  · next hm =>
    split at h
    · next hm' => exact hm.trans hm'.symm
    · have hlen := congrArg List.length h
      rw [hsize, List.length_append, List.length_replicate] at hlen
      omega
  · split at h
    · have hlen := congrArg List.length h
      rw [hsize, List.length_append, List.length_replicate] at hlen
      omega
    · exact List.append_cancel_left h

def listingBlock : Block :=
  consentBlock .runCommand (runDigest listingHash "ls" ["-l"]) (List.replicate 16 7) 2000

/-- A library that signs the one block. -/
def listingEngine : Engine Unit Unit :=
  { publicKey := id
    build := fun _ block _ => if block = listingBlock then .ok "listing" else .error "format"
    fromBase64 := fun token _ => if token = "listing" then .ok [listingBlock] else .error "format"
    authorize := fun blocks a _ => if allows blocks a then .ok 0 else .error (.other "denied") }

theorem listingEngine_build (block : Block) (seed : Bytes) :
    listingEngine.build () block seed =
      if block = listingBlock then .ok "listing" else .error "format" := rfl

theorem listingEngine_documented : listingEngine.Documented := by
  have hbuild : ∀ block seed token, listingEngine.build () block seed = .ok token →
      block = listingBlock ∧ token = "listing" := by
    intro block seed token h
    rw [listingEngine_build] at h
    split at h
    · next hb =>
      cases h
      exact ⟨hb, rfl⟩
    · cases h
  refine ⟨fun _ block seed token h => ?_, fun _ block seed token _ blocks h hp => ?_, ?_, ?_⟩
  · obtain ⟨rfl, rfl⟩ := hbuild block seed token h
    rfl
  · obtain ⟨rfl, rfl⟩ := hbuild block seed token h
    cases hp
    rfl
  · intro blocks a limits _ h
    exact ⟨0, if_pos h⟩
  · intro blocks a limits _ h
    exact ⟨"denied", if_neg (by simp [h])⟩

theorem listing_runs_and_nothing_else :
    verifyRunConsent listingEngine listingHash "listing" () "ls" ["-l"] 1000 = .ok true ∧
      verifyRunConsent listingEngine listingHash "listing" () "ls" ["-", "l"] 1000 ≠
        .ok true := by
  have hvalid : validateRun "ls" ["-l"] = .ok () := by
    unfold validateRun validateArgs validateArgs
    rw [if_neg (by decide +kernel), if_neg (by decide +kernel), if_neg (by decide +kernel),
      if_neg (by decide), if_neg (by decide +kernel), if_neg (by decide +kernel)]
  have hsign : signConsent listingEngine () .runCommand (runDigest listingHash "ls" ["-l"])
      2000 (some (List.replicate 16 7)) [] = .ok "listing" := by
    have hblock : consentBlock .runCommand (runDigest listingHash "ls" ["-l"])
      (List.replicate 16 7) 2000 = listingBlock := by rw [listingBlock]
    rw [signConsent_some, hblock, listingEngine_build, if_pos rfl]
    rfl
  have hmint : mintRunConsent listingEngine listingHash () "ls" ["-l"] 2000
      (some (List.replicate 16 7)) [] = .ok "listing" := by
    unfold mintRunConsent
    rw [if_neg (by decide), hvalid, hsign]
    rfl
  obtain ⟨hexact, -⟩ := (run_consent_exact listingEngine_documented listingHash_injective
    ()).1 _ _ _ _ _ _ hmint
  refine ⟨(hexact "ls" ["-l"] 1000 (by decide)).2 ⟨rfl, rfl, by decide⟩, fun h => ?_⟩
  exact absurd ((hexact "ls" ["-", "l"] 1000 (by decide)).1 h).2.1 (by decide)

end Arlen.Consent
