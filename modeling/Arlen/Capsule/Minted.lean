import Arlen.Capsule.Served

/-!
# What a capsule carries

A slice that is served has the address of one that was minted, under a grant that says
what the mint said, as long as nobody forges a signature. And a capsule that was minted,
was not revoked, and has reads left before its expiry is served when it is presented,
after any crashes, and after any losses of power that came right behind what broke off.
-/

namespace Arlen.Capsule

open Arlen.Lib Crash Arlen.Forage

variable {lossy : Prop} {verify : Bytes → Bytes → Bool} {sign : Bytes → Bytes}
  {sha256 : Bytes → Digest} {G : Store.ContentHash → Prop} {s s' : Daemon} {a : Act} {r : Reply}
  {h : String} {τ : List (Act × Reply)} {hash : Store.ContentHash} {handle : String}
  {params : MintParams} {grant : CapsuleGrant}

/-! ## Where tasks come from -/

/-- The grant was presented with a signature that verifies, before its expiry. -/
def LetThrough (verify : Bytes → Bytes → Bool) (τ : List (Act × Reply)) (grant : CapsuleGrant) :
    Prop :=
  ∃ signed now env submit, (Act.present signed now env submit, Reply.admitted) ∈ τ ∧
    signed.grant = grant ∧ verifyGrant verify signed = true ∧ now < grant.expiresAtMicros

/-- A slice was stored for the capsule. -/
def Stored (sha256 : Bytes → Digest) (τ : List (Act × Reply)) (hash : Store.ContentHash)
    (handle : String) (params : MintParams) : Prop :=
  ∃ slice fresh env, (Act.mintPut slice params fresh env, Reply.stored hash) ∈ τ ∧
    handle = hex fresh ∧ hash = Store.ContentHash.of sha256 slice.canonicalBytes

def Origin (verify : Bytes → Bytes → Bool) (sha256 : Bytes → Digest) (τ : List (Act × Reply)) :
    Task → Prop
  | .admitted grant => LetThrough verify τ grant
  | .stored hash handle params => Stored sha256 τ hash handle params
  | .revoked _ => True

theorem LetThrough.append (hl : LetThrough verify τ grant) (τ' : List (Act × Reply)) :
    LetThrough verify (τ ++ τ') grant := by
  obtain ⟨signed, now, env, submit, hmem, hrest⟩ := hl
  exact ⟨signed, now, env, submit, List.mem_append_left _ hmem, hrest⟩

theorem Stored.append (hs : Stored sha256 τ hash handle params) (τ' : List (Act × Reply)) :
    Stored sha256 (τ ++ τ') hash handle params := by
  obtain ⟨slice, fresh, env, hmem, hrest⟩ := hs
  exact ⟨slice, fresh, env, List.mem_append_left _ hmem, hrest⟩

theorem Origin.append {t : Task} (ho : Origin verify sha256 τ t) (τ' : List (Act × Reply)) :
    Origin verify sha256 (τ ++ τ') t := by
  cases t with
  | admitted grant => exact LetThrough.append ho τ'
  | stored hash handle params => exact Stored.append ho τ'
  | revoked handle => trivial

theorem gateRead_ok {signed : SignedGrant} {now : Int} {env : LedgerEnv} {d d' : LedgerDir}
    (hrun : perform (gateRead verify signed now env) d = some (.ok (.ok ()), d')) :
    verifyGrant verify signed = true ∧ now < signed.grant.expiresAtMicros := by
  unfold gateRead at hrun
  by_cases hverify : verifyGrant verify signed = false
  · rw [if_pos hverify] at hrun
    cases hrun
  · rw [if_neg hverify] at hrun
    by_cases hexpired : signed.grant.expiresAtMicros ≤ now
    · rw [if_pos hexpired] at hrun
      cases hrun
    · exact ⟨by simpa using hverify, by omega⟩

/-- A read lets the bytes out that the grant is for. -/
theorem does_readSlice {d : Store.Vol} {env : Store.Env} : Does (readSlice sha256 grant env) d
    (fun res d' => d' = d ∧ ∀ bytes, res = .ok bytes →
      Store.ContentHash.parse grant.sliceHash.toList = .ok (Store.ContentHash.of sha256 bytes))
    (· = d) := by
  unfold readSlice
  cases hparse : Store.ContentHash.parse grant.sliceHash.toList with
  | error e => exact Does.pure ⟨rfl, nofun⟩
  | ok hash =>
    refine Does.recover (Store.does_read.bind fun bytes d₁ h₁ => ?_) (fun _ h => h) fun e d₁ h₁ => ?_
    · obtain ⟨rfl, rfl⟩ := h₁
      refine Does.pure ⟨rfl, fun bytes' heq => ?_⟩
      cases heq
      rfl
    · exact Does.pure ⟨h₁, nofun⟩

/-- **One step**: every task has an origin, a slice that is served was let through, and what
is minted was stored. -/
structure Traced (verify : Bytes → Bytes → Bool) (sha256 : Bytes → Digest)
    (τ : List (Act × Reply)) (s : Daemon) : Prop where
  task : ∀ t ∈ s.tasks, Origin verify sha256 τ t
  served : ∀ grant env submit bytes, (Act.deliver grant env submit, Reply.served bytes) ∈ τ →
    LetThrough verify τ grant ∧ Store.ContentHash.parse grant.sliceHash.toList =
      .ok (Store.ContentHash.of sha256 bytes)
  minted : ∀ hash handle params now env hash' signed,
    (Act.mintRegister hash handle params now env, Reply.minted hash' signed) ∈ τ →
      Stored sha256 τ hash handle params ∧ signed.grant = params.grant hash handle

/-- What a step has to see to. -/
theorem Traced.step (ht : Traced verify sha256 τ s)
    (htasks : ∀ x ∈ s'.tasks, x ∈ s.tasks ∨ Origin verify sha256 (τ ++ [(a, r)]) x)
    (hserved : ∀ grant env submit bytes, a = .deliver grant env submit → r = .served bytes →
      .admitted grant ∈ s.tasks ∧ Store.ContentHash.parse grant.sliceHash.toList =
        .ok (Store.ContentHash.of sha256 bytes))
    (hminted : ∀ hash handle params now env hash' signed, a = .mintRegister hash handle params now env →
      r = .minted hash' signed →
        .stored hash handle params ∈ s.tasks ∧ signed.grant = params.grant hash handle) :
    Traced verify sha256 (τ ++ [(a, r)]) s' where
  task x hx := (htasks x hx).elim (fun hx => (ht.task x hx).append _) id
  served grant env submit bytes hmem := by
    rcases List.mem_append.1 hmem with hmem | hmem
    · obtain ⟨hlet, hof⟩ := ht.served grant env submit bytes hmem
      exact ⟨hlet.append _, hof⟩
    · cases List.mem_singleton.1 hmem
      obtain ⟨hadmitted, hof⟩ := hserved grant env submit bytes rfl rfl
      exact ⟨(ht.task _ hadmitted).append _, hof⟩
  minted hash handle params now env hash' signed hmem := by
    rcases List.mem_append.1 hmem with hmem | hmem
    · obtain ⟨hstored, hgrant⟩ := ht.minted hash handle params now env hash' signed hmem
      exact ⟨hstored.append _, hgrant⟩
    · cases List.mem_singleton.1 hmem
      obtain ⟨hstored, hgrant⟩ := hminted hash handle params now env hash' signed rfl rfl
      exact ⟨(ht.task _ hstored).append _, hgrant⟩

theorem traced_step (ht : Traced verify sha256 τ s)
    (hstep : step verify sign sha256 s a = some (r, s')) :
    Traced verify sha256 (τ ++ [(a, r)]) s' := by
  have hlast : (a, r) ∈ τ ++ [(a, r)] := List.mem_append_right _ List.mem_cons_self
  have hold : ∀ {tasks : List Task}, (∀ x ∈ tasks, x ∈ s.tasks) → s'.tasks = tasks ∨ s'.tasks = [] →
      ∀ x ∈ s'.tasks, x ∈ s.tasks ∨ Origin verify sha256 (τ ++ [(a, r)]) x := by
    rintro tasks hsub (htasks | htasks) x hx
    · exact .inl (hsub x (htasks ▸ hx))
    · rw [htasks] at hx
      cases hx
  have hnew : ∀ {task : Task}, s'.tasks = task :: s.tasks →
      Origin verify sha256 (τ ++ [(a, r)]) task →
      ∀ x ∈ s'.tasks, x ∈ s.tasks ∨ Origin verify sha256 (τ ++ [(a, r)]) x := by
    intro task htasks ho x hx
    rw [htasks] at hx
    rcases List.mem_cons.1 hx with rfl | hx
    · exact .inr ho
    · exact .inl hx
  cases a with
  | present signed now env submit =>
    obtain ⟨-, res, hrun, ⟨rfl, rfl, htasks, -⟩ | ⟨-, hstop⟩⟩ := present_cases hstep
    · exact ht.step (hnew htasks ⟨signed, now, env, submit, hlast, rfl, gateRead_ok hrun⟩) nofun nofun
    · exact ht.step (hold (fun _ hx => hx) hstop.2.1) nofun nofun
  | deliver grant env submit =>
    obtain ⟨hmem, -, res, hrun, ⟨bytes, rfl, rfl, htasks, -⟩ | hstop⟩ := deliver_cases hstep
    · refine ht.step (hold (fun _ => List.mem_of_mem_erase) (.inl htasks)) ?_ nofun
      rintro _ _ _ _ ⟨⟩ ⟨⟩
      rcases does_readSlice.performed hrun with ⟨v, hv, -, hof⟩ | ⟨e, he, -⟩
      · cases hv
        exact ⟨hmem, hof bytes rfl⟩
      · cases he
    · refine ht.step (hold (fun _ => List.mem_of_mem_erase) hstop.2.1) ?_ nofun
      rintro _ _ _ _ ⟨⟩ ⟨⟩
      exact hstop.1.elim
  | mintPut slice params fresh env =>
    obtain ⟨-, res, hrun, ⟨hash, rfl, rfl, htasks, -⟩ | ⟨-, hstop⟩⟩ := mintPut_cases hstep
    · exact ht.step (hnew htasks ⟨slice, fresh, env, hlast, rfl, Store.hash_of_putInner hrun⟩) nofun
        nofun
    · exact ht.step (hold (fun _ hx => hx) hstop.2.1) nofun nofun
  | mintRegister hash handle params now env =>
    obtain ⟨hmem, -, res, hrun, ⟨rfl, rfl, htasks, -⟩ | ⟨-, hstop⟩⟩ := mintRegister_cases hstep
    · refine ht.step (hold (fun _ => List.mem_of_mem_erase) (.inl htasks)) nofun ?_
      rintro _ _ _ _ _ _ _ ⟨⟩ ⟨⟩
      exact ⟨hmem, rfl⟩
    · refine ht.step (hold (fun _ => List.mem_of_mem_erase) hstop.2.1) nofun ?_
      rintro _ _ _ _ _ _ _ ⟨⟩ ⟨⟩
      exact hstop.1.elim
  | revoke handle env =>
    obtain ⟨-, res, hrun, ⟨rfl, rfl, htasks, -⟩ | ⟨-, hstop⟩⟩ := revoke_cases hstep
    · exact ht.step (hnew htasks trivial) nofun nofun
    · exact ht.step (hold (fun _ hx => hx) hstop.2.1) nofun nofun
  | release handle env =>
    obtain ⟨-, -, res, hrun, ⟨-, rfl, htasks, -⟩ | ⟨-, hstop⟩⟩ := release_cases hstep
    · exact ht.step (hold (fun _ => List.mem_of_mem_erase) (.inl htasks)) nofun nofun
    · exact ht.step (hold (fun _ => List.mem_of_mem_erase) hstop.2.1) nofun nofun
  | store act =>
    obtain ⟨-, rs, -, rfl, -, htasks, -⟩ := store_cases hstep
    exact ht.step (hold (fun _ hx => hx) (.inl htasks)) nofun nofun
  | restart =>
    cases hstep
    exact ht.step (hold (fun _ hx => hx) (.inr rfl)) nofun nofun
  | powerLoss found garbage foundLedger garbageLedger =>
    cases hstep
    exact ht.step (hold (fun _ hx => hx) (.inr rfl)) nofun nofun

theorem traced_run (hrun : (machine verify sign sha256).Run Machine.anyStep τ s) :
    Traced verify sha256 τ s := by
  refine Machine.Run.inv (I := fun τ s => Traced verify sha256 τ s) ?_
    (fun ht _ hstep => traced_step ht hstep) hrun
  exact {
    task := fun _ hx => absurd hx List.not_mem_nil
    served := fun _ _ _ _ hx => absurd hx List.not_mem_nil
    minted := fun _ _ _ _ _ _ _ hx => absurd hx List.not_mem_nil }

/-! ## Nothing is forged -/

/-- Every signature that verifies is over what an earlier mint signed. -/
def Unforged (verify : Bytes → Bytes → Bool) (τ : List (Act × Reply)) : Prop :=
  ∀ signed now env submit r, (Act.present signed now env submit, r) ∈ τ →
    verifyGrant verify signed = true → ∃ hash handle params now' env' hash' signed',
      (Act.mintRegister hash handle params now' env', Reply.minted hash' signed') ∈ τ ∧
        signed.grant.canonicalBytes = signed'.grant.canonicalBytes

/-- **What is served was minted**: its address is that of a slice that was stored for the
capsule, and it went out before the expiry and under the bound that the mint was given. -/
theorem served_as_minted {env : Store.Env} {submit : Submit} {bytes : Bytes}
    (hrun : (machine verify sign sha256).Run Machine.anyStep τ s) (hunforged : Unforged verify τ)
    (hserved : (Act.deliver grant env submit, Reply.served bytes) ∈ τ) :
    ∃ slice params fresh storeEnv hash,
      (Act.mintPut slice params fresh storeEnv, Reply.stored hash) ∈ τ ∧
        Store.ContentHash.of sha256 bytes = Store.ContentHash.of sha256 slice.canonicalBytes ∧
        grant.scope.roots.Perm params.scope.roots ∧
        grant.fields = (params.grant hash (hex fresh)).fields ∧
        ∃ signed now ledgerEnv up,
          (Act.present signed now ledgerEnv up, Reply.admitted) ∈ τ ∧ signed.grant = grant ∧
            now < params.expiresAtMicros := by
  have ht := traced_run hrun
  obtain ⟨⟨signed, now, ledgerEnv, up, hpresent, rfl, hverify, hnow⟩, hparse⟩ :=
    ht.served grant env submit bytes hserved
  obtain ⟨hash, handle, params, now', env', hash', signed', hminted, hbytes⟩ :=
    hunforged signed now ledgerEnv up _ hpresent hverify
  obtain ⟨⟨slice, fresh, storeEnv, hput, rfl, hhash⟩, hgrant⟩ :=
    ht.minted hash handle params now' env' hash' signed' hminted
  rw [hgrant] at hbytes
  obtain ⟨hroots, hfields⟩ := grantBytes_eq_iff.1 hbytes
  have hslice : signed.grant.sliceHash = String.ofList hash.digits :=
    congrArg (fun f => f.2.1) hfields
  have hexpires : signed.grant.expiresAtMicros = params.expiresAtMicros :=
    congrArg (fun f => f.2.2.2.1) hfields
  rw [hslice, String.toList_ofList, Store.ContentHash.parse_digits] at hparse
  refine ⟨slice, params, fresh, storeEnv, hash, hput, ?_, hroots, hfields, signed, now, ledgerEnv,
    up, hpresent, rfl, hexpires ▸ hnow⟩
  rw [← Except.ok.inj hparse, hhash]

/-- Everything that happens to the note. -/
def noteRead (bytes : Bytes) : List (Act × Reply) :=
  noteLent ++ [(revokeNote, .recorded)] ++ noteLate bytes

/-- The one grant that is presented is the one that was minted. -/
theorem unforged_noteRead (bytes : Bytes) : Unforged noteVerify (noteRead bytes) := by
  intro signed now env submit r hmem _
  have hsigned : signed = noteSigned := by
    simp only [noteRead, noteLent, noteMinted, noteLate, putNote, registerNote, presentNote,
      loseNote, revokeNote, deliverNote, List.cons_append, List.nil_append, List.mem_cons,
      List.not_mem_nil, Prod.mk.injEq, Act.present.injEq, reduceCtorEq, false_and, false_or,
      or_false] at hmem
    rcases hmem with ⟨⟨h, -⟩, -⟩ | ⟨⟨h, -⟩, -⟩ | ⟨⟨h, -⟩, -⟩ <;> exact h
  rw [hsigned]
  exact ⟨noteHash, hex [1], noteParams, 5, quietLedger, noteHash, noteSigned,
    List.mem_cons_of_mem _ List.mem_cons_self, rfl⟩

theorem served_as_minted_note : ∃ s bytes slice params fresh env hash,
    noteMachine.Run Machine.anyStep (noteRead bytes) s ∧
      (Act.mintPut slice params fresh env, Reply.stored hash) ∈ noteRead bytes ∧
        Store.ContentHash.of Arlen.Lib.sha256 bytes =
          Store.ContentHash.of Arlen.Lib.sha256 slice.canonicalBytes := by
  obtain ⟨-, s₅, s₆, s₈, bytes, -, hlent, hrevoke, hlate, -⟩ := note_runs
  have hfirm : RevocationFile.Firm False quietLedger := False.elim
  have hrun := ((hlent.step (a := revokeNote) hfirm hrevoke).along hlate).weaken
    fun _ _ _ => (trivial : Machine.anyStep _ _)
  have hserved : (Act.deliver noteGrant Store.steady .acknowledged, Reply.served bytes) ∈
      noteRead bytes := List.mem_of_getLast? rfl
  obtain ⟨slice, params, fresh, env, hash, hput, hof, -⟩ :=
    served_as_minted hrun (unforged_noteRead bytes) hserved
  exact ⟨s₈, bytes, slice, params, fresh, env, hash, hrun, hput, hof⟩

/-! ## The ledger of a capsule that is left alone -/

/-- The grant is presented with its signature before its expiry. -/
def asks (verify : Bytes → Bytes → Bool) (h : String) : Act × Reply → Bool
  | (.present signed now _ _, _) => decide (signed.grant.revocationHandle = h) &&
      (verifyGrant verify signed && decide (now < signed.grant.expiresAtMicros))
  | _ => false

def Revokes (h : String) : Act → Prop
  | .revoke handle _ => handle = h
  | _ => False

def Registered (τ : List (Act × Reply)) (h : String) : Prop :=
  ∃ hash params now env hash' signed,
    (Act.mintRegister hash h params now env, Reply.minted hash' signed) ∈ τ

/-- What the ledger says of a capsule: no more reads than were asked for, no revocation that
was not, and an entry once it was minted. -/
def Fair (verify : Bytes → Bytes → Bool) (h : String) (τ : List (Act × Reply))
    (l : RevocationLedger) : Prop :=
  l.ops h ≤ τ.countP (asks verify h) ∧
    ((∀ p ∈ τ, ¬ Revokes h p.1) → l.isRevoked h = false) ∧
    (Registered τ h → (l.entries h).isSome)

/-- A request that does not ask leaves the ledger alone. -/
theorem ledger_of_not_asks {signed : SignedGrant} {now : Int} {env : LedgerEnv} {submit : Submit}
    (hstep : step verify sign sha256 s (.present signed now env submit) = some (r, s'))
    (hno : ¬ (verifyGrant verify signed = true ∧ now < signed.grant.expiresAtMicros)) :
    s'.ledger = s.ledger := by
  obtain ⟨-, res, hrun, -⟩ := present_cases hstep
  unfold gateRead at hrun
  by_cases hverify : verifyGrant verify signed = false
  · rw [if_pos hverify] at hrun
    exact (congrArg Prod.snd (Option.some.inj hrun)).symm
  · have hexpired : signed.grant.expiresAtMicros ≤ now := by
      by_contra hlt
      exact hno ⟨by simpa using hverify, by omega⟩
    rw [if_neg hverify, if_pos hexpired] at hrun
    exact (congrArg Prod.snd (Option.some.inj hrun)).symm

theorem isSome_of_alters {l l' : RevocationLedger} (ha : Alters a l l')
    (hsome : (l.entries h).isSome) : (l'.entries h).isSome := by
  cases a with
  | present signed now env submit => exact ((RevocationLedger.consume_allowed ha).2.2.2 h).2.2 hsome
  | mintRegister hash handle params now env =>
    cases ha
    exact RevocationLedger.isSome_orDefault hsome
  | revoke handle env =>
    cases ha
    exact RevocationLedger.isSome_orDefault hsome
  | _ => exact ha.elim

theorem isRevoked_of_alters {l l' : RevocationLedger} (ha : Alters a l l') (hno : ¬ Revokes h a) :
    l'.isRevoked h = l.isRevoked h := by
  cases a with
  | present signed now env submit => exact ((RevocationLedger.consume_allowed ha).2.2.2 h).1
  | mintRegister hash handle params now env =>
    cases ha
    exact RevocationLedger.isRevoked_registerWithMeta
  | revoke handle env =>
    cases ha
    exact RevocationLedger.isRevoked_revoke_of_ne fun heq => hno heq.symm
  | _ => exact ha.elim

/-- A read that is let through was asked for. -/
theorem ops_of_alters {l l' : RevocationLedger} (ha : Alters a l l')
    (hasks : ∀ signed now env submit, a = .present signed now env submit →
      verifyGrant verify signed = true ∧ now < signed.grant.expiresAtMicros) :
    l'.ops h ≤ l.ops h + [(a, r)].countP (asks verify h) := by
  cases a with
  | present signed now env submit =>
    obtain ⟨-, -, hops, hrest⟩ := RevocationLedger.consume_allowed ha
    obtain ⟨hverify, hnow⟩ := hasks _ _ _ _ rfl
    by_cases heq : h = signed.grant.revocationHandle
    · have hcount : [(Act.present signed now env submit, r)].countP (asks verify h) = 1 := by
        simp [asks, heq, hverify, hnow]
      rw [hcount, heq, hops]
    · rw [(hrest h).2.1 heq]
      exact Nat.le_add_right _ _
  | mintRegister hash handle params now env =>
    cases ha
    rw [RevocationLedger.ops_registerWithMeta]
    exact Nat.le_add_right _ _
  | revoke handle env =>
    cases ha
    rw [RevocationLedger.ops_revoke]
    exact Nat.le_add_right _ _
  | _ => exact ha.elim

/-- The step mints the capsule. -/
def Mints (h : String) (a : Act) (r : Reply) : Prop :=
  ∃ hash params now env hash' signed,
    a = .mintRegister hash h params now env ∧ r = .minted hash' signed

theorem registered_append (hr : Registered (τ ++ [(a, r)]) h) : Registered τ h ∨ Mints h a r := by
  obtain ⟨hash, params, now, env, hash', signed, hmem⟩ := hr
  rcases List.mem_append.1 hmem with hmem | hmem
  · exact .inl ⟨hash, params, now, env, hash', signed, hmem⟩
  · cases List.mem_singleton.1 hmem
    exact .inr ⟨hash, params, now, env, hash', signed, rfl, rfl⟩

/-- **One step.** -/
theorem fair_step (hf : Ledgers lossy s.ledger (Fair verify h τ)) (hok : Guarded lossy G s a)
    (hstep : step verify sign sha256 s a = some (r, s')) :
    Ledgers lossy s'.ledger (Fair verify h (τ ++ [(a, r)])) := by
  have hcount : (τ ++ [(a, r)]).countP (asks verify h) =
      τ.countP (asks verify h) + [(a, r)].countP (asks verify h) := List.countP_append
  have hquiet : (∀ p ∈ τ ++ [(a, r)], ¬ Revokes h p.1) →
      (∀ p ∈ τ, ¬ Revokes h p.1) ∧ ¬ Revokes h a := fun hall =>
    ⟨fun p hp => hall p (List.mem_append_left _ hp),
      hall (a, r) (List.mem_append_right _ List.mem_cons_self)⟩
  have hkeep : ∀ l, Fair verify h τ l → l.ops h ≤ (τ ++ [(a, r)]).countP (asks verify h) ∧
      ((∀ p ∈ τ ++ [(a, r)], ¬ Revokes h p.1) → l.isRevoked h = false) ∧
      (Registered τ h → (l.entries h).isSome) := fun l hl =>
    ⟨hl.1.trans (hcount ▸ Nat.le_add_right _ _), fun hall => hl.2.1 (hquiet hall).1, hl.2.2⟩
  by_cases hasks : ∀ signed now env submit, a = .present signed now env submit →
      verifyGrant verify signed = true ∧ now < signed.grant.expiresAtMicros
  · have hp : ∀ l l', Fair verify h τ l → Alters a l l' →
        l'.ops h ≤ (τ ++ [(a, r)]).countP (asks verify h) ∧
          ((∀ p ∈ τ ++ [(a, r)], ¬ Revokes h p.1) → l'.isRevoked h = false) ∧
          (Registered τ h → (l'.entries h).isSome) := by
      refine fun l l' hl ha => ⟨?_, fun hall => ?_, fun hreg => isSome_of_alters ha (hl.2.2 hreg)⟩
      · rw [hcount]
        exact (ops_of_alters ha hasks).trans (Nat.add_le_add_right hl.1 _)
      · rw [isRevoked_of_alters ha (hquiet hall).2]
        exact hl.2.1 (hquiet hall).1
    have hq : ∀ l l', Fair verify h τ l → Alters a l l' → Mints h a r → (l'.entries h).isSome := by
      rintro l l' - ha ⟨hash, params, now, env, hash', signed, rfl, -⟩
      cases ha
      rw [RevocationLedger.registerWithMeta, RevocationLedger.entries_orDefault_self,
        Option.isSome_some]
    obtain ⟨hafter, hminted⟩ := step_ledger (Q := fun l => Mints h a r → (l.entries h).isSome)
      hf hok hstep hkeep hp hq
    by_cases hmints : Mints h a r
    · have haltered : Altered r := by
        obtain ⟨hash, params, now, env, hash', signed, -, rfl⟩ := hmints
        trivial
      exact (hafter.and (hminted haltered)).mono fun l hl =>
        ⟨hl.1.1, hl.1.2.1, fun _ => hl.2 hmints⟩
    · exact hafter.mono fun l hl =>
        ⟨hl.1, hl.2.1, fun hreg => hl.2.2 ((registered_append hreg).resolve_right hmints)⟩
  · push Not at hasks
    obtain ⟨signed, now, env, submit, rfl, hno⟩ := hasks
    rw [ledger_of_not_asks hstep fun hyes => absurd hyes.2 (not_lt.2 (hno hyes.1))]
    refine hf.mono fun l hl => ⟨(hkeep l hl).1, (hkeep l hl).2.1, fun hreg => ?_⟩
    refine hl.2.2 ((registered_append hreg).resolve_right ?_)
    rintro ⟨hash, params, now', env', hash', signed', ⟨⟩, -⟩

theorem fair_run (hrun : (machine verify sign sha256).Run (Guarded lossy G) τ s) :
    Ledgers lossy s.ledger (Fair verify h τ) := by
  refine Machine.Run.inv (I := fun τ s => Ledgers lossy s.ledger (Fair verify h τ)) ?_
    (fun hf hok hstep => fair_step hf hok hstep) hrun
  refine ledgers_empty ⟨Nat.zero_le _, fun _ => rfl, ?_⟩
  rintro ⟨_, _, _, _, _, _, hmem⟩
  cases hmem

/-! ## The store under the daemon -/

def Frees (o : Store.Owner) : Act → Prop
  | .release handle _ => capsuleOwner handle = o
  | .store (.release _ owner) => owner = o
  | _ => False

/-- An object was stored for a capsule, and its owner never released. -/
def Roots (τ : List (Act × Reply)) (hash : Store.ContentHash) (o : Store.Owner) : Prop :=
  (∃ slice params fresh env, (Act.mintPut slice params fresh env, Reply.stored hash) ∈ τ ∧
    o = capsuleOwner (hex fresh)) ∧ ∀ p ∈ τ, ¬ Frees o p.1

/-- What was done with the store came to its end. -/
def Completed : Act × Reply → Prop
  | (.mintPut _ _ _ _, .failed) | (.mintPut _ _ _ _, .killed) => False
  | (.release _ _, .failed) | (.release _ _, .killed) => False
  | (_, .store r) => Store.Completed r
  | _ => True

def Cuts : Act → Prop
  | .powerLoss _ _ _ _ => True
  | _ => False

/-- Nothing comes behind a use of the store that broke off but the loss of power. -/
def Orderly (τ : List (Act × Reply)) : Prop := τ.IsChain fun p q => Completed p ∨ Cuts q.1

theorem orderly_append (ho : Orderly (τ ++ [(a, r)])) :
    Orderly τ ∧ ∀ p ∈ τ.getLast?, Completed p ∨ Cuts a :=
  ⟨ho.left_of_append, fun p hp => (List.isChain_append.1 ho).2.2 p hp (a, r) rfl⟩

/-- **A step does at most one thing with the store.** -/
theorem step_store (hstep : step verify sign sha256 s a = some (r, s')) :
    (s'.store = s.store ∧ ¬ Cuts a ∧ ∀ hash, r ≠ .stored hash) ∨
      ∃ b rb, Store.step sha256 s.store b = some (rb, s'.store) ∧
        (Guarded lossy G s a → Store.Guarded lossy G s.store b) ∧
        (Completed (a, r) → Store.Completed rb) ∧ (Store.Cuts b ↔ Cuts a) ∧
        (∀ o, Store.Releases o b → Frees o a) ∧
        ∀ slice params fresh env hash, a = .mintPut slice params fresh env → r = .stored hash →
          Store.Acknowledges b rb hash (capsuleOwner (hex fresh)) := by
  cases a with
  | present signed now env submit =>
    obtain ⟨hstore, res, -, ⟨-, rfl, -⟩ | ⟨-, hstop⟩⟩ := present_cases hstep
    · exact .inl ⟨hstore, id, nofun⟩
    · refine .inl ⟨hstore, id, ?_⟩
      rintro hash rfl
      exact hstop.1
  | deliver grant env submit =>
    obtain ⟨-, -, res, hrun, hcase⟩ := deliver_cases hstep
    have hsame : s'.store = s.store := by
      rcases does_readSlice.performed hrun with ⟨v, -, h, -⟩ | ⟨e, -, h⟩ <;> exact h
    rcases hcase with ⟨bytes, -, rfl, -⟩ | hstop
    · exact .inl ⟨hsame, id, nofun⟩
    · refine .inl ⟨hsame, id, ?_⟩
      rintro hash rfl
      exact hstop.1
  | mintPut slice params fresh env =>
    obtain ⟨-, res, hrun, hcase⟩ := mintPut_cases hstep
    have hput : Store.step sha256 s.store
        (.put env slice.canonicalBytes none (some (capsuleOwner (hex fresh)))) =
        some (.hash res, s'.store) := Store.performed_eq hrun
    refine .inr ⟨_, _, hput, fun _ => trivial, fun hdone => ?_, Iff.rfl, fun _ hrel => hrel, ?_⟩
    · rcases hcase with ⟨hash, rfl, -⟩ | ⟨⟨-, rfl | rfl⟩, -⟩
      · trivial
      · exact hdone.elim
      · exact hdone.elim
    · rintro _ _ _ _ hash ⟨⟩ rfl
      rcases hcase with ⟨hash', rfl, hr, -⟩ | ⟨⟨-, hr | hr⟩, -⟩
      · cases hr
        exact ⟨rfl, rfl⟩
      · cases hr
      · cases hr
  | mintRegister hash handle params now env =>
    obtain ⟨-, hstore, res, -, ⟨-, rfl, -⟩ | ⟨-, hstop⟩⟩ := mintRegister_cases hstep
    · exact .inl ⟨hstore, id, nofun⟩
    · refine .inl ⟨hstore, id, ?_⟩
      rintro hash rfl
      exact hstop.1
  | revoke handle env =>
    obtain ⟨hstore, res, -, ⟨-, rfl, -⟩ | ⟨-, hstop⟩⟩ := revoke_cases hstep
    · exact .inl ⟨hstore, id, nofun⟩
    · refine .inl ⟨hstore, id, ?_⟩
      rintro hash rfl
      exact hstop.1
  | release handle env =>
    obtain ⟨-, -, res, hrun, hcase⟩ := release_cases hstep
    have hrelease : Store.step sha256 s.store (.release env (capsuleOwner handle)) =
        some (.count res, s'.store) := Store.performed_eq hrun
    refine .inr ⟨_, _, hrelease, fun _ => trivial, fun hdone => ?_, Iff.rfl, fun _ hrel => hrel, nofun⟩
    rcases hcase with ⟨⟨n, rfl⟩, -⟩ | ⟨⟨-, rfl | rfl⟩, -⟩
    · trivial
    · exact hdone.elim
    · exact hdone.elim
  | store act =>
    obtain ⟨hcuts, rs, hrun, rfl, -⟩ := store_cases hstep
    refine .inr ⟨act, rs, hrun, fun hok => ?_, fun hdone => hdone, ⟨fun hc => absurd hc hcuts, False.elim⟩,
      fun o hrel => ?_, nofun⟩
    · cases act with
      | powerLoss => exact absurd trivial hcuts
      | damage => exact hok
      | _ => trivial
    · cases act with
      | release => exact hrel
      | _ => exact hrel.elim
  | restart =>
    cases hstep
    exact .inl ⟨rfl, id, nofun⟩
  | powerLoss found garbage foundLedger garbageLedger =>
    cases hstep
    exact .inr ⟨.powerLoss found garbage, .none, rfl, fun hok => hok, fun _ => trivial, Iff.rfl,
      fun _ hrel => hrel.elim, nofun⟩

/-- **Every run** leaves the store sound, and settled once what was done with it came to its
end. -/
theorem store_run (hrun : (machine verify sign sha256).Run (Guarded lossy G) τ s)
    (horder : lossy → Orderly τ) : Store.Sound lossy sha256 G (Roots τ) s.store ∧
      ((lossy → ∀ p ∈ τ.getLast?, Completed p) → Store.Settled lossy s.store) := by
  induction hrun with
  | start =>
    refine ⟨Store.sound_empty.mono ?_, fun _ => Store.settled_empty⟩
    rintro hash o ⟨⟨_, _, _, _, hmem, -⟩, -⟩
    cases hmem
  | @step τ s s' a r _ hok hstep ih =>
    obtain ⟨hs, hset⟩ := ih fun hl => (orderly_append (horder hl)).1
    have hbefore : ¬ Cuts a → Store.Settled lossy s.store := fun hcut =>
      hset fun hl p hp => ((orderly_append (horder hl)).2 p hp).resolve_right hcut
    have hlast : (a, r) ∈ τ ++ [(a, r)] := List.mem_append_right _ List.mem_cons_self
    have hroots : ∀ {hash o}, Roots (τ ++ [(a, r)]) hash o → Roots τ hash o ∨
        ∃ slice params fresh env, a = .mintPut slice params fresh env ∧ r = .stored hash ∧
          o = capsuleOwner (hex fresh) := by
      rintro hash o ⟨⟨slice, params, fresh, env, hmem, ho⟩, hno⟩
      rcases List.mem_append.1 hmem with hmem | hmem
      · exact .inl ⟨⟨slice, params, fresh, env, hmem, ho⟩,
          fun p hp => hno p (List.mem_append_left _ hp)⟩
      · cases List.mem_singleton.1 hmem
        exact .inr ⟨slice, params, fresh, env, rfl, rfl, ho⟩
    rcases step_store (G := G) hstep with ⟨hsame, hcuts, hno⟩ |
      ⟨b, rb, hrun, hguard, hdone, hcuts, hfrees, hacks⟩
    · rw [hsame]
      refine ⟨hs.mono fun hash o hR => ?_, fun _ => hbefore hcuts⟩
      rcases hroots hR with hR | ⟨_, _, _, _, -, hr, -⟩
      · exact hR
      · exact absurd hr (hno hash)
    · have hbefore' : ¬ Store.Cuts b → Store.Settled lossy s.store := fun hb =>
        hbefore (mt hcuts.2 hb)
      have hcareful := Store.careful_of_settled (hguard hok) hbefore'
      refine ⟨(Store.sound_step hs hcareful hrun).mono fun hash o hR => ?_, fun hlastdone => ?_⟩
      · rcases hroots hR with hR' | ⟨slice, params, fresh, env, ha, hr, rfl⟩
        · exact Store.acknowledged_of_not_releases hR' fun hrel => hR.2 _ hlast (hfrees o hrel)
        · exact Store.acknowledged_of_acknowledges (hacks slice params fresh env hash ha hr)
      · by_cases hl : lossy
        · exact Store.settled_step hs hbefore' hrun (hdone (hlastdone hl (a, r) (by simp)))
        · exact Store.settled_of_not_lossy hl _

/-! ## What was minted is served -/

/-- The gate answers when no call of its breaks off. -/
theorem gateRead_unbroken {P : RevocationLedger → Prop} {d : LedgerDir} {signed : SignedGrant}
    {now : Int} {env : LedgerEnv} (hd : Ledgers lossy d P) (henv : RevocationFile.Unbroken env)
    (hverify : verifyGrant verify signed = true) (hnow : now < signed.grant.expiresAtMicros) :
    ∃ l d', P l ∧ perform (gateRead verify signed now env) d = some (.ok (refuseVerdict
      (l.consume signed.grant.revocationHandle signed.grant.maxOps).1), d') := by
  have hfirm : RevocationFile.Firm lossy env := fun _ n landed => by
    rw [henv.2 n]
    nofun
  have hany : ∀ l : RevocationLedger, P l → True := fun _ _ => trivial
  have hgate := does_gateRead (Q := fun _ => True) verify signed now hd hany (fun _ _ _ _ => trivial)
    (fun _ _ _ _ => trivial) hfirm
  obtain ⟨res, d', hperform⟩ := hgate.returns
  rcases hgate.performed hperform with ⟨v, rfl, -, -, hv⟩ | ⟨e, -, -, hbroken⟩
  · obtain ⟨l, hl, rfl⟩ := hv henv hverify hnow
    exact ⟨l, d', hl, hperform⟩
  · exact absurd henv hbroken

theorem readSlice_of_read {d : Store.Vol} {env : Store.Env} {bytes : Bytes}
    (hparse : Store.ContentHash.parse grant.sliceHash.toList = .ok hash)
    (hread : perform (Store.read sha256 env hash) d = some (.ok bytes, d)) :
    perform (readSlice sha256 grant env) d = some (.ok (.ok bytes), d) := by
  obtain ⟨⟨res, w⟩, hrun, heq⟩ := Option.map_eq_some_iff.1 hread
  cases heq
  have hslice : readSlice sha256 grant env ⟨w.disk, 0⟩ = some (.ok (.ok bytes), w) := by
    rw [readSlice, hparse]
    simp [recover, bind, hrun, pure]
  rw [perform, hslice, Option.map_some]

/-- **A capsule that was minted is served** when it is presented under its signature before
its expiry, was asked for less often than its bound, and nobody revoked or released it. -/
theorem minted_is_served {now now' : Int} {env env' : LedgerEnv} {storeEnv : Store.Env}
    {hash' : Store.ContentHash} {signed : SignedGrant} (hG : G hash)
    (hrun : (machine verify sign sha256).Run (Guarded lossy G) τ s) (horder : lossy → Orderly τ)
    (hminted : (Act.mintRegister hash handle params now env, Reply.minted hash' signed) ∈ τ)
    (hverify : verifyGrant verify signed = true)
    (halone : ∀ p ∈ τ, ¬ Frees (capsuleOwner handle) p.1 ∧ ¬ Revokes handle p.1)
    (hops : τ.countP (asks verify handle) < params.maxOps) (hnow : now' < params.expiresAtMicros)
    (henv : RevocationFile.Unbroken env') (hstoreEnv : Store.Smooth storeEnv) :
    ∃ s₁ s₂ bytes,
      step verify sign sha256 s (.present signed now' env' .acknowledged) = some (.admitted, s₁) ∧
        step verify sign sha256 s₁ (.deliver signed.grant storeEnv .acknowledged) = some (.served bytes, s₂) ∧
        Store.ContentHash.of sha256 bytes = hash := by
  obtain ⟨⟨slice, fresh, putEnv, hput, rfl, hhash⟩, hgrant⟩ :=
    (traced_run (hrun.weaken fun _ _ _ => trivial)).minted hash handle params now env hash' signed hminted
  have hroots : Roots τ hash (capsuleOwner (hex fresh)) :=
    ⟨⟨slice, params, fresh, putEnv, hput, rfl⟩, fun p hp => (halone p hp).1⟩
  obtain ⟨-, bytes, hof, hread⟩ := (store_run hrun horder).1.readable hroots hG
  have hhandle : signed.grant.revocationHandle = hex fresh := by rw [hgrant, MintParams.grant]
  have hmax : signed.grant.maxOps = params.maxOps := by rw [hgrant, MintParams.grant]
  have hexpires : signed.grant.expiresAtMicros = params.expiresAtMicros := by
    rw [hgrant, MintParams.grant]
  obtain ⟨l, d, hl, hgate⟩ := gateRead_unbroken (fair_run (h := hex fresh) hrun) henv hverify
    (hexpires ▸ hnow)
  have hallowed : (l.consume (hex fresh) params.maxOps).1 = .allowed :=
    RevocationLedger.consume_eq_allowed (hl.2.2 ⟨hash, params, now, env, hash', signed, hminted⟩)
      (hl.2.1 fun p hp => (halone p hp).2) (lt_of_le_of_lt hl.1 hops)
  rw [hhandle, hmax, hallowed] at hgate
  have hparse : Store.ContentHash.parse signed.grant.sliceHash.toList = .ok hash := by
    rw [hgrant, MintParams.grant, String.toList_ofList, Store.ContentHash.parse_digits]
  have hslice := readSlice_of_read hparse (hread storeEnv hstoreEnv)
  refine ⟨{ s with ledger := d, tasks := .admitted signed.grant :: s.tasks },
    ⟨d, s.store, (Task.admitted signed.grant :: s.tasks).erase (.admitted signed.grant),
      s.audit ++ ["served"]⟩, bytes, ?_, ?_, hof⟩
  · rw [step, hgate]
    rfl
  · rw [step, if_pos List.mem_cons_self, hslice]
    rfl

theorem minted_is_served_note : ∃ s₀ s₁ s₂ bytes,
    noteMachine.Run (Guarded False fun _ => True) noteMinted s₀ ∧
      noteMachine.step s₀ presentNote = some (.admitted, s₁) ∧
        noteMachine.step s₁ deliverNote = some (.served bytes, s₂) ∧
          Store.ContentHash.of Arlen.Lib.sha256 bytes = noteHash := by
  obtain ⟨s₀, -, -, -, -, hrun, -⟩ := note_runs
  have hminted : (Act.mintRegister noteHash (hex [1]) noteParams 5 quietLedger,
      Reply.minted noteHash noteSigned) ∈ noteMinted :=
    List.mem_cons_of_mem _ List.mem_cons_self
  have hverify : verifyGrant noteVerify noteSigned = true := decide_eq_true rfl
  have halone : ∀ p ∈ noteMinted, ¬ Frees (capsuleOwner (hex [1])) p.1 ∧ ¬ Revokes (hex [1]) p.1 := by
    intro p hp
    rcases List.mem_cons.1 hp with rfl | hp
    · exact ⟨id, id⟩
    · cases List.mem_singleton.1 hp
      exact ⟨id, id⟩
  have hops : noteMinted.countP (asks noteVerify (hex [1])) < noteParams.maxOps := by decide
  have hnow : (10 : Int) < noteParams.expiresAtMicros := by decide
  have henv : RevocationFile.Unbroken quietLedger := ⟨fun _ => rfl, fun _ => rfl⟩
  have hsteady : Store.Smooth Store.steady := fun _ => rfl
  obtain ⟨s₁, s₂, bytes, hpresent, hdeliver, hof⟩ := minted_is_served (G := fun _ => True) trivial
    hrun False.elim hminted hverify halone hops hnow henv hsteady
  exact ⟨s₀, s₁, s₂, bytes, hrun, hpresent, hdeliver, hof⟩

end Arlen.Capsule
