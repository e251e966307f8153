import Arlen.Capsule.Serve
import Arlen.Forage.Rooted

/-!
# What the capsule daemon serves

Over every run, with any calls to the store, the ledger or the audit daemon failing, the
process killed at any of them, requests interleaved in any order and power lost at any
moment, if the ledger's directory is synced where it is: a capsule is served at most as
often as its grant allows, with an entry on record for each time, and never to a request
that comes after its revocation.
-/

namespace Arlen.Capsule

open Arlen.Lib Crash Arlen.Forage

variable {lossy : Prop} {verify : Bytes → Bytes → Bool} {sign : Bytes → Bytes}
  {sha256 : Bytes → Digest} {G : Store.ContentHash → Prop} {s s' : Daemon} {a : Act} {r : Reply}
  {h : String} {m : Nat} {P P' Q : RevocationLedger → Prop}

/-! ## What a step can do -/

/-- The reply to a request that comes to nothing. -/
def Quiet : Reply → Prop
  | .auditUnavailable | .refused _ | .failed | .killed => True
  | _ => False

/-- A request comes to nothing: its task, if it was one, is gone, or all tasks are. -/
def Stopped (s : Daemon) (tasks : List Task) (r : Reply) (s' : Daemon) : Prop :=
  Quiet r ∧ (s'.tasks = tasks ∨ s'.tasks = []) ∧ s.audit.count "served" ≤ s'.audit.count "served"

theorem finish_cases {ε α : Type} {ok : α → Reply × Daemon} {res : Except (Stop ε) α}
    (hf : finish s ok res = (r, s')) : (∃ v, res = .ok v ∧ ok v = (r, s')) ∨
      (((∃ e, res = .error e) ∧ (r = .failed ∨ r = .killed)) ∧ s'.ledger = s.ledger ∧
        s'.store = s.store ∧ Stopped s s.tasks r s') := by
  unfold finish at hf
  split at hf
  · exact .inl ⟨_, rfl, hf⟩
  · cases hf
    exact .inr ⟨⟨⟨_, rfl⟩, .inl rfl⟩, rfl, rfl, trivial, .inl rfl, Nat.le_refl _⟩
  · cases hf
    exact .inr ⟨⟨⟨_, rfl⟩, .inr rfl⟩, rfl, rfl, trivial, .inr rfl, Nat.le_refl _⟩

theorem count_submitted_le (s : Daemon) (submit : Submit) (outcome : String) :
    s.audit.count "served" ≤ (s.submitted submit outcome).audit.count "served" :=
  (List.sublist_append_left _ _).count_le _

theorem respond_cases {submit : Submit} {res : Except Refusal Bytes}
    (hr : respond submit s res = (r, s')) : s'.ledger = s.ledger ∧ s'.store = s.store ∧
      ((∃ bytes, res = .ok bytes ∧ r = .served bytes ∧ s'.tasks = s.tasks ∧
        s'.audit = s.audit ++ ["served"]) ∨ Stopped s s.tasks r s') := by
  cases res with
  | ok bytes =>
    have hle := count_submitted_le s submit "served"
    cases submit with
    | acknowledged =>
      cases hr
      exact ⟨rfl, rfl, .inl ⟨bytes, rfl, rfl, rfl, rfl⟩⟩
    | failed recorded =>
      cases hr
      exact ⟨rfl, rfl, .inr ⟨trivial, .inl rfl, hle⟩⟩
    | killed recorded =>
      cases hr
      exact ⟨rfl, rfl, .inr ⟨trivial, .inr rfl, hle⟩⟩
  | error ref =>
    have hle := count_submitted_le s submit (refusalLabel ref)
    cases submit with
    | acknowledged | failed _ =>
      cases hr
      exact ⟨rfl, rfl, .inr ⟨trivial, .inl rfl, hle⟩⟩
    | killed recorded =>
      cases hr
      exact ⟨rfl, rfl, .inr ⟨trivial, .inr rfl, hle⟩⟩

section Cases

variable {signed : SignedGrant} {now : Int} {env : LedgerEnv} {storeEnv : Store.Env}
  {submit : Submit} {grant : CapsuleGrant} {params : MintParams} {handle : String}
  {hash : Store.ContentHash} {slice : FrozenSlice} {fresh : Bytes}

theorem present_cases (hstep : step verify sign sha256 s (.present signed now env submit) =
    some (r, s')) : s'.store = s.store ∧ ∃ res,
      perform (gateRead verify signed now env) s.ledger = some (res, s'.ledger) ∧
        ((res = .ok (.ok ()) ∧ r = .admitted ∧ s'.tasks = .admitted signed.grant :: s.tasks ∧
          s'.audit = s.audit) ∨ (res ≠ .ok (.ok ()) ∧ Stopped s s.tasks r s')) := by
  obtain ⟨⟨res, d⟩, hrun, heq⟩ := Option.map_eq_some_iff.1 hstep
  rcases finish_cases heq with ⟨v, hres, hv⟩ | ⟨⟨⟨e, hres⟩, -⟩, hledger, hstore, hstop⟩
  · cases hres
    rcases v with ref | u
    · obtain ⟨hledger, hstore, ⟨bytes, hb, -⟩ | hstop⟩ := respond_cases hv
      · cases hb
      · exact ⟨hstore, _, by rw [hrun, hledger], .inr ⟨by simp, hstop⟩⟩
    · cases hv
      exact ⟨rfl, _, hrun, .inl ⟨rfl, rfl, rfl, rfl⟩⟩
  · cases hres
    exact ⟨hstore, _, by rw [hrun, hledger], .inr ⟨by simp, hstop⟩⟩

theorem deliver_cases (hstep : step verify sign sha256 s (.deliver grant storeEnv submit) =
    some (r, s')) : .admitted grant ∈ s.tasks ∧ s'.ledger = s.ledger ∧ ∃ res,
      perform (readSlice sha256 grant storeEnv) s.store = some (res, s'.store) ∧
        ((∃ bytes, res = .ok (.ok bytes) ∧ r = .served bytes ∧
          s'.tasks = s.tasks.erase (.admitted grant) ∧ s'.audit = s.audit ++ ["served"]) ∨
          Stopped s (s.tasks.erase (.admitted grant)) r s') := by
  by_cases hmem : .admitted grant ∈ s.tasks
  · rw [step, if_pos hmem] at hstep
    obtain ⟨⟨res, d⟩, hrun, heq⟩ := Option.map_eq_some_iff.1 hstep
    rcases finish_cases heq with ⟨v, hres, hv⟩ | ⟨⟨⟨e, hres⟩, -⟩, hledger, hstore, hstop⟩
    · cases hres
      obtain ⟨hledger, hstore, ⟨bytes, rfl, hr, htasks, haudit⟩ | hstop⟩ := respond_cases hv
      · exact ⟨hmem, hledger, _, by rw [hrun, hstore], .inl ⟨bytes, rfl, hr, htasks, haudit⟩⟩
      · exact ⟨hmem, hledger, _, by rw [hrun, hstore], .inr hstop⟩
    · cases hres
      exact ⟨hmem, hledger, _, by rw [hrun, hstore], .inr hstop⟩
  · rw [step, if_neg hmem] at hstep
    cases hstep

theorem mintPut_cases (hstep : step verify sign sha256 s (.mintPut slice params fresh storeEnv) =
    some (r, s')) : s'.ledger = s.ledger ∧ ∃ res,
      perform (Store.putReferenced sha256 storeEnv slice.canonicalBytes (capsuleOwner (hex fresh)))
        s.store = some (res, s'.store) ∧
        ((∃ hash, res = .ok hash ∧ r = .stored hash ∧
          s'.tasks = .stored hash (hex fresh) params :: s.tasks ∧ s'.audit = s.audit) ∨
          (((∃ e, res = .error e) ∧ (r = .failed ∨ r = .killed)) ∧ Stopped s s.tasks r s')) := by
  obtain ⟨⟨res, d⟩, hrun, heq⟩ := Option.map_eq_some_iff.1 hstep
  rcases finish_cases heq with ⟨v, hres, hv⟩ | ⟨⟨⟨e, hres⟩, hbroken⟩, hledger, hstore, hstop⟩
  · cases hres
    cases hv
    exact ⟨rfl, _, hrun, .inl ⟨_, rfl, rfl, rfl, rfl⟩⟩
  · cases hres
    exact ⟨hledger, _, by rw [hrun, hstore], .inr ⟨⟨⟨_, rfl⟩, hbroken⟩, hstop⟩⟩

theorem mintRegister_cases
    (hstep : step verify sign sha256 s (.mintRegister hash handle params now env) = some (r, s')) :
    .stored hash handle params ∈ s.tasks ∧ s'.store = s.store ∧ ∃ res,
      perform (RevocationFile.registerWithMeta env handle (params.toMeta now)) s.ledger =
        some (res, s'.ledger) ∧
        ((res = .ok () ∧
          r = .minted hash ⟨params.grant hash handle, signGrant sign (params.grant hash handle)⟩ ∧
          s'.tasks = s.tasks.erase (.stored hash handle params) ∧ s'.audit = s.audit) ∨
          ((∃ e, res = .error e) ∧ Stopped s (s.tasks.erase (.stored hash handle params)) r s')) := by
  by_cases hmem : .stored hash handle params ∈ s.tasks
  · rw [step, if_pos hmem] at hstep
    obtain ⟨⟨res, d⟩, hrun, heq⟩ := Option.map_eq_some_iff.1 hstep
    rcases finish_cases heq with ⟨v, hres, hv⟩ | ⟨⟨⟨e, hres⟩, -⟩, hledger, hstore, hstop⟩
    · cases hres
      cases hv
      exact ⟨hmem, rfl, _, hrun, .inl ⟨rfl, rfl, rfl, rfl⟩⟩
    · cases hres
      exact ⟨hmem, hstore, _, by rw [hrun, hledger], .inr ⟨⟨_, rfl⟩, hstop⟩⟩
  · rw [step, if_neg hmem] at hstep
    cases hstep

theorem revoke_cases (hstep : step verify sign sha256 s (.revoke handle env) = some (r, s')) :
    s'.store = s.store ∧ ∃ res,
      perform (RevocationFile.revoke env handle) s.ledger = some (res, s'.ledger) ∧
        ((res = .ok () ∧ r = .recorded ∧ s'.tasks = .revoked handle :: s.tasks ∧
          s'.audit = s.audit) ∨ ((∃ e, res = .error e) ∧ Stopped s s.tasks r s')) := by
  obtain ⟨⟨res, d⟩, hrun, heq⟩ := Option.map_eq_some_iff.1 hstep
  rcases finish_cases heq with ⟨v, hres, hv⟩ | ⟨⟨⟨e, hres⟩, -⟩, hledger, hstore, hstop⟩
  · cases hres
    cases hv
    exact ⟨rfl, _, hrun, .inl ⟨rfl, rfl, rfl, rfl⟩⟩
  · cases hres
    exact ⟨hstore, _, by rw [hrun, hledger], .inr ⟨⟨_, rfl⟩, hstop⟩⟩

theorem release_cases (hstep : step verify sign sha256 s (.release handle storeEnv) = some (r, s')) :
    .revoked handle ∈ s.tasks ∧ s'.ledger = s.ledger ∧ ∃ res,
      perform (Store.release storeEnv (capsuleOwner handle)) s.store = some (res, s'.store) ∧
        (((∃ n, res = .ok n) ∧ r = .revoked ∧ s'.tasks = s.tasks.erase (.revoked handle) ∧
          s'.audit = s.audit) ∨
          (((∃ e, res = .error e) ∧ (r = .failed ∨ r = .killed)) ∧ Stopped s (s.tasks.erase (.revoked handle)) r s')) := by
  by_cases hmem : .revoked handle ∈ s.tasks
  · rw [step, if_pos hmem] at hstep
    obtain ⟨⟨res, d⟩, hrun, heq⟩ := Option.map_eq_some_iff.1 hstep
    rcases finish_cases heq with ⟨v, hres, hv⟩ | ⟨⟨⟨e, hres⟩, hbroken⟩, hledger, hstore, hstop⟩
    · cases hres
      cases hv
      exact ⟨hmem, rfl, _, hrun, .inl ⟨⟨_, rfl⟩, rfl, rfl, rfl⟩⟩
    · cases hres
      exact ⟨hmem, hledger, _, by rw [hrun, hstore], .inr ⟨⟨⟨_, rfl⟩, hbroken⟩, hstop⟩⟩
  · rw [step, if_neg hmem] at hstep
    cases hstep

theorem store_cases {act : Store.Act} (hstep : step verify sign sha256 s (.store act) = some (r, s')) :
    ¬ Store.Cuts act ∧ ∃ rs, Store.step sha256 s.store act = some (rs, s'.store) ∧ r = .store rs ∧
      s'.ledger = s.ledger ∧ s'.tasks = s.tasks ∧ s'.audit = s.audit := by
  have hcuts : ¬ Store.Cuts act := by
    cases act with
    | powerLoss found garbage => cases hstep
    | _ => exact id
  have hmap : step verify sign sha256 s (.store act) =
      (Store.step sha256 s.store act).map fun p => (.store p.1, { s with store := p.2 }) := by
    cases act with
    | powerLoss found garbage => exact absurd trivial hcuts
    | _ => rfl
  rw [hmap] at hstep
  obtain ⟨⟨rs, d⟩, hrun, heq⟩ := Option.map_eq_some_iff.1 hstep
  cases heq
  exact ⟨hcuts, rs, hrun, rfl, rfl, rfl, rfl⟩

end Cases

/-! ## The ledger -/

/-- Whether power may be lost; where it may, the ledger's directory is synced when asked. The
medium does not damage the objects of `G`. -/
def Guarded (lossy : Prop) (G : Store.ContentHash → Prop) (_ : Daemon) : Act → Prop
  | .present _ _ env _ | .mintRegister _ _ _ _ env | .revoke _ env => RevocationFile.Firm lossy env
  | .store (.damage h _) => ¬ G h
  | .powerLoss _ _ _ _ => lossy
  | _ => True

/-- The change of the ledger a request asks for. -/
def Alters : Act → RevocationLedger → RevocationLedger → Prop
  | .present signed _ _ _, l, l' =>
    l.consume signed.grant.revocationHandle signed.grant.maxOps = (.allowed, l')
  | .mintRegister _ handle params now _, l, l' => l' = l.registerWithMeta handle (params.toMeta now)
  | .revoke handle _, l, l' => l' = l.revoke handle
  | _, _, _ => False

/-- The reply to a request whose change of the ledger was made. -/
def Altered : Reply → Prop
  | .admitted | .minted _ _ | .recorded => True
  | _ => False

theorem Stopped.not_altered {tasks : List Task} (hs : Stopped s tasks r s') : ¬ Altered r := by
  intro h
  cases r <;> first | exact h | exact hs.1

/-- **The ledger's gate in a read.** -/
theorem does_gateRead (check : Bytes → Bytes → Bool) (signed : SignedGrant) (now : Int)
    {d : LedgerDir} {env : LedgerEnv}
    (hd : Ledgers lossy d P) (hkeep : ∀ l, P l → P' l)
    (hp : ∀ l l', P l →
      l.consume signed.grant.revocationHandle signed.grant.maxOps = (.allowed, l') → P' l')
    (hq : ∀ l l', P l →
      l.consume signed.grant.revocationHandle signed.grant.maxOps = (.allowed, l') → Q l')
    (hfirm : RevocationFile.Firm lossy env) :
    Does (gateRead check signed now env) d
      (fun res d' => Ledgers lossy d' P' ∧
        (res = .ok () → verifyGrant check signed = true ∧ now < signed.grant.expiresAtMicros ∧
          Ledgers lossy d' Q) ∧
        (RevocationFile.Unbroken env → verifyGrant check signed = true →
          now < signed.grant.expiresAtMicros → ∃ l, P l ∧ res = refuseVerdict
            (l.consume signed.grant.revocationHandle signed.grant.maxOps).1))
      (RevocationFile.Left lossy env P') := by
  unfold gateRead
  by_cases hverify : verifyGrant check signed = false
  · rw [if_pos hverify]
    refine Does.pure ⟨hd.mono hkeep, nofun, fun _ ht => ?_⟩
    rw [hverify] at ht
    cases ht
  · rw [if_neg hverify]
    by_cases hexpired : signed.grant.expiresAtMicros ≤ now
    · rw [if_pos hexpired]
      exact Does.pure ⟨hd.mono hkeep, nofun, fun _ _ hnow => absurd hexpired (by omega)⟩
    · rw [if_neg hexpired]
      have hconsume := RevocationFile.does_consume hd hkeep hp hq hfirm
      refine Does.recover (hconsume.bind fun v d₁ hv => ?_) (fun _ hl => hl) fun e d₁ hl => ?_
      · obtain ⟨⟨l, hl, rfl⟩, hP, hQ⟩ := hv
        refine Does.pure ⟨hP, fun hok => ⟨by simpa using hverify, by omega, hQ ?_⟩,
          fun _ _ _ => ⟨l, hl, rfl⟩⟩
        revert hok
        cases (l.consume signed.grant.revocationHandle signed.grant.maxOps).1 <;> simp [refuseVerdict]
      · exact Does.pure ⟨hl.1, nofun, fun hall => absurd hall hl.2⟩

/-- **What a step does to the ledger**: nothing, or the change that was asked for; and that one
for certain when it says so. -/
theorem step_ledger (hd : Ledgers lossy s.ledger P) (hok : Guarded lossy G s a)
    (hstep : step verify sign sha256 s a = some (r, s'))
    (hkeep : ∀ l, P l → P' l) (hp : ∀ l l', P l → Alters a l l' → P' l') (hq : ∀ l l', P l → Alters a l l' → Q l') :
    Ledgers lossy s'.ledger P' ∧ (Altered r → Ledgers lossy s'.ledger Q) := by
  cases a with
  | present signed now env submit =>
    obtain ⟨-, res, hrun, hcase⟩ := present_cases hstep
    rcases (does_gateRead verify signed now hd hkeep hp hq hok).performed hrun with ⟨v, rfl, hP, hQ, -⟩ | ⟨e, rfl, hP, -⟩
    · rcases hcase with ⟨hres, rfl, -⟩ | ⟨-, hstop⟩
      · cases hres
        exact ⟨hP, fun _ => (hQ rfl).2.2⟩
      · exact ⟨hP, fun h => absurd h hstop.not_altered⟩
    · rcases hcase with ⟨hres, -⟩ | ⟨-, hstop⟩
      · cases hres
      · exact ⟨hP, fun h => absurd h hstop.not_altered⟩
  | mintRegister hash handle params now env =>
    obtain ⟨-, -, res, hrun, hcase⟩ := mintRegister_cases hstep
    have hdoes := RevocationFile.does_update hd hkeep (fun l hl => hp l _ hl rfl)
      (fun l hl => hq l _ hl rfl) hok
    rcases hdoes.performed hrun with ⟨v, rfl, hP, hQ⟩ | ⟨e, rfl, hP, -⟩
    · exact ⟨hP, fun _ => hQ⟩
    · rcases hcase with ⟨hres, -⟩ | ⟨-, hstop⟩
      · cases hres
      · exact ⟨hP, fun h => absurd h hstop.not_altered⟩
  | revoke handle env =>
    obtain ⟨-, res, hrun, hcase⟩ := revoke_cases hstep
    have hdoes := RevocationFile.does_update hd hkeep (fun l hl => hp l _ hl rfl)
      (fun l hl => hq l _ hl rfl) hok
    rcases hdoes.performed hrun with ⟨v, rfl, hP, hQ⟩ | ⟨e, rfl, hP, -⟩
    · exact ⟨hP, fun _ => hQ⟩
    · rcases hcase with ⟨hres, -⟩ | ⟨-, hstop⟩
      · cases hres
      · exact ⟨hP, fun h => absurd h hstop.not_altered⟩
  | deliver grant env submit =>
    obtain ⟨-, hledger, res, -, ⟨bytes, -, rfl, -⟩ | hstop⟩ := deliver_cases hstep
    · exact ⟨hledger ▸ hd.mono hkeep, nofun⟩
    · exact ⟨hledger ▸ hd.mono hkeep, fun h => absurd h hstop.not_altered⟩
  | mintPut slice params fresh env =>
    obtain ⟨hledger, res, -, ⟨hash, -, rfl, -⟩ | ⟨-, hstop⟩⟩ := mintPut_cases hstep
    · exact ⟨hledger ▸ hd.mono hkeep, nofun⟩
    · exact ⟨hledger ▸ hd.mono hkeep, fun h => absurd h hstop.not_altered⟩
  | release handle env =>
    obtain ⟨-, hledger, res, -, ⟨-, rfl, -⟩ | ⟨-, hstop⟩⟩ := release_cases hstep
    · exact ⟨hledger ▸ hd.mono hkeep, nofun⟩
    · exact ⟨hledger ▸ hd.mono hkeep, fun h => absurd h hstop.not_altered⟩
  | store act =>
    obtain ⟨-, rs, -, rfl, hledger, -⟩ := store_cases hstep
    exact ⟨hledger ▸ hd.mono hkeep, nofun⟩
  | restart =>
    cases hstep
    exact ⟨hd.mono hkeep, nofun⟩
  | powerLoss found garbage foundLedger garbageLedger =>
    cases hstep
    exact ⟨(hd.mono hkeep).lose hok, nofun⟩

/-! ## Counting the reads -/

section Counting

variable {p : CapsuleGrant → Bool}

/-- A read of a grant that `p` holds of was served. -/
def serves (p : CapsuleGrant → Bool) : Act × Reply → Bool
  | (.deliver grant _ _, .served _) => p grant
  | _ => false

/-- One was let through. -/
def admits (p : CapsuleGrant → Bool) : Act × Reply → Bool
  | (.present signed _ _ _, .admitted) => p signed.grant
  | _ => false

def pending (p : CapsuleGrant → Bool) : Task → Bool
  | .admitted grant => p grant
  | _ => false

theorem Stopped.not_serves {tasks : List Task} (hs : Stopped s tasks r s') :
    serves p (a, r) = false ∧ admits p (a, r) = false := by
  cases r <;> first | exact hs.1.elim | (cases a <;> exact ⟨rfl, rfl⟩)

theorem Stopped.tasks_le {tasks : List Task} (hs : Stopped s tasks r s')
    (ht : tasks.countP (pending p) ≤ s.tasks.countP (pending p)) :
    s'.tasks.countP (pending p) ≤ s.tasks.countP (pending p) := by
  rcases hs.2.1 with h | h
  · rwa [h]
  · rw [h]
    exact Nat.zero_le _

theorem countP_erase_le (tasks : List Task) (t : Task) :
    (tasks.erase t).countP (pending p) ≤ tasks.countP (pending p) :=
  List.erase_sublist.countP_le

/-- **One step**: a read is served out of those let through, and each of them once. -/
theorem step_counts (hstep : step verify sign sha256 s a = some (r, s')) :
    s'.tasks.countP (pending p) + [(a, r)].countP (serves p) ≤
      s.tasks.countP (pending p) + [(a, r)].countP (admits p) := by
  rw [List.countP_singleton, List.countP_singleton]
  have hstopped : ∀ tasks, tasks.countP (pending p) ≤ s.tasks.countP (pending p) →
      Stopped s tasks r s' → s'.tasks.countP (pending p) + (if serves p (a, r) then 1 else 0) ≤
        s.tasks.countP (pending p) + if admits p (a, r) then 1 else 0 := by
    intro tasks ht hs
    have hle := hs.tasks_le ht
    rw [hs.not_serves.1, hs.not_serves.2]
    simpa using hle
  cases a with
  | present signed now env submit =>
    obtain ⟨-, res, -, ⟨-, rfl, htasks, -⟩ | ⟨-, hstop⟩⟩ := present_cases hstep
    · rw [htasks, List.countP_cons]
      cases hp : p signed.grant <;> simp [serves, admits, pending, hp]
    · exact hstopped _ (Nat.le_refl _) hstop
  | deliver grant env submit =>
    obtain ⟨hmem, -, res, -, ⟨bytes, -, rfl, htasks, -⟩ | hstop⟩ := deliver_cases hstep
    · have hadmits : ¬ admits p (.deliver grant env submit, .served bytes) = true := nofun
      rw [htasks, if_neg hadmits]
      cases hp : p grant with
      | true =>
        have hpending : pending p (.admitted grant) = true := hp
        have hserves : serves p (.deliver grant env submit, .served bytes) = true := hp
        have hpos := List.countP_pos_iff.2 ⟨_, hmem, hpending⟩
        have herase : (s.tasks.erase (.admitted grant)).countP (pending p) =
            s.tasks.countP (pending p) - 1 := by
          rw [List.countP_erase, if_pos ⟨hmem, hpending⟩]
        rw [herase, if_pos hserves]
        omega
      | false =>
        have hserves : serves p (.deliver grant env submit, .served bytes) = false := hp
        rw [if_neg (ne_true_of_eq_false hserves)]
        exact countP_erase_le _ _
    · exact hstopped _ (countP_erase_le _ _) hstop
  | mintPut slice params fresh env =>
    obtain ⟨-, res, -, ⟨hash, -, rfl, htasks, -⟩ | ⟨-, hstop⟩⟩ := mintPut_cases hstep
    · rw [htasks, List.countP_cons]
      simp [serves, admits, pending]
    · exact hstopped _ (Nat.le_refl _) hstop
  | mintRegister hash handle params now env =>
    obtain ⟨-, -, res, -, ⟨-, rfl, htasks, -⟩ | ⟨-, hstop⟩⟩ := mintRegister_cases hstep
    · rw [htasks]
      simpa [serves, admits] using countP_erase_le _ _
    · exact hstopped _ (countP_erase_le _ _) hstop
  | revoke handle env =>
    obtain ⟨-, res, -, ⟨-, rfl, htasks, -⟩ | ⟨-, hstop⟩⟩ := revoke_cases hstep
    · rw [htasks, List.countP_cons]
      simp [serves, admits, pending]
    · exact hstopped _ (Nat.le_refl _) hstop
  | release handle env =>
    obtain ⟨-, -, res, -, ⟨-, rfl, htasks, -⟩ | ⟨-, hstop⟩⟩ := release_cases hstep
    · rw [htasks]
      simpa [serves, admits] using countP_erase_le _ _
    · exact hstopped _ (countP_erase_le _ _) hstop
  | store act =>
    obtain ⟨-, rs, -, rfl, -, htasks, -⟩ := store_cases hstep
    rw [htasks]
    simp [serves, admits]
  | restart =>
    cases hstep
    simp [serves, admits]
  | powerLoss found garbage foundLedger garbageLedger =>
    cases hstep
    simp [serves, admits]

end Counting

/-- The grants of a capsule that allow at most `m` reads. -/
def within (h : String) (m : Nat) (grant : CapsuleGrant) : Bool :=
  decide (grant.revocationHandle = h ∧ grant.maxOps ≤ m)

variable {τ before later : List (Act × Reply)}

/-- What was served and what may yet be is counted in the ledger, and within the bound. -/
def Counted (lossy : Prop) (h : String) (m : Nat) (τ : List (Act × Reply)) (s : Daemon) : Prop :=
  τ.countP (serves (within h m)) + s.tasks.countP (pending (within h m)) ≤ m ∧
    Ledgers lossy s.ledger fun l =>
      τ.countP (serves (within h m)) + s.tasks.countP (pending (within h m)) ≤ l.ops h

theorem le_ops_of_alters {n : Nat} {l l' : RevocationLedger} (hn : n ≤ l.ops h)
    (ha : Alters a l l') : n ≤ l'.ops h := by
  cases a with
  | present signed now env submit =>
    obtain ⟨-, -, hops, hrest⟩ := RevocationLedger.consume_allowed ha
    by_cases heq : h = signed.grant.revocationHandle
    · subst heq
      omega
    · rw [(hrest h).2.1 heq]
      exact hn
  | mintRegister hash handle params now env =>
    cases ha
    rwa [RevocationLedger.ops_registerWithMeta]
  | revoke handle env =>
    cases ha
    rwa [RevocationLedger.ops_revoke]
  | _ => exact ha.elim

theorem eq_of_admits {p : CapsuleGrant → Bool} (ha : admits p (a, r) = true) :
    ∃ signed now env submit, a = .present signed now env submit ∧ r = .admitted ∧
      p signed.grant = true := by
  unfold admits at ha
  split at ha
  · next heq =>
    cases heq
    exact ⟨_, _, _, _, rfl, rfl, ha⟩
  · cases ha

theorem counted_step (hc : Counted lossy h m τ s) (hok : Guarded lossy G s a)
    (hstep : step verify sign sha256 s a = some (r, s')) : Counted lossy h m (τ ++ [(a, r)]) s' := by
  have hcounts := step_counts (p := within h m) hstep
  unfold Counted at hc ⊢
  rw [List.countP_append]
  generalize τ.countP (serves (within h m)) = served at hc ⊢
  generalize s.tasks.countP (pending (within h m)) = waiting at hc hcounts
  obtain ⟨hle, hledger⟩ := hc
  by_cases hadmits : admits (within h m) (a, r) = true
  · obtain ⟨signed, now, env, submit, rfl, rfl, hwithin⟩ := eq_of_admits hadmits
    obtain ⟨hhandle, hmax⟩ := of_decide_eq_true hwithin
    have hnext : ∀ l l', served + waiting ≤ l.ops h → Alters (.present signed now env submit) l l' →
        served + waiting + 1 ≤ l'.ops h ∧ served + waiting + 1 ≤ m := by
      intro l l' hl ha
      obtain ⟨-, hbound, hops, -⟩ := RevocationLedger.consume_allowed ha
      rw [hhandle] at hbound hops
      omega
    have hafter := (step_ledger hledger hok hstep (fun _ hl => hl)
      (fun _ _ hl ha => le_ops_of_alters hl ha) hnext).2 trivial
    obtain ⟨l, -, -, hm⟩ := hafter.1
    rw [List.countP_singleton (p := admits _), if_pos hadmits] at hcounts
    exact ⟨by omega, hafter.mono fun l hl => by omega⟩
  · have hafter := (step_ledger hledger hok hstep (fun _ hl => hl)
      (fun _ _ hl ha => le_ops_of_alters hl ha) fun _ _ _ _ => trivial).1
    rw [List.countP_singleton (p := admits _), if_neg hadmits] at hcounts
    exact ⟨by omega, hafter.mono fun l hl => by omega⟩

theorem Stopped.recorded {tasks : List Task} (hs : Stopped s tasks r s') :
    s.audit.count "served" + [(a, r)].countP (serves fun _ => true) ≤
      s'.audit.count "served" := by
  rw [List.countP_singleton, hs.not_serves.1]
  exact hs.2.2

/-- What goes out is recorded. -/
theorem step_audit (hstep : step verify sign sha256 s a = some (r, s')) :
    s.audit.count "served" + [(a, r)].countP (serves fun _ => true) ≤
      s'.audit.count "served" := by
  cases a with
  | present signed now env submit =>
    obtain ⟨-, res, -, ⟨-, rfl, -, haudit⟩ | ⟨-, hstop⟩⟩ := present_cases hstep
    · simp [haudit, serves]
    · exact hstop.recorded
  | deliver grant env submit =>
    obtain ⟨-, -, res, -, ⟨bytes, -, rfl, -, haudit⟩ | hstop⟩ := deliver_cases hstep
    · simp [haudit, serves]
    · exact hstop.recorded
  | mintPut slice params fresh env =>
    obtain ⟨-, res, -, ⟨hash, -, rfl, -, haudit⟩ | ⟨-, hstop⟩⟩ := mintPut_cases hstep
    · simp [haudit, serves]
    · exact hstop.recorded
  | mintRegister hash handle params now env =>
    obtain ⟨-, -, res, -, ⟨-, rfl, -, haudit⟩ | ⟨-, hstop⟩⟩ := mintRegister_cases hstep
    · simp [haudit, serves]
    · exact hstop.recorded
  | revoke handle env =>
    obtain ⟨-, res, -, ⟨-, rfl, -, haudit⟩ | ⟨-, hstop⟩⟩ := revoke_cases hstep
    · simp [haudit, serves]
    · exact hstop.recorded
  | release handle env =>
    obtain ⟨-, -, res, -, ⟨-, rfl, -, haudit⟩ | ⟨-, hstop⟩⟩ := release_cases hstep
    · simp [haudit, serves]
    · exact hstop.recorded
  | store act =>
    obtain ⟨-, rs, -, rfl, -, -, haudit⟩ := store_cases hstep
    simp [haudit, serves]
  | restart =>
    cases hstep
    simp [serves]
  | powerLoss found garbage foundLedger garbageLedger =>
    cases hstep
    simp [serves]

theorem ledgers_empty (hP : P .empty) : Ledgers lossy Disk.empty P :=
  ⟨⟨.empty, .inl ⟨rfl, rfl⟩, hP⟩, fun _ => nofun⟩

theorem counted_run (hrun : (machine verify sign sha256).Run (Guarded lossy G) τ s) :
    Counted lossy h m τ s := by
  refine Machine.Run.inv (I := fun τ s => Counted lossy h m τ s) ?_
    (fun hc hok hstep => counted_step hc hok hstep) hrun
  exact ⟨Nat.zero_le m, ledgers_empty (Nat.zero_le _)⟩

/-! A note is minted for three reads. Of the first only the entry is recorded, the second is let
through before the capsule is revoked and served behind that, and the third comes too late. The
signature is the first bytes of what is signed. -/

def note : FrozenSlice := ⟨[], []⟩

def noteParams : MintParams := ⟨⟨["p1"], 1⟩, "00", 1000, 3, "tim", "note", "one file"⟩

def noteSign (m : Bytes) : Bytes := m.take 64

def noteVerify (m signature : Bytes) : Bool := decide (signature = noteSign m)

def noteHash : Store.ContentHash := Store.ContentHash.of Arlen.Lib.sha256 note.canonicalBytes

def noteGrant : CapsuleGrant := noteParams.grant noteHash (hex [1])

def noteSigned : SignedGrant := ⟨noteGrant, signGrant noteSign noteGrant⟩

def quietLedger : LedgerEnv := ⟨fun _ => none, fun _ => none⟩

def noteMachine : Machine Daemon Act Reply := machine noteVerify noteSign Arlen.Lib.sha256

def putNote : Act := .mintPut note noteParams [1] Store.steady

def registerNote : Act := .mintRegister noteHash (hex [1]) noteParams 5 quietLedger

def presentNote : Act := .present noteSigned 10 quietLedger .acknowledged

def loseNote : Act := .deliver noteGrant Store.steady (.failed true)

def revokeNote : Act := .revoke (hex [1]) quietLedger

def deliverNote : Act := .deliver noteGrant Store.steady .acknowledged

/-- The note is minted. -/
def noteMinted : List (Act × Reply) :=
  [(putNote, .stored noteHash), (registerNote, .minted noteHash noteSigned)]

/-- One read is lost, and one let through. -/
def noteLent : List (Act × Reply) :=
  noteMinted ++ [(presentNote, .admitted), (loseNote, .auditUnavailable), (presentNote, .admitted)]

/-- What happens behind the revocation. -/
def noteLate (bytes : Bytes) : List (Act × Reply) :=
  [(presentNote, .refused .revoked), (deliverNote, .served bytes)]

def Reply.word : Reply → String
  | .admitted => "admitted"
  | .served _ => "served"
  | .auditUnavailable => "unavailable"
  | .refused ref => refusalLabel ref
  | .stored _ => "stored"
  | .minted _ _ => "minted"
  | .recorded => "recorded"
  | _ => "other"

theorem of_word (r : Reply) :
    (r.word = "admitted" → r = .admitted) ∧ (r.word = "served" → ∃ bytes, r = .served bytes) ∧
      (r.word = "unavailable" → r = .auditUnavailable) ∧
      (r.word = "refused:revoked" → r = .refused .revoked) ∧
      (r.word = "stored" → ∃ hash, r = .stored hash) ∧
      (r.word = "minted" → ∃ hash signed, r = .minted hash signed) ∧
      (r.word = "recorded" → r = .recorded) := by
  cases r with
  | refused ref => cases ref <;> simp [Reply.word, refusalLabel]
  | _ => simp [Reply.word]

/-- The signature matters by whether it verifies. -/
theorem step_present_of_verified {signed : SignedGrant} {now : Int} {env : LedgerEnv}
    {submit : Submit} (hverify : verifyGrant verify signed = true) :
    step verify sign sha256 s (.present signed now env submit) =
      step (fun _ _ => true) sign sha256 s (.present signed now env submit) := by
  have hgate : gateRead verify signed now env = gateRead (fun _ _ => true) signed now env := by
    unfold gateRead
    rw [hverify]
    rfl
  rw [step, step, hgate]

/-- The steps in order, whatever verifies, and the audit trail at the end. -/
def noteTrial : Option (List String × List String) :=
  let step := step (fun _ _ => true) noteSign Arlen.Lib.sha256
  (step noteMachine.init putNote).bind fun p₁ => (step p₁.2 registerNote).bind fun p₂ =>
    (step p₂.2 presentNote).bind fun p₃ => (step p₃.2 loseNote).bind fun p₄ =>
      (step p₄.2 presentNote).bind fun p₅ => (step p₅.2 revokeNote).bind fun p₆ =>
        (step p₆.2 presentNote).bind fun p₇ => (step p₇.2 deliverNote).map fun p₈ =>
          ([p₁.1, p₂.1, p₃.1, p₄.1, p₅.1, p₆.1, p₇.1, p₈.1].map Reply.word, p₈.2.audit)

theorem noteTrial_eq : noteTrial = some
    (["stored", "minted", "admitted", "unavailable", "admitted", "recorded", "refused:revoked",
      "served"], ["served", "refused:revoked", "served"]) := by
  decide +kernel

theorem note_runs : ∃ s₂ s₅ s₆ s₈ bytes,
    noteMachine.Run (Guarded False fun _ => True) noteMinted s₂ ∧
      noteMachine.Run (Guarded False fun _ => True) noteLent s₅ ∧
      noteMachine.step s₅ revokeNote = some (.recorded, s₆) ∧
      noteMachine.Path (Guarded False fun _ => True) s₆ (noteLate bytes) s₈ ∧
      s₈.audit = ["served", "refused:revoked", "served"] := by
  obtain ⟨⟨r₁, s₁⟩, h₁, heval⟩ := Option.bind_eq_some_iff.1 noteTrial_eq
  obtain ⟨⟨r₂, s₂⟩, h₂, heval⟩ := Option.bind_eq_some_iff.1 heval
  obtain ⟨⟨r₃, s₃⟩, h₃, heval⟩ := Option.bind_eq_some_iff.1 heval
  obtain ⟨⟨r₄, s₄⟩, h₄, heval⟩ := Option.bind_eq_some_iff.1 heval
  obtain ⟨⟨r₅, s₅⟩, h₅, heval⟩ := Option.bind_eq_some_iff.1 heval
  obtain ⟨⟨r₆, s₆⟩, h₆, heval⟩ := Option.bind_eq_some_iff.1 heval
  obtain ⟨⟨r₇, s₇⟩, h₇, heval⟩ := Option.bind_eq_some_iff.1 heval
  obtain ⟨⟨r₈, s₈⟩, h₈, heval⟩ := Option.map_eq_some_iff.1 heval
  obtain ⟨hwords, haudit⟩ := Prod.mk.inj heval
  simp only [List.map_cons, List.map_nil, List.cons.injEq, and_true] at hwords
  obtain ⟨w₁, w₂, w₃, w₄, w₅, w₆, w₇, w₈⟩ := hwords
  obtain ⟨hash, rfl⟩ := (of_word r₁).2.2.2.2.1 w₁
  obtain ⟨hash', signed, rfl⟩ := (of_word r₂).2.2.2.2.2.1 w₂
  obtain rfl := (of_word r₃).1 w₃
  obtain rfl := (of_word r₄).2.2.1 w₄
  obtain rfl := (of_word r₅).1 w₅
  obtain rfl := (of_word r₆).2.2.2.2.2.2 w₆
  obtain rfl := (of_word r₇).2.2.2.1 w₇
  obtain ⟨bytes, rfl⟩ := (of_word r₈).2.1 w₈
  have hverify : verifyGrant noteVerify noteSigned = true := decide_eq_true rfl
  have hpresent : ∀ s, noteMachine.step s presentNote =
      step (fun _ _ => true) noteSign Arlen.Lib.sha256 s presentNote :=
    fun _ => step_present_of_verified hverify
  have hhash : hash = noteHash := by
    obtain ⟨-, res, hrun, ⟨_, rfl, ⟨⟩, -⟩ | ⟨-, hstop⟩⟩ := mintPut_cases h₁
    · exact Store.hash_of_putInner hrun
    · exact hstop.1.elim
  have hminted : hash' = noteHash ∧ signed = noteSigned := by
    obtain ⟨-, -, res, -, ⟨-, ⟨⟩, -⟩ | ⟨-, hstop⟩⟩ := mintRegister_cases h₂
    · exact ⟨rfl, rfl⟩
    · exact hstop.1.elim
  obtain ⟨rfl, rfl⟩ := hminted
  subst hhash
  have hfirm : RevocationFile.Firm False quietLedger := False.elim
  have hstart : noteMachine.Run (Guarded False fun _ => True) [] noteMachine.init := .start
  have hput := hstart.step (a := putNote) trivial h₁
  have hregister := hput.step (a := registerNote) hfirm h₂
  have hadmit := hregister.step (a := presentNote) hfirm ((hpresent _).trans h₃)
  have hlose := hadmit.step (a := loseNote) trivial h₄
  have hagain := hlose.step (a := presentNote) hfirm ((hpresent _).trans h₅)
  have hlate : noteMachine.Path (Guarded False fun _ => True) s₆ [(presentNote, .refused .revoked)]
      s₇ := Machine.Path.refl.step (a := presentNote) hfirm ((hpresent _).trans h₇)
  exact ⟨s₂, s₅, s₆, s₈, bytes, hregister, hagain, h₆, hlate.step (a := deliverNote) trivial h₈,
    haudit⟩

/-- **A capsule is served at most as often as its grant allows**, over all runs, crashes and
losses of power; and every slice that went out is on record. -/
theorem served_at_most (hrun : (machine verify sign sha256).Run (Guarded lossy G) τ s) (h : String)
    (m : Nat) : τ.countP (serves (within h m)) ≤ m ∧
      τ.countP (serves fun _ => true) ≤ s.audit.count "served" := by
  have haudit : τ.countP (serves fun _ => true) ≤ s.audit.count "served" := by
    refine Machine.Run.inv
      (I := fun τ s => τ.countP (serves fun _ => true) ≤ s.audit.count "served")
      (Nat.le_refl _) ?_ hrun
    intro τ s a r s' hτ _ hstep
    have hrecorded := step_audit hstep
    rw [List.countP_append]
    omega
  exact ⟨Nat.le_of_add_right_le (counted_run hrun).1, haudit⟩

/-- One slice goes out and two entries say so. -/
theorem served_at_most_note : ∃ τ s, noteMachine.Run (Guarded False fun _ => True) τ s ∧
    τ.countP (serves (within (hex [1]) 3)) ≤ 3 ∧
      τ.countP (serves fun _ => true) ≤ s.audit.count "served" ∧
      τ.countP (serves fun _ => true) = 1 ∧ s.audit.count "served" = 2 := by
  obtain ⟨-, s₅, s₆, s₈, bytes, -, hrun, hrevoke, hlate, haudit⟩ := note_runs
  have hfirm : RevocationFile.Firm False quietLedger := False.elim
  have hall := (hrun.step (a := revokeNote) hfirm hrevoke).along hlate
  obtain ⟨hmost, hrecord⟩ := served_at_most hall (hex [1]) 3
  exact ⟨_, s₈, hall, hmost, hrecord, rfl, by rw [haudit]; decide⟩

/-! ## Revocation -/

/-- The grants of a capsule. -/
def ofCapsule (h : String) (grant : CapsuleGrant) : Bool := decide (grant.revocationHandle = h)

/-- **A step after the revocation.** -/
theorem revoked_step (hrevoked : Ledgers lossy s.ledger fun l => l.isRevoked h = true)
    (hok : Guarded lossy G s a) (hstep : step verify sign sha256 s a = some (r, s')) :
    (Ledgers lossy s'.ledger fun l => l.isRevoked h = true) ∧
      admits (ofCapsule h) (a, r) = false := by
  have hkeeps : ∀ l l', l.isRevoked h = true → Alters a l l' → l'.isRevoked h = true := by
    intro l l' hl ha
    cases a with
    | present signed now env submit =>
      obtain ⟨-, -, -, hrest⟩ := RevocationLedger.consume_allowed ha
      rw [(hrest h).1, hl]
    | mintRegister hash handle params now env =>
      cases ha
      rw [RevocationLedger.isRevoked_registerWithMeta, hl]
    | revoke handle env =>
      cases ha
      by_cases heq : h = handle
      · rw [heq, RevocationLedger.isRevoked_revoke_self]
      · rw [RevocationLedger.isRevoked_revoke_of_ne heq, hl]
    | _ => exact ha.elim
  refine ⟨(step_ledger hrevoked hok hstep (fun _ hl => hl) hkeeps hkeeps).1, ?_⟩
  by_contra hadmits
  obtain ⟨signed, now, env, submit, rfl, rfl, hhandle⟩ := eq_of_admits (by simpa using hadmits)
  have hhandle := of_decide_eq_true hhandle
  have hno := (step_ledger (Q := fun _ => False) hrevoked hok hstep (fun _ hl => hl) hkeeps
    fun l l' hl ha => by
    obtain ⟨hlive, -⟩ := RevocationLedger.consume_allowed ha
    rw [hhandle, hl] at hlive
    cases hlive).2 trivial
  obtain ⟨l, -, hfalse⟩ := hno.1
  exact hfalse

variable {s₀ s₁ s₂ : Daemon}

theorem revoked_path (hrevoked : Ledgers lossy s₁.ledger fun l => l.isRevoked h = true)
    (hpath : (machine verify sign sha256).Path (Guarded lossy G) s₁ later s₂) :
    (Ledgers lossy s₂.ledger fun l => l.isRevoked h = true) ∧
      later.countP (admits (ofCapsule h)) = 0 ∧
      later.countP (serves (ofCapsule h)) + s₂.tasks.countP (pending (ofCapsule h)) ≤
        s₁.tasks.countP (pending (ofCapsule h)) := by
  induction hpath with
  | refl => exact ⟨hrevoked, rfl, by simp⟩
  | step hpath hok hstep ih =>
    obtain ⟨hledger, hadmits, hserves⟩ := ih
    obtain ⟨hafter, hno⟩ := revoked_step hledger hok hstep
    have hnone := (List.countP_singleton (p := admits (ofCapsule h))).trans
      (if_neg (ne_true_of_eq_false hno))
    have hcounts := step_counts (p := ofCapsule h) hstep
    rw [hnone] at hcounts
    refine ⟨hafter, ?_, ?_⟩
    · rw [List.countP_append, hadmits, hnone]
    · rw [List.countP_append]
      omega

/-- **A revoked capsule is let through to nobody**, from the moment its revocation is in the
ledger, whatever crashes or loses power afterwards. What is still served was let through
before. -/
theorem revoked_not_admitted {env : LedgerEnv}
    (hrun : (machine verify sign sha256).Run (Guarded lossy G) before s₀)
    (hfirm : RevocationFile.Firm lossy env)
    (hstep : step verify sign sha256 s₀ (.revoke h env) = some (.recorded, s₁))
    (hpath : (machine verify sign sha256).Path (Guarded lossy G) s₁ later s₂) :
    later.countP (admits (ofCapsule h)) = 0 ∧
      later.countP (serves (ofCapsule h)) ≤ s₀.tasks.countP (pending (ofCapsule h)) := by
  have hledger : Ledgers lossy s₀.ledger fun _ => True :=
    (counted_run (h := h) (m := 0) hrun).2.mono fun _ _ => trivial
  have hrevoked := (step_ledger (a := .revoke h env) (G := G) hledger hfirm hstep
    (fun _ hl => hl) (fun _ _ _ _ => trivial) (Q := fun l => l.isRevoked h = true) fun l l' _ ha => by
      cases ha
      exact RevocationLedger.isRevoked_revoke_self).2 trivial
  obtain ⟨-, hadmits, hserves⟩ := revoked_path hrevoked hpath
  obtain ⟨-, res, -, ⟨-, -, htasks, -⟩ | ⟨-, hstop⟩⟩ := revoke_cases hstep
  · rw [htasks, List.countP_cons, if_neg (by simp [pending])] at hserves
    exact ⟨hadmits, by omega⟩
  · exact hstop.1.elim

/-- The read let through before the revocation is served behind it, a later one is not. -/
theorem revoked_not_admitted_note : ∃ s₅ s₆ s₈ bytes,
    noteMachine.Run (Guarded False fun _ => True) noteLent s₅ ∧
      noteMachine.step s₅ revokeNote = some (.recorded, s₆) ∧
      noteMachine.Path (Guarded False fun _ => True) s₆ (noteLate bytes) s₈ ∧
      (noteLate bytes).countP (admits (ofCapsule (hex [1]))) = 0 ∧
      (noteLate bytes).countP (serves (ofCapsule (hex [1]))) = 1 ∧
      1 ≤ s₅.tasks.countP (pending (ofCapsule (hex [1]))) := by
  obtain ⟨-, s₅, s₆, s₈, bytes, -, hrun, hrevoke, hlate, -⟩ := note_runs
  have hfirm : RevocationFile.Firm False quietLedger := False.elim
  obtain ⟨hadmits, hserves⟩ := revoked_not_admitted hrun hfirm hrevoke hlate
  have hone : (noteLate bytes).countP (serves (ofCapsule (hex [1]))) = 1 := by
    have hlent : serves (ofCapsule (hex [1])) (deliverNote, .served bytes) = true :=
      decide_eq_true (rfl : noteGrant.revocationHandle = hex [1])
    have hrefused : serves (ofCapsule (hex [1])) (presentNote, .refused .revoked) = false := rfl
    rw [noteLate, List.countP_cons, List.countP_cons, hlent, hrefused]
    rfl
  exact ⟨s₅, s₆, s₈, bytes, hrun, hrevoke, hlate, hadmits, hone, hone ▸ hserves⟩

end Arlen.Capsule
