import Mathlib.Data.List.Chain
import Arlen.Forage.Store
import Arlen.Lib.Sha256

/-!
# What the store keeps

No marker stands for an object that is not there, and an object whose reference was
acknowledged stays until its owner is released: after every operation, finished, failed
or killed at any of its calls, and after every loss of power. The one condition is for
stores that may lose power: there an operation that broke off, and may have left entries
unsynced, is followed by nothing but the loss of power (`Orderly`). `gc` removes the objects no marker stands for, and only those.
-/

namespace Arlen.Forage.Store

open Arlen.Lib Crash

variable {lossy : Prop} {sha256 : Bytes → Digest} {G : ContentHash → Prop}
  {R R' : ContentHash → Owner → Prop} {d d' : Vol} {env : Env} {hash h : ContentHash}
  {owner o : Owner} {k q : Loc} {bytes : Bytes}

/-! ## The invariant -/

/-- What an object may be: a file that is on the medium and, where `G` says so, has the
bytes it is named for. -/
def Proper (sha256 : Bytes → Digest) (G : ContentHash → Prop) (h : ContentHash) (n : Node) : Prop :=
  ∃ c, n = .file c true ∧ (G h → ContentHash.of sha256 c = h)

/-- `R` are the references that were acknowledged. -/
structure Sound (lossy : Prop) (sha256 : Bytes → Digest) (G : ContentHash → Prop)
    (R : ContentHash → Owner → Prop) (d : Vol) : Prop where
  object : ∀ h, d.Always lossy (.object h) (Proper sha256 G h)
  shard : ∀ ab, d.Always lossy (.shard ab) (· = .dir)
  refs : ∀ h, d.Always lossy (.refs h) (· = .dir)
  shelved : ∀ h, d.live (.object h) ≠ none → d.live (.shard h.shard) ≠ none
  filed : ∀ h o, d.live (.marker h o) ≠ none → d.live (.refs h) ≠ none
  guarded : ∀ h o, ¬ d.Gone lossy (.marker h o) →
    d.Stays lossy (.object h) ∧ d.Stays lossy (.shard h.shard)
  rooted : ∀ h o, R h o → d.Stays lossy (.marker h o) ∧ d.Stays lossy (.refs h)

/-- An entry the next operation may rely on: what is there stays, and a marker that is
not there is gone. -/
def Calm (lossy : Prop) (d : Vol) : Loc → Prop
  | .temp _ _ _ _ => True
  | .marker h o => d.live (.marker h o) = none → d.Gone lossy (.marker h o)
  | k => d.live k ≠ none → d.Stays lossy k

/-- No entry was left unsynced. -/
def Settled (lossy : Prop) (d : Vol) : Prop := ∀ k, Calm lossy d k

/-- Where power is not lost every store is settled. -/
theorem settled_of_not_lossy (hl : ¬ lossy) (d : Vol) : Settled lossy d := by
  intro k
  cases k with
  | temp => trivial
  | marker => exact fun h => ⟨h, fun hlossy => absurd hlossy hl⟩
  | _ => exact fun h => ⟨h, fun hlossy => absurd hlossy hl⟩

/-- All entries but one are as before. -/
def Agree (d d' : Vol) (k : Loc) : Prop := ∀ q, q ≠ k → d'.live q = d.live q ∧ d'.old q = d.old q

theorem agree_set (d : Vol) (k : Loc) (v : Option Node) : Agree d (d.set k v) k :=
  fun _ hq => ⟨Disk.live_set_of_ne hq, Disk.old_set_of_ne hq⟩

theorem agree_alter (d : Vol) (k : Loc) (f : Node → Node) : Agree d (d.alter k f) k :=
  fun _ hq => ⟨Disk.live_alter_of_ne hq, Disk.old_alter⟩

section Frame

variable (ha : Agree d d' k)

include ha

theorem Agree.live (hq : q ≠ k) : d'.live q = d.live q := (ha q hq).1

theorem Agree.stays (hq : q ≠ k) : d'.Stays lossy q ↔ d.Stays lossy q := by
  unfold Disk.Stays
  rw [(ha q hq).1, (ha q hq).2]

theorem Agree.gone (hq : q ≠ k) : d'.Gone lossy q ↔ d.Gone lossy q := by
  unfold Disk.Gone
  rw [(ha q hq).1, (ha q hq).2]

theorem Agree.always {P : Node → Prop} (hq : q ≠ k) :
    d'.Always lossy q P ↔ d.Always lossy q P := by
  unfold Disk.Always
  rw [(ha q hq).1, (ha q hq).2]

theorem Agree.calm (hq : q ≠ k) : Calm lossy d' q ↔ Calm lossy d q := by
  cases q with
  | temp => exact Iff.rfl
  | marker => simp only [Calm, ha.live hq, ha.gone hq]
  | _ => simp only [Calm, ha.live hq, ha.stays hq]

end Frame

/-- What a change of one entry has to see to. -/
def Allows (lossy : Prop) (sha256 : Bytes → Digest) (G : ContentHash → Prop)
    (R : ContentHash → Owner → Prop) (d d' : Vol) : Loc → Prop
  | .shard ab => d'.Always lossy (.shard ab) (· = .dir) ∧
      (d.live (.shard ab) ≠ none → d'.live (.shard ab) ≠ none) ∧
      (d.Stays lossy (.shard ab) → d'.Stays lossy (.shard ab))
  | .object h => d'.Always lossy (.object h) (Proper sha256 G h) ∧
      (d'.live (.object h) ≠ none → d.live (.shard h.shard) ≠ none) ∧
      ((∃ o, ¬ d.Gone lossy (.marker h o)) → d'.Stays lossy (.object h))
  | .temp _ _ _ _ => True
  | .refs h => d'.Always lossy (.refs h) (· = .dir) ∧
      ((∃ o, d.live (.marker h o) ≠ none) → d'.live (.refs h) ≠ none) ∧
      ((∃ o, R h o) → d'.Stays lossy (.refs h))
  | .marker h o => (d'.live (.marker h o) ≠ none → d.live (.refs h) ≠ none) ∧
      (¬ d'.Gone lossy (.marker h o) → d.Stays lossy (.object h) ∧ d.Stays lossy (.shard h.shard)) ∧
      (R h o → d'.Stays lossy (.marker h o))

/-- **A change of one entry.** -/
theorem Sound.change (hs : Sound lossy sha256 G R d) (ha : Agree d d' k)
    (hk : Allows lossy sha256 G R d d' k) : Sound lossy sha256 G R d' where
  object h := by
    by_cases heq : Loc.object h = k
    · subst heq
      exact hk.1
    · exact (ha.always heq).2 (hs.object h)
  shard ab := by
    by_cases heq : Loc.shard ab = k
    · subst heq
      exact hk.1
    · exact (ha.always heq).2 (hs.shard ab)
  refs h := by
    by_cases heq : Loc.refs h = k
    · subst heq
      exact hk.1
    · exact (ha.always heq).2 (hs.refs h)
  shelved h hlive := by
    by_cases hobject : Loc.object h = k
    · subst hobject
      rw [ha.live (by simp)]
      exact hk.2.1 hlive
    · rw [ha.live hobject] at hlive
      by_cases hshard : Loc.shard h.shard = k
      · subst hshard
        exact hk.2.1 (hs.shelved h hlive)
      · rw [ha.live hshard]
        exact hs.shelved h hlive
  filed h o hlive := by
    by_cases hmarker : Loc.marker h o = k
    · subst hmarker
      rw [ha.live (by simp)]
      exact hk.1 hlive
    · rw [ha.live hmarker] at hlive
      by_cases hrefs : Loc.refs h = k
      · subst hrefs
        exact hk.2.1 ⟨o, hlive⟩
      · rw [ha.live hrefs]
        exact hs.filed h o hlive
  guarded h o hgone := by
    by_cases hmarker : Loc.marker h o = k
    · subst hmarker
      rw [ha.stays (by simp), ha.stays (by simp)]
      exact hk.2.1 hgone
    · rw [ha.gone hmarker] at hgone
      obtain ⟨hobject, hshard⟩ := hs.guarded h o hgone
      constructor
      · by_cases heq : Loc.object h = k
        · subst heq
          exact hk.2.2 ⟨o, hgone⟩
        · exact (ha.stays heq).2 hobject
      · by_cases heq : Loc.shard h.shard = k
        · subst heq
          exact hk.2.2 hshard
        · exact (ha.stays heq).2 hshard
  rooted h o hR := by
    obtain ⟨hmarker, hrefs⟩ := hs.rooted h o hR
    constructor
    · by_cases heq : Loc.marker h o = k
      · subst heq
        exact hk.2.2 hR
      · exact (ha.stays heq).2 hmarker
    · by_cases heq : Loc.refs h = k
      · subst heq
        exact hk.2.2 ⟨o, hR⟩
      · exact (ha.stays heq).2 hrefs

theorem Settled.change (hs : Settled lossy d) (ha : Agree d d' k) (hk : Calm lossy d' k) :
    Settled lossy d' := by
  intro q
  by_cases hq : q = k
  · subst hq
    exact hk
  · exact (ha.calm hq).2 (hs q)

/-- Fewer references. -/
theorem Sound.mono (hs : Sound lossy sha256 G R d) (hR : ∀ h o, R' h o → R h o) :
    Sound lossy sha256 G R' d :=
  { hs with rooted := fun h o hr => hs.rooted h o (hR h o hr) }

theorem Sound.sync (hs : Sound lossy sha256 G R d) (D : Dir) :
    Sound lossy sha256 G R (d.sync D.inside) where
  object h := (hs.object h).sync
  shard ab := (hs.shard ab).sync
  refs h := (hs.refs h).sync
  shelved := hs.shelved
  filed := hs.filed
  guarded h o hgone :=
    have h := hs.guarded h o fun hg => hgone hg.sync
    ⟨h.1.sync, h.2.sync⟩
  rooted h o hR := ⟨(hs.rooted h o hR).1.sync, (hs.rooted h o hR).2.sync⟩

theorem Calm.sync (hk : Calm lossy d k) (D : Dir) : Calm lossy (d.sync D.inside) k := by
  cases k with
  | temp => trivial
  | marker => exact fun h => (hk h).sync
  | _ => exact fun h => (hk h).sync

theorem calm_sync_of_dir (d : Vol) (k : Loc) : Calm lossy (d.sync k.dir.inside) k := by
  have hin : k.dir.inside k = true := decide_eq_true rfl
  cases k with
  | temp => trivial
  | marker => exact fun h => Disk.gone_sync_of_inside hin h
  | _ => exact fun h => Disk.stays_sync_of_inside hin h

/-- **Syncing the one directory that was changed.** -/
theorem settled_sync (hs : ∀ q, q ≠ k → Calm lossy d q) : Settled lossy (d.sync k.dir.inside) := by
  intro q
  by_cases hq : q = k
  · subst hq
    exact calm_sync_of_dir d q
  · exact (hs q hq).sync _

theorem Settled.sync (hs : Settled lossy d) (D : Dir) : Settled lossy (d.sync D.inside) :=
  fun k => (hs k).sync D

/-! ## What each change does to it -/

theorem Sound.setTemp (hs : Sound lossy sha256 G R d) (env : Env) (hash : ContentHash)
    (v : Option Node) : Sound lossy sha256 G R (d.set (tempLoc env hash) v) :=
  hs.change (agree_set d _ v) trivial

theorem Sound.alterTemp (hs : Sound lossy sha256 G R d) (env : Env) (hash : ContentHash)
    (f : Node → Node) : Sound lossy sha256 G R (d.alter (tempLoc env hash) f) :=
  hs.change (agree_alter d _ f) trivial

theorem Settled.setTemp (hs : Settled lossy d) (env : Env) (hash : ContentHash)
    (v : Option Node) : Settled lossy (d.set (tempLoc env hash) v) :=
  hs.change (agree_set d _ v) trivial

theorem Settled.alterTemp (hs : Settled lossy d) (env : Env) (hash : ContentHash)
    (f : Node → Node) : Settled lossy (d.alter (tempLoc env hash) f) :=
  hs.change (agree_alter d _ f) trivial

theorem Sound.mkShard (hs : Sound lossy sha256 G R d) (ab : List Char) :
    Sound lossy sha256 G R (d.set (.shard ab) (some .dir)) := by
  refine hs.change (agree_set d _ _) ⟨(hs.shard ab).set fun b hb => (Option.some.inj hb).symm, ?_, ?_⟩
  · intro _
    rw [Disk.live_set_self]
    exact Option.some_ne_none _
  · exact Disk.Stays.set

theorem Sound.mkRefs (hs : Sound lossy sha256 G R d) (h : ContentHash) :
    Sound lossy sha256 G R (d.set (.refs h) (some .dir)) := by
  refine hs.change (agree_set d _ _) ⟨(hs.refs h).set fun b hb => (Option.some.inj hb).symm, ?_, ?_⟩
  · intro _
    rw [Disk.live_set_self]
    exact Option.some_ne_none _
  · rintro ⟨o, hR⟩
    exact (hs.rooted h o hR).2.set

/-- An object is put in its place. -/
theorem Sound.place (hs : Sound lossy sha256 G R d) {n : Node} (hn : Proper sha256 G h n)
    (hshard : d.live (.shard h.shard) ≠ none) :
    Sound lossy sha256 G R (d.set (.object h) (some n)) := by
  refine hs.change (agree_set d _ _) ⟨(hs.object h).set fun b hb => Option.some.inj hb ▸ hn,
    fun _ => hshard, ?_⟩
  rintro ⟨o, ho⟩
  exact (hs.guarded h o ho).1.set

/-- A marker is made for an object that stays. -/
theorem Sound.mark (hs : Sound lossy sha256 G R d) (n : Node)
    (hobject : d.Stays lossy (.object h)) (hshard : d.Stays lossy (.shard h.shard))
    (hrefs : d.live (.refs h) ≠ none) :
    Sound lossy sha256 G R (d.set (.marker h o) (some n)) :=
  hs.change (agree_set d _ _) ⟨fun _ => hrefs, fun _ => ⟨hobject, hshard⟩,
    fun hR => (hs.rooted h o hR).1.set⟩

theorem Sound.alterMarker (hs : Sound lossy sha256 G R d) (f : Node → Node) :
    Sound lossy sha256 G R (d.alter (.marker h o) f) := by
  refine hs.change (agree_alter d _ f) ⟨fun hlive => hs.filed h o ?_, fun hgone => hs.guarded h o ?_,
    fun hR => Disk.stays_alter.2 (hs.rooted h o hR).1⟩
  · rw [Disk.live_alter_self] at hlive
    exact fun hnone => hlive (by rw [hnone, Option.map_none])
  · rwa [Disk.gone_alter] at hgone

/-- A marker is removed that was not acknowledged, or not any more. -/
theorem Sound.unmark (hs : Sound lossy sha256 G R d) (hR : ¬ R h o) (hgone : ¬ d.Gone lossy (.marker h o)) :
    Sound lossy sha256 G R (d.set (.marker h o) none) := by
  refine hs.change (agree_set d _ _) ⟨fun hlive => ?_, fun _ => hs.guarded h o hgone,
    fun hr => absurd hr hR⟩
  rw [Disk.live_set_self] at hlive
  exact absurd rfl hlive

/-- An object no marker stands for is removed. -/
theorem Sound.collect (hs : Sound lossy sha256 G R d) (hno : ∀ o, d.Gone lossy (.marker h o)) :
    Sound lossy sha256 G R (d.set (.object h) none) := by
  refine hs.change (agree_set d _ _) ⟨(hs.object h).set nofun, fun hlive => ?_, ?_⟩
  · rw [Disk.live_set_self] at hlive
    exact absurd rfl hlive
  · rintro ⟨o, ho⟩
    exact absurd (hno o) ho

/-- So is the directory of its markers. -/
theorem Sound.rmRefs (hs : Sound lossy sha256 G R d) (hno : ∀ o, d.live (.marker h o) = none) :
    Sound lossy sha256 G R (d.set (.refs h) none) := by
  refine hs.change (agree_set d _ _) ⟨(hs.refs h).set nofun, ?_, ?_⟩
  · rintro ⟨o, ho⟩
    exact absurd (hno o) ho
  · rintro ⟨o, hR⟩
    exact absurd (hno o) (hs.rooted h o hR).1.1

theorem Sound.damage (hs : Sound lossy sha256 G R d) (hG : ¬ G h) (content : Bytes) :
    Sound lossy sha256 G R (Vol.damage d h content) := by
  refine hs.change (agree_alter d _ _) ⟨?_, fun hlive => hs.shelved h ?_, fun hmarker => ?_⟩
  · rintro b (hb | ⟨hl, hb⟩)
    · unfold Vol.damage at hb
      rw [Disk.live_alter_self, Option.map_eq_some_iff] at hb
      obtain ⟨n, hn, rfl⟩ := hb
      obtain ⟨c, rfl, -⟩ := hs.object h n (.inl hn)
      exact ⟨content, rfl, fun hg => absurd hg hG⟩
    · exact hs.object h b (.inr ⟨hl, hb⟩)
  · unfold Vol.damage at hlive
    rw [Disk.live_alter_self] at hlive
    exact fun hnone => hlive (by rw [hnone, Option.map_none])
  · obtain ⟨o, ho⟩ := hmarker
    exact Disk.stays_alter.2 (hs.guarded h o ho).1

theorem Settled.damage (hs : Settled lossy d) (content : Bytes) :
    Settled lossy (Vol.damage d h content) := by
  refine hs.change (agree_alter d _ _) fun hlive => Disk.stays_alter.2 (hs (.object h) ?_)
  unfold Vol.damage at hlive
  rw [Disk.live_alter_self] at hlive
  exact fun hnone => hlive (by rw [hnone, Option.map_none])

variable {found : Loc → Nat} {garbage : Loc → Bytes}

/-- **Power is lost.** -/
theorem Sound.lose (hl : lossy) (hs : Sound lossy sha256 G R d) :
    Sound lossy sha256 G R (Vol.lose d found garbage) where
  object h := (hs.object h).lose hl fun b hb => by
    obtain ⟨c, rfl, hc⟩ := hb
    exact ⟨c, rfl, hc⟩
  shard ab := (hs.shard ab).lose hl fun b hb => by rw [hb]; rfl
  refs h := (hs.refs h).lose hl fun b hb => by rw [hb]; rfl
  shelved h hlive := by
    obtain ⟨b, hb⟩ := Option.ne_none_iff_exists'.1 hlive
    obtain ⟨habove, -⟩ := Disk.pick_of_live_lose hb
    have hp := habove (.shard h.shard) (by simp [Loc.above, Loc.dir, Dir.loc])
    unfold Vol.lose
    rw [Disk.live_lose, if_pos (by simp [Loc.above, Loc.dir, Dir.loc])]
    simpa using hp
  filed h o hlive := by
    obtain ⟨b, hb⟩ := Option.ne_none_iff_exists'.1 hlive
    obtain ⟨habove, -⟩ := Disk.pick_of_live_lose hb
    have hp := habove (.refs h) (by simp [Loc.above, Loc.dir, Dir.loc])
    unfold Vol.lose
    rw [Disk.live_lose, if_pos (by simp [Loc.above, Loc.dir, Dir.loc])]
    simpa using hp
  guarded h o hgone := by
    obtain ⟨hobject, hshard⟩ := hs.guarded h o fun hg => hgone (hg.lose hl)
    refine ⟨hobject.lose hl fun q hq => ?_, hshard.lose hl fun q hq => ?_⟩
    · simp only [Loc.above, Loc.dir, Dir.loc, Option.toList_some, List.mem_singleton] at hq
      exact hq ▸ hshard
    · simp [Loc.above, Loc.dir, Dir.loc] at hq
  rooted h o hR := by
    obtain ⟨hmarker, hrefs⟩ := hs.rooted h o hR
    refine ⟨hmarker.lose hl fun q hq => ?_, hrefs.lose hl fun q hq => ?_⟩
    · simp only [Loc.above, Loc.dir, Dir.loc, Option.toList_some, List.mem_singleton] at hq
      exact hq ▸ hrefs
    · simp [Loc.above, Loc.dir, Dir.loc] at hq

theorem settled_empty : Settled lossy Disk.empty := by
  intro k
  cases k with
  | temp => trivial
  | marker => exact fun _ => ⟨rfl, fun _ => nofun⟩
  | _ => exact fun h => absurd rfl h

theorem settled_lose (d : Vol) (found : Loc → Nat) (garbage : Loc → Bytes) :
    Settled lossy (Vol.lose d found garbage) := by
  intro k
  cases k with
  | temp => trivial
  | marker => exact fun h => ⟨h, fun _ => nofun⟩
  | _ => exact fun h => ⟨h, fun _ => nofun⟩

/-! ## How operations end -/

section Rules

variable {α : Type} {ok : α → Vol → Prop} {err : Vol → Prop}

theorem does_call {f : Vol → Except IoError (α × Vol)} {part : Nat → Vol → Vol}
    (hpart : ∀ n, err (part n d)) (herr : err d) :
    Does (call env f part) d (fun a d' => f d = .ok (a, d')) err := by
  refine (Crash.does_call (fun _ => hpart) fun _ _ => herr).mono (fun a d' h => ?_) fun _ h => h
  cases hf : f d with
  | error e =>
    rw [hf] at h
    cases h
  | ok r =>
    rw [hf] at h
    cases h
    rfl

theorem does_look (f : Vol → Except IoError α) :
    Does (look env f) d (fun a d' => f d = .ok a ∧ d' = d) (· = d) := by
  refine (does_call (fun _ => rfl) rfl).mono (fun a d' h => ?_) fun _ h => h.symm
  cases hf : f d with
  | error e =>
    rw [hf] at h
    cases h
  | ok b =>
    rw [hf] at h
    cases h
    exact ⟨rfl, rfl⟩

theorem does_change (f : Vol → Except IoError Vol) :
    Does (change env f) d (fun _ d' => f d = .ok d') (· = d) := by
  refine (does_call (fun _ => rfl) rfl).mono (fun a d' h => ?_) fun _ h => h.symm
  cases hf : f d with
  | error e =>
    rw [hf] at h
    cases h
  | ok b =>
    rw [hf] at h
    cases h
    rfl

end Rules

/-! ### Calls -/

theorem does_pathExists : Does (pathExists env k) d
    (fun b d' => (b = true → d.live k ≠ none) ∧ d' = d) (· = d) := by
  refine Does.recover (M := (· = d)) ((does_look _).mono ?_ fun _ h => h) (fun _ h => h) ?_
  · rintro b d' ⟨hb, rfl⟩
    refine ⟨fun hb' => ?_, rfl⟩
    cases hb
    exact Option.isSome_iff_ne_none.1 hb'
  · rintro e d' rfl
    exact Does.pure ⟨nofun, rfl⟩

theorem does_isDir : Does (isDir env k) d
    (fun b d' => (b = true → d.live k = some .dir) ∧ d' = d) (· = d) := by
  refine Does.recover (M := (· = d)) ((does_look _).mono ?_ fun _ h => h) (fun _ h => h) ?_
  · rintro b d' ⟨hb, rfl⟩
    refine ⟨fun hb' => ?_, rfl⟩
    cases hb
    exact of_decide_eq_true hb'
  · rintro e d' rfl
    exact Does.pure ⟨nofun, rfl⟩

theorem does_createDirAll : Does (createDirAll env k) d
    (fun _ d' => (d.live k = some .dir ∧ d' = d) ∨ (d.live k = none ∧ d' = d.set k (some .dir)))
    (· = d) := by
  refine Does.recover (M := (· = d)) ((does_change _).mono ?_ fun _ h => h) (fun _ h => h) ?_
  · intro _ d' h
    split_ifs at h with hlive hthere
    cases h
    exact .inr ⟨not_not.1 hlive, rfl⟩
  · rintro e d' rfl
    refine does_isDir.bind fun b d'' hb => ?_
    obtain ⟨hdir, rfl⟩ := hb
    cases b with
    | true => exact Does.pure (.inl ⟨hdir rfl, rfl⟩)
    | false => exact Does.fail rfl

theorem does_fsyncDir (D : Dir) : Does (fsyncDir env D) d
    (fun _ d' => (D.there d = true ∧ d' = d.sync D.inside) ∨ (D.there d = false ∧ d' = d))
    (· = d) := by
  refine (does_look _).bind fun b d' hb => ?_
  obtain ⟨hb, rfl⟩ := hb
  cases hb
  cases hthere : D.there d' with
  | true =>
    refine (does_change _).mono (fun _ d'' h => .inl ⟨rfl, ?_⟩) fun _ h => h
    exact (Except.ok.inj h).symm
  | false => exact Does.pure (.inr ⟨rfl, rfl⟩)

/-- Making a directory at the top durable leaves nothing unsynced. -/
theorem does_ensureDir (hs : Sound lossy sha256 G R d) (hset : Settled lossy d)
    (hmk : Sound lossy sha256 G R (d.set k (some .dir)))
    (hcalm : Calm lossy d k = (d.live k ≠ none → d.Stays lossy k)) (htop : k.dir.loc = none) :
    Does (ensureDir env k) d
      (fun _ d' => (Sound lossy sha256 G R d' ∧ Settled lossy d') ∧ d'.live k ≠ none ∧
        ∀ q, q ≠ k → d'.live q = d.live q)
      (Sound lossy sha256 G R) := by
  have hthere : ∀ d', k.dir.there d' = true := by
    intro d'
    unfold Dir.there
    rw [htop]
  refine (does_pathExists.mono (fun _ _ h => h) fun _ h => h ▸ hs).bind fun b d₁ hb => ?_
  obtain ⟨hb, rfl⟩ := hb
  refine (does_createDirAll.mono (fun _ _ h => h) fun _ h => h ▸ hs).bind fun _ d₂ hd₂ => ?_
  cases b with
  | true =>
    -- The entry was there before, and nothing an earlier operation left is relied on.
    rcases hd₂ with ⟨hdir, rfl⟩ | ⟨hnone, -⟩
    · exact Does.pure ⟨⟨hs, hset⟩, by rw [hdir]; exact Option.some_ne_none _, fun _ _ => rfl⟩
    · exact absurd hnone (hb rfl)
  | false =>
    have hmade : Sound lossy sha256 G R d₂ ∧ d₂.live k ≠ none ∧ (∀ q, q ≠ k → d₂.live q = d₁.live q) ∧
        ∀ q, q ≠ k → Calm lossy d₂ q := by
      rcases hd₂ with ⟨hdir, rfl⟩ | ⟨hnone, rfl⟩
      · exact ⟨hs, by rw [hdir]; exact Option.some_ne_none _, fun _ _ => rfl, fun q _ => hset q⟩
      · refine ⟨hmk, by rw [Disk.live_set_self]; exact Option.some_ne_none _,
          fun q hq => Disk.live_set_of_ne hq, fun q hq => ?_⟩
        exact ((agree_set d₁ k _).calm hq).2 (hset q)
    obtain ⟨hs₂, hlive, hsame, hcalms⟩ := hmade
    refine (does_fsyncDir k.dir).mono (fun _ d₃ hd₃ => ?_) fun _ h => h ▸ hs₂
    rcases hd₃ with ⟨-, rfl⟩ | ⟨hno, -⟩
    · exact ⟨⟨hs₂.sync _, settled_sync hcalms⟩, hlive, hsame⟩
    · rw [hthere] at hno
      cases hno

theorem object_ne_refs : Loc.object h ≠ .refs hash := nofun

theorem refs_ne_marker : Loc.refs h ≠ .marker hash o := nofun

/-! ### Publishing an object -/

theorem does_intact (hash : ContentHash) : Does (intact sha256 env hash) d
    (fun b d' => (b = true → d.live (.object hash) ≠ none) ∧ d' = d) (· = d) := by
  refine does_pathExists.bind fun b d' hb => ?_
  obtain ⟨hb, rfl⟩ := hb
  cases b with
  | false => exact Does.pure ⟨nofun, rfl⟩
  | true =>
    refine Does.recover (M := (· = d')) ?_ (fun _ h => h) fun e d'' h => Does.pure ⟨nofun, h⟩
    refine (does_look _).bind fun content d'' h => ?_
    exact Does.pure ⟨fun _ => hb rfl, h.2⟩

/-- The temporary file, written and synced. -/
theorem does_writeTemp (hs : Sound lossy sha256 G R d) (hset : Settled lossy d)
    (hash : ContentHash) (bytes : Bytes) :
    Does (writeTemp env hash bytes) d
      (fun _ d' => (Sound lossy sha256 G R d' ∧ Settled lossy d') ∧
        d'.live (tempLoc env hash) = some (.file bytes true) ∧
        ∀ q, q ≠ tempLoc env hash → d'.live q = d.live q)
      (Sound lossy sha256 G R) := by
  refine ((does_change _).mono (fun _ _ h => h) fun _ h => h ▸ hs).bind fun _ d₁ h₁ => ?_
  split_ifs at h₁
  cases h₁
  have hs₁ := hs.setTemp env hash (some (.file [] false))
  refine (does_call (fun n => hs₁.alterTemp env hash _) hs₁).bind fun _ d₂ h₂ => ?_
  cases h₂
  have hs₂ := hs₁.alterTemp env hash fun _ => .file bytes false
  refine (does_change _).mono (fun _ d₃ h₃ => ?_) fun _ h => h ▸ hs₂
  cases h₃
  refine ⟨⟨hs₂.alterTemp env hash _, ?_⟩, ?_, fun q hq => ?_⟩
  · exact ((hset.setTemp env hash _).alterTemp env hash _).alterTemp env hash _
  · rw [Disk.live_alter_self, Disk.live_alter_self, Disk.live_set_self]
    rfl
  · rw [Disk.live_alter_of_ne hq, Disk.live_alter_of_ne hq, Disk.live_set_of_ne hq]

/-- The object takes the temporary file's place; a failing rename has the file removed. -/
theorem does_renameTemp (hs : Sound lossy sha256 G R d) (hset : Settled lossy d)
    (hbytes : ContentHash.of sha256 bytes = hash)
    (htemp : d.live (tempLoc env hash) = some (.file bytes true))
    (hshard : d.live (.shard hash.shard) ≠ none) :
    Does (renameTemp env hash) d
      (fun _ d' => Sound lossy sha256 G R d' ∧ (∀ q, q ≠ .object hash → Calm lossy d' q) ∧
        d'.live (.object hash) ≠ none ∧ d'.live (.shard hash.shard) ≠ none)
      (Sound lossy sha256 G R) := by
  have hs' := hs.setTemp env hash none
  have hset' := hset.setTemp env hash none
  have hne : Loc.shard hash.shard ≠ tempLoc env hash := nofun
  have hne' : Loc.shard hash.shard ≠ .object hash := nofun
  have hshard' : (d.set (tempLoc env hash) none).live (.shard hash.shard) ≠ none := by
    rwa [Disk.live_set_of_ne hne]
  refine Does.recover (M := (· = d)) ((does_change _).mono (fun _ d₁ h₁ => ?_) fun _ h => h)
    (fun _ h => h ▸ hs) fun e d₁ h₁ => ?_
  · rw [htemp] at h₁
    dsimp only at h₁
    split_ifs at h₁
    cases h₁
    refine ⟨hs'.place ⟨bytes, rfl, fun _ => hbytes⟩ hshard', fun q hq => ?_, ?_, ?_⟩
    · exact ((agree_set _ _ _).calm hq).2 (hset' q)
    · rw [Disk.live_set_self]
      exact Option.some_ne_none _
    · rwa [Disk.live_set_of_ne hne']
  · rw [h₁]
    refine Does.bind (M := fun _ => Sound lossy sha256 G R) (Does.ignore ?_) fun _ _ h => Does.fail h
    refine (does_change _).mono (fun _ d₂ h₂ => ?_) fun _ h => h ▸ hs
    rw [htemp] at h₂
    cases h₂
    exact hs'

theorem inside_dir (k : Loc) : k.dir.inside k = true := decide_eq_true rfl

/-- A shard that is there is a directory. -/
theorem Sound.there_shard (hs : Sound lossy sha256 G R d) {ab : List Char}
    (h : d.live (.shard ab) ≠ none) : (Dir.shard ab).there d = true := by
  obtain ⟨n, hn⟩ := Option.ne_none_iff_exists'.1 h
  have hdir : n = .dir := hs.shard ab n (.inl hn)
  exact decide_eq_true (hdir ▸ hn)

theorem Sound.there_refs (hs : Sound lossy sha256 G R d) (h : d.live (.refs hash) ≠ none) :
    (Dir.refs hash).there d = true := by
  obtain ⟨n, hn⟩ := Option.ne_none_iff_exists'.1 h
  have hdir : n = .dir := hs.refs hash n (.inl hn)
  exact decide_eq_true (hdir ▸ hn)

/-- **An object is published whole or not at all.** -/
theorem does_publish (hs : Sound lossy sha256 G R d) (hset : Settled lossy d)
    (hbytes : ContentHash.of sha256 bytes = hash) :
    Does (publish env hash bytes) d
      (fun _ d' => (Sound lossy sha256 G R d' ∧ Settled lossy d') ∧ d'.live (.object hash) ≠ none)
      (Sound lossy sha256 G R) := by
  refine (does_ensureDir hs hset (hs.mkShard _) rfl rfl).bind fun _ d₁ h₁ => ?_
  obtain ⟨⟨hs₁, hset₁⟩, hshard, -⟩ := h₁
  refine (does_writeTemp hs₁ hset₁ hash bytes).bind fun _ d₂ h₂ => ?_
  obtain ⟨⟨hs₂, hset₂⟩, htemp, hsame⟩ := h₂
  have hne : Loc.shard hash.shard ≠ tempLoc env hash := nofun
  rw [← hsame _ hne] at hshard
  refine (does_renameTemp hs₂ hset₂ hbytes htemp hshard).bind fun _ d₃ h₃ => ?_
  obtain ⟨hs₃, hcalm, hobject, hshard₃⟩ := h₃
  refine (does_fsyncDir _).mono (fun _ d₄ h₄ => ?_) fun _ h => h ▸ hs₃
  rcases h₄ with ⟨-, rfl⟩ | ⟨hno, -⟩
  · exact ⟨⟨hs₃.sync _, settled_sync hcalm⟩, hobject⟩
  · rw [hs₃.there_shard hshard₃] at hno
    cases hno

theorem does_writeObject (hs : Sound lossy sha256 G R d) (hset : Settled lossy d)
    (hbytes : ContentHash.of sha256 bytes = hash) :
    Does (writeObjectUnlocked sha256 env hash bytes) d
      (fun _ d' => (Sound lossy sha256 G R d' ∧ Settled lossy d') ∧ d'.live (.object hash) ≠ none)
      (Sound lossy sha256 G R) := by
  refine ((does_intact hash).mono (fun _ _ h => h) fun _ h => h ▸ hs).bind fun b d₁ hb => ?_
  obtain ⟨hb, rfl⟩ := hb
  cases b with
  | true => exact Does.pure ⟨⟨hs, hset⟩, hb rfl⟩
  | false => exact does_publish hs hset hbytes

/-! ### References -/

/-- The references with one more. -/
def With (R : ContentHash → Owner → Prop) (hash : ContentHash) (owner : Owner)
    (h : ContentHash) (o : Owner) : Prop :=
  R h o ∨ (h = hash ∧ o = owner)

/-- The references of the other owners. -/
def Without (R : ContentHash → Owner → Prop) (owner : Owner) (h : ContentHash) (o : Owner) : Prop :=
  R h o ∧ o ≠ owner

/-- The marker of an object that stays. -/
theorem does_mark (hs : Sound lossy sha256 G R d) (hset : Settled lossy d)
    (hobject : d.live (.object hash) ≠ none) (hrefs : d.live (.refs hash) ≠ none) :
    Does (createFile env (.marker hash owner)) d
      (fun _ d' => Sound lossy sha256 G R d' ∧ Settled lossy d' ∧
        d'.live (.marker hash owner) ≠ none ∧ d'.live (.refs hash) ≠ none)
      (Sound lossy sha256 G R) := by
  refine (does_change _).mono (fun _ d' h => ?_) fun _ h => h ▸ hs
  split at h
  · next heq =>
    cases h
    refine ⟨hs.alterMarker _, hset.change (agree_alter _ _ _) fun hnone => ?_, ?_, ?_⟩
    · rw [Disk.live_alter_self, heq] at hnone
      cases hnone
    · rw [Disk.live_alter_self, heq]
      exact Option.some_ne_none _
    · rwa [Disk.live_alter_of_ne refs_ne_marker]
  · cases h
  · split_ifs at h
    cases h
    refine ⟨hs.mark _ (hset (.object hash) hobject)
        (hset (.shard hash.shard) (hs.shelved _ hobject)) hrefs,
      hset.change (agree_set _ _ _) fun hnone => ?_, ?_, ?_⟩
    · rw [Disk.live_set_self] at hnone
      cases hnone
    · rw [Disk.live_set_self]
      exact Option.some_ne_none _
    · rwa [Disk.live_set_of_ne refs_ne_marker]

/-- **A reference that is acknowledged is on the medium.** -/
theorem does_addRefUnlocked (hs : Sound lossy sha256 G R d) (hset : Settled lossy d) :
    Does (addRefUnlocked env hash owner) d
      (fun _ d' => Sound lossy sha256 G (With R hash owner) d' ∧ Settled lossy d')
      (Sound lossy sha256 G R) := by
  refine (does_pathExists.mono (fun _ _ h => h) fun _ h => h ▸ hs).bind fun b d₁ hb => ?_
  obtain ⟨hb, rfl⟩ := hb
  cases b with
  | false => exact Does.fail hs
  | true =>
    refine (does_ensureDir hs hset (hs.mkRefs _) rfl rfl).bind fun _ d₂ h₂ => ?_
    obtain ⟨⟨hs₂, hset₂⟩, hrefs₂, hsame⟩ := h₂
    have hobject₂ : d₂.live (.object hash) ≠ none := by
      rw [hsame _ object_ne_refs]
      exact hb rfl
    refine (does_mark hs₂ hset₂ hobject₂ hrefs₂).bind fun _ d₃ h₃ => ?_
    obtain ⟨hs₃, hset₃, hmarker₃, hrefs₃⟩ := h₃
    refine ((does_change _).mono (fun _ _ h => h) fun _ h => h ▸ hs₃).bind fun _ d₄ h₄ => ?_
    cases h₄
    have hmarker₄ : (d₃.alter (.marker hash owner) Node.sync).live (.marker hash owner) ≠ none := by
      rw [Disk.live_alter_self]
      simpa using hmarker₃
    have hrefs₄ : (d₃.alter (.marker hash owner) Node.sync).live (.refs hash) ≠ none := by
      rwa [Disk.live_alter_of_ne refs_ne_marker]
    have hset₄ : Settled lossy (d₃.alter (.marker hash owner) Node.sync) :=
      hset₃.change (agree_alter _ _ _) fun hnone => absurd hnone hmarker₄
    have hs₄ := hs₃.alterMarker (h := hash) (o := owner) Node.sync
    refine (does_fsyncDir _).mono (fun _ d₅ h₅ => ?_) fun _ h => h ▸ hs₄
    rcases h₅ with ⟨-, rfl⟩ | ⟨hno, -⟩
    · refine ⟨{ hs₄.sync _ with rooted := ?_ }, hset₄.sync _⟩
      rintro h o (hR | ⟨rfl, rfl⟩)
      · exact (hs₄.sync _).rooted h o hR
      · exact ⟨Disk.stays_sync_of_inside (inside_dir (.marker h o)) hmarker₄,
          (hset₄ (.refs h) hrefs₄).sync⟩
    · rw [hs₄.there_refs hrefs₄] at hno
      cases hno

/-- **No entry, no marker.** -/
theorem does_refcountUnlocked (hs : Sound lossy sha256 G R d) : Does (refcountUnlocked env hash) d
    (fun n d' => (n = 0 ↔ ∀ o, d.live (.marker hash o) = none) ∧ d' = d) (· = d) := by
  have hforEach : ∀ l : List Loc, Does (Action.forEach l fun _ => nextEntry env) d
      (fun _ d' => d' = d) (· = d) := by
    intro l
    induction l with
    | nil => exact Does.pure rfl
    | cons a l ih =>
      refine (does_look _).bind fun _ d₁ h₁ => ?_
      obtain ⟨-, rfl⟩ := h₁
      exact ih
  refine (does_look _).bind fun entries d₁ h₁ => ?_
  obtain ⟨hentries, rfl⟩ := h₁
  refine (hforEach entries).bind fun _ d₂ h₂ => Does.pure ⟨?_, h₂⟩
  rw [List.length_eq_zero_iff]
  split at hentries
  · next hdir =>
    cases hentries
    rw [← List.length_eq_zero_iff, (env.perm _).length_eq, List.length_eq_zero_iff,
      List.eq_nil_iff_forall_not_mem]
    refine ⟨fun hno o => ?_, fun hno k hk => ?_⟩
    · by_contra hlive
      exact hno _ (Disk.mem_listed.2 ⟨inside_dir (.marker hash o), hlive⟩)
    · obtain ⟨hin, hlive⟩ := Disk.mem_listed.1 hk
      have hdir : k.dir = .refs hash := of_decide_eq_true hin
      cases k with
      | marker h o =>
        cases hdir
        exact hlive (hno o)
      | _ => cases hdir
  · cases hentries
  · next hnone =>
    cases hentries
    refine iff_of_true rfl fun o => ?_
    by_contra hlive
    exact hs.filed hash o hlive hnone

/-! ### The operations -/

theorem does_lock : Does (lock env) d (fun _ d' => d' = d) (· = d) := by
  refine (does_look _).bind fun _ d₁ h₁ => ?_
  obtain ⟨-, rfl⟩ := h₁
  exact (does_look _).mono (fun _ _ h => h.2) fun _ h => h

/-- What an owner's reference to an object, if one was asked for, adds. -/
def WithOwner (R : ContentHash → Owner → Prop) (hash : ContentHash) :
    Option Owner → ContentHash → Owner → Prop
  | some owner => With R hash owner
  | none => R

theorem does_putInner (hs : Sound lossy sha256 G R d) (hset : Settled lossy d)
    {expected : Option ContentHash} {owner : Option Owner} :
    Does (putInner sha256 env bytes expected owner) d
      (fun hash d' => Sound lossy sha256 G (WithOwner R hash owner) d' ∧ Settled lossy d')
      (Sound lossy sha256 G R) := by
  refine ((does_orStop _).mono (fun _ _ h => h.2) fun _ h => h ▸ hs).bind fun _ d₁ h₁ => ?_
  subst h₁
  refine ((does_orStop _).mono (fun _ _ h => h.2) fun _ h => h ▸ hs).bind fun _ d₂ h₂ => ?_
  subst h₂
  refine (does_lock.mono (fun _ _ h => h) fun _ h => h ▸ hs).bind fun _ d₃ h₃ => ?_
  subst h₃
  refine (does_writeObject hs hset rfl).bind fun _ d₄ h₄ => ?_
  obtain ⟨⟨hs₄, hset₄⟩, -⟩ := h₄
  cases owner with
  | none => exact (Does.pure ⟨hs₄, hset₄⟩).bind fun _ _ h => Does.pure h
  | some owner => exact (does_addRefUnlocked hs₄ hset₄).bind fun _ _ h => Does.pure h

/-- What is put is put under its own address. -/
theorem hash_of_putInner {expected : Option ContentHash} {owner : Option Owner}
    (h : perform (putInner sha256 env bytes expected owner) d = some (.ok hash, d')) :
    hash = ContentHash.of sha256 bytes := by
  obtain ⟨⟨res, w⟩, hrun, heq⟩ := Option.map_eq_some_iff.1 h
  cases heq
  unfold putInner at hrun
  obtain ⟨-, w₁, -, hrun⟩ := Action.bind_eq_ok hrun
  obtain ⟨-, w₂, -, hrun⟩ := Action.bind_eq_ok hrun
  obtain ⟨-, w₃, -, hrun⟩ := Action.bind_eq_ok hrun
  obtain ⟨-, w₄, -, hrun⟩ := Action.bind_eq_ok hrun
  obtain ⟨-, w₅, -, hrun⟩ := Action.bind_eq_ok hrun
  cases hrun
  rfl

theorem does_addRef (hs : Sound lossy sha256 G R d) (hset : Settled lossy d) :
    Does (addRef env hash owner) d
      (fun _ d' => Sound lossy sha256 G (With R hash owner) d' ∧ Settled lossy d')
      (Sound lossy sha256 G R) := by
  refine ((does_orStop _).mono (fun _ _ h => h.2) fun _ h => h ▸ hs).bind fun _ d₁ h₁ => ?_
  subst h₁
  refine (does_lock.mono (fun _ _ h => h) fun _ h => h ▸ hs).bind fun _ d₂ h₂ => ?_
  subst h₂
  exact does_addRefUnlocked hs hset

/-- The loop of `release`: the owner's markers go one by one. -/
theorem does_releaseIn (dirs : List Loc) (n : Nat) (hs : Sound lossy sha256 G R d)
    (hset : Settled lossy d) (hR : ∀ h, ¬ R h owner) :
    Does (releaseIn env owner dirs n) d
      (fun _ d' => Sound lossy sha256 G R d' ∧ Settled lossy d') (Sound lossy sha256 G R) := by
  induction dirs generalizing d n with
  | nil => exact Does.pure ⟨hs, hset⟩
  | cons k dirs ih =>
    cases k with
    | refs h =>
      refine ((does_look _).mono (fun _ _ h => h.2) fun _ h => h ▸ hs).bind fun _ d₁ h₁ => ?_
      subst h₁
      refine (does_pathExists.mono (fun _ _ h => h) fun _ h => h ▸ hs).bind fun b d₂ hb => ?_
      obtain ⟨hb, rfl⟩ := hb
      cases b with
      | false => exact ih n hs hset
      | true =>
        refine ((does_change _).mono (fun _ _ h => h) fun _ h => h ▸ hs).bind fun _ d₃ h₃ => ?_
        split at h₃
        · cases h₃
        · cases h₃
        · next heq =>
          cases h₃
          have hlive : d₂.live (.marker h owner) ≠ none := hb rfl
          have hs₃ := hs.unmark (hR h) fun hgone => hlive hgone.1
          have hrefs : (d₂.set (.marker h owner) none).live (.refs h) ≠ none := by
            rw [Disk.live_set_of_ne refs_ne_marker]
            exact hs.filed h owner hlive
          refine ((does_fsyncDir _).mono (fun _ _ h => h) fun _ h => h ▸ hs₃).bind fun _ d₄ h₄ => ?_
          rcases h₄ with ⟨-, rfl⟩ | ⟨hno, -⟩
          · refine ih _ (hs₃.sync _) (settled_sync (k := .marker h owner) fun q hq => ?_)
            exact ((agree_set _ _ _).calm hq).2 (hset q)
          · rw [hs₃.there_refs hrefs] at hno
            cases hno
    | _ => exact ih n hs hset

theorem does_release (hs : Sound lossy sha256 G R d) (hset : Settled lossy d) :
    Does (release env owner) d
      (fun _ d' => Sound lossy sha256 G (Without R owner) d' ∧ Settled lossy d')
      (Sound lossy sha256 G (Without R owner)) := by
  have hs' : Sound lossy sha256 G (Without R owner) d := hs.mono fun _ _ h => h.1
  refine ((does_orStop _).mono (fun _ _ h => h.2) fun _ h => h ▸ hs').bind fun _ d₁ h₁ => ?_
  subst h₁
  refine (does_lock.mono (fun _ _ h => h) fun _ h => h ▸ hs').bind fun _ d₂ h₂ => ?_
  subst h₂
  refine ((does_look _).mono (fun _ _ h => h.2) fun _ h => h ▸ hs').bind fun _ d₃ h₃ => ?_
  subst h₃
  exact does_releaseIn _ _ hs' hset fun h hR => hR.2 rfl

/-! ### Collecting -/

/-- No call breaks off. -/
def Smooth (env : Env) : Prop := Crash.Smooth env.plan

def Marked (d : Vol) (h : ContentHash) : Prop := ∃ o, d.live (.marker h o) ≠ none

/-- What a pass over `d₀` has done by now. -/
structure Swept (d₀ d : Vol) (removed : List ContentHash) : Prop where
  object : ∀ h, (d.live (.object h) = d₀.live (.object h) ∧ h ∉ removed) ∨
    (d.live (.object h) = none ∧ h ∈ removed ∧ d₀.live (.object h) ≠ none ∧ ¬ Marked d₀ h)
  marker : ∀ h o, d.live (.marker h o) = d₀.live (.marker h o)
  shard : ∀ ab, d.live (.shard ab) = d₀.live (.shard ab)
  nodup : removed.Nodup

variable {d₀ : Vol} {removed : List ContentHash}

theorem Swept.refl (d : Vol) : Swept d d [] :=
  ⟨fun _ => .inl ⟨rfl, List.not_mem_nil⟩, fun _ _ => rfl, fun _ => rfl, .nil⟩

theorem Swept.unmarked (hsw : Swept d₀ d removed) (h : ContentHash) : Marked d h ↔ Marked d₀ h := by
  unfold Marked
  simp only [hsw.marker]

/-- One more object is gone. -/
theorem Swept.collect (hsw : Swept d₀ d removed) (hlive : d.live (.object hash) ≠ none)
    (hno : ¬ Marked d hash) : Swept d₀ (d.set (.object hash) none) (removed ++ [hash]) := by
  have hfresh : d.live (.object hash) = d₀.live (.object hash) ∧ hash ∉ removed :=
    (hsw.object hash).resolve_right fun h => hlive h.1
  refine ⟨fun h => ?_, fun h o => ?_, fun ab => ?_, ?_⟩
  · by_cases heq : h = hash
    · subst heq
      refine .inr ⟨Disk.live_set_self, List.mem_append_right _ (List.mem_singleton.2 rfl), ?_, ?_⟩
      · rwa [← hfresh.1]
      · rwa [← hsw.unmarked]
    · have hne : Loc.object h ≠ .object hash := fun h => heq (by cases h; rfl)
      have hmem : h ∈ removed ++ [hash] ↔ h ∈ removed := by simp [heq]
      rw [Disk.live_set_of_ne hne, hmem]
      exact hsw.object h
  · rw [Disk.live_set_of_ne (by simp), hsw.marker]
  · rw [Disk.live_set_of_ne (by simp), hsw.shard]
  · exact List.nodup_append.2 ⟨hsw.nodup, List.nodup_singleton _, fun a ha b hb hab =>
      hfresh.2 (List.mem_singleton.1 hb ▸ hab ▸ ha)⟩

theorem Swept.rmRefs (hsw : Swept d₀ d removed) : Swept d₀ (d.set (.refs hash) none) removed := by
  refine ⟨fun h => ?_, fun h o => ?_, fun ab => ?_, hsw.nodup⟩
  · rw [Disk.live_set_of_ne (by simp)]
    exact hsw.object h
  · rw [Disk.live_set_of_ne (by simp), hsw.marker]
  · rw [Disk.live_set_of_ne (by simp), hsw.shard]

theorem Swept.sync (hsw : Swept d₀ d removed) (D : Dir) : Swept d₀ (d.sync D.inside) removed :=
  ⟨hsw.object, hsw.marker, hsw.shard, hsw.nodup⟩

/-- The state of a pass that goes on, or broke off. -/
def Sweeping (lossy : Prop) (sha256 : Bytes → Digest) (G : ContentHash → Prop)
    (R : ContentHash → Owner → Prop) (d₀ : Vol) (removed : List ContentHash) (d : Vol) : Prop :=
  (Sound lossy sha256 G R d ∧ Settled lossy d) ∧ Swept d₀ d removed

/-- An object without a marker goes, and the directory of its markers with it. -/
theorem Sweeping.collect (h : Sweeping lossy sha256 G R d₀ removed d)
    (hlive : d.live (.object hash) ≠ none) (hno : ∀ o, d.live (.marker hash o) = none) :
    Sweeping lossy sha256 G R d₀ (removed ++ [hash]) (d.set (.object hash) none) := by
  obtain ⟨⟨hs, hset⟩, hsw⟩ := h
  refine ⟨⟨hs.collect fun o => hset (.marker hash o) (hno o),
    hset.change (agree_set _ _ _) fun hl => absurd Disk.live_set_self hl⟩, hsw.collect hlive ?_⟩
  rintro ⟨o, ho⟩
  exact ho (hno o)

theorem Sweeping.rmRefs (h : Sweeping lossy sha256 G R d₀ removed d)
    (hno : ∀ o, d.live (.marker hash o) = none) :
    Sweeping lossy sha256 G R d₀ removed (d.set (.refs hash) none) :=
  ⟨⟨h.1.1.rmRefs hno, h.1.2.change (agree_set _ _ _) fun hl => absurd Disk.live_set_self hl⟩,
    h.2.rmRefs⟩

/-- Where a pass that breaks off leaves the entries. -/
def Broken (lossy : Prop) (sha256 : Bytes → Digest) (G : ContentHash → Prop)
    (R : ContentHash → Owner → Prop) (d₀ d : Vol) : Prop :=
  ∃ removed, Sweeping lossy sha256 G R d₀ removed d

/-- **The loop over the entries of a shard.** -/
theorem does_gcShard (l : List Loc) (report : GcReport)
    (h : Sweeping lossy sha256 G R d₀ report.removed d) (hl : ∀ k ∈ l, ∃ ab, k.dir = .shard ab) :
    Does (gcShard env l report) d
      (fun report' d' => Sweeping lossy sha256 G R d₀ report'.removed d' ∧
        report.removed ⊆ report'.removed ∧
        ∀ h, Loc.object h ∈ l → Marked d₀ h ∨ h ∈ report'.removed)
      (Broken lossy sha256 G R d₀) := by
  induction l generalizing d report with
  | nil => exact Does.pure ⟨h, fun _ hm => hm, nofun⟩
  | cons k l ih =>
    obtain ⟨ab, hk⟩ := hl k List.mem_cons_self
    have hl' : ∀ q ∈ l, ∃ ab, q.dir = .shard ab := fun q hq => hl q (List.mem_cons_of_mem k hq)
    refine ((does_look _).mono (fun _ _ h => h.2) fun _ e => e ▸ ⟨_, h⟩).bind fun _ d₁ h₁ => ?_
    subst h₁
    cases k with
    | temp ab p c h8 =>
      obtain ⟨e, he⟩ := parse_name_temp ab p c h8
      rw [he]
      refine (ih report h hl').mono (fun r d' hr => ⟨hr.1, hr.2.1, fun h hm => ?_⟩) fun _ h => h
      exact hr.2.2 h (by simpa using hm)
    | object hash =>
      have hparse : ContentHash.parse (Loc.object hash).name = .ok hash :=
        ContentHash.parse_digits hash
      rw [hparse]
      refine ((does_refcountUnlocked h.1.1).mono (fun _ _ h => h)
        fun _ e => e ▸ ⟨_, h⟩).bind fun n d₂ hn => ?_
      obtain ⟨hn, rfl⟩ := hn
      by_cases h0 : n = 0
      · rw [if_pos h0]
        have hno := hn.1 h0
        refine Does.bind (M := fun _ d' => d' = d₂) ?_ fun size d₃ h₃ => ?_
        · refine Does.recover (M := (· = d₂)) ((does_look _).mono (fun _ _ h => h.2) fun _ h => h)
            (fun _ e => e ▸ ⟨_, h⟩) fun _ _ hd => Does.pure hd
        subst h₃
        refine ((does_change _).mono (fun _ _ h => h) fun _ e => e ▸ ⟨_, h⟩).bind fun _ d₄ h₄ => ?_
        split at h₄
        · cases h₄
        · cases h₄
        · next heq =>
          cases h₄
          have hlive : d₃.live (.object hash) ≠ none := by
            rw [heq]
            exact Option.some_ne_none _
          have hgone := h.collect hlive hno
          have hno' : ∀ o, (d₃.set (.object hash) none).live (.marker hash o) = none := fun o => by
            rw [Disk.live_set_of_ne (by simp), hno]
          refine Does.bind (M := fun _ => Sweeping lossy sha256 G R d₀ (report.removed ++ [hash])) ?_
            fun _ d₅ h₅ => ?_
          · refine ((Does.ignore (P := Sweeping lossy sha256 G R d₀ (report.removed ++ [hash])) ?_).mono
              (fun _ _ h => h) fun _ h => ⟨_, h⟩)
            refine (does_change _).mono (fun _ d' hd' => ?_) fun _ e => e ▸ hgone
            split_ifs at hd'
            cases hd'
            exact hgone.rmRefs hno'
          · refine (ih ⟨report.removed ++ [hash], _⟩ h₅ hl').mono (fun r d' hr => ?_) fun _ h => h
            refine ⟨hr.1, fun x hx => hr.2.1 (List.mem_append_left _ hx), fun h' hm => ?_⟩
            rcases List.mem_cons.1 hm with heq' | hm
            · cases heq'
              exact .inr (hr.2.1 (List.mem_append_right _ (List.mem_singleton.2 rfl)))
            · exact hr.2.2 h' hm
      · rw [if_neg h0]
        refine (ih report h hl').mono (fun r d' hr => ⟨hr.1, hr.2.1, fun h' hm => ?_⟩) fun _ h => h
        rcases List.mem_cons.1 hm with heq' | hm
        · cases heq'
          refine .inl ((h.2.unmarked _).1 ?_)
          by_contra hnot
          exact h0 (hn.2 fun o => by_contra fun ho => hnot ⟨o, ho⟩)
        · exact hr.2.2 h' hm
    | shard ab' => cases hk
    | refs hash => cases hk
    | marker hash o => cases hk

/-- `is_dir` is right when no call breaks off. -/
theorem isDir_smooth (hsmooth : Smooth env) (made : Nat) :
    isDir env k ⟨d, made⟩ = some (.ok (decide (d.live k = some .dir)), ⟨d, made + 1⟩) := by
  simp [isDir, recover, look, call, Crash.call, hsmooth made, Except.map, Except.mapError]

theorem does_isDir' : Does (isDir env k) d
    (fun b d' => (b = true → d.live k = some .dir) ∧ (Smooth env → b = false → d.live k ≠ some .dir) ∧
      d' = d) (· = d) := by
  by_cases hsmooth : Smooth env
  · intro made
    unfold Action.Ends
    rw [isDir_smooth hsmooth made]
    exact ⟨of_decide_eq_true, fun _ => of_decide_eq_false, rfl⟩
  · exact does_isDir.mono (fun b d' h => ⟨h.1, fun hs => absurd hs hsmooth, h.2⟩) fun _ h => h

/-- **The loop over the shards.** A shard is passed over only where `is_dir` fails. -/
theorem does_gcShards (l : List Loc) (report : GcReport)
    (h : Sweeping lossy sha256 G R d₀ report.removed d) (hs₀ : Sound lossy sha256 G R d₀) :
    Does (gcShards env l report) d
      (fun report' d' => Sweeping lossy sha256 G R d₀ report'.removed d' ∧
        report.removed ⊆ report'.removed ∧
        (Smooth env → ∀ h, Loc.shard h.shard ∈ l → d₀.live (.object h) ≠ none →
          Marked d₀ h ∨ h ∈ report'.removed))
      (Broken lossy sha256 G R d₀) := by
  induction l generalizing d report with
  | nil => exact Does.pure ⟨h, fun _ hm => hm, fun _ _ => nofun⟩
  | cons k l ih =>
    have hskip : (∀ ab, k ≠ .shard ab) → Does (gcShards env l report) d
        (fun report' d' => Sweeping lossy sha256 G R d₀ report'.removed d' ∧
          report.removed ⊆ report'.removed ∧
          (Smooth env → ∀ h, Loc.shard h.shard ∈ k :: l → d₀.live (.object h) ≠ none →
            Marked d₀ h ∨ h ∈ report'.removed))
        (Broken lossy sha256 G R d₀) := fun hk =>
      (ih report h).mono (fun r d' hr => ⟨hr.1, hr.2.1, fun hsmooth h' hm =>
        hr.2.2 hsmooth h' ((List.mem_cons.1 hm).resolve_left fun he => hk _ he.symm)⟩) fun _ h => h
    cases k with
    | shard ab =>
      refine ((does_look _).mono (fun _ _ h => h.2) fun _ e => e ▸ ⟨_, h⟩).bind fun _ d₁ h₁ => ?_
      subst h₁
      refine (does_isDir'.mono (fun _ _ h => h) fun _ e => e ▸ ⟨_, h⟩).bind fun b d₂ hb => ?_
      obtain ⟨hdir, hno, rfl⟩ := hb
      cases b with
      | false =>
        refine (ih report h).mono (fun r d' hr => ⟨hr.1, hr.2.1, fun hsmooth h' hm hlive => ?_⟩)
          fun _ h => h
        rcases List.mem_cons.1 hm with heq | hm
        · cases heq
          have hshard : d₂.live (.shard h'.shard) ≠ none := by
            rw [h.2.shard]
            exact hs₀.shelved h' hlive
          exact absurd (of_decide_eq_true (h.1.1.there_shard hshard)) (hno hsmooth rfl)
        · exact hr.2.2 hsmooth h' hm hlive
      | true =>
        refine ((does_look _).mono (fun _ _ h => h) fun _ e => e ▸ ⟨_, h⟩).bind fun objects d₃ h₃ => ?_
        obtain ⟨hobjects, rfl⟩ := h₃
        split_ifs at hobjects
        cases hobjects
        have hmem : ∀ q, q ∈ env.order (d₃.listed (Dir.shard ab).inside) ↔
            q.dir = .shard ab ∧ d₃.live q ≠ none := fun q => by
          rw [(env.perm _).mem_iff, Disk.mem_listed]
          exact and_congr_left fun _ => decide_eq_true_iff
        refine (does_gcShard _ report h fun q hq => ⟨ab, ((hmem q).1 hq).1⟩).bind fun r₄ d₄ h₄ => ?_
        obtain ⟨h₄, hsub₄, hall₄⟩ := h₄
        refine ((does_fsyncDir _).mono (fun _ _ h => h) fun _ e => e ▸ ⟨_, h₄⟩).bind fun _ d₅ h₅ => ?_
        have h₅' : Sweeping lossy sha256 G R d₀ r₄.removed d₅ := by
          rcases h₅ with ⟨-, rfl⟩ | ⟨-, rfl⟩
          · exact ⟨⟨h₄.1.1.sync _, h₄.1.2.sync _⟩, h₄.2.sync _⟩
          · exact h₄
        refine (ih r₄ h₅').mono (fun r d' hr => ⟨hr.1, fun x hx => hr.2.1 (hsub₄ hx),
          fun hsmooth h' hm hlive => ?_⟩) fun _ h => h
        rcases List.mem_cons.1 hm with heq | hm
        · cases heq
          rcases h.2.object h' with ⟨hsame, -⟩ | ⟨-, hin, -⟩
          · rw [← hsame] at hlive
            exact (hall₄ h' ((hmem _).2 ⟨rfl, hlive⟩)).imp_right fun hx => hr.2.1 hx
          · exact .inr (hr.2.1 (hsub₄ hin))
        · exact hr.2.2 hsmooth h' hm hlive
    | _ => exact hskip nofun

/-- **A pass of `gc`.** -/
theorem does_gc (hs : Sound lossy sha256 G R d) (hset : Settled lossy d) :
    Does (gc env) d
      (fun report d' => Sweeping lossy sha256 G R d report.removed d' ∧
        (Smooth env → ∀ h, d.live (.object h) ≠ none → Marked d h ∨ h ∈ report.removed))
      (Broken lossy sha256 G R d) := by
  have h : Sweeping lossy sha256 G R d [] d := ⟨⟨hs, hset⟩, .refl d⟩
  have hsame : ∀ d', d' = d → Broken lossy sha256 G R d d' := by
    rintro _ rfl
    exact ⟨_, h⟩
  refine (does_lock.mono (fun _ _ h => h) hsame).bind fun _ d₁ h₁ => ?_
  subst h₁
  refine ((does_look _).mono (fun _ _ h => h) hsame).bind fun shards d₂ h₂ => ?_
  obtain ⟨hshards, rfl⟩ := h₂
  split_ifs at hshards
  cases hshards
  refine (does_gcShards _ ⟨[], 0⟩ h hs).bind fun report d₃ h₃ => Does.pure ?_
  obtain ⟨hsweep, -, hall⟩ := h₃
  have hmem : ∀ x, x ∈ sortBy ContentHash.digits report.removed ↔ x ∈ report.removed :=
    fun x => (sortBy_perm _ _).mem_iff
  refine ⟨⟨hsweep.1, ⟨fun x => ?_, hsweep.2.marker, hsweep.2.shard, ?_⟩⟩, fun hsmooth x hlive => ?_⟩
  · rw [hmem]
    exact hsweep.2.object x
  · exact (sortBy_perm _ _).nodup_iff.2 hsweep.2.nodup
  · rw [hmem]
    refine hall hsmooth x ?_ hlive
    rw [(env.perm _).mem_iff, Disk.mem_listed]
    exact ⟨decide_eq_true rfl, hs.shelved x hlive⟩

/-! ## Runs -/

/-- Where power is lost, no other operation begins on entries one left unsynced. The
medium does not damage the objects of `G`. -/
def Careful (lossy : Prop) (G : ContentHash → Prop) (d : Vol) : Act → Prop
  | .powerLoss _ _ => lossy
  | .damage h _ => ¬ G h
  | _ => Settled lossy d

/-- The references after an operation. -/
def acknowledged (R : ContentHash → Owner → Prop) : Act → Reply → ContentHash → Owner → Prop
  | .put _ _ _ owner, .hash (.ok h) => WithOwner R h owner
  | .addRef _ h o, .done (.ok _) => With R h o
  | .release _ o, _ => Without R o
  | _, _ => R

/-- The references a run has acknowledged, of the owners not released since. -/
def Held (τ : List (Act × Reply)) : ContentHash → Owner → Prop :=
  τ.foldl (fun R p => acknowledged R p.1 p.2) fun _ _ => False

theorem replied {α : Type} {op : Op α} {ok : α → Vol → Prop} {err : Vol → Prop}
    {reply : Except Stop α → Reply} {r : Reply} (h : Does op d ok err)
    (hp : performed op reply d = some (r, d')) :
    (∃ a, r = reply (.ok a) ∧ ok a d') ∨ ∃ e, r = reply (.error e) ∧ err d' := by
  obtain ⟨⟨res, d''⟩, hrun, heq⟩ := Option.map_eq_some_iff.1 hp
  cases heq
  rcases h.performed hrun with ⟨a, rfl, ha⟩ | ⟨e, rfl, he⟩
  · exact .inl ⟨a, rfl, ha⟩
  · exact .inr ⟨e, rfl, he⟩

theorem does_refcount (hs : Sound lossy sha256 G R d) : Does (refcount env hash) d
    (fun _ d' => d' = d) (· = d) := by
  refine does_lock.bind fun _ d₁ h₁ => ?_
  subst h₁
  exact (does_refcountUnlocked hs).mono (fun _ _ h => h.2) fun _ h => h

theorem eq_of_checkIntegrity {content : Bytes}
    (h : checkIntegrity sha256 hash bytes = .ok content) : ContentHash.of sha256 content = hash := by
  by_cases heq : ContentHash.of sha256 bytes ≠ hash
  · rw [checkIntegrity, if_pos heq] at h
    cases h
  · rw [checkIntegrity, if_neg heq] at h
    cases h
    exact not_not.1 heq

theorem does_read : Does (read sha256 env hash) d
    (fun content d' => ContentHash.of sha256 content = hash ∧ d' = d) (· = d) := by
  refine does_pathExists.bind fun b d₁ hb => ?_
  obtain ⟨-, rfl⟩ := hb
  cases b with
  | false => exact Does.fail rfl
  | true =>
    refine (does_look _).bind fun content d₂ h₂ => ?_
    obtain ⟨-, rfl⟩ := h₂
    exact (does_orStop _).mono (fun _ _ h => ⟨eq_of_checkIntegrity h.1, h.2⟩) fun _ h => h

/-- **One step.** -/
theorem sound_step {a : Act} {r : Reply} (hs : Sound lossy sha256 G R d) (hok : Careful lossy G d a)
    (hstep : step sha256 d a = some (r, d')) : Sound lossy sha256 G (acknowledged R a r) d' := by
  cases a with
  | put env bytes expected owner =>
    rcases replied (does_putInner hs hok) hstep with ⟨h, rfl, hd⟩ | ⟨e, rfl, hd⟩
    · exact hd.1
    · exact hd
  | addRef env hash owner =>
    rcases replied (does_addRef hs hok) hstep with ⟨h, rfl, hd⟩ | ⟨e, rfl, hd⟩
    · exact hd.1
    · exact hd
  | release env owner =>
    rcases replied (does_release hs hok) hstep with ⟨h, rfl, hd⟩ | ⟨e, rfl, hd⟩
    · exact hd.1
    · exact hd
  | gc env =>
    rcases replied (does_gc hs hok) hstep with ⟨h, rfl, hd⟩ | ⟨e, rfl, removed, hd⟩
    · exact hd.1.1.1
    · exact hd.1.1
  | refcount env hash =>
    rcases replied (does_refcount hs) hstep with ⟨h, rfl, rfl⟩ | ⟨e, rfl, rfl⟩ <;> exact hs
  | read env hash =>
    rcases replied does_read hstep with ⟨h, rfl, -, rfl⟩ | ⟨e, rfl, rfl⟩ <;> exact hs
  | damage hash content =>
    cases hstep
    exact hs.damage hok content
  | powerLoss found garbage =>
    cases hstep
    exact hs.lose hok

theorem sound_empty : Sound lossy sha256 G (fun _ _ => False) Disk.empty where
  object _ := by rintro b (hb | ⟨-, hb⟩) <;> cases hb
  shard _ := by rintro b (hb | ⟨-, hb⟩) <;> cases hb
  refs _ := by rintro b (hb | ⟨-, hb⟩) <;> cases hb
  shelved _ h := absurd rfl h
  filed _ _ h := absurd rfl h
  guarded _ _ h := absurd ⟨rfl, fun _ => nofun⟩ h
  rooted _ _ h := h.elim

variable {τ before later : List (Act × Reply)} {a : Act} {r : Reply}

/-- **Every run.** -/
theorem sound_run (hrun : (machine sha256).Run (Careful lossy G) τ d) :
    Sound lossy sha256 G (Held τ) d := by
  refine Machine.Run.inv (I := fun τ d => Sound lossy sha256 G (Held τ) d) sound_empty ?_ hrun
  intro τ d a r d' hs hok hstep
  have h := sound_step hs hok hstep
  unfold Held at h ⊢
  rwa [List.foldl_append]

/-- The operation has taken up the owner's reference. -/
def Acknowledges : Act → Reply → ContentHash → Owner → Prop
  | .put _ _ _ (some owner), .hash (.ok hash), h, o => h = hash ∧ o = owner
  | .addRef _ hash owner, .done (.ok _), h, o => h = hash ∧ o = owner
  | _, _, _, _ => False

def Releases (o : Owner) : Act → Prop
  | .release _ owner => owner = o
  | _ => False

theorem acknowledged_of_not_releases (hR : R h o) (hno : ¬ Releases o a) :
    acknowledged R a r h o := by
  cases a with
  | put env bytes expected owner =>
    cases r with
    | hash res =>
      cases res with
      | ok hash =>
        cases owner with
        | none => exact hR
        | some owner => exact .inl hR
      | error e => exact hR
    | _ => exact hR
  | addRef env hash owner =>
    cases r with
    | done res =>
      cases res with
      | ok u => exact .inl hR
      | error e => exact hR
    | _ => exact hR
  | release env owner => exact ⟨hR, fun heq => hno heq.symm⟩
  | _ => exact hR

theorem acknowledged_of_acknowledges (h' : Acknowledges a r h o) : acknowledged R a r h o := by
  cases a with
  | put env bytes expected owner =>
    cases owner with
    | none => cases h'
    | some owner =>
      cases r with
      | hash res =>
        cases res with
        | ok hash => exact .inr h'
        | error e => cases h'
      | _ => cases h'
  | addRef env hash owner =>
    cases r with
    | done res =>
      cases res with
      | ok u => exact .inr h'
      | error e => cases h'
    | _ => cases h'
  | _ => cases h'

theorem held_of_acknowledges (hack : Acknowledges a r h o)
    (hlater : ∀ p ∈ later, ¬ Releases o p.1) : Held (before ++ (a, r) :: later) h o := by
  unfold Held
  rw [List.foldl_append, List.foldl_cons]
  have hfirst : acknowledged (before.foldl (fun R p => acknowledged R p.1 p.2) fun _ _ => False)
      a r h o := acknowledged_of_acknowledges hack
  revert hfirst
  generalize acknowledged (before.foldl (fun R p => acknowledged R p.1 p.2) fun _ _ => False) a r = R
  intro hR
  induction later generalizing R with
  | nil => exact hR
  | cons p later ih =>
    exact ih (fun q hq => hlater q (List.mem_cons_of_mem _ hq)) _
      (acknowledged_of_not_releases hR (hlater p List.mem_cons_self))

/-! ## Runs that lose power -/

/-- The operation came to its end. -/
def Completed : Reply → Prop
  | .hash (.error _) | .done (.error _) | .count (.error _) | .report (.error _) => False
  | _ => True

def Cuts : Act → Prop
  | .powerLoss _ _ => True
  | _ => False

/-- Nothing comes after an operation that broke off but the loss of power. -/
def Orderly (τ : List (Act × Reply)) : Prop := τ.IsChain fun p q => Completed p.2 ∨ Cuts q.1

theorem orderly_concat (h : Orderly (τ ++ [(a, r)])) :
    Orderly τ ∧ ∀ p ∈ τ.getLast?, Completed p.2 ∨ Cuts a :=
  ⟨h.left_of_append, fun p hp => (List.isChain_append.1 h).2.2 p hp (a, r) rfl⟩

/-- Whether power may be lost, and which objects the medium does not damage. -/
def Guarded (lossy : Prop) (G : ContentHash → Prop) (_ : Vol) : Act → Prop
  | .powerLoss _ _ => lossy
  | .damage h _ => ¬ G h
  | _ => True

theorem careful_of_settled (hok : Guarded lossy G d a) (hset : ¬ Cuts a → Settled lossy d) :
    Careful lossy G d a := by
  cases a with
  | damage => exact hok
  | powerLoss => exact hok
  | _ => exact hset id

/-- **What came to its end left nothing unsynced.** -/
theorem settled_step (hs : Sound lossy sha256 G R d) (hset : ¬ Cuts a → Settled lossy d)
    (hstep : step sha256 d a = some (r, d')) (hdone : Completed r) : Settled lossy d' := by
  cases a with
  | put env bytes expected owner =>
    rcases replied (does_putInner hs (hset id)) hstep with ⟨h, rfl, hd⟩ | ⟨e, rfl, -⟩
    · exact hd.2
    · cases hdone
  | addRef env hash owner =>
    rcases replied (does_addRef hs (hset id)) hstep with ⟨h, rfl, hd⟩ | ⟨e, rfl, -⟩
    · exact hd.2
    · cases hdone
  | release env owner =>
    rcases replied (does_release hs (hset id)) hstep with ⟨h, rfl, hd⟩ | ⟨e, rfl, -⟩
    · exact hd.2
    · cases hdone
  | gc env =>
    rcases replied (does_gc hs (hset id)) hstep with ⟨h, rfl, hd⟩ | ⟨e, rfl, -⟩
    · exact hd.1.1.2
    · cases hdone
  | refcount env hash =>
    rcases replied (does_refcount hs) hstep with ⟨h, rfl, rfl⟩ | ⟨e, rfl, -⟩
    · exact hset id
    · cases hdone
  | read env hash =>
    rcases replied does_read hstep with ⟨h, rfl, -, rfl⟩ | ⟨e, rfl, rfl⟩ <;> exact hset id
  | damage hash content =>
    cases hstep
    exact (hset id).damage content
  | powerLoss found garbage =>
    cases hstep
    exact settled_lose d found garbage

/-- An orderly run is careful, and settled once its last operation came to its end. -/
theorem careful_of_orderly (hrun : (machine sha256).Run (Guarded lossy G) τ d)
    (horder : lossy → Orderly τ) : (machine sha256).Run (Careful lossy G) τ d ∧
      ((lossy → ∀ p ∈ τ.getLast?, Completed p.2) → Settled lossy d) := by
  by_cases hl : lossy
  · induction hrun with
    | start => exact ⟨.start, fun _ => settled_empty⟩
    | @step τ d d' a r _ hok hstep ih =>
      obtain ⟨hτ, hlast⟩ := orderly_concat (horder hl)
      obtain ⟨hcareful, hset⟩ := ih fun _ => hτ
      have hbefore : ¬ Cuts a → Settled lossy d := fun hcut =>
        hset fun _ p hp => (hlast p hp).resolve_right hcut
      have hguard := careful_of_settled hok hbefore
      refine ⟨hcareful.step hguard hstep, fun hdone => ?_⟩
      exact settled_step (sound_run hcareful) hbefore hstep (hdone hl (a, r) (by simp))
  · exact ⟨hrun.weaken fun d a hok => careful_of_settled hok fun _ => settled_of_not_lossy hl d,
      fun _ => settled_of_not_lossy hl d⟩

/-- **No marker without its object**, in every state of every run: after operations that
returned, failed or were killed at any call, and after losses of power. -/
theorem marker_has_object (hrun : (machine sha256).Run (Guarded lossy G) τ d)
    (horder : lossy → Orderly τ) (hmarker : d.live (.marker h o) ≠ none) :
    d.live (.object h) ≠ none ∧ d.live (.shard h.shard) ≠ none := by
  have hs := sound_run (careful_of_orderly hrun horder).1
  obtain ⟨hobject, hshard⟩ := hs.guarded h o fun hgone => hmarker hgone.1
  exact ⟨hobject.1, hshard.1⟩

/-! A store that was used: one object is put for an owner, a pass of `gc` is killed, and
power is lost. -/

def steady : Env := ⟨fun _ => none, id, fun _ => .refl _, 1, 0⟩

def killedAt (n : Nat) : Env :=
  ⟨fun k => if k = n then some (.dies 0) else none, id, fun _ => .refl _, 2, 0⟩

def putA : Act := .put steady [97] none (some ['a'])

def hashA : ContentHash := ContentHash.of Arlen.Lib.sha256 [97]

def afterPutA : List Act := [.gc (killedAt 6), .powerLoss (fun _ => 1) fun _ => []]

instance : DecidablePred Completed
  | .hash (.error _) | .done (.error _) | .count (.error _) | .report (.error _) => .isFalse id
  | .hash (.ok _) | .done (.ok _) | .count (.ok _) | .report (.ok _) => .isTrue trivial
  | .content _ | .none => .isTrue trivial

instance : DecidablePred Cuts
  | .powerLoss _ _ => .isTrue trivial
  | .put _ _ _ _ | .addRef _ _ _ | .release _ _ | .gc _ | .refcount _ _ | .read _ _
  | .damage _ _ => .isFalse id

instance (τ : List (Act × Reply)) : Decidable (Orderly τ) :=
  inferInstanceAs (Decidable (List.IsChain (fun p q => Completed p.2 ∨ Cuts q.1) τ))

instance (o : Owner) : DecidablePred (Releases o)
  | .release _ owner => inferInstanceAs (Decidable (owner = o))
  | .put _ _ _ _ | .addRef _ _ _ | .powerLoss _ _ | .gc _ | .refcount _ _ | .read _ _
  | .damage _ _ => .isFalse id

instance (d : Vol) : DecidablePred (Guarded True (fun _ => True) d)
  | .damage _ _ => .isFalse fun h => h trivial
  | .put _ _ _ _ | .addRef _ _ _ | .powerLoss _ _ | .gc _ | .refcount _ _ | .read _ _
  | .release _ _ => .isTrue trivial

/-- The reply is that the object was put. -/
def acks (h : ContentHash) : Reply → Bool
  | .hash (.ok hash) => decide (hash = h)
  | _ => false

theorem eq_of_acks (h' : acks h r = true) : r = .hash (.ok h) := by
  unfold acks at h'
  split at h'
  · rw [of_decide_eq_true h']
  · cases h'

def collected : Reply → Option GcReport
  | .report (.ok x) => some x
  | _ => none

theorem eq_of_collected {x : GcReport} (h : collected r = some x) :
    r = .report (.ok x) := by
  unfold collected at h
  split at h
  · rw [Option.some.inj h]
  · cases h

theorem use_runs : ∃ r τ d,
    (machine Arlen.Lib.sha256).Run (Guarded True fun _ => True) ((putA, r) :: τ) d ∧
      r = .hash (.ok hashA) ∧ Orderly ((putA, r) :: τ) ∧ (∀ p ∈ τ, ¬ Releases ['a'] p.1) ∧
      d.live (.marker hashA ['a']) ≠ none := by
  have heval : (((machine Arlen.Lib.sha256).step Disk.empty putA).bind fun p =>
      ((machine Arlen.Lib.sha256).exec (Guarded True fun _ => True) p.2 afterPutA).map fun q =>
        acks hashA p.1 && decide (Orderly ((putA, p.1) :: q.1) ∧
            (∀ x ∈ q.1, ¬ Releases ['a'] x.1) ∧ q.2.live (.marker hashA ['a']) ≠ none)) =
      some true := by
    decide +kernel
  obtain ⟨⟨r, d⟩, hput, hrest⟩ := Option.bind_eq_some_iff.1 heval
  obtain ⟨⟨τ, d'⟩, hexec, hfacts⟩ := Option.map_eq_some_iff.1 hrest
  obtain ⟨hr, hfacts⟩ := Bool.and_eq_true_iff.1 hfacts
  have hguard : Guarded True (fun _ => True) Disk.empty putA := trivial
  have hstart : (machine Arlen.Lib.sha256).Run (Guarded True fun _ => True) [] Disk.empty := .start
  have hrun := (hstart.step hguard hput).extend hexec
  exact ⟨r, τ, d', hrun, eq_of_acks hr, of_decide_eq_true hfacts⟩

theorem marker_has_object_of_use : ∃ τ d,
    (machine Arlen.Lib.sha256).Run (Guarded True fun _ => True) τ d ∧
      d.live (.object hashA) ≠ none ∧ d.live (.shard hashA.shard) ≠ none := by
  obtain ⟨r, τ, d, hrun, -, horder, -, hmarker⟩ := use_runs
  exact ⟨_, d, hrun, marker_has_object hrun (fun _ => horder) hmarker⟩

theorem read_of_live {content : Bytes} (hlive : d.live (.object h) = some (.file content true))
    (hof : ContentHash.of sha256 content = h) (hsmooth : Smooth env) :
    perform (read sha256 env h) d = some (.ok content, d) := by
  have hcheck : checkIntegrity sha256 h content = .ok content := if_neg (not_not.2 hof)
  have hplan : ∀ n, env.plan n = none := hsmooth
  have hread : read sha256 env h ⟨d, 0⟩ = some (.ok content, ⟨d, 2⟩) := by
    simp [read, pathExists, recover, look, call, Crash.call, readFile, hplan, Except.map,
      Except.mapError, hlive, hcheck, orStop, bind, pure]
  rw [perform, hread, Option.map_some]

/-- What is referred to can be read. -/
theorem Sound.readable (hs : Sound lossy sha256 G R d) (hR : R h o) (hG : G h) :
    d.live (.marker h o) ≠ none ∧ ∃ content, ContentHash.of sha256 content = h ∧
      ∀ env, Smooth env → perform (read sha256 env h) d = some (.ok content, d) := by
  obtain ⟨hmarker, -⟩ := hs.rooted h o hR
  obtain ⟨hobject, -⟩ := hs.guarded h o fun hgone => hmarker.1 hgone.1
  obtain ⟨n, hn⟩ := Option.ne_none_iff_exists'.1 hobject.1
  obtain ⟨content, rfl, hof⟩ := hs.object h n (.inl hn)
  exact ⟨hmarker.1, content, hof hG, fun env hsmooth => read_of_live hn (hof hG) hsmooth⟩

/-- **An acknowledged reference keeps its object readable** until its owner is released. -/
theorem acknowledged_readable (hG : G h)
    (hrun : (machine sha256).Run (Guarded lossy G) (before ++ (a, r) :: later) d)
    (horder : lossy → Orderly (before ++ (a, r) :: later))
    (hack : Acknowledges a r h o) (hlater : ∀ p ∈ later, ¬ Releases o p.1) :
    d.live (.marker h o) ≠ none ∧ ∃ content, ContentHash.of sha256 content = h ∧
      ∀ env, Smooth env → step sha256 d (.read env h) = some (.content (.ok content), d) := by
  have hs := sound_run (careful_of_orderly hrun horder).1
  obtain ⟨hmarker, content, hof, hread⟩ :=
    hs.readable (held_of_acknowledges hack hlater) hG
  exact ⟨hmarker, content, hof, fun env hsmooth => by
    rw [step, performed, hread env hsmooth, Option.map_some]⟩

theorem acknowledged_readable_of_use : ∃ τ d,
    (machine Arlen.Lib.sha256).Run (Guarded True fun _ => True) τ d ∧
      ∃ content, step Arlen.Lib.sha256 d (.read steady hashA) = some (.content (.ok content), d) := by
  obtain ⟨r, τ, d, hrun, rfl, horder, hlater, -⟩ := use_runs
  have hrun' : (machine Arlen.Lib.sha256).Run (Guarded True fun _ => True)
      ([] ++ (putA, .hash (.ok hashA)) :: τ) d := hrun
  obtain ⟨-, content, -, hread⟩ :=
    acknowledged_readable trivial hrun' (fun _ => horder) ⟨rfl, rfl⟩ hlater
  exact ⟨_, d, hrun, content, hread steady fun _ => rfl⟩

/-- **What a pass of `gc` removes**: objects no marker stands for, as its report says, and
all of them when no call breaks off. An object with a marker is left as it was, however
the pass ends. -/
theorem gc_removes {env : Env} (hrun : (machine sha256).Run (Guarded lossy G) τ d)
    (hstep : step sha256 d (.gc env) = some (r, d'))
    (horder : lossy → Orderly (τ ++ [(.gc env, r)])) :
    (∀ h, Marked d h → d'.live (.object h) = d.live (.object h)) ∧
      (∀ h o, d'.live (.marker h o) = d.live (.marker h o)) ∧
      ∀ report, r = .report (.ok report) → report.removed.Nodup ∧
        (∀ h, h ∈ report.removed ↔ d.live (.object h) ≠ none ∧ d'.live (.object h) = none) ∧
        (Smooth env → ∀ h, h ∈ report.removed ↔ d.live (.object h) ≠ none ∧ ¬ Marked d h) := by
  obtain ⟨hcareful, hset⟩ := careful_of_orderly hrun fun hl => (orderly_concat (horder hl)).1
  have hs := sound_run hcareful
  have hset : Settled lossy d := hset fun hl p hp =>
    ((orderly_concat (horder hl)).2 p hp).resolve_right id
  have hkeeps : ∀ {removed}, Swept d d' removed →
      (∀ h, Marked d h → d'.live (.object h) = d.live (.object h)) ∧
        ∀ h o, d'.live (.marker h o) = d.live (.marker h o) := fun hsw =>
    ⟨fun h hm => ((hsw.object h).resolve_right fun hx => hx.2.2.2 hm).1, hsw.marker⟩
  rcases replied (does_gc hs hset) hstep with ⟨report, rfl, hsweep, hall⟩ | ⟨e, rfl, removed, hsweep⟩
  · obtain ⟨hobjects, hmarkers⟩ := hkeeps hsweep.2
    refine ⟨hobjects, hmarkers, fun report' heq => ?_⟩
    cases heq
    have hgone : ∀ h, h ∈ report.removed → d.live (.object h) ≠ none ∧ d'.live (.object h) = none ∧
        ¬ Marked d h := fun h hm => by
      obtain ⟨hnone, -, hlive, hno⟩ := (hsweep.2.object h).resolve_left fun hx => hx.2 hm
      exact ⟨hlive, hnone, hno⟩
    refine ⟨hsweep.2.nodup, fun h => ⟨fun hm => ⟨(hgone h hm).1, (hgone h hm).2.1⟩, fun hh => ?_⟩,
      fun hsmooth h => ⟨fun hm => ⟨(hgone h hm).1, (hgone h hm).2.2⟩,
        fun hh => (hall hsmooth h hh.1).resolve_left hh.2⟩⟩
    rcases hsweep.2.object h with ⟨hsame, -⟩ | ⟨-, hm, -⟩
    · exact absurd (hsame.symm.trans hh.2) hh.1
    · exact hm
  · obtain ⟨hobjects, hmarkers⟩ := hkeeps hsweep.2
    exact ⟨hobjects, hmarkers, fun report' heq => by cases heq⟩

theorem gc_removes_of_use : ∃ d report d',
    step Arlen.Lib.sha256 d (.gc steady) = some (.report (.ok report), d') ∧
      ∀ h, h ∈ report.removed ↔ d.live (.object h) ≠ none ∧ ¬ Marked d h := by
  have heval : ((machine Arlen.Lib.sha256).exec (Guarded True fun _ => True) Disk.empty
      [putA, .put steady [98] none none]).bind (fun p =>
        (step Arlen.Lib.sha256 p.2 (.gc steady)).map fun q =>
          (collected q.1).isSome && decide (Orderly (p.1 ++ [(.gc steady, q.1)]))) =
      some true := by
    decide +kernel
  obtain ⟨⟨τ, d⟩, hexec, hrest⟩ := Option.bind_eq_some_iff.1 heval
  obtain ⟨⟨r, d'⟩, hstep, hfacts⟩ := Option.map_eq_some_iff.1 hrest
  obtain ⟨hr, horder⟩ := Bool.and_eq_true_iff.1 hfacts
  obtain ⟨report, hr⟩ := Option.isSome_iff_exists.1 hr
  cases eq_of_collected hr
  have hrun := Machine.run_of_exec hexec
  exact ⟨d, report, d', hstep, (((gc_removes hrun hstep fun _ => of_decide_eq_true horder).2.2
    report rfl).2.2 fun _ => rfl)⟩

end Arlen.Forage.Store
