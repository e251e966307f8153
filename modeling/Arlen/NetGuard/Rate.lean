import Mathlib.Algebra.Order.Ring.Rat
import Mathlib.Algebra.Order.Group.MinMax
import Mathlib.Tactic.Linarith
import Mathlib.Tactic.NormNum
import Mathlib.Tactic.Ring

/-!
# The egress rate cap

`RateLimiter` is the token bucket of the egress authoriser, with rational
arithmetic for its floating point. A `Ledger` runs it over a sequence of calls
and keeps what the caller sees: how many calls were permitted and the latest
instant any of them carried. A call earns what its bucket would earn since the
latest instant exactly when it is `Fresh`; a call that goes forward again after
the clock has gone back is paid for the same interval a second time.
-/

namespace Arlen.NetGuard

/-- A bucket of `capacity` burst tokens that refill at `refillPerSec`. -/
structure RateLimiter where
  capacity : Rat
  refillPerSec : Rat
  tokens : Rat
  last : Rat

namespace RateLimiter

def new (capacity : Nat) (refillPerSec now : Rat) : RateLimiter where
  capacity := capacity
  refillPerSec := max refillPerSec 0
  tokens := capacity
  last := now

/-- The tokens a call at `now` finds; the difference of the instants saturates at zero. -/
def refilled (l : RateLimiter) (now : Rat) : Rat :=
  min (l.tokens + max (now - l.last) 0 * l.refillPerSec) l.capacity

def tryAcquire (l : RateLimiter) (now : Rat) : Bool × RateLimiter :=
  let tokens := l.refilled now
  if 1 ≤ tokens then (true, { l with tokens := tokens - 1, last := now })
  else (false, { l with tokens := tokens, last := now })

variable (l : RateLimiter) (now : Rat)

theorem tryAcquire_last : (l.tryAcquire now).2.last = now := by
  unfold tryAcquire
  dsimp only
  split <;> rfl

theorem tryAcquire_capacity : (l.tryAcquire now).2.capacity = l.capacity := by
  unfold tryAcquire
  dsimp only
  split <;> rfl

theorem tryAcquire_refillPerSec : (l.tryAcquire now).2.refillPerSec = l.refillPerSec := by
  unfold tryAcquire
  dsimp only
  split <;> rfl

/-- A call spends what it permits, and leaves no debt. -/
theorem tryAcquire_tokens :
    (l.tryAcquire now).2.tokens + (l.tryAcquire now).1.toNat = l.refilled now := by
  unfold tryAcquire
  dsimp only
  split
  · show l.refilled now - 1 + ((1 : Nat) : Rat) = l.refilled now
    push_cast
    ring
  · show l.refilled now + ((0 : Nat) : Rat) = l.refilled now
    push_cast
    ring

theorem tryAcquire_tokens_nonneg (h : 0 ≤ l.refilled now) : 0 ≤ (l.tryAcquire now).2.tokens := by
  unfold tryAcquire
  dsimp only
  split
  case isTrue one => exact sub_nonneg.mpr one
  case isFalse => exact h

end RateLimiter

/-- A limiter under a sequence of calls. -/
structure Ledger where
  limiter : RateLimiter
  latest : Rat
  permitted : Nat

namespace Ledger

def start (capacity : Nat) (refillPerSec now : Rat) : Ledger where
  limiter := .new capacity refillPerSec now
  latest := now
  permitted := 0

def call (g : Ledger) (now : Rat) : Ledger where
  limiter := (g.limiter.tryAcquire now).2
  latest := max g.latest now
  permitted := g.permitted + (g.limiter.tryAcquire now).1.toNat

def run (g : Ledger) (calls : List Rat) : Ledger := calls.foldl call g

/-- What the time since the latest instant leaves in the bucket. -/
def earned (g : Ledger) (now : Rat) : Rat :=
  min (g.limiter.tokens + max (now - g.latest) 0 * g.limiter.refillPerSec) g.limiter.capacity

/-- The call does not go forward, or goes forward from the latest instant; or nothing
refills; or the time since the latest instant already fills the bucket. -/
def Fresh (g : Ledger) (now : Rat) : Prop :=
  now ≤ g.limiter.last ∨ g.limiter.last = g.latest ∨ g.limiter.refillPerSec = 0 ∨
    g.limiter.capacity ≤ g.limiter.tokens + max (now - g.latest) 0 * g.limiter.refillPerSec

/-- Every call of the sequence is fresh when it is made. -/
def AllFresh (g : Ledger) : List Rat → Prop
  | [] => True
  | now :: rest => g.Fresh now ∧ (g.call now).AllFresh rest

/-- What every sequence of calls keeps, whatever its clock does. -/
structure Bounded (g : Ledger) (c : Nat) (r : Rat) : Prop where
  capacity : g.limiter.capacity = c
  rate : g.limiter.refillPerSec = r
  nonneg : 0 ≤ g.limiter.tokens
  full : g.limiter.tokens ≤ c
  last : g.limiter.last ≤ g.latest

/-- What was permitted and what is left have been paid for by time. -/
def Paid (g : Ledger) (c : Nat) (r start : Rat) : Prop :=
  g.permitted + g.limiter.tokens ≤ c + r * (g.latest - start)

variable {g : Ledger} {c : Nat} {r start now : Rat}

theorem bounded_start (hr : 0 ≤ r) : (Ledger.start c r now).Bounded c r where
  capacity := rfl
  rate := max_eq_left hr
  nonneg := Nat.cast_nonneg c
  full := le_refl _
  last := le_refl _

theorem paid_start : (Ledger.start c r now).Paid c r now := by
  show ((0 : Nat) : Rat) + (c : Rat) ≤ c + r * (now - now)
  simp

theorem Bounded.refilled_nonneg (h : g.Bounded c r) (hr : 0 ≤ r) : 0 ≤ g.limiter.refilled now := by
  have gain : 0 ≤ max (now - g.limiter.last) 0 * g.limiter.refillPerSec :=
    mul_nonneg (le_max_right _ _) (h.rate ▸ hr)
  refine le_min (add_nonneg h.nonneg gain) ?_
  rw [h.capacity]
  exact Nat.cast_nonneg c

theorem Bounded.call (h : g.Bounded c r) (hr : 0 ≤ r) : (g.call now).Bounded c r where
  capacity := (g.limiter.tryAcquire_capacity now).trans h.capacity
  rate := (g.limiter.tryAcquire_refillPerSec now).trans h.rate
  nonneg := g.limiter.tryAcquire_tokens_nonneg now (h.refilled_nonneg hr)
  full := by
    have spent := g.limiter.tryAcquire_tokens now
    have capped : g.limiter.refilled now ≤ c := h.capacity ▸ min_le_right _ _
    have permit : (0 : Rat) ≤ (g.limiter.tryAcquire now).1.toNat := Nat.cast_nonneg _
    show (g.limiter.tryAcquire now).2.tokens ≤ c
    linarith
  last := by
    show (g.limiter.tryAcquire now).2.last ≤ max g.latest now
    rw [RateLimiter.tryAcquire_last]
    exact le_max_right _ _

/-- Refilling since the last call never pays less than refilling since the latest instant. -/
theorem Bounded.earned_le_refilled (h : g.Bounded c r) (hr : 0 ≤ r) :
    g.earned now ≤ g.limiter.refilled now := by
  have gain : max (now - g.latest) 0 ≤ max (now - g.limiter.last) 0 :=
    max_le_max (sub_le_sub_left h.last now) (le_refl 0)
  exact min_le_min (add_le_add_right (mul_le_mul_of_nonneg_right gain (h.rate ▸ hr)) _) (le_refl _)

/-- A call is fresh exactly when no interval is paid for twice. -/
theorem Bounded.fresh_iff (h : g.Bounded c r) (hr : 0 ≤ r) :
    g.Fresh now ↔ g.limiter.refilled now = g.earned now := by
  constructor
  · rintro (behind | level | dry | full)
    · have back : now - g.limiter.last ≤ 0 := sub_nonpos.mpr behind
      have back' : now - g.latest ≤ 0 := sub_nonpos.mpr (behind.trans h.last)
      simp only [RateLimiter.refilled, earned, max_eq_right back, max_eq_right back']
    · simp only [RateLimiter.refilled, earned, level]
    · simp only [RateLimiter.refilled, earned, dry, mul_zero]
    · refine le_antisymm ?_ (h.earned_le_refilled hr)
      rw [earned, min_eq_right full]
      exact min_le_right _ _
  · intro same
    by_contra stale
    simp only [Fresh, not_or, not_le] at stale
    obtain ⟨ahead, apart, wet, room⟩ := stale
    have behind : g.limiter.last < g.latest := lt_of_le_of_ne h.last apart
    have pays : 0 < g.limiter.refillPerSec := lt_of_le_of_ne (h.rate ▸ hr) (Ne.symm wet)
    have gain : max (now - g.latest) 0 < max (now - g.limiter.last) 0 :=
      max_lt (lt_max_of_lt_left (sub_lt_sub_left behind now))
        (lt_max_of_lt_left (sub_pos.mpr ahead))
    have more : g.limiter.tokens + max (now - g.latest) 0 * g.limiter.refillPerSec <
        g.limiter.tokens + max (now - g.limiter.last) 0 * g.limiter.refillPerSec :=
      add_lt_add_right (mul_lt_mul_of_pos_right gain pays) _
    rw [RateLimiter.refilled, earned, min_eq_left room.le] at same
    exact absurd same (lt_min more room).ne'

/-- A fresh call is paid for by the time that has passed since the latest instant. -/
theorem Paid.call (paid : g.Paid c r start) (h : g.Bounded c r) (hr : 0 ≤ r)
    (fresh : g.Fresh now) : (g.call now).Paid c r start := by
  have spent := g.limiter.tryAcquire_tokens now
  have step : max (now - g.latest) 0 = max g.latest now - g.latest := by
    rw [← sub_self g.latest, max_sub_sub_right, max_comm]
  have gain : g.limiter.refilled now ≤ g.limiter.tokens + r * (max g.latest now - g.latest) := by
    rw [(h.fresh_iff hr).mp fresh, ← step, mul_comm r, ← h.rate]
    exact min_le_left _ _
  show ((g.permitted + (g.limiter.tryAcquire now).1.toNat : Nat) : Rat) +
      (g.limiter.tryAcquire now).2.tokens ≤ c + r * (max g.latest now - start)
  push_cast
  calc (g.permitted : Rat) + (g.limiter.tryAcquire now).1.toNat +
        (g.limiter.tryAcquire now).2.tokens
      = g.permitted + g.limiter.refilled now := by linarith
    _ ≤ g.permitted + (g.limiter.tokens + r * (max g.latest now - g.latest)) := by linarith
    _ ≤ c + r * (g.latest - start) + r * (max g.latest now - g.latest) := by
        unfold Paid at paid
        linarith
    _ = c + r * (max g.latest now - start) := by ring

theorem Bounded.run (h : g.Bounded c r) (hr : 0 ≤ r) (calls : List Rat) :
    (g.run calls).Bounded c r := by
  induction calls generalizing g with
  | nil => exact h
  | cons now rest ih => exact ih (h.call hr)

theorem Paid.run (paid : g.Paid c r start) (h : g.Bounded c r) (hr : 0 ≤ r) {calls : List Rat}
    (fresh : g.AllFresh calls) : (g.run calls).Paid c r start := by
  induction calls generalizing g with
  | nil => exact paid
  | cons now rest ih => exact ih (paid.call h hr fresh.1) (h.call hr) fresh.2

theorem AllFresh.take {calls : List Rat} (fresh : g.AllFresh calls) (k : Nat) :
    g.AllFresh (calls.take k) := by
  induction calls generalizing g k with
  | nil => cases k <;> exact fresh
  | cons now rest ih =>
    cases k with
    | zero => trivial
    | succ k => exact ⟨fresh.1, ih fresh.2 k⟩

end Ledger

/-- While no interval is paid for twice, the calls permitted so far stay within the burst
and what the time has refilled, and the tokens stay in the bucket. -/
theorem permitted_le_refill (c : Nat) (r start : Rat) (hr : 0 ≤ r) (calls : List Rat)
    (fresh : (Ledger.start c r start).AllFresh calls) (k : Nat) :
    let g := (Ledger.start c r start).run (calls.take k)
    (g.permitted : Rat) ≤ c + r * (g.latest - start) ∧
      0 ≤ g.limiter.tokens ∧ g.limiter.tokens ≤ c := by
  intro g
  have bounded : g.Bounded c r := (Ledger.bounded_start hr).run hr _
  have paid : g.Paid c r start :=
    Ledger.paid_start.run (Ledger.bounded_start hr) hr (fresh.take k)
  refine ⟨?_, bounded.nonneg, bounded.full⟩
  have left := bounded.nonneg
  unfold Ledger.Paid at paid
  linarith

/-- One second forward, back, and forward by more than the second that was paid for. -/
theorem permitted_le_refill_back :
    let g := (Ledger.start 1 1 0).run ([0, 1, 0, 2].take 4)
    (g.permitted : Rat) ≤ (1 : Nat) + 1 * (g.latest - 0) ∧
      0 ≤ g.limiter.tokens ∧ g.limiter.tokens ≤ (1 : Nat) :=
  permitted_le_refill 1 1 0 (by decide) [0, 1, 0, 2]
    ⟨.inr (.inl (by decide +kernel)), .inr (.inl (by decide +kernel)), .inl (by decide +kernel),
      .inr (.inr (.inr (by decide +kernel))), trivial⟩ 4

/-- One second forward, back and forward again: three permits where a burst of one and one
second of refill pay for two. -/
theorem second_forward_call_paid_twice :
    ¬ ∀ (c : Nat) (r start : Rat), 0 ≤ r → ∀ calls : List Rat,
      let g := (Ledger.start c r start).run calls
      (g.permitted : Rat) ≤ c + r * (g.latest - start) := by
  intro claim
  have permitted : ((Ledger.start 1 1 0).run [0, 1, 0, 1]).permitted = 3 := by decide +kernel
  have latest : ((Ledger.start 1 1 0).run [0, 1, 0, 1]).latest = 1 := by decide +kernel
  have bound := claim 1 1 0 (by decide) [0, 1, 0, 1]
  dsimp only at bound
  rw [permitted, latest] at bound
  norm_num at bound

end Arlen.NetGuard
