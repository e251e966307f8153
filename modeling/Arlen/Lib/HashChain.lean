import Mathlib.Data.List.Basic
import Mathlib.Data.List.Infix

/-!
# Hash chains

`link h r` is the hash of a record `r` on top of the hash `h`. From a start
hash, a list of records has one hash each (`chain`) and a last one (`chainHead`).
Where links collide with none of another chain's and the start hash is no link,
the last hash determines the records (`eq_of_chainHead_eq`): this is what makes
an accepted chain a copy of one that was built.
-/

namespace Arlen.Lib

variable {H R : Type} {link : H → R → H} {g : H} {r : R} {rs ss : List R}

/-- The hash after a list of records. -/
def chainHead (link : H → R → H) (g : H) (rs : List R) : H := rs.foldl link g

/-- The hash of each record of a list. -/
def chain (link : H → R → H) : H → List R → List H
  | _, [] => []
  | g, r :: rs => link g r :: chain link (link g r) rs

@[simp] theorem chainHead_nil : chainHead link g [] = g := rfl

@[simp] theorem chainHead_cons :
    chainHead link g (r :: rs) = chainHead link (link g r) rs := rfl

@[simp] theorem chainHead_snoc :
    chainHead link g (rs ++ [r]) = link (chainHead link g rs) r := by
  simp [chainHead]

@[simp] theorem length_chain : (chain link g rs).length = rs.length := by
  induction rs generalizing g with
  | nil => rfl
  | cons r rs ih => simp [chain, ih]

theorem chain_append :
    chain link g (rs ++ ss) = chain link g rs ++ chain link (chainHead link g rs) ss := by
  induction rs generalizing g with
  | nil => rfl
  | cons r rs ih => simp [chain, ih]

@[simp] theorem chain_snoc :
    chain link g (rs ++ [r]) = chain link g rs ++ [link (chainHead link g rs) r] := by
  rw [chain_append]
  rfl

/-- The last hash of a chain, or the start. -/
theorem getLastD_chain : (chain link g rs).getLastD g = chainHead link g rs := by
  induction rs using List.reverseRecOn with
  | nil => rfl
  | append_singleton rs r _ => simp

/-- The hash at each place is the head of the records up to it. -/
theorem getElem?_chain {i : Nat} (hi : i < rs.length) :
    (chain link g rs)[i]? = some (chainHead link g (rs.take (i + 1))) := by
  induction rs generalizing g i with
  | nil => simp at hi
  | cons r rs ih =>
    cases i with
    | zero => simp [chain]
    | succ i =>
      have := ih (g := link g r) (by simpa using hi)
      simpa [chain] using this

/-- A hash of a chain is the head of a first part of it. -/
theorem mem_chain {h : H} (hm : h ∈ chain link g rs) :
    ∃ qs, qs <+: rs ∧ qs ≠ [] ∧ h = chainHead link g qs := by
  obtain ⟨i, hi⟩ := List.mem_iff_getElem?.1 hm
  have hlt : i < rs.length := by simpa using (List.getElem?_eq_some_iff.1 hi).1
  rw [getElem?_chain hlt] at hi
  refine ⟨rs.take (i + 1), List.take_prefix _ _, ?_, (Option.some.inj hi).symm⟩
  cases rs with
  | nil => simp at hlt
  | cons r rs => simp

/-- The links of a list: each record on the hash it was linked to. -/
def links (link : H → R → H) : H → List R → List (H × R)
  | _, [] => []
  | g, r :: rs => (g, r) :: links link (link g r) rs

theorem links_append :
    links link g (rs ++ ss) = links link g rs ++ links link (chainHead link g rs) ss := by
  induction rs generalizing g with
  | nil => rfl
  | cons r rs ih => simp [links, ih]

/-- **The head determines the records.** Neither chain returns to the start
hash, and no link of the one collides with a link of the other. -/
theorem eq_of_chainHead_eq
    (hfree : ∀ x ∈ links link g rs, ∀ y ∈ links link g ss, link x.1 x.2 = link y.1 y.2 → x = y)
    (hr : g ∉ chain link g rs) (hs : g ∉ chain link g ss)
    (h : chainHead link g rs = chainHead link g ss) : rs = ss := by
  induction rs using List.reverseRecOn generalizing ss with
  | nil =>
    -- the second chain's head is the start, so it has no records
    induction ss using List.reverseRecOn with
    | nil => rfl
    | append_singleton ss s _ =>
      rw [chainHead_nil, chainHead_snoc] at h
      refine absurd ?_ hs
      rw [chain_snoc]
      exact List.mem_append_right _ (List.mem_singleton.2 h)
  | append_singleton rs r ih =>
    induction ss using List.reverseRecOn with
    | nil =>
      rw [chainHead_nil, chainHead_snoc] at h
      refine absurd ?_ hr
      rw [chain_snoc]
      exact List.mem_append_right _ (List.mem_singleton.2 h.symm)
    | append_singleton ss s _ =>
      rw [links_append, links_append] at hfree
      rw [chainHead_snoc, chainHead_snoc] at h
      have hlast := hfree (chainHead link g rs, r) (by simp [links])
        (chainHead link g ss, s) (by simp [links]) h
      simp only [Prod.mk.injEq] at hlast
      have hrec : rs = ss := by
        refine ih (fun x hx y hy => ?_) (fun hm => hr ?_) (fun hm => hs ?_) hlast.1
        · exact hfree x (List.mem_append_left _ hx) y (List.mem_append_left _ hy)
        · rw [chain_snoc]
          exact List.mem_append_left _ hm
        · rw [chain_snoc]
          exact List.mem_append_left _ hm
      rw [hrec, hlast.2]

end Arlen.Lib
