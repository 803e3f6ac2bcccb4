import MultiPartyPSI.Lib.Xor
import Mathlib.Algebra.BigOperators.Ring.Finset
import Mathlib.Data.Finset.Prod
import Mathlib.SetTheory.Cardinal.Finite

/-!
# Pairwise pads that cancel

Every pair of a finite set of parties has a pad, and a party's share is the sum of the
pads of its pairs. Each pad enters two shares, so all shares add up to zero.

Nothing else about them is determined. Moving pads along the star of one party turns
any assignment of shares into any other with the same total, one to one, so every
such assignment comes from equally many choices of pads: `card_share_eq`.
-/

namespace Lib

variable {ι G : Type*} [LinearOrder ι]

/-- The pad of a pair, in either order. Pads are given for the smaller party first. -/
def edge (a : ι → ι → G) (p q : ι) : G := if p < q then a p q else a q p

theorem edge_comm (a : ι → ι → G) {p q : ι} (h : p ≠ q) : edge a p q = edge a q p := by
  unfold edge
  rcases lt_or_gt_of_ne h with hlt | hlt
  · rw [if_pos hlt, if_neg hlt.not_gt]
  · rw [if_neg hlt.not_gt, if_pos hlt]

variable [XorGroup G]

/-- The share of party `p` among the parties `s`. -/
def padShare (s : Finset ι) (a : ι → ι → G) (p : ι) : G := ∑ q ∈ s.erase p, edge a p q

theorem edge_add (a b : ι → ι → G) (p q : ι) : edge (a + b) p q = edge a p q + edge b p q := by
  unfold edge
  split <;> rfl

theorem padShare_add (s : Finset ι) (a b : ι → ι → G) (p : ι) :
    padShare s (a + b) p = padShare s a p + padShare s b p := by
  rw [padShare, padShare, padShare, ← Finset.sum_add_distrib]
  exact Finset.sum_congr rfl fun q _ => edge_add a b p q

/-- Only pads of pairs with `p` enter its share. -/
theorem padShare_congr {s : Finset ι} {a b : ι → ι → G} {p : ι} (hp : p ∈ s)
    (h : ∀ i ∈ s, ∀ j ∈ s, i < j → i = p ∨ j = p → a i j = b i j) :
    padShare s a p = padShare s b p := by
  refine Finset.sum_congr rfl fun q hq => ?_
  obtain ⟨hne, hq⟩ := Finset.mem_erase.mp hq
  unfold edge
  rcases lt_or_gt_of_ne hne with hlt | hlt
  · rw [if_neg hlt.not_gt, if_neg hlt.not_gt, h q hq p hp hlt (Or.inr rfl)]
  · rw [if_pos hlt, if_pos hlt, h p hp q hq hlt (Or.inl rfl)]

/-- A share, with the pads to larger and to smaller parties apart. -/
theorem padShare_eq (s : Finset ι) (a : ι → ι → G) (p : ι) :
    padShare s a p = ∑ q ∈ s with p < q, a p q + ∑ q ∈ s with q < p, a q p := by
  have hsplit : s.erase p = (s.filter fun q => p < q) ∪ s.filter fun q => q < p := by
    ext q
    simp only [Finset.mem_erase, Finset.mem_union, Finset.mem_filter]
    refine ⟨?_, ?_⟩
    · intro h
      obtain ⟨hne, hq⟩ := h
      rcases lt_or_gt_of_ne hne with hlt | hlt
      · exact Or.inr ⟨hq, hlt⟩
      · exact Or.inl ⟨hq, hlt⟩
    · intro h
      rcases h with h | h
      · exact ⟨h.2.ne', h.1⟩
      · exact ⟨h.2.ne, h.1⟩
  have hdisj : Disjoint (s.filter fun q => p < q) (s.filter fun q => q < p) := by
    refine Finset.disjoint_filter.mpr fun q _ h h' => lt_asymm h h'
  rw [padShare, hsplit, Finset.sum_union hdisj]
  congr 1
  · refine Finset.sum_congr rfl fun q hq => ?_
    rw [edge, if_pos (Finset.mem_filter.mp hq).2]
  · refine Finset.sum_congr rfl fun q hq => ?_
    rw [edge, if_neg (Finset.mem_filter.mp hq).2.not_gt]

/-- **All shares add up to zero.** -/
theorem sum_padShare (s : Finset ι) (a : ι → ι → G) : ∑ p ∈ s, padShare s a p = 0 := by
  have hoff : ∑ p ∈ s, padShare s a p = ∑ x ∈ s.offDiag, edge a x.1 x.2 := by
    unfold padShare
    rw [Finset.sum_sigma']
    refine Finset.sum_bij' (fun x _ => (x.1, x.2)) (fun x _ => ⟨x.1, x.2⟩) ?_ ?_ ?_ ?_ ?_
    · intro x h
      simp only [Finset.mem_sigma, Finset.mem_erase] at h
      exact Finset.mem_offDiag.mpr ⟨h.1, h.2.2, h.2.1.symm⟩
    · intro x h
      obtain ⟨hp, hq, hne⟩ := Finset.mem_offDiag.mp h
      exact Finset.mem_sigma.mpr ⟨hp, Finset.mem_erase.mpr ⟨hne.symm, hq⟩⟩
    · intros; rfl
    · intros; rfl
    · intros; rfl
  rw [hoff]
  -- a pair and its mirror image cancel
  refine Finset.sum_involution (fun x _ => (x.2, x.1)) ?_ ?_ ?_ ?_
  · intro x h
    rw [edge_comm a (Finset.mem_offDiag.mp h).2.2, XorGroup.add_self_eq]
  · intro x h _ he
    exact (Finset.mem_offDiag.mp h).2.2 (Prod.mk.inj he).1.symm
  · intro x h
    obtain ⟨hp, hq, hne⟩ := Finset.mem_offDiag.mp h
    exact Finset.mem_offDiag.mpr ⟨hq, hp, hne.symm⟩
  · intros; rfl

/-! ## Moving pads along a star -/

/-- The pads `d p` on the pairs of `p` with `h`, zero elsewhere. -/
def star (h : ι) (d : ι → G) (i j : ι) : G := if i = h then d j else if j = h then d i else 0

theorem edge_star (h : ι) (d : ι → G) {p q : ι} (hne : p ≠ q) :
    edge (star h d) p q = if p = h then d q else if q = h then d p else 0 := by
  unfold edge star
  by_cases hp : p = h
  · have hq : q ≠ h := fun hq => hne (hp.trans hq.symm)
    simp [hp, hq]
  · by_cases hq : q = h
    · simp [hp, hq]
    · simp [hp, hq]

/-- Along the star, every other party's share changes by `d`. -/
theorem padShare_star {s : Finset ι} {h p : ι} (d : ι → G) (hh : h ∈ s) (hp : p ≠ h) :
    padShare s (star h d) p = d p := by
  rw [padShare, Finset.sum_eq_single h]
  · rw [edge_star h d hp, if_neg hp, if_pos rfl]
  · intro q hq hqh
    rw [edge_star h d (Finset.ne_of_mem_erase hq).symm, if_neg hp, if_neg hqh]
  · intro hno
    exact absurd (Finset.mem_erase.mpr ⟨hp.symm, hh⟩) hno

/-- The centre's share changes by the same, if the changes add up to zero. -/
theorem padShare_star_center {s : Finset ι} {h : ι} (d : ι → G) (hh : h ∈ s)
    (hd : ∑ p ∈ s, d p = 0) : padShare s (star h d) h = d h := by
  have : padShare s (star h d) h = ∑ q ∈ s.erase h, d q := by
    refine Finset.sum_congr rfl fun q hq => ?_
    rw [edge_star h d (Finset.ne_of_mem_erase hq).symm, if_pos rfl]
  rw [this]
  rw [← Finset.add_sum_erase s d hh] at hd
  exact (XorGroup.add_eq_zero_iff.mp hd).symm

/-! ## Counting -/

/-- A pair of distinct parties of `H`, the smaller first. -/
abbrev PairOf (H : Finset ι) := {x : ι × ι // x.1 ∈ H ∧ x.2 ∈ H ∧ x.1 < x.2}

/-- The pads `a` on the pairs inside `H`, and `fixed` on all others. -/
def padsOf (H : Finset ι) (fixed : ι → ι → G) (a : PairOf H → G) (i j : ι) : G :=
  if h : i ∈ H ∧ j ∈ H ∧ i < j then a ⟨(i, j), h⟩ else fixed i j

/-- Adding to the pads inside `H` what a star with changes inside `H` gives them. -/
theorem padShare_padsOf_add {s H : Finset ι} {h p : ι} (fixed : ι → ι → G) (a : PairOf H → G)
    {d : ι → G} (hh : h ∈ H) (hd : ∀ i ∉ H, d i = 0) (hp : p ∈ s) :
    padShare s (padsOf H fixed (a + fun x => star h d x.1.1 x.1.2)) p
      = padShare s (padsOf H fixed a) p + padShare s (star h d) p := by
  rw [← padShare_add]
  refine padShare_congr hp fun i _ j _ hij _ => ?_
  unfold padsOf
  rw [Pi.add_apply, Pi.add_apply]
  by_cases hin : i ∈ H ∧ j ∈ H
  · rw [dif_pos ⟨hin.1, hin.2, hij⟩, dif_pos ⟨hin.1, hin.2, hij⟩]
    rfl
  · have hout : ¬ (i ∈ H ∧ j ∈ H ∧ i < j) := fun hc => hin ⟨hc.1, hc.2.1⟩
    have hzero : star h d i j = 0 := by
      unfold star
      split
      · next hi => exact hd j fun hj => hin ⟨hi ▸ hh, hj⟩
      · split
        · next hj => exact hd i fun hi => hin ⟨hi, hj ▸ hh⟩
        · rfl
    rw [dif_neg hout, dif_neg hout, hzero, add_zero]

/-- **Any two assignments of shares to the parties of `H` with the same total come from equally
many choices of the pads inside `H`.** -/
theorem card_share_eq {s H : Finset ι} (hsub : H ⊆ s) {h : ι} (hh : h ∈ H) (fixed : ι → ι → G)
    {v w : ι → G} (htotal : ∑ p ∈ H, v p = ∑ p ∈ H, w p) :
    Nat.card {a : PairOf H → G // ∀ p ∈ H, padShare s (padsOf H fixed a) p = v p}
      = Nat.card {a : PairOf H → G // ∀ p ∈ H, padShare s (padsOf H fixed a) p = w p} := by
  -- the change from `v` to `w`
  let d : ι → G := fun p => if p ∈ H then v p + w p else 0
  have hdH : ∀ p ∈ H, d p = v p + w p := fun p hp => if_pos hp
  have hdout : ∀ p ∉ H, d p = 0 := fun p hp => if_neg hp
  have hdsum : ∑ p ∈ s, d p = 0 := by
    rw [← Finset.sum_subset hsub fun p _ hp => hdout p hp, Finset.sum_congr rfl hdH,
      Finset.sum_add_distrib, htotal, XorGroup.add_self_eq]
  have hstar : ∀ p ∈ H, padShare s (star h d) p = v p + w p := by
    intro p hp
    by_cases hph : p = h
    · rw [hph, padShare_star_center d (hsub hh) hdsum, hdH h hh]
    · rw [padShare_star d (hsub hh) hph, hdH p hp]
  refine Nat.card_congr (Equiv.subtypeEquiv (Equiv.addRight fun x => star h d x.1.1 x.1.2) ?_)
  intro a
  refine forall₂_congr fun p hp => ?_
  show _ ↔ padShare s (padsOf H fixed (a + fun x => star h d x.1.1 x.1.2)) p = w p
  rw [padShare_padsOf_add fixed a hh hdout (hsub hp), hstar p hp]
  refine ⟨?_, ?_⟩
  · intro he
    rw [he, XorGroup.add_cancel_left]
  · intro he
    calc padShare s (padsOf H fixed a) p = w p + (v p + w p) := XorGroup.eq_add_iff.mpr he
      _ = v p := by rw [add_comm (v p), XorGroup.add_cancel_left]

end Lib
