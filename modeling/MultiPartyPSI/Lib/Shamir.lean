import Mathlib.Algebra.Group.ForwardDiff
import Mathlib.Data.ZMod.Basic
import Mathlib.GroupTheory.OrderOfElement
import Mathlib.Tactic.FieldSimp
import Mathlib.Tactic.LinearCombination

/-!
# Recovering a shared value in the exponent

A value is the constant coefficient of a polynomial of degree below `n`, and the shares
are the values of the polynomial at `1 .. n`. Interpolation at zero weighs share `j` by
the product over the other nodes `i` of `i / (i - j)`, which is a binomial coefficient up
to sign: so the weights are integers, and recovery needs no division. It works in any
commutative ring, and for shares in the exponent of an element whose order is not known.
-/

namespace Lib

open Finset

/-- The weight of the share at `i + 1` among the shares at `1 .. n`. -/
def lagrangeAtZero (n i : ℕ) : ℤ := (-1) ^ i * n.choose (i + 1)

/-- What node `k + 1` contributes to the weight of node `i + 1`. -/
def nodeRatio (i k : ℕ) : ℚ := if k = i then 1 else (k + 1) / (k - i)

theorem nodeRatio_mul {i k : ℕ} (h : k ≠ i) : nodeRatio i k * (k - i) = k + 1 := by
  have hne : (k : ℚ) - i ≠ 0 := sub_ne_zero.mpr (Nat.cast_injective.ne h)
  rw [nodeRatio, if_neg h, div_mul_cancel₀ _ hne]

/-- Before the node itself the product is the inverse of a binomial coefficient. -/
theorem prod_nodeRatio_before {i m : ℕ} (hm : m ≤ i) :
    (∏ k ∈ range m, nodeRatio i k) * i.choose m = (-1) ^ m := by
  induction m with
  | zero => simp
  | succ m ih =>
      have hratio := nodeRatio_mul (i := i) (k := m) (by omega)
      have hstep : (i.choose (m + 1) : ℚ) * (m + 1) = i.choose m * (i - m) := by
        have := Nat.choose_succ_right_eq i m
        rw [← Nat.cast_sub (by omega)]
        exact_mod_cast this
      have hm1 : (m : ℚ) + 1 ≠ 0 := by positivity
      have ih := ih (by omega)
      refine mul_right_cancel₀ hm1 ?_
      rw [prod_range_succ, pow_succ]
      calc (∏ k ∈ range m, nodeRatio i k) * nodeRatio i m * i.choose (m + 1) * (m + 1)
          = (∏ k ∈ range m, nodeRatio i k) * nodeRatio i m * (i.choose (m + 1) * (m + 1)) := by
            ring
        _ = ((∏ k ∈ range m, nodeRatio i k) * i.choose m) * -(nodeRatio i m * (m - i)) := by
            rw [hstep]; ring
        _ = (-1) ^ m * -1 * (m + 1) := by rw [ih, hratio]; ring

/-- **The weights** are the products that interpolation at zero asks for. -/
theorem prod_nodeRatio {n i : ℕ} (hi : i < n) :
    ∏ k ∈ range n, nodeRatio i k = lagrangeAtZero n i := by
  induction n with
  | zero => exact absurd hi (Nat.not_lt_zero i)
  | succ n ih =>
      rw [prod_range_succ, lagrangeAtZero]
      push_cast
      rcases Nat.lt_succ_iff_lt_or_eq.mp hi with hlt | rfl
      · have ih := ih hlt
        rw [lagrangeAtZero] at ih
        push_cast at ih
        have hratio := nodeRatio_mul (i := i) (k := n) (by omega)
        have hne : (n : ℚ) - i ≠ 0 := sub_ne_zero.mpr (Nat.cast_injective.ne (by omega))
        have hstep : ((n + 1).choose (i + 1) : ℚ) * (n - i) = n.choose (i + 1) * (n + 1) := by
          have := Nat.choose_mul_succ_eq n (i + 1)
          rw [← Nat.cast_sub hlt.le]
          rw [show n + 1 - (i + 1) = n - i by omega] at this
          exact_mod_cast this.symm
        refine mul_right_cancel₀ hne ?_
        rw [ih, mul_assoc, hratio, mul_assoc, ← hstep, mul_assoc]
      · -- the node itself contributes nothing
        have := prod_nodeRatio_before (le_refl i)
        rw [Nat.choose_self, Nat.cast_one, mul_one] at this
        rw [this, nodeRatio, if_pos rfl, Nat.choose_self, Nat.cast_one]

/-- The shares of a polynomial, weighed, add up to its constant coefficient. -/
theorem sum_lagrangeAtZero {R : Type*} [CommRing R] {n : ℕ} (hn : 0 < n) (P : ℕ → R) :
    ∑ i ∈ range n, (lagrangeAtZero n i : R) * ∑ k ∈ range n, P k * ((i + 1 : ℕ) : R) ^ k = P 0 := by
  -- the `n`-th difference of the polynomial vanishes, at zero in particular
  have hdiff := congrFun (fwdDiff_iter_sum_mul_pow_eq_zero (R := R) (n := n) P) 0
  rw [fwdDiff_iter_eq_sum_shift, sum_range_succ', Pi.zero_apply] at hdiff
  have hzero : ∑ k ∈ range n, P k * (0 + (0 : ℕ) • (1 : R)) ^ k = P 0 := by
    rw [sum_eq_single_of_mem 0 (mem_range.mpr hn)]
    · simp
    · intro k _ hk
      simp [hk]
  have hsign : ∀ i ∈ range n, ((-1 : ℤ) ^ (n - (i + 1)) * n.choose (i + 1)) •
      ∑ k ∈ range n, P k * (0 + (i + 1) • (1 : R)) ^ k
        = -(-1) ^ n * ((lagrangeAtZero n i : R)
          * ∑ k ∈ range n, P k * ((i + 1 : ℕ) : R) ^ k) := by
    intro i hi
    have hlt := mem_range.mp hi
    have hpow : (-1 : R) ^ (n - (i + 1)) = -(-1) ^ n * (-1) ^ i := by
      rw [neg_mul, ← pow_add, show n + i = n - (i + 1) + (2 * i + 1) by omega, pow_add, pow_succ,
        pow_mul]
      simp
    rw [zsmul_eq_mul, lagrangeAtZero]
    push_cast
    rw [hpow, nsmul_one, zero_add]
    push_cast
    ring
  rw [hzero, sum_congr rfl hsign, ← mul_sum] at hdiff
  generalize ∑ i ∈ range n, (lagrangeAtZero n i : R)
    * ∑ k ∈ range n, P k * ((i + 1 : ℕ) : R) ^ k = S at hdiff ⊢
  have hone : (-1 : R) ^ n * (-1) ^ n = 1 := by rw [← mul_pow]; simp
  rw [zsmul_eq_mul, Nat.sub_zero, Nat.choose_zero_right] at hdiff
  push_cast at hdiff
  linear_combination (-(-1) ^ n) * hdiff + (P 0 - S) * hone

theorem prod_zpow_zpow {G : Type*} [CommGroup G] (u : G) (s w : ℕ → ℤ) (n : ℕ) :
    ∏ i ∈ range n, (u ^ s i) ^ w i = u ^ ∑ i ∈ range n, s i * w i := by
  induction n with
  | zero => simp
  | succ n ih => rw [prod_range_succ, ih, sum_range_succ, zpow_add, zpow_mul]

/-- Recovery in the exponent: the shares and the value are known modulo some multiple of the
order of the base only. -/
theorem prod_pow_shares {G : Type*} [CommGroup G] {E n : ℕ} (hn : 0 < n) {u : G} (hu : u ^ E = 1)
    (P : ℕ → ZMod E) {s : ℕ → ℤ} {d : ℤ}
    (hs : ∀ i < n, (s i : ZMod E) = ∑ k ∈ range n, P k * ((i + 1 : ℕ) : ZMod E) ^ k)
    (hd : (d : ZMod E) = P 0) :
    ∏ i ∈ range n, (u ^ s i) ^ lagrangeAtZero n i = u ^ d := by
  have hsum : ((∑ i ∈ range n, s i * lagrangeAtZero n i : ℤ) : ZMod E) = (d : ZMod E) := by
    rw [hd, ← sum_lagrangeAtZero hn P]
    push_cast
    refine sum_congr rfl fun i hi => ?_
    rw [hs i (mem_range.mp hi), mul_comm]
    push_cast
    rfl
  have hmod : (orderOf u : ℤ) ∣ d - ∑ i ∈ range n, s i * lagrangeAtZero n i := by
    refine dvd_trans (Int.natCast_dvd_natCast.mpr (orderOf_dvd_of_pow_eq_one hu)) ?_
    rw [← ZMod.intCast_eq_intCast_iff_dvd_sub]
    exact hsum
  calc ∏ i ∈ range n, (u ^ s i) ^ lagrangeAtZero n i
      = u ^ ∑ i ∈ range n, s i * lagrangeAtZero n i := prod_zpow_zpow u s _ n
    _ = u ^ d := zpow_eq_zpow_iff_modEq.mpr (Int.modEq_iff_dvd.mpr hmod)

end Lib
