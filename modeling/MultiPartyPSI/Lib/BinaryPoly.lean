import Mathlib.Algebra.Field.ZMod
import Mathlib.Algebra.Polynomial.BigOperators
import Mathlib.Algebra.Polynomial.Degree.Lemmas
import Mathlib.Data.Nat.Bitwise

/-!
# Polynomials over GF(2) as numbers

A number stands for the polynomial whose coefficients are its bits. `toBits n` goes back, for
the first `n` coefficients. The reading is exact on both sides: bit `k` is coefficient `k`.
-/

namespace Lib

open Polynomial

/-- The polynomial whose coefficients are the bits of `a`. -/
noncomputable def ofBits (a : ℕ) : (ZMod 2)[X] :=
  ∑ k ∈ Finset.range a, if a.testBit k then X ^ k else 0

/-- The number whose first `n` bits are coefficients of `f`. -/
noncomputable def toBits : ℕ → (ZMod 2)[X] → ℕ
  | 0, _ => 0
  | n + 1, f => 2 ^ n * (if f.coeff n = 1 then 1 else 0) + toBits n f

theorem coeff_ofBits (a k : ℕ) : (ofBits a).coeff k = if a.testBit k then 1 else 0 := by
  have hcoeff : ∀ i, (if a.testBit i then (X : (ZMod 2)[X]) ^ i else 0).coeff k
      = if i = k then if a.testBit k then 1 else 0 else 0 := by
    intro i
    by_cases hik : i = k
    · rw [if_pos hik, hik]
      split
      · rw [coeff_X_pow_self]
      · rw [coeff_zero]
    · rw [if_neg hik]
      split
      · rw [coeff_X_pow, if_neg (Ne.symm hik)]
      · rw [coeff_zero]
  rw [ofBits, finsetSum_coeff, Finset.sum_congr rfl fun i _ => hcoeff i, Finset.sum_ite_eq']
  split
  · rfl
  · next hk =>
      -- a number has no bits from its own value on
      rw [Finset.mem_range, Nat.not_lt] at hk
      rw [Nat.testBit_lt_two_pow (hk.trans_lt Nat.lt_two_pow_self)]
      rfl

theorem toBits_lt (n : ℕ) (f : (ZMod 2)[X]) : toBits n f < 2 ^ n := by
  induction n with
  | zero => exact Nat.one_pos
  | succ n ih =>
      rw [toBits, Nat.pow_succ]
      split
      · omega
      · omega

theorem testBit_toBits (n : ℕ) (f : (ZMod 2)[X]) (k : ℕ) :
    (toBits n f).testBit k = decide (k < n ∧ f.coeff k = 1) := by
  induction n with
  | zero => simp [toBits]
  | succ n ih =>
      rw [toBits, Nat.testBit_two_pow_mul_add _ (toBits_lt n f)]
      rcases Nat.lt_trichotomy k n with hk | rfl | hk
      · rw [if_pos hk, ih]
        exact decide_eq_decide.mpr (and_congr_left' ⟨fun _ => by omega, fun _ => hk⟩)
      · rw [if_neg (Nat.lt_irrefl k), Nat.sub_self]
        by_cases hone : f.coeff k = 1
        · simp [hone]
        · simp [hone]
      · rw [if_neg (Nat.lt_asymm hk), decide_eq_false fun h => by omega]
        obtain ⟨d, hd⟩ := Nat.exists_eq_add_of_lt hk
        rw [show k - n = d + 1 by omega]
        split
        · rw [Nat.testBit_succ]
          exact Nat.zero_testBit d
        · exact Nat.zero_testBit (d + 1)

theorem eq_one_iff_ne_zero (a : ZMod 2) : a = 1 ↔ a ≠ 0 := by
  revert a
  decide

/-- Back and forth, for a polynomial with no other coefficients. -/
theorem ofBits_toBits {n : ℕ} {f : (ZMod 2)[X]} (hf : f.degree < n) : ofBits (toBits n f) = f := by
  ext k
  rw [coeff_ofBits, testBit_toBits]
  by_cases hk : k < n
  · by_cases hone : f.coeff k = 1
    · rw [if_pos (decide_eq_true ⟨hk, hone⟩), hone]
    · rw [if_neg (by simp [hone])]
      exact (not_not.mp ((eq_one_iff_ne_zero _).not.mp hone)).symm
  · have hzero : f.coeff k = 0 :=
      coeff_eq_zero_of_degree_lt (hf.trans_le (Nat.cast_le.mpr (Nat.le_of_not_lt hk)))
    rw [if_neg (by simp [hk]), hzero]

end Lib
