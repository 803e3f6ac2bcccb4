import Mathlib.FieldTheory.Finite.Basic
import Mathlib.Tactic.LinearCombination

/-!
# Arithmetic modulo a square

Modulo `N * N` the powers of `1 + N` are the numbers `1 + N * k`: they are a copy of the
numbers modulo `N` with addition, and `L v = (v - 1) / N` reads `k` off. The `N`-th powers
of the units die under the totient of `N`, so a unit that is a power of `1 + N` times an
`N`-th power shows only the first factor once it is raised to a multiple of the totient.
-/

namespace Lib

theorem totient_mul_self (N : ℕ) (h : 0 < N) : (N * N).totient = N * N.totient := by
  have := Nat.totient_gcd_mul_totient_mul N N
  rw [Nat.gcd_self, Nat.mul_assoc] at this
  rw [Nat.eq_of_mul_eq_mul_left (Nat.totient_pos.mpr h) this, Nat.mul_comm]

section Square

variable {N : ℕ}

theorem cast_mul_self : (N : ZMod (N * N)) * N = 0 := by
  rw [← Nat.cast_mul, ZMod.natCast_self]

theorem one_add_pow (k : ℕ) : (1 + N : ZMod (N * N)) ^ k = 1 + N * k := by
  induction k with
  | zero => simp
  | succ k ih =>
      rw [pow_succ, ih]
      push_cast
      linear_combination (k : ZMod (N * N)) * cast_mul_self

theorem isUnit_one_add : IsUnit (1 + N : ZMod (N * N)) :=
  IsUnit.of_mul_eq_one (1 - N : ZMod (N * N)) (by linear_combination -cast_mul_self)

/-- Every unit modulo the square dies under `N` times the totient. -/
theorem pow_self_mul_totient (hN : 0 < N) (u : (ZMod (N * N))ˣ) : u ^ (N * N.totient) = 1 := by
  rw [← totient_mul_self N hN]
  exact ZMod.pow_totient u

/-- What is left of a unit `(1 + N) ^ k * x ^ N` under a multiple of the totient. -/
theorem pow_mul_totient {u x : (ZMod (N * N))ˣ} {k : ℕ} (hN : 0 < N)
    (hu : (u : ZMod (N * N)) = (1 + N) ^ k * (x ^ N : (ZMod (N * N))ˣ)) (t : ℕ) :
    ((u ^ (N.totient * t) : (ZMod (N * N))ˣ) : ZMod (N * N)) = 1 + N * (k * N.totient * t : ℕ) := by
  have hxt : (x ^ N) ^ (N.totient * t) = 1 := by
    rw [← pow_mul, ← mul_assoc, pow_mul, pow_self_mul_totient hN, one_pow]
  rw [Units.val_pow_eq_pow_val, hu, mul_pow, ← Units.val_pow_eq_pow_val, hxt, Units.val_one,
    mul_one, ← pow_mul, one_add_pow, mul_assoc]

/-- Reading `k` off a representative of `1 + N * k`. -/
theorem eq_one_add_mul_mod {v k : ℕ} (hN : 1 < N) (hv : v < N * N)
    (h : (v : ZMod (N * N)) = 1 + N * k) : v = 1 + N * (k % N) := by
  have hlt : 1 + N * (k % N) < N * N := by
    have : k % N + 1 ≤ N := Nat.mod_lt k (by omega)
    calc 1 + N * (k % N) < N + N * (k % N) := Nat.add_lt_add_right hN _
      _ = N * (k % N + 1) := by ring
      _ ≤ N * N := Nat.mul_le_mul_left N this
  have hcast : ((v : ℕ) : ZMod (N * N)) = ((1 + N * (k % N) : ℕ) : ZMod (N * N)) := by
    have hk : ((N * k : ℕ) : ZMod (N * N)) = (N * (k % N) : ℕ) := by
      rw [ZMod.natCast_eq_natCast_iff', Nat.mul_mod_mul_left, Nat.mul_mod_mul_left, Nat.mod_mod]
    rw [h, ← Nat.cast_mul, hk]
    push_cast
    rfl
  rwa [ZMod.natCast_eq_natCast_iff', Nat.mod_eq_of_lt hv, Nat.mod_eq_of_lt hlt] at hcast

end Square

end Lib
