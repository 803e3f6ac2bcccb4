import Mathlib.Data.ZMod.Basic
import Mathlib.Data.ZMod.Units

/-!
# Modular arithmetic of big integers

The operations of NTL that `PaillierParty.cpp` calls. The library is not part of the repository:
they are defined here by its documentation. They take and return representatives, numbers below
the modulus. An inverse that does not exist is an error, and so is a negative power of a number
that has none.
-/

namespace MultiPartyPSI

/-- `AddMod`. -/
def addMod (a b n : ℕ) : ℕ := (a + b) % n

/-- `MulMod`. -/
def mulMod (a b n : ℕ) : ℕ := a * b % n

/-- `PowerMod`, for an exponent that is not negative. -/
def powerMod (a e n : ℕ) : ℕ := a ^ e % n

/-- `InvMod`. -/
def invMod (a n : ℕ) : Option ℕ :=
  if a.gcd n = 1 then some (a.gcdA n % n).toNat else none

/-- `PowerMod`. -/
def powerModZZ (a : ℕ) (e : ℤ) (n : ℕ) : Option ℕ :=
  match e with
  | .ofNat e => some (powerMod a e n)
  | .negSucc e => (invMod a n).map fun b => powerMod b (e + 1) n

section Cast

variable (a b e : ℕ) {n : ℕ}

@[simp] theorem cast_addMod : (addMod a b n : ZMod n) = a + b := by
  rw [addMod, ZMod.natCast_mod, Nat.cast_add]

@[simp] theorem cast_mulMod : (mulMod a b n : ZMod n) = a * b := by
  rw [mulMod, ZMod.natCast_mod, Nat.cast_mul]

@[simp] theorem cast_powerMod : (powerMod a e n : ZMod n) = (a : ZMod n) ^ e := by
  rw [powerMod, ZMod.natCast_mod, Nat.cast_pow]

theorem mulMod_lt (hn : 0 < n) : mulMod a b n < n := Nat.mod_lt _ hn

variable {a}

theorem invMod_some (hn : 0 < n) (h : a.Coprime n) :
    ∃ b, invMod a n = some b ∧ (b : ZMod n) * a = 1 := by
  refine ⟨(a.gcdA n % n).toNat, if_pos h, ?_⟩
  have hpos : 0 ≤ a.gcdA n % n := Int.emod_nonneg _ (by omega)
  have hcast : (((a.gcdA n % n).toNat : ℕ) : ZMod n) = (a.gcdA n : ZMod n) := by
    rw [← Int.cast_natCast, Int.toNat_of_nonneg hpos, ZMod.intCast_mod]
  have hgcd := congrArg (Int.cast : ℤ → ZMod n) (Nat.gcd_eq_gcd_ab a n)
  rw [h] at hgcd
  push_cast at hgcd
  rw [ZMod.natCast_self, zero_mul, add_zero] at hgcd
  rw [hcast, mul_comm]
  exact hgcd.symm

theorem invMod_none (h : ¬ a.Coprime n) : invMod a n = none := if_neg h

/-- A power of a unit is its power in the group of units. -/
theorem powerModZZ_unit (hn : 0 < n) {u : (ZMod n)ˣ} (hu : (a : ZMod n) = u) (e : ℤ) :
    ∃ r, powerModZZ a e n = some r ∧ (r : ZMod n) = ((u ^ e : (ZMod n)ˣ) : ZMod n) := by
  cases e with
  | ofNat e =>
      refine ⟨_, rfl, ?_⟩
      rw [cast_powerMod, hu]
      exact (Units.val_pow_eq_pow_val u e).symm
  | negSucc e =>
      have hcop : a.Coprime n := by
        rw [← ZMod.isUnit_iff_coprime, hu]
        exact u.isUnit
      obtain ⟨b, hb, hba⟩ := invMod_some hn hcop
      refine ⟨_, by rw [powerModZZ, hb]; rfl, ?_⟩
      have hinv : (b : ZMod n) = (u⁻¹ : (ZMod n)ˣ) := by
        rw [hu] at hba
        exact Units.eq_inv_of_mul_eq_one_right hba
      rw [cast_powerMod, hinv, zpow_negSucc, ← inv_pow]
      exact (Units.val_pow_eq_pow_val u⁻¹ (e + 1)).symm

end Cast

end MultiPartyPSI
