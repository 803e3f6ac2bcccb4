import Mathlib.Data.Nat.Log
import Mathlib.Tactic.Ring

/-!
# Rounding and logarithms

The macros and helpers of `util/typedefs.h`. Both logarithms take an `int` and
count shifts until it is zero, so they are specified for counts below `2 ^ 31`
only, and both special-case `1`: from two bins on they are the mathematical
ceiling and floor, which is where every bin count of the program lies.
-/

namespace MultiPartyPSI

/-- `ceil_divide`. -/
def ceilDivide (x y : Nat) : Nat := if x > 0 then (x - 1) / y + 1 else 0

/-- `pad_to_multiple`. -/
def padToMultiple (x y : Nat) : Nat := ceilDivide x y * y

/-- `while (bits >>= 1) ++targetlevel;` from a target level of zero. -/
def targetLevel (bits : Nat) : Nat :=
  if bits >>> 1 = 0 then 0 else targetLevel (bits >>> 1) + 1
termination_by bits
decreasing_by rw [Nat.shiftRight_one] at *; omega

/-- `ceil_log2`. -/
def ceilLog2 (bits : Nat) : Nat :=
  if bits = 1 then 1
  else targetLevel bits + if 1 <<< targetLevel bits < bits then 1 else 0

/-- `floor_log2`. -/
def floorLog2 (bits : Nat) : Nat := if bits = 1 then 1 else targetLevel bits

theorem ceilDivide_eight (x : Nat) : ceilDivide x 8 = (x + 7) / 8 := by
  unfold ceilDivide; split <;> omega

theorem le_ceilDivide_mul (x : Nat) {y : Nat} (hy : 0 < y) : x ≤ ceilDivide x y * y := by
  unfold ceilDivide
  split
  · have := Nat.lt_div_mul_add hy (a := x - 1)
    rw [Nat.add_one_mul]
    omega
  · omega

/-- The rounds of `for (pos = 0; pos < x; pos += y)`. -/
theorem lt_ceilDivide_iff {x y t : Nat} (hy : 0 < y) : t < ceilDivide x y ↔ t * y < x := by
  unfold ceilDivide
  split
  · rw [Nat.lt_succ_iff, Nat.le_div_iff_mul_le hy]
    omega
  · omega

theorem targetLevel_eq_log (bits : Nat) : targetLevel bits = Nat.log 2 bits := by
  induction bits using targetLevel.induct with
  | case1 bits h =>
      rw [targetLevel, if_pos h]
      rw [Nat.shiftRight_one] at h
      exact (Nat.log_of_lt (by omega)).symm
  | case2 bits h ih =>
      rw [targetLevel, if_neg h, ih, Nat.shiftRight_one]
      rw [Nat.shiftRight_one] at h
      exact (Nat.log_of_one_lt_of_le Nat.one_lt_two (by omega)).symm

theorem floorLog2_eq_log {bits : Nat} (h : 2 ≤ bits) : floorLog2 bits = Nat.log 2 bits := by
  rw [floorLog2, if_neg (by omega), targetLevel_eq_log]

theorem ceilLog2_eq_clog {bits : Nat} (h : 2 ≤ bits) : ceilLog2 bits = Nat.clog 2 bits := by
  rw [ceilLog2, if_neg (by omega), targetLevel_eq_log, Nat.one_shiftLeft]
  have hlow : 2 ^ Nat.log 2 bits ≤ bits := Nat.pow_log_le_self 2 (by omega)
  have hup : bits < 2 ^ (Nat.log 2 bits + 1) := Nat.lt_pow_succ_log_self Nat.one_lt_two bits
  split
  · next hlt =>
      have := (Nat.lt_clog_iff_pow_lt Nat.one_lt_two).mpr hlt
      have := Nat.clog_le_of_le_pow hup.le
      omega
  · next hge =>
      have := Nat.clog_le_of_le_pow (Nat.not_lt.mp hge)
      have := Nat.log_le_clog 2 bits
      omega

/-- A bin count is at most two to its ceiling logarithm. -/
theorem le_two_pow_ceilLog2 {bits : Nat} (h : 2 ≤ bits) : bits ≤ 2 ^ ceilLog2 bits := by
  rw [ceilLog2_eq_clog h]
  exact Nat.le_pow_clog Nat.one_lt_two bits

theorem ceilLog2_le {bits k : Nat} (h : 2 ≤ bits) (hk : bits ≤ 2 ^ k) : ceilLog2 bits ≤ k := by
  rw [ceilLog2_eq_clog h]
  exact Nat.clog_le_of_le_pow hk

theorem ceilLog2_pos {bits : Nat} (h : 2 ≤ bits) : 0 < ceilLog2 bits := by
  rw [ceilLog2_eq_clog h]
  exact Nat.clog_pos Nat.one_lt_two h

/-- The two logarithms agree exactly on the powers of two. -/
theorem floorLog2_eq_ceilLog2_iff {bits : Nat} (h : 2 ≤ bits) :
    floorLog2 bits = ceilLog2 bits ↔ 2 ^ ceilLog2 bits ≤ bits := by
  rw [floorLog2_eq_log h, ceilLog2_eq_clog h]
  refine ⟨?_, ?_⟩
  · intro he
    rw [← he]
    exact Nat.pow_log_le_self 2 (by omega)
  · intro hp
    exact le_antisymm (Nat.log_le_clog 2 bits)
      (Nat.le_log_of_pow_le Nat.one_lt_two hp)

/-- Elsewhere the floor is one less. -/
theorem floorLog2_add_one {bits : Nat} (h : 2 ≤ bits) (hp : bits < 2 ^ ceilLog2 bits) :
    floorLog2 bits + 1 = ceilLog2 bits := by
  have hle : floorLog2 bits ≤ ceilLog2 bits := by
    rw [floorLog2_eq_log h, ceilLog2_eq_clog h]
    exact Nat.log_le_clog 2 bits
  have hne : floorLog2 bits ≠ ceilLog2 bits := fun he =>
    absurd ((floorLog2_eq_ceilLog2_iff h).mp he) (by omega)
  have hup : ceilLog2 bits ≤ floorLog2 bits + 1 := by
    rw [floorLog2_eq_log h]
    exact ceilLog2_le h (Nat.lt_pow_succ_log_self Nat.one_lt_two bits).le
  omega

end MultiPartyPSI
