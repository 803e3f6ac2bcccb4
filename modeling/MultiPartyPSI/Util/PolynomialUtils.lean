import MultiPartyPSI.Lib.BinaryPoly
import MultiPartyPSI.Lib.LittleEndian
import Mathlib.RingTheory.AdjoinRoot

/-!
# Field elements and bytes

`PolynomialUtils.cpp`. A field element is a polynomial over GF(2) modulo an irreducible one, and
is written as the bits of its representative, with as many bytes as these need. Reading reduces,
so whatever was written comes back, also with zeros behind it.
-/

namespace MultiPartyPSI

open Lib Buf Polynomial

section Model

/-- What the parties use of `GF2E`: a polynomial over GF(2) is the number whose bits are its
coefficients, and `rep` is the reduced polynomial of a field element. -/
structure GF2EOps (E Poly : Type*) where
  toGF2E : Nat → E
  rep : E → Nat
  eval : Poly → E → E

variable {E Poly : Type*}

/-- `NumBytes`. -/
def numBytes (a : Nat) : Nat := ((if a = 0 then 0 else Nat.log2 a + 1) + 7) / 8

/-- `BytesFromGF2X`, into a fresh vector of `n` bytes. -/
def bytesFromGF2X (a n : Nat) : List Byte := (List.range n).map (ofNatLE a)

/-- `PolynomialUtils::convertBytesToGF2E`, at `elementByts + pos`. -/
def convertBytesToGF2E (ops : GF2EOps E Poly) (elementByts : Buf Byte) (pos size : Nat) : E :=
  ops.toGF2E (loadLE elementByts pos size)

/-- `PolynomialUtils::convertGF2XToBytes`. -/
def convertGF2XToBytes (element : Nat) : List Byte := bytesFromGF2X element (numBytes element)

/-- `PolynomialUtils::convertElementToBytes`. -/
def convertElementToBytes (ops : GF2EOps E Poly) (element : E) : List Byte :=
  convertGF2XToBytes (ops.rep element)

end Model

section Bytes

variable {E Poly : Type*} (ops : GF2EOps E Poly)

/-- The `w` low bytes of a field element. -/
def encoding (w : Nat) (v : E) : Fin w → Byte :=
  fun j => ofNatLE (ops.rep v) j

theorem length_convertElementToBytes (v : E) :
    (convertElementToBytes ops v).length = numBytes (ops.rep v) := by
  rw [convertElementToBytes, convertGF2XToBytes, bytesFromGF2X, List.length_map,
    List.length_range]

/-- A number has no bits behind its bytes. -/
theorem lt_two_pow_numBytes (a : ℕ) : a < 2 ^ (8 * numBytes a) := by
  by_cases ha : a = 0
  · rw [ha]
    exact Nat.two_pow_pos _
  · refine Nat.lt_of_lt_of_le Nat.lt_log2_self (Nat.pow_le_pow_right (by decide) ?_)
    rw [numBytes, if_neg ha]
    omega

theorem ofNatLE_eq_zero {a i : ℕ} (h : a < 2 ^ (8 * i)) : ofNatLE a i = 0 := by
  refine byte_ext fun k hk => ?_
  rw [← bit_add _ i k hk, bit_ofNatLE,
    Nat.testBit_lt_two_pow (h.trans_le (Nat.pow_le_pow_right (by decide) (Nat.le_add_right _ k)))]
  exact (BitVec.getLsbD_zero).symm

/-- The bytes of an element with zeros behind them. -/
theorem getD_convertElementToBytes (v : E) (n i : ℕ) :
    (convertElementToBytes ops v ++ List.replicate n 0).getD i 0 = ofNatLE (ops.rep v) i := by
  by_cases hi : i < numBytes (ops.rep v)
  · rw [List.getD_append _ _ _ _ (by rwa [length_convertElementToBytes]),
      List.getD_eq_getElem?_getD, convertElementToBytes, convertGF2XToBytes, bytesFromGF2X,
      List.getElem?_map,
      List.getElem?_range hi]
    rfl
  · have hzero : ofNatLE (ops.rep v) i = 0 := ofNatLE_eq_zero
      ((lt_two_pow_numBytes _).trans_le (Nat.pow_le_pow_right (by decide) (by omega)))
    rw [List.getD_append_right _ _ _ _ (by rw [length_convertElementToBytes]; omega), hzero]
    rw [List.getD_eq_getElem?_getD, List.getElem?_replicate]
    split
    · rfl
    · rfl

end Bytes

/-! ## The field -/

section Field

/-- What is documented of `GF2E`, for a modulus that fits `w` bytes: an element is the reduction of
its representative, and the representative is reduced. -/
structure GF2EOps.Lawful {E Poly : Type*} (ops : GF2EOps E Poly) (w : ℕ) : Prop where
  toGF2E_rep : ∀ v, ops.toGF2E (ops.rep v) = v
  rep_lt : ∀ v, ops.rep v < 2 ^ (8 * w)

variable (P : (ZMod 2)[X]) [Fact (Irreducible P)]

theorem monic_of_irreducible : P.Monic := by
  have hne : P.leadingCoeff ≠ 0 := leadingCoeff_ne_zero.mpr (Fact.out : Irreducible P).ne_zero
  exact (eq_one_iff_ne_zero _).mpr hne

/-- `GF2E` after `GF2E::init(P)`, with the polynomials over it. -/
noncomputable def gf2e : GF2EOps (AdjoinRoot P) (AdjoinRoot P)[X] where
  toGF2E a := AdjoinRoot.mk P (ofBits a)
  rep v := toBits P.natDegree (AdjoinRoot.modByMonicHom (monic_of_irreducible P) v)
  eval f x := f.eval x

theorem gf2e_lawful {w : ℕ} (hP : P.natDegree ≤ 8 * w) : (gf2e P).Lawful w := by
  refine ⟨fun v => ?_, fun v => (toBits_lt _ _).trans_le (Nat.pow_le_pow_right (by decide) hP)⟩
  have hdeg : (AdjoinRoot.modByMonicHom (monic_of_irreducible P) v).degree < P.natDegree := by
    obtain ⟨f, rfl⟩ := AdjoinRoot.mk_surjective v
    rw [AdjoinRoot.modByMonicHom_mk, ← degree_eq_natDegree (monic_of_irreducible P).ne_zero]
    exact degree_modByMonic_lt f (monic_of_irreducible P)
  show AdjoinRoot.mk P (ofBits (toBits P.natDegree _)) = v
  rw [ofBits_toBits hdeg]
  exact AdjoinRoot.mk_leftInverse (monic_of_irreducible P) v

/-- A number with no more bits than the modulus has is its own representative. -/
theorem gf2e_rep_toGF2E {a : ℕ} (ha : a < 2 ^ P.natDegree) :
    (gf2e P).rep ((gf2e P).toGF2E a) = a := by
  have hdeg : (ofBits a).degree < P.degree := by
    rw [degree_eq_natDegree (monic_of_irreducible P).ne_zero, degree_lt_iff_coeff_zero]
    intro k hk
    have hbit : a.testBit k = false :=
      Nat.testBit_lt_two_pow (ha.trans_le (Nat.pow_le_pow_right (by decide) hk))
    rw [coeff_ofBits, hbit]
    rfl
  have hrep : AdjoinRoot.modByMonicHom (monic_of_irreducible P) (AdjoinRoot.mk P (ofBits a))
      = ofBits a := by
    rw [AdjoinRoot.modByMonicHom_mk]
    exact (modByMonic_eq_self_iff (monic_of_irreducible P)).mpr hdeg
  show toBits P.natDegree (AdjoinRoot.modByMonicHom _ (AdjoinRoot.mk P (ofBits a))) = a
  rw [hrep]
  refine Nat.eq_of_testBit_eq fun k => ?_
  rw [testBit_toBits, coeff_ofBits]
  by_cases hk : k < P.natDegree
  · cases hbit : a.testBit k
    · simp
    · simp [hk]
  · have hbit : a.testBit k = false := Nat.testBit_lt_two_pow
      (ha.trans_le (Nat.pow_le_pow_right (by decide) (Nat.le_of_not_lt hk)))
    rw [hbit, decide_eq_false fun h => hk h.1]

end Field

end MultiPartyPSI
