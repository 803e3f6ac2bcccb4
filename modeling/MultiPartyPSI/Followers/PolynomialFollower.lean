import MultiPartyPSI.Util.PolynomialUtils
import MultiPartyPSI.Hashing.HashingUtil
import Mathlib.Algebra.Field.ZMod
import Mathlib.Algebra.Polynomial.SpecificDegree
import Mathlib.Tactic.ComputeDegree

/-!
# Polynomials on the wire

`getPolynomialCoffBytes` and `sendPolynomials` of both polynomial followers, and the leaders'
`receivePolynomials`. A polynomial is sent as the bytes of its first coefficients, each filled
up to the length of a mask. The followers number the polynomials through, the leader by hash
function and bin; the place of a coefficient is the same in both.

The sent buffer is `size` rows for each polynomial, so a coefficient is found by its row.
-/

namespace MultiPartyPSI

open Lib Buf Polynomial

section Model

variable {E : Type*} [Semiring E] (ops : GF2EOps E E[X]) (maskSizeInBytes : ℕ)

/-- `bytes`, for coefficient `i`. -/
def coefficientBytes (polynomial : E[X]) (i : ℕ) : List Byte :=
  let bytes := convertElementToBytes ops (polynomial.coeff i)
  if bytes.length < maskSizeInBytes then
    bytes ++ List.replicate (maskSizeInBytes - bytes.length) 0
  else bytes

/-- `PolynomialFollower::getPolynomialCoffBytes`, into `arr + p`. -/
def getPolynomialCoffBytes (polynomial : E[X]) (polyDeg : ℕ) (arr : Buf Byte) (p : ℕ) : Buf Byte :=
  loop (fun i arr => copy arr (p + i * maskSizeInBytes)
    (fun j => (coefficientBytes ops maskSizeInBytes polynomial i).getD j 0) 0 maskSizeInBytes)
    polyDeg arr

/-- The loop of both `sendPolynomials`, over `count` polynomials of `size` coefficients. -/
def polynomialMasks (polynomials : ℕ → E[X]) (size count : ℕ) (masks : Buf Byte) : Buf Byte :=
  loop (fun i masks => getPolynomialCoffBytes ops maskSizeInBytes (polynomials i) size masks
    (maskSizeInBytes * i * size)) count masks

/-- `PolynomialFollower::sendPolynomials`; the memory is not cleared. -/
def sendPolynomials (polynomials : ℕ → E[X]) (numOfElements : ℕ) (memory : Buf Byte) : Buf Byte :=
  polynomialMasks ops maskSizeInBytes polynomials numOfElements numHashFunctions memory

/-- `SimpleHashingPolynomialFollower::sendPolynomials`. -/
def simpleHashingSendPolynomials (polynomials : ℕ → E[X]) (numOfBins maxBinSize : ℕ) : Buf Byte :=
  polynomialMasks ops maskSizeInBytes polynomials maxBinSize (numHashFunctions * numOfBins)
    fun _ => 0

/-- The loop over `j` of `receivePolynomials`, for the polynomial at `i*numPolynomPerHashFunc+k`. -/
noncomputable def receivePolynomial (masks : Buf Byte) (polynomSize index : ℕ) : E[X] :=
  loop (fun j (polynom : E[X]) => polynom.update j (convertBytesToGF2E ops masks
    ((index * polynomSize + j) * maskSizeInBytes) maskSizeInBytes)) polynomSize 0

/-- `PolynomialLeader::receivePolynomials`, from the array that was received. -/
noncomputable def receivePolynomials (masks : Buf Byte)
    (numOfHashFunction numPolynomPerHashFunc polynomSize : ℕ) (polynoms : Buf E[X]) : Buf E[X] :=
  loop (fun i polynoms => loop (fun k polynoms =>
      polynoms.write (i * numPolynomPerHashFunc + k) (receivePolynomial ops maskSizeInBytes masks
        polynomSize (i * numPolynomPerHashFunc + k)))
    numPolynomPerHashFunc polynoms) numOfHashFunction polynoms

end Model

section Send

variable {E : Type*} [Semiring E] {ops : GF2EOps E E[X]} {w : ℕ}

theorem getD_coefficientBytes (polynomial : E[X]) (i j : ℕ) :
    (coefficientBytes ops w polynomial i).getD j 0 = ofNatLE (ops.rep (polynomial.coeff i)) j := by
  rw [coefficientBytes]
  split
  · exact getD_convertElementToBytes ops _ _ _
  · rw [← getD_convertElementToBytes ops _ 0 j, List.replicate_zero, List.append_nil]

/-- A row holds the bytes of one coefficient. -/
theorem row_getPolynomialCoffBytes (polynomial : E[X]) (size i r : ℕ) (arr : Buf Byte) :
    row w (getPolynomialCoffBytes ops w polynomial size arr (w * i * size)) r
      = if i * size ≤ r ∧ r < i * size + size
        then encoding ops w (polynomial.coeff (r - i * size)) else row w arr r := by
  refine loop_induct (P := fun n (m : Buf Byte) => row w m r
    = if i * size ≤ r ∧ r < i * size + n
      then encoding ops w (polynomial.coeff (r - i * size)) else row w arr r) size ?_ ?_
  · rw [if_neg (by omega)]
  · intro n m _ hm
    rw [show w * i * size + n * w = (i * size + n) * w by ring]
    by_cases hr : r = i * size + n
    · rw [if_pos (by omega), hr, Nat.add_sub_cancel_left]
      refine (row_zipInto_same _ m _ _ 0 w).trans (funext fun j => ?_)
      rw [Nat.zero_add, getD_coefficientBytes]
      rfl
    · rw [row_copy_ne m _ _ w hr, hm]
      exact if_congr (by omega) rfl rfl

/-- **Every coefficient is in the row that belongs to it.** -/
theorem row_polynomialMasks (polynomials : ℕ → E[X]) (memory : Buf Byte) {size count i j : ℕ}
    (hi : i < count) (hj : j < size) :
    row w (polynomialMasks ops w polynomials size count memory) (i * size + j)
      = encoding ops w ((polynomials i).coeff j) := by
  refine loop_settles (Q := fun i (m : Buf Byte) =>
    row w m (i * size + j) = encoding ops w ((polynomials i).coeff j)) count ?_ ?_ hi
  · intro i m _
    rw [row_getPolynomialCoffBytes, if_pos (by omega), Nat.add_sub_cancel_left]
  · intro i n m hlt _ hm
    have := row_end_le size hlt
    rw [row_getPolynomialCoffBytes, if_neg (by omega), hm]

/-- A row is read back as the element that was written. -/
theorem convertBytesToGF2E_row (hops : ops.Lawful w) {m : Buf Byte} {r : ℕ} {v : E}
    (h : row w m r = encoding ops w v) : convertBytesToGF2E ops m (r * w) w = v := by
  have hload : loadLE m (r * w) w = ops.rep v :=
    loadLE_ofNatLE (hops.rep_lt v) fun i hi => congrFun h ⟨i, hi⟩
  rw [convertBytesToGF2E, hload, hops.toGF2E_rep]

/-- A polynomial is read back from its rows. -/
theorem receivePolynomial_eq (hops : ops.Lawful w) {m : Buf Byte} {size index : ℕ} {f : E[X]}
    (hdeg : f.degree < size)
    (hrows : ∀ j < size, row w m (index * size + j) = encoding ops w (f.coeff j)) :
    receivePolynomial ops w m size index = f := by
  have hcoeff := loop_induct (P := fun n (g : E[X]) => ∀ k,
      g.coeff k = if k < n then f.coeff k else 0)
    (f := fun j (g : E[X]) => g.update j (convertBytesToGF2E ops m ((index * size + j) * w) w))
    (s := 0) size (fun k => by rw [coeff_zero, if_neg (Nat.not_lt_zero k)])
    fun n g hn hg k => by
      rw [convertBytesToGF2E_row hops (hrows n hn), coeff_update_apply]
      by_cases hk : k = n
      · rw [if_pos hk, if_pos (by omega), hk]
      · rw [if_neg hk, hg k]
        exact if_congr (by omega) rfl rfl
  ext k
  refine (hcoeff k).trans ?_
  split
  · rfl
  · next hk =>
      exact (coeff_eq_zero_of_degree_lt
        (hdeg.trans_le (Nat.cast_le.mpr (Nat.le_of_not_lt hk)))).symm

/-- The leader has polynomial `i * num + k` at its place. -/
theorem receivePolynomials_apply (m : Buf Byte) (polynoms : Buf E[X]) {count num size i k : ℕ}
    (hi : i < count) (hk : k < num) :
    receivePolynomials ops w m count num size polynoms (i * num + k)
      = receivePolynomial ops w m size (i * num + k) := by
  refine loop_settles (Q := fun i (g : Buf E[X]) =>
    g (i * num + k) = receivePolynomial ops w m size (i * num + k)) count ?_ ?_ hi
  · intro i g _
    refine loop_settles (Q := fun k (g : Buf E[X]) =>
      g (i * num + k) = receivePolynomial ops w m size (i * num + k)) num ?_ ?_ hk
    · intro k g _
      exact write_same ..
    · intro k l g hlt _ hg
      rw [write_ne _ _ (by omega), hg]
  · -- the polynomials of a later hash function stand behind
    intro i n g hlt _ hg
    have hend := row_cell_lt hlt hk
    refine loop_induct (P := fun _ (g : Buf E[X]) =>
      g (i * num + k) = receivePolynomial ops w m size (i * num + k)) num hg ?_
    intro l g _ hg
    rw [write_ne _ _ (by omega), hg]

/-- **What was sent is received**, for every number of polynomials and coefficients. -/
theorem receivePolynomials_polynomialMasks (hops : ops.Lawful w) (polynomials : ℕ → E[X])
    (memory : Buf Byte) (polynoms : Buf E[X]) {count num size : ℕ}
    (hdeg : ∀ i < count * num, (polynomials i).degree < size) {i k : ℕ} (hi : i < count)
    (hk : k < num) :
    receivePolynomials ops w (polynomialMasks ops w polynomials size (count * num) memory) count num
        size polynoms (i * num + k) = polynomials (i * num + k) := by
  have hlt : i * num + k < count * num := row_cell_lt hi hk
  rw [receivePolynomials_apply _ _ hi hk]
  exact receivePolynomial_eq hops (hdeg _ hlt) fun j hj => row_polynomialMasks _ _ hlt hj

end Send

section RoundTrip

variable (P : (ZMod 2)[X]) [Fact (Irreducible P)]

/-- **Serialised polynomials come back**, with either strategy: over every field `GF2E` whose
modulus fits the length of a mask, whatever the memory held before. -/
theorem receivePolynomials_sendPolynomials {w : ℕ} (hP : P.natDegree ≤ 8 * w)
    (polynomials : ℕ → (AdjoinRoot P)[X]) (memory : Buf Byte) (polynoms : Buf (AdjoinRoot P)[X])
    (numOfElements numOfBins maxBinSize : ℕ) :
    ((∀ i < numHashFunctions, (polynomials i).degree < numOfElements) →
      ∀ i < numHashFunctions, ∀ k < 1,
        receivePolynomials (gf2e P) w (sendPolynomials (gf2e P) w polynomials numOfElements memory)
          numHashFunctions 1 numOfElements polynoms (i * 1 + k) = polynomials (i * 1 + k)) ∧
    ((∀ i < numHashFunctions * numOfBins, (polynomials i).degree < maxBinSize) →
      ∀ i < numHashFunctions, ∀ k < numOfBins,
        receivePolynomials (gf2e P) w
          (simpleHashingSendPolynomials (gf2e P) w polynomials numOfBins maxBinSize)
          numHashFunctions numOfBins maxBinSize polynoms (i * numOfBins + k)
        = polynomials (i * numOfBins + k)) := by
  have hops := gf2e_lawful P hP
  refine ⟨fun hdeg i hi k hk => ?_, fun hdeg i hi k hk => ?_⟩
  · have hone : numHashFunctions * 1 = numHashFunctions := Nat.mul_one _
    rw [← hone] at hdeg
    have hround := receivePolynomials_polynomialMasks hops polynomials memory polynoms hdeg hi hk
    rwa [hone] at hround
  · exact receivePolynomials_polynomialMasks hops polynomials (fun _ => 0) polynoms hdeg hi hk

theorem natDegree_four : (X ^ 2 + X + 1 : (ZMod 2)[X]).natDegree = 2 := by
  compute_degree!

/-- The modulus of the field with four elements. -/
instance irreducible_four : Fact (Irreducible (X ^ 2 + X + 1 : (ZMod 2)[X])) := by
  have hdeg : (X ^ 2 + X + 1 : (ZMod 2)[X]).natDegree ∈ Finset.Icc 1 3 := by
    rw [natDegree_four]
    exact Finset.mem_Icc.mpr ⟨one_le_two, by omega⟩
  refine ⟨irreducible_of_degree_le_three_of_not_isRoot hdeg fun a => ?_⟩
  rw [IsRoot, eval_add, eval_add, eval_pow, eval_X, eval_one]
  have hno : ∀ a : ZMod 2, a ^ 2 + a + 1 ≠ 0 := by decide
  exact hno a

/-- Polynomials of degree one over the field with four elements, two for each hash function. -/
theorem receivePolynomials_sendPolynomials_four :
    receivePolynomials (gf2e (X ^ 2 + X + 1)) 1
        (simpleHashingSendPolynomials (gf2e (X ^ 2 + X + 1)) 1
          (fun _ => X + C (AdjoinRoot.root _)) 2 2) numHashFunctions 2 2 (fun _ => 0) (2 * 2 + 1)
      = X + C (AdjoinRoot.root _) :=
  (receivePolynomials_sendPolynomials (X ^ 2 + X + 1) (by rw [natDegree_four]; decide)
    (fun _ => X + C (AdjoinRoot.root _)) (fun _ => 0) (fun _ => 0) 2 2 2).2
    (fun _ _ => (degree_X_add_C _).trans_lt (by decide)) 2 (by decide) 1 (by decide)

end RoundTrip

end MultiPartyPSI
