import MultiPartyPSI.Kissner.KissnerParty
import MultiPartyPSI.Util.Interpolation
import Mathlib.Algebra.Polynomial.BigOperators
import Mathlib.Algebra.Polynomial.Coeff
import Mathlib.Algebra.Polynomial.Eval.Degree
import Mathlib.Tactic.LinearCombination

/-!
# What the ciphertexts of the polynomial protocol carry

A list of ciphertexts carries a polynomial when each of them carries its coefficient.
Encryption makes such a list of the polynomial with a party's elements as roots;
`addEncPolys` adds what two lists carry and `mulEncPolyByPoly` multiplies by a polynomial in
the clear, its two range guards leaving out only coefficients that are zero. So the sums
that go around the ring carry the sums of what the parties put in, each of them once.
-/

namespace MultiPartyPSI

open Lib Buf Polynomial

/-- The polynomial with the given first coefficients. -/
noncomputable def coeffsPoly {R : Type*} [CommRing R] (len : ℕ) (c : ℕ → ℕ) : R[X] :=
  ∑ k ∈ Finset.range len, C (c k : R) * X ^ k

theorem coeff_coeffsPoly {R : Type*} [CommRing R] (len : ℕ) (c : ℕ → ℕ) (k : ℕ) :
    (coeffsPoly len c : R[X]).coeff k = if k < len then (c k : R) else 0 := by
  rw [coeffsPoly, finsetSum_coeff]
  simp only [coeff_C_mul, coeff_X_pow, mul_ite, mul_one, mul_zero]
  rw [Finset.sum_ite_eq]
  simp

variable {N n : ℕ} {Z Y : Type}

namespace KissnerParty

/-- `BuildFromRoots` computes the coefficients. -/
theorem coeff_rootsPoly (l : List (ZMod N)) (k : ℕ) :
    (rootsPoly l).coeff k = buildFromRoots l k := by
  induction l generalizing k with
  | nil =>
      cases k with
      | zero => simp [rootsPoly, buildFromRoots]
      | succ k => simp [rootsPoly, buildFromRoots, coeff_one]
  | cons a l ih =>
      have hcons : rootsPoly (a :: l) = (X - C a) * rootsPoly l := List.prod_cons
      rw [hcons, sub_mul, coeff_sub, coeff_C_mul]
      cases k with
      | zero => rw [coeff_X_mul_zero, ih, zero_sub, buildFromRoots]
      | succ k => rw [coeff_X_mul, ih, ih, buildFromRoots]

/-- Its degree is the number of roots. -/
theorem buildFromRoots_eq_zero (l : List (ZMod N)) {k : ℕ} (hk : l.length < k) :
    buildFromRoots l k = 0 := by
  induction l generalizing k with
  | nil =>
      cases k with
      | zero => cases hk
      | succ k => rfl
  | cons a l ih =>
      cases k with
      | zero => cases hk
      | succ k =>
          rw [List.length_cons] at hk
          rw [buildFromRoots, ih (by omega), ih (by omega), mul_zero, sub_zero]

end KissnerParty

/-- The ciphertexts carry the coefficients of `F`, which has no others. -/
structure CarriesPoly (E : AdditiveScheme N n Z Y) (len : ℕ) (l : List Z) (F : (ZMod N)[X]) :
    Prop where
  length : l.length = len
  carries : ∀ k c, l[k]? = some c → E.Carries c (F.coeff k)
  coeff_eq_zero : ∀ k, len ≤ k → F.coeff k = 0

section Carrying

variable {E : AdditiveScheme N n Z Y} {len : ℕ} {l l' : List Z} {F G : (ZMod N)[X]}

theorem CarriesPoly.getD (h : CarriesPoly E len l F) {k : ℕ} (hk : k < len) (d : Z) :
    E.Carries (l.getD k d) (F.coeff k) := by
  have hkl : k < l.length := h.length.symm ▸ hk
  have hget : l[k]? = some l[k] := List.getElem?_eq_getElem hkl
  rw [List.getD_eq_getElem?_getD, hget]
  exact h.carries k _ hget

/-- `addEncPolys` adds. -/
theorem CarriesPoly.add (hF : CarriesPoly E len l F) (hG : CarriesPoly E len l' G) :
    CarriesPoly E len (KissnerParty.addEncPolys E l l') (F + G) := by
  refine ⟨KissnerParty.length_addEncPolys hF.length hG.length, fun k c hc => ?_, fun k hk => ?_⟩
  · rw [KissnerParty.addEncPolys] at hc
    obtain ⟨a, b, ha, hb, rfl⟩ := List.getElem?_zipWith_eq_some.mp hc
    rw [coeff_add]
    exact E.carries_mulMod (hF.carries k a ha) (hG.carries k b hb)
  · rw [coeff_add, hF.coeff_eq_zero k hk, hG.coeff_eq_zero k hk, add_zero]

/-- A product over some rounds of a loop carries the sum over these rounds. -/
theorem carries_foldl {g : ℕ → Z} {v : ℕ → ZMod N} {cond : ℕ → Prop} [DecidablePred cond] {m : ℕ}
    (h : ∀ j < m, cond j → E.Carries (g j) (v j)) :
    E.Carries ((List.range m).foldl (fun prod j =>
        if cond j then E.mulMod prod (g j) else prod) E.one)
      (∑ j ∈ Finset.range m, if cond j then v j else 0) := by
  induction m with
  | zero => exact E.carries_one
  | succ m ih =>
      have hm := ih fun j hj => h j (Nat.lt_succ_of_lt hj)
      rw [List.range_succ, List.foldl_append, List.foldl_cons, List.foldl_nil,
        Finset.sum_range_succ]
      by_cases hc : cond m
      · rw [if_pos hc, if_pos hc]
        exact E.carries_mulMod hm (h m (Nat.lt_succ_self m) hc)
      · rw [if_neg hc, if_neg hc, add_zero]
        exact hm

end Carrying

namespace KissnerParty

variable {P : KissnerParty Y} {E : AdditiveScheme N n Z Y}

theorem length_roots : (P.roots N).length = P.setSize := by
  rw [roots, List.length_map, List.length_range]

/-- The encrypted coefficients carry the polynomial with the elements as roots. -/
theorem carries_getEncryptedCoefficients [NeZero N] :
    CarriesPoly E (P.setSize + 1) (P.getEncryptedCoefficients E) (rootsPoly (P.roots N)) := by
  refine ⟨length_getEncryptedCoefficients, fun k c hc => ?_, fun k hk => ?_⟩
  · rw [getEncryptedCoefficients, List.getElem?_map, Option.map_eq_some_iff] at hc
    obtain ⟨i, hi, rfl⟩ := hc
    obtain ⟨-, rfl⟩ := List.getElem?_eq_some_iff.mp hi
    rw [List.getElem_range, coeff_rootsPoly]
    have hcarry := E.carries_encrypt (buildFromRoots (P.roots N) k).val (P.encRandom k)
    rwa [ZMod.natCast_zmod_val] at hcarry
  · rw [coeff_rootsPoly]
    refine buildFromRoots_eq_zero _ ?_
    rw [length_roots]
    exact hk

/-- `mulEncPolyByPoly` multiplies. -/
theorem carries_mulEncPolyByPoly {l : List Z} {F : (ZMod N)[X]}
    (hF : CarriesPoly E (P.setSize + 1) l F) (poly : ℕ → ℕ) :
    CarriesPoly E (2 * P.setSize + 1) (P.mulEncPolyByPoly E l poly)
      (F * coeffsPoly (P.setSize + 1) poly) := by
  have hcoeff : ∀ k, (F * coeffsPoly (P.setSize + 1) poly).coeff k
      = ∑ j ∈ Finset.range (k + 1), if j ≤ P.setSize ∧ k - j ≤ P.setSize then
          F.coeff j * (poly (k - j) : ZMod N) else 0 := by
    intro k
    rw [coeff_mul, Finset.Nat.sum_antidiagonal_eq_sum_range_succ
      (fun i j => F.coeff i * (coeffsPoly (P.setSize + 1) poly : (ZMod N)[X]).coeff j)]
    refine Finset.sum_congr rfl fun j _ => ?_
    rw [coeff_coeffsPoly]
    -- what a guard leaves out has a factor that is zero
    by_cases hj : j ≤ P.setSize
    · by_cases hkj : k - j ≤ P.setSize
      · rw [if_pos (Nat.lt_succ_of_le hkj), if_pos ⟨hj, hkj⟩]
      · rw [if_neg fun h => hkj (Nat.le_of_lt_succ h), if_neg fun h => hkj h.2, mul_zero]
    · rw [hF.coeff_eq_zero j (by omega), zero_mul, if_neg fun h => hj h.1]
  refine ⟨by rw [mulEncPolyByPoly, List.length_map, List.length_range], fun k c hc => ?_,
    fun k hk => ?_⟩
  · rw [mulEncPolyByPoly, List.getElem?_map, Option.map_eq_some_iff] at hc
    obtain ⟨i, hi, rfl⟩ := hc
    obtain ⟨-, rfl⟩ := List.getElem?_eq_some_iff.mp hi
    rw [List.getElem_range, hcoeff]
    refine carries_foldl fun j _ hj => ?_
    exact E.carries_powerMod _ (hF.getD (Nat.lt_succ_of_le hj.1) _)
  · rw [hcoeff]
    refine Finset.sum_eq_zero fun j hj => if_neg ?_
    have := Finset.mem_range.mp hj
    omega

theorem sumPolys_append (polys : List (List Z)) (l : List Z) :
    P.sumPolys E (polys ++ [l]) =
      let prodPoly := P.mulEncPolyByPoly E l (P.random polys.length)
      if (P.sumPolys E polys).isEmpty then prodPoly
      else addEncPolys E (P.sumPolys E polys) prodPoly := by
  rw [sumPolys, List.zipIdx_append, List.foldl_append, ← sumPolys, Nat.zero_add]
  rfl

/-- The loop of `makeSharedPolynomial` adds up the products. -/
theorem carries_sumPolys {poly : ℕ → List Z} {F : ℕ → (ZMod N)[X]}
    (h : ∀ i, CarriesPoly E (P.setSize + 1) (poly i) (F i)) (m : ℕ) :
    CarriesPoly E (2 * P.setSize + 1) (P.sumPolys E ((List.range (m + 1)).map poly))
      (∑ i ∈ Finset.range (m + 1), F i * coeffsPoly (P.setSize + 1) (P.random i)) := by
  induction m with
  | zero =>
      rw [Finset.sum_range_one]
      exact carries_mulEncPolyByPoly (h 0) (P.random 0)
  | succ m ih =>
      rw [List.range_succ, List.map_append, List.map_cons, List.map_nil, sumPolys_append,
        Finset.sum_range_succ, List.length_map, List.length_range]
      have hne : (P.sumPolys E ((List.range (m + 1)).map poly)).isEmpty = false := by
        rw [List.isEmpty_eq_false_iff, ← List.length_pos_iff, ih.length]
        exact Nat.succ_pos _
      rw [hne]
      exact ih.add (carries_mulEncPolyByPoly (h (m + 1)) (P.random (m + 1)))

end KissnerParty

/-! ## Around the ring -/

namespace KissnerSystem

variable (S : KissnerSystem Y) (E : AdditiveScheme N S.numOfParties Z Y)

/-- The monic polynomial with the elements of party `p` as roots. -/
noncomputable def setPoly (N p : ℕ) : (ZMod N)[X] := rootsPoly ((S.party p).roots N)

/-- The polynomial that party `p` draws for the polynomial of party `j`. -/
noncomputable def randomPoly (N p j : ℕ) : (ZMod N)[X] :=
  coeffsPoly (S.setSize + 1) (S.random p (j - 1))

/-- What party `p` puts in. -/
noncomputable def contribution (N p : ℕ) : (ZMod N)[X] :=
  ∑ j ∈ Finset.Icc 1 p, S.setPoly N j * S.randomPoly N p j

/-- What all of them put in. -/
noncomputable def aggregate (N : ℕ) : (ZMod N)[X] :=
  ∑ j ∈ Finset.Icc 1 S.numOfParties,
    S.setPoly N j * ∑ p ∈ Finset.Icc j S.numOfParties, S.randomPoly N p j

/-- The party `k` steps after the leader. -/
def ringId (k : ℕ) : ℕ := (S.leaderId - 1 + k) % S.numOfParties + 1

/-- The steps from the leader to party `p`. -/
def ringPos (p : ℕ) : ℕ := (p + S.numOfParties - S.leaderId) % S.numOfParties

/-- What the party `k` steps after the leader sends to the next one. -/
def ringPoly : ℕ → List Z
  | 0 => S.sharedPoly E S.leaderId
  | k + 1 => KissnerParty.addEncPolys E (ringPoly k) (S.sharedPoly E (S.ringId (k + 1)))

/-- Once around, at most. -/
theorem mod_eq_ite {x m : ℕ} (hx : x < 2 * m) : x % m = if x < m then x else x - m := by
  split
  · next h => exact Nat.mod_eq_of_lt h
  · next h => rw [Nat.mod_eq_sub_mod (by omega), Nat.mod_eq_of_lt (by omega)]

section Ring

variable {S} (hL : 1 ≤ S.leaderId ∧ S.leaderId ≤ S.numOfParties)

theorem ringId_mem (hn : 1 ≤ S.numOfParties) (k : ℕ) :
    1 ≤ S.ringId k ∧ S.ringId k ≤ S.numOfParties :=
  ⟨Nat.succ_pos _, Nat.mod_lt _ hn⟩

theorem ringPos_lt (hn : 1 ≤ S.numOfParties) (p : ℕ) : S.ringPos p < S.numOfParties :=
  Nat.mod_lt _ hn

include hL

theorem ringId_zero : S.ringId 0 = S.leaderId := by
  rw [ringId, Nat.add_zero, Nat.mod_eq_of_lt (by omega)]
  omega

theorem ringPos_ringId {k : ℕ} (hk : k < S.numOfParties) : S.ringPos (S.ringId k) = k := by
  have hid : S.ringId k = if S.leaderId - 1 + k < S.numOfParties then S.leaderId + k
      else S.leaderId + k - S.numOfParties := by
    rw [ringId, mod_eq_ite (by omega)]
    split
    · omega
    · omega
  rw [hid, ringPos]
  split
  · rw [mod_eq_ite (by omega)]
    split
    · omega
    · omega
  · rw [mod_eq_ite (by omega)]
    split
    · omega
    · omega

theorem ringPos_eq {p : ℕ} (hp : 1 ≤ p ∧ p ≤ S.numOfParties) :
    S.ringPos p = if p < S.leaderId then p + S.numOfParties - S.leaderId
      else p - S.leaderId := by
  rw [ringPos, mod_eq_ite (by omega)]
  split
  · rw [if_pos (by omega)]
  · rw [if_neg (by omega)]
    omega

theorem ringId_ringPos {p : ℕ} (hp : 1 ≤ p ∧ p ≤ S.numOfParties) :
    S.ringId (S.ringPos p) = p := by
  rw [ringPos_eq hL hp, ringId]
  split
  · rw [mod_eq_ite (by omega), if_neg (by omega)]
    omega
  · rw [mod_eq_ite (by omega), if_pos (by omega)]
    omega

/-- Around the ring everyone is met once. -/
theorem sum_ringId {β : Type*} [AddCommMonoid β] (f : ℕ → β) :
    ∑ k ∈ Finset.range S.numOfParties, f (S.ringId k) = ∑ p ∈ Finset.Icc 1 S.numOfParties, f p := by
  have hn : 1 ≤ S.numOfParties := hL.1.trans hL.2
  refine Finset.sum_nbij' S.ringId S.ringPos (fun k _ => ?_) (fun p _ => ?_) (fun k hk => ?_)
    (fun p hp => ?_) fun k _ => rfl
  · exact Finset.mem_Icc.mpr (ringId_mem hn k)
  · exact Finset.mem_range.mpr (ringPos_lt hn p)
  · exact ringPos_ringId hL (Finset.mem_range.mp hk)
  · exact ringId_ringPos hL (Finset.mem_Icc.mp hp)

end Ring

section Sums

variable {S E}

/-- What the parties put in, party by party or set by set. -/
theorem sum_contribution :
    ∑ p ∈ Finset.Icc 1 S.numOfParties, S.contribution N p = S.aggregate N := by
  simp only [contribution, aggregate, Finset.mul_sum]
  refine Finset.sum_comm' fun p j => ?_
  rw [Finset.mem_Icc, Finset.mem_Icc, Finset.mem_Icc, Finset.mem_Icc]
  omega

theorem carries_sharedPoly [NeZero N] {p : ℕ} (hp : 1 ≤ p) :
    CarriesPoly E (2 * S.setSize + 1) (S.sharedPoly E p) (S.contribution N p) := by
  obtain ⟨m, rfl⟩ := Nat.exists_eq_add_of_le' hp
  have hpolys : (List.range' 1 (m + 1 - 1)).map (S.encPoly E) ++ [S.encPoly E (m + 1)]
      = (List.range (m + 1)).map fun i => S.encPoly E (i + 1) := by
    rw [Nat.add_sub_cancel, List.range_succ, List.map_append, List.range'_eq_map_range,
      List.map_map]
    congr 1
    exact List.map_congr_left fun i _ => congrArg (S.encPoly E) (Nat.add_comm 1 i)
  have hsum : S.contribution N (m + 1) = ∑ i ∈ Finset.range (m + 1),
      S.setPoly N (i + 1) * coeffsPoly (S.setSize + 1) (S.random (m + 1) i) := by
    have hIcc : Finset.Icc 1 (m + 1) = Finset.Ico (0 + 1) (m + 1 + 1) := by
      ext j
      rw [Finset.mem_Icc, Finset.mem_Ico]
      omega
    rw [contribution, hIcc, ← Finset.sum_Ico_add', ← Finset.range_eq_Ico]
    rfl
  rw [sharedPoly, hpolys, hsum]
  have henc : ∀ i, CarriesPoly E (S.setSize + 1) (S.encPoly E (i + 1)) (S.setPoly N (i + 1)) :=
    fun i => KissnerParty.carries_getEncryptedCoefficients (P := S.party (i + 1))
  exact KissnerParty.carries_sumPolys (P := S.party (m + 1)) henc m

/-- After `k` steps the contributions of `k + 1` parties are added up. -/
theorem carries_ringPoly [NeZero N] (hL : 1 ≤ S.leaderId ∧ S.leaderId ≤ S.numOfParties) (k : ℕ) :
    CarriesPoly E (2 * S.setSize + 1) (S.ringPoly E k)
      (∑ i ∈ Finset.range (k + 1), S.contribution N (S.ringId i)) := by
  induction k with
  | zero =>
      rw [Finset.sum_range_one, ringId_zero hL]
      exact carries_sharedPoly hL.1
  | succ k ih =>
      rw [Finset.sum_range_succ]
      exact ih.add (carries_sharedPoly (ringId_mem (hL.1.trans hL.2) (k + 1)).1)

/-- What comes back to the leader carries the sum of all contributions. -/
theorem carries_aggregate [NeZero N] (hL : 1 ≤ S.leaderId ∧ S.leaderId ≤ S.numOfParties) :
    CarriesPoly E (2 * S.setSize + 1) (S.ringPoly E (S.numOfParties - 1)) (S.aggregate N) := by
  have h := carries_ringPoly (E := E) hL (S.numOfParties - 1)
  rwa [Nat.sub_add_cancel (hL.1.trans hL.2), sum_ringId hL (S.contribution N), sum_contribution]
    at h

/-- An element that is in every set is a root of the sum. -/
theorem eval_aggregate {x : ZMod N}
    (h : ∀ j ∈ Finset.Icc 1 S.numOfParties, x ∈ (S.party j).roots N) :
    (S.aggregate N).eval x = 0 := by
  rw [aggregate, eval_finsetSum]
  refine Finset.sum_eq_zero fun j hj => ?_
  rw [eval_mul, setPoly, eval_rootsPoly (h j hj), zero_mul]

end Sums

end KissnerSystem

/-- `eval`, from the coefficients. -/
theorem KissnerParty.evalDecrypted_eq {P : KissnerParty Y} {decryptedPoly : List ℕ}
    {F : (ZMod N)[X]}
    (hcoeff : ∀ k < 2 * P.setSize + 1, (decryptedPoly.getD k 0 : ZMod N) = F.coeff k)
    (hzero : ∀ k, 2 * P.setSize + 1 ≤ k → F.coeff k = 0) (x : ZMod N) :
    P.evalDecrypted decryptedPoly x = F.eval x := by
  have hdeg : F.natDegree < 2 * P.setSize + 1 :=
    Nat.lt_succ_of_le (natDegree_le_iff_coeff_eq_zero.mpr hzero)
  rw [evalDecrypted, eval_eq_sum_range' hdeg]
  refine Finset.sum_congr rfl fun k hk => ?_
  rw [hcoeff k (Finset.mem_range.mp hk)]

end MultiPartyPSI
