import MultiPartyPSI.Followers.SimpleHashingPolynomialFollower
import MultiPartyPSI.Leaders.PolynomialLeader
import MultiPartyPSI.Strategies.SimpleHash
import Mathlib.FieldTheory.Finite.GaloisField
import Mathlib.FieldTheory.PrimitiveElement

/-!
# POLYNOMIALS and POLYNOMIALS_SIMPLE_HASH, over the network

A follower sends polynomials that take its masks, the shares of their bins added, at its elements:
one for each hash function, or one for each hash function and bin. The leader evaluates the one
for the place of its element.

Elements are strings of bytes, no longer than a mask. The field must have exactly the bits of a
mask: with fewer a mask is reduced and does not come back. And no value may end in a byte that is
zero, since the leader would read behind it.
-/

namespace MultiPartyPSI

open Lib Buf Polynomial

/-! ## A field with the bits of a mask -/

section Field

variable {P : (ZMod 2)[X]} [Fact (Irreducible P)] {w : ℕ}

/-- **A mask survives the field** that has as many bits. -/
theorem encoding_convertBytesToGF2E (hP : P.natDegree = 8 * w) (m : Buf Byte) (r : ℕ) :
    encoding (gf2e P) w (convertBytesToGF2E (gf2e P) m (r * w) w) = row w m r := by
  funext j
  rw [encoding, convertBytesToGF2E, gf2e_rep_toGF2E P (by rw [hP]; exact loadLE_lt _ _ _),
    ofNatLE_loadLE m _ j.isLt, row_apply]

/-- And so does an element that is not longer. -/
theorem convertBytesToGF2E_inj {size : ℕ} (hP : P.natDegree = 8 * w) (hsize : size ≤ w)
    {m m' : Buf Byte} {r r' : ℕ} :
    convertBytesToGF2E (gf2e P) m (r * size) size = convertBytesToGF2E (gf2e P) m' (r' * size) size
      ↔ row size m r = row size m' r' := by
  refine ⟨fun h => ?_, fun h => congrArg _ (loadLE_congr fun i hi => congrFun h ⟨i, hi⟩)⟩
  have hlt : ∀ (m : Buf Byte) (p : ℕ), loadLE m p size < 2 ^ P.natDegree := fun m p =>
    (loadLE_lt m p size).trans_le (Nat.pow_le_pow_right (by decide) (by omega))
  have hload := congrArg (gf2e P).rep h
  rw [convertBytesToGF2E, convertBytesToGF2E, gf2e_rep_toGF2E P (hlt _ _),
    gf2e_rep_toGF2E P (hlt _ _)] at hload
  funext j
  rw [row_apply, row_apply, ← ofNatLE_loadLE m _ j.isLt, hload, ofNatLE_loadLE m' _ j.isLt]

end Field

/-! ## The followers -/

section Model

variable {E : Type*} [Field E] (ops : GF2EOps E E[X]) (set : PolynomialFollowerSet)

namespace PolynomialFollower

/-- `inputs` and `masks` of `PolynomialFollower::buildPolynomialsInThread`. -/
def elementPoints (hashIndex : ℕ) : List E × List E :=
  loop (fun j (s : List E × List E) =>
      let index := set.elementsToHashTable (j * numHashFunctions + hashIndex)
      (s.1 ++ [inputOf ops set j], s.2 ++ [maskAt ops set index]))
    set.numOfElements ([], [])

/-- `PolynomialFollower::buildPolynomialsInThread`: the polynomials of the thread. -/
noncomputable def buildPolynomialsInThread (hashIndex : ℕ) : List E[X] :=
  let points := elementPoints ops set hashIndex
  [interpolate points.1 points.2]

/-- `PolynomialFollower::buildPolynomials`: `m_polynomials`. -/
noncomputable def buildPolynomials : List E[X] :=
  (List.range numHashFunctions).flatMap (buildPolynomialsInThread ops set)

/-- The block that `PolynomialFollower::run` sends. -/
noncomputable def run (memory share : Buf Byte) : List Byte :=
  let polynomials := buildPolynomials ops (set.shared share)
  sendBytes (sendPolynomials ops set.maskSizeInBytes (fun i => polynomials.getD i 0)
    set.numOfElements memory) (numHashFunctions * set.numOfElements * set.maskSizeInBytes)

end PolynomialFollower

/-- The block that `run` sends for a `SimpleHashingPolynomialFollower`. -/
noncomputable def SimpleHashingPolynomialFollower.run (random : ℕ → ℕ → ℕ → E[X]) (mNumCores : ℕ)
    (share : Buf Byte) : List Byte :=
  let polynomials := MultiPartyPSI.buildPolynomials ops (set.shared share) random mNumCores
  sendBytes (simpleHashingSendPolynomials ops set.maskSizeInBytes (fun i => polynomials.getD i 0)
      set.numOfBins set.maxBinSize)
    (numHashFunctions * set.numOfBins * set.maxBinSize * set.maskSizeInBytes)

/-- What the worker threads call. Of a check that reads outside nothing is said, so it may as well
refuse. -/
def orRefuse (isElementInAllSets : (index binIndex tableIndex hashFuncIndex : ℕ) → Buf Byte →
    Option (Bool × Buf Byte)) : ElementCheck :=
  fun index binIndex tableIndex hashFuncIndex share =>
    (isElementInAllSets index binIndex tableIndex hashFuncIndex share).getD (false, share)

end Model

/-! ## Without bins -/

section Elements

variable {E : Type*} [Field E] (ops : GF2EOps E E[X]) (set : PolynomialFollowerSet)

namespace PolynomialFollower

theorem elementPoints_eq (hashIndex : ℕ) :
    elementPoints ops set hashIndex
      = ((List.range set.numOfElements).map (inputOf ops set),
        (List.range set.numOfElements).map fun j =>
          maskAt ops set (set.elementsToHashTable (j * numHashFunctions + hashIndex))) := by
  refine loop_induct (P := fun n (s : List E × List E) => s
    = ((List.range n).map (inputOf ops set), (List.range n).map fun j =>
        maskAt ops set (set.elementsToHashTable (j * numHashFunctions + hashIndex))))
    set.numOfElements rfl fun n s _ hs => ?_
  rw [hs, List.range_succ, List.map_append, List.map_append]
  rfl

/-- The polynomial of hash function `h` is the `h`-th. -/
theorem getD_buildPolynomials {h : ℕ} (hh : h < numHashFunctions) :
    (buildPolynomials ops set).getD h 0
      = interpolate ((List.range set.numOfElements).map (inputOf ops set))
        ((List.range set.numOfElements).map fun j =>
          maskAt ops set (set.elementsToHashTable (j * numHashFunctions + h))) := by
  have hmap : buildPolynomials ops set = (List.range numHashFunctions).map fun h =>
      interpolate (elementPoints ops set h).1 (elementPoints ops set h).2 :=
    List.map_eq_flatMap.symm
  rw [hmap, List.getD_eq_getElem?_getD, List.getElem?_map, List.getElem?_range hh, Option.map_some,
    Option.getD_some, elementPoints_eq]

variable (hdistinct : ((List.range set.numOfElements).map (inputOf ops set)).Nodup)
include hdistinct

theorem degree_buildPolynomials_lt {h : ℕ} (hh : h < numHashFunctions) :
    ((buildPolynomials ops set).getD h 0).degree < set.numOfElements := by
  have hlt := degree_interpolate_lt hdistinct ((List.range set.numOfElements).map fun j =>
    maskAt ops set (set.elementsToHashTable (j * numHashFunctions + h)))
  rw [List.length_map, List.length_range] at hlt
  rwa [getD_buildPolynomials ops set hh]

/-- It takes every element's mask. -/
theorem eval_buildPolynomials {h e : ℕ} (hh : h < numHashFunctions) (he : e < set.numOfElements) :
    ((buildPolynomials ops set).getD h 0).eval (inputOf ops set e)
      = maskAt ops set (set.elementsToHashTable (e * numHashFunctions + h)) := by
  have heval := eval_mul_rootsPoly_add_map hdistinct (List.mem_range.mpr he) 0
    (g := fun j => maskAt ops set (set.elementsToHashTable (j * numHashFunctions + h)))
  rw [zero_mul, zero_add] at heval
  rwa [getD_buildPolynomials ops set hh]

end PolynomialFollower

end Elements

/-! ## The leader -/

section Leader

variable {E Poly : Type*} (l : PolynomialLeader E Poly) {polynomial i b t : ℕ}

/-- The value of every follower fills the bytes of a mask. -/
def PolynomialLeader.Full (polynomial i : ℕ) : Prop := ∀ p, 2 ≤ p → p < 2 + l.numParties →
  l.maskSizeInBytes ≤ numBytes (l.ops.rep (l.value polynomial i p))

variable {l}

theorem PolynomialLeader.Full.check (h : l.Full polynomial i) (share : Buf Byte) :
    ∃ r, l.check polynomial i t (b * l.maskSizeInBytes) share = some r ∧
      (∀ b', b' ≠ b → row l.maskSizeInBytes r.2 b' = row l.maskSizeInBytes share b') ∧
      (r.1 = true ↔ row l.maskSizeInBytes share b
        + ∑ p ∈ Finset.Ico 2 (2 + l.numParties),
            (row l.maskSizeInBytes (l.leaderResults p) t
              + encoding l.ops l.maskSizeInBytes (l.value polynomial i p)) = 0) := by
  obtain ⟨r, hr, -, hframe, hiff⟩ := (l.accepts_check_iff polynomial i b t share).mpr h
  exact ⟨r, hr, hframe, hiff⟩

/-- Otherwise the check reads outside. -/
theorem PolynomialLeader.check_eq_none (h : ¬ l.Full polynomial i) (share : Buf Byte) :
    l.check polynomial i t (b * l.maskSizeInBytes) share = none := by
  by_contra hne
  obtain ⟨r, hr⟩ := Option.ne_none_iff_exists'.mp hne
  exact h fun p h2 hp => l.le_numBytes_of_check hr h2 hp

/-- Whichever polynomial the check takes for a bin and a hash function. -/
theorem PolynomialLeader.localCheck (l : PolynomialLeader E Poly)
    (polynomial : (binIndex hashFuncIndex : ℕ) → ℕ) :
    LocalCheck l.maskSizeInBytes (orRefuse fun i b t h share =>
      l.check (polynomial b h) i t (b * l.maskSizeInBytes) share) := by
  refine ⟨fun i b t h share b' hb' => ?_, fun i b t h share share' hrow => ?_⟩ <;>
    dsimp only [orRefuse] <;> by_cases hfull : l.Full (polynomial b h) i
  · obtain ⟨r, hr, hframe, -⟩ := hfull.check (b := b) (t := t) share
    rw [hr]
    exact hframe b' hb'
  · rw [l.check_eq_none hfull]
    rfl
  · obtain ⟨r, hr, -, hiff⟩ := hfull.check (b := b) (t := t) share
    obtain ⟨r', hr', -, hiff'⟩ := hfull.check (b := b) (t := t) share'
    rw [hr, hr', Option.getD_some, Option.getD_some, Bool.eq_iff_iff, hiff, hiff', hrow]
  · rw [l.check_eq_none hfull, l.check_eq_none hfull]
    rfl

end Leader

/-! ## The sessions -/

variable {G : Type*} [CommGroup G] {C : OprgCrypto G} {size : ℕ}

namespace PsiSession

variable (s : PsiSession C (Fin size → Byte)) (P : (ZMod 2)[X]) [Fact (Irreducible P)]

/-- A follower's set with its elements. -/
def polynomialFollowerSet (p : ℕ) (set : FollowerSet) : PolynomialFollowerSet where
  toFollowerSet := set
  realElements := ofRows (s.elements p)
  elementSizeInBytes := size

/-- The set of follower `p`, the shares of the bins added to its masks. -/
def sharedSet (p : ℕ) (masks : Buf Byte) : PolynomialFollowerSet :=
  (s.polynomialFollowerSet p (s.followerSet p masks)).shared (s.share (s.shares p))

/-- The session with `PolynomialFollower::run`, where `memory p` is what party `p` had allocated,
and the length of `PolynomialLeader::receivePolynomials`. -/
noncomputable def polynomials (memory : ℕ → Buf Byte) : PsiSession C (Fin size → Byte) :=
  { s with
    followerRun := fun p set share =>
      [PolynomialFollower.run (gf2e P) (s.polynomialFollowerSet p set) (memory p) share]
    blockLengths := [s.maskSizeInBytes * numHashFunctions * 1 * s.setSize] }

/-- The session with `SimpleHashingPolynomialFollower::run`, where `random p` are the random
polynomials of party `p`. -/
noncomputable def polynomialsSimpleHash (random : ℕ → ℕ → ℕ → ℕ → (AdjoinRoot P)[X]) :
    PsiSession C (Fin size → Byte) :=
  { s with
    followerRun := fun p set share =>
      [SimpleHashingPolynomialFollower.run (gf2e P) (s.polynomialFollowerSet p set) (random p)
        (s.numCores p) share]
    blockLengths := [s.maskSizeInBytes * numHashFunctions * s.numOfBins * s.maxBinSize] }

/-- The `PolynomialLeader` when it has received everything: `num` polynomials for each hash
function, each of `polynomSize` coefficients. -/
noncomputable def polynomialLeader (num polynomSize : ℕ) (leaderResults : ℕ → Buf Byte)
    (received : ℕ → List (List Byte)) : PolynomialLeader (AdjoinRoot P) (AdjoinRoot P)[X] where
  ops := gf2e P
  numParties := s.numOfParties - 1
  numOfBins := s.numOfBins
  maskSizeInBytes := s.maskSizeInBytes
  elements := ofRows (s.elements 1)
  elementSize := size
  leaderResults := leaderResults
  partiesPolynomials := fun p => receivePolynomials (gf2e P) s.maskSizeInBytes
    (receivedBuf (received p) 0) numHashFunctions num polynomSize fun _ => 0

/-- The field image of element `e` of party `p`. -/
noncomputable def input (p e : ℕ) : AdjoinRoot P :=
  convertBytesToGF2E (gf2e P) (ofRows (s.elements p)) (e * size) size

variable {s P}

/-- Elements that are not longer than a mask have different images. -/
theorem input_inj (hP : P.natDegree = 8 * s.maskSizeInBytes) (hsize : size ≤ s.maskSizeInBytes)
    {p e p' e' : ℕ} : s.input P p e = s.input P p' e' ↔ s.elements p e = s.elements p' e' := by
  rw [input, input, convertBytesToGF2E_inj hP hsize, row_ofRows, row_ofRows]

end PsiSession

section Received

variable {s : PsiSession C (Fin size → Byte)} {P : (ZMod 2)[X]} [Fact (Irreducible P)]
  (o : PsiOutcome s) {leaderResults : ℕ → Buf Byte} {received : ℕ → List (List Byte)}

/-- A polynomial is received as it was sent. -/
theorem received_polynomial {w : ℕ} (hP : P.natDegree = 8 * w) {blocks : List (List Byte)}
    {polynomials : ℕ → (AdjoinRoot P)[X]} {memory : Buf Byte} {count num polynomSize h b : ℕ}
    (hblock : blocks[0]? = some (sendBytes
      (polynomialMasks (gf2e P) w polynomials polynomSize (count * num) memory)
      (count * num * polynomSize * w)))
    (hdeg : (polynomials (h * num + b)).degree < polynomSize) (hh : h < count) (hb : b < num) :
    receivePolynomials (gf2e P) w (receivedBuf blocks 0) count num polynomSize (fun _ => 0)
      (h * num + b) = polynomials (h * num + b) := by
  rw [receivePolynomials_apply _ _ hh hb]
  refine receivePolynomial_eq (gf2e_lawful P hP.le) hdeg fun j hj => ?_
  have hcell : (h * num + b) * polynomSize + j < count * num * polynomSize :=
    row_cell_lt (row_cell_lt hh hb) hj
  rw [row_receivedBuf hblock (row_end_le w hcell), row_polynomialMasks _ _ (row_cell_lt hh hb) hj]

/-- The one candidate of party `p`: the value of its polynomial for the place, at the element. -/
noncomputable def PsiSession.polynomialValue (s : PsiSession C (Fin size → Byte))
    (polynomials : ℕ → ℕ → (AdjoinRoot P)[X]) (polynomial : (binIndex hashFuncIndex : ℕ) → ℕ) :
    Candidates s.maskSizeInBytes := fun p i b j =>
  {encoding (gf2e P) s.maskSizeInBytes ((polynomials p (polynomial b j)).eval (s.input P 1 i))}

/-- The leader accepts an element if the values of all parties cancel. -/
theorem polynomialLeader_accepts (polynomial : (binIndex hashFuncIndex : ℕ) → ℕ)
    (hrecv : o.Received leaderResults received) {polynomials : ℕ → ℕ → (AdjoinRoot P)[X]}
    {num polynomSize i b t j : ℕ}
    (hpolynomials : ∀ p, 2 ≤ p → p ≤ s.numOfParties →
      (s.polynomialLeader P num polynomSize leaderResults received).partiesPolynomials p
        (polynomial b j) = polynomials p (polynomial b j))
    (hfull : (s.polynomialLeader P num polynomSize leaderResults received).Full (polynomial b j)
      i) :
    (((s.polynomialLeader P num polynomSize leaderResults received).check (polynomial b j) i t
        (b * s.maskSizeInBytes) (s.share (s.shares 1))).getD (false, s.share (s.shares 1))).1 = true
      ↔ o.CancelsAt (s.polynomialValue polynomials polynomial) i b t j := by
  obtain ⟨r, hr, -, hiff⟩ := hfull.check (b := b) (t := t) (s.share (s.shares 1))
  have hcancels := o.cancelsAt_values (s.polynomialValue polynomials polynomial) i b t j
    (fun p => encoding (gf2e P) s.maskSizeInBytes
      ((s.polynomialLeader P num polynomSize leaderResults received).value (polynomial b j) i p))
    hrecv.leaderResults fun p h2 hn x => by
      rw [PolynomialLeader.value, hpolynomials p h2 hn]
      rfl
  refine Iff.trans ?_ (hiff.trans hcancels.symm)
  exact Eq.congr_left (congrArg Prod.fst (congrArg (Option.getD · _) hr))

end Received

/-! ## POLYNOMIALS -/

section Polynomials

variable {s : PsiSession C (Fin size → Byte)} {P : (ZMod 2)[X]} [Fact (Irreducible P)]
  {memory : ℕ → Buf Byte} (o : PsiOutcome (s.polynomials P memory))

/-- The polynomials of party `p`. -/
noncomputable def PsiOutcome.elementPolynomials (p i : ℕ) : (AdjoinRoot P)[X] :=
  (PolynomialFollower.buildPolynomials (gf2e P) (s.sharedSet p (o.masks p))).getD i 0

theorem polynomials_blocks (s : PsiSession C (Fin size → Byte)) (memory : ℕ → Buf Byte) :
    (s.polynomials P memory).BlocksMatch := by
  intro p _ _ masks share
  show [(sendBytes _ (numHashFunctions * s.setSize * s.maskSizeInBytes)).length]
    = [s.maskSizeInBytes * numHashFunctions * 1 * s.setSize]
  rw [length_sendBytes, Nat.mul_one, Nat.mul_assoc s.maskSizeInBytes, Nat.mul_comm]

/-- No two elements of a follower have the same image. -/
theorem nodup_inputs (h : s.Regular) (hP : P.natDegree = 8 * s.maskSizeInBytes)
    (hsize : size ≤ s.maskSizeInBytes) {p : ℕ} (h1 : 1 ≤ p) (hn : p ≤ s.numOfParties) :
    ((List.range s.setSize).map (s.input P p)).Nodup := by
  refine List.Nodup.map_on (fun e he e' he' heq => ?_) List.nodup_range
  exact h.distinct p h1 hn e (List.mem_range.mp he) e' (List.mem_range.mp he')
    ((PsiSession.input_inj hP hsize).mp heq)

theorem elementPolynomials_received (h : s.Regular) (hP : P.natDegree = 8 * s.maskSizeInBytes)
    (hsize : size ≤ s.maskSizeInBytes) {leaderResults : ℕ → Buf Byte}
    {received : ℕ → List (List Byte)} (hrecv : o.Received leaderResults received) {p j : ℕ}
    (h2 : 2 ≤ p) (hn : p ≤ s.numOfParties) (hj : j < numHashFunctions) :
    (s.polynomialLeader P 1 s.setSize leaderResults received).partiesPolynomials p j
      = o.elementPolynomials p j := by
  have hdeg : (o.elementPolynomials p (j * 1 + 0)).degree < s.setSize := by
    rw [Nat.mul_one]
    exact PolynomialFollower.degree_buildPolynomials_lt (gf2e P) (s.sharedSet p (o.masks p))
      (nodup_inputs h hP hsize (by omega) hn) hj
  have hblock : (received p)[0]? = some (sendBytes (polynomialMasks (gf2e P) s.maskSizeInBytes
      (o.elementPolynomials p) s.setSize (numHashFunctions * 1) (memory p))
      (numHashFunctions * 1 * s.setSize * s.maskSizeInBytes)) := by
    rw [hrecv.blocks p h2 hn]
    rfl
  have hreceived := received_polynomial hP hblock hdeg hj Nat.one_pos
  rwa [Nat.mul_one] at hreceived

theorem elementPolynomials_covers (h : s.Regular) (hP : P.natDegree = 8 * s.maskSizeInBytes)
    (hsize : size ≤ s.maskSizeInBytes) :
    o.Covers (s.polynomialValue o.elementPolynomials fun _ j => j) := by
  intro p h2 hn i hi e he heq j hj hfirst
  have heval := PolynomialFollower.eval_buildPolynomials (gf2e P) (s.sharedSet p (o.masks p))
    (nodup_inputs h hP hsize (by omega) hn) hj he
  have hinput : s.input P 1 i = s.input P p e := (PsiSession.input_inj hP hsize).mpr heq.symm
  refine Eq.trans (encoding_convertBytesToGF2E hP (o.masked p) (s.maskIndex p e j)).symm ?_
  refine congrArg (encoding (gf2e P) s.maskSizeInBytes) ?_
  rw [hinput]
  exact heval.symm

end Polynomials

/-- A modulus for masks of one byte. -/
noncomputable def byteModulus : (ZMod 2)[X] :=
  minpoly (ZMod 2) (Field.powerBasisOfFiniteOfSeparable (ZMod 2) (GaloisField 2 8)).gen

instance irreducible_byteModulus : Fact (Irreducible byteModulus) :=
  ⟨minpoly.irreducible (PowerBasis.isIntegral_gen _)⟩

theorem natDegree_byteModulus : byteModulus.natDegree = 8 := by
  rw [byteModulus, PowerBasis.natDegree_minpoly, ← PowerBasis.finrank,
    GaloisField.finrank 2 (by decide)]

/-- The mask of bin 1, with its share, as a field element. -/
theorem maskAt_small {second : ℕ} (set : PolynomialFollowerSet) (hw : set.maskSizeInBytes = 1)
    (hmasks : set.masks = smallMasked second) {e j : ℕ} (he : e < 2) (hj : j < numHashFunctions)
    (hbin : (smallHash (smallElements second 2 e)).address j = 1) :
    maskAt (gf2e byteModulus) set ((smallSession second).maskIndex 2 e j)
      = (gf2e byteModulus).toGF2E 20 := by
  have hrow := row_smallMasked_maskIndex second he hj
  rw [hbin] at hrow
  have hload : ∀ k, loadLE (smallMasked second) (k * 1) 1
      = (row 1 (smallMasked second) k 0).toBits.toNat := fun k => Nat.zero_add _
  rw [maskAt, convertBytesToGF2E, hw, hmasks, hload, hrow]
  exact congrArg _ (show (smallShared 1 0).toBits.toNat = 20 by decide)

/-- It fills its byte. -/
theorem numBytes_rep_small {a : ℕ} (h0 : 0 < a) (ha : a < 2 ^ 8) :
    1 ≤ numBytes ((gf2e byteModulus).rep ((gf2e byteModulus).toGF2E a)) := by
  rw [gf2e_rep_toGF2E byteModulus (by rwa [natDegree_byteModulus]), numBytes, if_neg h0.ne']
  omega

/-- With both elements of the follower in one bin the first polynomial is constant. -/
theorem full_small {o : PsiOutcome ((smallSession 5).polynomials byteModulus fun _ _ => 0)}
    (hends : ∀ p, o.Ends p (((smallSession 5).polynomials byteModulus fun _ _ => 0).result p))
    {leaderResults : ℕ → Buf Byte} {received : ℕ → List (List Byte)}
    (hrecv : o.Received leaderResults received) (i : ℕ) :
    ((smallSession 5).polynomialLeader byteModulus 1 2 leaderResults received).Full 0 i := by
  intro p h2 hp
  obtain rfl : p = 2 := Nat.le_antisymm (Nat.le_of_lt_succ hp) h2
  have hregular : (smallSession 5).Regular := smallSession_regular (by decide)
  have hmasked : o.masked 2 = smallMasked 5 :=
    congrArg (xorMasks · 1 _ 4 _) (o.tables_eq hends ⟨0, Nat.one_pos⟩).2
  have hbins : ∀ e < 2, (smallHash (smallElements 5 2 e)).address 0 = 1 := by decide
  have hmask : ∀ e < 2, maskAt (gf2e byteModulus) ((smallSession 5).sharedSet 2 (o.masks 2))
      ((smallSession 5).maskIndex 2 e 0) = (gf2e byteModulus).toGF2E 20 := fun e he =>
    maskAt_small _ rfl hmasked he (by decide) (hbins e he)
  have hconst : o.elementPolynomials 2 0 = C ((gf2e byteModulus).toGF2E 20) := by
    refine (PolynomialFollower.getD_buildPolynomials (gf2e byteModulus) _ (by decide)).trans
      (interpolate_eq_C (nodup_inputs hregular natDegree_byteModulus le_rfl (by decide) le_rfl)
        Nat.two_pos fun i hi => ?_)
    have hi : i < 2 := hi
    obtain rfl | rfl : i = 0 ∨ i = 1 := by omega
    · exact hmask 0 hi
    · exact hmask 1 hi
  have hvalue : ((smallSession 5).polynomialLeader byteModulus 1 2 leaderResults received).value 0 i
      2 = (gf2e byteModulus).toGF2E 20 := by
    have hreceived := elementPolynomials_received o hregular natDegree_byteModulus le_rfl hrecv
      le_rfl le_rfl (show 0 < numHashFunctions by decide)
    rw [PolynomialLeader.value]
    refine Eq.trans (congrArg (eval _) (hreceived.trans hconst)) eval_C
  rw [hvalue]
  exact numBytes_rep_small (by decide) (by decide)

section SimpleHash

variable {s : PsiSession C (Fin size → Byte)} {P : (ZMod 2)[X]} [Fact (Irreducible P)]
  {random : ℕ → ℕ → ℕ → ℕ → (AdjoinRoot P)[X]} (o : PsiOutcome (s.polynomialsSimpleHash P random))

/-- The polynomials of party `p`. -/
noncomputable def PsiOutcome.binPolynomials (p i : ℕ) : (AdjoinRoot P)[X] :=
  (buildPolynomials (gf2e P) (s.sharedSet p (o.masks p)) (random p) (s.numCores p)).getD i 0

theorem polynomialsSimpleHash_blocks (s : PsiSession C (Fin size → Byte))
    (random : ℕ → ℕ → ℕ → ℕ → (AdjoinRoot P)[X]) :
    (s.polynomialsSimpleHash P random).BlocksMatch := by
  intro p _ _ masks share
  show [(sendBytes _ (numHashFunctions * s.numOfBins * s.maxBinSize * s.maskSizeInBytes)).length]
    = [s.maskSizeInBytes * numHashFunctions * s.numOfBins * s.maxBinSize]
  rw [length_sendBytes, Nat.mul_comm, Nat.mul_assoc s.maskSizeInBytes,
    Nat.mul_assoc s.maskSizeInBytes]

/-- The polynomial for hash function `j` and bin `b`. -/
theorem binPolynomials_eq {p b j : ℕ} (hw : s.numCores p * s.numOfBins < 2 ^ 32)
    (hj : j < numHashFunctions) (hb : b < s.numOfBins) :
    o.binPolynomials p (j * s.numOfBins + b)
      = binPolynomial (gf2e P) (s.sharedSet p (o.masks p)) (random p) j b
        (binStart (s.simple p).nelesinbin b) := by
  have hget := (buildPolynomials_get (gf2e P) (s.sharedSet p (o.masks p)) (random p)
    (s.numCores_pos p) (Nat.lt_of_le_of_lt (Nat.zero_le b) hb) hw).2 j hj b hb
  exact List.getD_eq_getElem?_getD.trans (congrArg (Option.getD · 0) hget)

/-- The entries of a bin that one hash function made are of different elements. -/
theorem nodup_entryInputs (h : s.Regular) (hP : P.natDegree = 8 * s.maskSizeInBytes)
    (hsize : size ≤ s.maskSizeInBytes) {p b j : ℕ} (h2 : 2 ≤ p) (hn : p ≤ s.numOfParties)
    (hb : b < s.numOfBins) (masks : Buf Byte) :
    ((entriesBy (s.followerSet p masks) j b ((s.simple p).nelesinbin b)).map
      (entryInput (gf2e P) (s.sharedSet p masks) b)).Nodup := by
  have hspec := s.simpleSpec h2 hn
  have haddr : ∀ e < s.setSize, ∀ j < numHashFunctions,
      (s.hashElement (s.elements p e)).address j < s.numOfBins := fun e _ => s.address_lt _
  have hnodup : (entriesBy (s.followerSet p masks) j b ((s.simple p).nelesinbin b)).Nodup :=
    List.nodup_range.filter _
  refine List.Nodup.map_on (fun u hu u' hu' heq => ?_) hnodup
  obtain ⟨hlt, hmod⟩ := List.mem_filter.mp hu
  obtain ⟨hlt', hmod'⟩ := List.mem_filter.mp hu'
  -- positions of the table, and the numbers of their entries
  have hpos : ∀ u < (s.simple p).nelesinbin b,
      binStart (s.simple p).nelesinbin b + u < numHashFunctions * s.setSize := fun u hu => by
    rw [← hspec.sum_nelesinbin haddr]
    exact binStart_add_lt hb hu
  have hbij := Set.BijOn.symm (hspec.invOn haddr).symm (hspec.bijOn haddr)
  have hlt := hpos u (List.mem_range.mp hlt)
  have hlt' := hpos u' (List.mem_range.mp hlt')
  have helement := h.distinct p (by omega) hn _ (Nat.div_lt_of_lt_mul (hbij.mapsTo hlt)) _
    (Nat.div_lt_of_lt_mul (hbij.mapsTo hlt')) ((PsiSession.input_inj hP hsize).mp heq)
  -- the hash function is `j` for both
  have hkey := (Nat.div_add_mod _ _).symm.trans ((congrArg₂ (numHashFunctions * · + ·) helement
    ((beq_iff_eq.mp hmod).trans (beq_iff_eq.mp hmod').symm)).trans (Nat.div_add_mod _ _))
  exact Nat.add_left_cancel (hbij.injOn hlt hlt' hkey)

theorem binPolynomials_received (h : s.Regular) (hP : P.natDegree = 8 * s.maskSizeInBytes)
    (hsize : size ≤ s.maskSizeInBytes) (hfits : s.BinsFit)
    (hrandom : ∀ p j b n, (random p j b n).degree < n) {leaderResults : ℕ → Buf Byte}
    {received : ℕ → List (List Byte)} (hrecv : o.Received leaderResults received) {p b j : ℕ}
    (hw : s.numCores p * s.numOfBins < 2 ^ 32) (h2 : 2 ≤ p) (hn : p ≤ s.numOfParties)
    (hb : b < s.numOfBins) (hj : j < numHashFunctions) :
    (s.polynomialLeader P s.numOfBins s.maxBinSize leaderResults received).partiesPolynomials p
      (j * s.numOfBins + b) = o.binPolynomials p (j * s.numOfBins + b) := by
  have hdeg : (o.binPolynomials p (j * s.numOfBins + b)).degree < s.maxBinSize := by
    rw [binPolynomials_eq o hw hj hb]
    exact degree_binPolynomial_lt (gf2e P) (s.sharedSet p (o.masks p)) (hrandom p)
      (hfits p h2 hn (o.masks p) b hb j hj) (nodup_entryInputs h hP hsize h2 hn hb (o.masks p))
  have hblock : (received p)[0]? = some (sendBytes (polynomialMasks (gf2e P) s.maskSizeInBytes
      (o.binPolynomials p) s.maxBinSize (numHashFunctions * s.numOfBins) fun _ => 0)
      (numHashFunctions * s.numOfBins * s.maxBinSize * s.maskSizeInBytes)) := by
    rw [hrecv.blocks p h2 hn]
    rfl
  exact received_polynomial hP hblock hdeg hj hb

theorem binPolynomials_covers (h : s.Regular) (hP : P.natDegree = 8 * s.maskSizeInBytes)
    (hsize : size ≤ s.maskSizeInBytes)
    (hw : ∀ p, 2 ≤ p → p ≤ s.numOfParties → s.numCores p * s.numOfBins < 2 ^ 32) :
    o.Covers (s.polynomialValue o.binPolynomials fun b j => j * s.numOfBins + b) := by
  intro p h2 hn i hi e he heq j hj hfirst
  have hb : (s.hashElement (s.elements p e)).address j < s.numOfBins := s.address_lt _ j hj
  obtain ⟨u, hu, hindex, hentry⟩ := s.exists_entryBy_maskIndex (o.masks p) h2 hn he hj
  have heval : (o.binPolynomials p (j * s.numOfBins
        + (s.hashElement (s.elements p e)).address j)).eval
      (entryInput (gf2e P) (s.sharedSet p (o.masks p))
        ((s.hashElement (s.elements p e)).address j) u)
        = entryMask (gf2e P) (s.sharedSet p (o.masks p))
          ((s.hashElement (s.elements p e)).address j) u := by
    rw [binPolynomials_eq o (hw p h2 hn) hj hb]
    exact eval_binPolynomial (gf2e P) (s.sharedSet p (o.masks p))
      (nodup_entryInputs h hP hsize h2 hn hb (o.masks p)) hu
  -- entry `u` is that of element `e`
  have hinput : entryInput (gf2e P) (s.sharedSet p (o.masks p))
      ((s.hashElement (s.elements p e)).address j) u = s.input P 1 i := by
    refine Eq.trans (congrArg (s.input P p) ?_) ((PsiSession.input_inj hP hsize).mpr heq)
    refine Eq.trans (congrArg (fun q => (s.simple p).binToElementsToHashTable q
      / numHashFunctions) hindex.symm) ?_
    rw [hentry, Nat.mul_add_div (by decide), Nat.div_eq_of_lt hj, Nat.add_zero]
  rw [hinput] at heval
  refine Eq.trans (encoding_convertBytesToGF2E hP (o.masked p) (s.maskIndex p e j)).symm ?_
  refine congrArg (encoding (gf2e P) s.maskSizeInBytes) (Eq.trans ?_ heval.symm)
  exact congrArg (maskAt (gf2e P) (s.sharedSet p (o.masks p))) hindex

end SimpleHash

/-- The random polynomials of the small session. -/
noncomputable def smallPolynomials : ℕ → ℕ → ℕ → ℕ → (AdjoinRoot byteModulus)[X] :=
  fun _ _ _ => constantFor ((gf2e byteModulus).toGF2E 20)

/-- The bin of the leader's first element has a random polynomial, that of the common element takes
its mask. -/
theorem full_smallPolynomials
    {o : PsiOutcome ((smallSession 2).polynomialsSimpleHash byteModulus smallPolynomials)}
    (hends : ∀ p, o.Ends p
      (((smallSession 2).polynomialsSimpleHash byteModulus smallPolynomials).result p))
    {leaderResults : ℕ → Buf Byte} {received : ℕ → List (List Byte)}
    (hrecv : o.Received leaderResults received) {i : ℕ} (hi : i < 2) :
    ((smallSession 2).polynomialLeader byteModulus 4 2 leaderResults received).Full (0 * 4 + i)
      i := by
  intro p h2 hp
  obtain rfl : p = 2 := Nat.le_antisymm (Nat.le_of_lt_succ hp) h2
  have hregular : (smallSession 2).Regular := smallSession_regular (by decide)
  have hmasked : o.masked 2 = smallMasked 2 :=
    congrArg (xorMasks · 1 _ 4 _) (o.tables_eq hends ⟨0, Nat.one_pos⟩).2
  have hb : i < (smallSession 2).numOfBins := Nat.lt_of_lt_of_le hi (by decide)
  have hw : (smallSession 2).numCores 2 * (smallSession 2).numOfBins < 2 ^ 32 := by decide
  let set := (smallSession 2).sharedSet 2 (o.masks 2)
  have hpolynomial : o.binPolynomials 2 (0 * 4 + i) = binPolynomial (gf2e byteModulus) set
      (smallPolynomials 2) 0 i (binStart set.numOfElementsInBin i) :=
    binPolynomials_eq o hw (by decide) hb
  have hall : ∀ i < 2, entriesBy ((smallSession 2).followerSet 2 fun _ => 0) 0 i
      (((smallSession 2).simple 2).nelesinbin i) = if i = 0 then [] else [0] := by
    decide
  have hentries : entriesBy set.toFollowerSet 0 i (set.numOfElementsInBin i)
      = if i = 0 then [] else [0] := hall i hi
  have heval : (o.binPolynomials 2 (0 * 4 + i)).eval ((smallSession 2).input byteModulus 1 i)
      = (gf2e byteModulus).toGF2E 20 := by
    rw [hpolynomial]
    obtain rfl | rfl : i = 0 ∨ i = 1 := by omega
    · rw [binPolynomial_of_nil (gf2e byteModulus) set hentries]
      have hcount : numOfRandomElements 2 0 ≠ 0 := by decide
      exact (congrArg (eval _) (if_neg hcount)).trans eval_C
    · have hmem : 0 ∈ entriesBy set.toFollowerSet 0 1 (set.numOfElementsInBin 1) := by
        rw [hentries]
        exact List.mem_singleton_self 0
      have helement : ((smallSession 2).simple 2).binToElementsToHashTable
          (binStart ((smallSession 2).simple 2).nelesinbin 1 + 0) / numHashFunctions = 0 := by
        decide
      have hsame : (smallSession 2).elements 2 0 = (smallSession 2).elements 1 1 := rfl
      have hinput : entryInput (gf2e byteModulus) set 1 0
          = (smallSession 2).input byteModulus 1 1 :=
        (congrArg (inputOf (gf2e byteModulus) set) helement).trans
          ((PsiSession.input_inj natDegree_byteModulus le_rfl).mpr hsame)
      have hindex : (smallSession 2).maskIndex 2 0 0
          = binStart ((smallSession 2).simple 2).nelesinbin 1 + 0 := by decide
      have hmask := maskAt_small set rfl hmasked Nat.two_pos
        (show 0 < numHashFunctions by decide) (by decide)
      rw [hindex] at hmask
      rw [← hinput]
      exact (eval_binPolynomial (gf2e byteModulus) set (nodup_entryInputs hregular
        natDegree_byteModulus le_rfl le_rfl le_rfl hb (o.masks 2)) hmem).trans hmask
  have hvalue : ((smallSession 2).polynomialLeader byteModulus 4 2 leaderResults received).value
      (0 * 4 + i) i 2 = (gf2e byteModulus).toGF2E 20 := by
    have hreceived := binPolynomials_received o hregular natDegree_byteModulus le_rfl
      smallSession_binsFit (fun _ _ _ => degree_constantFor_lt _) hrecv hw le_rfl le_rfl hb
      (show 0 < numHashFunctions by decide)
    rw [PolynomialLeader.value]
    exact Eq.trans (congrArg (eval _) hreceived) heval
  rw [hvalue]
  exact numBytes_rep_small (by decide) (by decide)

end MultiPartyPSI
