import MultiPartyPSI.Followers.PolynomialFollower
import MultiPartyPSI.Followers.SimpleHashingNaiveFollower
import MultiPartyPSI.Leaders.Leader
import MultiPartyPSI.Util.Interpolation

/-!
# Polynomials of the bins

`SimpleHashingPolynomialFollower::buildPolynomials`. For every hash function and bin there is one
polynomial that takes a mask at each element the hash function put into the bin. The bins of a hash
function are shared out among threads; the spawning loop passes over the entries of a thread's
bins, so that the next thread starts at its own.

All threads together build what one loop over the bins would: `flatMap_polyStructs`.
-/

namespace MultiPartyPSI

open Lib Buf Polynomial

/-- A `FollowerSet` with the elements, which the polynomials are evaluated at. -/
structure PolynomialFollowerSet extends FollowerSet where
  realElements : Buf Byte
  elementSizeInBytes : ℕ

section Model

variable {E : Type*} [Field E] (ops : GF2EOps E E[X]) (set : PolynomialFollowerSet)

/-- `xor_masks` in `PolynomialFollower::run`. -/
def PolynomialFollowerSet.shared (secretShare : Buf Byte) : PolynomialFollowerSet :=
  { set with
    masks := xorMasks set.masks set.maskSizeInBytes secretShare set.numOfBins
      set.numOfElementsInBin }

/-- The field image of an element. -/
def inputOf (elementIndex : ℕ) : E :=
  convertBytesToGF2E ops set.realElements (elementIndex * set.elementSizeInBytes)
    set.elementSizeInBytes

/-- The field image of the mask at a position of the table. -/
def maskAt (j : ℕ) : E :=
  convertBytesToGF2E ops set.masks (j * set.maskSizeInBytes) set.maskSizeInBytes

/-- The vectors for one bin, and how many of its entries were made by the hash function. -/
structure BinPoints (E : Type*) where
  inputs : List E
  masks : List E
  numOfElementsOfHashInBin : ℕ

/-- The body of the loop over the entries of a bin. -/
def collectPoint (hashIndex j : ℕ) (s : BinPoints E) : BinPoints E :=
  if set.binToElementsToHashTable j % numHashFunctions ≠ hashIndex then s
  else ⟨s.inputs ++ [inputOf ops set (set.binToElementsToHashTable j / numHashFunctions)],
    s.masks ++ [maskAt ops set j], s.numOfElementsOfHashInBin + 1⟩

/-- The loop, over the entries from `elementIndex` on. -/
def binPoints (hashIndex elementIndex numOfElementsInBin : ℕ) : BinPoints E :=
  loop (fun i => collectPoint ops set hashIndex (elementIndex + i)) numOfElementsInBin ⟨[], [], 0⟩

/-- `m_maxBinSize-numOfElementsOfHashInBin`, of unsigned numbers. -/
def numOfRandomElements (maxBinSize numOfElementsOfHashInBin : ℕ) : ℕ :=
  (2 ^ 32 + maxBinSize - numOfElementsOfHashInBin) % 2 ^ 32

variable (random : ℕ → ℕ → ℕ → E[X])

/-- The polynomial of bin `k`; `random_GF2EX(n)` is `random hashIndex k n`. -/
noncomputable def binPolynomial (hashIndex k elementIndex : ℕ) : E[X] :=
  let points := binPoints ops set hashIndex elementIndex (set.numOfElementsInBin k)
  random hashIndex k (numOfRandomElements set.maxBinSize points.numOfElementsOfHashInBin)
    * rootsPoly points.inputs + interpolate points.inputs points.masks

/-- `hash_polynomial_struct`: the work of one thread. -/
structure HashPolynomialStruct where
  hashIndex : ℕ
  startBin : ℕ
  endBin : ℕ
  elementIndex : ℕ

/-- `buildPolynomialsInThread`. -/
noncomputable def buildPolynomialsInThread (pol : HashPolynomialStruct) : List E[X] :=
  (loop (fun i (s : List E[X] × ℕ) =>
      let k := pol.startBin + i
      (s.1 ++ [binPolynomial ops set random pol.hashIndex k s.2], s.2 + set.numOfElementsInBin k))
    (pol.endBin - pol.startBin) ([], pol.elementIndex)).1

/-- The loop that creates the threads of hash function `i`. -/
def polyStructs (i numThreads : ℕ) : List HashPolynomialStruct × ℕ :=
  loop (fun k s =>
      let startBin := workerStart set.numOfBins numThreads k
      let endBin := workerEnd set.numOfBins numThreads k
      (s.1 ++ [⟨i, startBin, endBin, s.2⟩],
        loop (fun j elementIndex => elementIndex + set.numOfElementsInBin (startBin + j))
          (endBin - startBin) s.2))
    numThreads ([], 0)

/-- `buildPolynomials`: `m_polynomials`. -/
noncomputable def buildPolynomials (mNumCores : ℕ) : List E[X] :=
  let numThreads := min mNumCores set.numOfBins
  loop (fun i polynomials => polynomials ++
      (polyStructs set i numThreads).1.flatMap (buildPolynomialsInThread ops set random))
    numHashFunctions []

end Model

/-! ## The threads -/

section Threads

variable {E : Type*} [Field E] (ops : GF2EOps E E[X]) (set : PolynomialFollowerSet)
  (random : ℕ → ℕ → ℕ → E[X])

/-- The polynomials of hash function `h` for the bins before `n`. -/
noncomputable def polynomialsBefore (h n : ℕ) : List E[X] :=
  (List.range n).map fun b =>
    binPolynomial ops set random h b (binStart set.numOfElementsInBin b)

theorem polynomialsBefore_succ (h n : ℕ) :
    polynomialsBefore ops set random h (n + 1) = polynomialsBefore ops set random h n
      ++ [binPolynomial ops set random h n (binStart set.numOfElementsInBin n)] := by
  rw [polynomialsBefore, List.range_succ, List.map_append]
  rfl

/-- A thread that starts at the entries of its first bin appends the polynomials of its bins. -/
theorem append_buildPolynomialsInThread (pol : HashPolynomialStruct)
    (hle : pol.startBin ≤ pol.endBin)
    (hstart : pol.elementIndex = binStart set.numOfElementsInBin pol.startBin) :
    polynomialsBefore ops set random pol.hashIndex pol.startBin
        ++ buildPolynomialsInThread ops set random pol
      = polynomialsBefore ops set random pol.hashIndex pol.endBin := by
  have hrun := loop_induct (P := fun i (s : List E[X] × ℕ) =>
      polynomialsBefore ops set random pol.hashIndex pol.startBin ++ s.1
          = polynomialsBefore ops set random pol.hashIndex (pol.startBin + i) ∧
        s.2 = binStart set.numOfElementsInBin (pol.startBin + i))
    (f := fun i s => (s.1 ++ [binPolynomial ops set random pol.hashIndex (pol.startBin + i) s.2],
      s.2 + set.numOfElementsInBin (pol.startBin + i)))
    (s := ([], pol.elementIndex)) (pol.endBin - pol.startBin)
    ⟨List.append_nil _, hstart⟩ fun i s _ hs => by
      refine ⟨?_, ?_⟩
      · rw [← List.append_assoc, hs.1, hs.2, ← Nat.add_assoc, polynomialsBefore_succ]
      · rw [hs.2, ← Nat.add_assoc, binStart_succ]
  rw [Nat.add_sub_cancel' hle] at hrun
  exact hrun.1

variable {set}

/-- The spawning loop passes over the entries of a range of bins. -/
theorem loop_numOfElementsInBin (start n : ℕ) :
    loop (fun j elementIndex => elementIndex + set.numOfElementsInBin (start + j)) n
        (binStart set.numOfElementsInBin start)
      = binStart set.numOfElementsInBin (start + n) :=
  loop_induct (P := fun n (elementIndex : ℕ) =>
      elementIndex = binStart set.numOfElementsInBin (start + n)) n rfl fun _ _ _ he => by
    rw [he, ← Nat.add_assoc, binStart_succ]

/-- **The threads of a hash function build the polynomials of all bins, in order.** -/
theorem flatMap_polyStructs {numThreads : ℕ} (hw : numThreads * set.numOfBins < 2 ^ 32)
    (hpos : 0 < numThreads) (h : ℕ) :
    (polyStructs set h numThreads).1.flatMap (buildPolynomialsInThread ops set random)
      = polynomialsBefore ops set random h set.numOfBins := by
  -- the first `k` threads reach up to bin `k*numOfBins/numThreads`
  have hrun := loop_induct (P := fun k (s : List HashPolynomialStruct × ℕ) =>
      s.1.flatMap (buildPolynomialsInThread ops set random)
          = polynomialsBefore ops set random h (k * set.numOfBins / numThreads) ∧
        s.2 = binStart set.numOfElementsInBin (k * set.numOfBins / numThreads))
    (f := fun k s =>
      (s.1 ++ [⟨h, workerStart set.numOfBins numThreads k, workerEnd set.numOfBins numThreads k,
          s.2⟩],
        loop (fun j elementIndex => elementIndex
            + set.numOfElementsInBin (workerStart set.numOfBins numThreads k + j))
          (workerEnd set.numOfBins numThreads k - workerStart set.numOfBins numThreads k) s.2))
    (s := ([], 0)) numThreads ?_ ?_
  · rw [Nat.mul_div_cancel_left _ hpos] at hrun
    exact hrun.1
  · rw [Nat.zero_mul, Nat.zero_div]
    exact ⟨rfl, rfl⟩
  · intro k s hk hs
    have hle := workerStart_le_end hw hk
    have hstart := workerStart_eq hw hk
    rw [← hstart] at hs
    rw [← workerEnd_eq hw hk]
    refine ⟨?_, ?_⟩
    · rw [List.flatMap_append, hs.1, List.flatMap_singleton]
      exact append_buildPolynomialsInThread ops set random ⟨h, _, _, s.2⟩ hle hs.2
    · rw [hs.2, loop_numOfElementsInBin, Nat.add_sub_cancel' hle]

variable (set) in
/-- `m_polynomials` is read by hash function and bin. -/
theorem buildPolynomials_get {mNumCores : ℕ} (hcores : 1 ≤ mNumCores) (hbins : 1 ≤ set.numOfBins)
    (hw : mNumCores * set.numOfBins < 2 ^ 32) :
    (buildPolynomials ops set random mNumCores).length = numHashFunctions * set.numOfBins ∧
      ∀ h < numHashFunctions, ∀ b < set.numOfBins,
        (buildPolynomials ops set random mNumCores)[h * set.numOfBins + b]?
          = some (binPolynomial ops set random h b (binStart set.numOfElementsInBin b)) := by
  have hthreads : ∀ h, (polyStructs set h (min mNumCores set.numOfBins)).1.flatMap
      (buildPolynomialsInThread ops set random)
        = polynomialsBefore ops set random h set.numOfBins :=
    flatMap_polyStructs ops random
      ((Nat.mul_le_mul_right _ (Nat.min_le_left _ _)).trans_lt hw) (Nat.lt_min.mpr ⟨hcores, hbins⟩)
  unfold buildPolynomials
  dsimp only
  refine loop_induct (P := fun i (polynomials : List E[X]) =>
    polynomials.length = i * set.numOfBins ∧ ∀ h < i, ∀ b < set.numOfBins,
      polynomials[h * set.numOfBins + b]?
        = some (binPolynomial ops set random h b (binStart set.numOfElementsInBin b)))
    numHashFunctions ⟨?_, fun h hh => absurd hh (Nat.not_lt_zero h)⟩ ?_
  · rw [Nat.zero_mul, List.length_nil]
  intro i polynomials _ hprev
  rw [hthreads]
  refine ⟨?_, fun h hh b hb => ?_⟩
  · rw [List.length_append, hprev.1, polynomialsBefore, List.length_map, List.length_range,
      Nat.succ_mul]
  · rcases Nat.lt_or_eq_of_le (Nat.le_of_lt_succ hh) with hlt | rfl
    · have hcell := row_cell_lt hlt hb
      rw [List.getElem?_append_left (by rw [hprev.1]; exact hcell)]
      exact hprev.2 h hlt b hb
    · rw [List.getElem?_append_right (by rw [hprev.1]; exact Nat.le_add_right _ _), hprev.1,
        Nat.add_sub_cancel_left, polynomialsBefore, List.getElem?_map, List.getElem?_range hb]
      rfl

end Threads

/-! ## The polynomial of a bin -/

section Bin

variable {E : Type*} [Field E] (ops : GF2EOps E E[X]) (set : PolynomialFollowerSet)

/-- The input of entry `u` of bin `b`. -/
def entryInput (set : PolynomialFollowerSet) (b u : ℕ) : E :=
  inputOf ops set (set.binToElementsToHashTable (binStart set.numOfElementsInBin b + u)
    / numHashFunctions)

/-- Its mask. -/
def entryMask (set : PolynomialFollowerSet) (b u : ℕ) : E :=
  maskAt ops set (binStart set.numOfElementsInBin b + u)

/-- The points of a bin are those of its entries that were made by the hash function. -/
theorem binPoints_eq (h b n : ℕ) :
    binPoints ops set h (binStart set.numOfElementsInBin b) n
      = ⟨(entriesBy set.toFollowerSet h b n).map (entryInput ops set b),
        (entriesBy set.toFollowerSet h b n).map (entryMask ops set b),
        (entriesBy set.toFollowerSet h b n).length⟩ := by
  refine loop_induct (P := fun n (points : BinPoints E) => points
    = ⟨(entriesBy set.toFollowerSet h b n).map (entryInput ops set b),
      (entriesBy set.toFollowerSet h b n).map (entryMask ops set b),
      (entriesBy set.toFollowerSet h b n).length⟩) n rfl fun i points _ hpoints => ?_
  rw [collectPoint, hpoints, entriesBy_succ]
  by_cases hh : set.binToElementsToHashTable (binStart set.numOfElementsInBin b + i)
      % numHashFunctions = h
  · rw [if_neg (not_not.mpr hh), if_pos hh, List.map_append, List.map_append, List.length_append]
    rfl
  · rw [if_pos hh, if_neg hh, List.append_nil]

/-- A bin without entries has a random polynomial. -/
theorem binPolynomial_of_nil {random : ℕ → ℕ → ℕ → E[X]} {h b : ℕ}
    (hnil : entriesBy set.toFollowerSet h b (set.numOfElementsInBin b) = []) :
    binPolynomial ops set random h b (binStart set.numOfElementsInBin b)
      = random h b (numOfRandomElements set.maxBinSize 0) := by
  rw [binPolynomial, binPoints_eq, hnil, List.map_nil, List.map_nil, rootsPoly_nil,
    interpolate_nil, mul_one, add_zero, List.length_nil]

/-- Without an overflow no more is asked for than what the entries leave. -/
theorem numOfRandomElements_le {maxBinSize count : ℕ} (h : count ≤ maxBinSize) :
    numOfRandomElements maxBinSize count ≤ maxBinSize - count := by
  rw [numOfRandomElements, Nat.add_sub_assoc h, Nat.add_mod_left]
  exact Nat.mod_le _ _

variable {random : ℕ → ℕ → ℕ → E[X]} (hrandom : ∀ h b n, (random h b n).degree < n)
  {h b : ℕ}
  (hfits : (entriesBy set.toFollowerSet h b (set.numOfElementsInBin b)).length ≤ set.maxBinSize)
  (hdistinct : ((entriesBy set.toFollowerSet h b (set.numOfElementsInBin b)).map
    (entryInput ops set b)).Nodup)
include hdistinct

include hrandom hfits in
/-- It has the degree of a full bin. -/
theorem degree_binPolynomial_lt :
    (binPolynomial ops set random h b (binStart set.numOfElementsInBin b)).degree
      < set.maxBinSize := by
  rw [binPolynomial, binPoints_eq]
  refine degree_mul_rootsPoly_add_lt hdistinct (by rwa [List.length_map]) ?_ _
  rw [List.length_map]
  exact (hrandom _ _ _).trans_le (Nat.cast_le.mpr (numOfRandomElements_le hfits))

/-- And takes every entry's mask at its element. -/
theorem eval_binPolynomial {u : ℕ}
    (hu : u ∈ entriesBy set.toFollowerSet h b (set.numOfElementsInBin b)) :
    (binPolynomial ops set random h b (binStart set.numOfElementsInBin b)).eval
      (entryInput ops set b u) = entryMask ops set b u := by
  rw [binPolynomial, binPoints_eq]
  exact eval_mul_rootsPoly_add_map hdistinct hu _

end Bin

/-! ## All bins -/

section Result

variable {E : Type*} [Field E] {ops : GF2EOps E E[X]}

/-- The field image of the mask at position `j`, with the share of bin `b`. -/
def sharedMask (ops : GF2EOps E E[X]) (set : PolynomialFollowerSet) (secretShare : Buf Byte)
    (b j : ℕ) : E :=
  convertBytesToGF2E ops (fun i => set.masks (j * set.maskSizeInBytes + i)
    + secretShare (b * set.maskSizeInBytes + i)) 0 set.maskSizeInBytes

theorem entryMask_shared {set : PolynomialFollowerSet} (secretShare : Buf Byte) {b u : ℕ}
    (hb : b < set.numOfBins) (hu : u < set.numOfElementsInBin b) :
    entryMask ops (set.shared secretShare) b u
      = sharedMask ops set secretShare b (binStart set.numOfElementsInBin b + u) := by
  have hrow : row set.maskSizeInBytes (set.shared secretShare).masks
      (binStart set.numOfElementsInBin b + u) = _ := row_xorMasks _ _ _ hb hu
  refine congrArg ops.toGF2E (loadLE_congr fun i hi => ?_)
  rw [Nat.zero_add]
  exact congrFun hrow ⟨i, hi⟩

variable {V : Type*}

/-- **Every bin has its polynomial, for any number of threads.** The polynomial of hash function
`h` and bin `b` is at the place where the leader looks for it, has the degree of a full bin and
takes the shared mask of each of the bin's entries that were made by `h` at the entry's element.
In a table of `simple_hashing` these are the elements that `h` puts into `b`. -/
theorem buildPolynomials_spec (ops : GF2EOps E E[X]) (set : PolynomialFollowerSet)
    (secretShare : Buf Byte) (random : ℕ → ℕ → ℕ → E[X])
    (hrandom : ∀ h b n, (random h b n).degree < n) (mNumCores : ℕ) (hcores : 1 ≤ mNumCores)
    (hbins : 1 ≤ set.numOfBins) (hw : mNumCores * set.numOfBins < 2 ^ 32) (hfits : set.Fits)
    (hdistinct : ∀ h < numHashFunctions, ∀ b < set.numOfBins,
      ((entriesBy set.toFollowerSet h b (set.numOfElementsInBin b)).map
        (entryInput ops set b)).Nodup) :
    let polynomials := buildPolynomials ops (set.shared secretShare) random mNumCores
    polynomials.length = numHashFunctions * set.numOfBins ∧
      (∀ h < numHashFunctions, ∀ b < set.numOfBins,
        ∃ f, polynomials[h * set.numOfBins + b]? = some f ∧ f.degree < set.maxBinSize ∧
          ∀ u ∈ entriesBy set.toFollowerSet h b (set.numOfElementsInBin b),
            f.eval (entryInput ops set b u)
              = sharedMask ops set secretShare b (binStart set.numOfElementsInBin b + u)) ∧
      ∀ (dummy : V) (hash : ℕ → Hashed V) (ntasks : ℕ) (out : SimpleHashOutput V),
        0 < ntasks →
        (∀ e < set.numOfElements, ∀ h < numHashFunctions, (hash e).address h < set.numOfBins) →
        simpleHashing dummy hash set.numOfElements set.numOfBins ntasks = some out →
        set.numOfElementsInBin = out.nelesinbin →
        set.elementsToHashTable = out.elementsToHashTable →
        set.binToElementsToHashTable = out.binToElementsToHashTable →
        ∀ e < set.numOfElements, ∀ h < numHashFunctions,
          ∃ f, polynomials[h * set.numOfBins + (hash e).address h]? = some f ∧
            f.eval (inputOf ops set e) = sharedMask ops set secretShare ((hash e).address h)
              (set.elementsToHashTable (numHashFunctions * e + h)) := by
  intro polynomials
  obtain ⟨hlen, hget⟩ := buildPolynomials_get ops (set.shared secretShare) random hcores hbins hw
  have heval : ∀ h < numHashFunctions, ∀ b < set.numOfBins,
      ∀ u ∈ entriesBy set.toFollowerSet h b (set.numOfElementsInBin b),
        (binPolynomial ops (set.shared secretShare) random h b
            (binStart set.numOfElementsInBin b)).eval (entryInput ops set b u)
          = sharedMask ops set secretShare b (binStart set.numOfElementsInBin b + u) := by
    intro h hh b hb u hu
    rw [← entryMask_shared secretShare hb (List.mem_range.mp (List.mem_filter.mp hu).1)]
    exact eval_binPolynomial ops (set.shared secretShare) (hdistinct h hh b hb) hu
  refine ⟨hlen, fun h hh b hb => ⟨_, hget h hh b hb, ?_, heval h hh b hb⟩, ?_⟩
  · exact degree_binPolynomial_lt ops (set.shared secretShare) hrandom (hfits b hb h hh)
      (hdistinct h hh b hb)
  · intro dummy hash ntasks out hn haddr hout hcount helements hbins e he h hh
    obtain ⟨u, hu, hto, hfrom⟩ := exists_entryBy hn haddr hout hcount helements hbins he hh
    refine ⟨_, hget h hh _ (haddr e he h hh), ?_⟩
    have hvalue := heval h hh _ (haddr e he h hh) u hu
    have helement : set.binToElementsToHashTable
        (binStart set.numOfElementsInBin ((hash e).address h) + u) / numHashFunctions = e := by
      refine Eq.trans (congrArg (· / numHashFunctions) hfrom) ?_
      rw [Nat.mul_add_div (by decide), Nat.div_eq_of_lt hh, Nat.add_zero]
    rw [entryInput, helement] at hvalue
    rw [hto]
    exact hvalue

/-- `twoElementSet` with its elements. -/
def twoElementPolynomials : PolynomialFollowerSet where
  toFollowerSet := twoElementSet
  realElements := ofNatLE (2 + 2 ^ 8 * 3)
  elementSizeInBytes := 1

/-- A constant in place of a random polynomial. -/
noncomputable def constantFor {E : Type*} [Field E] (c : E) (n : ℕ) : E[X] :=
  if n = 0 then 0 else C c

theorem degree_constantFor_lt {E : Type*} [Field E] (c : E) (n : ℕ) :
    (constantFor c n).degree < n := by
  unfold constantFor
  split
  · rw [degree_zero]
    exact WithBot.bot_lt_coe n
  · next h => exact degree_C_le.trans_lt (Nat.cast_pos.mpr (Nat.pos_of_ne_zero h))

/-- The elements are different in a field of four. -/
theorem inputOf_twoElementPolynomials {e e' : ℕ} (he : e < 2) (he' : e' < 2)
    (h : inputOf (gf2e (X ^ 2 + X + 1)) twoElementPolynomials e
      = inputOf (gf2e (X ^ 2 + X + 1)) twoElementPolynomials e') : e = e' := by
  have hdeg : (X ^ 2 + X + 1 : (ZMod 2)[X]).natDegree = 2 := by compute_degree!
  have hload : ∀ e < 2, loadLE twoElementPolynomials.realElements (e * 1) 1 = e + 2 := by decide
  have hrep : ∀ e < 2, (gf2e (X ^ 2 + X + 1)).rep
      (inputOf (gf2e (X ^ 2 + X + 1)) twoElementPolynomials e) = e + 2 := by
    intro e he
    have hinput : inputOf (gf2e (X ^ 2 + X + 1)) twoElementPolynomials e
        = (gf2e (X ^ 2 + X + 1)).toGF2E (e + 2) :=
      congrArg (gf2e (X ^ 2 + X + 1)).toGF2E (hload e he)
    rw [hinput, gf2e_rep_toGF2E _ (by rw [hdeg]; omega)]
  have heq := hrep e he
  rw [h, hrep e' he'] at heq
  omega

/-- Two threads. The polynomial of bin 0 for the first hash function has two values, and every
element finds its masks. -/
theorem buildPolynomials_spec_two :
    let polynomials := buildPolynomials (gf2e (X ^ 2 + X + 1))
      (twoElementPolynomials.shared fun _ => 0) (fun _ _ => constantFor 1) 2
    (∃ f, polynomials[0 * 2 + 0]? = some f ∧
      f.eval (inputOf (gf2e (X ^ 2 + X + 1)) twoElementPolynomials 0)
        = sharedMask (gf2e (X ^ 2 + X + 1)) twoElementPolynomials (fun _ => 0) 0 0 ∧
      f.eval (inputOf (gf2e (X ^ 2 + X + 1)) twoElementPolynomials 1)
        = sharedMask (gf2e (X ^ 2 + X + 1)) twoElementPolynomials (fun _ => 0) 0 2) ∧
    ∀ e < 2, ∀ h < numHashFunctions, ∃ f,
      polynomials[h * 2 + (twoHashes e).address h]? = some f ∧
      f.eval (inputOf (gf2e (X ^ 2 + X + 1)) twoElementPolynomials e)
        = sharedMask (gf2e (X ^ 2 + X + 1)) twoElementPolynomials (fun _ => 0)
          ((twoHashes e).address h)
          (twoElementPolynomials.elementsToHashTable (numHashFunctions * e + h)) := by
  have helements : ∀ h < numHashFunctions, ∀ b < 2,
      ((entriesBy twoElementSet h b (twoElementSet.numOfElementsInBin b)).map fun u =>
        twoElementSet.binToElementsToHashTable
          (binStart twoElementSet.numOfElementsInBin b + u) / numHashFunctions).Nodup ∧
      ∀ u ∈ entriesBy twoElementSet h b (twoElementSet.numOfElementsInBin b),
        twoElementSet.binToElementsToHashTable
          (binStart twoElementSet.numOfElementsInBin b + u) / numHashFunctions < 2 := by
    decide
  have hdistinct : ∀ h < numHashFunctions, ∀ b < 2,
      ((entriesBy twoElementSet h b (twoElementSet.numOfElementsInBin b)).map
        (entryInput (gf2e (X ^ 2 + X + 1)) twoElementPolynomials b)).Nodup := by
    intro h hh b hb
    obtain ⟨hnodup, hlt⟩ := helements h hh b hb
    refine (List.Nodup.of_map _ hnodup).map_on fun u hu u' hu' heq => ?_
    exact List.inj_on_of_nodup_map hnodup hu hu'
      (inputOf_twoElementPolynomials (hlt u hu) (hlt u' hu') heq)
  obtain ⟨-, hspec, hmasks⟩ := buildPolynomials_spec (V := Unit) (gf2e (X ^ 2 + X + 1))
    twoElementPolynomials (fun _ => 0) (fun _ _ => constantFor 1)
    (fun _ _ => degree_constantFor_lt 1) 2 (Nat.le_succ 1) (Nat.le_succ 1)
    (show 2 * 2 < 2 ^ 32 by decide)
    (show twoElementSet.Fits by unfold FollowerSet.Fits; decide) hdistinct
  obtain ⟨f, hf, -, heval⟩ := hspec 0 (by decide) 0 Nat.two_pos
  have hentries : 0 ∈ entriesBy twoElementSet 0 0 (twoElementSet.numOfElementsInBin 0) ∧
      2 ∈ entriesBy twoElementSet 0 0 (twoElementSet.numOfElementsInBin 0) := by
    decide
  exact ⟨⟨f, hf, heval 0 hentries.1, heval 2 hentries.2⟩,
    hmasks () twoHashes 2 twoElementTable Nat.two_pos (by decide) (Option.some_get _).symm rfl rfl
      rfl⟩

end Result

end MultiPartyPSI
