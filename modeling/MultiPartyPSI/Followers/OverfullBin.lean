import MultiPartyPSI.Followers.SimpleHashingPolynomialFollower
import MultiPartyPSI.Party.MaskSize

/-!
# Bins that do not fit

Both followers report a bin with more than `maxBinSize` entries of a hash function and go on, the
naive one only when the bin has more entries than all its blocks together. The naive follower then
copies into the blocks behind, and behind the last bin out of its vectors. The polynomial follower
asks for a negative number of random coefficients, which as an unsigned number is almost `2^32`.
-/

namespace MultiPartyPSI

open Lib Buf Polynomial

section Property

variable {E : Type*} [Field E]

/-- What it would mean that the entries of hash function `h` in bin `b` do no harm. -/
structure OverfullBinContained (ops : GF2EOps E E[X]) (set : PolynomialFollowerSet)
    (secretShare : Buf Byte) (random : Buf (Buf Byte)) (h b : ℕ) : Prop where
  /-- The naive follower stays in its vectors. -/
  inside : simpleHashingNaiveRun set.toFollowerSet secretShare random ≠ none
  /-- The blocks of the other bins hold masks of their bin and filler. -/
  others : ∀ sent, simpleHashingNaiveRun set.toFollowerSet secretShare random = some sent →
    ∀ g < numHashFunctions, ∀ c < set.numOfBins, c ≠ b → ∀ j < set.maxBinSize,
      row set.maskSizeInBytes sent (minIndex set.numOfBins set.maxBinSize g c + j)
          = row set.maskSizeInBytes (random g) (c * set.maxBinSize + j) ∨
        ∃ u < set.numOfElementsInBin c,
          row set.maskSizeInBytes sent (minIndex set.numOfBins set.maxBinSize g c + j)
            = row set.maskSizeInBytes set.masks (binStart set.numOfElementsInBin c + u)
              + row set.maskSizeInBytes secretShare c
  /-- The polynomial follower asks for no more coefficients than a bin has. -/
  coefficients : numOfRandomElements set.maxBinSize
      (binPoints ops set h (binStart set.numOfElementsInBin b)
        (set.numOfElementsInBin b)).numOfElementsOfHashInBin ≤ set.maxBinSize

end Property

/-! ## When the naive follower stays inside -/

section Inside

variable {set : FollowerSet} {masks : Buf Byte} {random : Buf (Buf Byte)}

/-- An entry that is copied was in the vector. -/
theorem room_of_copyMask (hw : 0 < set.maskSizeInBytes) {k i : Nat} {s s' : BinVectors}
    (hcount : Counted set k i s.counter)
    (hold : ∀ h < numHashFunctions,
      k * set.maxBinSize + (entriesBy set h k i).length ≤ set.numOfBins * set.maxBinSize)
    (hstep : copyMask set masks (binStart set.numOfElementsInBin k) k i s = some s') :
    Counted set k (i + 1) s'.counter ∧ ∀ h < numHashFunctions,
      k * set.maxBinSize + (entriesBy set h k (i + 1)).length
        ≤ set.numOfBins * set.maxBinSize := by
  unfold copyMask at hstep
  dsimp only at hstep
  split at hstep
  · next hpos =>
      cases hstep
      refine ⟨hcount.write, fun h hh => ?_⟩
      rw [entriesBy_succ]
      split
      · next hhash =>
          rw [← Nat.succ_mul, hhash, hcount h hh] at hpos
          have := Nat.le_of_mul_le_mul_right hpos hw
          rw [List.length_append, List.length_singleton]
          omega
      · rw [List.append_nil]
        exact hold h hh
  · cases hstep

/-- A run that stays inside had room for all entries. -/
theorem room_of_copyMasks (hw : 0 < set.maskSizeInBytes) {s : BinVectors × Nat}
    (hrun : copyMasks set masks random = some s) : ∀ k < set.numOfBins, ∀ h < numHashFunctions,
      k * set.maxBinSize + (entriesBy set h k (set.numOfElementsInBin k)).length
        ≤ set.numOfBins * set.maxBinSize := by
  refine (loopM_induct (P := fun n (s : BinVectors × Nat) =>
    s.2 = binStart set.numOfElementsInBin n ∧ ∀ k < n, ∀ h < numHashFunctions,
      k * set.maxBinSize + (entriesBy set h k (set.numOfElementsInBin k)).length
        ≤ set.numOfBins * set.maxBinSize) set.numOfBins hrun
    ⟨rfl, fun k hk => absurd hk (Nat.not_lt_zero k)⟩ ?_).2
  intro n s s' hn hs hstep
  obtain ⟨t, ht, rfl⟩ := Option.map_eq_some_iff.mp hstep
  rw [hs.1] at ht
  obtain ⟨-, hroom⟩ := loopM_induct (P := fun i (t : BinVectors) => Counted set n i t.counter ∧
      ∀ h < numHashFunctions, n * set.maxBinSize + (entriesBy set h n i).length
        ≤ set.numOfBins * set.maxBinSize) (set.numOfElementsInBin n) ht
    ⟨counted_reset _ n, fun _ _ => Nat.mul_le_mul_right _ hn.le⟩
    fun i t t' _ ht hstep => room_of_copyMask hw ht.1 ht.2 hstep
  refine ⟨by rw [binStart_succ, ← hs.1], fun k hk h hh => ?_⟩
  rcases Nat.lt_or_eq_of_le (Nat.le_of_lt_succ hk) with hlt | rfl
  · exact hs.2 k hlt h hh
  · exact hroom h hh

/-- **The naive follower stays inside exactly when no bin reaches behind the vectors.** -/
theorem simpleHashingNaiveRun_inside_iff (hw : 0 < set.maskSizeInBytes) (secretShare : Buf Byte) :
    simpleHashingNaiveRun set secretShare random ≠ none ↔
      ∀ k < set.numOfBins, ∀ h < numHashFunctions,
        k * set.maxBinSize + (entriesBy set h k (set.numOfElementsInBin k)).length
          ≤ set.numOfBins * set.maxBinSize := by
  refine ⟨fun hrun => ?_, fun hroom => ?_⟩
  · obtain ⟨sent, hsent⟩ := Option.ne_none_iff_exists'.mp hrun
    obtain ⟨s, hs, -⟩ := Option.map_eq_some_iff.mp hsent
    exact room_of_copyMasks hw hs
  · obtain ⟨s, hs, -⟩ := copyMasks_written hroom (xorMasks set.masks set.maskSizeInBytes
      secretShare set.numOfBins set.numOfElementsInBin) random
    rw [simpleHashingNaiveRun, hs]
    exact Option.some_ne_none _

/-- **A row holds the mask of the last bin that reaches it**, which need not be its own. -/
theorem row_of_simpleHashingNaiveRun (hw : 0 < set.maskSizeInBytes) {secretShare : Buf Byte}
    {sent : Buf Byte} (hrun : simpleHashingNaiveRun set secretShare random = some sent)
    {g c j d u : ℕ} (hg : g < numHashFunctions) (hc : c < set.numOfBins) (hj : j < set.maxBinSize)
    (hd : d ≤ c)
    (hlast : ∀ d', d < d' → d' ≤ c → d' * set.maxBinSize
      + (entriesBy set g d' (set.numOfElementsInBin d')).length ≤ c * set.maxBinSize + j)
    (hu : (entriesBy set g d (set.numOfElementsInBin d))[c * set.maxBinSize + j
      - d * set.maxBinSize]? = some u) :
    row set.maskSizeInBytes sent (minIndex set.numOfBins set.maxBinSize g c + j)
      = row set.maskSizeInBytes set.masks (binStart set.numOfElementsInBin d + u)
        + row set.maskSizeInBytes secretShare d := by
  have hroom := (simpleHashingNaiveRun_inside_iff hw secretShare).mp (hrun ▸ Option.some_ne_none _)
  obtain ⟨s, hs, hwritten⟩ := copyMasks_written hroom (xorMasks set.masks set.maskSizeInBytes
    secretShare set.numOfBins set.numOfElementsInBin) random
  rw [simpleHashingNaiveRun, hs] at hrun
  cases hrun
  have hcopied : ∀ e < set.numOfBins,
      copiedBefore set set.numOfBins e = set.numOfElementsInBin e := fun e he => if_pos he
  have hdbins : d < set.numOfBins := hd.trans_lt hc
  rw [minIndex_add, row_send _ _ _ hg (row_cell_lt hc hj), hwritten g hg,
    vectorRow_of_last (Nat.succ_le_of_lt hdbins), vectorRow, binRow,
    if_pos ((Nat.mul_le_mul_right _ hd).trans (Nat.le_add_right _ _)), hcopied d hdbins, hu]
  · exact row_xorMasks _ _ _ hdbins
      (List.mem_range.mp (List.mem_filter.mp (List.mem_of_getElem? hu)).1)
  · intro e hde he
    rw [hcopied e he]
    rcases Nat.lt_or_ge c e with hlt | hle
    · exact Or.inl (row_cell_lt hlt hj)
    · exact Or.inr (hlast e hde hle)

end Inside

/-! ## No overfull bin is contained -/

section Contained

variable {E : Type*} [Field E]

/-- The difference wraps around. -/
theorem lt_numOfRandomElements {maxBinSize count : ℕ} (hover : maxBinSize < count)
    (hcount : count < 2 ^ 32) : maxBinSize < numOfRandomElements maxBinSize count := by
  rw [numOfRandomElements, Nat.mod_eq_of_lt (by omega)]
  omega

/-- **No overfull bin is contained.** The polynomial follower always asks for more coefficients than
a bin has. The naive follower stays inside its vectors exactly when no bin reaches behind them, and
then every row holds the mask of the last bin that reaches it. -/
theorem not_overfullBinContained (ops : GF2EOps E E[X]) (set : PolynomialFollowerSet)
    (secretShare : Buf Byte) (random : Buf (Buf Byte)) {h b : ℕ}
    (hcount : set.numOfElementsInBin b < 2 ^ 32)
    (hover : set.maxBinSize
      < (entriesBy set.toFollowerSet h b (set.numOfElementsInBin b)).length) :
    ¬ OverfullBinContained ops set secretShare random h b ∧
      (0 < set.maskSizeInBytes →
        (simpleHashingNaiveRun set.toFollowerSet secretShare random ≠ none ↔
          ∀ k < set.numOfBins, ∀ g < numHashFunctions, k * set.maxBinSize
              + (entriesBy set.toFollowerSet g k (set.numOfElementsInBin k)).length
            ≤ set.numOfBins * set.maxBinSize) ∧
        ∀ sent, simpleHashingNaiveRun set.toFollowerSet secretShare random = some sent →
          ∀ g < numHashFunctions, ∀ c < set.numOfBins, ∀ j < set.maxBinSize, ∀ d ≤ c,
          (∀ d', d < d' → d' ≤ c → d' * set.maxBinSize
              + (entriesBy set.toFollowerSet g d' (set.numOfElementsInBin d')).length
            ≤ c * set.maxBinSize + j) →
          ∀ u, (entriesBy set.toFollowerSet g d (set.numOfElementsInBin d))[c * set.maxBinSize + j
              - d * set.maxBinSize]? = some u →
            row set.maskSizeInBytes sent (minIndex set.numOfBins set.maxBinSize g c + j)
              = row set.maskSizeInBytes set.masks (binStart set.numOfElementsInBin d + u)
                + row set.maskSizeInBytes secretShare d) := by
  refine ⟨fun hcontained => ?_, fun hw => ⟨?_, ?_⟩⟩
  · have hle := hcontained.coefficients
    rw [binPoints_eq] at hle
    have hlength := List.length_filter_le (fun u => set.binToElementsToHashTable
      (binStart set.numOfElementsInBin b + u) % numHashFunctions == h)
      (List.range (set.numOfElementsInBin b))
    rw [List.length_range] at hlength
    exact absurd hle (Nat.not_le.mpr (lt_numOfRandomElements hover (hlength.trans_lt hcount)))
  · exact simpleHashingNaiveRun_inside_iff hw secretShare
  · intro sent hsent g hg c hc j hj d hd hlast u hu
    exact row_of_simpleHashingNaiveRun hw hsent hg hc hj hd hlast hu

/-- Four elements that the first hash function puts into the last of five bins. -/
def fourInLastBin : PolynomialFollowerSet where
  numOfElements := 4
  elementsToHashTable := fun i => [8, 0, 1, 9, 2, 3, 10, 4, 5, 11, 6, 7].getD i 0
  numOfElementsInBin := fun b => [2, 2, 2, 2, 4].getD b 0
  numOfBins := numOfBins 4
  masks := fun i => XorVec.ofBits (BitVec.ofNat 8 (i + 1))
  maskSizeInBytes := 6
  binToElementsToHashTable := fun k => [1, 2, 4, 5, 7, 8, 10, 11, 0, 3, 6, 9].getD k 0
  maxBinSize := setMaxBinSize 4
  realElements := fun i => XorVec.ofBits (BitVec.ofNat 8 i)
  elementSizeInBytes := 4

/-- Its bin is overfull, and is not contained. -/
theorem not_overfullBinContained_four :
    ¬ OverfullBinContained (gf2e (X ^ 2 + X + 1)) fourInLastBin (fun _ => 0) (fun _ _ => 0) 0 4 :=
  (not_overfullBinContained (gf2e (X ^ 2 + X + 1)) fourInLastBin (fun _ => 0) (fun _ _ => 0)
    (h := 0) (b := 4) (by decide) (by decide +kernel)).1

/-- The naive follower copies its fourth mask behind the end of the vector, and the polynomial
follower asks for `2^32 - 1` coefficients. -/
theorem fourInLastBin_not_contained :
    fourInLastBin.maxBinSize
        < (entriesBy fourInLastBin.toFollowerSet 0 4 (fourInLastBin.numOfElementsInBin 4)).length ∧
      simpleHashingNaiveRun fourInLastBin.toFollowerSet (fun _ => 0) (fun _ _ => 0) = none ∧
      numOfRandomElements fourInLastBin.maxBinSize
        (entriesBy fourInLastBin.toFollowerSet 0 4
          (fourInLastBin.numOfElementsInBin 4)).length = 2 ^ 32 - 1 ∧
      ¬ OverfullBinContained (gf2e (X ^ 2 + X + 1)) fourInLastBin (fun _ => 0) (fun _ _ => 0)
        0 4 := by
  have hnone : simpleHashingNaiveRun fourInLastBin.toFollowerSet (fun _ => 0) (fun _ _ => 0)
      = none := by
    by_contra hrun
    have hroom := (simpleHashingNaiveRun_inside_iff (by decide) _).mp hrun 4 (by decide) 0
      (by decide)
    exact absurd hroom (by decide +kernel)
  exact ⟨by decide +kernel, hnone, by decide +kernel, fun hcontained => hcontained.inside hnone⟩

end Contained

end MultiPartyPSI
