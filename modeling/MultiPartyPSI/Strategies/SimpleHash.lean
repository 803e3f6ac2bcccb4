import MultiPartyPSI.Leaders.NaiveInverseLeader
import MultiPartyPSI.Party.CommonElements

/-!
# SIMPLE_HASH, over the network

The followers send for each hash function and bin a block of `maxBinSize` masks, filled up with
random ones, and the leader tries those of the block where it has the element. No bin may have
more masks of one hash function than its block.
-/

namespace MultiPartyPSI

open Lib Buf

variable {G : Type*} [CommGroup G] {C : OprgCrypto G} {X : Type*}

/-- `isElementInAllSets` is that of `NaiveLeader`. -/
def SimpleHashingNaiveLeader.isElementInAllSets (l : SimpleHashingNaiveLeader) : ElementCheck :=
  fun _ binIndex tableIndex hashFuncIndex share =>
    l.isZeroXOR (binIndex * l.maskSizeInBytes) 2 hashFuncIndex binIndex
      (xorLeaderResults l.leaderResults l.numParties l.maskSizeInBytes
        (binIndex * l.maskSizeInBytes) tableIndex share)

/-- An element is accepted exactly when one mask of each follower, among those of its block,
cancels its share and the leader's results. -/
theorem SimpleHashingNaiveLeader.isElementInAllSets_iff (l : SimpleHashingNaiveLeader)
    (index b tableIndex h : Nat) (share : Buf Byte) :
    (l.isElementInAllSets index b tableIndex h share).1 = true
      ↔ ∃ c : Nat → Nat, (∀ p, 2 ≤ p → p < 2 + l.numParties →
          minIndex l.numOfBins l.maxBinSize h b ≤ c p ∧
            c p < maxIndex l.numOfBins l.maxBinSize h b) ∧
        row l.maskSizeInBytes share b
          + ∑ p ∈ Finset.Ico 2 (2 + l.numParties),
              row l.maskSizeInBytes (l.leaderResults p) tableIndex
          + ∑ p ∈ Finset.Ico 2 (2 + l.numParties),
              row l.maskSizeInBytes (l.partiesResults p) (c p) = 0 := by
  unfold SimpleHashingNaiveLeader.isElementInAllSets SimpleHashingNaiveLeader.isZeroXOR
  rw [(searches_isZeroXORFrom l.partiesResults _ _ _ 2).answer, row_xorLeaderResults,
    Nat.add_sub_cancel]

theorem SimpleHashingNaiveLeader.localCheck (l : SimpleHashingNaiveLeader) :
    LocalCheck l.maskSizeInBytes l.isElementInAllSets := by
  refine ⟨fun i b t h share b' hb' => ?_, fun i b t h share share' hrow => ?_⟩
  · unfold SimpleHashingNaiveLeader.isElementInAllSets SimpleHashingNaiveLeader.isZeroXOR
    rw [(searches_isZeroXORFrom l.partiesResults _ _ _ 2).frame _ b' hb',
      row_xorLeaderResults_ne _ _ _ _ hb']
  · rw [Bool.eq_iff_iff, l.isElementInAllSets_iff, l.isElementInAllSets_iff, hrow]

namespace PsiSession

/-- The number of masks of all blocks, and of their bytes. -/
def blockBytes (s : PsiSession C X) : Nat :=
  numHashFunctions * s.numOfBins * s.maxBinSize * s.maskSizeInBytes

/-- The session with `SimpleHashingNaiveFollower::run`, where `random p` are the bytes of party
`p`'s PRG, and the length of `SimpleHashingNaiveLeader::receiveServerData`. -/
def simpleHash (s : PsiSession C X) (random : Nat → Buf (Buf Byte)) : PsiSession C X :=
  { s with
    followerRun := fun p set share => [sendBytes
      ((simpleHashingNaiveRun set share (random p)).getD fun _ => 0)
      (numHashFunctions * set.numOfBins * set.maxBinSize * set.maskSizeInBytes)]
    blockLengths := [s.blockBytes] }

/-- The `SimpleHashingNaiveLeader` when it has received everything. -/
def simpleHashingNaiveLeader (s : PsiSession C X) (leaderResults : Nat → Buf Byte)
    (received : Nat → List (List Byte)) : SimpleHashingNaiveLeader where
  numParties := s.numOfParties - 1
  setSize := s.setSize
  maskSizeInBytes := s.maskSizeInBytes
  leaderResults := leaderResults
  partiesResults := fun p => receivedBuf (received p) 0
  numOfBins := s.numOfBins
  maxBinSize := s.maxBinSize

/-- All blocks of all followers are large enough. -/
def BinsFit (s : PsiSession C X) : Prop :=
  ∀ p, 2 ≤ p → p ≤ s.numOfParties → ∀ masks, (s.followerSet p masks).Fits

end PsiSession

/-- What is in a block: the masks of the bin's entries by hash function `j`, and random ones. -/
def PsiOutcome.blockMasks {s : PsiSession C X} (o : PsiOutcome s)
    (random : Nat → Buf (Buf Byte)) : Candidates s.maskSizeInBytes :=
  fun p _ b j => {x | ∃ r < s.maxBinSize, x = blockRow (s.followerSet p (o.masks p)) (o.masked p)
    (random p) j b ((s.simple p).nelesinbin b) r}

/-- The mask of an element is one of its bin, by the hash function it is asked for. -/
theorem PsiSession.exists_entryBy_maskIndex (s : PsiSession C X) (masks : Buf Byte) {p e j : Nat}
    (h2 : 2 ≤ p) (hn : p ≤ s.numOfParties) (he : e < s.setSize) (hj : j < numHashFunctions) :
    ∃ u ∈ entriesBy (s.followerSet p masks) j ((s.hashElement (s.elements p e)).address j)
        ((s.simple p).nelesinbin ((s.hashElement (s.elements p e)).address j)),
      s.maskIndex p e j = binStart (s.simple p).nelesinbin
        ((s.hashElement (s.elements p e)).address j) + u ∧
      (s.simple p).binToElementsToHashTable (s.maskIndex p e j) = numHashFunctions * e + j := by
  obtain ⟨u, hu, hto, hfrom⟩ := @exists_entryBy (s.followerSet p masks) _ _ _ _ _ (s.numCores_pos p)
    (fun e _ h hh => s.address_lt (s.elements p e) h hh) (s.simple_run h2 hn) rfl rfl rfl e j he
    hj
  have hindex : s.maskIndex p e j = binStart (s.simple p).nelesinbin
      ((s.hashElement (s.elements p e)).address j) + u := by
    rw [PsiSession.maskIndex, Nat.mul_comm e]
    exact hto
  refine ⟨u, hu, hindex, ?_⟩
  rw [hindex]
  exact hfrom

theorem simpleHash_blocks (s : PsiSession C X) (random : Nat → Buf (Buf Byte)) :
    (s.simpleHash random).BlocksMatch := by
  intro p _ _ masks share
  exact congrArg (· :: []) (length_sendBytes _ s.blockBytes)

section Check

variable {s : PsiSession C X} {random : Nat → Buf (Buf Byte)}
  (o : PsiOutcome (s.simpleHash random)) {leaderResults : Nat → Buf Byte}
  {received : Nat → List (List Byte)}

/-- What the leader tries of a party is its block. -/
theorem row_block {p b j r : Nat} (hfits : (s.followerSet p (o.masks p)).Fits)
    (hrecv : received p = o.blocks p) (hj : j < numHashFunctions) (hb : b < s.numOfBins)
    (hr : r < s.maxBinSize) :
    row s.maskSizeInBytes (receivedBuf (received p) 0)
        (minIndex s.numOfBins s.maxBinSize j b + r)
      = blockRow (s.followerSet p (o.masks p)) (o.masked p) (random p) j b
        ((s.simple p).nelesinbin b) r := by
  obtain ⟨sent, hrun, hrows⟩ := simpleHashingNaiveRun_spec hfits (s.share (s.shares p)) (random p)
  have hblock : (received p)[0]? = some (sendBytes sent s.blockBytes) := by
    rw [hrecv]
    show some (sendBytes ((simpleHashingNaiveRun (s.followerSet p (o.masks p))
      (s.share (s.shares p)) (random p)).getD _) _) = _
    rw [hrun]
    rfl
  have hroom : (minIndex s.numOfBins s.maxBinSize j b + r) * s.maskSizeInBytes
      + s.maskSizeInBytes ≤ s.blockBytes := by
    rw [← Nat.succ_mul, minIndex_add, PsiSession.blockBytes, Nat.mul_assoc numHashFunctions]
    exact Nat.mul_le_mul_right _ (row_cell_lt hj (row_cell_lt hb hr))
  exact (row_receivedBuf hblock hroom).trans (hrows j hj b hb r hr)

/-- The leader accepts an element if masks of the blocks of all parties cancel. -/
theorem simpleHashingNaiveLeader_accepts (hfits : s.BinsFit)
    (hrecv : o.Received leaderResults received) {i b t j : Nat} (hb : b < s.numOfBins)
    (hj : j < numHashFunctions) :
    (((s.simpleHash random).simpleHashingNaiveLeader leaderResults received).isElementInAllSets
        i b t j (s.share (s.shares 1))).1 = true
      ↔ o.CancelsAt (o.blockMasks random) i b t j := by
  have haccept := ((s.simpleHash random).simpleHashingNaiveLeader leaderResults
    received).isElementInAllSets_iff i b t j (s.share (s.shares 1))
  have hcancels := o.cancelsAt_rows (o.blockMasks random) i b t j
    (fun p => receivedBuf (received p) 0) (minIndex s.numOfBins s.maxBinSize j b)
    (maxIndex s.numOfBins s.maxBinSize j b) hrecv.leaderResults
  refine haccept.trans (hcancels fun p h2 hn x => ?_).symm
  have hrow := fun r hr => row_block o (r := r) (hfits p h2 hn (o.masks p))
    (hrecv.blocks p h2 hn) hj hb hr
  constructor
  · rintro ⟨r, hr, rfl⟩
    have hr : r < s.maxBinSize := hr
    exact ⟨minIndex s.numOfBins s.maxBinSize j b + r,
      ⟨Nat.le_add_right _ _, by rw [maxIndex_eq]; omega⟩, hrow r hr⟩
  · rintro ⟨c, ⟨hlo, hhi⟩, rfl⟩
    rw [maxIndex_eq] at hhi
    have hr : c - minIndex s.numOfBins s.maxBinSize j b < s.maxBinSize := by omega
    have hrow := hrow _ hr
    rw [Nat.add_sub_cancel' hlo] at hrow
    exact ⟨_, hr, hrow⟩

/-- The mask of an element is in its block. -/
theorem blockMasks_covers (hfits : s.BinsFit) : o.Covers (o.blockMasks random) := by
  intro p h2 hn i hi e he heq j hj hfirst
  obtain ⟨u, hu, hindex, -⟩ := s.exists_entryBy_maskIndex (o.masks p) h2 hn he hj
  obtain ⟨r, hr, hrow⟩ := exists_blockRow (hfits p h2 hn (o.masks p)) (o.masked p) (random p) hj
    (s.address_lt (s.elements p e) j hj) hu
  refine ⟨r, hr, Eq.trans ?_ hrow.symm⟩
  exact congrArg (row s.maskSizeInBytes (o.masked p)) hindex

end Check

theorem smallSession_binsFit : (smallSession 2).BinsFit := by
  intro p h2 hn masks
  obtain rfl : p = 2 := Nat.le_antisymm hn h2
  have hfits : ((smallSession 2).followerSet 2 fun _ => 0).Fits := by
    unfold FollowerSet.Fits
    decide
  exact hfits

/-- The random masks of a block are different. -/
def smallRandom : Nat → Buf (Buf Byte) := fun _ _ k => ofNatLE (k % 2 + 1) 0

section Small

variable (second : Nat)

/-- What the follower sends for an element, by the hash function it is asked for. -/
theorem row_smallMasked_maskIndex {e j : Nat} (he : e < 2) (hj : j < numHashFunctions) :
    row 1 (smallMasked second) ((smallSession second).maskIndex 2 e j)
      = smallShared ((smallHash (smallElements second 2 e)).address j) := by
  obtain ⟨u, hu, hindex, -⟩ := (smallSession second).exists_entryBy_maskIndex (fun _ => 0) le_rfl
    le_rfl he hj
  rw [hindex]
  exact row_smallMasked second (Nat.mod_lt _ (Nat.zero_lt_succ 3))
    (List.mem_range.mp (List.mem_filter.mp hu).1)

end Small

end MultiPartyPSI
