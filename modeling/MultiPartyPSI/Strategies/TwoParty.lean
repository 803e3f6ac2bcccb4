import MultiPartyPSI.Leaders.TwoPartyLeader
import MultiPartyPSI.Strategies.SimpleHash

/-!
# TWO_PARTY, over the network

The one follower sends its masks as they are, in the order of its table, and the leader looks for
its own among them. The shares are not used. What the leader returns is the size of the
intersection wherever the 32-bit hashes of its search tell the masks apart
(`FindArgs.ToldApart`), and no mask of the follower is by chance that of another element.
-/

namespace MultiPartyPSI

open Lib Buf

variable {G : Type*} [CommGroup G] {C : OprgCrypto G} {X : Type*}

namespace PsiSession

/-- The session with `TwoPartyFollower::run`, and the length of `TwoPartyLeader::receiveMasks`. -/
def twoParty (s : PsiSession C X) : PsiSession C X :=
  { s with
    followerRun := fun _ set _ => [sendBytes set.masks
      (set.numOfElements * numHashFunctions * set.maskSizeInBytes)]
    blockLengths := [s.maskSizeInBytes * (numHashFunctions * s.setSize)] }

/-- What `TwoPartyLeader::run` calls `otpsi_find_intersection` with. -/
def findArgs (s : PsiSession C X) (leaderResults : Nat → Buf Byte)
    (received : Nat → List (List Byte)) : FindArgs where
  myHashes := leaderResults 2
  myNeles := s.setSize
  paHashes := receivedBuf (received 2) 0
  paNeles := s.setSize * numHashFunctions
  hashbytelen := s.maskSizeInBytes
  hashInfo := s.info

end PsiSession

/-- One of the follower's masks is that of the leader's element `i`. -/
def PsiOutcome.Matches {s : PsiSession C X} (o : PsiOutcome s) (i : Nat) : Prop :=
  ∃ j < s.setSize * numHashFunctions, row s.maskSizeInBytes (o.masks 2) j
    = row s.maskSizeInBytes (o.leaderResults 2) (s.info i).tableIndex.toNat

theorem twoParty_blocks (s : PsiSession C X) : s.twoParty.BlocksMatch := by
  intro p _ _ masks share
  show [(sendBytes _ (s.setSize * numHashFunctions * s.maskSizeInBytes)).length]
    = [s.maskSizeInBytes * (numHashFunctions * s.setSize)]
  rw [length_sendBytes, Nat.mul_comm, Nat.mul_comm s.setSize]

section Masks

variable {s : PsiSession C X} (o : PsiOutcome s) (h : s.Regular)
include h

/-- Without its share the mask of an element is the value of the OPRG. -/
theorem row_masks {p e j : Nat} (h2 : 2 ≤ p) (hn : p ≤ s.numOfParties) (he : e < s.setSize)
    (hj : j < numHashFunctions)
    (hfirst : ∀ j' < j, (s.hashElement (s.elements p e)).address j'
      ≠ (s.hashElement (s.elements p e)).address j) :
    row s.maskSizeInBytes (o.masks p) (s.maskIndex p e j)
      = o.oprg p ((s.hashElement (s.elements p e)).address j)
        (s.hashElement (s.elements p e)).val := by
  obtain ⟨u, hu, hindex, -⟩ := s.exists_entryBy_maskIndex (o.masks p) h2 hn he hj
  have hshared := row_xorMasks (o.masks p) s.maskSizeInBytes (s.share (s.shares p))
    (s.address_lt (s.elements p e) j hj) (List.mem_range.mp (List.mem_filter.mp hu).1)
  rw [← hindex] at hshared
  exact add_right_cancel (hshared.symm.trans (row_masked o h h2 hn he hj hfirst))

/-- The masks of common elements match. -/
theorem matches_of_common [DecidableEq X] (htwo : s.numOfParties = 2) {i : Nat}
    (hi : i ∈ s.common) : o.Matches i := by
  obtain ⟨hlt, hcommon⟩ := Finset.mem_filter.mp hi
  obtain ⟨e, he, heq⟩ := hcommon 2 (Finset.mem_Icc.mpr ⟨le_rfl, htwo.ge⟩)
  obtain ⟨b, j, hplace⟩ := (o.naiveRun h).exists_place (Finset.mem_range.mp hlt)
  have hplace : (o.naiveRun h).PlaceOf (s.elements 1 i) b j (s.info i) := hplace
  have haddr : (s.hashElement (s.elements 2 e)).address j = b := by
    rw [heq]
    exact hplace.address
  have hmask := row_masks o h le_rfl htwo.ge he hplace.hash_lt fun j' hj' => by
    rw [haddr, heq]
    exact hplace.first j' hj'
  have hleader := o.client 2 le_rfl htwo.ge b hplace.bin_lt hplace.full
  refine ⟨s.maskIndex 2 e j, ?_, hmask.trans ?_⟩
  · rw [Nat.mul_comm]
    have hspec := s.simpleSpec le_rfl htwo.ge
    refine (hspec.bijOn fun e _ => s.address_lt (s.elements 2 e)).mapsTo ?_
    exact (row_cell_lt he hplace.hash_lt).trans_eq (Nat.mul_comm _ _)
  · have hvalue : s.cuckoo.out.hashTable b = (s.hashElement (s.elements 1 i)).val := hplace.value
    have htable : (s.info i).tableIndex.toNat
        = binToResult s.numOfBins s.cuckoo.out.nelesinbin b := by
      rw [hplace.tableIndex]
      exact Int.toNat_natCast _
    rw [haddr, heq, htable, hleader, hvalue]

end Masks

section Find

variable {s : PsiSession C X} (o : PsiOutcome s.twoParty) {leaderResults : Nat → Buf Byte}
  {received : Nat → List (List Byte)}

/-- What the leader looks through are the masks. -/
theorem occurs_iff (htwo : s.numOfParties = 2) (hrecv : o.Received leaderResults received)
    {i : Nat} : (s.findArgs leaderResults received).Occurs i ↔ o.Matches i := by
  have hblock : (received 2)[0]? = some (sendBytes (o.masks 2)
      (s.setSize * numHashFunctions * s.maskSizeInBytes)) := by
    rw [hrecv.blocks 2 le_rfl htwo.ge]
    rfl
  refine exists_congr fun j => and_congr_right fun hj => ?_
  have hrow : row s.maskSizeInBytes (receivedBuf (received 2) 0) j
      = row s.maskSizeInBytes (o.masks 2) j := row_receivedBuf hblock (row_end_le _ hj)
  have hleader := hrecv.leaderResults 2 le_rfl htwo.ge
  show row s.maskSizeInBytes (receivedBuf (received 2) 0) j
    = row s.maskSizeInBytes (leaderResults 2) (s.info i).tableIndex.toNat ↔ _
  rw [hrow, hleader]
  exact Iff.rfl

/-- All elements are placed. -/
theorem findArgs_placed (o : PsiOutcome s) (h : s.Regular) {i : Nat} (hi : i < s.setSize) :
    (s.findArgs leaderResults received).Placed i := by
  obtain ⟨b, j, hplace⟩ := (o.naiveRun h).exists_place hi
  have htable : (s.info i).tableIndex = _ := hplace.tableIndex
  show (s.info i).tableIndex ≠ -1
  rw [htable]
  omega

end Find

section Small

variable {leaderResults : Nat → Buf Byte} {received : Nat → List (List Byte)}

/-- The follower's masks are those of the bins 1, 2 and 3. -/
theorem row_smallPair_entry {k : Nat} (hk : k < 6) :
    row 1 (smallPair 2).serverRes k = smallMask ([1, 2, 2, 2, 3, 3].getD k 0) := by
  have hbins : ∀ k < 6, ∃ b < 4, ∃ u < (smallPair 2).serverBins b,
      startingPosForBin 4 (smallPair 2).serverBins b + u = k ∧ b = [1, 2, 2, 2, 3, 3].getD k 0 := by
    decide
  obtain ⟨b, hb, u, hu, hpos, hbin⟩ := hbins k hk
  rw [← hpos, row_smallPair_serverRes 2 hb hu, hpos, hbin]

/-- The masks of one byte that both look at are told apart. -/
theorem toldApart_small {my pa : Buf Byte} (hmy : ∀ t < 2, row 1 my t = smallMask t)
    (hpa : ∀ k < 6, row 1 pa k = smallMask ([1, 2, 2, 2, 3, 3].getD k 0)) {i : Nat} (hi : i < 2) :
    (⟨my, 2, pa, 6, 1, (smallSession 2).info⟩ : FindArgs).ToldApart (· % 2 ^ 32) i := by
  let a : FindArgs := ⟨my, 2, pa, 6, 1, (smallSession 2).info⟩
  have hplace : ∀ i < 2, a.Placed i ∧ a.place i = i :=
    show ∀ i < 2, ((smallSession 2).info i).tableIndex ≠ -1 ∧
      ((smallSession 2).info i).tableIndex.toNat = i by decide
  have hprefix : ∀ m k, a.prefixOf m k = (row 1 m k 0).toBits.toNat := fun m k => Nat.zero_add _
  have hstored : ∀ i < 2, a.storedHash (· % 2 ^ 32) i = 16 + i := by
    intro i hi
    have hvalue : ∀ i < 2, (smallMask i 0).toBits.toNat % 2 ^ 32 = 16 + i := by decide
    rw [FindArgs.storedHash, (hplace i hi).2, hprefix, hmy i hi]
    exact hvalue i hi
  have hagrees : ∀ i < 2, ∀ j < 6, a.Agrees (· % 2 ^ 32) i j → [1, 2, 2, 2, 3, 3].getD j 0 = i := by
    intro i hi j hj hagrees
    have hvalue : ∀ j < 6, (smallMask ([1, 2, 2, 2, 3, 3].getD j 0) 0).toBits.toNat % 2 ^ 32
        = 16 + [1, 2, 2, 2, 3, 3].getD j 0 := by decide
    have hhash := hagrees.1
    rw [hstored i hi, hprefix, hpa j hj] at hhash
    exact Nat.add_left_cancel (hhash.trans (hvalue j hj)).symm
  have hone : ∀ j < 6, ∀ j' < 6, ∀ i < 2, [1, 2, 2, 2, 3, 3].getD j 0 = i →
      [1, 2, 2, 2, 3, 3].getD j' 0 = i → j = j' := by
    decide
  constructor
  · exact fun _ => (hplace i hi).1
  · exact show 1 ≤ 16 by decide
  · intro _ _ i' hi' hlt heq
    rw [hstored i' hi', hstored i hi] at heq
    omega
  · exact fun _ _ j hj j' hj' h h' =>
      hone j hj j' hj' i hi (hagrees i hi j hj h) (hagrees i hi j' hj' h')
  · intro hno _ j hj h
    refine hno ⟨(hplace i hi).1, j, hj, ?_⟩
    have hbin := hagrees i hi j hj h
    refine (hpa j hj).trans ?_
    rw [hbin]
    exact (hmy i hi).symm.trans (by rw [(hplace i hi).2])

end Small

end MultiPartyPSI
