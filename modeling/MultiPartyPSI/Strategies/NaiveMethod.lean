import MultiPartyPSI.Party.CommonElements

/-!
# NAIVE_METHOD_SMALL_N, from the first byte on

A session whose followers send all their masks, and a leader that tries them all. Whatever the
order in which the threads of all parties take their steps, what the leader has received
lets every run of its worker threads find the common elements.
-/

namespace MultiPartyPSI

open Lib Buf

variable {G : Type*} [CommGroup G] {C : OprgCrypto G} {X : Type*}

namespace PsiSession

/-- The session with `NaiveFollower::run`, and the lengths of `NaiveLeader::receiveServerData`. -/
def naiveMethod (s : PsiSession C X) : PsiSession C X :=
  { s with
    followerRun := fun _ set share => [sendBytes (naiveRun set share)
      (set.numOfElements * numHashFunctions * set.maskSizeInBytes)]
    blockLengths := [s.maskSizeInBytes * (numHashFunctions * s.setSize)] }

/-- The `NaiveLeader` when it has received everything. -/
def naiveLeader (s : PsiSession C X) (leaderResults : Nat → Buf Byte)
    (received : Nat → List (List Byte)) : NaiveLeader where
  numParties := s.numOfParties - 1
  setSize := s.setSize
  maskSizeInBytes := s.maskSizeInBytes
  leaderResults := leaderResults
  partiesResults := fun p => receivedBuf (received p) 0

end PsiSession

/-- All masks of a party for hash function `j`. -/
def PsiOutcome.allMasks {s : PsiSession C X} (o : PsiOutcome s) : Candidates s.maskSizeInBytes :=
  fun p _ _ j => {x | ∃ e < s.setSize, x = row s.maskSizeInBytes (o.masked p) (s.maskIndex p e j)}

theorem naiveMethod_blocks (s : PsiSession C X) : s.naiveMethod.BlocksMatch := by
  intro p _ _ masks share
  show [(sendBytes _ (s.setSize * numHashFunctions * s.maskSizeInBytes)).length]
    = [s.maskSizeInBytes * (numHashFunctions * s.setSize)]
  rw [length_sendBytes, Nat.mul_comm, Nat.mul_comm s.setSize]

section Check

variable {s : PsiSession C X} (o : PsiOutcome s.naiveMethod) {leaderResults : Nat → Buf Byte}
  {received : Nat → List (List Byte)}

/-- What the leader tries of a party are its masks. -/
theorem row_partiesResults {p j e : Nat} (hrecv : received p = o.blocks p)
    (hj : j < numHashFunctions) (he : e < s.setSize) :
    row s.maskSizeInBytes (receivedBuf (received p) 0) (j * s.setSize + e)
      = row s.maskSizeInBytes (o.masked p) (s.maskIndex p e j) := by
  let set := s.naiveMethod.followerSet p (o.masks p)
  let share := s.share (s.shares p)
  have hblock : (received p)[0]? = some (sendBytes (naiveRun set share)
      (s.setSize * numHashFunctions * s.maskSizeInBytes)) := by
    rw [hrecv]
    rfl
  have hroom : (j * s.setSize + e) * s.maskSizeInBytes + s.maskSizeInBytes
      ≤ s.setSize * numHashFunctions * s.maskSizeInBytes := by
    rw [← Nat.succ_mul, Nat.mul_comm s.setSize]
    exact Nat.mul_le_mul_right _ (row_cell_lt hj he)
  exact (row_receivedBuf hblock hroom).trans (row_naiveRun set share hj he)

/-- The leader accepts an element if masks of all parties for its hash function cancel. -/
theorem naiveLeader_accepts (hrecv : o.Received leaderResults received) {i b t j : Nat}
    (hj : j < numHashFunctions) :
    ((s.naiveMethod.naiveLeader leaderResults received).isElementInAllSets i b t j
        (s.share (s.shares 1))).1 = true ↔ o.CancelsAt o.allMasks i b t j := by
  have haccept := (s.naiveMethod.naiveLeader leaderResults received).isElementInAllSets_iff i b t j
    (s.share (s.shares 1))
  have hcancels := o.cancelsAt_rows o.allMasks i b t j (fun p => receivedBuf (received p) 0)
    (j * s.setSize) ((j + 1) * s.setSize) hrecv.leaderResults
  refine haccept.trans (hcancels fun p h2 hn x => ?_).symm
  have hrow := fun e he => row_partiesResults o (e := e) (hrecv.blocks p h2 hn) hj he
  constructor
  · rintro ⟨e, he, rfl⟩
    exact ⟨j * s.setSize + e, ⟨Nat.le_add_right _ _, row_cell_lt (Nat.lt_succ_self j) he⟩,
      hrow e he⟩
  · rintro ⟨c, hc, rfl⟩
    have hc : j * s.setSize ≤ c ∧ c < (j + 1) * s.setSize := hc
    rw [Nat.succ_mul] at hc
    have he : c - j * s.setSize < s.setSize := by omega
    have hrow := hrow _ he
    rw [Nat.add_sub_cancel' hc.1] at hrow
    exact ⟨c - j * s.setSize, he, hrow⟩

end Check

end MultiPartyPSI
