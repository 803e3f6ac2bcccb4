import MultiPartyPSI.Followers.Follower

/-!
# The masks of NAIVE_METHOD

`NaiveFollower::run`. The masks stand bin after bin; a follower sends them sorted by hash
function and then by element, looking each up in `elements_to_hash_table`. So the leader can
try the masks of one hash function only.
-/

namespace MultiPartyPSI

open Lib Buf

/-- `NaiveFollower::run`: the bytes it sends. The cursor `ptr` moves by one mask a round. -/
def naiveRun (set : FollowerSet) (secretShare : Buf Byte) : Buf Byte :=
  let masks := xorMasks set.masks set.maskSizeInBytes secretShare set.numOfBins
    set.numOfElementsInBin
  (loop (fun i s =>
      loop (fun j (s : Buf Byte × Nat) =>
        let index := set.elementsToHashTable (j * numHashFunctions + i)
        (copy s.1 s.2 masks (index * set.maskSizeInBytes) set.maskSizeInBytes,
          s.2 + set.maskSizeInBytes)) set.numOfElements s)
    numHashFunctions (fun _ => 0, 0)).1

section Ordered

variable {set : FollowerSet} {masks : Buf Byte}

/-- After `k` rounds: row `r` holds the mask of element `r % n` and hash function `r / n`. -/
structure OrderedUpTo (set : FollowerSet) (masks : Buf Byte) (k : Nat) (s : Buf Byte × Nat) :
    Prop where
  ptr : s.2 = k * set.maskSizeInBytes
  rows : ∀ r < k, row set.maskSizeInBytes s.1 r = row set.maskSizeInBytes masks
    (set.elementsToHashTable (r % set.numOfElements * numHashFunctions + r / set.numOfElements))

theorem OrderedUpTo.step {i j : Nat} (hj : j < set.numOfElements) {s : Buf Byte × Nat}
    (h : OrderedUpTo set masks (i * set.numOfElements + j) s) :
    OrderedUpTo set masks (i * set.numOfElements + (j + 1))
      (copy s.1 s.2 masks (set.elementsToHashTable (j * numHashFunctions + i)
        * set.maskSizeInBytes) set.maskSizeInBytes, s.2 + set.maskSizeInBytes) := by
  obtain ⟨hptr, hrows⟩ := h
  have hmod : (i * set.numOfElements + j) % set.numOfElements = j := by
    rw [Nat.mul_comm, Nat.mul_add_mod, Nat.mod_eq_of_lt hj]
  have hdiv : (i * set.numOfElements + j) / set.numOfElements = i := by
    rw [Nat.mul_comm, Nat.mul_add_div (by omega), Nat.div_eq_of_lt hj, Nat.add_zero]
  refine ⟨?_, fun r hr => ?_⟩
  · rw [hptr, ← Nat.add_assoc, Nat.succ_mul]
  · rw [hptr]
    by_cases hlast : r = i * set.numOfElements + j
    · rw [hlast, row_copy_same, hmod, hdiv]
    · rw [row_copy_ne _ _ _ _ hlast]
      exact hrows r (by omega)

/-- **The mask of element `j` for hash function `i` stands at `i` times the set size plus `j`.** -/
theorem row_naiveRun (set : FollowerSet) (secretShare : Buf Byte) {i j : Nat}
    (hi : i < numHashFunctions) (hj : j < set.numOfElements) :
    row set.maskSizeInBytes (naiveRun set secretShare) (i * set.numOfElements + j)
      = row set.maskSizeInBytes (xorMasks set.masks set.maskSizeInBytes secretShare set.numOfBins
          set.numOfElementsInBin) (set.elementsToHashTable (j * numHashFunctions + i)) := by
  have hrun := loop_induct (P := fun i (s : Buf Byte × Nat) => OrderedUpTo set
      (xorMasks set.masks set.maskSizeInBytes secretShare set.numOfBins set.numOfElementsInBin)
      (i * set.numOfElements) s)
    (f := fun i s => loop (fun j (s : Buf Byte × Nat) =>
      (copy s.1 s.2 (xorMasks set.masks set.maskSizeInBytes secretShare set.numOfBins
          set.numOfElementsInBin)
        (set.elementsToHashTable (j * numHashFunctions + i) * set.maskSizeInBytes)
        set.maskSizeInBytes, s.2 + set.maskSizeInBytes)) set.numOfElements s)
    (s := (fun _ => 0, 0)) numHashFunctions
    ⟨by rw [Nat.zero_mul, Nat.zero_mul], fun r hr => absurd hr (by rw [Nat.zero_mul]; omega)⟩
    fun i s _ hs => by
      rw [Nat.succ_mul]
      exact loop_induct (P := fun j (s : Buf Byte × Nat) => OrderedUpTo set
        (xorMasks set.masks set.maskSizeInBytes secretShare set.numOfBins set.numOfElementsInBin)
        (i * set.numOfElements + j) s) set.numOfElements hs fun j s hj hs => hs.step hj
  refine (hrun.rows _ (row_cell_lt hi hj)).trans ?_
  rw [Nat.mul_comm i, Nat.mul_add_mod, Nat.mod_eq_of_lt hj, Nat.mul_add_div (by omega),
    Nat.div_eq_of_lt hj, Nat.add_zero]

end Ordered

end MultiPartyPSI
