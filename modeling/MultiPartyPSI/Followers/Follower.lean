import MultiPartyPSI.Defs
import MultiPartyPSI.Hashing.HashingUtil
import Mathlib.Algebra.BigOperators.Intervals
import Mathlib.Algebra.Order.BigOperators.Group.Finset

/-!
# What a follower starts from

`FollowerSet`, and `xor_masks`: before any strategy sends its masks, each has the share of
its bin added. The masks stand bin after bin, so the bin of a position is known only from
the number of masks passed; `xor_masks` counts them in `k`.
-/

namespace MultiPartyPSI

open Lib Buf

/-- `FollowerSet`, with what the strategies that send masks read of it. The number of hash
functions is `NUM_HASH_FUNCTIONS`. -/
structure FollowerSet where
  numOfElements : Nat
  elementsToHashTable : Buf Nat
  numOfElementsInBin : Buf Nat
  numOfBins : Nat
  masks : Buf Byte
  maskSizeInBytes : Nat
  binToElementsToHashTable : Buf Nat
  maxBinSize : Nat

/-- `xor_masks`. -/
def xorMasks (masks : Buf Byte) (maskbytelen : Nat) (secretShare : Buf Byte) (nbins : Nat)
    (nelesinbin : Buf Nat) : Buf Byte :=
  (loop (fun i s =>
      loop (fun _ (s : Buf Byte × Nat) =>
        (XOR s.1 (s.2 * maskbytelen) secretShare (i * maskbytelen) maskbytelen, s.2 + 1))
        (nelesinbin i) s) nbins (masks, 0)).1

/-- The position of the first mask of bin `b`. -/
def binStart (nelesinbin : Buf Nat) (b : Nat) : Nat := ∑ i ∈ Finset.range b, nelesinbin i

theorem binStart_succ (nelesinbin : Buf Nat) (b : Nat) :
    binStart nelesinbin (b + 1) = binStart nelesinbin b + nelesinbin b :=
  Finset.sum_range_succ _ _

theorem binStart_mono (nelesinbin : Buf Nat) : Monotone (binStart nelesinbin) :=
  monotone_nat_of_le_succ fun b => by rw [binStart_succ]; exact Nat.le_add_right _ _

/-- The positions of a bin end before those of a later bin start. -/
theorem binStart_add_lt {nelesinbin : Buf Nat} {b c u : Nat} (hb : b < c)
    (hu : u < nelesinbin b) : binStart nelesinbin b + u < binStart nelesinbin c := by
  have hmono := binStart_mono nelesinbin (Nat.succ_le_of_lt hb)
  rw [Nat.succ_eq_add_one, binStart_succ] at hmono
  omega

/-- After `n` masks, counted in `k`: these have the share of their bin, the others are as they
were. -/
structure SharedUpTo (masks : Buf Byte) (w : Nat) (secretShare : Buf Byte) (nelesinbin : Buf Nat)
    (n : Nat) (s : Buf Byte × Nat) : Prop where
  count : s.2 = n
  shared : ∀ b u, u < nelesinbin b → binStart nelesinbin b + u < n →
    row w s.1 (binStart nelesinbin b + u)
      = row w masks (binStart nelesinbin b + u) + row w secretShare b
  rest : ∀ k, n ≤ k → row w s.1 k = row w masks k

section XorMasks

variable {masks : Buf Byte} {w : Nat} {secretShare : Buf Byte} {nelesinbin : Buf Nat}

/-- The next mask, which belongs to bin `i`. -/
theorem SharedUpTo.step {s : Buf Byte × Nat} {i j : Nat} (hj : j < nelesinbin i)
    (h : SharedUpTo masks w secretShare nelesinbin (binStart nelesinbin i + j) s) :
    SharedUpTo masks w secretShare nelesinbin (binStart nelesinbin i + (j + 1))
      (XOR s.1 (s.2 * w) secretShare (i * w) w, s.2 + 1) := by
  obtain ⟨hk, hdone, hrest⟩ := h
  rw [← Nat.add_assoc]
  refine ⟨by rw [hk], fun b u hu hlt => ?_, fun k hle => ?_⟩
  · rw [hk]
    by_cases hlast : binStart nelesinbin b + u = binStart nelesinbin i + j
    · have hbi : b = i := by
        rcases Nat.lt_trichotomy b i with h | h | h
        · have := binStart_add_lt h hu
          omega
        · exact h
        · have := binStart_add_lt h hj
          omega
      rw [hlast, row_XOR_same, hrest _ le_rfl, hbi]
    · rw [row_XOR_ne _ _ _ _ hlast]
      exact hdone b u hu (by omega)
  · rw [hk, row_XOR_ne _ _ _ _ (by omega)]
    exact hrest k (by omega)

/-- **Every mask of a bin gets the share of that bin, once.** -/
theorem row_xorMasks (masks : Buf Byte) (w : Nat) (secretShare : Buf Byte) {nbins b u : Nat}
    (hb : b < nbins) (hu : u < nelesinbin b) :
    row w (xorMasks masks w secretShare nbins nelesinbin) (binStart nelesinbin b + u)
      = row w masks (binStart nelesinbin b + u) + row w secretShare b := by
  have hrun := loop_induct (P := fun i (s : Buf Byte × Nat) =>
    SharedUpTo masks w secretShare nelesinbin (binStart nelesinbin i) s)
    (f := fun i s => loop (fun _ (s : Buf Byte × Nat) =>
      (XOR s.1 (s.2 * w) secretShare (i * w) w, s.2 + 1)) (nelesinbin i) s)
    (s := (masks, 0)) nbins
    ⟨rfl, fun b u _ hlt => absurd hlt (Nat.not_lt_zero _), fun _ _ => rfl⟩
    fun i s _ hs => by
      rw [binStart_succ]
      exact loop_induct (P := fun j (s : Buf Byte × Nat) =>
        SharedUpTo masks w secretShare nelesinbin (binStart nelesinbin i + j) s)
        (nelesinbin i) hs fun j s hj hs => hs.step hj
  exact hrun.shared b u hu (binStart_add_lt hb hu)

end XorMasks

end MultiPartyPSI
