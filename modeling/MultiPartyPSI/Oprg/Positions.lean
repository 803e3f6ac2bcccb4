import Mathlib.Algebra.Order.BigOperators.Group.Finset
import MultiPartyPSI.Hashing.CuckooRun

/-!
# Where the OPRG stores its results

Both constructors of `OPEMasking` turn the occupancies of the bins into positions by
the same running sum, `m_vBinToResult` on the leader's side and `m_vStartingPosForBin`
on the follower's. For a leader, whose bins hold at most one element, the sum counts
the full bins before.

`ClientResults` and `ServerResults` are what an OPRG run leaves at these positions: the leader and
a follower evaluate one function of a bin and a value, the leader at the value of each of its
full bins and the follower at every value of its table.
-/

namespace MultiPartyPSI

open Lib Buf

/-- The loop both constructors run over `m_vNumEleInBin`. -/
def runningSum (nbins : Nat) (numEleInBin : Buf Nat) : Buf Nat :=
  loop (fun i m => m.write (i + 1) (m i + numEleInBin i)) (nbins - 1) (fun _ => 0)

/-- `m_vBinToResult` of the client constructor. -/
def binToResult (nbins : Nat) (nelements : Buf Nat) : Buf Nat := runningSum nbins nelements

/-- `m_vStartingPosForBin` of the server constructor. -/
def startingPosForBin (nbins : Nat) (nelements : Buf Nat) : Buf Nat := runningSum nbins nelements

theorem runningSum_apply (nbins : Nat) (f : Buf Nat) {b : Nat} (hb : b < nbins) :
    runningSum nbins f b = ∑ i ∈ Finset.range b, f i := by
  refine loop_induct (P := fun k (m : Buf Nat) => ∀ b ≤ k, m b = ∑ i ∈ Finset.range b, f i)
    (nbins - 1) ?_ ?_ b (by omega)
  · intro b hb
    rw [Nat.le_zero.mp hb]
    rfl
  · intro k m _ hm b hb
    by_cases hk : b = k + 1
    · subst hk
      rw [write_same, Finset.sum_range_succ, hm k le_rfl]
    · rw [write_ne _ _ hk]
      exact hm b (by omega)

/-- The positions of a bin end where the next bin's start. -/
theorem runningSum_add_le (nbins : Nat) (f : Buf Nat) {b b' : Nat} (hb' : b' < nbins)
    (h : b < b') : runningSum nbins f b + f b ≤ runningSum nbins f b' := by
  rw [runningSum_apply nbins f (by omega), runningSum_apply nbins f hb', ← Finset.sum_range_succ]
  exact Finset.sum_le_sum_of_subset (Finset.range_subset_range.mpr h)

/-- A position belongs to one bin, and to one place in it. -/
theorem runningSum_inj {nbins : Nat} {f : Buf Nat} {b b' u u' : Nat} (hb : b < nbins)
    (hb' : b' < nbins) (hu : u < f b) (hu' : u' < f b')
    (h : runningSum nbins f b + u = runningSum nbins f b' + u') : b = b' ∧ u = u' := by
  rcases Nat.lt_trichotomy b b' with hlt | heq | hgt
  · have := runningSum_add_le nbins f hb' hlt
    omega
  · exact ⟨heq, by rw [heq] at h; omega⟩
  · have := runningSum_add_le nbins f hb hgt
    omega

/-- Every position is below the number of elements. -/
theorem runningSum_add_lt {nbins : Nat} {f : Buf Nat} {b u : Nat} (hb : b < nbins)
    (hu : u < f b) : runningSum nbins f b + u < ∑ i ∈ Finset.range nbins, f i := by
  have hle : ∑ i ∈ Finset.range (b + 1), f i ≤ ∑ i ∈ Finset.range nbins, f i :=
    Finset.sum_le_sum_of_subset (Finset.range_subset_range.mpr hb)
  rw [Finset.sum_range_succ] at hle
  rw [runningSum_apply nbins f hb]
  omega

theorem startingPosForBin_apply (nbins : Nat) (f : Buf Nat) {b : Nat} (hb : b < nbins) :
    startingPosForBin nbins f b = ∑ i ∈ Finset.range b, f i := runningSum_apply nbins f hb

theorem sum_ite_eq_count (p : Nat → Prop) [DecidablePred p] (b : Nat) :
    (∑ i ∈ Finset.range b, if p i then 1 else 0) = Nat.count p b := by
  induction b with
  | zero => rfl
  | succ b ih => rw [Finset.sum_range_succ, Nat.count_succ, ih]

variable {V : Type*}

/-- **For a cuckoo table the position of a bin is the number of full bins before it.** -/
theorem CuckooRun.Spec.binToResult {dummy : V} {hash : Nat → Hashed V} {neles nbins : Nat}
    {run : CuckooRun V} (h : run.Spec dummy hash neles nbins) {b : Nat} (hb : b < nbins) :
    binToResult nbins run.out.nelesinbin b = Nat.count run.final.Full b := by
  rw [MultiPartyPSI.binToResult, runningSum_apply nbins _ hb, ← sum_ite_eq_count]
  refine Finset.sum_congr rfl fun i hi => ?_
  have := Finset.mem_range.mp hi
  rw [h.nelesinbin i (by omega)]

/-! ## Results -/

section Results

variable {w : Nat}

/-- `oprg_client` on the leader's hash table. -/
def ClientResults (F : Nat → V → Fin w → Byte) (nbins : Nat) (hashTable : Buf V)
    (nelesinbin : Buf Nat) (res : Buf Byte) : Prop :=
  ∀ b < nbins, 0 < nelesinbin b →
    row w res (binToResult nbins nelesinbin b) = F b (hashTable b)

/-- `oprg_server` on the follower's hash table. -/
def ServerResults (F : Nat → V → Fin w → Byte) (nbins : Nat) (hashTable : Buf V)
    (nelesinbin : Buf Nat) (res : Buf Byte) : Prop :=
  ∀ b < nbins, ∀ u < nelesinbin b,
    row w res (startingPosForBin nbins nelesinbin b + u)
      = F b (hashTable (startingPosForBin nbins nelesinbin b + u))

end Results

end MultiPartyPSI
