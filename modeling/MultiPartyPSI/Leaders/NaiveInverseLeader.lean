import MultiPartyPSI.Followers.SimpleHashingNaiveFollower
import MultiPartyPSI.Leaders.NaiveLeader
import MultiPartyPSI.Util.Rank

/-!
# The leaders that solve a linear system

`NaiveInverseLeader.cpp` and `SimpleHashingNaiveInverseLeader.cpp`. Instead of trying all
choices of one mask a follower, they take the masks as the columns of a matrix over GF(2),
solve for the share once, and look whether the solution picks one mask of each follower.

If the columns are independent there is at most one solution, so nothing is missed; and if
the share is not in their span there is nothing to be found. Otherwise the solution that
`solve` comes to, if it comes to one, need not be the one that picks a mask of each follower.
-/

namespace MultiPartyPSI

open Lib Buf

section Model

/-- `fullVector`, transposed: column `c` is mask `c % count` of the window of follower
`c / count`, whose masks start at the offsets `ptr`. -/
def maskMatrix (partiesResults : ℕ → Buf Byte) (ptr : ℕ → ℕ) (count : ℕ) (i c : ℕ) : GF2 :=
  vecGF2FromBytes (partiesResults (c / count + 2)) (ptr (c % count)) i

/-- `numOnes` of a block. -/
def numOnes (res : ℕ → GF2) (i count : ℕ) : ℕ :=
  (List.range count).countP fun j => res (i * count + j) = 1

/-- `isZeroXOR` of both leaders, with `count` masks of each party and `formerShare` at `pos`. -/
def isZeroXORInverse (partiesResults : ℕ → Buf Byte) (ptr : ℕ → ℕ)
    (numParties count maskSizeInBytes pos : ℕ) (formerShare : Buf Byte) : Bool :=
  match solve (8 * maskSizeInBytes) (numParties * count) (maskMatrix partiesResults ptr count)
      (vecGF2FromBytes formerShare pos) with
  | none => false
  | some res => (List.range numParties).all fun i => numOnes res i count = 1

/-- `ptr+j*m_maskSizeInBytes`, for hash function `i`. -/
def NaiveLeader.ptr (l : NaiveLeader) (i j : ℕ) : ℕ :=
  i * l.setSize * l.maskSizeInBytes + j * l.maskSizeInBytes

/-- `NaiveInverseLeader::isZeroXOR`. -/
def NaiveInverseLeader.isZeroXOR (l : NaiveLeader) (pos hashIndex : ℕ) (formerShare : Buf Byte) :
    Bool :=
  isZeroXORInverse l.partiesResults (l.ptr hashIndex) l.numParties l.setSize l.maskSizeInBytes pos
    formerShare

/-- What the leaders that work bin by bin hold. -/
structure SimpleHashingNaiveLeader extends NaiveLeader where
  numOfBins : ℕ
  maxBinSize : ℕ

/-- `SimpleHashingNaiveLeader::isZeroXOR`. -/
def SimpleHashingNaiveLeader.isZeroXOR (l : SimpleHashingNaiveLeader)
    (pos partyNum hashIndex binIndex : ℕ) (share : Buf Byte) : Bool × Buf Byte :=
  isZeroXORFrom l.partiesResults pos l.maskSizeInBytes
    (minIndex l.numOfBins l.maxBinSize hashIndex binIndex)
    (maxIndex l.numOfBins l.maxBinSize hashIndex binIndex) (l.numParties + 2 - partyNum) partyNum
    share

/-- `SimpleHashingNaiveInverseLeader::isZeroXOR`. -/
def SimpleHashingNaiveInverseLeader.isZeroXOR (l : SimpleHashingNaiveLeader)
    (pos hashIndex binIndex : ℕ) (formerShare : Buf Byte) : Bool :=
  isZeroXORInverse l.partiesResults
    (columnPtr l.numOfBins l.maxBinSize l.maskSizeInBytes hashIndex binIndex) l.numParties
    l.maxBinSize l.maskSizeInBytes pos formerShare

end Model

/-! ## Bits of masks -/

section Bits

variable {w : ℕ}

/-- Bit `j` of a mask. -/
def rowBit (v : Fin w → Byte) (j : Fin (8 * w)) : GF2 :=
  if (v ⟨j / 8, by omega⟩).toBits.getLsbD (j % 8) then 1 else 0

theorem rowBit_add (v v' : Fin w → Byte) (j : Fin (8 * w)) :
    rowBit (v + v') j = rowBit v j + rowBit v' j := by
  rw [rowBit, rowBit, rowBit, Pi.add_apply, XorVec.toBits_add, BitVec.getLsbD_xor]
  generalize (v ⟨j / 8, _⟩).toBits.getLsbD (j % 8) = x
  generalize (v' ⟨j / 8, _⟩).toBits.getLsbD (j % 8) = y
  revert x y
  decide

theorem rowBit_zero (j : Fin (8 * w)) : rowBit (0 : Fin w → Byte) j = 0 := by
  rw [rowBit]
  simp

/-- The bits of a sum. -/
theorem rowBit_sum {ι : Type*} (s : Finset ι) (v : ι → Fin w → Byte) (j : Fin (8 * w)) :
    rowBit (∑ i ∈ s, v i) j = ∑ i ∈ s, rowBit (v i) j := by
  induction s using Finset.cons_induction with
  | empty => rw [Finset.sum_empty, Finset.sum_empty, rowBit_zero]
  | cons a s ha ih => rw [Finset.sum_cons, Finset.sum_cons, rowBit_add, ih]

/-- Masks with the same bits are equal. -/
theorem rowBit_injective {v v' : Fin w → Byte} (h : ∀ j, rowBit v j = rowBit v' j) : v = v' := by
  funext p
  refine byte_ext fun k hk => ?_
  have hj := h ⟨8 * p + k, by omega⟩
  simp only [rowBit, show (8 * p.val + k) / 8 = p by omega,
    show (8 * p.val + k) % 8 = k by omega] at hj
  revert hj
  cases (v p).toBits.getLsbD k <;> cases (v' p).toBits.getLsbD k <;> decide

theorem vecGF2FromBytes_row (m : Buf Byte) (k : ℕ) (j : Fin (8 * w)) :
    vecGF2FromBytes m (k * w) j = rowBit (row w m k) j := by
  rw [vecGF2FromBytes, rowBit, bit, row_apply,
    show (8 * (k * w) + j.val) / 8 = k * w + j / 8 by omega,
    show (8 * (k * w) + j.val) % 8 = j % 8 by omega]

end Bits

/-! ## One mask of each follower -/

section Choice

variable {numParties count numRows : ℕ}

/-- The vector that picks column `d i` of each block `i`. -/
def choice (count : ℕ) (d : ℕ → ℕ) (c : ℕ) : GF2 := if c % count = d (c / count) then 1 else 0

theorem choice_apply {d : ℕ → ℕ} {i j : ℕ} (hj : j < count) :
    choice count d (i * count + j) = if j = d i then 1 else 0 := by
  rw [choice, Nat.mul_comm, Nat.mul_add_mod, Nat.mod_eq_of_lt hj,
    Nat.mul_add_div (Nat.zero_lt_of_lt hj), Nat.div_eq_of_lt hj, Nat.add_zero]

/-- A sum over all columns, block by block. -/
theorem sum_blocks {G : Type*} [AddCommMonoid G] (f : ℕ → G) (m count : ℕ) :
    ∑ c ∈ Finset.range (m * count), f c
      = ∑ i ∈ Finset.range m, ∑ j ∈ Finset.range count, f (i * count + j) := by
  induction m with
  | zero => rw [Nat.zero_mul, Finset.sum_range_zero, Finset.sum_range_zero]
  | succ m ih => rw [Nat.succ_mul, Finset.sum_range_add, ih, Finset.sum_range_succ]

theorem dot_choice {a : ℕ → GF2} {d : ℕ → ℕ} (hd : ∀ i < numParties, d i < count) :
    dot (numParties * count) a (choice count d)
      = ∑ i ∈ Finset.range numParties, a (i * count + d i) := by
  rw [dot, sum_blocks]
  refine Finset.sum_congr rfl fun i hi => ?_
  have hdi := hd i (Finset.mem_range.mp hi)
  rw [Finset.sum_eq_single_of_mem (d i) (Finset.mem_range.mpr hdi), choice_apply hdi, if_pos rfl,
    mul_one]
  intro j hj hne
  rw [choice_apply (Finset.mem_range.mp hj), if_neg hne, mul_zero]

/-- A block of a vector has a single one. -/
theorem numOnes_eq_one_iff {res : ℕ → GF2} {i : ℕ} : numOnes res i count = 1
    ↔ ∃ d < count, ∀ j < count, res (i * count + j) = if j = d then 1 else 0 := by
  rw [numOnes, List.countP_eq_length_filter, List.length_eq_one_iff]
  refine ⟨?_, ?_⟩
  · intro h
    obtain ⟨d, hd⟩ := h
    -- the positions with a one are a list of one
    have hmem : ∀ j, j < count → res (i * count + j) = 1 → j = d := by
      intro j hj hone
      rw [← List.mem_singleton, ← hd, List.mem_filter, List.mem_range, decide_eq_true_eq]
      exact ⟨hj, hone⟩
    have hdmem : d ∈ (List.range count).filter fun j => decide (res (i * count + j) = 1) := by
      rw [hd]
      exact List.mem_singleton_self d
    rw [List.mem_filter, List.mem_range, decide_eq_true_eq] at hdmem
    refine ⟨d, hdmem.1, fun j hj => ?_⟩
    by_cases hjd : j = d
    · rw [if_pos hjd, hjd]
      exact hdmem.2
    · rw [if_neg hjd]
      by_contra hne
      exact hjd (hmem j hj (eq_one_of_ne_zero hne))
  · intro h
    obtain ⟨d, hd, hres⟩ := h
    refine ⟨d, ?_⟩
    have hperm :
        ((List.range count).filter fun j => decide (res (i * count + j) = 1)).Perm [d] := by
      refine (List.perm_ext_iff_of_nodup (List.nodup_range.filter _) (List.nodup_singleton d)).mpr
        fun j => ?_
      rw [List.mem_filter, List.mem_range, decide_eq_true_eq, List.mem_singleton]
      refine ⟨?_, ?_⟩
      · intro hj
        obtain ⟨hj, hone⟩ := hj
        rw [hres j hj] at hone
        by_contra hne
        rw [if_neg hne] at hone
        exact zero_ne_one hone
      · intro hj
        subst hj
        exact ⟨hd, (hres j hd).trans (if_pos rfl)⟩
    exact List.perm_singleton.mp hperm

/-- The vectors that pass the check. -/
theorem all_numOnes_iff {res : ℕ → GF2} :
    ((List.range numParties).all fun i => numOnes res i count = 1) = true
      ↔ ∃ d : ℕ → ℕ, (∀ i < numParties, d i < count) ∧
        ∀ c < numParties * count, res c = choice count d c := by
  simp only [List.all_eq_true, List.mem_range, decide_eq_true_eq, numOnes_eq_one_iff]
  refine ⟨?_, ?_⟩
  · intro h
    choose! d hd hres using h
    refine ⟨d, hd, fun c hc => ?_⟩
    have hpos : 0 < count := by
      by_contra hzero
      rw [Nat.eq_zero_of_not_pos hzero, Nat.mul_zero] at hc
      cases hc
    have hi : c / count < numParties := Nat.div_lt_of_lt_mul (by rwa [Nat.mul_comm])
    have hrow := hres _ hi (c % count) (Nat.mod_lt c hpos)
    rw [Nat.mul_comm, Nat.div_add_mod] at hrow
    exact hrow
  · intro h
    obtain ⟨d, hd, hres⟩ := h
    intro i hi
    refine ⟨d i, hd i hi, fun j hj => ?_⟩
    rw [hres _ (row_cell_lt hi hj), choice_apply hj]

end Choice

/-! ## Columns -/

section Columns

variable {numRows numCols : ℕ} {A : ℕ → ℕ → GF2} {b : ℕ → GF2}

/-- When the leaders agree: there is a column, and the columns are independent or do not span
the share. -/
def ColumnsDecide (numRows numCols : ℕ) (A : ℕ → ℕ → GF2) (b : ℕ → GF2) : Prop :=
  1 ≤ numCols ∧
    (LinearIndependent GF2 (fun c : Fin numCols => column A numRows c) ∨
      (fun i : Fin numRows => b i) ∉
        Submodule.span GF2 (Set.range fun c : Fin numCols => column A numRows c))

end Columns

/-! ## Both searches -/

section Agreement

variable {partiesResults : ℕ → Buf Byte} {numParties count w start b : ℕ} {share : Buf Byte}

/-- Row `k` of the matrix, on a choice: bit `k` of the sum of the masks that are chosen. -/
theorem dot_maskMatrix {d : ℕ → ℕ} (hd : ∀ i < numParties, d i < count) (k : Fin (8 * w)) :
    dot (numParties * count) (maskMatrix partiesResults (fun j => (start + j) * w) count k)
        (choice count d)
      = rowBit (∑ i ∈ Finset.range numParties,
          row w (partiesResults (2 + i)) (start + d i)) k := by
  rw [dot_choice hd, rowBit_sum]
  refine Finset.sum_congr rfl fun i hi => ?_
  have hdi := hd i (Finset.mem_range.mp hi)
  rw [maskMatrix, Nat.mul_comm, Nat.mul_add_mod, Nat.mod_eq_of_lt hdi,
    Nat.mul_add_div (Nat.zero_lt_of_lt hdi), Nat.div_eq_of_lt hdi, Nat.add_zero,
    Nat.add_comm i 2, vecGF2FromBytes_row]

/-- A choice solves the system if its masks and the share cancel. -/
theorem solves_choice_iff {d : ℕ → ℕ} (hd : ∀ i < numParties, d i < count) :
    Solves (8 * w) (numParties * count)
        (maskMatrix partiesResults (fun j => (start + j) * w) count)
        (vecGF2FromBytes share (b * w)) (choice count d)
      ↔ row w share b + ∑ i ∈ Finset.range numParties,
        row w (partiesResults (2 + i)) (start + d i) = 0 := by
  rw [XorGroup.add_eq_zero_iff]
  refine ⟨?_, ?_⟩
  · intro h
    refine rowBit_injective fun k => ?_
    rw [← dot_maskMatrix hd k, h k k.isLt, vecGF2FromBytes_row]
  · intro h k hk
    have hdot : dot (numParties * count)
        (maskMatrix partiesResults (fun j => (start + j) * w) count k) (choice count d) = _ :=
      dot_maskMatrix hd ⟨k, hk⟩
    rw [← h, ← vecGF2FromBytes_row] at hdot
    exact hdot

/-- What the enumerating search finds is a choice that solves the system. -/
theorem isZeroXORFrom_iff :
    (isZeroXORFrom partiesResults (b * w) w start (start + count) numParties 2 share).1 = true
      ↔ ∃ d : ℕ → ℕ, (∀ i < numParties, d i < count) ∧
        Solves (8 * w) (numParties * count)
          (maskMatrix partiesResults (fun j => (start + j) * w) count)
          (vecGF2FromBytes share (b * w)) (choice count d) := by
  rw [(searches_isZeroXORFrom partiesResults start (start + count) numParties 2).answer]
  refine ⟨?_, ?_⟩
  · intro h
    obtain ⟨c, hc, hzero⟩ := h
    -- the search counts the masks from the start of all of them, a choice from that of its block
    have hd : ∀ i < numParties, c (2 + i) - start < count := by
      intro i hi
      have := hc (2 + i) (by omega) (by omega)
      omega
    refine ⟨fun i => c (2 + i) - start, hd, (solves_choice_iff hd).mpr ?_⟩
    rw [Finset.sum_Ico_eq_sum_range, Nat.add_sub_cancel_left] at hzero
    rw [← hzero]
    congr 1
    refine Finset.sum_congr rfl fun i hi => ?_
    have := hc (2 + i) (by omega) (by have := Finset.mem_range.mp hi; omega)
    rw [Nat.add_sub_cancel' this.1]
  · intro h
    obtain ⟨d, hd, hx⟩ := h
    refine ⟨fun p => start + d (p - 2), fun p hp hp' => ⟨Nat.le_add_right _ _, ?_⟩, ?_⟩
    · exact Nat.add_lt_add_left (hd (p - 2) (by omega)) start
    · rw [Finset.sum_Ico_eq_sum_range, Nat.add_sub_cancel_left, ← (solves_choice_iff hd).mp hx]
      simp only [Nat.add_sub_cancel_left]

/-- Where the columns decide, the solution that is found is the choice that is looked for. -/
theorem isZeroXORInverse_iff {ptr : ℕ → ℕ} {pos : ℕ}
    (h : ColumnsDecide (8 * w) (numParties * count) (maskMatrix partiesResults ptr count)
      (vecGF2FromBytes share pos)) :
    isZeroXORInverse partiesResults ptr numParties count w pos share = true
      ↔ ∃ d : ℕ → ℕ, (∀ i < numParties, d i < count) ∧
        Solves (8 * w) (numParties * count) (maskMatrix partiesResults ptr count)
          (vecGF2FromBytes share pos) (choice count d) := by
  obtain ⟨hcols, hspan⟩ := h
  rw [isZeroXORInverse]
  rcases hspan with hind | hout
  · have hdet := determined_of_linearIndependent hind
    refine ⟨?_, ?_⟩
    · intro htrue
      cases hsolve : solve (8 * w) (numParties * count) (maskMatrix partiesResults ptr count)
          (vecGF2FromBytes share pos) with
      | none =>
          rw [hsolve] at htrue
          cases htrue
      | some res =>
          rw [hsolve] at htrue
          obtain ⟨d, hd, hres⟩ := all_numOnes_iff.mp htrue
          -- what is returned is a solution
          have hex : ∃ x, Solves (8 * w) (numParties * count) (maskMatrix partiesResults ptr count)
              (vecGF2FromBytes share pos) x := by
            by_contra hno
            rw [solve_eq_none hcols fun x hx => hno ⟨x, hx⟩] at hsolve
            cases hsolve
          obtain ⟨x, hx⟩ := hex
          obtain ⟨x', hx', hsame⟩ := exists_solve_eq_some hcols hdet hx
          rw [hsolve] at hx'
          obtain rfl := Option.some.inj hx'
          refine ⟨d, hd, fun i hi => ?_⟩
          rw [← hx i hi]
          exact dot_congr fun k hk => by rw [← hres k hk, hsame k hk]
    · intro hchoice
      obtain ⟨d, hd, hx⟩ := hchoice
      obtain ⟨x', hx', hsame⟩ := exists_solve_eq_some hcols hdet hx
      rw [hx']
      exact all_numOnes_iff.mpr ⟨d, hd, hsame⟩
  · have hno := not_solves_of_notMem_span hout
    rw [solve_eq_none hcols hno]
    refine ⟨?_, ?_⟩
    · exact fun hfalse => absurd hfalse Bool.false_ne_true
    · intro hchoice
      obtain ⟨d, -, hx⟩ := hchoice
      exact absurd hx (hno _)

variable (partiesResults numParties start b share) in
/-- One mask of each follower, all from the window, add up to the share. -/
def Cancels (w count : ℕ) : Prop :=
  ∃ c : ℕ → ℕ, (∀ p, 2 ≤ p → p < 2 + numParties → start ≤ c p ∧ c p < start + count) ∧
    row w share b = ∑ p ∈ Finset.Ico 2 (2 + numParties), row w (partiesResults p) (c p)

theorem isZeroXORFrom_iff_cancels :
    (isZeroXORFrom partiesResults (b * w) w start (start + count) numParties 2 share).1 = true
      ↔ Cancels partiesResults numParties start b share w count := by
  rw [(searches_isZeroXORFrom partiesResults start (start + count) numParties 2).answer]
  simp only [XorGroup.add_eq_zero_iff, Cancels]

/-- Both searches give the same answer. -/
theorem isZeroXORInverse_eq
    (h : ColumnsDecide (8 * w) (numParties * count)
      (maskMatrix partiesResults (fun j => (start + j) * w) count)
      (vecGF2FromBytes share (b * w))) :
    isZeroXORInverse partiesResults (fun j => (start + j) * w) numParties count w (b * w) share
      = (isZeroXORFrom partiesResults (b * w) w start (start + count) numParties 2 share).1 := by
  rw [Bool.eq_iff_iff, isZeroXORInverse_iff h, isZeroXORFrom_iff]

end Agreement

/-- **The enumerating leaders search their windows completely and undo what fails**: the window is
all masks of the hash function for one of them, and those of the bin for the other. -/
theorem isZeroXOR_exact (l : NaiveLeader) (lBins : SimpleHashingNaiveLeader)
    (b hashIndex binIndex : ℕ) (formerShare : Buf Byte) :
    (((l.isZeroXOR (b * l.maskSizeInBytes) 2 hashIndex formerShare).1 = true
        ↔ ∃ c : ℕ → ℕ, (∀ p, 2 ≤ p → p < 2 + l.numParties →
            hashIndex * l.setSize ≤ c p ∧ c p < (hashIndex + 1) * l.setSize) ∧
          row l.maskSizeInBytes formerShare b
            + ∑ p ∈ Finset.Ico 2 (2 + l.numParties),
                row l.maskSizeInBytes (l.partiesResults p) (c p) = 0) ∧
      ((l.isZeroXOR (b * l.maskSizeInBytes) 2 hashIndex formerShare).1 = false →
        (l.isZeroXOR (b * l.maskSizeInBytes) 2 hashIndex formerShare).2 = formerShare)) ∧
    (((lBins.isZeroXOR (b * lBins.maskSizeInBytes) 2 hashIndex binIndex formerShare).1 = true
        ↔ ∃ c : ℕ → ℕ, (∀ p, 2 ≤ p → p < 2 + lBins.numParties →
            minIndex lBins.numOfBins lBins.maxBinSize hashIndex binIndex ≤ c p ∧
              c p < maxIndex lBins.numOfBins lBins.maxBinSize hashIndex binIndex) ∧
          row lBins.maskSizeInBytes formerShare b
            + ∑ p ∈ Finset.Ico 2 (2 + lBins.numParties),
                row lBins.maskSizeInBytes (lBins.partiesResults p) (c p) = 0) ∧
      ((lBins.isZeroXOR (b * lBins.maskSizeInBytes) 2 hashIndex binIndex formerShare).1 = false →
        (lBins.isZeroXOR (b * lBins.maskSizeInBytes) 2 hashIndex binIndex formerShare).2
          = formerShare)) := by
  have hall := searches_isZeroXORFrom (w := l.maskSizeInBytes) (b := b) l.partiesResults
    (hashIndex * l.setSize) ((hashIndex + 1) * l.setSize) l.numParties 2
  have hbin := searches_isZeroXORFrom (w := lBins.maskSizeInBytes) (b := b) lBins.partiesResults
    (minIndex lBins.numOfBins lBins.maxBinSize hashIndex binIndex)
    (maxIndex lBins.numOfBins lBins.maxBinSize hashIndex binIndex) lBins.numParties 2
  -- from party 2 on there are as many parties left as there are followers
  rw [NaiveLeader.isZeroXOR, SimpleHashingNaiveLeader.isZeroXOR, Nat.add_sub_cancel,
    Nat.add_sub_cancel]
  exact ⟨⟨hall.answer formerShare, hall.restores formerShare⟩,
    hbin.answer formerShare, hbin.restores formerShare⟩

theorem NaiveLeader.ptr_eq (l : NaiveLeader) (hashIndex : ℕ) :
    l.ptr hashIndex = fun j => (hashIndex * l.setSize + j) * l.maskSizeInBytes :=
  funext fun _ => (Nat.add_mul _ _ _).symm

/-- The condition for hash function `hashIndex`. -/
def NaiveLeader.ColumnsDecide (l : NaiveLeader) (pos hashIndex : ℕ) (formerShare : Buf Byte) :
    Prop :=
  MultiPartyPSI.ColumnsDecide (8 * l.maskSizeInBytes) (l.numParties * l.setSize)
    (maskMatrix l.partiesResults (l.ptr hashIndex) l.setSize) (vecGF2FromBytes formerShare pos)

/-- The condition for bin `binIndex`. -/
def SimpleHashingNaiveLeader.ColumnsDecide (l : SimpleHashingNaiveLeader)
    (pos hashIndex binIndex : ℕ) (formerShare : Buf Byte) : Prop :=
  MultiPartyPSI.ColumnsDecide (8 * l.maskSizeInBytes) (l.numParties * l.maxBinSize)
    (maskMatrix l.partiesResults
      (columnPtr l.numOfBins l.maxBinSize l.maskSizeInBytes hashIndex binIndex) l.maxBinSize)
    (vecGF2FromBytes formerShare pos)

/-- **When solving is as good as searching**: where the masks are independent, or the share is not
in their span, the leaders that solve give the answers of those that search. -/
theorem isZeroXOR_inverse_eq (l : NaiveLeader) (lBins : SimpleHashingNaiveLeader)
    (b hashIndex binIndex : ℕ) (share : Buf Byte) :
    (l.ColumnsDecide (b * l.maskSizeInBytes) hashIndex share →
      NaiveInverseLeader.isZeroXOR l (b * l.maskSizeInBytes) hashIndex share
          = (l.isZeroXOR (b * l.maskSizeInBytes) 2 hashIndex share).1 ∧
        (NaiveInverseLeader.isZeroXOR l (b * l.maskSizeInBytes) hashIndex share = true
          ↔ Cancels l.partiesResults l.numParties (hashIndex * l.setSize) b share
            l.maskSizeInBytes l.setSize)) ∧
    (lBins.ColumnsDecide (b * lBins.maskSizeInBytes) hashIndex binIndex share →
      SimpleHashingNaiveInverseLeader.isZeroXOR lBins (b * lBins.maskSizeInBytes) hashIndex
          binIndex share
          = (lBins.isZeroXOR (b * lBins.maskSizeInBytes) 2 hashIndex binIndex share).1 ∧
        (SimpleHashingNaiveInverseLeader.isZeroXOR lBins (b * lBins.maskSizeInBytes) hashIndex
            binIndex share = true
          ↔ Cancels lBins.partiesResults lBins.numParties
            (minIndex lBins.numOfBins lBins.maxBinSize hashIndex binIndex) b share
            lBins.maskSizeInBytes lBins.maxBinSize)) := by
  refine ⟨?_, ?_⟩
  · intro h
    rw [NaiveLeader.ColumnsDecide, l.ptr_eq] at h
    have heq : NaiveInverseLeader.isZeroXOR l (b * l.maskSizeInBytes) hashIndex share
        = (l.isZeroXOR (b * l.maskSizeInBytes) 2 hashIndex share).1 := by
      rw [NaiveInverseLeader.isZeroXOR, NaiveLeader.isZeroXOR, l.ptr_eq, Nat.succ_mul,
        Nat.add_sub_cancel]
      exact isZeroXORInverse_eq h
    refine ⟨heq, ?_⟩
    rw [heq, NaiveLeader.isZeroXOR, Nat.succ_mul, Nat.add_sub_cancel]
    exact isZeroXORFrom_iff_cancels
  · intro h
    rw [SimpleHashingNaiveLeader.ColumnsDecide, funext (columnPtr_eq _ _ _ _ _)] at h
    have heq : SimpleHashingNaiveInverseLeader.isZeroXOR lBins (b * lBins.maskSizeInBytes) hashIndex
        binIndex share
        = (lBins.isZeroXOR (b * lBins.maskSizeInBytes) 2 hashIndex binIndex share).1 := by
      rw [SimpleHashingNaiveInverseLeader.isZeroXOR, SimpleHashingNaiveLeader.isZeroXOR,
        funext (columnPtr_eq _ _ _ _ _), maxIndex_eq, Nat.add_sub_cancel]
      exact isZeroXORInverse_eq h
    refine ⟨heq, ?_⟩
    rw [heq, SimpleHashingNaiveLeader.isZeroXOR, maxIndex_eq, Nat.add_sub_cancel]
    exact isZeroXORFrom_iff_cancels

/-- Two followers with two masks each, in one bin. -/
def fourMasks (m : Fin 4 → BitVec 8) : SimpleHashingNaiveLeader where
  numParties := 2
  setSize := 2
  maskSizeInBytes := 1
  leaderResults _ _ := 0
  partiesResults p j := XorVec.ofBits (m (Fin.ofNat 4 (2 * (p - 2) + j)))
  numOfBins := 1
  maxBinSize := 2

/-- Four masks with one bit each are independent, and the sum of the first ones of both followers
is found. -/
theorem isZeroXOR_inverse_eq_five :
    NaiveInverseLeader.isZeroXOR (fourMasks ![1, 2, 4, 8]).toNaiveLeader 0 0
        (fun _ => XorVec.ofBits 5) = true ∧
      SimpleHashingNaiveInverseLeader.isZeroXOR (fourMasks ![1, 2, 4, 8]) 0 0 0
        (fun _ => XorVec.ofBits 5) = true := by
  have hnaive : (fourMasks ![1, 2, 4, 8]).toNaiveLeader.ColumnsDecide 0 0
      fun _ => XorVec.ofBits 5 :=
    ⟨by decide, Or.inl (Fintype.linearIndependent_iff.mpr (by decide +kernel))⟩
  have hsimple : (fourMasks ![1, 2, 4, 8]).ColumnsDecide 0 0 0 fun _ => XorVec.ofBits 5 :=
    ⟨by decide, Or.inl (Fintype.linearIndependent_iff.mpr (by decide +kernel))⟩
  obtain ⟨hone, htwo⟩ := isZeroXOR_inverse_eq (fourMasks ![1, 2, 4, 8]).toNaiveLeader
    (fourMasks ![1, 2, 4, 8]) 0 0 0 fun _ => XorVec.ofBits 5
  exact ⟨(hone hnaive).1.trans (by decide +kernel), (htwo hsimple).1.trans (by decide +kernel)⟩

/-- A follower with the same mask twice: its mask and one of the other follower add up to the
share, but the leaders that solve do not find it. With other masks they say that the share is
a sum when it is none. -/
theorem isZeroXOR_inverse_ne :
    ((NaiveInverseLeader.isZeroXOR (fourMasks ![4, 4, 1, 2]).toNaiveLeader 0 0
        (fun _ => XorVec.ofBits 5) = false ∧
      ((fourMasks ![4, 4, 1, 2]).toNaiveLeader.isZeroXOR 0 2 0 fun _ => XorVec.ofBits 5).1 = true) ∧
    (SimpleHashingNaiveInverseLeader.isZeroXOR (fourMasks ![4, 4, 1, 2]) 0 0 0
        (fun _ => XorVec.ofBits 5) = false ∧
      ((fourMasks ![4, 4, 1, 2]).isZeroXOR 0 2 0 0 fun _ => XorVec.ofBits 5).1 = true)) ∧
    ((NaiveInverseLeader.isZeroXOR (fourMasks ![1, 2, 6, 4]).toNaiveLeader 0 0
        (fun _ => XorVec.ofBits 3) = true ∧
      ((fourMasks ![1, 2, 6, 4]).toNaiveLeader.isZeroXOR 0 2 0
        fun _ => XorVec.ofBits 3).1 = false) ∧
    (SimpleHashingNaiveInverseLeader.isZeroXOR (fourMasks ![1, 2, 6, 4]) 0 0 0
        (fun _ => XorVec.ofBits 3) = true ∧
      ((fourMasks ![1, 2, 6, 4]).isZeroXOR 0 2 0 0 fun _ => XorVec.ofBits 3).1 = false)) := by
  decide +kernel

end MultiPartyPSI
