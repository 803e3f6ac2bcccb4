import MultiPartyPSI.Strategies.NaiveMethod
import MultiPartyPSI.Strategies.SimpleHash

/-!
# NAIVE_METHOD_LARGE_N and GAUSS_SIMPLE_HASH

The followers are those of NAIVE_METHOD_SMALL_N and SIMPLE_HASH; the leader solves a linear system
instead of trying all choices. So these strategies find what the other two find, wherever the
columns of the system decide (`ColumnsDecide`), and that is asked of the masks that came over the
network, at the leader's places of its elements.

For the checks of different threads not to disturb each other, `solve` must look at the
rows of its system only: `solve_congr`.
-/

namespace MultiPartyPSI

open Lib Buf

/-! ## `solve` reads its rows -/

section Rows

variable {numRows : ℕ} {b b' : ℕ → GF2}

theorem eliminateColumn_congr (j n : ℕ) (A : ℕ → ℕ → GF2) (h : ∀ i < numRows, b i = b' i) :
    (eliminateColumn numRows j ⟨A, b, n⟩).A = (eliminateColumn numRows j ⟨A, b', n⟩).A ∧
    (eliminateColumn numRows j ⟨A, b, n⟩).nextRow
      = (eliminateColumn numRows j ⟨A, b', n⟩).nextRow ∧
    ∀ i < numRows, (eliminateColumn numRows j ⟨A, b, n⟩).b i
      = (eliminateColumn numRows j ⟨A, b', n⟩).b i := by
  cases hrow : findRow numRows j ⟨A, b, n⟩ with
  | none =>
      have hrow' : findRow numRows j ⟨A, b', n⟩ = none := hrow
      rw [eliminateColumn, hrow, eliminateColumn, hrow']
      exact ⟨rfl, rfl, h⟩
  | some p =>
      have hrow' : findRow numRows j ⟨A, b', n⟩ = some p := hrow
      obtain ⟨hle, hlt, -⟩ := findRow_some hrow
      rw [eliminateColumn, hrow, eliminateColumn, hrow']
      have hn : n < numRows := lt_of_le_of_lt hle hlt
      -- the rows that are exchanged and added are rows of the system
      have hswap : ∀ i < numRows, swapRows b n p i = swapRows b' n p i := by
        intro i hi
        unfold swapRows
        rw [h p hlt, h n hn, h i hi]
      refine ⟨rfl, rfl, fun i hi => ?_⟩
      dsimp only
      unfold addRow
      rw [hswap i hi, hswap n hn]

theorem eliminate_congr (numCols : ℕ) (A : ℕ → ℕ → GF2) (h : ∀ i < numRows, b i = b' i) :
    (eliminate numRows numCols A b).A = (eliminate numRows numCols A b').A ∧
    (eliminate numRows numCols A b).nextRow = (eliminate numRows numCols A b').nextRow ∧
    ∀ i < numRows, (eliminate numRows numCols A b).b i = (eliminate numRows numCols A b').b i := by
  induction numCols with
  | zero => exact ⟨rfl, rfl, h⟩
  | succ j ih =>
      rw [eliminate_succ, eliminate_succ]
      generalize eliminate numRows j A b = s at ih ⊢
      generalize eliminate numRows j A b' = s' at ih ⊢
      obtain ⟨A₁, b₁, n₁⟩ := s
      obtain ⟨A₂, b₂, n₂⟩ := s'
      obtain ⟨rfl, rfl, hb⟩ := ih
      exact eliminateColumn_congr j n₁ A₁ hb

theorem skipRows_congr (numCols : ℕ) (A : ℕ → ℕ → GF2) (h : ∀ i < numRows, b i = b' i) {k : ℕ}
    (hk : k ≤ numRows) : skipRows numCols A b k = skipRows numCols A b' k := by
  induction k with
  | zero => rfl
  | succ k ih => rw [skipRows, skipRows, h k hk, ih (Nat.le_of_succ_le hk)]

theorem substituteBack_congr (numCols : ℕ) (A : ℕ → ℕ → GF2) (h : ∀ i < numRows, b i = b' i)
    {j k : ℕ} (hk : k ≤ numRows) (sol : ℕ → GF2) :
    substituteBack numCols A b j k sol = substituteBack numCols A b' j k sol := by
  induction j generalizing k sol with
  | zero => rfl
  | succ j ih =>
      cases k with
      | zero => rfl
      | succ k =>
          rw [substituteBack, substituteBack, h k hk, ih hk, ih (Nat.le_of_succ_le hk)]

/-- **`solve` looks at the rows of the system only.** -/
theorem solve_congr (numCols : ℕ) (A : ℕ → ℕ → GF2) (h : ∀ i < numRows, b i = b' i) :
    solve numRows numCols A b = solve numRows numCols A b' := by
  obtain ⟨hA, -, hb⟩ := eliminate_congr numCols A h
  rw [solve, solve, hA, skipRows_congr numCols _ hb le_rfl]
  cases hskip : skipRows numCols (eliminate numRows numCols A b').A
      (eliminate numRows numCols A b').b numRows with
  | none => rfl
  | some k =>
      obtain ⟨rfl, -⟩ := skipRows_some hskip
      exact substituteBack_congr numCols _ hb startRow_le _

end Rows

/-! ## The checks -/

section Model

/-- `NaiveLeader::isElementInAllSets` with an `isZeroXOR` that leaves the share alone. -/
def inheritedCheck (leaderResults : Nat → Buf Byte) (numParties maskSizeInBytes : Nat)
    (isZeroXOR : (binIndex hashFuncIndex : Nat) → Buf Byte → Bool) : ElementCheck :=
  fun _ binIndex tableIndex hashFuncIndex share =>
    let secret := xorLeaderResults leaderResults numParties maskSizeInBytes
      (binIndex * maskSizeInBytes) tableIndex share
    (isZeroXOR binIndex hashFuncIndex secret, secret)

/-- `isElementInAllSets` of `NaiveInverseLeader`. -/
def NaiveInverseLeader.isElementInAllSets (l : NaiveLeader) : ElementCheck :=
  inheritedCheck l.leaderResults l.numParties l.maskSizeInBytes fun binIndex hashFuncIndex secret =>
    NaiveInverseLeader.isZeroXOR l (binIndex * l.maskSizeInBytes) hashFuncIndex secret

/-- `isElementInAllSets` of `SimpleHashingNaiveInverseLeader`. -/
def SimpleHashingNaiveInverseLeader.isElementInAllSets (l : SimpleHashingNaiveLeader) :
    ElementCheck :=
  inheritedCheck l.leaderResults l.numParties l.maskSizeInBytes fun binIndex hashFuncIndex secret =>
    SimpleHashingNaiveInverseLeader.isZeroXOR l (binIndex * l.maskSizeInBytes) hashFuncIndex
      binIndex secret

end Model

section Checks

variable {leaderResults : Nat → Buf Byte} {numParties w : Nat}

/-- The answer depends on the share of the bin. -/
theorem isZeroXORInverse_congr (partiesResults : Nat → Buf Byte) (ptr : Nat → Nat)
    (numParties count : Nat) {b : Nat} {share share' : Buf Byte}
    (h : row w share b = row w share' b) :
    isZeroXORInverse partiesResults ptr numParties count w (b * w) share
      = isZeroXORInverse partiesResults ptr numParties count w (b * w) share' := by
  have hbits : ∀ i < 8 * w, vecGF2FromBytes share (b * w) i = vecGF2FromBytes share' (b * w) i := by
    intro i hi
    rw [vecGF2FromBytes_row share b ⟨i, hi⟩, vecGF2FromBytes_row share' b ⟨i, hi⟩, h]
  rw [isZeroXORInverse, isZeroXORInverse, solve_congr _ _ hbits]

theorem localCheck_inherited {isZeroXOR : Nat → Nat → Buf Byte → Bool}
    (h : ∀ b j share share', row w share b = row w share' b →
      isZeroXOR b j share = isZeroXOR b j share') :
    LocalCheck w (inheritedCheck leaderResults numParties w isZeroXOR) := by
  refine ⟨fun i b t j share b' hb' => row_xorLeaderResults_ne _ _ _ _ hb',
    fun i b t j share share' hrow => h b j _ _ ?_⟩
  rw [row_xorLeaderResults, row_xorLeaderResults, hrow]

theorem NaiveInverseLeader.localCheck (l : NaiveLeader) :
    LocalCheck l.maskSizeInBytes (NaiveInverseLeader.isElementInAllSets l) :=
  localCheck_inherited fun _ _ _ _ h => isZeroXORInverse_congr _ _ _ _ h

theorem SimpleHashingNaiveInverseLeader.localCheck (l : SimpleHashingNaiveLeader) :
    LocalCheck l.maskSizeInBytes (SimpleHashingNaiveInverseLeader.isElementInAllSets l) :=
  localCheck_inherited fun _ _ _ _ h => isZeroXORInverse_congr _ _ _ _ h

/-- Where the columns decide, the answer is that of the search. -/
theorem NaiveInverseLeader.isElementInAllSets_eq (l : NaiveLeader) {i b t j : Nat}
    {share : Buf Byte} (h : l.ColumnsDecide (b * l.maskSizeInBytes) j
      (xorLeaderResults l.leaderResults l.numParties l.maskSizeInBytes (b * l.maskSizeInBytes) t
        share)) :
    (NaiveInverseLeader.isElementInAllSets l i b t j share).1
      = (l.isElementInAllSets i b t j share).1 := by
  rw [NaiveLeader.ColumnsDecide, l.ptr_eq] at h
  have heq := isZeroXORInverse_eq h
  rw [← l.ptr_eq] at heq
  refine heq.trans ?_
  rw [NaiveLeader.isElementInAllSets, NaiveLeader.isZeroXOR, Nat.succ_mul, Nat.add_sub_cancel]

theorem SimpleHashingNaiveInverseLeader.isElementInAllSets_eq (l : SimpleHashingNaiveLeader)
    {i b t j : Nat} {share : Buf Byte} (h : l.ColumnsDecide (b * l.maskSizeInBytes) j b
      (xorLeaderResults l.leaderResults l.numParties l.maskSizeInBytes (b * l.maskSizeInBytes) t
        share)) :
    (SimpleHashingNaiveInverseLeader.isElementInAllSets l i b t j share).1
      = (l.isElementInAllSets i b t j share).1 := by
  have hptr := funext (columnPtr_eq l.numOfBins l.maxBinSize l.maskSizeInBytes j b)
  rw [SimpleHashingNaiveLeader.ColumnsDecide, hptr] at h
  have heq := isZeroXORInverse_eq h
  rw [← hptr] at heq
  refine heq.trans ?_
  rw [SimpleHashingNaiveLeader.isElementInAllSets, SimpleHashingNaiveLeader.isZeroXOR, maxIndex_eq,
    Nat.add_sub_cancel]

end Checks

variable {G : Type*} [CommGroup G] {C : OprgCrypto G} {X : Type*}

/-- Two different masks of one follower. -/
theorem columnsDecide_pair {w start : ℕ} {partiesResults : ℕ → Buf Byte} {b : ℕ → GF2}
    {m m' : Fin w → Byte} (hfirst : row w (partiesResults 2) start = m)
    (hsecond : row w (partiesResults 2) (start + 1) = m') (hm : m ≠ 0) (hm' : m' ≠ 0)
    (hne : m ≠ m') :
    ColumnsDecide (8 * w) (1 * 2) (maskMatrix partiesResults (fun k => (start + k) * w) 2) b := by
  have hcolumns : (fun c : Fin (1 * 2) =>
      column (maskMatrix partiesResults (fun k => (start + k) * w) 2) (8 * w) c)
        = ![rowBit m, rowBit m'] := by
    refine funext (Fin.forall_fin_two.mpr ⟨funext fun k => ?_, funext fun k => ?_⟩)
    · exact (vecGF2FromBytes_row (partiesResults 2) start k).trans (by rw [hfirst]; rfl)
    · exact (vecGF2FromBytes_row (partiesResults 2) (start + 1) k).trans (by rw [hsecond]; rfl)
  refine ⟨Nat.two_pos, Or.inl ?_⟩
  rw [hcolumns]
  have hbits : ∀ {v : Fin w → Byte}, rowBit v = 0 → v = 0 := fun h =>
    rowBit_injective fun k => (congrFun h k).trans (rowBit_zero k).symm
  refine LinearIndependent.pair_iff.mpr fun x y h => ?_
  have hcases : ∀ z : GF2, z = 0 ∨ z = 1 := by decide
  obtain rfl | rfl := hcases x <;> obtain rfl | rfl := hcases y
  · exact ⟨rfl, rfl⟩
  · rw [zero_smul, one_smul, zero_add] at h
    exact absurd (hbits h) hm'
  · rw [zero_smul, one_smul, add_zero] at h
    exact absurd (hbits h) hm
  · rw [one_smul, one_smul] at h
    refine absurd (XorGroup.add_eq_zero_iff.mp (hbits (funext fun k => ?_))) hne
    rw [rowBit_add]
    exact congrFun h k

/-- The blocks that the leader of the small session looks at: one has random masks only, the other
has the mask of the common element. -/
theorem blockRow_small (masks : Buf Byte) {b r : Nat} (hb : b < 2) (hr : r < 2) :
    blockRow ((smallSession 2).followerSet 2 masks) (smallMasked 2) (smallRandom 2) 0 b
        (((smallSession 2).simple 2).nelesinbin b) r
      = if b = 1 ∧ r = 0 then smallShared 1 else fun _ => ofNatLE (r + 1) 0 := by
  have hentries : ∀ b < 2, entriesBy ((smallSession 2).followerSet 2 fun _ => 0) 0 b
      (((smallSession 2).simple 2).nelesinbin b) = if b = 0 then [] else [0] := by
    decide
  have hentries : entriesBy ((smallSession 2).followerSet 2 masks) 0 b
      (((smallSession 2).simple 2).nelesinbin b) = _ := hentries b hb
  have hrandom : ∀ k < 4, row 1 (smallRandom 2 0) k = fun _ => ofNatLE (k % 2 + 1) 0 := by decide
  rw [blockRow, hentries]
  obtain rfl | rfl : b = 0 ∨ b = 1 := by omega
  · obtain rfl | rfl : r = 0 ∨ r = 1 := by omega
    · exact hrandom 0 (by decide)
    · exact hrandom 1 (by decide)
  · obtain rfl | rfl : r = 0 ∨ r = 1 := by omega
    · exact row_smallMasked 2 (b := 1) (u := 0) (by decide) (by decide)
    · exact hrandom 3 (by decide)

end MultiPartyPSI
