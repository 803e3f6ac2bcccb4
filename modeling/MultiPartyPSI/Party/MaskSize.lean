import MultiPartyPSI.Hashing.HashingUtil

/-!
# How long a mask is

`PsiParty::setBinsParameters` and `PsiParty::initializeMaskSize`. A leader that tries many
combinations of masks for an element needs masks that are longer by the logarithm of their number.
Every strategy adds at least that to the statistical parameter, and then cuts the sum at 512 bits.
So the masks are long enough exactly when 512 bits are.
-/

namespace MultiPartyPSI

section Model

/-- `Strategy`. -/
inductive Strategy where
  | naiveMethodSmallN
  | naiveMethodLargeN
  | simpleHash
  | polynomials
  | bloomFilter
  | polynomialsSimpleHash
  | gaussSimpleHash
  | twoParty
  deriving DecidableEq, Repr

/-- `m_maxBinSize`, from `setBinsParameters`. -/
def setMaxBinSize (setSize : Nat) : Nat :=
  if ceilDivide setSize (numOfBins setSize) < 3 then max (ceilLog2 setSize) 3
  else 6 * max (ceilDivide setSize (numOfBins setSize)) 3

/-- `pad_to_multiple(x, 8)`; the sum and the product are 32-bit numbers. -/
def padMask (x : Nat) : Nat := padToMultiple (x % 2 ^ 32) 8 % 2 ^ 32

/-- `m_maskbitlen`, from `initializeMaskSize`. -/
def initializeMaskSize (strategy : Strategy) (statSecParameter numOfParties setSize : Nat) : Nat :=
  let maskbitlen := match strategy with
    | .naiveMethodSmallN => padMask (statSecParameter + (numOfParties - 1) * ceilLog2 setSize)
    | .naiveMethodLargeN => padMask (statSecParameter + (numOfParties - 1) * setSize)
    | .simpleHash =>
        padMask (statSecParameter + (numOfParties - 1) * ceilLog2 (setMaxBinSize setSize))
    | .gaussSimpleHash => padMask (statSecParameter + (numOfParties - 1) * setMaxBinSize setSize)
    | .polynomials => padMask statSecParameter
    | .bloomFilter => padMask statSecParameter
    | .polynomialsSimpleHash => padMask statSecParameter
    | .twoParty => padMask statSecParameter
  min maskbitlen (64 * 8)

/-- `getMaskSizeInBytes`. -/
def getMaskSizeInBytes (maskbitlen : Nat) : Nat := ceilDivide maskbitlen 8

/-- How many combinations of masks a leader that searches may match with one element. -/
def candidates (strategy : Strategy) (numOfParties setSize : Nat) : Option Nat :=
  match strategy with
  | .naiveMethodSmallN => some (setSize ^ (numOfParties - 1))
  | .naiveMethodLargeN => some (2 ^ ((numOfParties - 1) * setSize))
  | .simpleHash => some (setMaxBinSize setSize ^ (numOfParties - 1))
  | .gaussSimpleHash => some (2 ^ ((numOfParties - 1) * setMaxBinSize setSize))
  | _ => none

/-- The columns of the matrix of a leader that solves a system; its rows are the bits of a mask. -/
def matrixColumns (strategy : Strategy) (numOfParties setSize : Nat) : Option Nat :=
  match strategy with
  | .naiveMethodLargeN => some ((numOfParties - 1) * setSize)
  | .gaussSimpleHash => some ((numOfParties - 1) * setMaxBinSize setSize)
  | _ => none

end Model

/-! ## Padding and cutting -/

theorem le_padMask {x : Nat} (hx : x + 8 ≤ 2 ^ 32) : x ≤ padMask x := by
  have hle := le_ceilDivide_mul x (y := 8) (by decide)
  have heq := ceilDivide_eight x
  rw [padMask, padToMultiple, Nat.mod_eq_of_lt (by omega : x < 2 ^ 32), Nat.mod_eq_of_lt]
  · exact hle
  · omega

/-- If the sum is long enough for `x`, what is left after cutting at `most` bits is so exactly when
`most` bits are; if the sum wraps around, `x` is too large for them. -/
theorem le_two_pow_min_iff {x sum most : Nat} (hx : x ≤ 2 ^ sum)
    (hwrap : 0 < x → x ≤ 2 ^ most → sum + 8 ≤ 2 ^ 32) :
    x ≤ 2 ^ min (padMask sum) most ↔ x ≤ 2 ^ most := by
  refine ⟨fun h => h.trans (Nat.pow_le_pow_right (by decide) (Nat.min_le_right _ _)), fun h => ?_⟩
  rcases Nat.eq_zero_or_pos x with rfl | hpos
  · exact Nat.zero_le _
  · rcases Nat.le_total (padMask sum) most with hle | hle
    · rw [Nat.min_eq_left hle]
      exact hx.trans (Nat.pow_le_pow_right (by decide) (le_padMask (hwrap hpos h)))
    · rw [Nat.min_eq_right hle]
      exact h

theorem le_two_pow_ceilLog2' (s : Nat) : s ≤ 2 ^ ceilLog2 s := by
  rcases Nat.lt_or_ge s 2 with hs | hs
  · exact (Nat.le_of_lt_succ hs).trans Nat.one_le_two_pow
  · exact le_two_pow_ceilLog2 hs

/-! ## The strategies -/

section Suffices

variable {stat numOfParties most : Nat}

/-- Combinations of one of `s` masks for each follower. -/
theorem choices_le_iff {s : Nat} (hmost : most ≤ 64 * 8) (hparties : 2 ≤ numOfParties)
    (hint : numOfParties < 2 ^ 31) (hs : s < 2 ^ 31) :
    2 ^ stat * s ^ (numOfParties - 1)
        ≤ 2 ^ min (padMask (stat + (numOfParties - 1) * ceilLog2 s)) most
      ↔ 2 ^ stat * s ^ (numOfParties - 1) ≤ 2 ^ most := by
  refine le_two_pow_min_iff ?_ fun hpos hle => ?_
  · rw [Nat.pow_add, Nat.mul_comm (numOfParties - 1), Nat.pow_mul]
    exact Nat.mul_le_mul_left _ (Nat.pow_le_pow_left (le_two_pow_ceilLog2' s) _)
  · -- the numbers are far too small for a 32-bit sum to wrap around
    have hspos : 0 < s := by
      by_contra h0
      rw [Nat.eq_zero_of_not_pos h0, Nat.zero_pow (by omega), Nat.mul_zero] at hpos
      exact Nat.lt_irrefl 0 hpos
    have hexp : ∀ {k}, 2 ^ k ≤ 2 ^ stat * s ^ (numOfParties - 1) → k ≤ most := fun hk =>
      (Nat.pow_le_pow_iff_right (by decide)).mp (hk.trans hle)
    have hstat : stat ≤ most := hexp (Nat.le_mul_of_pos_right _ (Nat.pow_pos hspos))
    rcases Nat.lt_or_ge s 2 with hs2 | hs2
    · obtain rfl : s = 1 := by omega
      rw [show ceilLog2 1 = 1 from rfl]
      omega
    · have hlog : ceilLog2 s ≤ 31 := ceilLog2_le hs2 hs.le
      have hboth : stat + (numOfParties - 1) ≤ most := by
        refine hexp ?_
        rw [Nat.pow_add]
        exact Nat.mul_le_mul_left _ (Nat.pow_le_pow_left hs2 _)
      have hmul : (numOfParties - 1) * ceilLog2 s ≤ 64 * 8 * 31 :=
        Nat.mul_le_mul (by omega) hlog
      omega

theorem two_pow_mul_le_iff {a b c : Nat} : 2 ^ a * 2 ^ b ≤ 2 ^ c ↔ a + b ≤ c := by
  rw [← Nat.pow_add]
  exact Nat.pow_le_pow_iff_right Nat.one_lt_two

/-- All sets of `cols` columns. -/
theorem subsets_le_iff (hmost : most ≤ 64 * 8) (cols : Nat) :
    2 ^ stat * 2 ^ cols ≤ 2 ^ min (padMask (stat + cols)) most
      ↔ 2 ^ stat * 2 ^ cols ≤ 2 ^ most := by
  refine le_two_pow_min_iff (Nat.pow_add 2 stat cols).ge fun _ hle => ?_
  have := two_pow_mul_le_iff.mp hle
  omega

/-- There are at least as many bins as elements, so the size comes from the logarithm. -/
theorem setMaxBinSize_eq (setSize : Nat) : setMaxBinSize setSize = max (ceilLog2 setSize) 3 := by
  have hone : ceilDivide setSize (numOfBins setSize) < 3 := by
    unfold ceilDivide
    split
    · next hpos =>
        rw [Nat.div_eq_of_lt ((Nat.sub_le _ _).trans_lt (lt_numOfBins hpos))]
        decide
    · decide
  exact if_pos hone

theorem setMaxBinSize_lt {setSize : Nat} (hset : setSize < 2 ^ 31) :
    setMaxBinSize setSize < 2 ^ 31 := by
  rw [setMaxBinSize_eq]
  rcases Nat.lt_or_ge setSize 2 with hs | hs
  · have : ceilLog2 setSize ≤ 1 := by
      rcases Nat.lt_or_eq_of_le (Nat.le_of_lt_succ hs) with hzero | rfl
      · rw [Nat.lt_one_iff.mp hzero]
        decide +kernel
      · decide +kernel
    omega
  · have : ceilLog2 setSize ≤ 31 := ceilLog2_le hs hset.le
    omega

theorem initializeMaskSize_le (strategy : Strategy) (stat numOfParties setSize : Nat) :
    initializeMaskSize strategy stat numOfParties setSize ≤ 64 * 8 := Nat.min_le_right _ _

/-- **Masks are long enough for the search exactly when 512 bits are**, and then no matrix has more
columns than rows. The number of parties and the set size are read as `int`s. -/
theorem maskbitlen_suffices_iff (strategy : Strategy) (stat numOfParties setSize : Nat) {C : Nat}
    (hparties : 2 ≤ numOfParties)
    (hint : numOfParties < 2 ^ 31) (hset : setSize < 2 ^ 31)
    (hC : candidates strategy numOfParties setSize = some C) :
    (2 ^ stat * C ≤ 2 ^ initializeMaskSize strategy stat numOfParties setSize
        ↔ 2 ^ stat * C ≤ 2 ^ (64 * 8)) ∧
      ∀ cols ∈ matrixColumns strategy numOfParties setSize,
        (2 ^ stat * C ≤ 2 ^ (64 * 8) →
          cols ≤ 8 * getMaskSizeInBytes (initializeMaskSize strategy stat numOfParties setSize)) ∧
        (64 * 8 < cols →
          8 * getMaskSizeInBytes (initializeMaskSize strategy stat numOfParties setSize)
            < cols) := by
  have hiff : 2 ^ stat * C ≤ 2 ^ initializeMaskSize strategy stat numOfParties setSize
      ↔ 2 ^ stat * C ≤ 2 ^ (64 * 8) := by
    cases strategy with
    | naiveMethodSmallN =>
        obtain rfl := Option.some.inj hC
        exact choices_le_iff le_rfl hparties hint hset
    | naiveMethodLargeN =>
        obtain rfl := Option.some.inj hC
        exact subsets_le_iff le_rfl _
    | simpleHash =>
        obtain rfl := Option.some.inj hC
        exact choices_le_iff le_rfl hparties hint (setMaxBinSize_lt hset)
    | gaussSimpleHash =>
        obtain rfl := Option.some.inj hC
        exact subsets_le_iff le_rfl _
    | polynomials => cases hC
    | bloomFilter => cases hC
    | polynomialsSimpleHash => cases hC
    | twoParty => cases hC
  refine ⟨hiff, fun cols hcols => ⟨fun hle => ?_, fun hlt => ?_⟩⟩
  · -- the leaders that solve may match all sets of their columns
    have hcand : candidates strategy numOfParties setSize = some (2 ^ cols) := by
      cases strategy <;> cases hcols <;> rfl
    obtain rfl := Option.some.inj (hC.symm.trans hcand)
    have hmask := two_pow_mul_le_iff.mp (hiff.mpr hle)
    have hbytes := le_ceilDivide_mul (initializeMaskSize strategy stat numOfParties setSize)
      (y := 8) (by decide)
    rw [getMaskSizeInBytes, Nat.mul_comm]
    exact (Nat.le_add_left _ _).trans (hmask.trans hbytes)
  · have hle := initializeMaskSize_le strategy stat numOfParties setSize
    rw [getMaskSizeInBytes, ceilDivide_eight]
    omega

/-- Three followers with bins of up to three masks each, and a statistical parameter of 40. -/
theorem maskbitlen_suffices_four :
    2 ^ 40 * 2 ^ 9 ≤ 2 ^ initializeMaskSize .gaussSimpleHash 40 4 5 :=
  (maskbitlen_suffices_iff .gaussSimpleHash 40 4 5 (C := 2 ^ 9) (by decide) (by decide)
    (by decide) (by decide +kernel)).1.mpr
    (two_pow_mul_le_iff.mpr (by decide))

/-- With two parties and 473 elements NAIVE_METHOD_LARGE_N needs 513 bits, and has 512. -/
theorem maskbitlen_not_suffices :
    ¬ ∀ (strategy : Strategy) (stat numOfParties setSize C : Nat), 2 ≤ numOfParties →
      candidates strategy numOfParties setSize = some C →
      2 ^ stat * C ≤ 2 ^ initializeMaskSize strategy stat numOfParties setSize := by
  intro hall
  have h := hall .naiveMethodLargeN 40 2 473 (2 ^ ((2 - 1) * 473)) (by decide) rfl
  have hexp := two_pow_mul_le_iff.mp h
  have hle := initializeMaskSize_le .naiveMethodLargeN 40 2 473
  omega

end Suffices

end MultiPartyPSI
