import MultiPartyPSI.Lib.LittleEndian
import MultiPartyPSI.Util.Typedefs

/-!
# Permutation-based hashing

`hashing_util.h`: an element is cut into its low `addrbitlen` bits `L` and the
rest `R`. The bin is `L` exclusive-ored with a table word selected by `R`, reduced
to the number of bins; what is stored in the bin is `R` alone, since together with
the bin it should determine the element.

The second half of the file restates the function bit by bit: which bits of the
element reach `L`, `R` and each bit of the stored value. Everything proved about
it later starts from those four facts.
-/

namespace MultiPartyPSI

open Lib Buf

/-- `NUM_HASH_FUNCTIONS`. -/
def numHashFunctions : Nat := 3

/-- `m_numOfBins = ceil(EPSILON * m_setSize)` with `EPSILON = 1.2`, which all parties compute
from the size of their sets. -/
def numOfBins (setSize : Nat) : Nat := ceilDivide (6 * setSize) 5

theorem numOfBins_eq (setSize : Nat) : numOfBins setSize = (6 * setSize + 4) / 5 := by
  unfold numOfBins ceilDivide; split <;> omega

theorem lt_numOfBins {setSize : Nat} (h : 0 < setSize) : setSize < numOfBins setSize := by
  rw [numOfBins_eq]; omega

/-- A party that holds an element has at least two bins. -/
theorem two_le_numOfBins {setSize : Nat} (h : 0 < setSize) : 2 ≤ numOfBins setSize :=
  Nat.succ_le_of_lt (lt_of_le_of_lt h (lt_numOfBins h))

/-- Entry `k` of `SELECT_BITS`: the low `k` bits of a word. -/
def selectBits (k : Nat) : Nat := 2 ^ k - 1

/-- Entry `k` of `SELECT_BITS_INV`: all bits of a word but the low `k`. -/
def selectBitsInv (k : Nat) : Nat := 2 ^ 32 - 2 ^ k

/-- Entry `k` of `BYTE_SELECT_BITS_INV`: a byte without its high `k` bits. -/
def byteSelectBitsInv (k : Nat) : Byte := XorVec.ofBits (0xFF#8 >>> k)

/-- `hs_t`. -/
structure HashingState where
  /-- One table of words per hash function and two bytes of output. -/
  hfValues : Nat → Nat → Nat → BitVec 32
  /-- Tables per hash function. -/
  nhfvals : Nat
  nbins : Nat
  inbitlen : Nat
  addrbitlen : Nat
  floorAddrbitlen : Nat
  outbitlen : Nat
  inbytelen : Nat
  outbytelen : Nat
  mask : Nat

/-- `init_hashing_state`, the random tables given.

The logarithms take the bin count as an `int`; from `2 ^ 31` bins on it is negative,
shifting it never reaches zero and the function does not return.

`32 - inbitlen - addrbitlen` is computed in 64 bits and wraps for wide elements; the
word is then shifted by that count modulo 32, which is what the shift of the target
does. -/
def initHashingState (inbitlen nbins : Nat) (hfValues : Nat → Nat → Nat → BitVec 32) :
    Option HashingState :=
  if nbins < 2 ^ 31 then
    let addrbitlen := min (ceilLog2 nbins) inbitlen
    let outbitlen := inbitlen - addrbitlen + 1
    let inbytelen := ceilDivide inbitlen 8
    let outbytelen := ceilDivide outbitlen 8
    some
      { hfValues := hfValues
        nhfvals := ceilDivide outbytelen 2
        nbins := nbins
        inbitlen := inbitlen
        addrbitlen := addrbitlen
        floorAddrbitlen := min (floorLog2 nbins) inbitlen
        outbitlen := outbitlen
        inbytelen := inbytelen
        outbytelen := outbytelen
        mask :=
          if inbytelen < 4 then
            0xFFFFFFFF >>> ((2 ^ 64 + 32 - inbitlen - addrbitlen) % 2 ^ 64 % 32)
          else 0xFFFFFFFF }
  else none

/-- What hashing an element yields: a bin for each hash function, and the value
to store there. -/
structure Hashed (V : Type*) where
  address : Nat → Nat
  val : V

namespace HashingState

variable (hs : HashingState)

/-- `L`. -/
def left (element : Buf Byte) : Nat := loadLE element 0 4 &&& selectBits hs.addrbitlen

/-- `R`. -/
def right (element : Buf Byte) : Nat :=
  ((loadLE element 0 4 &&& selectBitsInv hs.addrbitlen) >>> hs.addrbitlen) &&& hs.mask

/-- `hfmaskaddr`, a 16-bit index. -/
def hfmaskaddr (element : Buf Byte) : Nat := hs.right element * 4 % 2 ^ 16

/-- The loops that fill `address`; every table overwrites the one before. -/
def addresses (element : Buf Byte) (address : Buf Nat) : Buf Nat :=
  loop (fun i address =>
    loop (fun j address =>
      address.write i
        ((hs.left element ^^^ (hs.hfValues i j (hs.hfmaskaddr element)).toNat) % hs.nbins))
      hs.nhfvals address)
    numHashFunctions address

/-- The stores to `val`. -/
def value (element val : Buf Byte) : Buf Byte :=
  let val := storeLE val 0 (hs.right element) 4
  if hs.inbitlen > 32 then
    let val := copy val (4 - hs.floorAddrbitlen / 8) element 4
      (hs.outbytelen - (4 - hs.floorAddrbitlen / 8))
    val.write (hs.outbytelen - 1)
      (val (hs.outbytelen - 1) &&& byteSelectBitsInv (hs.outbitlen &&& 0x03))
  else val

/-- `hashElement`: what `element` points at, and the two arrays the result goes to. -/
def hashElement (element : Buf Byte) (address : Buf Nat) (val : Buf Byte) :
    Hashed (Buf Byte) :=
  ⟨hs.addresses element address, hs.value element val⟩

end HashingState

/-! ## The state that is built

`a` below is the number of address bits, `ceil_log2(nbins)` cut to the element. -/

/-- `hs->addrbitlen`. -/
def addrbits (inbitlen nbins : Nat) : Nat := min (ceilLog2 nbins) inbitlen

/-- How many bits `hs->mask` lets through. -/
def maskbits (inbitlen nbins : Nat) : Nat :=
  if inbitlen ≤ 24 then
    if inbitlen + addrbits inbitlen nbins ≤ 32 then
      if inbitlen = 0 then 32 else inbitlen + addrbits inbitlen nbins
    else inbitlen + addrbits inbitlen nbins - 32
  else 32

theorem addrbits_le (n N : Nat) : addrbits n N ≤ n := Nat.min_le_right _ _

theorem addrbits_lt {n N : Nat} (h2 : 2 ≤ N) (hN : N < 2 ^ 31) : addrbits n N < 32 :=
  lt_of_le_of_lt (Nat.min_le_left _ _) (Nat.lt_succ_of_le (ceilLog2_le h2 hN.le))

theorem addrbits_pos {n N : Nat} (hn : 0 < n) (h2 : 2 ≤ N) : 0 < addrbits n N :=
  Nat.lt_min.mpr ⟨ceilLog2_pos h2, hn⟩

theorem testBit_ones_shiftRight (s k : Nat) :
    (0xFFFFFFFF >>> s : Nat).testBit k = decide (k + s < 32) := by
  rw [Nat.testBit_shiftRight, show (0xFFFFFFFF : Nat) = 2 ^ 32 - 1 by rfl,
    Nat.testBit_two_pow_sub_one, Nat.add_comm]

/-- The fields of a state, all determined by the two widths. -/
structure HashingState.Built (hs : HashingState) (n N : Nat) : Prop where
  nhfvals_pos : 0 < hs.nhfvals
  nbins_eq : hs.nbins = N
  inbitlen_eq : hs.inbitlen = n
  addrbitlen_eq : hs.addrbitlen = addrbits n N
  floor_eq : hs.floorAddrbitlen = min (floorLog2 N) n
  outbitlen_eq : hs.outbitlen = n - addrbits n N + 1
  inbytelen_eq : hs.inbytelen = (n + 7) / 8
  outbytelen_eq : hs.outbytelen = (n - addrbits n N) / 8 + 1
  /-- The mask selects the low `maskbits` bits. -/
  mask_eq : ∀ k, hs.mask.testBit k = decide (k < maskbits n N)

theorem initHashingState_hfValues {n N : Nat} {hf : Nat → Nat → Nat → BitVec 32}
    {hs : HashingState} (h : initHashingState n N hf = some hs) : hs.hfValues = hf := by
  unfold initHashingState at h
  split at h
  · cases h; rfl
  · cases h

theorem initHashingState_total {n N : Nat} (hN : N < 2 ^ 31) (hf : Nat → Nat → Nat → BitVec 32) :
    ∃ hs, initHashingState n N hf = some hs := by
  rw [initHashingState, if_pos hN]
  exact ⟨_, rfl⟩

theorem initHashingState_built {n N : Nat} {hf : Nat → Nat → Nat → BitVec 32} {hs : HashingState}
    (h : initHashingState n N hf = some hs) : hs.Built n N := by
  have hle := addrbits_le n N
  unfold initHashingState at h
  split at h
  · cases h
    refine ⟨?_, rfl, rfl, rfl, rfl, rfl, ceilDivide_eight n, ?_, ?_⟩
    · show 0 < ceilDivide (ceilDivide (n - addrbits n N + 1) 8) 2
      unfold ceilDivide
      split <;> split <;> omega
    · show ceilDivide (n - addrbits n N + 1) 8 = _
      rw [ceilDivide_eight]
      omega
    · intro k
      show Nat.testBit (if ceilDivide n 8 < 4 then
        0xFFFFFFFF >>> ((2 ^ 64 + 32 - n - addrbits n N) % 2 ^ 64 % 32) else 0xFFFFFFFF) k = _
      rw [ceilDivide_eight]
      unfold maskbits
      by_cases hn : n ≤ 24
      · rw [if_pos (by omega), if_pos hn, testBit_ones_shiftRight]
        refine decide_eq_decide.mpr ?_
        split <;> (try split) <;> omega
      · rw [if_neg (by omega), if_neg hn]
        exact testBit_ones_shiftRight 0 k
  · cases h

/-! ## The function, bit by bit -/

namespace HashingState

variable {hs : HashingState} {n N : Nat}

theorem testBit_selectBitsInv {a : Nat} (ha : a ≤ 32) (k : Nat) :
    (selectBitsInv a).testBit k = (decide (a ≤ k) && decide (k < 32)) := by
  have : selectBitsInv a = 2 ^ a * (2 ^ (32 - a) - 1) := by
    rw [selectBitsInv, Nat.mul_sub, ← pow_add, Nat.add_sub_cancel' ha, Nat.mul_one]
  rw [this, Nat.testBit_two_pow_mul, Nat.testBit_two_pow_sub_one]
  by_cases h : a ≤ k
  · simp only [h, decide_true, Bool.true_and]
    exact decide_eq_decide.mpr (by omega)
  · simp [h]

theorem testBit_left (hB : hs.Built n N) (e : Buf Byte) (k : Nat) :
    (hs.left e).testBit k = (decide (k < 32) && decide (k < addrbits n N) && e.bit k) := by
  rw [left, hB.addrbitlen_eq, Nat.testBit_and, testBit_loadLE, selectBits,
    Nat.testBit_two_pow_sub_one, Nat.mul_zero, Nat.zero_add]
  cases e.bit k <;> simp

theorem left_lt (hB : hs.Built n N) (e : Buf Byte) : hs.left e < 2 ^ addrbits n N := by
  rw [left, hB.addrbitlen_eq]
  exact Nat.and_lt_two_pow _ (Nat.sub_lt (Nat.two_pow_pos _) Nat.one_pos)

theorem testBit_right (hB : hs.Built n N) (ha : addrbits n N ≤ 32) (e : Buf Byte) (k : Nat) :
    (hs.right e).testBit k
      = (decide (k + addrbits n N < 32) && decide (k < maskbits n N)
          && e.bit (k + addrbits n N)) := by
  rw [right, hB.addrbitlen_eq, Nat.testBit_and, Nat.testBit_shiftRight, Nat.testBit_and,
    testBit_loadLE, testBit_selectBitsInv ha, hB.mask_eq, Nat.mul_zero, Nat.zero_add,
    Nat.add_comm _ k]
  by_cases h : k + addrbits n N < 32
  · simp [h, Bool.and_comm]
  · simp [h]

/-- Bit `k` of the stored value, for an element that fits a word. -/
theorem bit_value_short (hB : hs.Built n N) (hn : n ≤ 32) (e v : Buf Byte) (k : Nat) :
    (hs.value e v).bit k = if k < 32 then (hs.right e).testBit k else v.bit k := by
  rw [value, if_neg (by rw [hB.inbitlen_eq]; omega), bit_storeLE]
  simp

/-- A byte mask keeps the low bits of the byte. -/
theorem getLsbD_byteSelectBitsInv (s k : Nat) :
    (byteSelectBitsInv s).toBits.getLsbD k = decide (k + s < 8) := by
  rw [byteSelectBitsInv, XorVec.toBits_ofBits, BitVec.getLsbD_ushiftRight,
    show (0xFF#8) = BitVec.allOnes 8 by rfl, BitVec.getLsbD_allOnes, Nat.add_comm]

/-- A position of the stored value, of a longer element, that its last mask keeps. -/
def Kept (n N k : Nat) : Prop :=
  k < 8 * ((n - addrbits n N) / 8)
    ∨ k - 8 * ((n - addrbits n N) / 8) + (n - addrbits n N + 1) % 4 < 8

instance (n N k : Nat) : Decidable (Kept n N k) := inferInstanceAs (Decidable (_ ∨ _))

/-- Bit `k` of the stored value, for a longer element: the word supplies the first
bits, the element's tail the following ones, and the last byte is masked. -/
theorem bit_value_long (hB : hs.Built n N) (hn : 32 < n) (e v : Buf Byte) {k : Nat}
    (hk : k < 8 * ((n - addrbits n N) / 8 + 1)) :
    (hs.value e v).bit k
      = (decide (Kept n N k)
          && (if 4 - min (floorLog2 N) n / 8 ≤ k / 8
              then e.bit (32 + (k - 8 * (4 - min (floorLog2 N) n / 8)))
              else (hs.right e).testBit k)) := by
  have hmask : hs.outbitlen &&& 0x03 = (n - addrbits n N + 1) % 4 := by
    rw [hB.outbitlen_eq, show (0x03 : Nat) = 2 ^ 2 - 1 by rfl, Nat.and_two_pow_sub_one_eq_mod]
  -- the buffer before its last byte is masked
  have hbody : ∀ j, j < 8 * ((n - addrbits n N) / 8 + 1) →
      (copy (storeLE v 0 (hs.right e) 4) (4 - min (floorLog2 N) n / 8) e 4
        (hs.outbytelen - (4 - min (floorLog2 N) n / 8))).bit j
        = if 4 - min (floorLog2 N) n / 8 ≤ j / 8
            then e.bit (32 + (j - 8 * (4 - min (floorLog2 N) n / 8)))
            else (hs.right e).testBit j := by
    intro j hj
    rw [bit_copy, bit_storeLE, hB.outbytelen_eq]
    by_cases hc : 4 - min (floorLog2 N) n / 8 ≤ j / 8
    · rw [if_pos (by omega), if_pos hc]
    · rw [if_neg (by omega), if_neg hc, if_pos (by omega), Nat.mul_zero, Nat.sub_zero]
  rw [value, if_pos (by rw [hB.inbitlen_eq]; omega), hB.floor_eq, hmask, ← hbody k hk]
  have hlast : hs.outbytelen - 1 = (n - addrbits n N) / 8 := by
    rw [hB.outbytelen_eq, Nat.add_sub_cancel]
  rw [hlast]
  by_cases hb : k / 8 = (n - addrbits n N) / 8
  · rw [bit, hb, write_same, XorVec.toBits_and, BitVec.getLsbD_and, getLsbD_byteSelectBitsInv,
      Bool.and_comm, bit, hb]
    congr 1
    refine decide_eq_decide.mpr ?_
    unfold Kept
    omega
  · have hkept : Kept n N k := Or.inl (by omega)
    rw [bit, write_ne _ _ hb, bit, decide_eq_true hkept, Bool.true_and]

/-- The address for a hash function: the last of its tables wins. -/
theorem address_eq (hB : hs.Built n N) (e : Buf Byte) (address : Buf Nat) {i : Nat}
    (hi : i < numHashFunctions) :
    hs.addresses e address i
      = (hs.left e ^^^ (hs.hfValues i (hs.nhfvals - 1) (hs.hfmaskaddr e)).toNat) % N := by
  obtain ⟨t, ht⟩ := Nat.exists_eq_succ_of_ne_zero hB.nhfvals_pos.ne'
  -- one round sets the address it is about and keeps the others
  have hround : ∀ (i : Nat) (address : Buf Nat) (i' : Nat),
      loop (fun j address => address.write i
        ((hs.left e ^^^ (hs.hfValues i j (hs.hfmaskaddr e)).toNat) % hs.nbins))
        hs.nhfvals address i'
      = if i' = i then
          (hs.left e ^^^ (hs.hfValues i (hs.nhfvals - 1) (hs.hfmaskaddr e)).toNat) % N
        else address i' := by
    intro i address i'
    rw [ht, loop_succ, hB.nbins_eq]
    by_cases h : i' = i
    · subst h
      rw [write_same, if_pos rfl, Nat.succ_eq_add_one, Nat.add_sub_cancel]
    · rw [write_ne _ _ h, if_neg h]
      exact loop_induct (P := fun _ (m : Buf Nat) => m i' = address i') t rfl
        fun j m _ hm => (write_ne _ _ h).trans hm
  unfold addresses
  refine loop_induct (P := fun k (m : Buf Nat) => ∀ i < k, m i
    = (hs.left e ^^^ (hs.hfValues i (hs.nhfvals - 1) (hs.hfmaskaddr e)).toNat) % N)
    numHashFunctions ?_ ?_ i hi
  · intro i hi
    omega
  · intro k m _ hm i hi
    rw [hround]
    by_cases h : i = k
    · rw [if_pos h, h]
    · rw [if_neg h]
      exact hm i (by omega)

end HashingState

end MultiPartyPSI
