import MultiPartyPSI.Hashing.HashElement

/-!
# Bin and value determine the element

Permutation-based hashing stores only part of an element, and the masks later
exchanged are a function of the bin and of what is stored. If two elements share
both, a leader reports an element that a follower does not have, so the map must be
one to one.

It is not, for three independent reasons: reducing to a bin count below
`2 ^ addrbitlen` merges low parts, the word mask cuts short elements whose width
and address bits exceed a word together, and of a long element the last stored byte
is cut by `outbitlen & 3` (or is missing). `Lossless` excludes exactly the three.
-/

namespace MultiPartyPSI

open Lib Buf HashingState

/-- An element of `n` bits: the unused high bits of its last byte are zero. -/
def IsElement (n : Nat) (e : Buf Byte) : Prop :=
  ∀ k, n ≤ k → k < 8 * ceilDivide n 8 → e.bit k = false

/-- Equal address and equal stored value come from equal elements, for any table
contents, any hash function and any two elements followed by the same bytes. -/
def LosesNothing (n N : Nat) : Prop :=
  ∀ (hf : Nat → Nat → Nat → BitVec 32) (hs : HashingState), initHashingState n N hf = some hs →
    ∀ i < numHashFunctions, ∀ (e e' : Buf Byte) (address address' : Buf Nat) (v v' : Buf Byte),
      IsElement n e → IsElement n e' → (∀ j, hs.inbytelen ≤ j → e j = e' j) →
      (hs.hashElement e address v).address i = (hs.hashElement e' address' v').address i →
      (∀ j < hs.outbytelen,
        (hs.hashElement e address v).val j = (hs.hashElement e' address' v').val j) →
      ∀ j < hs.inbytelen, e j = e' j

/-- The widths at which nothing is lost: the bins reach `2 ^ a`; an element of up to three
bytes fits a word together with its address bits, or these are at least sixteen; and the
last byte of an element of over four bytes is copied and not cut. -/
def Lossless (n N : Nat) : Prop :=
  let a := addrbits n N
  let r := (n - 1) % 8 + 1
  2 ^ a ≤ N ∧ (n ≤ 24 → n + a ≤ 32 ∨ 16 ≤ a) ∧
    (32 < n → a % 8 ≤ r ∧ ((r = 8 ∧ a % 8 = 0) ∨ r + (r - a % 8 + 1) % 4 ≤ 8))

variable {hs : HashingState} {n N : Nat}

theorem IsElement.outside (hB : hs.Built n N) {e e' : Buf Byte} (he : IsElement n e)
    (he' : IsElement n e') (ho : ∀ j, hs.inbytelen ≤ j → e j = e' j) {k : Nat} (hk : n ≤ k) :
    e.bit k = e'.bit k := by
  rw [hB.inbytelen_eq] at ho
  by_cases hb : k < 8 * ((n + 7) / 8)
  · rw [he k hk (by rw [ceilDivide_eight]; exact hb), he' k hk (by rw [ceilDivide_eight]; exact hb)]
  · rw [bit, bit, ho _ (by omega)]

/-! ## Nothing is lost -/

/-- The floor logarithm is the ceiling one when the bins reach `2 ^ a`. -/
theorem floorLog2_eq_addrbits (h2 : 2 ≤ N) (hN : N < 2 ^ 31) (hn : 32 < n)
    (hp : 2 ^ addrbits n N ≤ N) : min (floorLog2 N) n = addrbits n N := by
  have hc : addrbits n N = ceilLog2 N := by
    have := addrbits_lt (n := n) h2 hN
    unfold addrbits at *
    omega
  rw [hc] at hp
  rw [(floorLog2_eq_ceilLog2_iff h2).mpr hp]
  rfl

/-- The stored value determines every bit of the element above the address bits. -/
theorem bit_eq_of_value_eq (hB : hs.Built n N) (h2 : 2 ≤ N) (hN : N < 2 ^ 31)
    (hL : Lossless n N) {e e' v v' : Buf Byte} (hout : ∀ k, n ≤ k → e.bit k = e'.bit k)
    (hv : ∀ j < hs.outbytelen, hs.value e v j = hs.value e' v' j) {k : Nat}
    (hk : addrbits n N ≤ k) : e.bit k = e'.bit k := by
  obtain ⟨hp, hshort, hlong⟩ := hL
  have hle := addrbits_le n N
  have ha := addrbits_lt (n := n) h2 hN
  rw [hB.outbytelen_eq, eq_iff_bit] at hv
  by_cases hkn : n ≤ k
  · exact hout k hkn
  by_cases hn : n ≤ 32
  · -- the bit is bit `k - a` of the high part, which the mask keeps
    have hkm : k - addrbits n N < maskbits n N := by
      unfold maskbits
      split
      · next h24 =>
          have := hshort h24
          split
          · split <;> omega
          · omega
      · omega
    have h := hv (k - addrbits n N) (by omega)
    rw [bit_value_short hB hn, bit_value_short hB hn, if_pos (by omega), if_pos (by omega),
      testBit_right hB ha.le, testBit_right hB ha.le, Nat.sub_add_cancel hk] at h
    simpa [show k < 32 by omega, hkm] using h
  · have hfl := floorLog2_eq_addrbits h2 hN (by omega) hp
    obtain ⟨htr, hcut⟩ := hlong (by omega)
    have hmask : maskbits n N = 32 := if_neg (by omega)
    by_cases hk32 : k < 32
    · -- the bit is in the word
      have h := hv (k - addrbits n N) (by omega)
      rw [bit_value_long hB (by omega) _ _ (by omega), bit_value_long hB (by omega) _ _ (by omega),
        hfl, if_neg (by omega), if_neg (by omega), testBit_right hB ha.le, testBit_right hB ha.le,
        Nat.sub_add_cancel hk, hmask] at h
      have hkept : Kept n N (k - addrbits n N) := Or.inl (by omega)
      simpa [hkept, hk32, show k - addrbits n N < 32 by omega] using h
    · -- the bit is in the copied tail
      have hpos : k - 32 + 8 * (4 - addrbits n N / 8) < 8 * ((n - addrbits n N) / 8 + 1) := by
        omega
      have hkept : Kept n N (k - 32 + 8 * (4 - addrbits n N / 8)) := by
        unfold Kept
        omega
      have h := hv _ hpos
      rw [bit_value_long hB (by omega) _ _ hpos, bit_value_long hB (by omega) _ _ hpos,
        hfl, if_pos (by omega), if_pos (by omega),
        show 32 + (k - 32 + 8 * (4 - addrbits n N / 8) - 8 * (4 - addrbits n N / 8)) = k by omega]
        at h
      rwa [decide_eq_true hkept, Bool.true_and, Bool.true_and] at h

theorem Lossless.losesNothing (h2 : 2 ≤ N) (hN : N < 2 ^ 31) (hL : Lossless n N) :
    LosesNothing n N := by
  intro hf hs hinit i hi e e' address address' v v' he he' ho haddr hval
  have hB := initHashingState_built hinit
  have ha := addrbits_lt (n := n) h2 hN
  have hhigh : ∀ k, addrbits n N ≤ k → e.bit k = e'.bit k := fun k hk =>
    bit_eq_of_value_eq hB h2 hN hL (fun k hk => he.outside hB he' ho hk) hval hk
  have hr : hs.right e = hs.right e' := right_congr hB ha.le fun k hk _ _ => hhigh k hk
  have hl : hs.left e = hs.left e' := by
    refine xor_mod_injective hL.1 (left_lt hB e) (left_lt hB e')
      (h := (hs.hfValues i (hs.nhfvals - 1) (hs.hfmaskaddr e)).toNat) ?_
    have : hs.addresses e address i = hs.addresses e' address' i := haddr
    rwa [address_eq hB _ _ hi, address_eq hB _ _ hi,
      show hs.hfmaskaddr e' = hs.hfmaskaddr e by rw [hfmaskaddr, hfmaskaddr, hr]] at this
  refine eq_iff_bit.mpr fun k _ => ?_
  by_cases hk : addrbits n N ≤ k
  · exact hhigh k hk
  · have h : (hs.left e).testBit k = (hs.left e').testBit k := by rw [hl]
    rw [testBit_left hB, testBit_left hB] at h
    simpa [show k < 32 by omega, show k < addrbits n N by omega] using h

/-! ## Where something is lost -/

theorem isElement_ofNatLE {w : Nat} (hw : w < 2 ^ n) : IsElement n (ofNatLE w) := by
  intro k hk _
  rw [bit_ofNatLE]
  exact Nat.testBit_lt_two_pow (lt_of_lt_of_le hw (Nat.pow_le_pow_right (by omega) hk))

/-- A number that hashes, under empty tables, like zero is zero if nothing is lost. -/
theorem LosesNothing.eq_zero (h : LosesNothing n N) (h2 : 2 ≤ N) (hN : N < 2 ^ 31) {w : Nat}
    (hw : w < 2 ^ n)
    (hl : ∀ hs : HashingState, hs.Built n N → hs.left (ofNatLE w) % N = 0)
    (hr : ∀ k, k + addrbits n N < 32 → k < maskbits n N → w.testBit (k + addrbits n N) = false)
    (ht : 32 < n → ∀ k < 8 * ((n - addrbits n N) / 8 + 1), Kept n N k →
      4 - min (floorLog2 N) n / 8 ≤ k / 8 →
        w.testBit (32 + (k - 8 * (4 - min (floorLog2 N) n / 8))) = false) : w = 0 := by
  -- with empty tables the address is that of the left part
  obtain ⟨hs, hinit⟩ := initHashingState_total (n := n) hN fun _ _ _ => 0#32
  have hB := initHashingState_built hinit
  have ha := addrbits_lt (n := n) h2 hN
  have hright : hs.right (ofNatLE w) = hs.right (ofNatLE 0) :=
    Nat.eq_of_testBit_eq fun k => by
      rw [testBit_right hB ha.le, testBit_right hB ha.le, bit_ofNatLE, bit_ofNatLE,
        Nat.zero_testBit]
      by_cases hk : k + addrbits n N < 32 ∧ k < maskbits n N
      · rw [hr k hk.1 hk.2]
      · rcases not_and_or.mp hk with h | h <;> simp [h]
  have hleft : hs.left (ofNatLE 0) = 0 := by
    refine Nat.eq_of_testBit_eq fun k => ?_
    rw [testBit_left hB, bit_ofNatLE]
    simp
  have hw8 : n ≤ 8 * ((n + 7) / 8) := by omega
  -- so it shares its address and its value with zero
  have heq := h _ hs hinit 0 (by decide) (ofNatLE w) (ofNatLE 0) (fun _ => 0) (fun _ => 0)
    (fun _ => 0) (fun _ => 0) (isElement_ofNatLE hw) (isElement_ofNatLE (Nat.two_pow_pos n))
    (fun j hj => byte_ext fun k hk => by
      rw [← bit_add _ _ _ hk, ← bit_add _ _ _ hk, bit_ofNatLE, bit_ofNatLE, Nat.zero_testBit]
      rw [hB.inbytelen_eq] at hj
      exact Nat.testBit_lt_two_pow
        (lt_of_lt_of_le hw (Nat.pow_le_pow_right (by omega) (by omega))))
    (by
      show hs.addresses _ _ 0 = hs.addresses _ _ 0
      rw [address_eq hB _ _ (by decide), address_eq hB _ _ (by decide),
        initHashingState_hfValues hinit, hleft]
      simpa using hl hs hB)
    (value_congr hB (outbytes_lt h2) _ _ (fun k _ _ => by rw [hright]) fun hn k hk hkept hc => by
      rw [bit_ofNatLE, bit_ofNatLE, Nat.zero_testBit]
      exact ht hn k hk hkept hc)
  rw [hB.inbytelen_eq, eq_iff_bit] at heq
  refine Nat.eq_of_testBit_eq fun k => ?_
  rw [Nat.zero_testBit]
  by_cases hk : k < n
  · have := heq k (by omega)
    rwa [bit_ofNatLE, bit_ofNatLE, Nat.zero_testBit] at this
  · exact Nat.testBit_lt_two_pow (lt_of_lt_of_le hw (Nat.pow_le_pow_right (by omega) (by omega)))

/-- A bin count below `2 ^ a` is itself an element that shares its bin with zero. -/
theorem LosesNothing.two_pow_le (h : LosesNothing n N) (h2 : 2 ≤ N) (hN : N < 2 ^ 31) :
    2 ^ addrbits n N ≤ N := by
  by_contra hlt
  have hlt : N < 2 ^ addrbits n N := Nat.not_le.mp hlt
  have hbit : ∀ k, addrbits n N ≤ k → N.testBit k = false := fun k hk =>
    Nat.testBit_lt_two_pow (lt_of_lt_of_le hlt (Nat.pow_le_pow_right (by omega) hk))
  have ha := addrbits_lt (n := n) h2 hN
  have hNn : N < 2 ^ n := lt_of_lt_of_le hlt (Nat.pow_le_pow_right (by omega) (addrbits_le n N))
  have hz : N = 0 := h.eq_zero h2 hN hNn
    (fun hs hB => by
      have : hs.left (ofNatLE N) = N := Nat.eq_of_testBit_eq fun k => by
        rw [testBit_left hB, bit_ofNatLE]
        by_cases hk : k < addrbits n N
        · simp [hk, show k < 32 by omega]
        · simp [hbit k (by omega)]
      rw [this, Nat.mod_self])
    (fun k _ _ => hbit _ (by omega))
    (fun _ k _ _ _ => hbit _ (by omega))
  omega

/-- The top bit of an element is kept somewhere. -/
theorem LosesNothing.top_bit (h : LosesNothing n N) (h2 : 2 ≤ N) (hN : N < 2 ^ 31)
    (hn : addrbits n N < n)
    (hr : n ≤ 32 → maskbits n N + addrbits n N < n)
    (ht : 32 < n → ∀ k < 8 * ((n - addrbits n N) / 8 + 1), Kept n N k →
      4 - min (floorLog2 N) n / 8 ≤ k / 8 →
        32 + (k - 8 * (4 - min (floorLog2 N) n / 8)) ≠ n - 1) : False := by
  have hbit : ∀ k, (2 ^ (n - 1)).testBit k = decide (n - 1 = k) := fun k => Nat.testBit_two_pow
  have hz : 2 ^ (n - 1) = 0 := h.eq_zero h2 hN (Nat.pow_lt_pow_right (by omega) (by omega))
    (fun hs hB => by
      have : hs.left (ofNatLE (2 ^ (n - 1))) = 0 := Nat.eq_of_testBit_eq fun k => by
        rw [testBit_left hB, bit_ofNatLE, hbit]
        by_cases hk : n - 1 = k
        · simp [show ¬ k < addrbits n N by omega]
        · simp [hk]
      rw [this, Nat.zero_mod])
    (fun k hk hm => by
      rw [hbit]
      refine decide_eq_false fun hk' => ?_
      by_cases h32 : n ≤ 32
      · have := hr h32
        omega
      · omega)
    (fun h32 k hk hkept hc => by
      rw [hbit]
      exact decide_eq_false fun he => ht h32 k hk hkept hc he.symm)
  exact absurd hz (Nat.two_pow_pos (n - 1)).ne'

theorem LosesNothing.lossless (h : LosesNothing n N) (h2 : 2 ≤ N) (hN : N < 2 ^ 31) :
    Lossless n N := by
  have hp := h.two_pow_le h2 hN
  have ha := addrbits_lt (n := n) h2 hN
  refine ⟨hp, fun h24 => ?_, fun h32 => ?_⟩
  · by_contra hc
    obtain ⟨h1, h16⟩ := not_or.mp hc
    refine h.top_bit h2 hN (by omega) (fun _ => ?_) (fun h32 => by omega)
    rw [maskbits, if_pos h24, if_neg h1]
    omega
  · by_contra hc
    have hfl := floorLog2_eq_addrbits h2 hN h32 hp
    refine h.top_bit h2 hN (by omega) (fun hle => by omega) (fun _ k hk hkept hge heq => hc ?_)
    rw [hfl] at hge heq
    unfold Kept at hkept
    omega

/-- **Permutation-based hashing, as the party sets it up, loses nothing exactly at the
lossless widths.** -/
theorem losesNothing_iff {setSize inbitlen : Nat} (hs : 0 < setSize)
    (hN : numOfBins setSize < 2 ^ 31) :
    LosesNothing inbitlen (numOfBins setSize) ↔ Lossless inbitlen (numOfBins setSize) :=
  ⟨fun h => h.lossless (two_le_numOfBins hs) hN,
    fun h => h.losesNothing (two_le_numOfBins hs) hN⟩

/-- Six elements of sixteen bits: eight bins, three address bits. -/
theorem losesNothing_sixteen_six : LosesNothing 16 (numOfBins 6) :=
  (losesNothing_iff (by decide) (by decide)).mpr
    ⟨by simp [addrbits, ceilLog2, targetLevel, numOfBins, ceilDivide],
      fun _ => Or.inl (by simp [addrbits, ceilLog2, targetLevel, numOfBins, ceilDivide]),
      fun h => absurd h (by decide)⟩

/-- Four elements of 32 bits: five bins, but three address bits, so that the elements
zero and five share bin and value. -/
theorem not_losesNothing_thirtytwo_four : ¬ LosesNothing 32 (numOfBins 4) := by
  intro h
  have := h.two_pow_le (by decide) (by decide)
  simp [addrbits, ceilLog2, targetLevel, numOfBins, ceilDivide] at this

end MultiPartyPSI
