import MultiPartyPSI.Hashing.HashElement

/-!
# What hashing an element looks at

The elements of a party lie next to each other, and the last one ends where the
array does. `hashElement` loads whole words and copies a computed number of bytes,
so its result can depend on the neighbour, and two parties with different
neighbours then place a common element differently.

`LocalWidths` says exactly when it does not. The two ways to fail are a mask that is
shifted by `inbitlen + addrbitlen` instead of by what is left of the word, and a copy
that starts by the floor logarithm but ends by the ceiling one.
-/

namespace MultiPartyPSI

open Lib Buf HashingState

/-- Buffers that agree on the element's own bytes hash alike: same addresses, same bytes
of the value, whatever follows the element and whatever was in the two output arrays. -/
def LooksOnlyInside (n N : Nat) : Prop :=
  ∀ (hf : Nat → Nat → Nat → BitVec 32) (hs : HashingState), initHashingState n N hf = some hs →
    ∀ (e e' : Buf Byte) (address address' : Buf Nat) (v v' : Buf Byte),
      (∀ j < hs.inbytelen, e j = e' j) →
      (∀ i < numHashFunctions,
        (hs.hashElement e address v).address i = (hs.hashElement e' address' v').address i) ∧
      ∀ j < hs.outbytelen,
        (hs.hashElement e address v).val j = (hs.hashElement e' address' v').val j

/-- The widths at which nothing outside the element is looked at. With `a` address bits, an
element of up to three bytes is hashed by `k` bits of its high part: these lie inside it, or
at least the fourteen that select a table word and the stored ones do. A longer element must
not end, like the address, at a byte boundary while the bin count is `2 ^ a`. -/
def LocalWidths (n N : Nat) : Prop :=
  let a := addrbits n N
  let k := if n + a ≤ 32 then n + a else n + a - 32
  (n ≤ 24 → a + k ≤ 8 * ceilDivide n 8 ∨
    (a + 14 ≤ 8 * ceilDivide n 8 ∧ a + 8 * ((n - a) / 8 + 1) ≤ 8 * ceilDivide n 8)) ∧
  (32 < n → ¬ (8 ∣ n ∧ 8 ∣ a ∧ N = 2 ^ a))

variable {hs : HashingState} {n N : Nat}

theorem maskbits_short (hn : 0 < n) (h24 : n ≤ 24) :
    maskbits n N
      = if n + addrbits n N ≤ 32 then n + addrbits n N else n + addrbits n N - 32 := by
  rw [maskbits, if_pos h24]
  split
  · rw [if_neg (by omega)]
  · rfl

/-- How many whole bytes of a long element the address takes from the word. -/
theorem floorLog2_div_eight (h2 : 2 ≤ N) (hN : N < 2 ^ 31) (hn : 32 < n) :
    (¬ (8 ∣ addrbits n N ∧ N = 2 ^ addrbits n N) →
      min (floorLog2 N) n / 8 = (addrbits n N - 1) / 8) ∧
    (8 ∣ addrbits n N ∧ N = 2 ^ addrbits n N →
      min (floorLog2 N) n / 8 = addrbits n N / 8) := by
  have ha := addrbits_lt (n := n) h2 hN
  have hpos := addrbits_pos (n := n) (by omega) h2
  have hc : addrbits n N = ceilLog2 N := by
    unfold addrbits at *
    omega
  have hup := le_two_pow_ceilLog2 h2
  by_cases hp : N = 2 ^ ceilLog2 N
  · have := (floorLog2_eq_ceilLog2_iff h2).mpr hp.ge
    refine ⟨fun h => ?_, fun _ => by omega⟩
    rw [hc] at h
    have : ¬ 8 ∣ ceilLog2 N := fun h8 => h ⟨h8, hp⟩
    omega
  · have := floorLog2_add_one h2 (by omega)
    refine ⟨fun _ => by omega, fun h => absurd (hc ▸ h.2) hp⟩

/-- The bits that are stored of the end of a long element are its own, unless element and address
end at a byte boundary and the bin count is a power of two. -/
theorem keptBit_lt (h2 : 2 ≤ N) (hN : N < 2 ^ 31) (h32 : 32 < n)
    (hno : ¬ (8 ∣ n ∧ 8 ∣ addrbits n N ∧ N = 2 ^ addrbits n N)) {k : Nat}
    (hk : k < 8 * ((n - addrbits n N) / 8 + 1))
    (hc : 4 - min (floorLog2 N) n / 8 ≤ k / 8) :
    32 + (k - 8 * (4 - min (floorLog2 N) n / 8)) < 8 * ((n + 7) / 8) := by
  have ha := addrbits_lt (n := n) h2 hN
  have hpos := addrbits_pos (n := n) (by omega) h2
  obtain ⟨hf1, hf2⟩ := floorLog2_div_eight (n := n) h2 hN h32
  by_cases hboth : 8 ∣ addrbits n N ∧ N = 2 ^ addrbits n N
  · have hn8 : ¬ 8 ∣ n := fun h => hno ⟨h, hboth.1, hboth.2⟩
    have ha8 := hboth.1
    rw [hf2 hboth] at hc ⊢
    clear hf1 hf2 hboth hno hN
    omega
  · rw [hf1 hboth] at hc ⊢
    clear hf1 hf2 hboth hno hN
    omega

/-! ## Local widths -/

theorem LocalWidths.looksOnlyInside (hn : 0 < n) (h2 : 2 ≤ N) (hN : N < 2 ^ 31)
    (hL : LocalWidths n N) : LooksOnlyInside n N := by
  intro hf hs hinit e e' address address' v v' hagree
  obtain ⟨hshort, hlong⟩ := hL
  have hB := initHashingState_built hinit
  have ha := addrbits_lt (n := n) h2 hN
  have hle := addrbits_le n N
  have hpos := addrbits_pos hn h2
  rw [hB.inbytelen_eq, eq_iff_bit] at hagree
  rw [ceilDivide_eight] at hshort
  have hl : hs.left e = hs.left e' := left_congr hB fun k hk _ => hagree k (by omega)
  -- the bits of the high part that select a table word or are stored
  have hbits : ∀ k, k < maskbits n N → k + addrbits n N < 32 →
      k < 14 ∨ k < 8 * ((n - addrbits n N) / 8 + 1) →
      (hs.right e).testBit k = (hs.right e').testBit k := by
    intro k hk h32 huse
    rw [testBit_right hB ha.le, testBit_right hB ha.le, hagree]
    by_cases h24 : n ≤ 24
    · have hbytes := hshort h24
      rw [← maskbits_short hn h24] at hbytes
      -- all bits of the high part are the element's, or those that are used
      rcases hbytes with hall | hused
      · omega
      · omega
    · omega
  have hbits' : ∀ k, k < 14 ∨ k < 8 * ((n - addrbits n N) / 8 + 1) →
      (hs.right e).testBit k = (hs.right e').testBit k := by
    intro k huse
    by_cases hk : k < maskbits n N ∧ k + addrbits n N < 32
    · exact hbits k hk.1 hk.2 huse
    · rw [testBit_right hB ha.le, testBit_right hB ha.le]
      rcases not_and_or.mp hk with h | h <;> simp [h]
  have hmaskaddr : hs.hfmaskaddr e = hs.hfmaskaddr e' := by
    refine Nat.eq_of_testBit_eq fun k => ?_
    rw [hfmaskaddr, hfmaskaddr, Nat.testBit_mod_two_pow, Nat.testBit_mod_two_pow,
      show (4 : Nat) = 2 ^ 2 by rfl, Nat.testBit_mul_two_pow, Nat.testBit_mul_two_pow]
    by_cases hk : k < 16
    · rw [hbits' (k - 2) (Or.inl (by omega))]
    · simp [hk]
  refine ⟨fun i hi => address_congr hB hl hmaskaddr _ _ hi, ?_⟩
  refine value_congr hB (outbytes_lt h2) _ _ (fun k hk _ => hbits' k (Or.inr hk)) ?_
  intro h32 k hk _ hc
  exact hagree _ (keptBit_lt h2 hN h32 (hlong h32) hk hc)

/-! ## Widths that are not local -/

/-- Two numbers that agree on the element's bytes and differ right behind them. -/
theorem agree_ofNatLE {m : Nat} (hm : 8 * ((n + 7) / 8) ≤ m) :
    ∀ j < (n + 7) / 8, ofNatLE 0 j = ofNatLE (2 ^ m) j :=
  eq_iff_bit.mpr fun k hk => by
    rw [bit_ofNatLE, bit_ofNatLE, Nat.zero_testBit, Nat.testBit_two_pow]
    exact (decide_eq_false (by omega)).symm

/-- A word table that tells apart only whether the index is zero. -/
def probe : Nat → Nat → Nat → BitVec 32 := fun _ _ k => if k = 0 then 0#32 else 1#32

theorem left_ofNatLE_zero (hB : hs.Built n N) : hs.left (ofNatLE 0) = 0 := by
  refine Nat.eq_of_testBit_eq fun k => ?_
  rw [testBit_left hB, bit_ofNatLE]
  simp

theorem right_ofNatLE_zero (hB : hs.Built n N) (ha : addrbits n N ≤ 32) :
    hs.right (ofNatLE 0) = 0 := by
  refine Nat.eq_of_testBit_eq fun k => ?_
  rw [testBit_right hB ha, bit_ofNatLE]
  simp

theorem left_ofNatLE_two_pow (hB : hs.Built n N) {m : Nat} (hm : addrbits n N ≤ m) :
    hs.left (ofNatLE (2 ^ m)) = 0 := by
  refine Nat.eq_of_testBit_eq fun k => ?_
  rw [testBit_left hB, bit_ofNatLE, Nat.testBit_two_pow]
  by_cases hb : m = k
  · simp [show ¬ k < addrbits n N by omega]
  · simp [hb]

theorem right_ofNatLE_two_pow (hB : hs.Built n N) {k : Nat} (h32 : k + addrbits n N < 32)
    (hk : k < maskbits n N) : hs.right (ofNatLE (2 ^ (k + addrbits n N))) = 2 ^ k := by
  refine Nat.eq_of_testBit_eq fun i => ?_
  rw [testBit_right hB (by omega), bit_ofNatLE, Nat.testBit_two_pow, Nat.testBit_two_pow]
  by_cases hi : k = i
  · subst hi
    simp [h32, hk]
  · simp [hi]

/-- What locality says of two elements that differ right behind their own bytes. -/
theorem LooksOnlyInside.probed (h : LooksOnlyInside n N) (hN : N < 2 ^ 31) :
    ∃ hs, initHashingState n N probe = some hs ∧ hs.Built n N ∧
      (∀ i < numHashFunctions, hs.addresses (ofNatLE 0) (fun _ => 0) i
        = hs.addresses (ofNatLE (2 ^ (8 * ((n + 7) / 8)))) (fun _ => 0) i) ∧
      ∀ j < hs.outbytelen, hs.value (ofNatLE 0) (fun _ => 0) j
        = hs.value (ofNatLE (2 ^ (8 * ((n + 7) / 8)))) (fun _ => 0) j := by
  obtain ⟨hs, hinit⟩ := initHashingState_total (n := n) hN probe
  have hB := initHashingState_built hinit
  refine ⟨hs, hinit, hB, ?_⟩
  refine h _ hs hinit (ofNatLE 0) (ofNatLE (2 ^ (8 * ((n + 7) / 8)))) (fun _ => 0) (fun _ => 0)
    (fun _ => 0) (fun _ => 0) ?_
  rw [hB.inbytelen_eq]
  exact agree_ofNatLE le_rfl

/-- The bits that select a table word are bits of the element. -/
theorem LooksOnlyInside.address_bits (h : LooksOnlyInside n N) (hn : 0 < n) (h2 : 2 ≤ N)
    (hN : N < 2 ^ 31) (h24 : n ≤ 24) (hk : 8 * ((n + 7) / 8) < addrbits n N + maskbits n N) :
    addrbits n N + 14 ≤ 8 * ((n + 7) / 8) := by
  obtain ⟨hs, hinit, hB, haddr, -⟩ := h.probed hN
  have ha := addrbits_lt (n := n) h2 hN
  have hle := addrbits_le n N
  have hpos := addrbits_pos hn h2
  -- the first bit behind the element reaches the high part
  have hright := right_ofNatLE_two_pow hB (k := 8 * ((n + 7) / 8) - addrbits n N) (by omega)
    (by omega)
  rw [Nat.sub_add_cancel (by omega)] at hright
  by_contra hlt
  have h0 := haddr 0 (by decide)
  rw [address_eq hB _ _ (by decide), address_eq hB _ _ (by decide),
    initHashingState_hfValues hinit, hfmaskaddr, hfmaskaddr, hright,
    right_ofNatLE_zero hB ha.le, left_ofNatLE_zero hB, left_ofNatLE_two_pow hB (by omega)] at h0
  have hne : 2 ^ (8 * ((n + 7) / 8) - addrbits n N) * 4 % 2 ^ 16 ≠ 0 := by
    rw [show (4 : Nat) = 2 ^ 2 by rfl, ← pow_add, Nat.mod_eq_of_lt
      (Nat.pow_lt_pow_right (by omega) (by omega))]
    exact (Nat.two_pow_pos _).ne'
  rw [probe, if_pos (by decide), probe, if_neg hne] at h0
  simp only [Nat.zero_xor, BitVec.toNat_ofNat, Nat.zero_mod] at h0
  rw [Nat.mod_eq_of_lt (by omega), Nat.mod_eq_of_lt (by omega)] at h0
  omega

/-- The bits that are stored are bits of the element. -/
theorem LooksOnlyInside.value_bits (h : LooksOnlyInside n N) (hn : 0 < n) (h2 : 2 ≤ N)
    (hN : N < 2 ^ 31) (h24 : n ≤ 24) (hk : 8 * ((n + 7) / 8) < addrbits n N + maskbits n N) :
    addrbits n N + 8 * ((n - addrbits n N) / 8 + 1) ≤ 8 * ((n + 7) / 8) := by
  obtain ⟨hs, hinit, hB, -, hval⟩ := h.probed hN
  have ha := addrbits_lt (n := n) h2 hN
  have hle := addrbits_le n N
  have hpos := addrbits_pos hn h2
  have hright := right_ofNatLE_two_pow hB (k := 8 * ((n + 7) / 8) - addrbits n N) (by omega)
    (by omega)
  rw [Nat.sub_add_cancel (by omega)] at hright
  by_contra hlt
  rw [hB.outbytelen_eq, eq_iff_bit] at hval
  have h0 := hval (8 * ((n + 7) / 8) - addrbits n N) (by omega)
  rw [bit_value_short hB (by omega), bit_value_short hB (by omega), if_pos (by omega),
    if_pos (by omega), hright, right_ofNatLE_zero hB ha.le, Nat.zero_testBit,
    Nat.testBit_two_pow] at h0
  simp at h0

theorem LooksOnlyInside.long (h : LooksOnlyInside n N) (h2 : 2 ≤ N) (hN : N < 2 ^ 31)
    (h32 : 32 < n) : ¬ (8 ∣ n ∧ 8 ∣ addrbits n N ∧ N = 2 ^ addrbits n N) := by
  intro hexact
  obtain ⟨hn8, ha8, hp⟩ := hexact
  obtain ⟨hs, -, hB, -, hval⟩ := h.probed hN
  have ha := addrbits_lt (n := n) h2 hN
  have hfl := (floorLog2_div_eight (n := n) h2 hN h32).2 ⟨ha8, hp⟩
  rw [hB.outbytelen_eq, eq_iff_bit] at hval
  -- the last stored byte is the byte behind the element
  have hpos : 8 * ((n - addrbits n N) / 8) < 8 * ((n - addrbits n N) / 8 + 1) := by omega
  have hkept : Kept n N (8 * ((n - addrbits n N) / 8)) := Or.inr (by omega)
  have h0 := hval _ hpos
  rw [bit_value_long hB h32 _ _ hpos, bit_value_long hB h32 _ _ hpos, hfl, if_pos (by omega),
    if_pos (by omega), decide_eq_true hkept, bit_ofNatLE, bit_ofNatLE, Nat.zero_testBit,
    Nat.testBit_two_pow, decide_eq_true (by omega)] at h0
  simp at h0

theorem LooksOnlyInside.localWidths (h : LooksOnlyInside n N) (hn : 0 < n) (h2 : 2 ≤ N)
    (hN : N < 2 ^ 31) : LocalWidths n N := by
  refine ⟨fun h24 => ?_, h.long h2 hN⟩
  rw [ceilDivide_eight, ← maskbits_short hn h24]
  by_cases hk : addrbits n N + maskbits n N ≤ 8 * ((n + 7) / 8)
  · exact Or.inl hk
  · have hlt := Nat.lt_of_not_le hk
    exact Or.inr ⟨h.address_bits hn h2 hN h24 hlt, h.value_bits hn h2 hN h24 hlt⟩

end MultiPartyPSI
