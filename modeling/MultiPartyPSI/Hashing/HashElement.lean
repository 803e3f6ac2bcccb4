import MultiPartyPSI.Hashing.HashingUtil
import Mathlib.Data.Int.ModEq

/-!
# What hashing an element keeps and what it looks at

Two questions about `hashElement`, both about its widths only: can two different
elements end up in the same bin with the same value, and can the result depend on
bytes that are not the element's? Neither depends on the random tables in the end,
so both are answered by a condition on the element width `n` and the bin count `N`,
and each answer is an equivalence: where the condition fails, two elements are
exhibited.
-/

namespace MultiPartyPSI

open Lib Buf

namespace HashingState

variable {hs : HashingState} {n N : Nat}

/-! ## Addresses -/

/-- Numbers closer than `N` are told apart by their remainders. -/
theorem eq_of_mod_eq {u v : Nat} (h : u % N = v % N) (huv : u < v + N) (hvu : v < u + N) :
    u = v :=
  Nat.ModEq.eq_of_abs_lt (m := N) h (by rw [abs_lt]; omega)

/-- Adding the same word by exclusive or and reducing to `N` bins is one to one on the
numbers below a power of two that `N` reaches. -/
theorem xor_mod_injective {a x y h : Nat} (ha : 2 ^ a ≤ N) (hx : x < 2 ^ a) (hy : y < 2 ^ a)
    (he : (x ^^^ h) % N = (y ^^^ h) % N) : x = y := by
  -- exclusive or moves numbers below `2 ^ a` only within one window of that length
  have hwin : ∀ z < 2 ^ a, 2 ^ a * (h / 2 ^ a) + (z ^^^ h) % 2 ^ a = z ^^^ h := fun z hz => by
    have := Nat.div_add_mod (z ^^^ h) (2 ^ a)
    rwa [Nat.xor_div_two_pow, Nat.div_eq_of_lt hz, Nat.zero_xor] at this
  have hmx := Nat.mod_lt (x ^^^ h) (Nat.two_pow_pos a)
  have hmy := Nat.mod_lt (y ^^^ h) (Nat.two_pow_pos a)
  have hwx := hwin x hx
  have hwy := hwin y hy
  have hxe : x ^^^ h = y ^^^ h := eq_of_mod_eq he (by omega) (by omega)
  calc x = x ^^^ h ^^^ h := (Nat.xor_xor_cancel_right x h).symm
    _ = y := by rw [hxe, Nat.xor_xor_cancel_right]

theorem right_congr (hB : hs.Built n N) (ha : addrbits n N ≤ 32) {e e' : Buf Byte}
    (h : ∀ k, addrbits n N ≤ k → k < 32 → k - addrbits n N < maskbits n N →
      e.bit k = e'.bit k) : hs.right e = hs.right e' := by
  refine Nat.eq_of_testBit_eq fun k => ?_
  rw [testBit_right hB ha, testBit_right hB ha]
  by_cases hk : k + addrbits n N < 32 ∧ k < maskbits n N
  · rw [h _ (by omega) hk.1 (by omega)]
  · rcases not_and_or.mp hk with h | h <;> simp [h]

theorem left_congr (hB : hs.Built n N) {e e' : Buf Byte}
    (h : ∀ k < addrbits n N, k < 32 → e.bit k = e'.bit k) : hs.left e = hs.left e' := by
  refine Nat.eq_of_testBit_eq fun k => ?_
  rw [testBit_left hB, testBit_left hB]
  by_cases hk : k < 32 ∧ k < addrbits n N
  · rw [h k hk.2 hk.1]
  · rcases not_and_or.mp hk with h | h <;> simp [h]

/-- Elements with the same low and high part have the same addresses. -/
theorem address_congr (hB : hs.Built n N) {e e' : Buf Byte} (hl : hs.left e = hs.left e')
    (hr : hs.hfmaskaddr e = hs.hfmaskaddr e') (address address' : Buf Nat) {i : Nat}
    (hi : i < numHashFunctions) : hs.addresses e address i = hs.addresses e' address' i := by
  rw [address_eq hB _ _ hi, address_eq hB _ _ hi, hl, hr]

/-- What the stored values of two elements have to agree on to be equal. -/
theorem value_congr (hB : hs.Built n N) (hout : n ≤ 32 → (n - addrbits n N) / 8 < 4)
    {e e' : Buf Byte} (v v' : Buf Byte)
    (hr : ∀ k < 8 * ((n - addrbits n N) / 8 + 1), k < 32 →
      (hs.right e).testBit k = (hs.right e').testBit k)
    (ht : 32 < n → ∀ k < 8 * ((n - addrbits n N) / 8 + 1), Kept n N k →
      4 - min (floorLog2 N) n / 8 ≤ k / 8 →
        e.bit (32 + (k - 8 * (4 - min (floorLog2 N) n / 8)))
          = e'.bit (32 + (k - 8 * (4 - min (floorLog2 N) n / 8)))) :
    ∀ j < hs.outbytelen, hs.value e v j = hs.value e' v' j := by
  rw [hB.outbytelen_eq, eq_iff_bit]
  intro k hk
  by_cases hn : n ≤ 32
  · have := hout hn
    rw [bit_value_short hB hn, bit_value_short hB hn, if_pos (by omega), if_pos (by omega)]
    exact hr k hk (by omega)
  · rw [bit_value_long hB (by omega) e v hk, bit_value_long hB (by omega) e' v' hk]
    by_cases hkept : Kept n N k
    · congr 1
      split
      · next hc => exact ht (by omega) k hk hkept hc
      · exact hr k hk (by omega)
    · rw [decide_eq_false hkept, Bool.false_and, Bool.false_and]

/-- Short elements have a stored value of at most four bytes. -/
theorem outbytes_lt (h2 : 2 ≤ N) (hn : n ≤ 32) : (n - addrbits n N) / 8 < 4 := by
  rcases Nat.eq_zero_or_pos n with rfl | h
  · simp
  · have := addrbits_pos h h2
    omega

end HashingState

end MultiPartyPSI
