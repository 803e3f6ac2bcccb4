import MultiPartyPSI.Lib.Buffer
import Mathlib.Data.Nat.Bitwise

/-!
# Words in memory

A block of bytes is also a string of bits, bit `k` being bit `k % 8` of byte
`k / 8`, and on a little-endian machine that reading is exact: loading a word
yields the next bits of the string in order, storing one replaces them, copying
bytes copies them. With that, code which loads a word, shifts and masks it and
stores it again is followed bit by bit, and nothing needs to be said about bytes.
-/

namespace Lib

namespace Buf

/-- Bit `k` of a block. -/
def bit (m : Buf Byte) (k : Nat) : Bool := (m (k / 8)).toBits.getLsbD (k % 8)

/-- `n` bytes loaded from offset `p` as one word. -/
def loadLE (m : Buf Byte) (p : Nat) : Nat → Nat
  | 0 => 0
  | n + 1 => 2 ^ 8 * loadLE m (p + 1) n + (m p).toBits.toNat

/-- The word `x` stored into `n` bytes from offset `p`. -/
def storeLE (m : Buf Byte) (p x n : Nat) : Buf Byte :=
  copy m p (fun i => XorVec.ofBits (BitVec.ofNat 8 (x >>> (8 * i)))) 0 n

/-- Two bytes are equal when their eight bits are. -/
theorem byte_ext {a b : Byte} (h : ∀ k < 8, a.toBits.getLsbD k = b.toBits.getLsbD k) : a = b :=
  XorVec.toBits_injective (BitVec.eq_of_getLsbD_eq h)

theorem bit_add (m : Buf Byte) (i k : Nat) (hk : k < 8) :
    m.bit (8 * i + k) = (m i).toBits.getLsbD k := by
  rw [bit, show (8 * i + k) / 8 = i by omega, show (8 * i + k) % 8 = k by omega]

/-- Blocks agree on their first `n` bytes when they agree on their first `8 * n` bits. -/
theorem eq_iff_bit {m m' : Buf Byte} {n : Nat} :
    (∀ i < n, m i = m' i) ↔ ∀ k < 8 * n, m.bit k = m'.bit k := by
  refine ⟨?_, ?_⟩
  · intro h k hk
    rw [bit, bit, h (k / 8) (by omega)]
  · intro h i hi
    refine byte_ext fun k hk => ?_
    rw [← bit_add m i k hk, ← bit_add m' i k hk]
    exact h _ (by omega)

/-- A load reads the bits of the block in order. -/
theorem testBit_loadLE (m : Buf Byte) (p n k : Nat) :
    (loadLE m p n).testBit k = (decide (k < 8 * n) && m.bit (8 * p + k)) := by
  induction n generalizing p k with
  | zero => simp [loadLE]
  | succ n ih =>
      rw [loadLE, Nat.testBit_two_pow_mul_add _ (m p).toBits.isLt]
      by_cases hk : k < 8
      · rw [if_pos hk, bit_add m p k hk, BitVec.testBit_toNat]
        simp [show k < 8 * (n + 1) by omega]
      · rw [if_neg hk, ih, show 8 * (p + 1) + (k - 8) = 8 * p + k by omega]
        simp [show k - 8 < 8 * n ↔ k < 8 * (n + 1) by omega]

/-- Equal bytes load as equal words. -/
theorem loadLE_congr {m m' : Buf Byte} {p q n : Nat} (h : ∀ i < n, m (p + i) = m' (q + i)) :
    loadLE m p n = loadLE m' q n := by
  induction n generalizing p q with
  | zero => rfl
  | succ n ih =>
      have hhead : m p = m' q := h 0 (Nat.succ_pos n)
      rw [loadLE, loadLE, hhead, ih fun i hi => ?_]
      rw [Nat.add_right_comm, Nat.add_assoc, Nat.add_right_comm q, Nat.add_assoc q]
      exact h (i + 1) (by omega)

/-- Copying bytes copies the bits they are made of. -/
theorem bit_copy (dst : Buf Byte) (p : Nat) (src : Buf Byte) (q n k : Nat) :
    (copy dst p src q n).bit k
      = if 8 * p ≤ k ∧ k < 8 * (p + n) then src.bit (8 * q + (k - 8 * p)) else dst.bit k := by
  rw [bit, copy_apply]
  by_cases h : 8 * p ≤ k ∧ k < 8 * (p + n)
  · rw [if_pos h, if_pos (by omega), bit,
      show (8 * q + (k - 8 * p)) / 8 = q + (k / 8 - p) by omega,
      show (8 * q + (k - 8 * p)) % 8 = k % 8 by omega]
  · rw [if_neg h, if_neg (by omega), bit]

/-- A store replaces the bits of the block by the word's, in order. -/
theorem bit_storeLE (m : Buf Byte) (p x n k : Nat) :
    (storeLE m p x n).bit k
      = if 8 * p ≤ k ∧ k < 8 * (p + n) then x.testBit (k - 8 * p) else m.bit k := by
  rw [storeLE, bit_copy]
  refine if_congr Iff.rfl ?_ rfl
  rw [bit, XorVec.toBits_ofBits, BitVec.getLsbD_ofNat, Nat.testBit_shiftRight,
    show 8 * ((8 * 0 + (k - 8 * p)) / 8) + (8 * 0 + (k - 8 * p)) % 8 = k - 8 * p by omega]
  simp [Nat.mod_lt]

/-- The block that holds the number `w`, least significant byte first. -/
def ofNatLE (w : Nat) : Buf Byte := fun i => XorVec.ofBits (BitVec.ofNat 8 (w >>> (8 * i)))

@[simp] theorem bit_ofNatLE (w k : Nat) : (ofNatLE w).bit k = w.testBit k := by
  rw [bit, ofNatLE, XorVec.toBits_ofBits, BitVec.getLsbD_ofNat, Nat.testBit_shiftRight,
    show 8 * (k / 8) + k % 8 = k by omega]
  simp [Nat.mod_lt]

/-- Loading what was stored. -/
theorem loadLE_ofNatLE {a n : ℕ} (h : a < 2 ^ (8 * n)) {m : Buf Byte} {p : ℕ}
    (hm : ∀ i < n, m (p + i) = ofNatLE a i) : loadLE m p n = a := by
  have hload : loadLE m p n = loadLE (ofNatLE a) 0 n :=
    loadLE_congr fun i hi => by rw [hm i hi, Nat.zero_add]
  rw [hload]
  refine Nat.eq_of_testBit_eq fun k => ?_
  rw [testBit_loadLE, Nat.mul_zero, Nat.zero_add, bit_ofNatLE]
  by_cases hk : k < 8 * n
  · rw [decide_eq_true hk, Bool.true_and]
  · rw [decide_eq_false hk, Bool.false_and, Nat.testBit_lt_two_pow
      (h.trans_le (Nat.pow_le_pow_right (by decide) (Nat.le_of_not_lt hk)))]

/-- A word of `n` bytes has no bits behind them. -/
theorem loadLE_lt (m : Buf Byte) (p n : ℕ) : loadLE m p n < 2 ^ (8 * n) := by
  refine Nat.lt_pow_two_of_testBit _ fun k hk => ?_
  rw [testBit_loadLE, decide_eq_false (Nat.not_lt.mpr hk), Bool.false_and]

/-- Loading and storing give the bytes back. -/
theorem ofNatLE_loadLE (m : Buf Byte) (p : ℕ) {n j : ℕ} (hj : j < n) :
    ofNatLE (loadLE m p n) j = m (p + j) := by
  refine byte_ext fun k hk => ?_
  rw [← bit_add _ j k hk, ← bit_add _ (p + j) k hk, bit_ofNatLE, testBit_loadLE,
    decide_eq_true (by omega : 8 * j + k < 8 * n), Bool.true_and]
  congr 1
  omega

/-- The low bytes of a loaded word. -/
theorem loadLE_mod (m : Buf Byte) (p : Nat) {k n : Nat} (hk : k ≤ n) :
    loadLE m p n % 2 ^ (8 * k) = loadLE m p k := by
  refine Nat.eq_of_testBit_eq fun i => ?_
  rw [Nat.testBit_mod_two_pow, testBit_loadLE, testBit_loadLE, ← Bool.and_assoc]
  congr 1
  by_cases hi : i < 8 * k
  · rw [decide_eq_true hi, decide_eq_true (hi.trans_le (Nat.mul_le_mul_left 8 hk))]
    rfl
  · rw [decide_eq_false hi, Bool.false_and]

/-- A load of fewer bytes with zeros behind them. -/
theorem loadLE_of_zero {m src : Buf Byte} {p q l n : Nat} (hl : l ≤ n)
    (hsrc : ∀ i < l, m (p + i) = src (q + i)) (hzero : ∀ i, l ≤ i → i < n → m (p + i) = 0) :
    loadLE m p n = loadLE src q l := by
  refine Nat.eq_of_testBit_eq fun k => ?_
  rw [testBit_loadLE, testBit_loadLE]
  by_cases hk : k < 8 * l
  · have hbyte := hsrc (k / 8) (by omega)
    rw [decide_eq_true hk, decide_eq_true (hk.trans_le (Nat.mul_le_mul_left 8 hl)), bit, bit,
      show (8 * p + k) / 8 = p + k / 8 by omega, show (8 * q + k) / 8 = q + k / 8 by omega, hbyte,
      show (8 * p + k) % 8 = (8 * q + k) % 8 by omega]
  · rw [decide_eq_false hk, Bool.false_and]
    by_cases hn : k < 8 * n
    · rw [decide_eq_true hn, Bool.true_and, bit, show (8 * p + k) / 8 = p + k / 8 by omega,
        hzero (k / 8) (by omega) (by omega)]
      exact BitVec.getLsbD_zero
    · rw [decide_eq_false hn, Bool.false_and]

end Buf

end Lib
