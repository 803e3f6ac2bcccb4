import MultiPartyPSI.Lib.BitMatrix

/-!
# Exchanging bits of two indices

A matrix whose row count is a power of two can be transposed in passes: pass `i` takes the
cell at row `r` and column `c` from the cell whose row and column have their bits `i`
exchanged. `splice` says where a cell comes from when the passes below `k` are done, and
`getBit_passes` follows the passes by it.

The second half is memory as 64-bit words. A word holds the bits of its bytes least
significant byte first, and `getBit` reads a byte from its most significant bit on, so bit
`t` of the matrix is bit `t ^^^ 7` of its word.
-/

namespace Lib

/-- `r` with its bit `i` from `c`. -/
def takeBit (i r c : Nat) : Nat := (r / 2 ^ i / 2 * 2 + c / 2 ^ i % 2) * 2 ^ i + r % 2 ^ i

/-- `r` with its bits below `k` from `c`. -/
def splice (k r c : Nat) : Nat := r / 2 ^ k * 2 ^ k + c % 2 ^ k

theorem takeBit_add (i r c : Nat) :
    takeBit i r c + r / 2 ^ i % 2 * 2 ^ i = r + c / 2 ^ i % 2 * 2 ^ i := by
  have hr : r / 2 ^ i / 2 * 2 + r / 2 ^ i % 2 = r / 2 ^ i := Nat.div_add_mod' _ 2
  calc takeBit i r c + r / 2 ^ i % 2 * 2 ^ i
      = (r / 2 ^ i / 2 * 2 + r / 2 ^ i % 2) * 2 ^ i + r % 2 ^ i + c / 2 ^ i % 2 * 2 ^ i := by
        unfold takeBit
        ring
    _ = r + c / 2 ^ i % 2 * 2 ^ i := by rw [hr, Nat.div_add_mod']

theorem takeBit_of_eq {i r c : Nat} (h : r / 2 ^ i % 2 = c / 2 ^ i % 2) : takeBit i r c = r := by
  have := takeBit_add i r c
  rw [h] at this
  exact Nat.add_right_cancel this

theorem takeBit_set {i r c : Nat} (hr : r / 2 ^ i % 2 = 0) (hc : c / 2 ^ i % 2 = 1) :
    takeBit i r c = r + 2 ^ i := by
  have := takeBit_add i r c
  rwa [hr, hc, Nat.zero_mul, Nat.add_zero, Nat.one_mul] at this

theorem takeBit_clear {i r c : Nat} (hr : r / 2 ^ i % 2 = 1) (hc : c / 2 ^ i % 2 = 0) :
    takeBit i r c + 2 ^ i = r := by
  have := takeBit_add i r c
  rwa [hr, hc, Nat.zero_mul, Nat.add_zero, Nat.one_mul] at this

/-- A number whose bit `i` is set is not below `2 ^ i`. -/
theorem two_pow_le_of_bit {i x : Nat} (h : x / 2 ^ i % 2 = 1) : 2 ^ i ≤ x := by
  refine Nat.not_lt.mp fun hlt => ?_
  rw [Nat.div_eq_of_lt hlt] at h
  exact absurd h (by decide)

theorem takeBit_div (i r c : Nat) : takeBit i r c / 2 ^ i = r / 2 ^ i / 2 * 2 + c / 2 ^ i % 2 := by
  rw [takeBit, Nat.mul_comm, Nat.mul_add_div (Nat.two_pow_pos i),
    Nat.div_eq_of_lt (Nat.mod_lt r (Nat.two_pow_pos i)), Nat.add_zero]

theorem takeBit_mod (i r c : Nat) : takeBit i r c % 2 ^ i = r % 2 ^ i := by
  rw [takeBit, Nat.mul_comm, Nat.mul_add_mod, Nat.mod_mod]

/-- A bit more. -/
theorem splice_takeBit (i r c : Nat) :
    splice i (takeBit i r c) (takeBit i c r) = splice (i + 1) r c := by
  have hc : c % 2 ^ (i + 1) = c % 2 ^ i + 2 ^ i * (c / 2 ^ i % 2) := Nat.mod_pow_succ
  rw [splice, splice, takeBit_div, takeBit_mod, hc, Nat.pow_succ, ← Nat.div_div_eq_div_mul]
  ring

theorem splice_zero (r c : Nat) : splice 0 r c = r := by
  rw [splice, Nat.pow_zero, Nat.div_one, Nat.mod_one, Nat.mul_one, Nat.add_zero]

/-- Exchanging bits below `n` stays within a multiple of `2 ^ n`. -/
theorem takeBit_lt {i n r : Nat} (c : Nat) {q : Nat} (hi : i < n) (hr : r < q * 2 ^ n) :
    takeBit i r c < q * 2 ^ n := by
  have hpow : 2 ^ n = 2 ^ i * (2 * 2 ^ (n - (i + 1))) := by
    rw [← Nat.mul_assoc, ← Nat.pow_succ, ← Nat.pow_add]
    congr 1
    omega
  -- the blocks of `2 ^ (i + 1)` cells stay where they are
  have hblock : r / 2 ^ i / 2 < q * 2 ^ (n - (i + 1)) := by
    rw [Nat.div_div_eq_div_mul, Nat.div_lt_iff_lt_mul (Nat.mul_pos (Nat.two_pow_pos i) Nat.two_pos)]
    calc r < q * 2 ^ n := hr
      _ = q * 2 ^ (n - (i + 1)) * (2 ^ i * 2) := by rw [hpow]; ring
  have hbit : c / 2 ^ i % 2 < 2 := Nat.mod_lt _ Nat.two_pos
  have hlow : r % 2 ^ i < 2 ^ i := Nat.mod_lt r (Nat.two_pow_pos i)
  have hcell : r / 2 ^ i / 2 * 2 + c / 2 ^ i % 2 + 1 ≤ q * 2 ^ (n - (i + 1)) * 2 := by omega
  calc takeBit i r c < (r / 2 ^ i / 2 * 2 + c / 2 ^ i % 2) * 2 ^ i + 2 ^ i :=
        Nat.add_lt_add_left hlow _
    _ = (r / 2 ^ i / 2 * 2 + c / 2 ^ i % 2 + 1) * 2 ^ i := (Nat.succ_mul _ _).symm
    _ ≤ q * 2 ^ (n - (i + 1)) * 2 * 2 ^ i := Nat.mul_le_mul_right _ hcell
    _ = q * 2 ^ n := by rw [hpow]; ring

namespace Buf

/-- Pass `f` exchanges bit `i` of the row with bit `i` of the column. -/
def ExchangesBit (f : Buf Byte → Buf Byte) (rows columns i : Nat) : Prop :=
  ∀ m, ∀ r < rows, ∀ c < columns,
    getBit (f m) (r * columns + c) = getBit m (takeBit i r c * columns + takeBit i c r)

/-- **The passes below `k` exchange the low `k` bits.** -/
theorem getBit_passes {f : Nat → Buf Byte → Buf Byte} {n q k : Nat} (hk : k ≤ n)
    (h : ∀ i < k, ExchangesBit (f i) (2 ^ n) (q * 2 ^ n) i) (m : Buf Byte) {r c : Nat}
    (hr : r < 2 ^ n) (hc : c < q * 2 ^ n) :
    getBit (loop f k m) (r * (q * 2 ^ n) + c)
      = getBit m (splice k r c * (q * 2 ^ n) + splice k c r) := by
  induction k generalizing r c with
  | zero => rw [loop_zero, splice_zero, splice_zero]
  | succ k ih =>
      have hr' : takeBit k r c < 1 * 2 ^ n := takeBit_lt c hk (by rwa [Nat.one_mul])
      rw [Nat.one_mul] at hr'
      rw [loop_succ, h k (Nat.lt_succ_self k) _ r hr c hc,
        ih (Nat.le_of_succ_le hk) (fun i hi => h i (Nat.lt_succ_of_lt hi)) hr'
          (takeBit_lt r hk hc), splice_takeBit, splice_takeBit]

/-! ## Words -/

/-- The 64-bit word at index `w`. -/
def word (m : Buf Byte) (w : Nat) : BitVec 64 := BitVec.ofNat 64 (loadLE m (8 * w) 8)

/-- A word stored at index `w`. -/
def setWord (m : Buf Byte) (w : Nat) (x : BitVec 64) : Buf Byte := storeLE m (8 * w) x.toNat 8

theorem getLsbD_word (m : Buf Byte) (w : Nat) {t : Nat} (ht : t < 64) :
    (word m w).getLsbD t = m.bit (64 * w + t) := by
  rw [word, BitVec.getLsbD_ofNat, testBit_loadLE, decide_eq_true ht, Bool.true_and, Bool.true_and,
    ← Nat.mul_assoc]

@[simp] theorem word_setWord_same (m : Buf Byte) (w : Nat) (x : BitVec 64) :
    word (setWord m w x) w = x := by
  refine BitVec.eq_of_getLsbD_eq fun t ht => ?_
  rw [getLsbD_word _ _ ht, setWord, bit_storeLE, if_pos (by omega), BitVec.testBit_toNat]
  congr 1
  omega

theorem word_setWord_ne (m : Buf Byte) {w w' : Nat} (x : BitVec 64) (h : w' ≠ w) :
    word (setWord m w x) w' = word m w' := by
  refine BitVec.eq_of_getLsbD_eq fun t ht => ?_
  rw [getLsbD_word _ _ ht, getLsbD_word _ _ ht, setWord, bit_storeLE, if_neg (by omega)]

/-- The bits of a byte the other way round. -/
theorem xor_seven_lt {t : Nat} (ht : t < 64) : t ^^^ 7 < 64 := Nat.xor_lt_two_pow (n := 6) ht
  (by decide)

/-- Bit `t` of a word of the matrix. -/
theorem getBit_word (m : Buf Byte) (w : Nat) {t : Nat} (ht : t < 64) :
    getBit m (64 * w + t) = (word m w).getLsbD (t ^^^ 7) := by
  have hbyte : ∀ t < 64, (t ^^^ 7) / 8 = t / 8 ∧ (t ^^^ 7) % 8 = 7 - t % 8 := by decide
  obtain ⟨hdiv, hmod⟩ := hbyte t ht
  rw [getLsbD_word m w (xor_seven_lt ht), bit, getBit,
    show (64 * w + (t ^^^ 7)) / 8 = (64 * w + t) / 8 by omega,
    show (64 * w + (t ^^^ 7)) % 8 = 7 - (64 * w + t) % 8 by omega, BitVec.getMsbD_eq_getLsbD,
    decide_eq_true (Nat.mod_lt _ (by decide)), Bool.true_and]

end Buf

end Lib
