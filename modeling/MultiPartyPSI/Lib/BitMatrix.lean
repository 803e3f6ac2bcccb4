import MultiPartyPSI.Lib.LittleEndian

/-!
# Matrices of bits

A block of bytes read as a matrix of bits, row after row, each byte from its most
significant bit on. Two rows of bytes are equal when their bits are, bulk operations act
bit by bit, and a transposition is known by where it takes each bit. `transpose` is the
transposition that moves the bits one at a time.
-/

namespace Lib

namespace Buf

/-- Bit `k` of a block, each byte read from its most significant bit. -/
def getBit (m : Buf Byte) (k : Nat) : Bool := (m (k / 8)).toBits.getMsbD (k % 8)

/-- The byte in which only bit `k % 8` is set. -/
def maskBit (k : Nat) : BitVec 8 := BitVec.twoPow 8 (7 - k % 8)

/-- Bit `k` replaced by `b`. -/
def setBit (m : Buf Byte) (k : Nat) (b : Bool) : Buf Byte :=
  m.write (k / 8) (XorVec.ofBits
    ((m (k / 8)).toBits &&& ~~~maskBit k ||| if b then maskBit k else 0#8))

theorem getBit_add (m : Buf Byte) (i k : Nat) (hk : k < 8) :
    getBit m (8 * i + k) = (m i).toBits.getMsbD k := by
  rw [getBit, show (8 * i + k) / 8 = i by omega, show (8 * i + k) % 8 = k by omega]

theorem getMsbD_maskBit (k i : Nat) (hi : i < 8) : (maskBit k).getMsbD i = decide (i = k % 8) := by
  rw [maskBit, BitVec.getMsbD_eq_getLsbD, BitVec.getLsbD_twoPow, decide_eq_true hi, Bool.true_and,
    decide_eq_true (by omega), Bool.true_and]
  exact decide_eq_decide.mpr (by omega)

theorem getBit_setBit (m : Buf Byte) (k : Nat) (b : Bool) (i : Nat) :
    getBit (setBit m k b) i = if i = k then b else getBit m i := by
  have hi : i % 8 < 8 := Nat.mod_lt i (by decide)
  unfold getBit setBit
  by_cases hb : i / 8 = k / 8
  · rw [hb, write_same, XorVec.toBits_ofBits, BitVec.getMsbD_or, BitVec.getMsbD_and,
      BitVec.getMsbD_not, getMsbD_maskBit k _ hi, decide_eq_true hi, Bool.true_and]
    by_cases hk : i = k
    · subst hk
      cases b <;> simp [getMsbD_maskBit i _ hi]
    · have : ¬ i % 8 = k % 8 := by omega
      cases b <;> simp [getMsbD_maskBit, hi, hk, this]
  · have : ¬ i = k := fun h => hb (by rw [h])
    rw [write_ne _ _ hb, if_neg this]

/-- Blocks with equal bits are equal. -/
theorem eq_of_getBit {m m' : Buf Byte} (h : ∀ k, getBit m k = getBit m' k) : m = m' := by
  funext i
  refine XorVec.toBits_injective (BitVec.eq_of_getMsbD_eq fun k hk => ?_)
  rw [← getBit_add m i k hk, ← getBit_add m' i k hk, h]

/-- A bit of a row, by the row. -/
theorem getBit_row {n j : Nat} (m : Buf Byte) (k : Nat) (hj : j < 8 * n) :
    getBit m (k * (8 * n) + j) = (row n m k ⟨j / 8, by omega⟩).toBits.getMsbD (j % 8) := by
  rw [show k * (8 * n) + j = 8 * (k * n + j / 8) + j % 8 by
      rw [Nat.mul_left_comm, Nat.mul_add, Nat.add_assoc, Nat.div_add_mod],
    getBit_add _ _ _ (Nat.mod_lt j (by decide)), row_apply]

/-- Equal rows have equal bits. -/
theorem getBit_congr_row {n k k' j : Nat} {m m' : Buf Byte} (h : row n m k = row n m' k')
    (hj : j < 8 * n) : getBit m (k * (8 * n) + j) = getBit m' (k' * (8 * n) + j) := by
  rw [getBit_row m k hj, getBit_row m' k' hj, h]

/-- A row is the sum of two others exactly when it is so bit by bit. -/
theorem row_eq_add_iff {n k k₁ k₂ : Nat} {m m₁ m₂ : Buf Byte} :
    row n m k = row n m₁ k₁ + row n m₂ k₂ ↔ ∀ j < 8 * n, getBit m (k * (8 * n) + j)
      = (getBit m₁ (k₁ * (8 * n) + j) ^^ getBit m₂ (k₂ * (8 * n) + j)) := by
  refine ⟨?_, ?_⟩
  · intro h j hj
    rw [getBit_row m k hj, getBit_row m₁ k₁ hj, getBit_row m₂ k₂ hj, h, Pi.add_apply,
      XorVec.toBits_add, BitVec.getMsbD_xor]
  · intro h
    funext p
    refine XorVec.toBits_injective (BitVec.eq_of_getMsbD_eq fun i hi => ?_)
    have hp := p.isLt
    have hj : 8 * p.val + i < 8 * n := by omega
    have e := h (8 * p + i) hj
    rw [getBit_row m k hj, getBit_row m₁ k₁ hj, getBit_row m₂ k₂ hj] at e
    simp only [Nat.mul_add_mod, Nat.mod_eq_of_lt hi, show (8 * p.val + i) / 8 = p by omega] at e
    rw [Pi.add_apply, XorVec.toBits_add, BitVec.getMsbD_xor]
    exact e

/-- Rows are equal when their bits are. -/
theorem row_eq_iff {n k k' : Nat} {m m' : Buf Byte} : row n m k = row n m' k'
    ↔ ∀ j < 8 * n, getBit m (k * (8 * n) + j) = getBit m' (k' * (8 * n) + j) := by
  refine ⟨fun h j hj => getBit_congr_row h hj, fun h => ?_⟩
  funext p
  refine XorVec.toBits_injective (BitVec.eq_of_getMsbD_eq fun i hi => ?_)
  have hp := p.isLt
  have hj : 8 * p.val + i < 8 * n := by omega
  have e := h (8 * p + i) hj
  rw [getBit_row m k hj, getBit_row m' k' hj] at e
  simp only [Nat.mul_add_mod, Nat.mod_eq_of_lt hi, show (8 * p.val + i) / 8 = p by omega] at e
  exact e

/-! ## Transposition -/

/-- `f` takes the `rows × columns` matrix in a block to the `columns × rows` matrix. -/
def Transposes (f : Buf Byte → Buf Byte) (rows columns : Nat) : Prop :=
  ∀ m, ∀ i < rows, ∀ j < columns, getBit (f m) (j * rows + i) = getBit m (i * columns + j)

/-- Transposition bit by bit, from a copy of the matrix. -/
def transpose (rows columns : Nat) (m : Buf Byte) : Buf Byte :=
  loop (fun i out => loop (fun j out =>
    setBit out (j * rows + i) (getBit m (i * columns + j))) columns out) rows m

theorem transpose_transposes (rows columns : Nat) :
    Transposes (transpose rows columns) rows columns := by
  intro m i hi j hj
  refine loop_settles (Q := fun i out =>
    getBit out (j * rows + i) = getBit m (i * columns + j)) rows ?_ ?_ hi
  · -- round `i` settles the bits of its row one by one
    intro i out hi
    refine loop_settles (Q := fun j out =>
      getBit out (j * rows + i) = getBit m (i * columns + j)) columns ?_ ?_ hj
    · intro j out _
      rw [getBit_setBit, if_pos rfl]
    · intro j c out hlt _ hout
      rw [getBit_setBit, if_neg fun he => Nat.ne_of_lt hlt (row_cell_inj hi hi he).1, hout]
  · -- and later rounds set other bits
    intro i r out hlt hr hout
    refine loop_induct (P := fun _ out =>
      getBit out (j * rows + i) = getBit m (i * columns + j)) columns hout ?_
    intro c out _ hout
    rw [getBit_setBit,
      if_neg fun he => Nat.ne_of_lt hlt (row_cell_inj (hlt.trans hr) hr he).2, hout]

/-- Behind the matrix nothing is set. -/
theorem getBit_transpose_of_le {rows columns : Nat} (m : Buf Byte) {k : Nat}
    (hk : columns * rows ≤ k) : getBit (transpose rows columns m) k = getBit m k := by
  refine loop_induct (P := fun _ out => getBit out k = getBit m k) rows rfl ?_
  intro i out hi hout
  refine loop_induct (P := fun _ out => getBit out k = getBit m k) columns hout ?_
  intro j out hj hout
  have hcell : j * rows + i < columns * rows :=
    (Nat.add_lt_add_left hi _).trans_le (row_end_le rows hj)
  rw [getBit_setBit, if_neg (by omega), hout]

end Buf

end Lib
