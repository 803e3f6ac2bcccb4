import MultiPartyPSI.Lib.BitExchange
import MultiPartyPSI.Util.Typedefs

/-!
# The fast transposition

`EklundhBitTranspose` of `util/cbitvector.cpp`, with `MACHINE_SIZE_64`. The matrix is
transposed in passes over pairs of rows, row `r` and row `r + srcidx`. Up to word size the
two rows of a pair exchange bits of their words under a mask; the shift of a pass is the
other way round as long as it stays within bytes, whose bits are numbered from the other
end. From word size on they exchange whole words. That makes square blocks; when the matrix
has more columns than rows, its blocks are put one behind the other in the end.

The sides and the number of bits are `int`s in the source: it defines both transpositions for
fewer than `2 ^ 31` bits only.
-/

namespace MultiPartyPSI

open Lib Buf

section Model

/-- `TRANSPOSITION_MASKS`. -/
def transpositionMasks (i : Nat) : BitVec 64 :=
  [0x5555555555555555#64, 0x3333333333333333#64, 0x0F0F0F0F0F0F0F0F#64, 0x00FF00FF00FF00FF#64,
    0x0000FFFF0000FFFF#64, 0x00000000FFFFFFFF#64].getD i 0#64

/-- What `*rowaptr` becomes, from itself and `*rowbptr`. -/
def rowaWord (i : Nat) (rowa rowb : BitVec 64) : BitVec 64 :=
  let srcidx := 2 ^ i
  let mask := transpositionMasks i
  let invmask := ~~~mask
  if i > 2 then (rowa &&& mask) ^^^ ((rowb &&& mask) <<< srcidx)
  else (rowa &&& invmask) ^^^ ((rowb &&& invmask) >>> srcidx)

/-- What `*rowbptr` becomes, from itself and `temp_row`. -/
def rowbWord (i : Nat) (rowb tempRow : BitVec 64) : BitVec 64 :=
  let srcidx := 2 ^ i
  let mask := transpositionMasks i
  let invmask := ~~~mask
  if i > 2 then (rowb &&& invmask) ^^^ ((tempRow &&& invmask) >>> srcidx)
  else (rowb &&& mask) ^^^ ((tempRow &&& mask) <<< srcidx)

/-- Bits exchanged between `*rowaptr` and `*rowbptr`. -/
def exchangeBits (i rowaptr rowbptr : Nat) (m : Buf Byte) : Buf Byte :=
  let tempRow := word m rowaptr
  let m := setWord m rowaptr (rowaWord i (word m rowaptr) (word m rowbptr))
  setWord m rowbptr (rowbWord i (word m rowbptr) tempRow)

/-- Pass `i` on bit level. Both pointers have come `p` words since round `j` began. -/
def bitPass (rows offset i : Nat) (m : Buf Byte) : Buf Byte :=
  let destidx := offset * 2 ^ i
  loop (fun j => loop (fun p =>
    exchangeBits i (2 * destidx * j + p) (2 * destidx * j + p + destidx)) destidx)
    (rows / (2 ^ i * 2)) m

/-- `*rowaptr` and `*rowbptr` exchanged. -/
def exchangeWords (rowaptr rowbptr : Nat) (m : Buf Byte) : Buf Byte :=
  let tempRow := word m rowaptr
  let m := setWord m rowaptr (word m rowbptr)
  setWord m rowbptr tempRow

/-- Pass `i` on word level. -/
def wordPass (rows offset i : Nat) (m : Buf Byte) : Buf Byte :=
  let destidx := offset * 2 ^ i
  let swapoffset := 2 ^ (i - 6)
  loop (fun j => loop (fun p m =>
    if p % (2 * swapoffset) ≥ swapoffset then
      exchangeWords (2 * destidx * j + p) (2 * destidx * j + p + destidx - swapoffset) m
    else m) destidx) (rows / (2 ^ i * 2)) m

/-- The blocks, one behind the other. -/
def copyBlocks (rows columns offset : Nat) (m : Buf Byte) : Buf Byte :=
  let tempvec := copy (fun _ => 0) 0 m 0 (rows / 8 * columns)
  let rowbytesize := rows / 8
  let rowregsize := rows / (8 * 8)
  loop (fun i => loop (fun j m =>
    copy m (8 * ((i * rows + j) * rowregsize)) tempvec (8 * (i * rowregsize + j * offset))
      rowbytesize) rows) (columns / rows) m

/-- `EklundhBitTranspose`, where `LOG2_REGISTER_SIZE` is `ceil_log2(64)`. -/
def eklundhBitTranspose (rows columns : Nat) (m : Buf Byte) : Buf Byte :=
  let offset := (columns >>> 3) / 8
  let numiters := ceilLog2 rows
  let m := loop (bitPass rows offset) (ceilLog2 64) m
  let m := loop (fun i => wordPass rows offset (ceilLog2 64 + i)) (numiters - ceilLog2 64) m
  if columns > rows then copyBlocks rows columns offset m else m

/-- `SimpleTranspose`. -/
def simpleTranspose (rows columns : Nat) (m : Buf Byte) : Buf Byte :=
  let temp := copy (fun _ => 0) 0 m 0 (rows * columns / 8)
  loop (fun i m => loop (fun j m =>
    setBit m (j * rows + i) (getBit temp (i * columns + j))) columns m) rows m

end Model

/-! ## One pair of words -/

section Words

/-- A shift within bytes: bit `t` of the matrix is bit `t ^^^ 7` of its word. -/
theorem masks_of_le_two : ∀ i < 3, ∀ t < 64,
    (~~~transpositionMasks i).getLsbD (t ^^^ 7) = decide (t / 2 ^ i % 2 = 0)
    ∧ (~~~transpositionMasks i).getLsbD (2 ^ i + (t ^^^ 7)) = decide (t / 2 ^ i % 2 = 1)
    ∧ (transpositionMasks i).getLsbD (t ^^^ 7) = decide (t / 2 ^ i % 2 = 1)
    ∧ (!decide ((t ^^^ 7) < 2 ^ i) && (transpositionMasks i).getLsbD ((t ^^^ 7) - 2 ^ i))
      = decide (t / 2 ^ i % 2 = 0)
    ∧ (t / 2 ^ i % 2 = 1 → 2 ^ i + (t ^^^ 7) = (t - 2 ^ i) ^^^ 7)
    ∧ (t / 2 ^ i % 2 = 0 → (t ^^^ 7) - 2 ^ i = (t + 2 ^ i) ^^^ 7) := by
  decide +kernel

/-- A shift of whole bytes, in the passes behind the third. -/
theorem masks_add_three : ∀ i < 3, ∀ t < 64,
    (transpositionMasks (i + 3)).getLsbD (t ^^^ 7) = decide (t / 2 ^ (i + 3) % 2 = 0)
    ∧ (!decide ((t ^^^ 7) < 2 ^ (i + 3))
        && (transpositionMasks (i + 3)).getLsbD ((t ^^^ 7) - 2 ^ (i + 3)))
      = decide (t / 2 ^ (i + 3) % 2 = 1)
    ∧ (~~~transpositionMasks (i + 3)).getLsbD (t ^^^ 7) = decide (t / 2 ^ (i + 3) % 2 = 1)
    ∧ (~~~transpositionMasks (i + 3)).getLsbD (2 ^ (i + 3) + (t ^^^ 7))
      = decide (t / 2 ^ (i + 3) % 2 = 0)
    ∧ (t / 2 ^ (i + 3) % 2 = 1 → (t ^^^ 7) - 2 ^ (i + 3) = (t - 2 ^ (i + 3)) ^^^ 7)
    ∧ (t / 2 ^ (i + 3) % 2 = 0 → 2 ^ (i + 3) + (t ^^^ 7) = (t + 2 ^ (i + 3)) ^^^ 7) := by
  decide +kernel

variable {i t : Nat} (hi : i < 6) (ht : t < 64)

include hi ht

/-- The first row keeps the columns whose bit `i` is clear. -/
theorem getLsbD_rowaWord (rowa rowb : BitVec 64) :
    (rowaWord i rowa rowb).getLsbD (t ^^^ 7)
      = if t / 2 ^ i % 2 = 0 then rowa.getLsbD (t ^^^ 7)
        else rowb.getLsbD ((t - 2 ^ i) ^^^ 7) := by
  have hu := xor_seven_lt ht
  unfold rowaWord
  dsimp only
  split
  · next h2 =>
      obtain ⟨i, rfl⟩ : ∃ k, i = k + 3 := ⟨i - 3, by omega⟩
      obtain ⟨hkeep, htake, -, -, hpos, -⟩ := masks_add_three i (by omega) t ht
      rw [BitVec.getLsbD_xor, BitVec.getLsbD_and, BitVec.getLsbD_shiftLeft, BitVec.getLsbD_and,
        decide_eq_true hu, Bool.true_and, Bool.and_left_comm, htake, hkeep]
      rcases Nat.mod_two_eq_zero_or_one (t / 2 ^ (i + 3)) with h | h
      · simp [h]
      · simp [h, hpos h]
  · next h2 =>
      obtain ⟨hkeep, htake, -, -, hpos, -⟩ := masks_of_le_two i (by omega) t ht
      rw [BitVec.getLsbD_xor, BitVec.getLsbD_and, BitVec.getLsbD_ushiftRight, BitVec.getLsbD_and,
        htake, hkeep]
      rcases Nat.mod_two_eq_zero_or_one (t / 2 ^ i) with h | h
      · simp [h]
      · simp [h, hpos h]

/-- The second row keeps the others. -/
theorem getLsbD_rowbWord (rowb tempRow : BitVec 64) :
    (rowbWord i rowb tempRow).getLsbD (t ^^^ 7)
      = if t / 2 ^ i % 2 = 1 then rowb.getLsbD (t ^^^ 7)
        else tempRow.getLsbD ((t + 2 ^ i) ^^^ 7) := by
  have hu := xor_seven_lt ht
  unfold rowbWord
  dsimp only
  split
  · next h2 =>
      obtain ⟨i, rfl⟩ : ∃ k, i = k + 3 := ⟨i - 3, by omega⟩
      obtain ⟨-, -, hkeep, htake, -, hpos⟩ := masks_add_three i (by omega) t ht
      rw [BitVec.getLsbD_xor, BitVec.getLsbD_and, BitVec.getLsbD_ushiftRight, BitVec.getLsbD_and,
        htake, hkeep]
      rcases Nat.mod_two_eq_zero_or_one (t / 2 ^ (i + 3)) with h | h
      · simp [h, hpos h]
      · simp [h]
  · next h2 =>
      obtain ⟨-, -, hkeep, htake, -, hpos⟩ := masks_of_le_two i (by omega) t ht
      rw [BitVec.getLsbD_xor, BitVec.getLsbD_and, BitVec.getLsbD_shiftLeft, BitVec.getLsbD_and,
        decide_eq_true hu, Bool.true_and, Bool.and_left_comm, htake, hkeep]
      rcases Nat.mod_two_eq_zero_or_one (t / 2 ^ i) with h | h
      · simp [h, hpos h]
      · simp [h]

end Words

/-! ## One pass -/

section Passes

/-- Nested loops over pairs of words, `σ` words less than half a round apart. A word of a pair ends
as its visit leaves it, and every other word as it was. -/
theorem loop_pairs {d σ n : Nat} {A : Nat → Prop} {f : Nat → Nat → Buf Byte → Buf Byte}
    {v : Nat → BitVec 64} {s : Buf Byte} (hA : ∀ p, A p → σ ≤ p)
    (hnew : ∀ j p t, p < d → A p → word t (2 * d * j + p) = word s (2 * d * j + p) →
      word t (2 * d * j + p + d - σ) = word s (2 * d * j + p + d - σ) →
      word (f j p t) (2 * d * j + p) = v (2 * d * j + p)
        ∧ word (f j p t) (2 * d * j + p + d - σ) = v (2 * d * j + p + d - σ))
    (hkeep : ∀ j p t c, ¬ (A p ∧ (c = 2 * d * j + p ∨ c = 2 * d * j + p + d - σ)) →
      word (f j p t) c = word t c)
    (hrest : ∀ j c, 2 * d * j ≤ c → c < 2 * d * j + 2 * d →
      (∀ p < d, ¬ (A p ∧ (c = 2 * d * j + p ∨ c = 2 * d * j + p + d - σ))) → v c = word s c)
    {c : Nat} (hc : c < n * (2 * d)) : word (loop (fun j => loop (f j) d) n s) c = v c := by
  have hround : ∀ j t, (∀ c, 2 * d * j ≤ c ∧ c < 2 * d * j + 2 * d → word t c = word s c) →
      ∀ c, 2 * d * j ≤ c ∧ c < 2 * d * j + 2 * d → word (loop (f j) d t) c = v c := by
    intro j t ht c hc
    have h := loop_disjoint (f := f j) (g := word) (s := t) (v := v)
      (T := fun p c => A p ∧ (c = 2 * d * j + p ∨ c = 2 * d * j + p + d - σ)) d ?_
      (fun p u c _ hc => hkeep j p u c hc) ?_
    · by_cases hvisit : ∃ p < d, A p ∧ (c = 2 * d * j + p ∨ c = 2 * d * j + p + d - σ)
      · obtain ⟨p, hp, hp'⟩ := hvisit
        exact h.1 p hp c hp'
      · have hvisit : ∀ p < d, ¬ (A p ∧ (c = 2 * d * j + p ∨ c = 2 * d * j + p + d - σ)) :=
          fun p hp hp' => hvisit ⟨p, hp, hp'⟩
        rw [h.2 c hvisit, ht c hc, hrest j c hc.1 hc.2 hvisit]
    · rintro p u hp hu c ⟨hAp, hcell⟩
      have hσ := hA p hAp
      obtain ⟨ha, hb⟩ := hnew j p u hp hAp
        ((hu _ ⟨hAp, .inl rfl⟩).trans (ht _ (by omega)))
        ((hu _ ⟨hAp, .inr rfl⟩).trans (ht _ (by omega)))
      rcases hcell with rfl | rfl
      · exact ha
      · exact hb
    · rintro p p' c hp hp' ⟨hAp, hcell⟩ ⟨hAp', hcell'⟩
      have := hA p hAp
      have := hA p' hAp'
      omega
  have hd : 0 < 2 * d := Nat.pos_of_ne_zero fun h0 => by rw [h0] at hc; omega
  have hj : c / (2 * d) < n := Nat.div_lt_of_lt_mul (by rwa [Nat.mul_comm])
  refine (loop_disjoint (g := word) (v := v)
    (T := fun j c => 2 * d * j ≤ c ∧ c < 2 * d * j + 2 * d) n
    (fun j t _ ht => hround j t ht) ?_ ?_).1 _ hj c ?_
  · intro j t c _ hout
    refine loop_induct (P := fun _ u => word u c = word t c) d rfl fun p u hp hu => ?_
    rw [hkeep j p u c fun h => hout ?_, hu]
    have := hA p h.1
    omega
  · rintro j k c - - ⟨h1, h2⟩ ⟨h3, h4⟩
    have hlt : ∀ j k, 2 * d * j ≤ c → c < 2 * d * k + 2 * d → j < k + 1 := fun j k h h' =>
      Nat.lt_of_mul_lt_mul_left (a := 2 * d) (by rw [Nat.mul_succ]; omega)
    have := hlt j k h1 h4
    have := hlt k j h3 h2
    omega
  · have := Nat.div_add_mod c (2 * d)
    have := Nat.mod_lt c hd
    omega

/-- Behind the last round nothing is written. -/
theorem loop_pairs_frame {d σ n : Nat} {A : Nat → Prop} {f : Nat → Nat → Buf Byte → Buf Byte}
    (hA : ∀ p, A p → σ ≤ p)
    (hkeep : ∀ j p t c, ¬ (A p ∧ (c = 2 * d * j + p ∨ c = 2 * d * j + p + d - σ)) →
      word (f j p t) c = word t c) (s : Buf Byte) {c : Nat} (hc : n * (2 * d) ≤ c) :
    word (loop (fun j => loop (f j) d) n s) c = word s c := by
  refine loop_induct (P := fun _ t => word t c = word s c) n rfl fun j t hj ht => ?_
  refine loop_induct (P := fun _ t => word t c = word s c) d ht fun p t hp ht => ?_
  rw [hkeep j p t c fun h => ?_, ht]
  have := hA p h.1
  have : 2 * d * j + 2 * d ≤ n * (2 * d) := by
    rw [Nat.mul_comm (2 * d) j]
    exact row_end_le (2 * d) hj
  omega

theorem word_exchangeBits {i a b : Nat} (h : a ≠ b) (m : Buf Byte) :
    word (exchangeBits i a b m) a = rowaWord i (word m a) (word m b)
      ∧ word (exchangeBits i a b m) b = rowbWord i (word m b) (word m a) := by
  unfold exchangeBits
  dsimp only
  rw [word_setWord_ne _ _ h, word_setWord_same, word_setWord_same, word_setWord_ne _ _ h.symm]
  exact ⟨rfl, rfl⟩

theorem word_exchangeWords {a b : Nat} (h : a ≠ b) (m : Buf Byte) :
    word (exchangeWords a b m) a = word m b ∧ word (exchangeWords a b m) b = word m a := by
  unfold exchangeWords
  dsimp only
  rw [word_setWord_ne _ _ h, word_setWord_same, word_setWord_same]
  exact ⟨rfl, rfl⟩

/-- An iteration on bit level leaves other words alone. -/
theorem word_exchangeBits_ne {i a b c : Nat} (h : ¬ (True ∧ (c = a ∨ c = b))) (m : Buf Byte) :
    word (exchangeBits i a b m) c = word m c := by
  unfold exchangeBits
  dsimp only
  rw [word_setWord_ne _ _ fun hb => h ⟨trivial, .inr hb⟩,
    word_setWord_ne _ _ fun ha => h ⟨trivial, .inl ha⟩]

/-- So does one on word level. -/
theorem word_exchangeWords_ne {A : Prop} [Decidable A] {a b c : Nat}
    (h : ¬ (A ∧ (c = a ∨ c = b))) (m : Buf Byte) :
    word (if A then exchangeWords a b m else m) c = word m c := by
  split
  · next hA =>
      unfold exchangeWords
      dsimp only
      rw [word_setWord_ne _ _ fun hb => h ⟨hA, .inr hb⟩,
        word_setWord_ne _ _ fun ha => h ⟨hA, .inl ha⟩]
  · rfl

/-- A pass on bit level, word by word. -/
theorem word_bitPass {rows offset i : Nat} (m : Buf Byte) {w : Nat}
    (hw : w < rows / (2 ^ i * 2) * (2 * (offset * 2 ^ i))) :
    word (bitPass rows offset i m) w
      = if w / (offset * 2 ^ i) % 2 = 0 then
          rowaWord i (word m w) (word m (w + offset * 2 ^ i))
        else rowbWord i (word m w) (word m (w - offset * 2 ^ i)) := by
  unfold bitPass
  generalize offset * 2 ^ i = d at hw ⊢
  have hpair : ∀ j p : Nat, p < d →
      (2 * d * j + p) / d % 2 = 0 ∧ (2 * d * j + p + d) / d % 2 = 1 := by
    intro j p hp
    have hdiv : (2 * d * j + p) / d = 2 * j := by
      rw [show 2 * d * j = d * (2 * j) by ring, Nat.mul_add_div (by omega), Nat.div_eq_of_lt hp]
      rfl
    rw [Nat.add_div_right _ (by omega), hdiv]
    omega
  refine loop_pairs (σ := 0) (A := fun _ => True)
    (v := fun w => if w / d % 2 = 0 then rowaWord i (word m w) (word m (w + d))
      else rowbWord i (word m w) (word m (w - d))) (fun _ _ => Nat.zero_le _) ?_ ?_ ?_ hw
  · intro j p t hp _ ha hb
    obtain ⟨heven, hodd⟩ := hpair j p hp
    rw [Nat.sub_zero] at hb ⊢
    obtain ⟨hrowa, hrowb⟩ := word_exchangeBits (i := i)
      (show 2 * d * j + p ≠ 2 * d * j + p + d by omega) t
    rw [hrowa, hrowb, ha, hb, if_pos heven, if_neg (by omega), Nat.add_sub_cancel]
    exact ⟨rfl, rfl⟩
  · intro j p t c hc
    exact word_exchangeBits_ne hc t
  · intro j c hlow hup hnone
    exfalso
    rcases Nat.lt_or_ge c (2 * d * j + d) with h | h
    · exact hnone (c - 2 * d * j) (by omega) ⟨trivial, by omega⟩
    · exact hnone (c - 2 * d * j - d) (by omega) ⟨trivial, by omega⟩

/-- The upper half of every run of `2 * σ`. -/
theorem le_mod_iff {σ : Nat} (hσ : 0 < σ) (p : Nat) : p % (2 * σ) ≥ σ ↔ p / σ % 2 = 1 := by
  have hsplit : p % (2 * σ) = p % σ + σ * (p / σ % 2) := by rw [Nat.mul_comm 2, Nat.mod_mul]
  have hlow := Nat.mod_lt p hσ
  rw [hsplit]
  rcases Nat.mod_two_eq_zero_or_one (p / σ) with h | h
  · rw [h]
    omega
  · rw [h]
    omega

/-- A pass on word level, word by word. -/
theorem word_wordPass {rows offset i : Nat} (hi : 6 ≤ i) (m : Buf Byte) {w : Nat}
    (hw : w < rows / (2 ^ i * 2) * (2 * (offset * 2 ^ i))) :
    word (wordPass rows offset i m) w
      = if w / (offset * 2 ^ i) % 2 = 0 then
          if w / 2 ^ (i - 6) % 2 = 1 then word m (w + offset * 2 ^ i - 2 ^ (i - 6)) else word m w
        else if w / 2 ^ (i - 6) % 2 = 0 then word m (w + 2 ^ (i - 6) - offset * 2 ^ i)
        else word m w := by
  unfold wordPass
  obtain ⟨e, he⟩ : ∃ e, offset * 2 ^ i = 2 ^ (i - 6) * (2 * e) := by
    refine ⟨offset * 32, ?_⟩
    rw [show i = i - 6 + 6 by omega, Nat.pow_add, Nat.add_sub_cancel]
    ring
  have hσ : 0 < 2 ^ (i - 6) := Nat.two_pow_pos _
  dsimp only
  simp only [le_mod_iff hσ]
  generalize 2 ^ (i - 6) = σ at he hσ ⊢
  generalize offset * 2 ^ i = d at he hw ⊢
  -- the runs of `2 * σ` words start over in every round and in its second half
  have hup : ∀ j x : Nat, (2 * d * j + x) / σ % 2 = x / σ % 2 := by
    intro j x
    rw [show 2 * d * j = σ * (2 * (2 * e * j)) by rw [he]; ring, Nat.mul_add_div hσ,
      Nat.mul_add_mod]
  have hhalf : ∀ x, (x + d) / σ % 2 = x / σ % 2 := by
    intro x
    rw [he, Nat.add_comm, Nat.mul_add_div hσ, Nat.mul_add_mod]
  have hstep : ∀ x, (x + σ) / σ = x / σ + 1 := fun x => Nat.add_div_right x hσ
  have hround : ∀ j p : Nat, p < d → (2 * d * j + p) / d % 2 = 0 := by
    intro j p hp
    rw [show 2 * d * j = d * (2 * j) by ring, Nat.mul_add_div (by omega), Nat.div_eq_of_lt hp]
    omega
  have hround' : ∀ j p : Nat, p < d → (2 * d * j + d + p) / d % 2 = 1 := by
    intro j p hp
    rw [show 2 * d * j + d = d * (2 * j + 1) by ring, Nat.mul_add_div (by omega),
      Nat.div_eq_of_lt hp]
    omega
  have hA : ∀ p, p / σ % 2 = 1 → σ ≤ p := by
    intro p hp
    refine Nat.not_lt.mp fun hlt => ?_
    rw [Nat.div_eq_of_lt hlt] at hp
    omega
  refine loop_pairs (σ := σ) (A := fun p => p / σ % 2 = 1)
    (v := fun w => if w / d % 2 = 0 then
        if w / σ % 2 = 1 then word m (w + d - σ) else word m w
      else if w / σ % 2 = 0 then word m (w + σ - d) else word m w) hA ?_ ?_ ?_ hw
  · intro j p t hp hAp ha hb
    have hσp := hA p hAp
    have hlow : (p - σ) / σ % 2 = 0 := by
      have := hstep (p - σ)
      rw [Nat.sub_add_cancel hσp] at this
      omega
    have hne : 2 * d * j + p ≠ 2 * d * j + p + d - σ := by omega
    have hb' : 2 * d * j + p + d - σ = 2 * d * j + d + (p - σ) := by omega
    have hodd := hround' j (p - σ) (by omega)
    have hpos : (2 * d * j + d + (p - σ)) / σ % 2 = 0 := by
      rw [Nat.add_assoc, hup, Nat.add_comm, hhalf, hlow]
    obtain ⟨hrowa, hrowb⟩ := word_exchangeWords hne t
    rw [if_pos hAp, hrowa, hrowb, ha, hb, hround j p hp, if_pos rfl, hup, if_pos hAp, hb',
      if_neg (by omega), if_pos hpos]
    refine ⟨rfl, congrArg (word m) ?_⟩
    omega
  · intro j p t c hc
    exact word_exchangeWords_ne hc t
  · intro j c hlow hup' hnone
    rcases Nat.lt_or_ge c (2 * d * j + d) with h | h
    · obtain ⟨x, rfl⟩ := Nat.exists_eq_add_of_le hlow
      rw [hround j x (by omega), if_pos rfl, hup, if_neg fun hx => ?_]
      exact hnone x (by omega) ⟨hx, .inl rfl⟩
    · obtain ⟨x, rfl⟩ := Nat.exists_eq_add_of_le h
      rw [hround' j x (by omega), if_neg Nat.one_ne_zero, Nat.add_assoc, hup, Nat.add_comm d,
        hhalf, if_neg fun hx => ?_]
      -- the word that would be exchanged with this one is in the first half
      have hfit : x + σ < d := by
        have := Nat.div_add_mod x σ
        have := Nat.mod_lt x hσ
        have hlt : x / σ < 2 * e := Nat.div_lt_of_lt_mul (by rw [← he]; omega)
        have : σ * (x / σ) + 2 * σ ≤ σ * (2 * e) := by
          rw [Nat.mul_comm 2, ← Nat.mul_add]
          exact Nat.mul_le_mul_left σ (by omega)
        omega
      refine hnone (x + σ) hfit ⟨by rw [hstep]; omega, .inr ?_⟩
      omega

end Passes

/-! ## What a pass exchanges -/

section Exchange

variable {n o i : Nat}

/-- A cell of the matrix, by its word. -/
theorem getBit_cell (m : Buf Byte) (r w : Nat) {t : Nat} (ht : t < 64) :
    getBit m (r * (64 * o) + (64 * w + t)) = (word m (r * o + w)).getLsbD (t ^^^ 7) := by
  rw [← getBit_word m _ ht]
  congr 1
  ring

/-- The rounds of a pass go once through the matrix. -/
theorem rounds_eq (o : Nat) (hi : i < n) :
    2 ^ n / (2 ^ i * 2) * (2 * (o * 2 ^ i)) = 2 ^ n * o := by
  have hpow : 2 ^ n = 2 ^ (n - (i + 1)) * (2 ^ i * 2) := by
    rw [← Nat.pow_succ, ← Nat.pow_add]
    congr 1
    omega
  rw [hpow, Nat.mul_div_cancel _ (Nat.mul_pos (Nat.two_pow_pos i) Nat.two_pos)]
  ring

theorem cell_lt_rounds (hi : i < n) {r w : Nat} (hr : r < 2 ^ n) (hw : w < o) :
    r * o + w < 2 ^ n / (2 ^ i * 2) * (2 * (o * 2 ^ i)) := by
  rw [rounds_eq o hi]
  exact (Nat.add_lt_add_left hw _).trans_le (row_end_le o hr)

/-- Which half of a round a word is in, by its row. -/
theorem cell_half (i : Nat) {r w : Nat} (hw : w < o) :
    (r * o + w) / (o * 2 ^ i) = r / 2 ^ i := by
  rw [← Nat.div_div_eq_div_mul, Nat.mul_comm r, Nat.mul_add_div (by omega), Nat.div_eq_of_lt hw,
    Nat.add_zero]

theorem exchangesBit_bitPass (hi6 : i < 6) (hi : i < n) :
    ExchangesBit (bitPass (2 ^ n) o i) (2 ^ n) (64 * o) i := by
  intro m r hr c hc
  obtain ⟨w, t, ht, rfl⟩ : ∃ w t, t < 64 ∧ c = 64 * w + t :=
    ⟨c / 64, c % 64, Nat.mod_lt c (by decide), (Nat.div_add_mod c 64).symm⟩
  have hw : w < o := by omega
  -- the bit that is exchanged is one of the column within its word
  have hbit : (64 * w + t) / 2 ^ i % 2 = t / 2 ^ i % 2 := by
    have hpow : 64 * w = 2 ^ i * (2 * (2 ^ (5 - i) * w)) := by
      rw [← Nat.mul_assoc 2, ← Nat.pow_succ', ← Nat.mul_assoc, ← Nat.pow_add,
        show i + (5 - i + 1) = 6 by omega]
    rw [hpow, Nat.mul_add_div (Nat.two_pow_pos i), Nat.mul_add_mod]
  rw [getBit_cell _ r w ht, word_bitPass m (cell_lt_rounds hi hr hw), cell_half i hw]
  rcases Nat.mod_two_eq_zero_or_one (r / 2 ^ i) with hr2 | hr2 <;>
    rcases Nat.mod_two_eq_zero_or_one (t / 2 ^ i) with ht2 | ht2
  · rw [if_pos hr2, getLsbD_rowaWord hi6 ht, if_pos ht2, takeBit_of_eq (by omega),
      takeBit_of_eq (by omega), getBit_cell m r w ht]
  · -- from the row below the pair's first
    have hcol := takeBit_clear (hbit.trans ht2) hr2
    have ht' := two_pow_le_of_bit ht2
    rw [if_pos hr2, getLsbD_rowaWord hi6 ht, if_neg (by omega), takeBit_set hr2 (hbit.trans ht2),
      show takeBit i (64 * w + t) r = 64 * w + (t - 2 ^ i) by omega,
      getBit_cell m _ w ((Nat.sub_le t _).trans_lt ht)]
    congr 2
    ring
  · have hrow := takeBit_clear hr2 (hbit.trans ht2)
    have hfit : ∀ i < 6, ∀ t < 64, t / 2 ^ i % 2 = 0 → t + 2 ^ i < 64 := by decide
    rw [if_neg (by omega), getLsbD_rowbWord hi6 ht, if_neg (by omega),
      takeBit_set (hbit.trans ht2) hr2, Nat.add_assoc,
      getBit_cell m _ w (hfit i hi6 t ht ht2)]
    congr 2
    nth_rewrite 1 [← hrow]
    rw [Nat.add_mul, Nat.mul_comm o, Nat.add_right_comm, Nat.add_sub_cancel]
  · rw [if_neg (by omega), getLsbD_rowbWord hi6 ht, if_pos ht2, takeBit_of_eq (by omega),
      takeBit_of_eq (by omega), getBit_cell m r w ht]

theorem exchangesBit_wordPass (hi6 : 6 ≤ i) (hi : i < n) (ho : 2 ^ (i - 5) ∣ o) :
    ExchangesBit (wordPass (2 ^ n) o i) (2 ^ n) (64 * o) i := by
  intro m r hr c hc
  obtain ⟨w, t, ht, rfl⟩ : ∃ w t, t < 64 ∧ c = 64 * w + t :=
    ⟨c / 64, c % 64, Nat.mod_lt c (by decide), (Nat.div_add_mod c 64).symm⟩
  have hw : w < o := by omega
  have hpow : 2 ^ i = 64 * 2 ^ (i - 6) := by
    rw [show 64 = 2 ^ 6 by rfl, ← Nat.pow_add]
    congr 1
    omega
  -- the bit that is exchanged is one of the word's index
  have hbit : (64 * w + t) / 2 ^ i = w / 2 ^ (i - 6) := by
    rw [hpow, ← Nat.div_div_eq_div_mul, Nat.mul_add_div (by decide), Nat.div_eq_of_lt ht,
      Nat.add_zero]
  have hword : (r * o + w) / 2 ^ (i - 6) % 2 = w / 2 ^ (i - 6) % 2 := by
    obtain ⟨e, rfl⟩ := ho
    rw [show i - 5 = i - 6 + 1 by omega, Nat.pow_succ,
      show r * (2 ^ (i - 6) * 2 * e) = 2 ^ (i - 6) * (2 * (r * e)) by ring,
      Nat.mul_add_div (Nat.two_pow_pos _), Nat.mul_add_mod]
  rw [getBit_cell _ r w ht, word_wordPass hi6 m (cell_lt_rounds hi hr hw), cell_half i hw, hword]
  rcases Nat.mod_two_eq_zero_or_one (r / 2 ^ i) with hr2 | hr2 <;>
    rcases Nat.mod_two_eq_zero_or_one (w / 2 ^ (i - 6)) with hw2 | hw2
  · rw [if_pos hr2, if_neg (by omega), takeBit_of_eq (by rw [hbit, hr2, hw2]),
      takeBit_of_eq (by rw [hbit, hr2, hw2]), getBit_cell m r w ht]
  · have hcol := takeBit_clear ((congrArg (· % 2) hbit).trans hw2) hr2
    have hle := two_pow_le_of_bit hw2
    rw [if_pos hr2, if_pos hw2, takeBit_set hr2 ((congrArg (· % 2) hbit).trans hw2),
      show takeBit i (64 * w + t) r = 64 * (w - 2 ^ (i - 6)) + t by omega, getBit_cell m _ _ ht]
    congr 2
    rw [Nat.add_mul, Nat.mul_comm o, Nat.add_right_comm, Nat.add_sub_assoc hle]
  · have hrow := takeBit_clear hr2 ((congrArg (· % 2) hbit).trans hw2)
    rw [if_neg (by omega), if_pos hw2, takeBit_set ((congrArg (· % 2) hbit).trans hw2) hr2,
      show 64 * w + t + 2 ^ i = 64 * (w + 2 ^ (i - 6)) + t by omega, getBit_cell m _ _ ht]
    congr 2
    nth_rewrite 1 [← hrow]
    rw [Nat.add_mul, Nat.mul_comm o, Nat.add_assoc, Nat.add_right_comm, Nat.add_sub_cancel]
  · rw [if_neg (by omega), if_neg (by omega), takeBit_of_eq (by rw [hbit, hr2, hw2]),
      takeBit_of_eq (by rw [hbit, hr2, hw2]), getBit_cell m r w ht]

end Exchange

/-! ## All passes -/

section Passes

variable {n q : Nat}

/-- Behind the passes every square block is transposed. -/
theorem getBit_allPasses (hn : 6 ≤ n) (m : Buf Byte) {r c : Nat} (hr : r < 2 ^ n)
    (hc : c < q * 2 ^ n) :
    getBit (loop (fun i => wordPass (2 ^ n) (q * 2 ^ (n - 6)) (6 + i)) (n - 6)
        (loop (bitPass (2 ^ n) (q * 2 ^ (n - 6))) 6 m)) (r * (q * 2 ^ n) + c)
      = getBit m (c % 2 ^ n * (q * 2 ^ n) + (c / 2 ^ n * 2 ^ n + r)) := by
  have hcols : q * 2 ^ n = 64 * (q * 2 ^ (n - 6)) := by
    rw [show n = n - 6 + 6 by omega, Nat.pow_add, Nat.add_sub_cancel]
    ring
  let f := fun i => if i < 6 then bitPass (2 ^ n) (q * 2 ^ (n - 6)) i
    else wordPass (2 ^ n) (q * 2 ^ (n - 6)) i
  have hbits : loop (bitPass (2 ^ n) (q * 2 ^ (n - 6))) 6 m = loop f 6 m :=
    loop_congr 6 m fun i t hi => by rw [show f i = _ from if_pos hi]
  have hwords : ∀ m, loop (fun i => wordPass (2 ^ n) (q * 2 ^ (n - 6)) (6 + i)) (n - 6) m
      = loop (fun i => f (6 + i)) (n - 6) m := fun m =>
    loop_congr (n - 6) m fun i t _ => by rw [show f (6 + i) = _ from if_neg (by omega)]
  have hexch : ∀ i < n, ExchangesBit (f i) (2 ^ n) (q * 2 ^ n) i := by
    intro i hi
    by_cases hi6 : i < 6
    · rw [show f i = _ from if_pos hi6, hcols]
      exact exchangesBit_bitPass hi6 hi
    · rw [show f i = _ from if_neg hi6, hcols]
      refine exchangesBit_wordPass (Nat.not_lt.mp hi6) hi ?_
      exact Dvd.dvd.mul_left (Nat.pow_dvd_pow 2 (by omega)) q
  have hpasses := getBit_passes (Nat.le_refl n) hexch m hr hc
  rw [hbits, hwords, ← loop_add, Nat.add_sub_cancel' hn, hpasses, splice, splice,
    Nat.div_eq_of_lt hr, Nat.zero_mul, Nat.zero_add, Nat.mod_eq_of_lt hr]

/-- The passes stay within the matrix. -/
theorem getBit_allPasses_of_le (hn : 6 ≤ n) (m : Buf Byte) {k : Nat}
    (hk : 2 ^ n * (q * 2 ^ n) ≤ k) :
    getBit (loop (fun i => wordPass (2 ^ n) (q * 2 ^ (n - 6)) (6 + i)) (n - 6)
        (loop (bitPass (2 ^ n) (q * 2 ^ (n - 6))) 6 m)) k = getBit m k := by
  have hcols : 2 ^ n * (q * 2 ^ n) = 64 * (2 ^ n * (q * 2 ^ (n - 6))) := by
    nth_rewrite 2 [show n = n - 6 + 6 by omega]
    rw [Nat.pow_add]
    ring
  have hword : 2 ^ n * (q * 2 ^ (n - 6)) ≤ k / 64 := by omega
  have ht : k % 64 < 64 := Nat.mod_lt k (by decide)
  have hsame : word (loop (fun i => wordPass (2 ^ n) (q * 2 ^ (n - 6)) (6 + i)) (n - 6)
      (loop (bitPass (2 ^ n) (q * 2 ^ (n - 6))) 6 m)) (k / 64) = word m (k / 64) := by
    refine loop_induct (P := fun _ t => word t (k / 64) = word m (k / 64)) (n - 6) ?_ ?_
    · refine loop_induct (P := fun _ t => word t (k / 64) = word m (k / 64)) 6 rfl ?_
      intro i t hi ht
      refine (loop_pairs_frame (σ := 0) (A := fun _ => True) (fun _ _ => Nat.zero_le _)
        (fun j p t c hc => word_exchangeBits_ne hc t) t ?_).trans ht
      rwa [rounds_eq _ (by omega)]
    · intro i t hi ht
      refine (loop_pairs_frame (σ := 2 ^ (6 + i - 6))
        (A := fun p => p % (2 * 2 ^ (6 + i - 6)) ≥ 2 ^ (6 + i - 6))
        (fun p hp => hp.trans (Nat.mod_le p _))
        (fun j p t c hc => word_exchangeWords_ne hc t) t ?_).trans ht
      rwa [rounds_eq _ (by omega)]
  rw [← Nat.div_add_mod k 64, getBit_word _ _ ht, getBit_word _ _ ht, hsame]

end Passes

/-! ## The blocks in order -/

section Blocks

variable {n q : Nat}

/-- Rows of `2 ^ (n - 3)` bytes are copied. -/
theorem copyBlocks_eq (hn : 6 ≤ n) (m : Buf Byte) :
    copyBlocks (2 ^ n) (q * 2 ^ n) (q * 2 ^ (n - 6)) m
      = loop (fun i => loop (fun j t => copy t ((i * 2 ^ n + j) * 2 ^ (n - 3))
          (copy (fun _ => 0) 0 m 0 (2 ^ (n - 3) * (q * 2 ^ n))) ((j * q + i) * 2 ^ (n - 3))
          (2 ^ (n - 3))) (2 ^ n)) q m := by
  have hbytes : 2 ^ n / 8 = 2 ^ (n - 3) := by
    rw [show 8 = 2 ^ 3 by rfl, Nat.pow_div (by omega) Nat.two_pos]
  have hregs : 2 ^ n / (8 * 8) = 2 ^ (n - 6) := by
    rw [show 8 * 8 = 2 ^ 6 by rfl, Nat.pow_div hn Nat.two_pos]
  have height : 8 * 2 ^ (n - 6) = 2 ^ (n - 3) := by
    rw [show 8 = 2 ^ 3 by rfl, ← Nat.pow_add]
    congr 1
    omega
  have hdst : ∀ i j, 8 * ((i * 2 ^ n + j) * 2 ^ (n - 6)) = (i * 2 ^ n + j) * 2 ^ (n - 3) := by
    intro i j
    rw [← height]
    ring
  have hsrc : ∀ i j, 8 * (i * 2 ^ (n - 6) + j * (q * 2 ^ (n - 6))) = (j * q + i) * 2 ^ (n - 3) := by
    intro i j
    rw [← height]
    ring
  unfold copyBlocks
  rw [hbytes, hregs, Nat.mul_div_cancel q (Nat.two_pow_pos n)]
  simp only [hdst, hsrc]

/-- A row of the result is a row of one block. -/
theorem row_copyBlocks (hn : 6 ≤ n) (m : Buf Byte) {i j : Nat} (hi : i < q) (hj : j < 2 ^ n) :
    row (2 ^ (n - 3)) (copyBlocks (2 ^ n) (q * 2 ^ n) (q * 2 ^ (n - 6)) m) (i * 2 ^ n + j)
      = row (2 ^ (n - 3)) m (j * q + i) := by
  rw [copyBlocks_eq hn]
  generalize htemp : copy (fun _ => (0 : Byte)) 0 m 0 (2 ^ (n - 3) * (q * 2 ^ n)) = temp
  have hrow : row (2 ^ (n - 3)) temp (j * q + i) = row (2 ^ (n - 3)) m (j * q + i) := by
    rw [← htemp]
    refine row_copy_span _ _ ?_
    calc (j * q + i + 1) * 2 ^ (n - 3) ≤ 2 ^ n * q * 2 ^ (n - 3) :=
          Nat.mul_le_mul_right _ ((Nat.add_le_add_left hi (j * q)).trans (row_end_le q hj))
      _ = 2 ^ (n - 3) * (q * 2 ^ n) := by ring
  rw [row_loop_loop_copy (2 ^ (n - 3)) (2 ^ n) (fun _ _ => temp) (fun i j => j * q + i) m hi hj,
    hrow]

/-- Behind the last row nothing is copied. -/
theorem row_copyBlocks_of_le (hn : 6 ≤ n) (m : Buf Byte) {k : Nat} (hk : q * 2 ^ n ≤ k) :
    row (2 ^ (n - 3)) (copyBlocks (2 ^ n) (q * 2 ^ n) (q * 2 ^ (n - 6)) m) k
      = row (2 ^ (n - 3)) m k := by
  rw [copyBlocks_eq hn]
  refine loop_induct (P := fun _ (t : Buf Byte) => row (2 ^ (n - 3)) t k
    = row (2 ^ (n - 3)) m k) q rfl fun i t hi ht => ?_
  refine loop_induct (P := fun _ (t : Buf Byte) => row (2 ^ (n - 3)) t k
    = row (2 ^ (n - 3)) m k) (2 ^ n) ht fun j t hj ht => ?_
  have := row_end_le (2 ^ n) hi
  rw [row_copy_ne _ _ _ _ (by omega), ht]

end Blocks

/-! ## The whole transposition -/

section Transposition

variable {n : Nat}

/-- The constants of the code at a power of two. -/
theorem eklundhBitTranspose_eq_passes (hn : 6 ≤ n) (q : Nat) (m : Buf Byte) :
    eklundhBitTranspose (2 ^ n) (q * 2 ^ n) m
      = let t := loop (fun i => wordPass (2 ^ n) (q * 2 ^ (n - 6)) (6 + i)) (n - 6)
          (loop (bitPass (2 ^ n) (q * 2 ^ (n - 6))) 6 m)
        if 1 < q then copyBlocks (2 ^ n) (q * 2 ^ n) (q * 2 ^ (n - 6)) t else t := by
  have hlog : ∀ k, 1 ≤ k → ceilLog2 (2 ^ k) = k := fun k hk => by
    rw [ceilLog2_eq_clog (Nat.le_self_pow (by omega) 2), Nat.clog_pow 2 k Nat.one_lt_two]
  have hoffset : (q * 2 ^ n) >>> 3 / 8 = q * 2 ^ (n - 6) := by
    rw [Nat.shiftRight_eq_div_pow, Nat.div_div_eq_div_mul, show n = n - 6 + 6 by omega, Nat.pow_add,
      ← Nat.mul_assoc, Nat.mul_div_cancel _ (by decide), Nat.add_sub_cancel]
  have hmore : q * 2 ^ n > 2 ^ n ↔ 1 < q := by
    have := Nat.mul_lt_mul_right (Nat.two_pow_pos n) (b := 1) (c := q)
    rwa [Nat.one_mul] at this
  unfold eklundhBitTranspose
  rw [hoffset, hlog n (by omega), show ceilLog2 64 = 6 from hlog 6 (by decide)]
  exact if_congr hmore rfl rfl

theorem eight_mul_rowBytes (hn : 6 ≤ n) : 8 * 2 ^ (n - 3) = 2 ^ n := by
  rw [show 8 = 2 ^ 3 by rfl, ← Nat.pow_add]
  congr 1
  omega

/-- **The fast transposition transposes**, whatever the number of blocks. -/
theorem eklundhBitTranspose_transposes (hn : 6 ≤ n) (q : Nat) :
    Transposes (eklundhBitTranspose (2 ^ n) (q * 2 ^ n)) (2 ^ n) (q * 2 ^ n) := by
  intro m r hr c hc
  rw [eklundhBitTranspose_eq_passes hn]
  dsimp only
  split
  · next hq =>
      -- row `c` of the result is row `c % 2 ^ n` of block `c / 2 ^ n`
      have hb : c / 2 ^ n < q := Nat.div_lt_of_lt_mul (by rwa [Nat.mul_comm])
      have hj : c % 2 ^ n < 2 ^ n := Nat.mod_lt c (Nat.two_pow_pos n)
      have hrow := row_copyBlocks hn (loop (fun i => wordPass (2 ^ n) (q * 2 ^ (n - 6)) (6 + i))
        (n - 6) (loop (bitPass (2 ^ n) (q * 2 ^ (n - 6))) 6 m)) hb hj
      have hbit := getBit_congr_row hrow (j := r) (by rwa [eight_mul_rowBytes hn])
      have hblock := Nat.div_add_mod' c (2 ^ n)
      have hcell : c / 2 ^ n * 2 ^ n + r < q * 2 ^ n :=
        (Nat.add_lt_add_left hr _).trans_le (row_end_le _ hb)
      rw [eight_mul_rowBytes hn, hblock] at hbit
      rw [hbit, show (c % 2 ^ n * q + c / 2 ^ n) * 2 ^ n + r
        = c % 2 ^ n * (q * 2 ^ n) + (c / 2 ^ n * 2 ^ n + r) by ring,
        getBit_allPasses hn m hj hcell, Nat.mul_comm (c / 2 ^ n), Nat.mul_add_mod,
        Nat.mod_eq_of_lt hr, Nat.mul_add_div (Nat.two_pow_pos n), Nat.div_eq_of_lt hr,
        Nat.add_zero, hblock]
  · next hq =>
      obtain rfl : q = 1 := by
        have : q ≠ 0 := by
          rintro rfl
          omega
        omega
      have hc' : c < 2 ^ n := by rwa [Nat.one_mul] at hc
      have hcell := getBit_allPasses hn m hc' (q := 1) (c := r) (by rwa [Nat.one_mul])
      rw [Nat.mod_eq_of_lt hr, Nat.div_eq_of_lt hr, Nat.zero_mul, Nat.zero_add] at hcell
      rw [← hcell, Nat.one_mul, Nat.one_mul]

/-- It writes nothing behind the matrix. -/
theorem getBit_eklundhBitTranspose_of_le (hn : 6 ≤ n) (q : Nat) (m : Buf Byte) {k : Nat}
    (hk : 2 ^ n * (q * 2 ^ n) ≤ k) :
    getBit (eklundhBitTranspose (2 ^ n) (q * 2 ^ n) m) k = getBit m k := by
  rw [eklundhBitTranspose_eq_passes hn]
  dsimp only
  split
  · have hrow : q * 2 ^ n ≤ k / 2 ^ n := by
      rwa [Nat.le_div_iff_mul_le (Nat.two_pow_pos n), Nat.mul_comm]
    have hbit := getBit_congr_row (row_copyBlocks_of_le hn (loop (fun i =>
      wordPass (2 ^ n) (q * 2 ^ (n - 6)) (6 + i)) (n - 6)
        (loop (bitPass (2 ^ n) (q * 2 ^ (n - 6))) 6 m)) hrow) (j := k % 2 ^ n)
      (by rw [eight_mul_rowBytes hn]; exact Nat.mod_lt k (Nat.two_pow_pos n))
    rw [eight_mul_rowBytes hn, Nat.div_add_mod' k (2 ^ n)] at hbit
    rw [hbit, getBit_allPasses_of_le hn m hk]
  · exact getBit_allPasses_of_le hn m hk

/-- The plain transposition works on a copy, which is as long as the matrix. -/
theorem simpleTranspose_eq {rows columns : Nat} (h : 8 ∣ rows * columns) :
    simpleTranspose rows columns = transpose rows columns := by
  funext m
  refine loop_congr rows m fun i t hi => loop_congr columns t fun j t hj => ?_
  have hcell : i * columns + j < rows * columns :=
    (Nat.add_lt_add_left hj _).trans_le (row_end_le columns hi)
  rw [getBit, copy_apply, if_pos (by omega), getBit, Nat.zero_add, Nat.sub_zero]

/-- **The fast transposition is the plain one**, on all of memory. In the source this speaks of the
matrices whose number of bits is an `int`: of squares with a side up to `2 ^ 15`. -/
theorem eklundhBitTranspose_eq (hn : 6 ≤ n) (q : Nat) :
    eklundhBitTranspose (2 ^ n) (q * 2 ^ n) = simpleTranspose (2 ^ n) (q * 2 ^ n) := by
  have hbytes : 8 ∣ 2 ^ n * (q * 2 ^ n) :=
    Dvd.dvd.mul_right ⟨2 ^ (n - 3), (eight_mul_rowBytes hn).symm⟩ _
  rw [simpleTranspose_eq hbytes]
  funext m
  refine eq_of_getBit fun k => ?_
  rcases Nat.lt_or_ge k (2 ^ n * (q * 2 ^ n)) with hk | hk
  · -- bit `k` of the result is in column `k % 2 ^ n` of row `k / 2 ^ n`
    have hr : k % 2 ^ n < 2 ^ n := Nat.mod_lt k (Nat.two_pow_pos n)
    have hc : k / 2 ^ n < q * 2 ^ n := Nat.div_lt_of_lt_mul hk
    rw [← Nat.div_add_mod' k (2 ^ n), eklundhBitTranspose_transposes hn q m _ hr _ hc,
      transpose_transposes (2 ^ n) (q * 2 ^ n) m _ hr _ hc]
  · rw [getBit_eklundhBitTranspose_of_le hn q m hk,
      getBit_transpose_of_le m (by rwa [Nat.mul_comm])]

/-- The largest matrix of a batch. -/
theorem eklundhBitTranspose_eq_batch :
    eklundhBitTranspose (2 ^ 8) (1024 * 2 ^ 8) = simpleTranspose (2 ^ 8) (1024 * 2 ^ 8) :=
  eklundhBitTranspose_eq (by decide) 1024

end Transposition

end MultiPartyPSI
