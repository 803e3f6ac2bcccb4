import MultiPartyPSI.Util.CBitVector
import MultiPartyPSI.Util.Typedefs

/-!
# The matrices of the OT extension

`ot-extension-1oon-ecc.cpp`, where `AES256_HASH` is not defined. For a batch of OTs both
parties fill a matrix of `m_nCodeWordBits` rows and a column for each OT. The receiver fills
`T` from the first key of every base OT, and sends `T`, the second key's stream and the code
words of its choices, added up. The sender fills `Q` from the key it chose, and adds what it
received to the rows in which its choice bit is set.

`row_batch` is what the code words are for: behind the transposition, row `j` of `Q` is row
`j` of `T` with the chosen code word added where the choice bits are set.
-/

namespace MultiPartyPSI

open Lib Buf

/-- `m_nCodeWordBits`. -/
abbrev codeWordBits : Nat := 256

/-- `m_nCodeWordBytes`. -/
abbrev codeWordBytes : Nat := 32

/-- `AES_BYTES`, which is also `OTEXT_BLOCK_SIZE_BYTES`. -/
abbrev aesBytes : Nat := 16

/-- What both parties compute with, for keys of type `Key`. -/
structure OtCrypto (Key : Type*) where
  /-- `encrypt(key, out, ctr_buf, AES_BYTES)`, the block for a counter. -/
  encrypt : Key → Nat → Buf Byte
  /-- `hash`, of the bytes of `tmpbuf`. -/
  hash : (Fin (8 + codeWordBytes) → Byte) → Buf Byte
  /-- `m_vCodeWords`. -/
  codeWords : Buf (Buf Byte)
  /-- `EklundhBitTranspose(rows, columns)`. -/
  eklundhBitTranspose : Nat → Nat → Buf Byte → Buf Byte

variable {Key : Type*} (P : OtCrypto Key)

section Model

/-- Block `b` of row `k` of a matrix of `2 * numblocks` blocks a row. -/
def encryptBlock (key : Key) (numblocks ctr k b : Nat) (m : Buf Byte) : Buf Byte :=
  copy m ((k * (2 * numblocks) + b) * aesBytes) (P.encrypt key (ctr + b)) 0 aesBytes

/-- `BuildMatrices`: `T` and `SndBuf`, and the counter behind the last block. -/
def buildMatrices (keySeedMtx : Buf Key) (T SndBuf : Buf Byte) (numblocks ctr : Nat) :
    Buf Byte × Buf Byte × Nat :=
  let s := loop (fun k s => loop (fun b s =>
      (encryptBlock P (keySeedMtx (2 * k)) numblocks ctr k b s.1,
        encryptBlock P (keySeedMtx (2 * k + 1)) numblocks ctr k b s.2)) (2 * numblocks) s)
    codeWordBits (T, SndBuf)
  (s.1, xorInto s.2 0 s.1 0 (codeWordBytes * numblocks * codeWordBits), ctr + 2 * numblocks)

/-- `m_nChoices.Get<uint32_t>(otid * 8, 8)`. The position is computed as a `uint32_t`. -/
def CBitVector.getChoice (choices : CBitVector) (otid : Nat) : Nat :=
  choices.get8 (otid * 8 % 2 ^ 32 / 8)

/-- The code words of `m` choices from `otid` on, in rows. -/
def setChoiceCodes (choices : CBitVector) (otid m : Nat) : Buf Byte :=
  loop (fun j choicecodes => copy choicecodes (j * codeWordBytes)
    (P.codeWords (choices.getChoice (otid + j))) (0 * codeWordBytes) codeWordBytes) m (fun _ => 0)

/-- `GenerateChoiceCodes`: what it makes of `vSnd`. The state carries `otid`. -/
def generateChoiceCodes (choices : CBitVector) (vSnd : Buf Byte) (startpos len : Nat) : Buf Byte :=
  let ncolumnsbyte := ceilDivide len codeWordBits * codeWordBytes
  (loop (fun t s =>
    let pos := t * codeWordBits
    let choicecodes := P.eklundhBitTranspose codeWordBits codeWordBits
      (setChoiceCodes P choices s.2 (min (len - pos) codeWordBits))
    (loop (fun j vSnd => xorInto vSnd (pos >>> 3 + j * ncolumnsbyte) choicecodes
      (j * codeWordBytes) codeWordBytes) codeWordBits s.1, s.2 + min (len - pos) codeWordBits))
    (ceilDivide len codeWordBits) (vSnd, startpos)).1

/-- `BuildQMatrix`: `T`, and the counter behind the last block. -/
def buildQMatrix (keySeeds : Buf Key) (U T RcvBuf : Buf Byte) (numblocks ctr : Nat) :
    Buf Byte × Nat :=
  (loop (fun k T =>
    let T := loop (encryptBlock P (keySeeds k) numblocks ctr k) (2 * numblocks) T
    if getBit U k then
      xorInto T (k * (codeWordBytes * numblocks)) RcvBuf (k * (codeWordBytes * numblocks))
        (codeWordBytes * numblocks)
    else T) codeWordBits T, ctr + 2 * numblocks)

end Model

/-! ## Rows of the key streams -/

section Streams

/-- The stream a key gives from a counter on. -/
def keyStream (key : Key) (ctr : Nat) : Buf Byte := fun p =>
  P.encrypt key (ctr + p / aesBytes) (p % aesBytes)

variable {P} {nb ctr k : Nat}

/-- The loop over the blocks writes one row, the stream of its key. -/
theorem loop_encryptBlock (key : Key) (m : Buf Byte) (i : Nat) :
    loop (encryptBlock P key nb ctr k) (2 * nb) m i
      = if k * (32 * nb) ≤ i ∧ i < k * (32 * nb) + 32 * nb
        then keyStream P key ctr (i - k * (32 * nb)) else m i := by
  have hstart : ∀ b, (k * (2 * nb) + b) * 16 = k * (32 * nb) + 16 * b := fun b => by ring
  have h := loop_induct (P := fun b (t : Buf Byte) => ∀ i, t i
      = if k * (32 * nb) ≤ i ∧ i < k * (32 * nb) + 16 * b
        then keyStream P key ctr (i - k * (32 * nb)) else m i)
    (f := encryptBlock P key nb ctr k) (s := m) (2 * nb)
    (fun i => by rw [if_neg (by omega)]) ?_ i
  · rw [h]
    exact if_congr (by omega) rfl rfl
  · intro b t _ ht i
    rw [encryptBlock, copy_apply, aesBytes, hstart]
    by_cases hi : k * (32 * nb) + 16 * b ≤ i ∧ i < k * (32 * nb) + 16 * b + 16
    · rw [if_pos hi, if_pos (by omega), keyStream, aesBytes,
        show (i - k * (32 * nb)) / 16 = b by omega,
        show (i - k * (32 * nb)) % 16 = 0 + (i - (k * (32 * nb) + 16 * b)) by omega]
    · rw [if_neg hi, ht]
      exact if_congr (by omega) rfl rfl

theorem row_encryptRow_same (key : Key) (m : Buf Byte) :
    row (32 * nb) (loop (encryptBlock P key nb ctr k) (2 * nb) m) k
      = row (32 * nb) (keyStream P key ctr) 0 := by
  funext j
  have := j.isLt
  rw [row_apply, loop_encryptBlock, if_pos (by omega), row_apply]
  congr 1
  omega

theorem row_encryptRow_ne (key : Key) (m : Buf Byte) {k' : Nat} (hk : k' ≠ k) :
    row (32 * nb) (loop (encryptBlock P key nb ctr k) (2 * nb) m) k' = row (32 * nb) m k' := by
  funext j
  rw [row_apply, loop_encryptBlock, if_neg (not_mem_row hk j.isLt), row_apply]

/-- Row after row from a list of keys. -/
theorem row_encryptRows (keys : Buf Key) (m : Buf Byte) (hk : k < codeWordBits) :
    row (32 * nb) (loop (fun k => loop (encryptBlock P (keys k) nb ctr k) (2 * nb))
        codeWordBits m) k
      = row (32 * nb) (keyStream P (keys k) ctr) 0 := by
  refine loop_settles (Q := fun k (m : Buf Byte) =>
    row (32 * nb) m k = row (32 * nb) (keyStream P (keys k) ctr) 0) codeWordBits
    (fun i m _ => row_encryptRow_same ..) (fun i k m hlt _ hm => ?_) hk
  rw [row_encryptRow_ne _ _ (Nat.ne_of_lt hlt), hm]

end Streams

/-! ## What each party's matrix holds -/

section Matrices

variable (nb ctr : Nat) {k : Nat}

/-- The two matrices of the receiver do not meet while they are filled. -/
theorem buildMatrices_eq (K : Buf Key) (T S : Buf Byte) :
    buildMatrices P K T S nb ctr =
      let t := loop (fun k => loop (encryptBlock P (K (2 * k)) nb ctr k) (2 * nb)) codeWordBits T
      (t, xorInto (loop (fun k => loop (encryptBlock P (K (2 * k + 1)) nb ctr k) (2 * nb))
        codeWordBits S) 0 t 0 (codeWordBytes * nb * codeWordBits), ctr + 2 * nb) := by
  simp only [buildMatrices, loop_prod]

theorem row_buildMatrices_T (K : Buf Key) (T S : Buf Byte) (hk : k < codeWordBits) :
    row (32 * nb) (buildMatrices P K T S nb ctr).1 k
      = row (32 * nb) (keyStream P (K (2 * k)) ctr) 0 := by
  rw [buildMatrices_eq]
  exact row_encryptRows (fun k => K (2 * k)) T hk

theorem row_buildMatrices_SndBuf (K : Buf Key) (T S : Buf Byte) (hk : k < codeWordBits) :
    row (32 * nb) (buildMatrices P K T S nb ctr).2.1 k
      = row (32 * nb) (keyStream P (K (2 * k + 1)) ctr) 0
        + row (32 * nb) (keyStream P (K (2 * k)) ctr) 0 := by
  rw [buildMatrices_eq]
  have hfit : (k + 1) * (32 * nb) ≤ codeWordBytes * nb * codeWordBits := by
    rw [Nat.mul_comm]
    exact Nat.mul_le_mul_left _ hk
  rw [row_xorInto_span _ _ hfit, row_encryptRows (fun k => K (2 * k)) T hk,
    row_encryptRows (fun k => K (2 * k + 1)) S hk]

/-- The sender's row, by its choice bit. -/
theorem row_buildQMatrix (keySeeds : Buf Key) (U T R : Buf Byte) (hk : k < codeWordBits) :
    row (32 * nb) (buildQMatrix P keySeeds U T R nb ctr).1 k
      = row (32 * nb) (keyStream P (keySeeds k) ctr) 0
        + if getBit U k then row (32 * nb) R k else 0 := by
  dsimp only [buildQMatrix]
  refine loop_settles (Q := fun k (m : Buf Byte) => row (32 * nb) m k
    = row (32 * nb) (keyStream P (keySeeds k) ctr) 0
      + if getBit U k then row (32 * nb) R k else 0) codeWordBits ?_ ?_ hk
  · intro i m _
    split
    · rw [row_xorInto_same, row_encryptRow_same]
    · rw [row_encryptRow_same, add_zero]
  · intro i k m hlt _ hm
    have hne := Nat.ne_of_lt hlt
    split
    · rw [row_xorInto_ne _ _ _ _ hne, row_encryptRow_ne _ _ hne, hm]
    · rw [row_encryptRow_ne _ _ hne, hm]

end Matrices

/-! ## The code words -/

section ChoiceCodes

variable (choices : CBitVector) (startpos : Nat) {len n k : Nat}

/-- The code words of round `t`, transposed. -/
def choiceBlock (len t : Nat) : Buf Byte :=
  P.eklundhBitTranspose codeWordBits codeWordBits
    (setChoiceCodes P choices (startpos + t * codeWordBits)
      (min (len - t * codeWordBits) codeWordBits))

/-- Row `j` of the choice codes is a code word, or nothing behind the last choice. -/
theorem row_setChoiceCodes (otid m j : Nat) :
    row codeWordBytes (setChoiceCodes P choices otid m) j
      = if j < m then row codeWordBytes (P.codeWords (choices.getChoice (otid + j))) 0 else 0 := by
  split
  · next h =>
      exact row_loop_copy codeWordBytes m (fun j => P.codeWords (choices.getChoice (otid + j)))
        (fun _ => 0) _ h
  · next h =>
      exact row_loop_copy_of_le codeWordBytes m
        (fun j => P.codeWords (choices.getChoice (otid + j))) (fun _ => 0) _ (Nat.not_lt.mp h)

/-- Bit `j` of row `k` of a transposed block is bit `k` of the code word of OT `j`. -/
theorem getBit_choiceBlock (len : Nat)
    (htr : Transposes (P.eklundhBitTranspose codeWordBits codeWordBits) codeWordBits codeWordBits)
    (hk : k < codeWordBits) (t : Nat) {j : Nat} (hj : j < codeWordBits) :
    getBit (choiceBlock P choices startpos len t) (k * codeWordBits + j)
      = (decide (t * codeWordBits + j < len)
        && getBit (P.codeWords (choices.getChoice (startpos + t * codeWordBits + j))) k) := by
  rw [choiceBlock, htr _ j hj k hk]
  have hrow := row_setChoiceCodes P choices (startpos + t * codeWordBits)
    (min (len - t * codeWordBits) codeWordBits) j
  by_cases hlen : t * codeWordBits + j < len
  · rw [if_pos (by omega)] at hrow
    have := getBit_congr_row hrow (show k < 8 * codeWordBytes from hk)
    rw [Nat.zero_mul, Nat.zero_add] at this
    rw [decide_eq_true hlen, Bool.true_and]
    exact this
  · rw [if_neg (by omega)] at hrow
    have := getBit_row (setChoiceCodes P choices (startpos + t * codeWordBits)
      (min (len - t * codeWordBits) codeWordBits)) j (show k < 8 * codeWordBytes from hk)
    rw [hrow] at this
    rw [decide_eq_false hlen, Bool.false_and]
    exact this.trans (by simp)

/-- One round adds a block to the rows of one column of blocks. -/
theorem row_addBlock (vSnd block : Buf Byte) {t t' : Nat} (ht : t < n) (ht' : t' < n)
    (hk : k < codeWordBits) :
    row codeWordBytes (loop (fun j vSnd => xorInto vSnd
        ((t * codeWordBits) >>> 3 + j * (n * codeWordBytes)) block (j * codeWordBytes)
        codeWordBytes) codeWordBits vSnd) (k * n + t')
      = row codeWordBytes vSnd (k * n + t')
        + if t' = t then row codeWordBytes block k else 0 := by
  have hpos : ∀ j, (t * codeWordBits) >>> 3 + j * (n * codeWordBytes)
      = (j * n + t) * codeWordBytes := by
    intro j
    rw [Nat.shiftRight_eq_div_pow, show t * codeWordBits = t * 32 * 2 ^ 3 by ring,
      Nat.mul_div_cancel _ (by decide)]
    ring
  have h := loop_induct (P := fun i (m : Buf Byte) => row codeWordBytes m (k * n + t')
      = row codeWordBytes vSnd (k * n + t')
        + if k < i ∧ t' = t then row codeWordBytes block k else 0)
    (f := fun j vSnd => xorInto vSnd ((t * codeWordBits) >>> 3 + j * (n * codeWordBytes)) block
      (j * codeWordBytes) codeWordBytes) (s := vSnd) codeWordBits
    (by rw [if_neg fun h => absurd h.1 (Nat.not_lt_zero k), add_zero]) ?_
  · rw [h]
    congr 1
    exact if_congr ⟨fun h => h.2, fun h => ⟨hk, h⟩⟩ rfl rfl
  · intro i m _ hm
    rw [hpos]
    by_cases he : k * n + t' = i * n + t
    · obtain ⟨rfl, rfl⟩ := row_cell_inj ht' ht he
      rw [row_xorInto_same, hm, if_neg fun h => absurd h.1 (Nat.lt_irrefl k), add_zero,
        if_pos ⟨Nat.lt_succ_self k, rfl⟩]
    · rw [row_xorInto_ne _ _ _ _ he, hm]
      congr 1
      refine if_congr ⟨fun h => ⟨Nat.lt_succ_of_lt h.1, h.2⟩, fun h => ⟨?_, h.2⟩⟩ rfl rfl
      rcases Nat.lt_succ_iff_lt_or_eq.mp h.1 with h' | h'
      · exact h'
      · exact absurd (by rw [h', h.2]) he

/-- Behind all rounds every row has its block once. -/
theorem row_generateChoiceCodes (vSnd : Buf Byte) {t : Nat}
    (ht : t < ceilDivide len codeWordBits) (hk : k < codeWordBits) :
    row codeWordBytes (generateChoiceCodes P choices vSnd startpos len)
        (k * ceilDivide len codeWordBits + t)
      = row codeWordBytes vSnd (k * ceilDivide len codeWordBits + t)
        + row codeWordBytes (choiceBlock P choices startpos len t) k := by
  unfold generateChoiceCodes
  have h := loop_induct (P := fun i (s : Buf Byte × Nat) =>
      s.2 = startpos + min len (i * codeWordBits) ∧
        ∀ t < ceilDivide len codeWordBits, row codeWordBytes s.1
            (k * ceilDivide len codeWordBits + t)
          = row codeWordBytes vSnd (k * ceilDivide len codeWordBits + t)
            + if t < i then row codeWordBytes (choiceBlock P choices startpos len t) k else 0)
    (f := fun t s =>
      (loop (fun j vSnd => xorInto vSnd ((t * codeWordBits) >>> 3
        + j * (ceilDivide len codeWordBits * codeWordBytes))
        (P.eklundhBitTranspose codeWordBits codeWordBits (setChoiceCodes P choices s.2
          (min (len - t * codeWordBits) codeWordBits))) (j * codeWordBytes) codeWordBytes)
        codeWordBits s.1, s.2 + min (len - t * codeWordBits) codeWordBits))
    (s := (vSnd, startpos)) (ceilDivide len codeWordBits) ?_ ?_
  · rw [h.2 t ht, if_pos ht]
  · refine ⟨by rw [Nat.zero_mul, Nat.min_zero, Nat.add_zero], fun t _ => ?_⟩
    rw [if_neg (Nat.not_lt_zero t), add_zero]
  · intro i s hi hs
    obtain ⟨v, otid⟩ := s
    obtain ⟨hot, hv⟩ := hs
    -- only the last round can be short, so `otid` is where the round starts
    have hfull : i * codeWordBits < len := (lt_ceilDivide_iff (by decide)).mp hi
    dsimp only at hot hv ⊢
    rw [Nat.min_eq_right hfull.le] at hot
    refine ⟨by rw [hot, Nat.succ_mul]; omega, fun t ht => ?_⟩
    rw [row_addBlock _ _ hi ht hk, hv t ht, hot, ← choiceBlock, add_assoc]
    congr 1
    rcases Nat.lt_trichotomy t i with h | h | h
    · rw [if_pos h, if_neg h.ne, if_pos (Nat.lt_succ_of_lt h), add_zero]
    · rw [if_neg (by omega), if_pos h, if_pos (by omega), zero_add, h]
    · rw [if_neg (by omega), if_neg (by omega), if_neg (by omega), add_zero]

/-- The code words, bit by bit: column `x` gets the code word of OT `x`. -/
theorem getBit_generateChoiceCodes (htr : Transposes
      (P.eklundhBitTranspose codeWordBits codeWordBits) codeWordBits codeWordBits)
    (vSnd : Buf Byte) (hk : k < codeWordBits) {x : Nat}
    (hx : x < ceilDivide len codeWordBits * codeWordBits) :
    getBit (generateChoiceCodes P choices vSnd startpos len)
        (k * (ceilDivide len codeWordBits * codeWordBits) + x)
      = (getBit vSnd (k * (ceilDivide len codeWordBits * codeWordBits) + x)
        ^^ (decide (x < len) && getBit (P.codeWords (choices.getChoice (startpos + x))) k)) := by
  have hj : x % codeWordBits < codeWordBits := Nat.mod_lt x (by decide)
  have ht : x / codeWordBits < ceilDivide len codeWordBits := Nat.div_lt_of_lt_mul (by
    rwa [Nat.mul_comm])
  have hbits := row_eq_add_iff.mp (row_generateChoiceCodes P choices startpos
    vSnd ht hk) (x % codeWordBits) hj
  have hcell : (k * ceilDivide len codeWordBits + x / codeWordBits) * (8 * codeWordBytes)
      + x % codeWordBits = k * (ceilDivide len codeWordBits * codeWordBits) + x := by
    have := Nat.div_add_mod x codeWordBits
    calc _ = k * (ceilDivide len codeWordBits * codeWordBits)
          + (codeWordBits * (x / codeWordBits) + x % codeWordBits) := by ring
      _ = _ := by rw [this]
  have hx' : x / codeWordBits * codeWordBits + x % codeWordBits = x := by
    rw [Nat.mul_comm]
    exact Nat.div_add_mod x codeWordBits
  rw [hcell] at hbits
  rw [hbits]
  congr 1
  have hblock := getBit_choiceBlock P choices startpos len htr hk (x / codeWordBits) hj
  rw [Nat.add_assoc startpos, hx'] at hblock
  exact hblock

end ChoiceCodes

/-! ## One batch on both sides -/

section Batch

/-- What the base OTs leave: the sender has the key its choice bit selects of every pair. -/
def BaseOts (keySeedMtx keySeeds : Buf Key) (U : Buf Byte) : Prop :=
  ∀ k < codeWordBits, keySeeds k = keySeedMtx (2 * k + (getBit U k).toNat)

/-- The code word on the columns the choice bits select. -/
def selectCode (U code : Buf Byte) : Buf Byte := fun p => U p &&& code p

theorem getBit_selectCode (U code : Buf Byte) (k : Nat) :
    getBit (selectCode U code) k = (getBit U k && getBit code k) := by
  rw [getBit, selectCode, XorVec.toBits_and, BitVec.getMsbD_and]
  rfl

variable {P} {keySeedMtx keySeeds : Buf Key} {U : Buf Byte} {choices : CBitVector}
variable {ctr startpos len : Nat}

/-- The bits of the sender's matrix, from the receiver's. -/
theorem getBit_buildQMatrix (hbase : BaseOts keySeedMtx keySeeds U)
    (htr : Transposes (P.eklundhBitTranspose codeWordBits codeWordBits) codeWordBits codeWordBits)
    {nb : Nat} (hnb : ceilDivide len codeWordBits = nb) (T S Q vRcv : Buf Byte)
    (hrcv : ∀ k < codeWordBits, row (32 * nb) vRcv k = row (32 * nb)
      (generateChoiceCodes P choices (buildMatrices P keySeedMtx T S nb ctr).2.1 startpos len) k)
    {j k : Nat} (hk : k < codeWordBits) (hj : j < len) :
    getBit (buildQMatrix P keySeeds U Q vRcv nb ctr).1 (k * (nb * codeWordBits) + j)
      = (getBit (buildMatrices P keySeedMtx T S nb ctr).1 (k * (nb * codeWordBits) + j)
        ^^ (getBit U k && getBit (P.codeWords (choices.getChoice (startpos + j))) k)) := by
  have hcols : nb * codeWordBits = 8 * (32 * nb) := by ring
  have hlen : len ≤ nb * codeWordBits := hnb ▸ le_ceilDivide_mul len (by decide)
  have hj' : j < 8 * (32 * nb) := hcols ▸ hj.trans_le hlen
  have hQ := row_buildQMatrix P nb ctr keySeeds U Q vRcv hk
  have hT := row_buildMatrices_T P nb ctr keySeedMtx T S hk
  have hTj := getBit_congr_row hT hj'
  have hkey := hbase k hk
  rw [hcols]
  cases hU : getBit U k with
  | false =>
      -- the same key on both sides
      rw [hU, Bool.toNat_false, Nat.add_zero] at hkey
      rw [hU, if_neg Bool.false_ne_true, add_zero, hkey, ← hT] at hQ
      rw [getBit_congr_row hQ hj', Bool.false_and, Bool.xor_false]
  | true =>
      -- the other key's stream cancels against the one that was sent
      rw [hU, Bool.toNat_true] at hkey
      rw [hU, if_pos rfl, hkey] at hQ
      have hS := row_eq_add_iff.mp
        (row_buildMatrices_SndBuf P nb ctr keySeedMtx T S hk) j hj'
      have hsent := getBit_generateChoiceCodes P choices startpos htr
        (buildMatrices P keySeedMtx T S nb ctr).2.1 hk
        (hj.trans_le (le_ceilDivide_mul len (by decide)))
      rw [hnb, hcols, decide_eq_true hj, Bool.true_and] at hsent
      rw [row_eq_add_iff.mp hQ j hj', getBit_congr_row (hrcv k hk) hj', hsent, hS, hTj,
        Bool.true_and, ← Bool.xor_assoc, ← Bool.xor_assoc, Bool.xor_self, Bool.false_xor]

/-- **A row of the sender's matrix is the receiver's, with the chosen code word added where
the choice bits are set.** -/
theorem row_batch (hbase : BaseOts keySeedMtx keySeeds U)
    (htr : ∀ n, Transposes (P.eklundhBitTranspose codeWordBits (n * codeWordBits)) codeWordBits
      (n * codeWordBits))
    {nb : Nat} (hnb : ceilDivide len codeWordBits = nb) (T S Q vRcv : Buf Byte)
    (hrcv : ∀ k < codeWordBits, row (32 * nb) vRcv k = row (32 * nb)
      (generateChoiceCodes P choices (buildMatrices P keySeedMtx T S nb ctr).2.1 startpos len) k)
    {j : Nat} (hj : j < len) :
    row codeWordBytes (P.eklundhBitTranspose codeWordBits (nb * codeWordBits)
        (buildQMatrix P keySeeds U Q vRcv nb ctr).1) j
      = row codeWordBytes (P.eklundhBitTranspose codeWordBits (nb * codeWordBits)
          (buildMatrices P keySeedMtx T S nb ctr).1) j
        + row codeWordBytes (selectCode U (P.codeWords (choices.getChoice (startpos + j)))) 0 := by
  have hlen : len ≤ nb * codeWordBits := hnb ▸ le_ceilDivide_mul len (by decide)
  have htr1 : Transposes (P.eklundhBitTranspose codeWordBits codeWordBits) codeWordBits
      codeWordBits := by
    have := htr 1
    rwa [Nat.one_mul] at this
  refine row_eq_add_iff.mpr fun k hk => ?_
  have hj' := hj.trans_le hlen
  rw [show 8 * codeWordBytes = codeWordBits by rfl, htr nb _ k hk j hj', htr nb _ k hk j hj',
    getBit_buildQMatrix hbase htr1 hnb T S Q vRcv hrcv hk hj, Nat.zero_mul, Nat.zero_add,
    getBit_selectCode]

end Batch

end MultiPartyPSI
