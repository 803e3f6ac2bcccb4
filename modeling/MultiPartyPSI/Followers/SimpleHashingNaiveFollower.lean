import MultiPartyPSI.Followers.Follower
import MultiPartyPSI.Hashing.SimpleHashingRun

/-!
# The padded tables of SIMPLE_HASH

`SimpleHashingNaiveFollower::run`. The masks of a bin are sorted by hash function into one
vector of `maxBinSize` masks a bin for each hash function. A vector is filled with random
bytes first, so what is left of a bin's block looks like masks.

A follower writes with a counter for each hash function and bin; the leaders read with
one flat index. `Layout` says what every row holds at any time during the run, and
`simpleHashingNaiveRun_layout` reads the rows by the leaders' formulas.
-/

namespace MultiPartyPSI

open Lib Buf

section Model

/-- The variables of `run`: the vectors and the counter of the current bin. -/
structure BinVectors where
  random : Buf (Buf Byte)
  counter : Buf Nat

variable (set : FollowerSet)

/-- One mask of bin `k`, at position `progress + i`. It fails where the copy would write behind
the end of the vector. -/
def copyMask (masks : Buf Byte) (progress k i : Nat) (s : BinVectors) : Option BinVectors :=
  let hashIndex := set.binToElementsToHashTable (progress + i) % numHashFunctions
  let pos := (k * set.maxBinSize + s.counter hashIndex) * set.maskSizeInBytes
  if pos + set.maskSizeInBytes ≤ set.numOfBins * set.maxBinSize * set.maskSizeInBytes then
    some ⟨s.random.write hashIndex (copy (s.random hashIndex) pos masks
        ((progress + i) * set.maskSizeInBytes) set.maskSizeInBytes),
      s.counter.write hashIndex (s.counter hashIndex + 1)⟩
  else none

/-- `counter[i]=0` for all hash functions. -/
def resetCounter (counter : Buf Nat) : Buf Nat :=
  loop (fun i counter => counter.write i 0) numHashFunctions counter

/-- Bin `k`, with `progress`. An overfull bin is only reported. -/
def copyBinMasks (masks : Buf Byte) (k : Nat) (s : BinVectors × Nat) : Option (BinVectors × Nat) :=
  (loopM (copyMask set masks s.2 k) (set.numOfElementsInBin k)
    ⟨s.1.random, resetCounter s.1.counter⟩).map fun vectors =>
      (vectors, s.2 + set.numOfElementsInBin k)

/-- The loop over the bins. -/
def copyMasks (masks : Buf Byte) (random : Buf (Buf Byte)) : Option (BinVectors × Nat) :=
  loopM (copyBinMasks set masks) set.numOfBins (⟨random, fun _ => 0⟩, 0)

/-- `SimpleHashingNaiveFollower::run`: the bytes it sends, `random` being the PRG's bytes. -/
def simpleHashingNaiveRun (secretShare : Buf Byte) (random : Buf (Buf Byte)) :
    Option (Buf Byte) :=
  let masks := xorMasks set.masks set.maskSizeInBytes secretShare set.numOfBins
    set.numOfElementsInBin
  let nmasks := set.numOfBins * set.maxBinSize
  (copyMasks set masks random).map fun s =>
    loop (fun i sent => copy sent (i * (nmasks * set.maskSizeInBytes)) (s.1.random i) 0
      (nmasks * set.maskSizeInBytes)) numHashFunctions fun _ => 0

/-- `minIndex` of `SimpleHashingNaiveLeader::isZeroXOR`. -/
def minIndex (numOfBins maxBinSize hashIndex binIndex : Nat) : Nat :=
  hashIndex * numOfBins * maxBinSize + binIndex * maxBinSize

/-- `maxIndex` of `SimpleHashingNaiveLeader::isZeroXOR`. -/
def maxIndex (numOfBins maxBinSize hashIndex binIndex : Nat) : Nat :=
  hashIndex * numOfBins * maxBinSize + (binIndex + 1) * maxBinSize

/-- `ptr + j*m_maskSizeInBytes` of `SimpleHashingNaiveInverseLeader::receiveServerData`. -/
def columnPtr (numOfBins maxBinSize maskSizeInBytes k i j : Nat) : Nat :=
  (k * numOfBins + i) * maxBinSize * maskSizeInBytes + j * maskSizeInBytes

end Model

/-! ## The rows during the run -/

section Layout

variable (set : FollowerSet)

/-- Of the first `n` entries of bin `b`, those made by hash function `h`, in table order. -/
def entriesBy (h b n : Nat) : List Nat :=
  (List.range n).filter fun u =>
    set.binToElementsToHashTable (binStart set.numOfElementsInBin b + u) % numHashFunctions == h

/-- Row `j` of the block of bin `b` and hash function `h`, once `n` entries are copied. -/
def blockRow (masks : Buf Byte) (random : Buf (Buf Byte)) (h b n j : Nat) :
    Fin set.maskSizeInBytes → Byte :=
  match (entriesBy set h b n)[j]? with
  | some u => row set.maskSizeInBytes masks (binStart set.numOfElementsInBin b + u)
  | none => row set.maskSizeInBytes (random h) (b * set.maxBinSize + j)

/-- The vectors when `n b` entries of every bin `b` are copied. -/
def Layout (masks : Buf Byte) (random : Buf (Buf Byte)) (n : Nat → Nat)
    (vectors : Buf (Buf Byte)) : Prop :=
  ∀ h < numHashFunctions, ∀ b < set.numOfBins, ∀ j < set.maxBinSize,
    row set.maskSizeInBytes (vectors h) (b * set.maxBinSize + j)
      = blockRow set masks random h b (n b) j

/-- No bin holds more than `maxBinSize` entries of one hash function. -/
def FollowerSet.Fits : Prop :=
  ∀ b < set.numOfBins, ∀ h < numHashFunctions,
    (entriesBy set h b (set.numOfElementsInBin b)).length ≤ set.maxBinSize

variable {set}

variable (set) in
theorem entriesBy_succ (h b n : Nat) :
    entriesBy set h b (n + 1) = entriesBy set h b n ++
      if set.binToElementsToHashTable (binStart set.numOfElementsInBin b + n) % numHashFunctions = h
      then [n] else [] := by
  rw [entriesBy, List.range_succ, List.filter_append, entriesBy]
  congr 1
  by_cases hn : set.binToElementsToHashTable (binStart set.numOfElementsInBin b + n)
      % numHashFunctions = h
  · rw [if_pos hn, List.filter_singleton, beq_iff_eq.mpr hn]
    rfl
  · rw [if_neg hn, List.filter_singleton, beq_eq_false_iff_ne.mpr hn]
    rfl

variable (set) in
theorem entriesBy_length_mono (h b : Nat) : Monotone fun n => (entriesBy set h b n).length :=
  monotone_nat_of_le_succ fun n => by
    rw [entriesBy_succ, List.length_append]
    exact Nat.le_add_right _ _

variable (set) in
theorem getElem?_entriesBy_succ (h b n j : Nat) :
    (entriesBy set h b (n + 1))[j]?
      = if set.binToElementsToHashTable (binStart set.numOfElementsInBin b + n)
            % numHashFunctions = h ∧ j = (entriesBy set h b n).length
        then some n else (entriesBy set h b n)[j]? := by
  rw [entriesBy_succ]
  by_cases hh : set.binToElementsToHashTable (binStart set.numOfElementsInBin b + n)
      % numHashFunctions = h
  · rw [if_pos hh]
    rcases Nat.lt_trichotomy j (entriesBy set h b n).length with hj | hj | hj
    · rw [List.getElem?_append_left hj, if_neg fun hc => hj.ne hc.2]
    · rw [if_pos ⟨hh, hj⟩, hj, List.getElem?_append_right le_rfl, Nat.sub_self]
      rfl
    · rw [if_neg fun hc => hj.ne' hc.2, List.getElem?_append_right hj.le,
        List.getElem?_eq_none (by rw [List.length_singleton]; omega),
        List.getElem?_eq_none hj.le]
  · rw [if_neg hh, List.append_nil, if_neg fun hc => hh hc.1]

section Rows

variable (set) (masks : Buf Byte) (random : Buf (Buf Byte)) (n : Nat → Nat) (h : Nat)

/-- Row `r` of a vector that held `prev`, when bin `k` has copied `i` entries into it. Behind the
block of the bin there are the blocks of other bins. -/
def binRow (prev : Nat → Fin set.maskSizeInBytes → Byte) (k i r : Nat) :
    Fin set.maskSizeInBytes → Byte :=
  if k * set.maxBinSize ≤ r then
    match (entriesBy set h k i)[r - k * set.maxBinSize]? with
    | some u => row set.maskSizeInBytes masks (binStart set.numOfElementsInBin k + u)
    | none => prev r
  else prev r

/-- Row `r` of the vector of hash function `h`, when `n b` entries of every bin `b` before `k` are
copied, bin after bin. -/
def vectorRow : Nat → Nat → Fin set.maskSizeInBytes → Byte
  | 0, r => row set.maskSizeInBytes (random h) r
  | k + 1, r => binRow set masks h (vectorRow k) k (n k) r

/-- The vectors when `n b` entries of every bin `b` are copied, however many these are. -/
def Written (vectors : Buf (Buf Byte)) : Prop :=
  ∀ h < numHashFunctions, ∀ r,
    row set.maskSizeInBytes (vectors h) r = vectorRow set masks random n h set.numOfBins r

variable {set masks random n h}

theorem binRow_none {prev : Nat → Fin set.maskSizeInBytes → Byte} {k i r : Nat}
    (hr : k * set.maxBinSize + (entriesBy set h k i).length ≤ r) :
    binRow set masks h prev k i r = prev r := by
  rw [binRow, if_pos (by omega), List.getElem?_eq_none (by omega)]

theorem binRow_succ {prev : Nat → Fin set.maskSizeInBytes → Byte} {k i r : Nat} :
    binRow set masks h prev k (i + 1) r
      = if set.binToElementsToHashTable (binStart set.numOfElementsInBin k + i)
            % numHashFunctions = h ∧ r = k * set.maxBinSize + (entriesBy set h k i).length
        then row set.maskSizeInBytes masks (binStart set.numOfElementsInBin k + i)
        else binRow set masks h prev k i r := by
  unfold binRow
  by_cases hle : k * set.maxBinSize ≤ r
  · rw [if_pos hle, if_pos hle, getElem?_entriesBy_succ]
    by_cases hc : set.binToElementsToHashTable (binStart set.numOfElementsInBin k + i)
        % numHashFunctions = h ∧ r - k * set.maxBinSize = (entriesBy set h k i).length
    · rw [if_pos hc, if_pos ⟨hc.1, by omega⟩]
    · rw [if_neg hc, if_neg fun hr => hc ⟨hr.1, by omega⟩]
  · rw [if_neg hle, if_neg hle, if_neg fun hr => hle (by omega)]

/-- A row is left alone by the bins that do not reach it. -/
theorem vectorRow_of_last {k K r : Nat} (hk : k ≤ K) (hout : ∀ d, k ≤ d → d < K →
      r < d * set.maxBinSize ∨ d * set.maxBinSize + (entriesBy set h d (n d)).length ≤ r) :
    vectorRow set masks random n h K r = vectorRow set masks random n h k r := by
  induction K, hk using Nat.le_induction with
  | base => rfl
  | succ K hK ih =>
      rw [← ih fun d hd hlt => hout d hd (Nat.lt_succ_of_lt hlt), vectorRow]
      rcases hout K hK (Nat.lt_succ_self K) with hlt | hle
      · exact if_neg (Nat.not_le.mpr hlt)
      · exact binRow_none hle

/-- Bins that have copied nothing change nothing. -/
theorem vectorRow_eq_of_zero {k K : Nat} (hk : k ≤ K) (hzero : ∀ c, k ≤ c → n c = 0) (r : Nat) :
    vectorRow set masks random n h K r = vectorRow set masks random n h k r := by
  refine vectorRow_of_last hk fun d hd _ => ?_
  rw [hzero d hd]
  exact Nat.lt_or_ge r _

theorem vectorRow_congr {n' : Nat → Nat} {k : Nat} (hn : ∀ c < k, n c = n' c) :
    vectorRow set masks random n h k = vectorRow set masks random n' h k := by
  induction k with
  | zero => rfl
  | succ k ih =>
      funext r
      rw [vectorRow, vectorRow, hn k (Nat.lt_succ_self k),
        ih fun c hc => hn c (Nat.lt_succ_of_lt hc)]

/-- One more entry of the current bin. -/
theorem vectorRow_update {k K i : Nat} (hk : k < K) (hn : n k = i)
    (hlater : ∀ c, k < c → n c = 0) (r : Nat) :
    vectorRow set masks random (Function.update n k (i + 1)) h K r
      = if set.binToElementsToHashTable (binStart set.numOfElementsInBin k + i)
            % numHashFunctions = h ∧ r = k * set.maxBinSize + (entriesBy set h k i).length
        then row set.maskSizeInBytes masks (binStart set.numOfElementsInBin k + i)
        else vectorRow set masks random n h K r := by
  rw [vectorRow_eq_of_zero (n := n) hk fun c hc => hlater c hc,
    vectorRow_eq_of_zero (n := Function.update n k (i + 1)) hk fun c hc => by
      rw [Function.update_of_ne (Nat.ne_of_gt hc), hlater c hc]]
  have hbefore : vectorRow set masks random (Function.update n k (i + 1)) h k
      = vectorRow set masks random n h k :=
    vectorRow_congr fun c hc => Function.update_of_ne (Nat.ne_of_lt hc) _ _
  rw [vectorRow, vectorRow, Function.update_self, hn, hbefore, binRow_succ]

/-- While all bins fit, every block holds the entries of its own bin. -/
theorem vectorRow_of_fits (hfits : set.Fits) (hn : ∀ b, n b ≤ set.numOfElementsInBin b)
    (hh : h < numHashFunctions) {b j k : Nat} (hk : k ≤ set.numOfBins)
    (hj : j < set.maxBinSize) :
    vectorRow set masks random n h k (b * set.maxBinSize + j)
      = if b < k then blockRow set masks random h b (n b) j
        else row set.maskSizeInBytes (random h) (b * set.maxBinSize + j) := by
  induction k with
  | zero => rfl
  | succ k ih =>
      rw [vectorRow]
      rcases Nat.lt_trichotomy b k with hlt | rfl | hgt
      · -- the block ends before bin `k`
        have hend := row_cell_lt hlt hj
        rw [binRow, if_neg (by omega), ih (by omega), if_pos hlt, if_pos (by omega)]
      · rw [binRow, if_pos (Nat.le_add_right _ _), Nat.add_sub_cancel_left, ih (by omega),
          if_neg (lt_irrefl b), if_pos (Nat.lt_succ_self b)]
        rfl
      · -- bin `k` ends before the block
        have hcount := (entriesBy_length_mono set h k (hn k)).trans (hfits k hk h hh)
        have hend := row_end_le set.maxBinSize hgt
        dsimp only at hcount
        rw [binRow_none (by omega), ih (by omega), if_neg (by omega), if_neg (by omega)]

theorem Written.layout {vectors : Buf (Buf Byte)} (hfits : set.Fits)
    (hn : ∀ b, n b ≤ set.numOfElementsInBin b) (hw : Written set masks random n vectors) :
    Layout set masks random n vectors := by
  intro h hh b hb j hj
  rw [hw h hh, vectorRow_of_fits hfits hn hh le_rfl hj, if_pos hb]

end Rows

/-- The counters of bin `k` after `i` of its entries. -/
def Counted (set : FollowerSet) (k i : Nat) (counter : Buf Nat) : Prop :=
  ∀ h < numHashFunctions, counter h = (entriesBy set h k i).length

variable {masks : Buf Byte} {random : Buf (Buf Byte)}

/-- Entry `i` is counted for its hash function only. -/
theorem Counted.write {k i : Nat} {counter : Buf Nat} (hcount : Counted set k i counter) :
    Counted set k (i + 1) (counter.write
      (set.binToElementsToHashTable (binStart set.numOfElementsInBin k + i) % numHashFunctions)
      (counter (set.binToElementsToHashTable (binStart set.numOfElementsInBin k + i)
        % numHashFunctions) + 1)) := by
  intro h hh
  rw [entriesBy_succ]
  split
  · next hhash =>
      rw [hhash, write_same, hcount h hh, List.length_append, List.length_singleton]
  · next hhash =>
      rw [write_ne _ _ (Ne.symm hhash), List.append_nil]
      exact hcount h hh

/-- One entry of bin `k` goes to the next row of its hash function, and nothing else moves. -/
theorem copyMask_spec {k i : Nat} (hk : k < set.numOfBins) {s : BinVectors} {n : Nat → Nat}
    (hn : n k = i) (hlater : ∀ c, k < c → n c = 0) (hcount : Counted set k i s.counter)
    (hwritten : Written set masks random n s.random)
    (hroom : ∀ h < numHashFunctions,
      k * set.maxBinSize + (entriesBy set h k (i + 1)).length ≤ set.numOfBins * set.maxBinSize) :
    ∃ s', copyMask set masks (binStart set.numOfElementsInBin k) k i s = some s' ∧
      Counted set k (i + 1) s'.counter ∧
      Written set masks random (Function.update n k (i + 1)) s'.random := by
  unfold copyMask
  have hh : set.binToElementsToHashTable (binStart set.numOfElementsInBin k + i)
      % numHashFunctions < numHashFunctions := Nat.mod_lt _ (by decide)
  generalize hhash : set.binToElementsToHashTable (binStart set.numOfElementsInBin k + i)
      % numHashFunctions = hashIndex at hh ⊢
  have hc := hcount hashIndex hh
  have hpos : (k * set.maxBinSize + s.counter hashIndex) * set.maskSizeInBytes
      + set.maskSizeInBytes ≤ set.numOfBins * set.maxBinSize * set.maskSizeInBytes := by
    have hroom := hroom hashIndex hh
    rw [entriesBy_succ, if_pos hhash, List.length_append, List.length_singleton, ← hc] at hroom
    exact row_end_le _ (by omega)
  dsimp only
  rw [if_pos hpos]
  refine ⟨_, rfl, by rw [← hhash]; exact hcount.write, fun h hlt r => ?_⟩
  dsimp only
  rw [vectorRow_update hk hn hlater, hhash]
  by_cases hcase : hashIndex = h
  · subst hcase
    rw [write_same]
    by_cases hr : r = k * set.maxBinSize + (entriesBy set hashIndex k i).length
    · rw [if_pos ⟨rfl, hr⟩, hr, ← hc, row_copy_same]
    · rw [if_neg fun hcon => hr hcon.2, ← hwritten hashIndex hlt]
      exact row_copy_ne _ _ _ _ (by rwa [hc])
  · rw [write_ne _ _ (Ne.symm hcase), if_neg fun hcon => hcase hcon.1]
    exact hwritten h hlt r

theorem counted_reset (counter : Buf Nat) (k : Nat) : Counted set k 0 (resetCounter counter) := by
  intro h hh
  refine loop_settles (Q := fun h (counter : Buf Nat) => counter h = 0) numHashFunctions
    (fun i counter _ => write_same ..) (fun h i counter hlt _ hzero => ?_) hh
  rw [write_ne _ _ (Nat.ne_of_lt hlt), hzero]

/-- How many entries of each bin are copied when the first `k` bins are done. -/
def copiedBefore (set : FollowerSet) (k b : Nat) : Nat :=
  if b < k then set.numOfElementsInBin b else 0

theorem copiedBefore_succ (set : FollowerSet) (k : Nat) :
    Function.update (copiedBefore set k) k (set.numOfElementsInBin k)
      = copiedBefore set (k + 1) := by
  funext b
  by_cases hb : b = k
  · rw [hb, Function.update_self, copiedBefore, if_pos (Nat.lt_succ_self k)]
  · rw [Function.update_of_ne hb]
    exact if_congr (by omega) rfl rfl

theorem copiedBefore_le (set : FollowerSet) (k b : Nat) :
    copiedBefore set k b ≤ set.numOfElementsInBin b := by
  unfold copiedBefore
  split
  · exact le_rfl
  · exact Nat.zero_le _

theorem copiedBefore_eq_zero (set : FollowerSet) {k c : Nat} (hc : k ≤ c) :
    copiedBefore set k c = 0 :=
  if_neg (Nat.not_lt.mpr hc)

/-- All entries of bin `k`. -/
theorem copyBinMasks_spec {k : Nat} (hk : k < set.numOfBins)
    (hroom : ∀ h < numHashFunctions,
      k * set.maxBinSize + (entriesBy set h k (set.numOfElementsInBin k)).length
        ≤ set.numOfBins * set.maxBinSize)
    {s : BinVectors × Nat} (hprog : s.2 = binStart set.numOfElementsInBin k)
    (hwritten : Written set masks random (copiedBefore set k) s.1.random) :
    ∃ s', copyBinMasks set masks k s = some s' ∧ s'.2 = binStart set.numOfElementsInBin (k + 1) ∧
      Written set masks random (copiedBefore set (k + 1)) s'.1.random := by
  have hnone := copiedBefore_eq_zero set (le_refl k)
  obtain ⟨t, hrun, -, hl⟩ := loopM_total (P := fun i (t : BinVectors) => Counted set k i t.counter ∧
      Written set masks random (Function.update (copiedBefore set k) k i) t.random)
    (f := copyMask set masks (binStart set.numOfElementsInBin k) k)
    (s := ⟨s.1.random, resetCounter s.1.counter⟩) (set.numOfElementsInBin k)
    ⟨counted_reset _ k, by rwa [← hnone, Function.update_eq_self]⟩
    fun i t hi ht => by
      obtain ⟨t', hstep, hc, hl⟩ := copyMask_spec hk (Function.update_self ..)
        (fun c hc => by
          rw [Function.update_of_ne (Nat.ne_of_gt hc), copiedBefore_eq_zero set hc.le]) ht.1 ht.2
        fun h hh => (Nat.add_le_add_left (entriesBy_length_mono set h k hi) _).trans (hroom h hh)
      rw [Function.update_idem] at hl
      exact ⟨t', hstep, hc, hl⟩
  refine ⟨(t, s.2 + set.numOfElementsInBin k), ?_, ?_, ?_⟩
  · rw [copyBinMasks, hprog, hrun]
    rfl
  · rw [binStart_succ, hprog]
  · rwa [copiedBefore_succ] at hl

/-- **When no bin reaches behind the vectors, the run finishes with the last entry that was copied
to each row.** -/
theorem copyMasks_written (hroom : ∀ k < set.numOfBins, ∀ h < numHashFunctions,
      k * set.maxBinSize + (entriesBy set h k (set.numOfElementsInBin k)).length
        ≤ set.numOfBins * set.maxBinSize) (masks : Buf Byte) (random : Buf (Buf Byte)) :
    ∃ s, copyMasks set masks random = some s ∧
      Written set masks random (copiedBefore set set.numOfBins) s.1.random := by
  obtain ⟨s, hrun, -, hwritten⟩ := loopM_total (P := fun k (s : BinVectors × Nat) =>
      s.2 = binStart set.numOfElementsInBin k ∧
        Written set masks random (copiedBefore set k) s.1.random)
    (f := copyBinMasks set masks) (s := (⟨random, fun _ => 0⟩, 0)) set.numOfBins
    ⟨rfl, fun _ _ _ => (vectorRow_eq_of_zero (Nat.zero_le _)
      (fun _ _ => copiedBefore_eq_zero set (Nat.zero_le _)) _).symm⟩
    fun k s hk hs => copyBinMasks_spec hk (hroom k hk) hs.1 hs.2
  exact ⟨s, hrun, hwritten⟩

theorem FollowerSet.Fits.room (hfits : set.Fits) : ∀ k < set.numOfBins, ∀ h < numHashFunctions,
    k * set.maxBinSize + (entriesBy set h k (set.numOfElementsInBin k)).length
      ≤ set.numOfBins * set.maxBinSize := by
  intro k hk h hh
  exact (Nat.add_le_add_left (hfits k hk h hh) _).trans (row_end_le _ hk)

/-- **When all bins fit, the run finishes with every entry in its row.** -/
theorem copyMasks_spec (hfits : set.Fits) (masks : Buf Byte) (random : Buf (Buf Byte)) :
    ∃ s, copyMasks set masks random = some s ∧
      Layout set masks random set.numOfElementsInBin s.1.random := by
  obtain ⟨s, hrun, hwritten⟩ := copyMasks_written hfits.room masks random
  refine ⟨s, hrun, fun h hh b hb j hj => ?_⟩
  have hrow := hwritten.layout hfits (copiedBefore_le set _) h hh b hb j hj
  rwa [copiedBefore, if_pos hb] at hrow

end Layout

/-! ## What the leaders read -/

section Read

variable {set : FollowerSet}

/-- The vectors are sent one after another. -/
theorem row_send (w rows : Nat) (random : Buf (Buf Byte)) {h r : Nat} (hh : h < numHashFunctions)
    (hr : r < rows) :
    row w (loop (fun i sent => copy sent (i * (rows * w)) (random i) 0 (rows * w))
        numHashFunctions fun _ => 0) (h * rows + r) = row w (random h) r := by
  have hsent := row_loop_copy (rows * w) numHashFunctions random (fun _ => 0) (fun _ => 0) hh
  rw [Nat.zero_mul] at hsent
  have hzero := row_row w rows (random h) 0 hr
  rw [Nat.zero_mul, Nat.zero_add] at hzero
  rw [row_row w rows _ h hr, hsent, hzero]

theorem minIndex_add (numOfBins maxBinSize h b j : Nat) :
    minIndex numOfBins maxBinSize h b + j
      = h * (numOfBins * maxBinSize) + (b * maxBinSize + j) := by
  rw [minIndex, Nat.mul_assoc, Nat.add_assoc]

/-- A block has `maxBinSize` rows. -/
theorem maxIndex_eq (numOfBins maxBinSize h b : Nat) :
    maxIndex numOfBins maxBinSize h b = minIndex numOfBins maxBinSize h b + maxBinSize := by
  rw [maxIndex, minIndex, Nat.succ_mul, Nat.add_assoc]

theorem columnPtr_eq (numOfBins maxBinSize w h b j : Nat) :
    columnPtr numOfBins maxBinSize w h b j = (minIndex numOfBins maxBinSize h b + j) * w := by
  rw [columnPtr, minIndex, ← Nat.add_mul, ← Nat.add_mul]

/-- The run finishes, and the block of a bin holds its rows. -/
theorem simpleHashingNaiveRun_spec (hfits : set.Fits) (secretShare : Buf Byte)
    (random : Buf (Buf Byte)) :
    ∃ sent, simpleHashingNaiveRun set secretShare random = some sent ∧
      ∀ h < numHashFunctions, ∀ b < set.numOfBins, ∀ j < set.maxBinSize,
        row set.maskSizeInBytes sent (minIndex set.numOfBins set.maxBinSize h b + j)
          = blockRow set (xorMasks set.masks set.maskSizeInBytes secretShare set.numOfBins
              set.numOfElementsInBin) random h b (set.numOfElementsInBin b) j := by
  obtain ⟨s, hrun, hlayout⟩ := copyMasks_spec hfits (xorMasks set.masks set.maskSizeInBytes
    secretShare set.numOfBins set.numOfElementsInBin) random
  refine ⟨_, by rw [simpleHashingNaiveRun, hrun]; rfl, fun h hh b hb j hj => ?_⟩
  rw [minIndex_add, row_send _ _ _ hh (row_cell_lt hb hj)]
  exact hlayout h hh b hb j hj

/-- Every entry has a row in its block. -/
theorem exists_blockRow (hfits : set.Fits) (masks : Buf Byte) (random : Buf (Buf Byte))
    {h b u : Nat} (hh : h < numHashFunctions) (hb : b < set.numOfBins)
    (hu : u ∈ entriesBy set h b (set.numOfElementsInBin b)) :
    ∃ j < set.maxBinSize, blockRow set masks random h b (set.numOfElementsInBin b) j
      = row set.maskSizeInBytes masks (binStart set.numOfElementsInBin b + u) := by
  obtain ⟨j, hj, hget⟩ := List.mem_iff_getElem.mp hu
  refine ⟨j, lt_of_lt_of_le hj (hfits b hb h hh), ?_⟩
  unfold blockRow
  rw [List.getElem?_eq_getElem hj, hget]

variable {V : Type*}

/-- In a table of `simple_hashing` every element has an entry in each of its bins. -/
theorem exists_entryBy {dummy : V} {hash : Nat → Hashed V} {ntasks : Nat}
    {out : SimpleHashOutput V} (hn : 0 < ntasks)
    (haddr : ∀ e < set.numOfElements, ∀ h < numHashFunctions,
      (hash e).address h < set.numOfBins)
    (hout : simpleHashing dummy hash set.numOfElements set.numOfBins ntasks = some out)
    (hcount : set.numOfElementsInBin = out.nelesinbin)
    (helements : set.elementsToHashTable = out.elementsToHashTable)
    (hbins : set.binToElementsToHashTable = out.binToElementsToHashTable) {e h : Nat}
    (he : e < set.numOfElements) (hh : h < numHashFunctions) :
    ∃ u ∈ entriesBy set h ((hash e).address h) (set.numOfElementsInBin ((hash e).address h)),
      set.elementsToHashTable (numHashFunctions * e + h)
          = binStart set.numOfElementsInBin ((hash e).address h) + u ∧
        set.binToElementsToHashTable (binStart set.numOfElementsInBin ((hash e).address h) + u)
          = numHashFunctions * e + h := by
  obtain ⟨u, hu, hto, hfrom, -⟩ :=
    (SimpleHashOutput.Spec.of_simpleHashing hn haddr hout).position he hh (haddr e he h hh)
  rw [← hcount] at hu hto hfrom
  rw [← helements] at hto
  rw [← hbins] at hfrom
  refine ⟨u, List.mem_filter.mpr ⟨List.mem_range.mpr hu, beq_iff_eq.mpr ?_⟩, hto, hfrom⟩
  refine Eq.trans (congrArg (· % numHashFunctions) hfrom) ?_
  rw [Nat.mul_add_mod, Nat.mod_eq_of_lt hh]

/-- **The leaders find what the follower wrote.** Read by the formulas of either leader, the block
of hash function `h` and bin `b` holds the shared masks of the bin's entries that were made by
`h`, each once and in table order, and filler behind them. So the mask of an element of the
table is among the candidates for its hash function and bin. -/
theorem simpleHashingNaiveRun_layout (set : FollowerSet) (hfits : set.Fits)
    (secretShare : Buf Byte) (random : Buf (Buf Byte)) :
    ∃ sent, simpleHashingNaiveRun set secretShare random = some sent ∧
      (∀ h < numHashFunctions, ∀ b < set.numOfBins,
        maxIndex set.numOfBins set.maxBinSize h b
            = minIndex set.numOfBins set.maxBinSize h b + set.maxBinSize ∧
          ∀ j < set.maxBinSize,
            columnPtr set.numOfBins set.maxBinSize set.maskSizeInBytes h b j
                = (minIndex set.numOfBins set.maxBinSize h b + j) * set.maskSizeInBytes ∧
              row set.maskSizeInBytes sent (minIndex set.numOfBins set.maxBinSize h b + j)
                = match (entriesBy set h b (set.numOfElementsInBin b))[j]? with
                  | some u =>
                      row set.maskSizeInBytes set.masks (binStart set.numOfElementsInBin b + u)
                        + row set.maskSizeInBytes secretShare b
                  | none => row set.maskSizeInBytes (random h) (b * set.maxBinSize + j)) ∧
      ∀ (dummy : V) (hash : Nat → Hashed V) (ntasks : Nat) (out : SimpleHashOutput V),
        0 < ntasks →
        (∀ e < set.numOfElements, ∀ h < numHashFunctions, (hash e).address h < set.numOfBins) →
        simpleHashing dummy hash set.numOfElements set.numOfBins ntasks = some out →
        set.numOfElementsInBin = out.nelesinbin →
        set.elementsToHashTable = out.elementsToHashTable →
        set.binToElementsToHashTable = out.binToElementsToHashTable →
        ∀ e < set.numOfElements, ∀ h < numHashFunctions,
          ∃ i, minIndex set.numOfBins set.maxBinSize h ((hash e).address h) ≤ i ∧
            i < maxIndex set.numOfBins set.maxBinSize h ((hash e).address h) ∧
            row set.maskSizeInBytes sent i
              = row set.maskSizeInBytes set.masks
                  (set.elementsToHashTable (numHashFunctions * e + h))
                + row set.maskSizeInBytes secretShare ((hash e).address h) := by
  obtain ⟨sent, hrun, hrows⟩ := simpleHashingNaiveRun_spec hfits secretShare random
  refine ⟨sent, hrun, fun h hh b hb => ⟨maxIndex_eq _ _ h b, fun j hj =>
    ⟨columnPtr_eq _ _ _ h b j, ?_⟩⟩, ?_⟩
  · rw [hrows h hh b hb j hj]
    unfold blockRow
    split
    · next u hu =>
        have hmem := List.mem_of_getElem? hu
        exact row_xorMasks _ _ _ hb (List.mem_range.mp (List.mem_filter.mp hmem).1)
    · rfl
  · intro dummy hash ntasks out hn haddr hout hcount helements hbins e he h hh
    have hbin := haddr e he h hh
    obtain ⟨u, hu, hto, -⟩ := exists_entryBy hn haddr hout hcount helements hbins he hh
    obtain ⟨j, hj, hrow⟩ := exists_blockRow hfits (xorMasks set.masks set.maskSizeInBytes
      secretShare set.numOfBins set.numOfElementsInBin) random hh hbin hu
    refine ⟨_, Nat.le_add_right _ j, by rw [maxIndex_eq]; omega, ?_⟩
    rw [hrows h hh _ hbin j hj, hrow,
      row_xorMasks _ _ _ hbin (List.mem_range.mp (List.mem_filter.mp hu).1), hto]

/-- Two elements: the first hash function puts both into bin 0, and two of the three hash functions
of each agree. -/
def twoHashes (e : Nat) : Hashed Unit :=
  ⟨fun h => ([[0, 1, 0], [0, 0, 1]].getD e []).getD h 0, ()⟩

/-- Their table in two bins. -/
def twoElementTable : SimpleHashOutput Unit := (simpleHashing () twoHashes 2 2 2).get rfl

def twoElementSet : FollowerSet where
  numOfElements := 2
  elementsToHashTable := twoElementTable.elementsToHashTable
  numOfElementsInBin := twoElementTable.nelesinbin
  numOfBins := 2
  masks := fun i => XorVec.ofBits (BitVec.ofNat 8 (i + 1))
  maskSizeInBytes := 1
  binToElementsToHashTable := twoElementTable.binToElementsToHashTable
  maxBinSize := 2

/-- The block of bin 0 for the first hash function has a mask of each element, that for the second
has one mask and a random one, and all masks are in their blocks. -/
theorem simpleHashingNaiveRun_layout_two :
    ∃ sent, simpleHashingNaiveRun twoElementSet (fun _ => 0) (fun _ _ => XorVec.ofBits 9)
        = some sent ∧
      (row 1 sent (minIndex 2 2 0 0 + 0) = row 1 twoElementSet.masks 0 + row 1 (fun _ => 0) 0 ∧
        row 1 sent (minIndex 2 2 0 0 + 1) = row 1 twoElementSet.masks 2 + row 1 (fun _ => 0) 0) ∧
      (row 1 sent (minIndex 2 2 1 0 + 0) = row 1 twoElementSet.masks 3 + row 1 (fun _ => 0) 0 ∧
        row 1 sent (minIndex 2 2 1 0 + 1) = fun _ => XorVec.ofBits 9) ∧
      ∀ e < 2, ∀ h < numHashFunctions, ∃ i,
        minIndex 2 2 h ((twoHashes e).address h) ≤ i ∧
        i < maxIndex 2 2 h ((twoHashes e).address h) ∧
        row 1 sent i = row 1 twoElementSet.masks
            (twoElementSet.elementsToHashTable (numHashFunctions * e + h))
          + row 1 (fun _ => 0) ((twoHashes e).address h) := by
  obtain ⟨sent, hrun, hrows, hmasks⟩ := simpleHashingNaiveRun_layout (V := Unit) twoElementSet
    (by unfold FollowerSet.Fits; decide) (fun _ => 0) (fun _ _ => XorVec.ofBits 9)
  have hfirst := (hrows 0 (by decide) 0 (by decide)).2
  have hsecond := (hrows 1 (by decide) 0 (by decide)).2
  have hentries : entriesBy twoElementSet 0 0 (twoElementSet.numOfElementsInBin 0) = [0, 2] ∧
      entriesBy twoElementSet 1 0 (twoElementSet.numOfElementsInBin 0) = [3] := by
    decide
  rw [hentries.1] at hfirst
  rw [hentries.2] at hsecond
  exact ⟨sent, hrun, ⟨(hfirst 0 (by decide)).2, (hfirst 1 (by decide)).2⟩,
    ⟨(hsecond 0 (by decide)).2, (hsecond 1 (by decide)).2⟩,
    hmasks () twoHashes 2 twoElementTable Nat.two_pos (by decide) (Option.some_get _).symm rfl rfl
      rfl⟩

end Read

end MultiPartyPSI
