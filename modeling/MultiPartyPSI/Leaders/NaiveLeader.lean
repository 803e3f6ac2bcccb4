import MultiPartyPSI.Leaders.Leader
import MultiPartyPSI.Hashing.HashingUtil

/-!
# The enumerating leader

`NaiveLeader.cpp`. To check an element the leader adds its own OPRG results to the share of
the bin, and then tries, follower by follower, all masks that came for the hash function.
A mask is added in place and added again when the rest of the search has failed.

`Searches` says what such a search on the share of a bin does: it succeeds exactly on the
shares that satisfy `Q`, restores the share when it fails, and leaves the other bins alone.
A loop over masks turns a search into a search.
-/

namespace MultiPartyPSI

open Lib Buf

section Model

/-- The loop of `isZeroXOR` over `n` masks from index `i` on, on the share at `pos`. -/
def tryMasks (search : Buf Byte → Bool × Buf Byte) (partyResult : Buf Byte)
    (pos maskSizeInBytes : Nat) : (n i : Nat) → Buf Byte → Bool × Buf Byte
  | 0, _, share => (false, share)
  | n + 1, i, share =>
      let r := search (XOR share pos partyResult (i * maskSizeInBytes) maskSizeInBytes)
      if r.1 then (true, r.2)
      else tryMasks search partyResult pos maskSizeInBytes n (i + 1)
        (XOR r.2 pos partyResult (i * maskSizeInBytes) maskSizeInBytes)

/-- `isZeroXOR` with `left` parties left, the first of them `partyNum`, where the masks of a
party are those from `minIndex` to `maxIndex`. -/
def isZeroXORFrom (partiesResults : Nat → Buf Byte) (pos maskSizeInBytes minIndex maxIndex : Nat) :
    (left partyNum : Nat) → Buf Byte → Bool × Buf Byte
  | 0, _, share => (isZero share pos maskSizeInBytes, share)
  | left + 1, partyNum, share =>
      tryMasks (isZeroXORFrom partiesResults pos maskSizeInBytes minIndex maxIndex left
        (partyNum + 1)) (partiesResults partyNum) pos maskSizeInBytes (maxIndex - minIndex) minIndex
        share

/-- What the leader holds: `m_parties.size()`, and the results of its own and of the parties. -/
structure NaiveLeader where
  numParties : Nat
  setSize : Nat
  maskSizeInBytes : Nat
  leaderResults : Nat → Buf Byte
  partiesResults : Nat → Buf Byte

/-- `NaiveLeader::isZeroXOR`, with `formerShare` at `pos`. There are parties left as long as
`partyNum <= m_parties.size()+1`. -/
def NaiveLeader.isZeroXOR (l : NaiveLeader) (pos partyNum hashIndex : Nat) (share : Buf Byte) :
    Bool × Buf Byte :=
  isZeroXORFrom l.partiesResults pos l.maskSizeInBytes (hashIndex * l.setSize)
    ((hashIndex + 1) * l.setSize) (l.numParties + 2 - partyNum) partyNum share

/-- The first loop of `isElementInAllSets`; the followers are the parties from 2 on. -/
def xorLeaderResults (leaderResults : Nat → Buf Byte) (numParties maskSizeInBytes pos
    tableIndex : Nat) (share : Buf Byte) : Buf Byte :=
  loop (fun i share =>
    XOR share pos (leaderResults (i + 2)) (tableIndex * maskSizeInBytes) maskSizeInBytes)
    numParties share

/-- `NaiveLeader::isElementInAllSets`. -/
def NaiveLeader.isElementInAllSets (l : NaiveLeader) : ElementCheck :=
  fun _ binIndex tableIndex hashFuncIndex share =>
    l.isZeroXOR (binIndex * l.maskSizeInBytes) 2 hashFuncIndex
      (xorLeaderResults l.leaderResults l.numParties l.maskSizeInBytes
        (binIndex * l.maskSizeInBytes) tableIndex share)

end Model

/-! ## Searches -/

section Search

variable {w b : Nat}

/-- `search` works on the share of bin `b` and succeeds on the shares with `Q`. -/
structure Searches (w b : Nat) (search : Buf Byte → Bool × Buf Byte)
    (Q : (Fin w → Byte) → Prop) : Prop where
  answer : ∀ share, (search share).1 = true ↔ Q (row w share b)
  restores : ∀ share, (search share).1 = false → (search share).2 = share
  frame : ∀ share b', b' ≠ b → row w (search share).2 b' = row w share b'

theorem searches_isZero : Searches w b (fun share => (isZero share (b * w) w, share))
    fun v => v = 0 :=
  ⟨fun share => isZero_row share b w, fun _ _ => rfl, fun _ _ _ => rfl⟩

section Try

variable {search : Buf Byte → Bool × Buf Byte} {Q : (Fin w → Byte) → Prop}

/-- A mask that leads to success ends the loop. -/
theorem tryMasks_found {partyResult : Buf Byte} {n i : Nat} {share : Buf Byte}
    (hr : (search (XOR share (b * w) partyResult (i * w) w)).1 = true) :
    tryMasks search partyResult (b * w) w (n + 1) i share
      = (true, (search (XOR share (b * w) partyResult (i * w) w)).2) :=
  if_pos hr

/-- A mask that does not is undone, and the loop goes on from the same share. -/
theorem Searches.tryMasks_failed (h : Searches w b search Q) {partyResult : Buf Byte} {n i : Nat}
    {share : Buf Byte} (hr : (search (XOR share (b * w) partyResult (i * w) w)).1 = false) :
    MultiPartyPSI.tryMasks search partyResult (b * w) w (n + 1) i share
      = MultiPartyPSI.tryMasks search partyResult (b * w) w n (i + 1) share := by
  refine (if_neg fun ht => Bool.false_ne_true (hr.symm.trans ht)).trans ?_
  rw [h.restores _ hr, XOR_XOR]

/-- Trying the masks from `i` on. -/
theorem Searches.tryMasks (h : Searches w b search Q) (partyResult : Buf Byte) (n i : Nat) :
    Searches w b (tryMasks search partyResult (b * w) w n i)
      fun v => ∃ k, i ≤ k ∧ k < i + n ∧ Q (v + row w partyResult k) := by
  induction n generalizing i with
  | zero =>
      refine ⟨fun share => ⟨fun hf => absurd hf Bool.false_ne_true, fun hk => ?_⟩,
        fun _ _ => rfl, fun _ _ _ => rfl⟩
      obtain ⟨k, h1, h2, -⟩ := hk
      omega
  | succ n ih =>
      have hanswer : ∀ share, (search (XOR share (b * w) partyResult (i * w) w)).1 = true
          ↔ Q (row w share b + row w partyResult i) := fun share => by
        rw [h.answer, row_XOR_same]
      refine ⟨fun share => ?_, fun share hf => ?_, fun share b' hb' => ?_⟩ <;>
        rcases hr : (search (XOR share (b * w) partyResult (i * w) w)).1 with _ | _
      · -- the mask at `i` fails, so the right one comes later
        have hno : ¬ Q (row w share b + row w partyResult i) := by
          rw [← hanswer, hr]
          exact Bool.false_ne_true
        rw [h.tryMasks_failed hr, (ih (i + 1)).answer]
        refine exists_congr fun k => ⟨fun hk => ⟨by omega, by omega, hk.2.2⟩, fun hk => ?_⟩
        rcases Nat.eq_or_lt_of_le hk.1 with heq | hlt
        · rw [heq] at hno
          exact absurd hk.2.2 hno
        · exact ⟨hlt, by omega, hk.2.2⟩
      · rw [tryMasks_found hr]
        exact ⟨fun _ => ⟨i, le_rfl, by omega, (hanswer share).mp hr⟩, fun _ => rfl⟩
      · rw [h.tryMasks_failed hr] at hf ⊢
        exact (ih (i + 1)).restores _ hf
      · rw [tryMasks_found hr] at hf
        exact absurd hf.symm Bool.false_ne_true
      · rw [h.tryMasks_failed hr]
        exact (ih (i + 1)).frame _ _ hb'
      · rw [tryMasks_found hr]
        exact (h.frame _ _ hb').trans (row_XOR_ne _ _ _ _ hb')

end Try

/-- **The whole search**: one mask for each party left, all from the window, that add up to the
share. -/
theorem searches_isZeroXORFrom (partiesResults : Nat → Buf Byte) (minIndex maxIndex left
    partyNum : Nat) :
    Searches w b (isZeroXORFrom partiesResults (b * w) w minIndex maxIndex left partyNum) fun v =>
      ∃ c : Nat → Nat, (∀ p, partyNum ≤ p → p < partyNum + left →
          minIndex ≤ c p ∧ c p < maxIndex) ∧
        v + ∑ p ∈ Finset.Ico partyNum (partyNum + left), row w (partiesResults p) (c p) = 0 := by
  induction left generalizing partyNum with
  | zero =>
      refine ⟨fun share => ?_, fun _ _ => rfl, fun _ _ _ => rfl⟩
      rw [Nat.add_zero, Finset.Ico_self]
      refine (searches_isZero.answer share).trans ⟨fun hv => ⟨fun _ => 0, fun p h1 h2 => ?_, ?_⟩,
        fun hc => ?_⟩
      · omega
      · rw [hv, Finset.sum_empty, add_zero]
      · obtain ⟨c, -, hc⟩ := hc
        rwa [Finset.sum_empty, add_zero] at hc
  | succ left ih =>
      -- the masks of this party, each followed by the search for the other parties
      have hloop := (ih (partyNum + 1)).tryMasks (partiesResults partyNum) (maxIndex - minIndex)
        minIndex
      refine ⟨fun share => (hloop.answer share).trans ?_, hloop.restores, hloop.frame⟩
      have hsum : ∀ c : Nat → Nat, ∑ p ∈ Finset.Ico partyNum (partyNum + (left + 1)),
            row w (partiesResults p) (c p)
          = row w (partiesResults partyNum) (c partyNum)
            + ∑ p ∈ Finset.Ico (partyNum + 1) (partyNum + 1 + left),
                row w (partiesResults p) (c p) := fun c => by
        rw [Finset.sum_eq_sum_Ico_succ_bot (by omega), show partyNum + (left + 1)
          = partyNum + 1 + left by omega]
      refine ⟨?_, ?_⟩
      · intro hk
        obtain ⟨k, h1, h2, c, hc, hzero⟩ := hk
        refine ⟨Function.update c partyNum k, fun p hp hp' => ?_, ?_⟩
        · by_cases hpp : p = partyNum
          · rw [hpp, Function.update_self]
            omega
          · rw [Function.update_of_ne hpp]
            exact hc p (by omega) (by omega)
        · rw [hsum, Function.update_self, ← add_assoc, ← hzero]
          congr 1
          refine Finset.sum_congr rfl fun p hp => ?_
          have := (Finset.mem_Ico.mp hp).1
          rw [Function.update_of_ne (by omega)]
      · intro hc
        obtain ⟨c, hc, hzero⟩ := hc
        obtain ⟨h1, h2⟩ := hc partyNum le_rfl (by omega)
        refine ⟨c partyNum, h1, by omega, c, fun p hp hp' => hc p (by omega) (by omega), ?_⟩
        rw [add_assoc, ← hsum]
        exact hzero

end Search

/-! ## The check of an element -/

section Check

variable {w b : Nat}

theorem row_xorLeaderResults (leaderResults : Nat → Buf Byte) (numParties tableIndex : Nat)
    (share : Buf Byte) :
    row w (xorLeaderResults leaderResults numParties w (b * w) tableIndex share) b
      = row w share b
        + ∑ p ∈ Finset.Ico 2 (2 + numParties), row w (leaderResults p) tableIndex := by
  refine loop_induct (P := fun i (m : Buf Byte) => row w m b
    = row w share b + ∑ p ∈ Finset.Ico 2 (2 + i), row w (leaderResults p) tableIndex) numParties
    ?_ ?_
  · rw [Nat.add_zero, Finset.Ico_self, Finset.sum_empty, add_zero]
  · intro i m _ hm
    rw [row_XOR_same, hm, ← Nat.add_assoc, Finset.sum_Ico_succ_top (by omega), add_assoc,
      Nat.add_comm i 2]

theorem row_xorLeaderResults_ne (leaderResults : Nat → Buf Byte) (numParties tableIndex : Nat)
    (share : Buf Byte) {b' : Nat} (hb : b' ≠ b) :
    row w (xorLeaderResults leaderResults numParties w (b * w) tableIndex share) b'
      = row w share b' := by
  refine loop_induct (P := fun _ (m : Buf Byte) => row w m b' = row w share b') numParties rfl ?_
  intro i m _ hm
  rw [row_XOR_ne _ _ _ _ hb, hm]

variable (l : NaiveLeader)

/-- **An element is accepted exactly when one mask of each follower, among those that came for
its hash function, cancels its share and the leader's results.** -/
theorem NaiveLeader.isElementInAllSets_iff (index b tableIndex h : Nat) (share : Buf Byte) :
    (l.isElementInAllSets index b tableIndex h share).1 = true
      ↔ ∃ c : Nat → Nat, (∀ p, 2 ≤ p → p < 2 + l.numParties →
          h * l.setSize ≤ c p ∧ c p < (h + 1) * l.setSize) ∧
        row l.maskSizeInBytes share b
          + ∑ p ∈ Finset.Ico 2 (2 + l.numParties),
              row l.maskSizeInBytes (l.leaderResults p) tableIndex
          + ∑ p ∈ Finset.Ico 2 (2 + l.numParties),
              row l.maskSizeInBytes (l.partiesResults p) (c p) = 0 := by
  unfold NaiveLeader.isElementInAllSets NaiveLeader.isZeroXOR
  rw [(searches_isZeroXORFrom l.partiesResults _ _ _ 2).answer, row_xorLeaderResults,
    Nat.add_sub_cancel]

theorem NaiveLeader.localCheck : LocalCheck l.maskSizeInBytes l.isElementInAllSets := by
  refine ⟨fun i b t h share b' hb' => ?_, fun i b t h share share' hrow => ?_⟩
  · unfold NaiveLeader.isElementInAllSets NaiveLeader.isZeroXOR
    rw [(searches_isZeroXORFrom l.partiesResults _ _ _ 2).frame _ b' hb',
      row_xorLeaderResults_ne _ _ _ _ hb']
  · rw [Bool.eq_iff_iff, l.isElementInAllSets_iff, l.isElementInAllSets_iff, hrow]

end Check

end MultiPartyPSI
