import MultiPartyPSI.Gbf.Util
import Mathlib.Algebra.BigOperators.Group.Finset.Basic

/-!
# Garbled Bloom filter

`GBF_Create`, `GBF_add` and the leader's `GBF_query`. An element is stored in the XOR of
its distinct slots: the insertion keeps the first slot it finds unmarked for last, and
puts there what is missing from the XOR of the others.

What makes it work is that a marked slot is never written again. So an element is
answered by its slots from the moment they are all marked, and the insertion leaves
them all marked.
-/

namespace MultiPartyPSI

open Lib Buf

section Model

variable {E : Type*} {m : Nat}

/-- `GarbledBF`, with `m` slots. -/
structure GarbledBF (m : Nat) where
  data : Buf Byte
  bf : Buf Nat
  k : Nat
  indexes : Buf Nat
  gbfSigmaByteLen : Nat

/-- `GarbledBloomFilter::GBF_Create`; `random` is a null pointer in the leader. -/
def gbfCreate (m k maskSize : Nat) (random : Option (Buf Byte)) : GarbledBF m where
  data := match random with
    | some random => copy (fun _ => 0) 0 random 0 (m * maskSize)
    | none => fun _ => 0
  bf := fun _ => 0
  k := k
  indexes := fun _ => 0
  gbfSigmaByteLen := maskSize

/-- The variables of `GBF_add`: the filter's `bf` and `indexes`, and its locals. -/
structure AddState where
  bf : Buf Nat
  indHis : Buf Nat
  finalShare : Buf Byte
  emptySlot : Int

/-- One index of `GBF_add`. -/
def addIndex (filter : GarbledBF m) (index i : Nat) (s : AddState) : AddState :=
  let indHis := s.indHis.write i index
  if existsIn index indHis i then { s with indHis := indHis }
  else
    let share := xorByteArray s.finalShare 0 filter.data (index * filter.gbfSigmaByteLen)
      filter.gbfSigmaByteLen
    if s.bf index = 0 then
      if s.emptySlot = -1 then { s with indHis := indHis, emptySlot := index }
      else { s with indHis := indHis, finalShare := share, bf := s.bf.write index 1 }
    else { s with indHis := indHis, finalShare := share }

/-- The loop of `GBF_add`. -/
def addIndices (filter : GarbledBF m) (hashes : Nat → E → Fin m) (element : E)
    (ehash : Buf Byte) (ehashPos n : Nat) : AddState :=
  loop (fun i => addIndex filter (hashes i element) i) n
    ⟨filter.bf, filter.indexes, copy (fun _ => 0) 0 ehash ehashPos filter.gbfSigmaByteLen, -1⟩

/-- `GBF_add`, with the mask at `ehash + ehashPos`. It fails when it is asked for another
number of hash functions, and, with `emptySlot` still `-1`, by writing in front of `bf`. -/
def gbfAdd (filter : GarbledBF m) (hashes : Nat → E → Fin m) (hashNum : Nat) (element : E)
    (ehash : Buf Byte) (ehashPos : Nat) : Option (GarbledBF m) :=
  if filter.k = hashNum then
    let s := addIndices filter hashes element ehash ehashPos hashNum
    if s.emptySlot = -1 then none
    else
      some { filter with
        data := copy filter.data (s.emptySlot.toNat * filter.gbfSigmaByteLen) s.finalShare 0
          filter.gbfSigmaByteLen
        bf := s.bf.write s.emptySlot.toNat 1
        indexes := s.indHis }
  else none

/-- Calls of `GBF_add` one after another, each with an element and its mask. -/
def gbfAdds (hashes : Nat → E → Fin m) (hashNum : Nat) (filter : GarbledBF m)
    (adds : List (E × Buf Byte)) : Option (GarbledBF m) :=
  adds.foldlM (fun filter a => gbfAdd filter hashes hashNum a.1 a.2 0) filter

/-- `GBFLeader::GBF_query`: the recovered mask and the indices. -/
def gbfQuery (filter : GarbledBF m) (k maskSize : Nat) (hashes : Nat → E → Fin m) (element : E)
    (indexes : Buf Nat) : Buf Byte × Buf Nat :=
  loop (fun i s =>
      let index : Nat := hashes i element
      let indexes := s.2.write i index
      if existsIn index indexes i then (s.1, indexes)
      else
        (xorByteArray s.1 0 filter.data (index * filter.gbfSigmaByteLen)
          filter.gbfSigmaByteLen, indexes))
    k (fill (fun _ => 0) 0 0 maskSize, indexes)

/-- `GBFFollower::buildGBFInThread`, for the hash function `hashIndex` of the bins. -/
def buildGBFInThread (numOfElements numOfHashFunctions maskSizeInBytes hashIndex : Nat)
    (elementsToHashTable : Nat → Nat) (realElements : Nat → E) (masks : Buf Byte)
    (hashes : Nat → E → Fin m) (k : Nat) (filter : GarbledBF m) : Option (GarbledBF m) :=
  loopM (fun j filter =>
    let index := elementsToHashTable (j * numOfHashFunctions + hashIndex)
    gbfAdd filter hashes k (realElements j) masks (index * maskSizeInBytes)) numOfElements filter

/-- The call meets an unmarked slot. -/
def FindsFree (filter : GarbledBF m) (hashes : Nat → E → Fin m) (k : Nat) (element : E) : Prop :=
  ∃ i < k, filter.bf (hashes i element) = 0

/-- Every call of the sequence meets an unmarked slot. -/
def EachFindsFree (hashes : Nat → E → Fin m) (k : Nat) :
    GarbledBF m → List (E × Buf Byte) → Prop
  | _, [] => True
  | filter, a :: adds => FindsFree filter hashes k a.1 ∧
      ∀ filter', gbfAdd filter hashes k a.1 a.2 0 = some filter' →
        EachFindsFree hashes k filter' adds

end Model

/-! ## The distinct slots of an element -/

section Slots

variable {E : Type*} {m : Nat} (hashes : Nat → E → Fin m) (element : E)

/-- The slots that the first `n` hash functions give. -/
def slots (n : Nat) : Finset Nat := (Finset.range n).image fun i => (hashes i element : Nat)

variable {hashes element}

theorem mem_slots {n d : Nat} :
    d ∈ slots hashes element n ↔ ∃ i < n, (hashes i element : Nat) = d := by
  simp only [slots, Finset.mem_image, Finset.mem_range]

theorem slots_succ (n : Nat) :
    slots hashes element (n + 1) = insert (hashes n element : Nat) (slots hashes element n) := by
  rw [slots, Finset.range_add_one, Finset.image_insert, slots]

/-- The history of indices, after `n` rounds. -/
def History (hashes : Nat → E → Fin m) (element : E) (indexes : Buf Nat) (n : Nat) : Prop :=
  ∀ j < n, indexes j = hashes j element

theorem History.write {indexes : Buf Nat} {n : Nat} (h : History hashes element indexes n) :
    History hashes element (indexes.write n (hashes n element)) (n + 1) := by
  intro j hj
  by_cases hjn : j = n
  · rw [hjn, write_same]
  · rw [write_ne _ _ hjn]
    exact h j (by omega)

/-- `exists` finds exactly the slots that came up before. -/
theorem History.existsIn_iff {indexes : Buf Nat} {n : Nat}
    (h : History hashes element indexes n) :
    existsIn (hashes n element) (indexes.write n (hashes n element)) n = true
      ↔ (hashes n element : Nat) ∈ slots hashes element n := by
  rw [MultiPartyPSI.existsIn_iff, mem_slots]
  refine exists_congr fun j => and_congr_right fun hj => ?_
  rw [h.write j (by omega)]

end Slots

/-! ## What a query returns -/

section Query

variable {E : Type*} {m : Nat} {hashes : Nat → E → Fin m} {element : E}

theorem row_copy_zero (w : Nat) (a b : Buf Byte) (q : Nat) :
    row w (copy a 0 b q w) 0 = fun j : Fin w => b (q + j) := by
  have h := row_zipInto_same (fun _ b => b) a 0 b q w
  rwa [Nat.zero_mul] at h

theorem row_XOR_zero (w : Nat) (a b : Buf Byte) (d : Nat) :
    row w (XOR a 0 b (d * w) w) 0 = row w a 0 + row w b d := by
  have h := row_XOR_same a b 0 d w
  rwa [Nat.zero_mul] at h

/-- **A query returns the XOR of the element's distinct slots.** -/
theorem row_gbfQuery (filter : GarbledBF m) (k : Nat) (hashes : Nat → E → Fin m) (element : E)
    (indexes : Buf Nat) :
    row filter.gbfSigmaByteLen
        (gbfQuery filter k filter.gbfSigmaByteLen hashes element indexes).1 0
      = ∑ d ∈ slots hashes element k, row filter.gbfSigmaByteLen filter.data d := by
  refine (loop_induct (P := fun i (s : Buf Byte × Buf Nat) =>
    History hashes element s.2 i ∧
      row filter.gbfSigmaByteLen s.1 0
        = ∑ d ∈ slots hashes element i, row filter.gbfSigmaByteLen filter.data d) k
    ⟨fun _ hj => absurd hj (Nat.not_lt_zero _), ?_⟩ ?_).2
  · funext j
    show fill (fun _ => (0 : Byte)) 0 0 filter.gbfSigmaByteLen _ = 0
    rw [fill_apply, ite_self]
  · intro i s hi hs
    obtain ⟨hhis, hsum⟩ := hs
    rw [slots_succ]
    by_cases hmem : (hashes i element : Nat) ∈ slots hashes element i
    · rw [if_pos (hhis.existsIn_iff.mpr hmem), Finset.insert_eq_of_mem hmem]
      exact ⟨hhis.write, hsum⟩
    · rw [if_neg fun h => hmem (hhis.existsIn_iff.mp h), Finset.sum_insert hmem]
      refine ⟨hhis.write, ?_⟩
      rw [xorByteArray_eq, row_XOR_zero, hsum, add_comm]

end Query

/-! ## What an insertion does -/

section Add

variable {E : Type*} {m : Nat} {hashes : Nat → E → Fin m} {element : E}

/-- The slots seen so far, without the one kept for last, are marked, and `finalShare` is the
mask and their XOR. -/
structure AddState.Inv (filter : GarbledBF m) (hashes : Nat → E → Fin m) (element : E)
    (ehash : Buf Byte) (ehashPos i : Nat) (s : AddState) : Prop where
  history : History hashes element s.indHis i
  marked : ∀ d : Nat, s.bf d ≠ 0 ↔
    filter.bf d ≠ 0 ∨ (d ∈ slots hashes element i ∧ (d : Int) ≠ s.emptySlot)
  share : row filter.gbfSigmaByteLen s.finalShare 0
    = (fun j : Fin filter.gbfSigmaByteLen => ehash (ehashPos + j))
      + ∑ d ∈ (slots hashes element i).filter (fun d : Nat => (d : Int) ≠ s.emptySlot),
          row filter.gbfSigmaByteLen filter.data d
  /-- No slot is kept while none was free; one that is kept was free. -/
  kept : (s.emptySlot = -1 ∧ ∀ d ∈ slots hashes element i, filter.bf d ≠ 0) ∨
    ∃ d ∈ slots hashes element i, s.emptySlot = d ∧ filter.bf d = 0

variable {filter : GarbledBF m} {ehash : Buf Byte} {ehashPos i : Nat} {s : AddState}

theorem AddState.Inv.repeated (h : s.Inv filter hashes element ehash ehashPos i)
    (hmem : (hashes i element : Nat) ∈ slots hashes element i) :
    (addIndex filter (hashes i element) i s).Inv filter hashes element ehash ehashPos (i + 1) := by
  unfold addIndex
  -- the round is skipped but for the history
  rw [if_pos (h.history.existsIn_iff.mpr hmem)]
  have hslots : slots hashes element (i + 1) = slots hashes element i := by
    rw [slots_succ, Finset.insert_eq_of_mem hmem]
  refine ⟨h.history.write, ?_, ?_, ?_⟩ <;> rw [hslots]
  · exact h.marked
  · exact h.share
  · exact h.kept

/-- The first free slot is kept for last. -/
theorem AddState.Inv.keep (h : s.Inv filter hashes element ehash ehashPos i)
    (hmem : (hashes i element : Nat) ∉ slots hashes element i)
    (hbf : s.bf (hashes i element) = 0) (hempty : s.emptySlot = -1) :
    (addIndex filter (hashes i element) i s).Inv filter hashes element ehash ehashPos (i + 1) := by
  unfold addIndex
  rw [if_neg fun hex => hmem (h.history.existsIn_iff.mp hex), if_pos hbf, if_pos hempty]
  have hne : ∀ d : Nat, (d : Int) ≠ -1 := fun d => by omega
  -- the slot is not one of this call's, so it was free before the call
  have hfree : filter.bf (hashes i element) = 0 := by
    by_contra hf
    exact (h.marked _).mpr (Or.inl hf) hbf
  refine ⟨h.history.write, fun d => ?_, ?_, Or.inr ⟨_, ?_, rfl, hfree⟩⟩
  · rw [h.marked d, slots_succ, Finset.mem_insert, hempty]
    refine or_congr Iff.rfl ?_
    refine ⟨?_, ?_⟩
    · intro hd
      exact ⟨Or.inr hd.1, fun heq => hmem (by rw [← Int.ofNat_inj.mp heq]; exact hd.1)⟩
    · intro hd
      refine ⟨hd.1.resolve_left fun heq => hd.2 (by rw [heq]), hne d⟩
  · rw [h.share, hempty, slots_succ, Finset.filter_insert, if_neg (fun hno => hno rfl)]
    congr 2
    refine Finset.filter_congr fun d hd => ?_
    exact ⟨fun _ heq => hmem (by rw [← Int.ofNat_inj.mp heq]; exact hd), fun _ => hne d⟩
  · rw [slots_succ]
    exact Finset.mem_insert_self _ _

/-- Every other slot, free or not, is added to the share and marked. -/
theorem AddState.Inv.share_slot (h : s.Inv filter hashes element ehash ehashPos i)
    (hmem : (hashes i element : Nat) ∉ slots hashes element i)
    (hother : s.bf (hashes i element) = 0 → s.emptySlot ≠ -1) :
    (addIndex filter (hashes i element) i s).Inv filter hashes element ehash ehashPos (i + 1) := by
  -- the kept slot is one of an earlier round
  have hne : ((hashes i element : Nat) : Int) ≠ s.emptySlot := by
    intro heq
    rcases h.kept with hk | hk
    · rw [hk.1] at heq
      omega
    · obtain ⟨d, hd, hslot, -⟩ := hk
      exact hmem (by rw [Int.ofNat_inj.mp (heq.trans hslot)]; exact hd)
  have hshare : row filter.gbfSigmaByteLen (xorByteArray s.finalShare 0 filter.data
        ((hashes i element : Nat) * filter.gbfSigmaByteLen) filter.gbfSigmaByteLen) 0
      = (fun j : Fin filter.gbfSigmaByteLen => ehash (ehashPos + j))
        + ∑ d ∈ (slots hashes element (i + 1)).filter (fun d : Nat => (d : Int) ≠ s.emptySlot),
            row filter.gbfSigmaByteLen filter.data d := by
    rw [xorByteArray_eq, row_XOR_zero, h.share, slots_succ, Finset.filter_insert, if_pos hne,
      Finset.sum_insert fun hin => hmem (Finset.mem_filter.mp hin).1, add_assoc,
      add_comm (row filter.gbfSigmaByteLen filter.data _)]
  have hmarked : ∀ d : Nat, filter.bf d ≠ 0 ∨ (d ∈ slots hashes element (i + 1) ∧
      (d : Int) ≠ s.emptySlot) ↔ d = hashes i element ∨ s.bf d ≠ 0 := by
    intro d
    rw [h.marked d, slots_succ, Finset.mem_insert, or_and_right, or_left_comm]
    refine or_congr_left ⟨fun hd => hd.1, fun hd => ⟨hd, by rw [hd]; exact hne⟩⟩
  have hkept : (s.emptySlot = -1 → filter.bf (hashes i element) ≠ 0) →
      (s.emptySlot = -1 ∧ ∀ d ∈ slots hashes element (i + 1), filter.bf d ≠ 0) ∨
        ∃ d ∈ slots hashes element (i + 1), s.emptySlot = d ∧ filter.bf d = 0 := by
    intro hfree
    rw [slots_succ]
    rcases h.kept with hk | hk
    · exact Or.inl ⟨hk.1, (Finset.forall_mem_insert _ _ _).mpr ⟨hfree hk.1, hk.2⟩⟩
    · obtain ⟨d, hd, hslot, hd0⟩ := hk
      exact Or.inr ⟨d, Finset.mem_insert_of_mem hd, hslot, hd0⟩
  unfold addIndex
  rw [if_neg fun hex => hmem (h.history.existsIn_iff.mp hex)]
  by_cases hbf : s.bf (hashes i element) = 0
  · -- a free slot after the first is marked as it is
    rw [if_pos hbf, if_neg (hother hbf)]
    refine ⟨h.history.write, fun d => ?_, hshare, hkept fun he => absurd he (hother hbf)⟩
    rw [hmarked d]
    show s.bf.write _ 1 d ≠ 0 ↔ _
    by_cases hd : d = hashes i element
    · subst hd
      rw [write_same]
      exact ⟨fun _ => Or.inl rfl, fun _ => one_ne_zero⟩
    · rw [write_ne _ _ hd]
      exact ⟨Or.inr, fun hd' => hd'.resolve_left hd⟩
  · rw [if_neg hbf]
    -- this call has not marked it, so it was marked before
    have hold : filter.bf (hashes i element) ≠ 0 :=
      ((h.marked _).mp hbf).resolve_right fun hin => hmem hin.1
    refine ⟨h.history.write, fun d => ?_, hshare, hkept fun _ => hold⟩
    rw [hmarked d]
    exact ⟨Or.inr, fun hd => hd.elim (fun hd => by rw [hd]; exact hbf) id⟩

theorem AddState.Inv.step (h : s.Inv filter hashes element ehash ehashPos i) :
    (addIndex filter (hashes i element) i s).Inv filter hashes element ehash ehashPos (i + 1) := by
  by_cases hmem : (hashes i element : Nat) ∈ slots hashes element i
  · exact h.repeated hmem
  · by_cases hkeep : s.bf (hashes i element) = 0 ∧ s.emptySlot = -1
    · exact h.keep hmem hkeep.1 hkeep.2
    · exact h.share_slot hmem fun hbf he => hkeep ⟨hbf, he⟩

theorem addIndices_inv (filter : GarbledBF m) (hashes : Nat → E → Fin m) (element : E)
    (ehash : Buf Byte) (ehashPos n : Nat) :
    (addIndices filter hashes element ehash ehashPos n).Inv filter hashes element ehash ehashPos
      n := by
  refine loop_induct (P := fun i (s : AddState) =>
    s.Inv filter hashes element ehash ehashPos i) n ?_ fun i s _ h => h.step
  have hnone : slots hashes element 0 = ∅ := rfl
  refine ⟨fun _ hj => absurd hj (Nat.not_lt_zero _), fun d => ?_, ?_, Or.inl ⟨rfl, ?_⟩⟩ <;>
    rw [hnone]
  · exact ⟨Or.inl, fun hd => hd.resolve_right fun hin => Finset.notMem_empty _ hin.1⟩
  · rw [row_copy_zero, Finset.filter_empty, Finset.sum_empty, add_zero]
  · exact fun d hd => absurd hd (Finset.notMem_empty _)

/-- With `w` bytes a slot, the slots of an element are marked and give its mask. -/
structure GarbledBF.Locks (filter : GarbledBF m) (hashes : Nat → E → Fin m) (element : E) {w : Nat}
    (mask : Fin w → Byte) : Prop where
  marked : ∀ d ∈ slots hashes element filter.k, filter.bf d ≠ 0
  sum : ∑ d ∈ slots hashes element filter.k, row w filter.data d = mask

/-- What an insertion leaves as it was: the sizes, and every slot that was marked. -/
structure GarbledBF.Keeps (w : Nat) (filter filter' : GarbledBF m) : Prop where
  k : filter'.k = filter.k
  len : filter'.gbfSigmaByteLen = filter.gbfSigmaByteLen
  marked : ∀ d, filter.bf d ≠ 0 → filter'.bf d ≠ 0
  data : ∀ d, filter.bf d ≠ 0 → row w filter'.data d = row w filter.data d

theorem GarbledBF.Locks.keeps {w : Nat} {filter' : GarbledBF m} {mask : Fin w → Byte}
    (h : filter.Locks hashes element mask) (hkeeps : filter.Keeps w filter') :
    filter'.Locks hashes element mask := by
  refine ⟨fun d hd => ?_, ?_⟩
  · rw [hkeeps.k] at hd
    exact hkeeps.marked d (h.marked d hd)
  · rw [hkeeps.k, ← h.sum]
    exact Finset.sum_congr rfl fun d hd => hkeeps.data d (h.marked d hd)

/-- **An insertion that meets a free slot locks its element and spoils no marked slot.** -/
theorem gbfAdd_spec {w : Nat} (hw : filter.gbfSigmaByteLen = w) (ehash : Buf Byte)
    (ehashPos : Nat) (hfree : FindsFree filter hashes filter.k element) :
    ∃ filter', gbfAdd filter hashes filter.k element ehash ehashPos = some filter' ∧
      filter.Keeps w filter' ∧
      filter'.Locks hashes element fun j : Fin w => ehash (ehashPos + j) := by
  subst hw
  have hinv := addIndices_inv filter hashes element ehash ehashPos filter.k
  unfold gbfAdd
  rw [if_pos rfl]
  dsimp only
  generalize addIndices filter hashes element ehash ehashPos filter.k = s at hinv ⊢
  rcases hinv.kept with hk | hk
  · -- no slot was kept only if all are marked
    obtain ⟨i, hi, hfree⟩ := hfree
    exact absurd hfree (hk.2 _ (mem_slots.mpr ⟨i, hi, rfl⟩))
  · obtain ⟨e, he, hslot, he0⟩ := hk
    have hrow : row filter.gbfSigmaByteLen (copy filter.data (e * filter.gbfSigmaByteLen)
        s.finalShare 0 filter.gbfSigmaByteLen) e = row filter.gbfSigmaByteLen s.finalShare 0 := by
      have hcopy := row_copy_same filter.data e s.finalShare 0 filter.gbfSigmaByteLen
      rwa [Nat.zero_mul] at hcopy
    have hmarked : ∀ d : Nat, filter.bf d ≠ 0 ∨ d ∈ slots hashes element filter.k →
        s.bf.write e 1 d ≠ 0 := by
      intro d hd
      by_cases hde : d = e
      · rw [hde, write_same]
        exact one_ne_zero
      · rw [write_ne _ _ hde]
        refine (hinv.marked d).mpr (hd.imp_right fun hd => ⟨hd, ?_⟩)
        rw [hslot]
        exact fun heq => hde (Int.ofNat_inj.mp heq)
    rw [if_neg (by omega), hslot, Int.toNat_natCast]
    refine ⟨_, rfl, ⟨rfl, rfl, fun d hd => hmarked d (Or.inl hd), fun d hd => ?_⟩,
      fun d hd => hmarked d (Or.inr hd), ?_⟩
    · exact row_copy_ne _ _ _ _ fun heq => hd (by rw [heq, he0])
    · -- the kept slot holds the mask and the XOR of the other slots
      have hothers : (slots hashes element filter.k).filter (fun d : Nat => (d : Int) ≠ s.emptySlot)
          = (slots hashes element filter.k).erase e := by
        ext d
        rw [Finset.mem_filter, Finset.mem_erase, hslot, and_comm]
        exact and_congr_left fun _ => not_congr Int.ofNat_inj
      have hsame : ∀ d ∈ (slots hashes element filter.k).erase e,
          row filter.gbfSigmaByteLen (copy filter.data (e * filter.gbfSigmaByteLen)
            s.finalShare 0 filter.gbfSigmaByteLen) d
          = row filter.gbfSigmaByteLen filter.data d :=
        fun d hd => row_copy_ne _ _ _ _ (Finset.ne_of_mem_erase hd)
      rw [← Finset.add_sum_erase _ _ he, hrow, hinv.share, hothers, Finset.sum_congr rfl hsame]
      exact XorGroup.add_cancel_right _ _

end Add

/-! ## Any sequence of insertions -/

section Run

variable {E : Type*} {m : Nat} {hashes : Nat → E → Fin m}

theorem gbfAdds_cons (k : Nat) (filter : GarbledBF m) (a : E × Buf Byte)
    (adds : List (E × Buf Byte)) :
    gbfAdds hashes k filter (a :: adds)
      = (gbfAdd filter hashes k a.1 a.2 0).bind fun filter => gbfAdds hashes k filter adds := rfl

theorem gbfAdds_append (k : Nat) (filter : GarbledBF m) (adds adds' : List (E × Buf Byte)) :
    gbfAdds hashes k filter (adds ++ adds')
      = (gbfAdds hashes k filter adds).bind fun filter => gbfAdds hashes k filter adds' :=
  List.foldlM_append

/-- The filter after the insertions `adds`: every element added so far is locked. -/
structure GarbledBF.Holds (filter : GarbledBF m) (hashes : Nat → E → Fin m) (k w : Nat)
    (adds : List (E × Buf Byte)) : Prop where
  k : filter.k = k
  len : filter.gbfSigmaByteLen = w
  locks : ∀ a ∈ adds, filter.Locks hashes a.1 (row w a.2 0)

theorem gbfCreate_holds (m k w : Nat) (random : Option (Buf Byte)) (hashes : Nat → E → Fin m) :
    (gbfCreate m k w random).Holds hashes k w [] :=
  ⟨rfl, rfl, fun _ ha => absurd ha List.not_mem_nil⟩

theorem GarbledBF.Holds.add {filter : GarbledBF m} {k w : Nat} {adds : List (E × Buf Byte)}
    (h : filter.Holds hashes k w adds) (a : E × Buf Byte)
    (hfree : FindsFree filter hashes k a.1) :
    ∃ filter', gbfAdd filter hashes k a.1 a.2 0 = some filter' ∧
      filter'.Holds hashes k w (adds ++ [a]) := by
  rw [← h.k] at hfree
  obtain ⟨filter', hadd, hkeeps, hlock⟩ := gbfAdd_spec h.len a.2 0 hfree
  rw [h.k] at hadd
  refine ⟨filter', hadd, hkeeps.k.trans h.k, hkeeps.len.trans h.len, fun b hb => ?_⟩
  rcases List.mem_append.mp hb with hb | hb
  · exact (h.locks b hb).keeps hkeeps
  · rw [List.mem_singleton.mp hb]
    have hrow : row w a.2 0 = fun j : Fin w => a.2 (0 + j) := by
      funext j
      rw [row_apply, Nat.zero_mul]
    rw [hrow]
    exact hlock

/-- **A run in which every insertion finds a free slot holds all that was added.** -/
theorem gbfAdds_holds {filter : GarbledBF m} {k w : Nat} {added adds : List (E × Buf Byte)}
    (h : filter.Holds hashes k w added) (hfree : EachFindsFree hashes k filter adds) :
    ∃ filter', gbfAdds hashes k filter adds = some filter' ∧
      filter'.Holds hashes k w (added ++ adds) := by
  induction adds generalizing filter added with
  | nil => exact ⟨filter, rfl, by rwa [List.append_nil]⟩
  | cons a adds ih =>
      obtain ⟨hfirst, hrest⟩ := hfree
      obtain ⟨filter', hadd, h'⟩ := h.add a hfirst
      obtain ⟨last, hrun, hlast⟩ := ih h' (hrest filter' hadd)
      refine ⟨last, ?_, ?_⟩
      · rw [gbfAdds_cons, hadd]
        exact hrun
      · rwa [List.append_assoc] at hlast

/-- A filter that holds an element answers it. -/
theorem GarbledBF.Holds.query {filter : GarbledBF m} {k w : Nat} {adds : List (E × Buf Byte)}
    (h : filter.Holds hashes k w adds) {a : E × Buf Byte} (ha : a ∈ adds) (indexes : Buf Nat)
    {j : Nat} (hj : j < w) : (gbfQuery filter k w hashes a.1 indexes).1 j = a.2 j := by
  obtain ⟨rfl, rfl, hlocks⟩ := h
  have hrow := row_gbfQuery filter filter.k hashes a.1 indexes
  rw [(hlocks a ha).sum] at hrow
  have hcell := congrFun hrow ⟨j, hj⟩
  rwa [row_apply, row_apply, Nat.zero_mul, Nat.zero_add] at hcell

end Run

/-! ## The follower's filter -/

section Follower

variable {E : Type*} {m : Nat} {hashes : Nat → E → Fin m}

/-- What `buildGBFInThread` inserts: element `j` with the mask at its position. -/
def buildAdds (numOfHashFunctions maskSizeInBytes hashIndex : Nat)
    (elementsToHashTable : Nat → Nat) (realElements : Nat → E) (masks : Buf Byte)
    (numOfElements : Nat) : List (E × Buf Byte) :=
  (List.range numOfElements).map fun j => (realElements j, fun i =>
    masks (elementsToHashTable (j * numOfHashFunctions + hashIndex) * maskSizeInBytes + i))

theorem gbfAdd_shift (filter : GarbledBF m) (hashNum : Nat) (element : E) (ehash : Buf Byte)
    (ehashPos : Nat) :
    gbfAdd filter hashes hashNum element ehash ehashPos
      = gbfAdd filter hashes hashNum element (fun i => ehash (ehashPos + i)) 0 := by
  have hcopy : copy (fun _ => 0) 0 ehash ehashPos filter.gbfSigmaByteLen
      = copy (fun _ => 0) 0 (fun i => ehash (ehashPos + i)) 0 filter.gbfSigmaByteLen := by
    funext i
    simp only [copy_apply, Nat.zero_add]
  unfold gbfAdd addIndices
  rw [hcopy]

theorem buildGBFInThread_eq (numOfElements numOfHashFunctions maskSizeInBytes hashIndex : Nat)
    (elementsToHashTable : Nat → Nat) (realElements : Nat → E) (masks : Buf Byte) (k : Nat)
    (filter : GarbledBF m) :
    buildGBFInThread numOfElements numOfHashFunctions maskSizeInBytes hashIndex
        elementsToHashTable realElements masks hashes k filter
      = gbfAdds hashes k filter (buildAdds numOfHashFunctions maskSizeInBytes hashIndex
          elementsToHashTable realElements masks numOfElements) := by
  induction numOfElements with
  | zero => rfl
  | succ n ih =>
      unfold buildGBFInThread buildAdds at ih ⊢
      rw [loopM_succ, ih, List.range_succ, List.map_append, gbfAdds_append]
      refine congrArg _ (funext fun filter => ?_)
      rw [gbfAdd_shift]
      exact (Option.bind_fun_some _).symm

/-- An insertion marks the slots of its element, and no others. -/
theorem marked_gbfAdd {filter filter' : GarbledBF m} {k : Nat} {element : E} {ehash : Buf Byte}
    {ehashPos : Nat} (h : gbfAdd filter hashes k element ehash ehashPos = some filter') {d : Nat}
    (hd : filter'.bf d ≠ 0) : filter.bf d ≠ 0 ∨ d ∈ slots hashes element k := by
  unfold gbfAdd at h
  split at h
  · next hk =>
      subst hk
      have hinv := addIndices_inv filter hashes element ehash ehashPos filter.k
      dsimp only at h
      generalize addIndices filter hashes element ehash ehashPos filter.k = s at hinv h
      split at h
      · cases h
      · next hslot =>
          cases h
          obtain ⟨e, he, heq, -⟩ := hinv.kept.resolve_left fun hnone => hslot hnone.1
          dsimp only at hd
          rw [heq, Int.toNat_natCast] at hd
          by_cases hde : d = e
          · exact Or.inr (hde ▸ he)
          · rw [write_ne _ _ hde] at hd
            exact ((hinv.marked d).mp hd).imp_right And.left
  · cases h

/-- Every call finds a free slot if each element has one that is marked neither before nor by the
elements before it. -/
theorem eachFindsFree_of_slots {k : Nat} {filter : GarbledBF m} {adds : List (E × Buf Byte)}
    (h : ∀ n (hn : n < adds.length), ∃ i < k, filter.bf (hashes i adds[n].1) = 0 ∧
      ∀ n' (hn' : n' < n), (hashes i adds[n].1 : Nat) ∉ slots hashes adds[n'].1 k) :
    EachFindsFree hashes k filter adds := by
  induction adds generalizing filter with
  | nil => trivial
  | cons a adds ih =>
      obtain ⟨i, hi, hfree, -⟩ := h 0 (Nat.succ_pos _)
      refine ⟨⟨i, hi, hfree⟩, fun filter' hadd => ih fun n hn => ?_⟩
      obtain ⟨i, hi, hfree, hbefore⟩ := h (n + 1) (Nat.succ_lt_succ hn)
      refine ⟨i, hi, ?_, fun n' hn' => hbefore (n' + 1) (Nat.succ_lt_succ hn')⟩
      by_contra hmarked
      rcases marked_gbfAdd hadd hmarked with hold | hslot
      · exact hold hfree
      · exact hbefore 0 (Nat.succ_pos _) hslot

/-- The filter of a follower answers each element by the mask at its position. -/
theorem gbfQuery_buildGBFInThread {numOfElements numOfHashFunctions maskSizeInBytes hashIndex : Nat}
    {elementsToHashTable : Nat → Nat} {realElements : Nat → E} {masks : Buf Byte} {k : Nat}
    (random : Option (Buf Byte))
    (hfree : EachFindsFree hashes k (gbfCreate m k maskSizeInBytes random)
      (buildAdds numOfHashFunctions maskSizeInBytes hashIndex elementsToHashTable realElements
        masks numOfElements)) :
    ∃ filter, buildGBFInThread numOfElements numOfHashFunctions maskSizeInBytes hashIndex
        elementsToHashTable realElements masks hashes k
        (gbfCreate m k maskSizeInBytes random) = some filter ∧
      ∀ e < numOfElements, ∀ indexes : Buf Nat, ∀ j < maskSizeInBytes,
        (gbfQuery filter k maskSizeInBytes hashes (realElements e) indexes).1 j
          = masks (elementsToHashTable (e * numOfHashFunctions + hashIndex) * maskSizeInBytes
              + j) := by
  obtain ⟨filter, hrun, h⟩ := gbfAdds_holds (gbfCreate_holds m k maskSizeInBytes random hashes)
    hfree
  rw [List.nil_append] at h
  refine ⟨filter, by rw [buildGBFInThread_eq]; exact hrun, fun e he indexes j hj => ?_⟩
  exact h.query (List.mem_map.mpr ⟨e, List.mem_range.mpr he, rfl⟩) indexes hj

end Follower

end MultiPartyPSI
