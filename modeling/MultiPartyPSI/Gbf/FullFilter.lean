import MultiPartyPSI.Gbf.GarbledBF

/-!
# Insertions that find no free slot

`GBF_add` looks for a free slot among those of the element and does not check that it found one.
The index it looks with starts as `-1`, and with `-1` it goes on to the two writes at the end. So
the bytes it stores to are listed here, as offsets from `data` and from `bf`: an insertion stays
inside the filter exactly when it finds a free slot.
-/

namespace MultiPartyPSI

open Lib Buf

section Model

variable {E : Type*} {m : Nat}

/-- A byte that `GBF_add` stores to. -/
inductive Store where
  | data (offset : Nat)
  | bf (offset : Int)
  deriving DecidableEq

/-- Inside the blocks of the filter. -/
def Store.Inside (filter : GarbledBF m) : Store → Prop
  | .data offset => offset < m * filter.gbfSigmaByteLen
  | .bf offset => 0 ≤ offset ∧ offset < m

/-- `filter->bf[index] = 1` in one round. -/
def indexStores (index i : Nat) (s : AddState) : List Store :=
  if existsIn index (s.indHis.write i index) i then []
  else if s.bf index = 0 then if s.emptySlot = -1 then [] else [.bf index]
  else []

/-- `emptySlot*filter->m_GBFSigmaByteLen`, an unsigned product. -/
def slotOffset (emptySlot : Int) (gbfSigmaByteLen : Nat) : Nat :=
  (emptySlot * gbfSigmaByteLen % 2 ^ 32).toNat

/-- The stores of `GBF_add`, in order. -/
def gbfAddStores (filter : GarbledBF m) (hashes : Nat → E → Fin m) (element : E) (ehash : Buf Byte)
    (ehashPos : Nat) : List Store :=
  let emptySlot := (addIndices filter hashes element ehash ehashPos filter.k).emptySlot
  ((List.range filter.k).flatMap fun i =>
      indexStores (hashes i element) i (addIndices filter hashes element ehash ehashPos i)) ++
    ((List.range filter.gbfSigmaByteLen).map fun j =>
      .data (slotOffset emptySlot filter.gbfSigmaByteLen + j)) ++ [.bf emptySlot]

/-- The filter after `GBF_add`, wherever that stored to. `bf` has no entry `-1`. -/
def gbfAddAnyway (filter : GarbledBF m) (hashes : Nat → E → Fin m) (element : E)
    (ehash : Buf Byte) (ehashPos : Nat) : GarbledBF m :=
  let s := addIndices filter hashes element ehash ehashPos filter.k
  { filter with
    data := copy filter.data (slotOffset s.emptySlot filter.gbfSigmaByteLen) s.finalShare 0
      filter.gbfSigmaByteLen
    bf := if s.emptySlot = -1 then s.bf else s.bf.write s.emptySlot.toNat 1
    indexes := s.indHis }

/-- Calls of `GBF_add` one after another, each with an element and its mask. -/
def gbfAddAll (hashes : Nat → E → Fin m) (filter : GarbledBF m) (adds : List (E × Buf Byte)) :
    GarbledBF m :=
  adds.foldl (fun filter a => gbfAddAnyway filter hashes a.1 a.2 0) filter

/-- The filter is left as it was: nothing is stored outside, nothing changes inside, and every
query is answered as before. -/
structure LeavesFilter (filter : GarbledBF m) (hashes : Nat → E → Fin m) (element : E)
    (ehash : Buf Byte) (ehashPos : Nat) : Prop where
  stores : ∀ store ∈ gbfAddStores filter hashes element ehash ehashPos, store.Inside filter
  data : ∀ p < m * filter.gbfSigmaByteLen,
    (gbfAddAnyway filter hashes element ehash ehashPos).data p = filter.data p
  bf : ∀ p < m, (gbfAddAnyway filter hashes element ehash ehashPos).bf p = filter.bf p
  query : ∀ (e : E) (indexes : Buf Nat), ∀ j < filter.gbfSigmaByteLen,
    (gbfQuery (gbfAddAnyway filter hashes element ehash ehashPos) filter.k filter.gbfSigmaByteLen
        hashes e indexes).1 j
      = (gbfQuery filter filter.k filter.gbfSigmaByteLen hashes e indexes).1 j

end Model

section Full

variable {E : Type*} {m : Nat} {filter : GarbledBF m} {hashes : Nat → E → Fin m} {element : E}

/-- A slot is kept for last exactly if one was free. -/
theorem emptySlot_cases (filter : GarbledBF m) (hashes : Nat → E → Fin m) (element : E)
    (ehash : Buf Byte) (ehashPos : Nat) :
    ((addIndices filter hashes element ehash ehashPos filter.k).emptySlot = -1 ∧
        ¬ FindsFree filter hashes filter.k element) ∨
      ∃ d < m, (addIndices filter hashes element ehash ehashPos filter.k).emptySlot = (d : Int) ∧
        FindsFree filter hashes filter.k element := by
  rcases (addIndices_inv filter hashes element ehash ehashPos filter.k).kept with hk | hk
  · refine Or.inl ⟨hk.1, fun hfree => ?_⟩
    obtain ⟨i, hi, hzero⟩ := hfree
    exact hk.2 _ (mem_slots.mpr ⟨i, hi, rfl⟩) hzero
  · obtain ⟨d, hd, hslot, hzero⟩ := hk
    obtain ⟨i, hi, rfl⟩ := mem_slots.mp hd
    exact Or.inr ⟨_, (hashes i element).isLt, hslot, i, hi, hzero⟩

theorem slotOffset_of_lt {d w : Nat} (hd : d < m) (hsize : m * w ≤ 2 ^ 32) :
    slotOffset d w = d * w := by
  have hlt : d * w < 2 ^ 32 := by
    rcases Nat.eq_zero_or_pos w with rfl | hw
    · exact Nat.two_pow_pos 32
    · exact ((Nat.mul_lt_mul_right hw).mpr hd).trans_le hsize
  have hcast : (d : Int) * w % 2 ^ 32 = ((d * w % 2 ^ 32 : Nat) : Int) := by
    rw [Int.natCast_emod, Int.natCast_mul]
    rfl
  rw [slotOffset, hcast, Nat.mod_eq_of_lt hlt, Int.toNat_natCast]

/-- Where a slot is free this is the insertion. -/
theorem gbfAdd_eq_anyway (hsize : m * filter.gbfSigmaByteLen ≤ 2 ^ 32) (ehash : Buf Byte)
    (ehashPos : Nat) (hfree : FindsFree filter hashes filter.k element) :
    gbfAdd filter hashes filter.k element ehash ehashPos
      = some (gbfAddAnyway filter hashes element ehash ehashPos) := by
  rcases emptySlot_cases filter hashes element ehash ehashPos with hnone | hslot
  · exact absurd hfree hnone.2
  · obtain ⟨d, hd, hslot, -⟩ := hslot
    have hne : ¬ (d : Int) = -1 := by omega
    rw [gbfAdd, if_pos rfl, gbfAddAnyway]
    dsimp only
    rw [hslot, if_neg hne, if_neg hne, Int.toNat_natCast, slotOffset_of_lt hd hsize]

/-- Without a free slot the mark goes in front of `bf`. -/
theorem bf_mem_stores (ehash : Buf Byte) (ehashPos : Nat)
    (hfull : ¬ FindsFree filter hashes filter.k element) :
    .bf (-1) ∈ gbfAddStores filter hashes element ehash ehashPos := by
  rcases emptySlot_cases filter hashes element ehash ehashPos with hnone | hslot
  · unfold gbfAddStores
    rw [hnone.1]
    exact List.mem_append_right _ (List.mem_singleton.mpr rfl)
  · obtain ⟨-, -, -, hfree⟩ := hslot
    exact absurd hfree hfull

/-- **An insertion stays inside the filter exactly when it finds a free slot.** -/
theorem gbfAddStores_inside_iff (hsize : m * filter.gbfSigmaByteLen ≤ 2 ^ 32) (ehash : Buf Byte)
    (ehashPos : Nat) :
    (∀ store ∈ gbfAddStores filter hashes element ehash ehashPos, store.Inside filter)
      ↔ FindsFree filter hashes filter.k element := by
  refine ⟨fun hin => ?_, fun hfree store hstore => ?_⟩
  · by_contra hfull
    exact absurd (hin _ (bf_mem_stores ehash ehashPos hfull)).1 (by decide)
  · rcases emptySlot_cases filter hashes element ehash ehashPos with hnone | hslot
    · exact absurd hfree hnone.2
    · obtain ⟨d, hd, hslot, -⟩ := hslot
      unfold gbfAddStores at hstore
      rw [hslot] at hstore
      dsimp only at hstore
      rw [slotOffset_of_lt hd hsize] at hstore
      rcases List.mem_append.mp hstore with hstore | hstore
      · rcases List.mem_append.mp hstore with hstore | hstore
        · -- a mark inside the loop
          obtain ⟨i, -, hi⟩ := List.mem_flatMap.mp hstore
          unfold indexStores at hi
          split_ifs at hi with h1 h2 h3
          · cases hi
          · cases hi
          · rw [List.mem_singleton.mp hi]
            exact ⟨Int.natCast_nonneg _, Int.ofNat_lt.mpr (hashes i element).isLt⟩
          · cases hi
        · obtain ⟨j, hj, rfl⟩ := List.mem_map.mp hstore
          exact row_cell_lt hd (List.mem_range.mp hj)
      · rw [List.mem_singleton.mp hstore]
        exact ⟨Int.natCast_nonneg _, Int.ofNat_lt.mpr hd⟩

theorem gbfAddAll_k (hashes : Nat → E → Fin m) (filter : GarbledBF m)
    (adds : List (E × Buf Byte)) : (gbfAddAll hashes filter adds).k = filter.k := by
  induction adds generalizing filter with
  | nil => rfl
  | cons a adds ih => exact ih _

/-- **No insertion that finds all its slots marked leaves the filter as it was**, whatever was
inserted before. -/
theorem not_leavesFilter (hashes : Nat → E → Fin m) (k w : Nat) (random : Option (Buf Byte))
    (adds : List (E × Buf Byte)) (element : E) (ehash : Buf Byte) (ehashPos : Nat)
    (hfull : ∀ i < k,
      (gbfAddAll hashes (gbfCreate m k w random) adds).bf (hashes i element) ≠ 0) :
    ¬ LeavesFilter (gbfAddAll hashes (gbfCreate m k w random) adds) hashes element ehash
      ehashPos := by
  intro hleaves
  have hk : (gbfAddAll hashes (gbfCreate m k w random) adds).k = k := gbfAddAll_k _ _ _
  have hnone : ¬ FindsFree (gbfAddAll hashes (gbfCreate m k w random) adds) hashes
      (gbfAddAll hashes (gbfCreate m k w random) adds).k element := by
    intro hfree
    obtain ⟨i, hi, hzero⟩ := hfree
    rw [hk] at hi
    exact hfull i hi hzero
  exact absurd (hleaves.stores _ (bf_mem_stores ehash ehashPos hnone)).1 (by decide)

/-- One slot, which the first element has taken. -/
theorem not_leavesFilter_one :
    ¬ LeavesFilter (gbfAddAll (fun _ (_ : Bool) => (0 : Fin 1)) (gbfCreate 1 1 1 none)
        [(false, fun _ => 0)]) (fun _ _ => 0) true (fun _ => 0) 0 :=
  not_leavesFilter _ 1 1 none [(false, fun _ => 0)] true _ _ (by decide)

/-- A filter for two elements, of which both have all their forty hash values in slot 0. -/
theorem not_forall_leavesFilter :
    ¬ ∀ (m k w : Nat) (hashes : Nat → Bool → Fin m) (random : Option (Buf Byte))
      (adds : List (Bool × Buf Byte)) (element : Bool) (ehash : Buf Byte) (ehashPos : Nat),
      (∀ i < k, (gbfAddAll hashes (gbfCreate m k w random) adds).bf (hashes i element) ≠ 0) →
      LeavesFilter (gbfAddAll hashes (gbfCreate m k w random) adds) hashes element ehash
        ehashPos := by
  intro hall
  have hleaves := hall 120 40 5 (fun _ _ => 0) none [(false, fun _ => 0)] true (fun _ => 0) 0
    (by decide +kernel)
  have hstore := hleaves.stores (.bf (-1)) (by decide +kernel)
  exact absurd hstore.1 (by decide)

end Full

end MultiPartyPSI
