import MultiPartyPSI.Hashing.SimpleHashingRun
import Mathlib.Data.Set.Function

/-!
# What simple hashing promises its callers

The leader sends masks by position in the table, a follower looks its elements up by
number: so the two index tables have to be inverse to each other, and the table has to
be the same however many threads filled it.

The first holds of every run that does not fail. The second is where rounding up shows:
with too many threads for the elements the last ones start behind the end, and what such
a thread copies has a size that wraps around.
-/

namespace MultiPartyPSI

open Lib Buf

variable {V : Type*}

section Index

variable {dummy : V} {hash : Nat → Hashed V} {neles nbins ntasks : Nat}

theorem entryOf_key_lt {x : Nat × Nat} (h : x ∈ placements 0 neles) :
    (entryOf dummy hash x).key < numHashFunctions * neles := by
  obtain ⟨⟨_, he⟩, hj⟩ := mem_placements.mp h
  show numHashFunctions * x.1 + x.2 < _
  unfold numHashFunctions at *
  omega

variable (dummy) in
/-- All placements are written, each once. -/
theorem perm_keys (hadr : ∀ e < neles, ∀ j < numHashFunctions, (hash e).address j < nbins) :
    (((List.range nbins).flatMap (binEntries dummy hash 0 neles)).map BinEntry.key).Perm
      (List.range (numHashFunctions * neles)) := by
  refine (List.perm_ext_iff_of_nodup nodup_keys List.nodup_range).mpr fun k => ?_
  rw [List.mem_range]
  refine ⟨?_, ?_⟩
  · intro hk
    obtain ⟨c, hc, rfl⟩ := List.mem_map.mp hk
    obtain ⟨b, _, hc⟩ := List.mem_flatMap.mp hc
    obtain ⟨x, hx, rfl⟩ := List.mem_map.mp hc
    exact entryOf_key_lt (List.mem_filter.mp hx).1
  · intro hk
    -- the placement with number `k` is in the bin of its address
    have he : k / numHashFunctions < neles := Nat.div_lt_of_lt_mul hk
    have hj : k % numHashFunctions < numHashFunctions := Nat.mod_lt _ (by decide)
    have hx : (k / numHashFunctions, k % numHashFunctions) ∈ placements 0 neles :=
      mem_placements.mpr ⟨⟨Nat.zero_le _, by omega⟩, hj⟩
    refine List.mem_map.mpr ⟨entryOf dummy hash (k / numHashFunctions, k % numHashFunctions),
      List.mem_flatMap.mpr ⟨_, List.mem_range.mpr (hadr _ he _ hj), ?_⟩, Nat.div_add_mod k _⟩
    exact List.mem_map_of_mem (List.mem_filter.mpr ⟨hx, beq_self_eq_true _⟩)

variable (dummy) in
theorem length_cells (hadr : ∀ e < neles, ∀ j < numHashFunctions, (hash e).address j < nbins) :
    ((List.range nbins).flatMap (binEntries dummy hash 0 neles)).length
      = numHashFunctions * neles := by
  have := (perm_keys dummy hadr).length_eq
  rwa [List.length_map, List.length_range] at this

/-- Every position is that of some cell. -/
theorem exists_cell_at (dummy : V)
    (hadr : ∀ e < neles, ∀ j < numHashFunctions, (hash e).address j < nbins) {p : Nat}
    (hp : p < numHashFunctions * neles) :
    ∃ c, ((List.range nbins).flatMap (binEntries dummy hash 0 neles))[p]? = some c := by
  rw [← length_cells dummy hadr] at hp
  exact ⟨_, List.getElem?_eq_getElem hp⟩

/-- Every number is that of some cell. -/
theorem exists_cell_of (dummy : V)
    (hadr : ∀ e < neles, ∀ j < numHashFunctions, (hash e).address j < nbins) {k : Nat}
    (hk : k < numHashFunctions * neles) : ∃ (c : BinEntry V) (p : Nat), c.key = k ∧
      ((List.range nbins).flatMap (binEntries dummy hash 0 neles))[p]? = some c := by
  have hmem := (perm_keys dummy hadr).mem_iff.mpr (List.mem_range.mpr hk)
  obtain ⟨c, hc, hck⟩ := List.mem_map.mp hmem
  obtain ⟨p, hp⟩ := List.mem_iff_getElem?.mp hc
  exact ⟨c, p, hck, hp⟩

namespace SimpleHashOutput.Spec

variable {out : SimpleHashOutput V} (h : out.Spec dummy hash neles nbins)
  (hadr : ∀ e < neles, ∀ j < numHashFunctions, (hash e).address j < nbins)

include h

theorem sum_nelesinbin_eq {b : Nat} (hb : b ≤ nbins) :
    ∑ i ∈ Finset.range b, out.nelesinbin i
      = ∑ i ∈ Finset.range b, (binEntries dummy hash 0 neles i).length :=
  Finset.sum_congr rfl fun i hi =>
    h.nelesinbin i (Nat.lt_of_lt_of_le (Finset.mem_range.mp hi) hb)

/-- **The cells of a bin** are those whose placement has its address. -/
theorem image_bin {b : Nat} (hb : b < nbins) :
    Set.image out.elementsToHashTable {k | k < numHashFunctions * neles ∧
        (hash (k / numHashFunctions)).address (k % numHashFunctions) = b}
      = Set.Ico (∑ i ∈ Finset.range b, out.nelesinbin i)
          (∑ i ∈ Finset.range (b + 1), out.nelesinbin i) := by
  have hdecode : ∀ x ∈ placements 0 neles, (entryOf dummy hash x).key / numHashFunctions = x.1 ∧
      (entryOf dummy hash x).key % numHashFunctions = x.2 := by
    intro x hx
    have hj := (mem_placements.mp hx).2
    show (numHashFunctions * x.1 + x.2) / numHashFunctions = x.1 ∧
      (numHashFunctions * x.1 + x.2) % numHashFunctions = x.2
    unfold numHashFunctions at *
    omega
  ext p
  rw [Set.mem_image, Set.mem_Ico, Finset.sum_range_succ]
  refine ⟨?_, ?_⟩
  · intro hp
    obtain ⟨k, ⟨hk, rfl⟩, rfl⟩ := hp
    obtain ⟨u, hu, hpos, _⟩ := h.position (Nat.div_lt_of_lt_mul hk)
      (Nat.mod_lt k (by decide : 0 < numHashFunctions)) hb
    rw [Nat.div_add_mod] at hpos
    omega
  · intro hp
    -- position `p` is cell number `u` of bin `b`
    obtain ⟨u, rfl⟩ := Nat.exists_eq_add_of_le hp.1
    have hu : u < (binEntries dummy hash 0 neles b).length := by
      rw [← h.nelesinbin b hb]
      omega
    have hget := getElem?_flatMap_range (binEntries dummy hash 0 neles) hb hu
    rw [← h.sum_nelesinbin_eq hb.le, List.getElem?_eq_getElem hu] at hget
    obtain ⟨x, hx, hxe⟩ := List.mem_map.mp (List.getElem_mem hu)
    obtain ⟨hx, hxb⟩ := List.mem_filter.mp hx
    obtain ⟨h1, h2⟩ := hdecode x hx
    rw [← hxe] at hget
    refine ⟨(entryOf dummy hash x).key, ⟨entryOf_key_lt hx, ?_⟩, h.gathered.elementsTo hget⟩
    rw [h1, h2]
    exact eq_of_beq hxb

include hadr

/-- The bins hold three cells for every element. -/
theorem sum_nelesinbin :
    ∑ i ∈ Finset.range nbins, out.nelesinbin i = numHashFunctions * neles := by
  rw [h.sum_nelesinbin_eq le_rfl, ← length_flatMap_range, length_cells dummy hadr]

/-- Every cell is found by its position and by its number. -/
theorem invOn : Set.InvOn out.binToElementsToHashTable out.elementsToHashTable
    (Set.Iio (numHashFunctions * neles)) (Set.Iio (numHashFunctions * neles)) := by
  refine ⟨?_, ?_⟩
  · intro k hk
    obtain ⟨c, p, rfl, hc⟩ := exists_cell_of dummy hadr hk
    rw [h.gathered.elementsTo hc, h.gathered.binToElements hc]
  · intro p hp
    obtain ⟨c, hc⟩ := exists_cell_at dummy hadr hp
    rw [h.gathered.binToElements hc, h.gathered.elementsTo hc]

theorem bijOn : Set.BijOn out.elementsToHashTable (Set.Iio (numHashFunctions * neles))
    (Set.Iio (numHashFunctions * neles)) := by
  refine (h.invOn hadr).bijOn ?_ ?_
  · intro k hk
    obtain ⟨c, p, rfl, hc⟩ := exists_cell_of dummy hadr hk
    rw [h.gathered.elementsTo hc, Set.mem_Iio, ← length_cells dummy hadr]
    exact (List.getElem?_eq_some_iff.mp hc).1
  · intro p hp
    obtain ⟨c, hc⟩ := exists_cell_at dummy hadr hp
    rw [h.gathered.binToElements hc, Set.mem_Iio, ← List.mem_range,
      ← (perm_keys dummy hadr).mem_iff]
    exact List.mem_map_of_mem (List.mem_of_getElem? hc)

end SimpleHashOutput.Spec

end Index

/-- **Simple hashing builds a two-way index.** It never writes behind the room a bin has; bin
by bin, the cells are those of the placements with that address, three for every element; and
the two tables take the number of a placement to its position and back. A position holds the
value of its element unless an earlier hash function has the same bin: then it holds zeros. -/
theorem simpleHashing_two_way_index [Zero V] (hash : Nat → Hashed V) {neles nbins ntasks : Nat}
    (hn : 0 < ntasks) (hstart : ∀ i < ntasks, startpos neles ntasks i ≤ neles)
    (hadr : ∀ e < neles, ∀ j < numHashFunctions, (hash e).address j < nbins) :
    ∃ out, simpleHashing 0 hash neles nbins ntasks = some out ∧
      (∀ b < nbins, Set.image out.elementsToHashTable {k | k < numHashFunctions * neles ∧
          (hash (k / numHashFunctions)).address (k % numHashFunctions) = b}
        = Set.Ico (∑ i ∈ Finset.range b, out.nelesinbin i)
            ((∑ i ∈ Finset.range b, out.nelesinbin i) + out.nelesinbin b)) ∧
      ∑ i ∈ Finset.range nbins, out.nelesinbin i = numHashFunctions * neles ∧
      Set.BijOn out.elementsToHashTable (Set.Iio (numHashFunctions * neles))
        (Set.Iio (numHashFunctions * neles)) ∧
      Set.InvOn out.binToElementsToHashTable out.elementsToHashTable
        (Set.Iio (numHashFunctions * neles)) (Set.Iio (numHashFunctions * neles)) ∧
      ∀ e < neles, ∀ j < numHashFunctions,
        out.elementsToHashTable (numHashFunctions * e + j)
          ∈ Set.Ico (∑ i ∈ Finset.range ((hash e).address j), out.nelesinbin i)
              ((∑ i ∈ Finset.range ((hash e).address j), out.nelesinbin i)
                + out.nelesinbin ((hash e).address j)) ∧
        out.resBins (out.elementsToHashTable (numHashFunctions * e + j))
          = if ∃ j' < j, (hash e).address j' = (hash e).address j then 0 else (hash e).val := by
  obtain ⟨out, hrun, h⟩ := simpleHashing_spec (0 : V) hn hstart hadr
  refine ⟨out, hrun, fun b hb => ?_, h.sum_nelesinbin hadr, h.bijOn hadr, h.invOn hadr,
    fun e he j hj => ?_⟩
  · rw [h.image_bin hb, Finset.sum_range_succ]
  · obtain ⟨u, hu, hpos, _, hval⟩ := h.position he hj (hadr e he j hj)
    rw [hpos, hval, storedValue_eq, Set.mem_Ico]
    exact ⟨⟨Nat.le_add_right _ _, Nat.add_lt_add_left hu _⟩, rfl⟩

/-- Five elements for two threads, each element with two of three addresses equal. -/
theorem simpleHashing_two_way_index_five :
    ∃ out, simpleHashing 0 (fun e => (⟨fun j => (e + j / 2) % 4, e⟩ : Hashed Nat)) 5 4 2
        = some out ∧ ∑ i ∈ Finset.range 4, out.nelesinbin i = 15 := by
  obtain ⟨out, hrun, _, hsum, _⟩ := @simpleHashing_two_way_index Nat _
    (fun e => ⟨fun j => (e + j / 2) % 4, e⟩) 5 4 2 (by decide) (by decide)
    (fun e _ j _ => Nat.mod_lt _ (by decide))
  exact ⟨out, hrun, hsum⟩

/-! ## The number of tasks -/

/-- `arr_size`: the bytes copied from thread `i`, an `uint32_t`. -/
def arrSize (neles ntasks outbytelen i : Nat) : UInt32 :=
  (UInt32.ofNat (endpos neles ntasks i) - UInt32.ofNat (startpos neles ntasks i))
    * UInt32.ofNat outbytelen

/-- The cursor `k` behind the bytes of all threads. -/
def copiedSize (neles ntasks outbytelen : Nat) : UInt32 :=
  loop (fun i k => k + arrSize neles ntasks outbytelen i) ntasks 0

/-- Two outputs that agree in all five arrays, as far as these go. -/
structure SimpleHashOutput.Same (neles nbins : Nat) (out out' : SimpleHashOutput V) : Prop where
  resBins : ∀ k < numHashFunctions * neles, out.resBins k = out'.resBins k
  hashedElements : ∀ e < neles, out.hashedElements e = out'.hashedElements e
  nelesinbin : ∀ b < nbins, out.nelesinbin b = out'.nelesinbin b
  elementsTo : ∀ k < numHashFunctions * neles,
    out.elementsToHashTable k = out'.elementsToHashTable k
  binToElements : ∀ k < numHashFunctions * neles,
    out.binToElementsToHashTable k = out'.binToElementsToHashTable k

/-- The number of tasks does not show: their ranges cut the elements up, the sizes add up, and
the output is the one of a single task. -/
structure TasksDoNotShow (dummy : V) (hash : Nat → Hashed V) (neles nbins ntasks outbytelen : Nat) :
    Prop where
  wellFormed : ∀ i < ntasks, startpos neles ntasks i ≤ endpos neles ntasks i
  tile : ∀ e, e < neles ↔
    ∃! i, i < ntasks ∧ startpos neles ntasks i ≤ e ∧ e < endpos neles ntasks i
  sizes : copiedSize neles ntasks outbytelen = UInt32.ofNat (neles * outbytelen)
  same : ∃ out out', simpleHashing dummy hash neles nbins ntasks = some out ∧
    simpleHashing dummy hash neles nbins 1 = some out' ∧ out.Same neles nbins out'

section Tasks

variable {dummy : V} {hash : Nat → Hashed V} {neles nbins ntasks : Nat}

theorem SimpleHashOutput.Spec.same {out out' : SimpleHashOutput V}
    (h : out.Spec dummy hash neles nbins) (h' : out'.Spec dummy hash neles nbins)
    (hadr : ∀ e < neles, ∀ j < numHashFunctions, (hash e).address j < nbins) :
    out.Same neles nbins out' := by
  refine ⟨fun k hk => ?_, fun e he => ?_, fun b hb => ?_, fun k hk => ?_, fun k hk => ?_⟩
  · obtain ⟨c, hc⟩ := exists_cell_at dummy hadr hk
    rw [h.gathered.resBins hc, h'.gathered.resBins hc]
  · rw [h.hashedElements e he, h'.hashedElements e he]
  · rw [h.nelesinbin b hb, h'.nelesinbin b hb]
  · obtain ⟨c, p, rfl, hc⟩ := exists_cell_of dummy hadr hk
    rw [h.gathered.elementsTo hc, h'.gathered.elementsTo hc]
  · obtain ⟨c, hc⟩ := exists_cell_at dummy hadr hk
    rw [h.gathered.binToElements hc, h'.gathered.binToElements hc]

/-- The last thread starts last. -/
theorem startpos_le_iff (hn : 0 < ntasks) : (∀ i < ntasks, startpos neles ntasks i ≤ neles) ↔
    (ntasks - 1) * ceilDivide neles ntasks ≤ neles := by
  refine ⟨?_, ?_⟩
  · intro h
    exact h (ntasks - 1) (by omega)
  · intro h i hi
    exact (Nat.mul_le_mul_right _ (by omega)).trans h

theorem copiedSize_eq (outbytelen : Nat) (hn : 0 < ntasks)
    (hstart : ∀ i < ntasks, startpos neles ntasks i ≤ neles) :
    copiedSize neles ntasks outbytelen = UInt32.ofNat (neles * outbytelen) := by
  have h : copiedSize neles ntasks outbytelen
      = UInt32.ofNat (min (startpos neles ntasks ntasks) neles * outbytelen) := by
    refine loop_induct (P := fun i k =>
      k = UInt32.ofNat (min (startpos neles ntasks i) neles * outbytelen)) ntasks ?_ ?_
    · rw [startpos, Nat.zero_mul, Nat.zero_min, Nat.zero_mul]
      rfl
    · intro i k hi hk
      have hle := hstart i hi
      have hend : startpos neles ntasks i ≤ endpos neles ntasks i :=
        Nat.le_min.mpr ⟨Nat.le_add_right _ _, hle⟩
      -- the size does not wrap around, and the next range starts where this one ends
      rw [hk, Nat.min_eq_left hle, arrSize, ← UInt32.ofNat_sub hend, ← UInt32.ofNat_mul,
        ← UInt32.ofNat_add, ← Nat.add_mul, Nat.add_sub_cancel' hend, endpos_eq]
  rwa [Nat.min_eq_right (le_startpos_ntasks neles hn)] at h

theorem tile_iff (hn : 0 < ntasks) (e : Nat) : e < neles ↔
    ∃! i, i < ntasks ∧ startpos neles ntasks i ≤ e ∧ e < endpos neles ntasks i := by
  refine ⟨?_, ?_⟩
  · intro he
    -- the piece with number `e / c`, for pieces of length `c`
    have hc : 0 < ceilDivide neles ntasks := by
      rw [lt_ceilDivide_iff hn]
      omega
    have hlt : e / ceilDivide neles ntasks < ntasks := by
      rw [Nat.div_lt_iff_lt_mul hc]
      exact Nat.lt_of_lt_of_le he (le_startpos_ntasks neles hn)
    have hmem : ∀ i, startpos neles ntasks i ≤ e ∧ e < endpos neles ntasks i ↔
        e / ceilDivide neles ntasks = i := by
      intro i
      rw [endpos_eq, Nat.lt_min, startpos, startpos, ← Nat.le_div_iff_mul_le hc,
        ← Nat.div_lt_iff_lt_mul hc]
      omega
    refine ⟨_, ⟨hlt, (hmem _).mpr rfl⟩, ?_⟩
    intro i hi
    exact ((hmem i).mp hi.2).symm
  · intro h
    obtain ⟨i, ⟨_, _, hi⟩, _⟩ := h
    exact Nat.lt_of_lt_of_le hi (Nat.min_le_right _ _)

end Tasks

/-- **When the number of tasks does not show**: when even the last thread starts inside the
elements. -/
theorem tasksDoNotShow_iff (dummy : V) (hash : Nat → Hashed V) {neles nbins ntasks : Nat}
    (outbytelen : Nat) (hn : 0 < ntasks)
    (hadr : ∀ e < neles, ∀ j < numHashFunctions, (hash e).address j < nbins) :
    TasksDoNotShow dummy hash neles nbins ntasks outbytelen ↔
      (ntasks - 1) * ceilDivide neles ntasks ≤ neles := by
  rw [← startpos_le_iff hn]
  refine ⟨?_, ?_⟩
  · intro h i hi
    exact (h.wellFormed i hi).trans (Nat.min_le_right _ _)
  · intro hstart
    obtain ⟨out, hrun, hout⟩ := simpleHashing_spec dummy hn hstart hadr
    obtain ⟨out', hrun', hout'⟩ := simpleHashing_spec dummy Nat.zero_lt_one
      (fun i hi => by rw [Nat.lt_one_iff.mp hi, startpos, Nat.zero_mul]; exact Nat.zero_le _) hadr
    exact ⟨fun i hi => Nat.le_min.mpr ⟨Nat.le_add_right _ _, hstart i hi⟩, tile_iff hn,
      copiedSize_eq outbytelen hn hstart, out, out', hrun, hrun', hout.same hout' hadr⟩

/-- Six elements for three threads. -/
theorem tasksDoNotShow_six :
    TasksDoNotShow 0 (fun e => (⟨fun _ => e % 4, e⟩ : Hashed Nat)) 6 4 3 8 :=
  (tasksDoNotShow_iff 0 (fun e => (⟨fun _ => e % 4, e⟩ : Hashed Nat)) 8 (by decide)
    (fun e _ _ _ => Nat.mod_lt e (by decide))).mpr (by decide)

/-- Five elements for four threads: the last one starts at six. -/
theorem tasksShow_five :
    ¬ TasksDoNotShow 0 (fun e => (⟨fun _ => e % 4, e⟩ : Hashed Nat)) 5 4 4 8 := by
  intro h
  exact absurd (h.wellFormed 3 (by decide)) (by decide)

end MultiPartyPSI
