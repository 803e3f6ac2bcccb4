import MultiPartyPSI.Hashing.SimpleHashing
import Mathlib.Algebra.BigOperators.Intervals

/-!
# A whole run of simple hashing

Written out bin by bin and thread by thread, the cells form one list: for each bin, the
placements of all elements that have its address, in order. That list does not mention
threads. The two index tables are inverse to each other on it because no placement
occurs twice.
-/

namespace MultiPartyPSI

open Lib Buf

variable {V : Type*}

/-! ## Lists of bins -/

theorem flatMap_range_mono {α : Type*} (f : Nat → List α) {k n : Nat} (h : k ≤ n) :
    (List.range k).flatMap f <+: (List.range n).flatMap f := by
  obtain ⟨m, rfl⟩ := Nat.exists_eq_add_of_le h
  rw [List.range_add, List.flatMap_append]
  exact List.prefix_append _ _

theorem length_flatMap_range {α : Type*} (f : Nat → List α) (n : Nat) :
    ((List.range n).flatMap f).length = ∑ i ∈ Finset.range n, (f i).length := by
  induction n with
  | zero => rfl
  | succ n ih =>
      rw [List.range_succ, List.flatMap_append, List.length_append, ih, Finset.sum_range_succ,
        List.flatMap_singleton]

/-- A cell of one bin, found in the list of all bins. -/
theorem getElem?_flatMap_range {α : Type*} (f : Nat → List α) {n b u : Nat} (hb : b < n)
    (hu : u < (f b).length) :
    ((List.range n).flatMap f)[(∑ i ∈ Finset.range b, (f i).length) + u]? = (f b)[u]? := by
  obtain ⟨t, ht⟩ := flatMap_range_mono f (Nat.succ_le_of_lt hb)
  rw [← ht, List.range_succ, List.flatMap_append, List.flatMap_singleton, List.append_assoc,
    List.getElem?_append_right (by rw [length_flatMap_range]; omega), length_flatMap_range,
    Nat.add_sub_cancel_left,
    List.getElem?_append_left hu]

/-! ## Writing cells out -/

/-- The arrays once the cells of `done` are written. -/
structure SimpleHashOutput.Gathered (done : List (BinEntry V)) (out : SimpleHashOutput V) :
    Prop where
  progress : out.progress = done.length
  resBins : ∀ {k c}, done[k]? = some c → out.resBins k = c.value
  binToElements : ∀ {k c}, done[k]? = some c → out.binToElementsToHashTable k = c.key
  elementsTo : ∀ {k c}, done[k]? = some c → out.elementsToHashTable c.key = k

section Gather

variable {out : SimpleHashOutput V} {done : List (BinEntry V)}

theorem SimpleHashOutput.Gathered.append (h : out.Gathered done) {c : BinEntry V}
    (hc : c.key ∉ done.map BinEntry.key) : (out.append c).Gathered (done ++ [c]) := by
  -- a position is the new one or an old one
  have hpos : ∀ {k c'}, (done ++ [c])[k]? = some c' →
      (k = done.length ∧ c' = c) ∨ (k < done.length ∧ done[k]? = some c') := by
    intro k c' hk
    by_cases hlt : k < done.length
    · rw [List.getElem?_append_left hlt] at hk
      exact Or.inr ⟨hlt, hk⟩
    · rw [List.getElem?_append_right (by omega)] at hk
      obtain ⟨h0, rfl⟩ := List.getElem?_eq_some_iff.mp hk
      simp only [List.length_singleton] at h0
      exact Or.inl ⟨by omega, by simp⟩
  refine ⟨?_, fun {k c'} hk => ?_, fun {k c'} hk => ?_, fun {k c'} hk => ?_⟩
  · show out.progress + 1 = _
    rw [h.progress, List.length_append, List.length_singleton]
  · show (out.resBins.write out.progress c.value) k = _
    rw [h.progress]
    rcases hpos hk with ⟨rfl, rfl⟩ | ⟨hlt, hk'⟩
    · exact write_same _ _ _
    · rw [write_ne _ _ hlt.ne, h.resBins hk']
  · show (out.binToElementsToHashTable.write out.progress c.key) k = _
    rw [h.progress]
    rcases hpos hk with ⟨rfl, rfl⟩ | ⟨hlt, hk'⟩
    · exact write_same _ _ _
    · rw [write_ne _ _ hlt.ne, h.binToElements hk']
  · show (out.elementsToHashTable.write c.key out.progress) c'.key = _
    rw [h.progress]
    rcases hpos hk with ⟨rfl, rfl⟩ | ⟨hlt, hk'⟩
    · exact write_same _ _ _
    · have hne : c'.key ≠ c.key := fun he =>
        hc (he ▸ List.mem_map_of_mem (List.mem_of_getElem? hk'))
      rw [write_ne _ _ hne, h.elementsTo hk']

theorem SimpleHashOutput.Gathered.foldl (bin : List (BinEntry V)) (h : out.Gathered done)
    (hnd : ((done ++ bin).map BinEntry.key).Nodup) :
    (bin.foldl SimpleHashOutput.append out).Gathered (done ++ bin) ∧
      (bin.foldl SimpleHashOutput.append out).nelesinbin = out.nelesinbin ∧
      (bin.foldl SimpleHashOutput.append out).hashedElements = out.hashedElements := by
  induction bin generalizing out done with
  | nil => exact ⟨by rwa [List.append_nil], rfl, rfl⟩
  | cons c bin ih =>
      have hc : c.key ∉ done.map BinEntry.key := by
        intro hmem
        rw [List.map_append, List.nodup_append] at hnd
        exact hnd.2.2 _ hmem _ (List.mem_map_of_mem List.mem_cons_self) rfl
      have := ih (h.append hc) (by rwa [List.append_assoc, List.singleton_append])
      rwa [List.append_assoc, List.singleton_append] at this

/-- Writing a bin out appends its cells and counts them. -/
theorem SimpleHashOutput.Gathered.appendBin (h : out.Gathered done) (i : Nat)
    (bin : List (BinEntry V)) (hnd : ((done ++ bin).map BinEntry.key).Nodup) :
    (out.appendBin i bin).Gathered (done ++ bin) ∧
      (out.appendBin i bin).nelesinbin
        = out.nelesinbin.write i (out.nelesinbin i + bin.length) ∧
      (out.appendBin i bin).hashedElements = out.hashedElements := by
  have h' : ({ out with nelesinbin := out.nelesinbin.write i (out.nelesinbin i + bin.length) } :
      SimpleHashOutput V).Gathered done := ⟨h.progress, h.resBins, h.binToElements, h.elementsTo⟩
  exact h'.foldl bin hnd

/-- All bins, written out: the cells bin by bin, counted by bin. -/
theorem gatherBins_spec {nbins ntasks : Nat} {threads : Buf (SimpleThread V)}
    (cells : Nat → List (BinEntry V)) (out : SimpleHashOutput V)
    (hcells : ∀ b < nbins,
      (List.range ntasks).flatMap (fun j => (threads j).table.bins b) = cells b)
    (hnd : (((List.range nbins).flatMap cells).map BinEntry.key).Nodup)
    (h : out.Gathered []) :
    (gatherBins nbins ntasks threads out).Gathered ((List.range nbins).flatMap cells) ∧
      (∀ b < nbins, (gatherBins nbins ntasks threads out).nelesinbin b = (cells b).length) ∧
      (gatherBins nbins ntasks threads out).hashedElements = out.hashedElements := by
  refine loop_induct (P := fun k (o : SimpleHashOutput V) =>
    o.Gathered ((List.range k).flatMap cells) ∧
      (∀ b < k, o.nelesinbin b = (cells b).length) ∧
      o.hashedElements = out.hashedElements) nbins
    ⟨h, fun b hb => absurd hb (Nat.not_lt_zero b), rfl⟩ ?_
  intro k o hk ho
  obtain ⟨hg, hcount, hhash⟩ := ho
  have hstep : ∀ j, (List.range (j + 1)).flatMap (fun j => (threads j).table.bins k)
      = (List.range j).flatMap (fun j => (threads j).table.bins k)
        ++ (threads j).table.bins k := by
    intro j
    rw [List.range_succ, List.flatMap_append, List.flatMap_singleton]
  -- bin `k`, thread by thread
  obtain ⟨hg', hk', hcount', hhash'⟩ := loop_induct (P := fun j (o' : SimpleHashOutput V) =>
      o'.Gathered ((List.range k).flatMap cells
          ++ (List.range j).flatMap (fun j => (threads j).table.bins k)) ∧
        o'.nelesinbin k
          = ((List.range j).flatMap (fun j => (threads j).table.bins k)).length ∧
        (∀ b < k, o'.nelesinbin b = (cells b).length) ∧
        o'.hashedElements = out.hashedElements)
    (f := fun j o' => o'.appendBin k ((threads j).table.bins k))
    (s := { o with nelesinbin := o.nelesinbin.write k 0 }) ntasks
    ⟨by simpa using ⟨hg.progress, hg.resBins, hg.binToElements, hg.elementsTo⟩,
      write_same _ _ _, fun b hb => (write_ne _ _ hb.ne).trans (hcount b hb), hhash⟩
    (by
      intro j o' hj ho'
      obtain ⟨hg, hlen, hcount, hhash⟩ := ho'
      have hnd' : ((((List.range k).flatMap cells
          ++ (List.range j).flatMap (fun j => (threads j).table.bins k))
          ++ (threads j).table.bins k).map BinEntry.key).Nodup := by
        refine hnd.sublist (List.Sublist.map _ (List.IsPrefix.sublist ?_))
        refine List.IsPrefix.trans ?_ (flatMap_range_mono cells (Nat.succ_le_of_lt hk))
        rw [List.range_succ, List.flatMap_append, List.flatMap_singleton, ← hcells k hk,
          List.append_assoc, ← hstep]
        exact List.prefix_append_right_inj _ |>.mpr
          (flatMap_range_mono _ (Nat.succ_le_of_lt hj))
      obtain ⟨h1, h2, h3⟩ := hg.appendBin k _ hnd'
      rw [List.append_assoc, ← hstep] at h1
      refine ⟨h1, ?_, fun b hb => ?_, h3.trans hhash⟩
      · rw [h2, write_same, hlen, hstep, List.length_append]
      · rw [h2, write_ne _ _ hb.ne, hcount b hb])
  rw [hcells k hk] at hg' hk'
  refine ⟨?_, fun b hb => ?_, hhash'⟩
  · rw [List.range_succ, List.flatMap_append, List.flatMap_singleton]
    exact hg'
  · rcases Nat.lt_succ_iff_lt_or_eq.mp hb with hlt | rfl
    · exact hcount' b hlt
    · exact hk'

end Gather

/-! ## Threads -/

section Threads

variable {dummy : V} {hash : Nat → Hashed V} {neles nbins ntasks : Nat}

/-- The pieces of all threads together are one piece. -/
theorem flatMap_binEntries (hn : 0 < ntasks)
    (hstart : ∀ i < ntasks, startpos neles ntasks i ≤ neles) (b : Nat) :
    (List.range ntasks).flatMap (fun i => binEntries dummy hash (startpos neles ntasks i)
        (endpos neles ntasks i - startpos neles ntasks i) b)
      = binEntries dummy hash 0 neles b := by
  have h : ∀ i ≤ ntasks, (List.range i).flatMap (fun i => binEntries dummy hash
      (startpos neles ntasks i) (endpos neles ntasks i - startpos neles ntasks i) b)
        = binEntries dummy hash 0 (min (startpos neles ntasks i) neles) b := by
    intro i
    induction i with
    | zero =>
        intro _
        rw [startpos, Nat.zero_mul, Nat.zero_min]
        rfl
    | succ i ih =>
        intro hi
        have hle := hstart i hi
        have hend : startpos neles ntasks i ≤ endpos neles ntasks i :=
          Nat.le_min.mpr ⟨Nat.le_add_right _ _, hle⟩
        rw [List.range_succ, List.flatMap_append, List.flatMap_singleton, ih (by omega),
          Nat.min_eq_left hle, ← endpos_eq]
        conv_rhs => rw [← Nat.add_sub_cancel' hend, binEntries_append, Nat.zero_add]
  rw [h ntasks le_rfl, Nat.min_eq_right (le_startpos_ntasks neles hn)]

/-- No placement is written twice. -/
theorem nodup_keys : (((List.range nbins).flatMap (binEntries dummy hash 0 neles)).map
    BinEntry.key).Nodup := by
  have hkey : ∀ b c, c ∈ binEntries dummy hash 0 neles b →
      c.hashFunctionNum < numHashFunctions ∧ (hash c.index).address c.hashFunctionNum = b := by
    intro b c hc
    obtain ⟨x, hx, rfl⟩ := List.mem_map.mp hc
    obtain ⟨hx, hb⟩ := List.mem_filter.mp hx
    exact ⟨(mem_placements.mp hx).2, eq_of_beq hb⟩
  have hinj : ∀ c c' : BinEntry V, c.hashFunctionNum < numHashFunctions →
      c'.hashFunctionNum < numHashFunctions → c.key = c'.key →
      c.index = c'.index ∧ c.hashFunctionNum = c'.hashFunctionNum := by
    intro c c' h h' he
    unfold BinEntry.key numHashFunctions at *
    omega
  rw [List.map_flatMap, List.nodup_flatMap]
  refine ⟨?_, ?_⟩
  · intro b _
    rw [binEntries, List.map_map]
    refine List.Nodup.map_on ?_ (List.Nodup.filter _ ?_)
    · intro x hx x' hx' he
      obtain ⟨e, h⟩ := x
      obtain ⟨e', h'⟩ := x'
      obtain ⟨h1, h2⟩ := hinj _ _ (mem_placements.mp (List.mem_filter.mp hx).1).2
        (mem_placements.mp (List.mem_filter.mp hx').1).2 he
      exact Prod.ext h1 h2
    · rw [placements, List.nodup_flatMap]
      refine ⟨fun e _ => List.nodup_range.map fun _ _ h => (Prod.mk.inj h).2, ?_⟩
      refine (List.nodup_range' _).imp fun {e e'} hne => ?_
      intro x hx hx'
      obtain ⟨_, _, rfl⟩ := List.mem_map.mp hx
      obtain ⟨_, _, h⟩ := List.mem_map.mp hx'
      exact hne (Prod.mk.inj h).1.symm
  · refine List.nodup_range.imp fun {b b'} hne => ?_
    intro k hk hk'
    obtain ⟨c, hc, rfl⟩ := List.mem_map.mp hk
    obtain ⟨c', hc', he⟩ := List.mem_map.mp hk'
    obtain ⟨h1, h2⟩ := hkey b c hc
    obtain ⟨h1', h2'⟩ := hkey b' c' hc'
    obtain ⟨hi, hj⟩ := hinj c' c h1' h1 he
    exact hne (by rw [← h2, ← h2', hi, hj])

theorem gatherHashed_spec {threads : Buf (SimpleThread V)} (hn : 0 < ntasks)
    (hstart : ∀ i < ntasks, startpos neles ntasks i ≤ neles)
    (hthr : ∀ i < ntasks, ∀ k < endpos neles ntasks i - startpos neles ntasks i,
      (threads i).hashedElements k = (hash (startpos neles ntasks i + k)).val) :
    ∃ r, gatherHashed dummy neles ntasks threads = some r ∧
      ∀ e < neles, r.1 e = (hash e).val := by
  obtain ⟨r, hrun, hk, hr⟩ := loopM_total (P := fun i (r : Buf V × Nat) =>
      r.2 = min (startpos neles ntasks i) neles ∧ ∀ e < r.2, r.1 e = (hash e).val)
    (f := fun i r =>
      if startpos neles ntasks i ≤ endpos neles ntasks i then
        let size := endpos neles ntasks i - startpos neles ntasks i
        some (copy r.1 r.2 (threads i).hashedElements 0 size, r.2 + size)
      else none)
    (s := (fun _ => dummy, 0)) ntasks
    ⟨by rw [startpos, Nat.zero_mul, Nat.zero_min], fun e he => absurd he (Nat.not_lt_zero e)⟩
    (by
      intro i s hi hs
      obtain ⟨m, k⟩ := s
      obtain ⟨hk, hm⟩ := hs
      dsimp only at hk hm ⊢
      have hle := hstart i hi
      have hend : startpos neles ntasks i ≤ endpos neles ntasks i :=
        Nat.le_min.mpr ⟨Nat.le_add_right _ _, hle⟩
      rw [Nat.min_eq_left hle] at hk
      subst hk
      rw [if_pos hend]
      refine ⟨_, rfl, ?_, fun e he => ?_⟩
      · dsimp only
        rw [← endpos_eq]
        omega
      · dsimp only at he ⊢
        rw [copy_apply]
        split
        · next h =>
            rw [Nat.zero_add, hthr i hi _ (by omega), Nat.add_sub_cancel' h.1]
        · exact hm e (by omega))
  rw [Nat.min_eq_right (le_startpos_ntasks neles hn)] at hk
  exact ⟨r, hrun, fun e he => hr e (hk ▸ he)⟩

/-- What a finished run of simple hashing leaves behind. -/
structure SimpleHashOutput.Spec (dummy : V) (hash : Nat → Hashed V) (neles nbins : Nat)
    (out : SimpleHashOutput V) : Prop where
  /-- The cells of all bins, one bin after the other. -/
  gathered : out.Gathered ((List.range nbins).flatMap (binEntries dummy hash 0 neles))
  nelesinbin : ∀ b < nbins, out.nelesinbin b = (binEntries dummy hash 0 neles b).length
  hashedElements : ∀ e < neles, out.hashedElements e = (hash e).val

/-- Simple hashing finishes when no thread starts behind the end, and leaves such a run. -/
theorem simpleHashing_spec (dummy : V) (hn : 0 < ntasks)
    (hstart : ∀ i < ntasks, startpos neles ntasks i ≤ neles)
    (hadr : ∀ e < neles, ∀ j < numHashFunctions, (hash e).address j < nbins) :
    ∃ out, simpleHashing dummy hash neles nbins ntasks = some out ∧
      out.Spec dummy hash neles nbins := by
  obtain ⟨threads, hthreads, hholds⟩ := genAllEntries_spec (V := V) hadr
  obtain ⟨r, hr, hhash⟩ := gatherHashed_spec hn hstart fun i hi => (hholds i hi).2
  obtain ⟨hg, hcount, hh⟩ := gatherBins_spec (binEntries dummy hash 0 neles)
    ⟨r.1, fun _ => dummy, fun _ => 0, fun _ => 0, fun _ => 0, 0⟩
    (fun b _ => by
      rw [← flatMap_binEntries hn hstart b]
      exact List.flatMap_congr fun i hi => (hholds i (List.mem_range.mp hi)).1.bins b)
    nodup_keys ⟨rfl, nofun, nofun, nofun⟩
  refine ⟨_, ?_, hg, hcount, fun e he => by rw [hh]; exact hhash e he⟩
  rw [simpleHashing, hthreads, Option.bind_eq_bind, Option.bind_some, hr]
  rfl

/-- It does not finish otherwise. -/
theorem startpos_le_of_simpleHashing {out : SimpleHashOutput V}
    (h : simpleHashing dummy hash neles nbins ntasks = some out) :
    ∀ i < ntasks, startpos neles ntasks i ≤ neles := by
  obtain ⟨threads, -, h⟩ := Option.bind_eq_some_iff.mp h
  obtain ⟨r, hr, -⟩ := Option.bind_eq_some_iff.mp h
  intro i hi
  obtain ⟨t, t', hstep⟩ := loopM_round hr hi
  split at hstep
  · next hle => exact hle.trans (Nat.min_le_right _ _)
  · cases hstep

theorem SimpleHashOutput.Spec.of_simpleHashing (hn : 0 < ntasks)
    (hadr : ∀ e < neles, ∀ j < numHashFunctions, (hash e).address j < nbins)
    {out : SimpleHashOutput V} (h : simpleHashing dummy hash neles nbins ntasks = some out) :
    out.Spec dummy hash neles nbins := by
  obtain ⟨out', hrun, hspec⟩ := simpleHashing_spec dummy hn (startpos_le_of_simpleHashing h) hadr
  rw [h] at hrun
  cases hrun
  exact hspec

/-- **Where a placement is found**: in its bin, with its value, under the same index in both
tables. -/
theorem SimpleHashOutput.Spec.position {out : SimpleHashOutput V}
    (h : out.Spec dummy hash neles nbins) {e j : Nat} (he : e < neles)
    (hj : j < numHashFunctions) (hb : (hash e).address j < nbins) :
    ∃ u < out.nelesinbin ((hash e).address j),
      let k := (∑ i ∈ Finset.range ((hash e).address j), out.nelesinbin i) + u
      out.elementsToHashTable (numHashFunctions * e + j) = k ∧
        out.binToElementsToHashTable k = numHashFunctions * e + j ∧
        out.resBins k = storedValue dummy (hash e) j := by
  have hmem : entryOf dummy hash (e, j) ∈ binEntries dummy hash 0 neles ((hash e).address j) :=
    List.mem_map_of_mem (List.mem_filter.mpr
      ⟨mem_placements.mpr ⟨⟨Nat.zero_le e, by omega⟩, hj⟩, beq_self_eq_true _⟩)
  obtain ⟨u, hu, hget⟩ := List.mem_iff_getElem.mp hmem
  have hsum : (∑ i ∈ Finset.range ((hash e).address j), out.nelesinbin i)
      = ∑ i ∈ Finset.range ((hash e).address j), (binEntries dummy hash 0 neles i).length :=
    Finset.sum_congr rfl fun i hi => h.nelesinbin i ((Finset.mem_range.mp hi).trans hb)
  have hk := getElem?_flatMap_range (binEntries dummy hash 0 neles) hb hu
  rw [← hsum, List.getElem?_eq_getElem hu, hget] at hk
  exact ⟨u, by rw [h.nelesinbin _ hb]; exact hu, h.gathered.elementsTo hk,
    h.gathered.binToElements hk, h.gathered.resBins hk⟩

end Threads

end MultiPartyPSI
