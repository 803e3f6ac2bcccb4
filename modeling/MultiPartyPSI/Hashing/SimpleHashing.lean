import MultiPartyPSI.Hashing.HashingUtil
import MultiPartyPSI.Util.Threads
import Mathlib.Data.List.Nodup

/-!
# Simple hashing

`simple_hashing.cpp`. A follower puts every element into all three of its bins. Each
thread fills a hash table of its own, whose bins all grow to twice their capacity as
soon as one is full; then the bins are written one after another, thread by thread,
and two tables note which element went where.

Of an element that has the same bin twice, only the first copy keeps its value; the
others hold the dummy entry, so that a mask is not sent twice.
-/

namespace MultiPartyPSI

open Lib Buf

variable {V : Type*}

/-- A cell of a bin: its `values` and its `indexes` (`bin_hash_ctx`). -/
structure BinEntry (V : Type*) where
  value : V
  index : Nat
  hashFunctionNum : Nat

/-- `sht_ctx`. A bin is the list of its `nvals` cells. -/
structure SimpleHashTable (V : Type*) where
  bins : Buf (List (BinEntry V))
  nbins : Nat
  maxbinsize : Nat

/-- `init_hash_table`. -/
def initHashTable (nelements nbins : Nat) : SimpleHashTable V where
  bins := fun _ => []
  nbins := nbins
  maxbinsize :=
    if ceilDivide nelements nbins < 3 then 3 * max (ceilLog2 nelements) 3
    else 6 * max (ceilDivide nelements nbins) 3

/-- `increase_max_bin_size`: the cells of every bin are copied to twice the room. -/
def SimpleHashTable.increaseMaxBinSize (t : SimpleHashTable V) : SimpleHashTable V :=
  { t with maxbinsize := t.maxbinsize * 2 }

/-- Store one cell behind the others of bin `b`. It fails where the code would write
outside the table or outside the bin. -/
def SimpleHashTable.put (t : SimpleHashTable V) (b : Nat) (c : BinEntry V) :
    Option (SimpleHashTable V) :=
  if b < t.nbins ∧ (t.bins b).length < t.maxbinsize then
    let t' := { t with bins := t.bins.write b (t.bins b ++ [c]) }
    some (if (t.bins b).length + 1 = t.maxbinsize then t'.increaseMaxBinSize else t')
  else none

/-- The value stored for hash function `i`: the dummy if an earlier one has the same bin. -/
def storedValue (dummy : V) (h : Hashed V) (i : Nat) : V :=
  loop (fun j v => if h.address i = h.address j then dummy else v) i h.val

/-- `insert_element`, on the result of `hashElement`. -/
def simpleInsertElement (dummy : V) (hash : Nat → Hashed V) (index : Nat)
    (table : SimpleHashTable V) : Option (SimpleHashTable V) :=
  loopM (fun i table =>
    table.put ((hash index).address i) ⟨storedValue dummy (hash index) i, index, i⟩)
    numHashFunctions table

/-- What a thread leaves in its context: its table and its hashed elements. -/
structure SimpleThread (V : Type*) where
  table : SimpleHashTable V
  hashedElements : Buf V

/-- `gen_entries`, for the elements from `startpos` to `endpos`. -/
def genEntries (dummy : V) (hash : Nat → Hashed V) (startpos endpos : Nat)
    (t : SimpleThread V) : Option (SimpleThread V) :=
  loopM (fun k t =>
    (simpleInsertElement dummy hash (startpos + k) t.table).map fun table =>
      ⟨table, t.hashedElements.write k (hash (startpos + k)).val⟩) (endpos - startpos) t

/-- `simple_hash_output`, with the cursor `progress`. -/
structure SimpleHashOutput (V : Type*) where
  hashedElements : Buf V
  resBins : Buf V
  nelesinbin : Buf Nat
  elementsToHashTable : Buf Nat
  binToElementsToHashTable : Buf Nat
  progress : Nat

/-- The index of a cell in `elements_to_hash_table`. -/
def BinEntry.key (c : BinEntry V) : Nat := numHashFunctions * c.index + c.hashFunctionNum

/-- Write one cell of a bin out; `progress` is `progress + l` of the code's inner loop. -/
def SimpleHashOutput.append (out : SimpleHashOutput V) (c : BinEntry V) : SimpleHashOutput V :=
  { out with
    resBins := out.resBins.write out.progress c.value
    elementsToHashTable := out.elementsToHashTable.write c.key out.progress
    binToElementsToHashTable := out.binToElementsToHashTable.write out.progress c.key
    progress := out.progress + 1 }

/-- Write bin `i` of one thread's table out. -/
def SimpleHashOutput.appendBin (out : SimpleHashOutput V) (i : Nat) (bin : List (BinEntry V)) :
    SimpleHashOutput V :=
  bin.foldl SimpleHashOutput.append
    { out with nelesinbin := out.nelesinbin.write i (out.nelesinbin i + bin.length) }

/-- Write all bins out, thread by thread. -/
def gatherBins (nbins ntasks : Nat) (threads : Buf (SimpleThread V)) (out : SimpleHashOutput V) :
    SimpleHashOutput V :=
  loop (fun i out =>
    loop (fun j out => out.appendBin i ((threads j).table.bins i)) ntasks
      { out with nelesinbin := out.nelesinbin.write i 0 }) nbins out

/-- Concatenate the threads' hashed elements; the cursor `k` counts elements. It fails for a
thread that starts behind its end, whose size wraps around. -/
def gatherHashed (dummy : V) (neles ntasks : Nat) (threads : Buf (SimpleThread V)) :
    Option (Buf V × Nat) :=
  loopM (fun i r =>
    if startpos neles ntasks i ≤ endpos neles ntasks i then
      let size := endpos neles ntasks i - startpos neles ntasks i
      some (copy r.1 r.2 (threads i).hashedElements 0 size, r.2 + size)
    else none) ntasks (fun _ => dummy, 0)

/-- All threads, one after the other: their tables are their own. -/
def genAllEntries (dummy : V) (hash : Nat → Hashed V) (neles nbins ntasks : Nat) :
    Option (Buf (SimpleThread V)) :=
  loopM (fun i threads =>
    (genEntries dummy hash (startpos neles ntasks i) (endpos neles ntasks i) (threads i)).map
      fun t => threads.write i t) ntasks
    (fun _ => ⟨initHashTable (ceilDivide neles ntasks) nbins, fun _ => dummy⟩)

/-- `simple_hashing`. Every cell of a fresh array that is read later is written first; until
then it is taken to hold the dummy, or zero. -/
def simpleHashing (dummy : V) (hash : Nat → Hashed V) (neles nbins ntasks : Nat) :
    Option (SimpleHashOutput V) := do
  let threads ← genAllEntries dummy hash neles nbins ntasks
  let (hashedElements, _) ← gatherHashed dummy neles ntasks threads
  return gatherBins nbins ntasks threads
    { hashedElements := hashedElements
      resBins := fun _ => dummy
      nelesinbin := fun _ => 0
      elementsToHashTable := fun _ => 0
      binToElementsToHashTable := fun _ => 0
      progress := 0 }

/-! ## What bins hold

Element by element and hash function by hash function, each placement goes to its bin.
So a bin holds, in this order, the placements that have its address. -/

/-- The placements of `n` elements from `lo` on. -/
def placements (lo n : Nat) : List (Nat × Nat) :=
  (List.range' lo n).flatMap fun e => (List.range numHashFunctions).map fun h => (e, h)

section Content

variable (dummy : V) (hash : Nat → Hashed V)

/-- The cell stored for a placement. -/
def entryOf (x : Nat × Nat) : BinEntry V := ⟨storedValue dummy (hash x.1) x.2, x.1, x.2⟩

/-- The cells of bin `b` that `n` elements from `lo` on are responsible for. -/
def binEntries (lo n b : Nat) : List (BinEntry V) :=
  ((placements lo n).filter fun x => (hash x.1).address x.2 == b).map (entryOf dummy hash)

variable {dummy hash}

theorem mem_placements {lo n : Nat} {x : Nat × Nat} :
    x ∈ placements lo n ↔ (lo ≤ x.1 ∧ x.1 < lo + n) ∧ x.2 < numHashFunctions := by
  obtain ⟨e, h⟩ := x
  simp only [placements, List.mem_flatMap, List.mem_map, List.mem_range'_1, List.mem_range,
    Prod.mk.injEq]
  refine ⟨?_, ?_⟩
  · intro hmem
    obtain ⟨e', he, h', hh, rfl, rfl⟩ := hmem
    exact ⟨he, hh⟩
  · intro hmem
    exact ⟨e, hmem.1, h, hmem.2, rfl, rfl⟩

theorem binEntries_append (lo m n b : Nat) :
    binEntries dummy hash lo (m + n) b
      = binEntries dummy hash lo m b ++ binEntries dummy hash (lo + m) n b := by
  rw [binEntries, binEntries, binEntries, placements, ← List.range'_append_1, List.flatMap_append,
    List.filter_append, List.map_append]
  rfl

/-- The dummy is stored exactly when an earlier hash function has the same bin. -/
theorem storedValue_eq (h : Hashed V) (i : Nat) :
    storedValue dummy h i = if ∃ j < i, h.address j = h.address i then dummy else h.val := by
  have key : ∀ n, loop (fun j v => if h.address i = h.address j then dummy else v) n h.val
      = if ∃ j < n, h.address j = h.address i then dummy else h.val := by
    intro n
    induction n with
    | zero => simp
    | succ n ih =>
        rw [loop_succ, ih]
        by_cases hn : h.address i = h.address n
        · rw [if_pos hn, if_pos ⟨n, Nat.lt_succ_self n, hn.symm⟩]
        · rw [if_neg hn]
          refine if_congr ⟨?_, ?_⟩ rfl rfl
          · intro hex
            obtain ⟨j, hj, he⟩ := hex
            exact ⟨j, Nat.lt_succ_of_lt hj, he⟩
          · intro hex
            obtain ⟨j, hj, he⟩ := hex
            rcases Nat.lt_succ_iff_lt_or_eq.mp hj with h' | rfl
            · exact ⟨j, h', he⟩
            · exact absurd he.symm hn
  exact key i

end Content

/-! ## Filling the tables -/

/-- A table of `nbins` bins that holds these cells, with room for one more in each bin. -/
structure SimpleHashTable.Holds (t : SimpleHashTable V) (nbins : Nat)
    (cells : Nat → List (BinEntry V)) : Prop where
  nbins_eq : t.nbins = nbins
  bins : ∀ b, t.bins b = cells b
  room : ∀ b, (t.bins b).length < t.maxbinsize

section Fill

variable {dummy : V} {hash : Nat → Hashed V} {nbins : Nat}

theorem initHashTable_holds (nelements : Nat) :
    (initHashTable nelements nbins : SimpleHashTable V).Holds nbins fun _ => [] := by
  refine ⟨rfl, fun _ => rfl, fun _ => ?_⟩
  show 0 < if ceilDivide nelements nbins < 3 then 3 * max (ceilLog2 nelements) 3
    else 6 * max (ceilDivide nelements nbins) 3
  split <;> omega

/-- A cell always fits, and there is room again afterwards. -/
theorem SimpleHashTable.Holds.put {t : SimpleHashTable V} {cells : Nat → List (BinEntry V)}
    (h : t.Holds nbins cells) {a : Nat} (ha : a < nbins) (c : BinEntry V) :
    ∃ t', t.put a c = some t' ∧
      t'.Holds nbins fun b => cells b ++ if a = b then [c] else [] := by
  have hroom := h.room a
  rw [SimpleHashTable.put, if_pos ⟨by rw [h.nbins_eq]; exact ha, hroom⟩]
  refine ⟨_, rfl, ?_⟩
  have hcell : ∀ b, (t.bins.write a (t.bins a ++ [c])) b
      = cells b ++ if a = b then [c] else [] := by
    intro b
    by_cases hb : b = a
    · subst hb
      rw [write_same, if_pos rfl, h.bins]
    · rw [write_ne _ _ hb, if_neg (Ne.symm hb), h.bins, List.append_nil]
  have hlen : ∀ b, ((t.bins.write a (t.bins a ++ [c])) b).length
      = (t.bins b).length + if b = a then 1 else 0 := by
    intro b
    by_cases hb : b = a
    · subst hb
      rw [write_same, if_pos rfl, List.length_append, List.length_singleton]
    · rw [write_ne _ _ hb, if_neg hb, Nat.add_zero]
  split
  · refine ⟨h.nbins_eq, hcell, fun b => ?_⟩
    have := h.room b
    show ((t.bins.write a (t.bins a ++ [c])) b).length < t.maxbinsize * 2
    rw [hlen]
    split <;> omega
  · next hfull =>
      refine ⟨h.nbins_eq, hcell, fun b => ?_⟩
      have := h.room b
      show ((t.bins.write a (t.bins a ++ [c])) b).length < t.maxbinsize
      rw [hlen]
      split
      · next hb => subst hb; omega
      · omega

theorem simpleInsertElement_spec {t : SimpleHashTable V} {lo n : Nat}
    (hadr : ∀ j < numHashFunctions, (hash (lo + n)).address j < nbins)
    (h : t.Holds nbins (binEntries dummy hash lo n)) :
    ∃ t', simpleInsertElement dummy hash (lo + n) t = some t' ∧
      t'.Holds nbins (binEntries dummy hash lo (n + 1)) := by
  obtain ⟨t', hrun, hinv⟩ := loopM_total
    (P := fun k (t : SimpleHashTable V) => t.Holds nbins fun b => binEntries dummy hash lo n b
      ++ ((List.range k).filter fun j => (hash (lo + n)).address j == b).map fun j =>
        entryOf dummy hash (lo + n, j))
    (f := fun i table => table.put ((hash (lo + n)).address i)
      ⟨storedValue dummy (hash (lo + n)) i, lo + n, i⟩) numHashFunctions
    (by simpa using h)
    (fun k t hk ht => by
      obtain ⟨t', hput, ht'⟩ := ht.put (hadr k hk)
        ⟨storedValue dummy (hash (lo + n)) k, lo + n, k⟩
      refine ⟨t', hput, ht'.nbins_eq, fun b => ?_, ht'.room⟩
      rw [ht'.bins, List.range_succ, List.filter_append, List.map_append, List.append_assoc]
      by_cases hb : (hash (lo + n)).address k = b
      · simp [hb, entryOf]
      · simp [hb])
  refine ⟨t', hrun, hinv.nbins_eq, fun b => ?_, hinv.room⟩
  rw [hinv.bins, binEntries_append]
  congr 1
  simp [binEntries, placements, List.filter_map, Function.comp_def]

theorem genEntries_spec (dummy : V) {hi : Nat}
    (hadr : ∀ e < hi, ∀ j < numHashFunctions, (hash e).address j < nbins) (nelements : Nat)
    (hashed : Buf V) (lo : Nat) :
    ∃ t, genEntries dummy hash lo hi ⟨initHashTable nelements nbins, hashed⟩ = some t ∧
      t.table.Holds nbins (binEntries dummy hash lo (hi - lo)) ∧
      ∀ k < hi - lo, t.hashedElements k = (hash (lo + k)).val := by
  refine loopM_total (P := fun n (t : SimpleThread V) =>
    t.table.Holds nbins (binEntries dummy hash lo n) ∧
      ∀ k < n, t.hashedElements k = (hash (lo + k)).val) (hi - lo)
    ⟨initHashTable_holds nelements, fun k hk => absurd hk (Nat.not_lt_zero k)⟩ ?_
  intro n s hn hs
  obtain ⟨table, hashedElements⟩ := s
  obtain ⟨ht, hh⟩ := hs
  obtain ⟨t', hrun, ht'⟩ := simpleInsertElement_spec (hadr (lo + n) (by omega)) ht
  refine ⟨⟨t', hashedElements.write n (hash (lo + n)).val⟩, ?_, ht', fun k hk => ?_⟩
  · dsimp only
    rw [hrun]
    rfl
  · dsimp only
    by_cases hkn : k = n
    · subst hkn
      exact write_same _ _ _
    · rw [write_ne _ _ hkn]
      exact hh k (by omega)

/-- Every thread finishes, and its table holds the placements of its elements. -/
theorem genAllEntries_spec {neles ntasks : Nat}
    (hadr : ∀ e < neles, ∀ j < numHashFunctions, (hash e).address j < nbins) :
    ∃ threads, genAllEntries dummy hash neles nbins ntasks = some threads ∧
      ∀ i < ntasks,
        (threads i).table.Holds nbins (binEntries dummy hash (startpos neles ntasks i)
          (endpos neles ntasks i - startpos neles ntasks i)) ∧
        ∀ k < endpos neles ntasks i - startpos neles ntasks i,
          (threads i).hashedElements k = (hash (startpos neles ntasks i + k)).val := by
  obtain ⟨threads, hrun, hdone, -⟩ := loopM_total
    (P := fun n (threads : Buf (SimpleThread V)) =>
      (∀ i < n, (threads i).table.Holds nbins (binEntries dummy hash (startpos neles ntasks i)
          (endpos neles ntasks i - startpos neles ntasks i)) ∧
        ∀ k < endpos neles ntasks i - startpos neles ntasks i,
          (threads i).hashedElements k = (hash (startpos neles ntasks i + k)).val) ∧
      ∀ i, n ≤ i → threads i = ⟨initHashTable (ceilDivide neles ntasks) nbins, fun _ => dummy⟩)
    (f := fun i threads =>
      (genEntries dummy hash (startpos neles ntasks i) (endpos neles ntasks i) (threads i)).map
        fun t => Buf.write threads i t)
    (s := fun _ => ⟨initHashTable (ceilDivide neles ntasks) nbins, fun _ => dummy⟩) ntasks
    ⟨fun i hi => absurd hi (Nat.not_lt_zero i), fun _ _ => rfl⟩
    (fun n threads _ h => by
      obtain ⟨hdone, hinit⟩ := h
      have hadr' : ∀ e < endpos neles ntasks n, ∀ j < numHashFunctions,
          (hash e).address j < nbins :=
        fun e he => hadr e (lt_of_lt_of_le he (Nat.min_le_right _ _))
      obtain ⟨t, hrun, ht⟩ := genEntries_spec dummy hadr' (ceilDivide neles ntasks)
        (fun _ => dummy) (startpos neles ntasks n)
      refine ⟨threads.write n t, by rw [hinit n le_rfl, hrun]; rfl, fun i hi => ?_,
        fun i hi => ?_⟩
      · by_cases hin : i = n
        · subst hin
          rw [write_same]
          exact ht
        · rw [write_ne _ _ hin]
          exact hdone i (by omega)
      · rw [write_ne _ _ (by omega)]
        exact hinit i (by omega))
  exact ⟨threads, hrun, hdone⟩

end Fill

end MultiPartyPSI
