import MultiPartyPSI.Gbf.GarbledBF
import MultiPartyPSI.Party.CommonElements

/-!
# BLOOM_FILTER, over the network

A follower stores its masks, the shares of their bins added, in one garbled Bloom filter for
each hash function of the bins, and sends the filters behind the keys of their own hash functions.
The leader asks the filter for the hash function that placed its element. No follower may come to
an element all of whose slots are marked by the elements before it.
-/

namespace MultiPartyPSI

open Lib Buf

section Model

variable {X : Type*}

/-- `GarbledBloomFilter`, of which the leader and the followers are: `m_bfParam`, and the hash
function `RangeHash_Create` makes of a key. -/
structure GarbledBloomFilter (X : Type*) where
  m : Nat
  k : Nat
  /-- `m_symSecParameter/8`. -/
  keySize : Nat
  rangeHash : (Fin keySize → Byte) → X → Fin m

/-- The hash functions of an array of keys. -/
def GarbledBloomFilter.hashFuncs (g : GarbledBloomFilter X) (keys : Buf Byte) (i : Nat) :
    X → Fin g.m :=
  g.rangeHash (row g.keySize keys i)

/-- `GBFFollower`, with the bytes of its PRG for each filter. -/
structure GBFFollower (X : Type*) extends GarbledBloomFilter X where
  realElements : Nat → X
  keys : Buf Byte
  random : Nat → Buf Byte

namespace GBFFollower

variable (f : GBFFollower X) (set : FollowerSet)

/-- The filter for hash function `i` of the bins. -/
def filter (masks : Buf Byte) (i : Nat) : Option (GarbledBF f.m) :=
  buildGBFInThread set.numOfElements numHashFunctions set.maskSizeInBytes i set.elementsToHashTable
    f.realElements masks (f.hashFuncs f.keys) f.k
    (gbfCreate f.m f.k set.maskSizeInBytes (some (f.random i)))

/-- `buildGBF`. The threads have a filter each. -/
def buildGBF (masks : Buf Byte) : Option (List (GarbledBF f.m)) :=
  (List.range numHashFunctions).mapM (f.filter set masks)

/-- The blocks that `run` sends. -/
def run (share : Buf Byte) : Option (List (List Byte)) := do
  let filters ← f.buildGBF set (xorMasks set.masks set.maskSizeInBytes share set.numOfBins
    set.numOfElementsInBin)
  return sendBytes f.keys (f.k * f.keySize) :: filters.map fun filter =>
    sendBytes filter.data (f.m * set.maskSizeInBytes)

end GBFFollower

/-- `GBFLeader`, with the data of the filters it has received. -/
structure GBFLeader (X : Type*) extends GarbledBloomFilter X where
  numParties : Nat
  maskSizeInBytes : Nat
  elements : Nat → X
  leaderResults : Nat → Buf Byte
  partiesKeys : Nat → Buf Byte
  partiesFilters : Nat → Nat → Buf Byte

namespace GBFLeader

variable (l : GBFLeader X)

/-- `m_partiesFilters[p][i]`. -/
def filter (p i : Nat) : GarbledBF l.m :=
  { gbfCreate l.m l.k l.maskSizeInBytes none with data := l.partiesFilters p i }

/-- The value that `GBF_query` returns, and the indices it leaves. -/
def query (p index hashFuncIndex : Nat) (indexes : Buf Nat) : Buf Byte × Buf Nat :=
  gbfQuery (l.filter p hashFuncIndex) l.k l.maskSizeInBytes (l.hashFuncs (l.partiesKeys p))
    (l.elements index) indexes

/-- `isElementInAllSets`, where `indexes index` are the indices that the thread had before it came
to element `index`. -/
def isElementInAllSets (indexes : Nat → Buf Nat) : ElementCheck :=
  fun index binIndex tableIndex hashFuncIndex share =>
    let pos := binIndex * l.maskSizeInBytes
    let s := loop (fun i (s : Buf Byte × Buf Nat) =>
        let secret := XOR s.1 pos (l.leaderResults (i + 2)) (tableIndex * l.maskSizeInBytes)
          l.maskSizeInBytes
        let value := l.query (i + 2) index hashFuncIndex s.2
        (XOR secret pos value.1 0 l.maskSizeInBytes, value.2))
      l.numParties (share, indexes index)
    (isZero s.1 pos l.maskSizeInBytes, s.1)

end GBFLeader

end Model

/-! ## The leader's check -/

section Check

variable {X : Type*}

/-- The XOR of the slots of an element. -/
def slotSum {m : Nat} (w : Nat) (data : Buf Byte) (hashes : Nat → X → Fin m) (element : X)
    (k : Nat) : Fin w → Byte :=
  ∑ d ∈ slots hashes element k, row w data d

variable (l : GBFLeader X)

/-- What is added for party `p`. -/
def GBFLeader.value (index hashFuncIndex p : Nat) : Fin l.maskSizeInBytes → Byte :=
  slotSum l.maskSizeInBytes (l.partiesFilters p hashFuncIndex) (l.hashFuncs (l.partiesKeys p))
    (l.elements index) l.k

/-- The check adds the leader's result and the value of each follower, to the share of its bin. -/
theorem GBFLeader.row_isElementInAllSets (indexes : Nat → Buf Nat) (i b t h : Nat)
    (share : Buf Byte) :
    row l.maskSizeInBytes (l.isElementInAllSets indexes i b t h share).2 b
        = row l.maskSizeInBytes share b + ∑ p ∈ Finset.Ico 2 (2 + l.numParties),
            (row l.maskSizeInBytes (l.leaderResults p) t + l.value i h p) ∧
      ∀ b', b' ≠ b → row l.maskSizeInBytes (l.isElementInAllSets indexes i b t h share).2 b'
        = row l.maskSizeInBytes share b' := by
  refine loop_induct (P := fun n (s : Buf Byte × Buf Nat) =>
    row l.maskSizeInBytes s.1 b = row l.maskSizeInBytes share b
        + ∑ p ∈ Finset.Ico 2 (2 + n),
            (row l.maskSizeInBytes (l.leaderResults p) t + l.value i h p) ∧
      ∀ b', b' ≠ b → row l.maskSizeInBytes s.1 b' = row l.maskSizeInBytes share b')
    l.numParties ⟨?_, fun _ _ => rfl⟩ ?_
  · rw [Nat.add_zero, Finset.Ico_self, Finset.sum_empty, add_zero]
  · intro n s _ hs
    -- whatever the indices were
    have hquery : row l.maskSizeInBytes (l.query (n + 2) i h s.2).1 0 = l.value i h (n + 2) :=
      row_gbfQuery (l.filter (n + 2) h) l.k _ _ s.2
    have hadd := row_XOR_same (w := l.maskSizeInBytes) (XOR s.1 (b * l.maskSizeInBytes)
      (l.leaderResults (n + 2)) (t * l.maskSizeInBytes) l.maskSizeInBytes)
      (l.query (n + 2) i h s.2).1 b 0
    rw [Nat.zero_mul] at hadd
    refine ⟨?_, fun b' hb' => ?_⟩
    · rw [hadd, hquery, row_XOR_same, hs.1, ← Nat.add_assoc, Finset.sum_Ico_succ_top (by omega),
        Nat.add_comm 2 n, add_assoc, add_assoc]
    · rw [row_XOR_ne _ _ _ _ hb', row_XOR_ne _ _ _ _ hb', hs.2 b' hb']

theorem GBFLeader.isElementInAllSets_iff (indexes : Nat → Buf Nat) (i b t h : Nat)
    (share : Buf Byte) :
    (l.isElementInAllSets indexes i b t h share).1 = true
      ↔ row l.maskSizeInBytes share b + ∑ p ∈ Finset.Ico 2 (2 + l.numParties),
          (row l.maskSizeInBytes (l.leaderResults p) t + l.value i h p) = 0 := by
  rw [← (l.row_isElementInAllSets indexes i b t h share).1]
  exact isZero_row _ b l.maskSizeInBytes

theorem GBFLeader.localCheck (indexes : Nat → Buf Nat) :
    LocalCheck l.maskSizeInBytes (l.isElementInAllSets indexes) := by
  refine ⟨fun i b t h share => (l.row_isElementInAllSets indexes i b t h share).2,
    fun i b t h share share' hrow => ?_⟩
  rw [Bool.eq_iff_iff, l.isElementInAllSets_iff, l.isElementInAllSets_iff, hrow]

end Check

/-! ## The session -/

variable {G : Type*} [CommGroup G] {C : OprgCrypto G} {X : Type*}

/-- What BLOOM_FILTER adds to a session: the keys and the random bytes of the followers. -/
structure BloomFilters (X : Type*) extends GarbledBloomFilter X where
  keys : Nat → Buf Byte
  random : Nat → Nat → Buf Byte

/-- The hash functions that party `p` fills its filters with. -/
def BloomFilters.hashes (g : BloomFilters X) (p : Nat) : Nat → X → Fin g.m :=
  g.hashFuncs (g.keys p)

namespace PsiSession

/-- The `GBFFollower` of party `p`. -/
def gbfFollower (s : PsiSession C X) (g : BloomFilters X) (p : Nat) : GBFFollower X where
  toGarbledBloomFilter := g.toGarbledBloomFilter
  realElements := s.elements p
  keys := g.keys p
  random := g.random p

/-- The session with `GBFFollower::run`, and the lengths of `GBFLeader::receiveKeysAndFilters`. -/
def bloomFilter (s : PsiSession C X) (g : BloomFilters X) : PsiSession C X :=
  { s with
    followerRun := fun p set share => ((s.gbfFollower g p).run set share).getD []
    blockLengths :=
      g.k * g.keySize :: List.replicate numHashFunctions (g.m * s.maskSizeInBytes) }

/-- The `GBFLeader` when it has received everything. -/
def gbfLeader (s : PsiSession C X) (g : BloomFilters X) (leaderResults : Nat → Buf Byte)
    (received : Nat → List (List Byte)) : GBFLeader X where
  toGarbledBloomFilter := g.toGarbledBloomFilter
  numParties := s.numOfParties - 1
  maskSizeInBytes := s.maskSizeInBytes
  elements := s.elements 1
  leaderResults := leaderResults
  partiesKeys := fun p => receivedBuf (received p) 0
  partiesFilters := fun p i => receivedBuf (received p) (i + 1)

/-- Each element of a follower has a slot that none of the elements before it has. -/
def SlotsFree (s : PsiSession C X) (g : BloomFilters X) : Prop :=
  ∀ p, 2 ≤ p → p ≤ s.numOfParties → ∀ e < s.setSize, ∃ i < g.k, ∀ e' < e,
    (g.hashes p i (s.elements p e) : Nat) ∉ slots (g.hashes p) (s.elements p e') g.k

end PsiSession

/-- The one candidate of party `p` for an element: what its filter for hash function `j` answers. -/
def PsiOutcome.filterAnswer {s : PsiSession C X} {g : BloomFilters X}
    (o : PsiOutcome (s.bloomFilter g)) : Candidates s.maskSizeInBytes :=
  fun p i _ j => {x | ∃ filter : GarbledBF g.m,
    (s.gbfFollower g p).filter (s.followerSet p (o.masks p)) (o.masked p) j = some filter ∧
    x = row s.maskSizeInBytes (gbfQuery filter g.k s.maskSizeInBytes (g.hashes p)
      (s.elements 1 i) fun _ => 0).1 0}

section Filters

variable {s : PsiSession C X} {g : BloomFilters X}

/-- All filters can be built, whatever the masks. -/
theorem exists_filter (hfree : s.SlotsFree g) {p : Nat} (h2 : 2 ≤ p) (hn : p ≤ s.numOfParties)
    (set masks : Buf Byte) (j : Nat) :
    ∃ filter : GarbledBF g.m,
      (s.gbfFollower g p).filter (s.followerSet p set) masks j = some filter ∧
      filter.Holds (g.hashes p) g.k s.maskSizeInBytes
        (buildAdds numHashFunctions s.maskSizeInBytes j (s.simple p).elementsToHashTable
          (s.elements p) masks s.setSize) := by
  have heach : EachFindsFree (g.hashes p) g.k
      (gbfCreate g.m g.k s.maskSizeInBytes (some (g.random p j)))
      (buildAdds numHashFunctions s.maskSizeInBytes j (s.simple p).elementsToHashTable
        (s.elements p) masks s.setSize) := by
    refine eachFindsFree_of_slots fun e he => ?_
    rw [buildAdds, List.length_map, List.length_range] at he
    obtain ⟨i, hi, hnew⟩ := hfree p h2 hn e he
    refine ⟨i, hi, rfl, fun e' he' => ?_⟩
    simp only [buildAdds, List.getElem_map, List.getElem_range]
    exact hnew e' he'
  obtain ⟨filter, hrun, hholds⟩ := gbfAdds_holds (gbfCreate_holds _ _ _ _ _) heach
  rw [List.nil_append] at hholds
  exact ⟨filter, (buildGBFInThread_eq _ _ _ _ _ _ _ _ _).trans hrun, hholds⟩

/-- What a follower sends. -/
theorem exists_run (hfree : s.SlotsFree g) {p : Nat} (h2 : 2 ≤ p) (hn : p ≤ s.numOfParties)
    (masks share : Buf Byte) :
    ∃ filters : Nat → GarbledBF g.m,
      (∀ j, (s.gbfFollower g p).filter (s.followerSet p masks)
        (xorMasks masks s.maskSizeInBytes share s.numOfBins (s.simple p).nelesinbin) j
          = some (filters j)) ∧
      (s.gbfFollower g p).run (s.followerSet p masks) share
        = some (sendBytes (g.keys p) (g.k * g.keySize) :: (List.range numHashFunctions).map fun j =>
            sendBytes (filters j).data (g.m * s.maskSizeInBytes)) := by
  choose filters hfilters _ using fun j => exists_filter hfree h2 hn masks
    (xorMasks masks s.maskSizeInBytes share s.numOfBins (s.simple p).nelesinbin) j
  refine ⟨filters, hfilters, ?_⟩
  have hbuild : (s.gbfFollower g p).buildGBF (s.followerSet p masks)
      (xorMasks masks s.maskSizeInBytes share s.numOfBins (s.simple p).nelesinbin)
        = some ((List.range numHashFunctions).map filters) := by
    rw [GBFFollower.buildGBF, funext hfilters]
    exact List.mapM_pure
  rw [GBFFollower.run]
  refine (congrArg (Option.bind · _) hbuild).trans (congrArg some ?_)
  exact congrArg (List.cons _) List.map_map

theorem bloomFilter_blocks (hfree : s.SlotsFree g) : (s.bloomFilter g).BlocksMatch := by
  intro p h2 hn masks share
  obtain ⟨filters, -, hrun⟩ := exists_run hfree h2 hn masks share
  show (((s.gbfFollower g p).run (s.followerSet p masks) share).getD []).map List.length
    = g.k * g.keySize :: List.replicate numHashFunctions (g.m * s.maskSizeInBytes)
  rw [hrun, Option.getD_some, List.map_cons, length_sendBytes, List.map_map]
  refine congrArg _ (List.eq_replicate_iff.mpr ⟨?_, ?_⟩)
  · rw [List.length_map, List.length_range]
  · intro n hn
    obtain ⟨j, -, rfl⟩ := List.mem_map.mp hn
    exact length_sendBytes _ _

/-- The sum looks at the slots of the filter, for the first `k` hash functions. -/
theorem slotSum_congr {m w k : Nat} {data data' : Buf Byte} {hashes hashes' : Nat → X → Fin m}
    {element : X} (hhashes : ∀ i < k, hashes i element = hashes' i element)
    (hdata : ∀ d < m, row w data d = row w data' d) :
    slotSum w data hashes element k = slotSum w data' hashes' element k := by
  have hslots : slots hashes element k = slots hashes' element k :=
    Finset.image_congr fun i hi => congrArg Fin.val (hhashes i (Finset.mem_range.mp hi))
  rw [slotSum, slotSum, hslots]
  refine Finset.sum_congr rfl fun d hd => hdata d ?_
  obtain ⟨i, -, rfl⟩ := mem_slots.mp hd
  exact (hashes' i element).isLt

variable (o : PsiOutcome (s.bloomFilter g)) {leaderResults : Nat → Buf Byte}
  {received : Nat → List (List Byte)}

/-- What the leader asks a filter is what the follower would be answered. -/
theorem mem_filterAnswer (hfree : s.SlotsFree g) (hrecv : o.Received leaderResults received)
    {p i b j : Nat} (h2 : 2 ≤ p) (hn : p ≤ s.numOfParties) (hj : j < numHashFunctions)
    (x : Fin s.maskSizeInBytes → Byte) :
    x ∈ o.filterAnswer p i b j ↔ x = (s.gbfLeader g leaderResults received).value i j p := by
  obtain ⟨filters, hfilters, hrun⟩ := exists_run hfree h2 hn (o.masks p) (s.share (s.shares p))
  have hblocks : received p = sendBytes (g.keys p) (g.k * g.keySize)
      :: (List.range numHashFunctions).map fun j =>
        sendBytes (filters j).data (g.m * s.maskSizeInBytes) := by
    rw [hrecv.blocks p h2 hn]
    show ((s.gbfFollower g p).run (s.followerSet p (o.masks p)) (s.share (s.shares p))).getD [] = _
    rw [hrun, Option.getD_some]
  have hkeys : ∀ i < g.k, g.hashFuncs (receivedBuf (received p) 0) i = g.hashes p i := by
    intro i hi
    have hrow : row g.keySize (receivedBuf (received p) 0) i = row g.keySize (g.keys p) i :=
      row_receivedBuf (by rw [hblocks]; rfl) (row_end_le _ hi)
    rw [GarbledBloomFilter.hashFuncs, hrow]
    rfl
  have hdata : ∀ d < g.m, row s.maskSizeInBytes (receivedBuf (received p) (j + 1)) d
      = row s.maskSizeInBytes (filters j).data d := by
    intro d hd
    refine row_receivedBuf ?_ (row_end_le _ hd)
    rw [hblocks, List.getElem?_cons_succ, List.getElem?_map, List.getElem?_range hj]
    rfl
  obtain ⟨filter, hfilter, hholds⟩ := exists_filter hfree h2 hn (o.masks p) (o.masked p) j
  cases (hfilters j).symm.trans hfilter
  have hanswer : row s.maskSizeInBytes (gbfQuery (filters j) g.k s.maskSizeInBytes (g.hashes p)
      (s.elements 1 i) fun _ => 0).1 0 = (s.gbfLeader g leaderResults received).value i j p := by
    have hquery := row_gbfQuery (filters j) g.k (g.hashes p) (s.elements 1 i) fun _ => 0
    rw [hholds.len] at hquery
    exact hquery.trans (slotSum_congr (fun n hlt => congrFun (hkeys n hlt) _) hdata).symm
  constructor
  · rintro ⟨filter, hsome, rfl⟩
    cases hfilter.symm.trans hsome
    exact hanswer
  · rintro rfl
    exact ⟨filters j, hfilter, hanswer.symm⟩

/-- The leader accepts an element if the answers of all parties cancel. -/
theorem gbfLeader_accepts (hfree : s.SlotsFree g) (hrecv : o.Received leaderResults received)
    (indexes : Nat → Buf Nat) {i b t j : Nat} (hj : j < numHashFunctions) :
    ((s.gbfLeader g leaderResults received).isElementInAllSets indexes i b t j
        (s.share (s.shares 1))).1 = true ↔ o.CancelsAt o.filterAnswer i b t j := by
  have haccept := (s.gbfLeader g leaderResults received).isElementInAllSets_iff indexes i b t j
    (s.share (s.shares 1))
  have hcancels := o.cancelsAt_values o.filterAnswer i b t j
    ((s.gbfLeader g leaderResults received).value i j) hrecv.leaderResults
    fun p h2 hn => mem_filterAnswer o hfree hrecv h2 hn hj
  exact haccept.trans hcancels.symm

/-- A filter answers the mask of an element that was stored. -/
theorem filterAnswer_covers (hfree : s.SlotsFree g) : o.Covers o.filterAnswer := by
  intro p h2 hn i hi e he heq j hj hfirst
  obtain ⟨filter, hfilter, hholds⟩ := exists_filter hfree h2 hn (o.masks p) (o.masked p) j
  refine ⟨filter, hfilter, funext fun k : Fin s.maskSizeInBytes => ?_⟩
  have hquery := hholds.query (List.mem_map.mpr ⟨e, List.mem_range.mpr he, rfl⟩) (fun _ => 0)
    k.isLt
  have heq : s.elements p e = s.elements 1 i := heq
  rw [heq] at hquery
  have hcell : row s.maskSizeInBytes (gbfQuery filter g.k s.maskSizeInBytes (g.hashes p)
      (s.elements 1 i) fun _ => 0).1 0 k
        = o.masked p (s.maskIndex p e j * s.maskSizeInBytes + k) := by
    rw [row_apply, Nat.zero_mul, Nat.zero_add]
    exact hquery
  exact hcell.symm

end Filters

/-- Filters of four slots, two for each element; neighbours share one. -/
def smallFilters : BloomFilters (Fin 1 → Byte) where
  m := 4
  k := 2
  keySize := 1
  rangeHash := fun key x =>
    ⟨((key (Fin.last 0)).toBits.toNat + (x (Fin.last 0)).toBits.toNat) % 4,
      Nat.mod_lt _ (Nat.zero_lt_succ 3)⟩
  keys := fun _ i => ofNatLE i 0
  random := fun _ _ _ => 0

theorem smallFilters_slotsFree : (smallSession 2).SlotsFree smallFilters := by
  intro p h2 hn
  obtain rfl : p = 2 := Nat.le_antisymm hn h2
  have hfree : ∀ e < 2, ∃ i < 2, ∀ e' < e,
      (smallFilters.hashes 2 i (smallElements 2 2 e) : Nat)
        ∉ slots (smallFilters.hashes 2) (smallElements 2 2 e') 2 := by
    decide
  exact hfree

end MultiPartyPSI
