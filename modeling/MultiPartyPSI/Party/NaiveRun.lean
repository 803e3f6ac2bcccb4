import MultiPartyPSI.Followers.NaiveFollower
import MultiPartyPSI.Hashing.SimpleHashingIndex
import MultiPartyPSI.Leaders.NaiveLeader
import MultiPartyPSI.Party.HashInfo
import MultiPartyPSI.Party.SecretShare

/-!
# When NAIVE_METHOD_SMALL_N finds every common element

`PsiParty::run`, with party 1 as the leader. All parties share a secret, the leader fills
a cuckoo table and every follower a simple hash table, the leader runs the OPRG with each of
them, every follower sends its masks, and the leader checks its elements.

What an element meets on its way: the leader has it in one bin, by the first of its hash
functions that leads there. That is the copy of the follower which keeps its value, so
both evaluate the OPRG alike; the follower adds its share of the bin; and the shares of
all parties cancel.

All this takes that the followers send something. A follower whose last thread of
`simple_hashing` starts behind its elements does not come so far: `completes_iff`.
-/

namespace MultiPartyPSI

open Lib Buf

/-- A run in which every insertion of the leader succeeds. Addresses and values depend on the
element alone, and the OPRG evaluates `oprg p` for the leader and follower `p`, if the follower
has a table to run it on. -/
structure NaiveRun (X V Key : Type*) [Zero V] where
  numOfParties : Nat
  setSize : Nat
  numOfBins : Nat
  maskSizeInBytes : Nat
  maxBinSize : Nat
  elements : Nat → Nat → X
  hashElement : X → Hashed V
  dummy : V
  oprg : Nat → Nat → V → Fin maskSizeInBytes → Byte
  prg : Key → Nat → Buf Byte
  keys : Nat → Nat → Key
  numCores : Nat → Nat
  /-- The network once `additiveSecretShare` is over, with any room in its channels. -/
  room : Nat → Prop
  network : Net Nat Key (ShareState Key)
  entries : Buf (CuckooEntry V)
  cuckoo : CuckooRun V
  leaderResults : Nat → Buf Byte
  masks : Nat → Buf Byte
  freshInfo : Buf CuckooHashInfo
  two_le_numOfParties : 2 ≤ numOfParties
  numCores_pos : ∀ p, 0 < numCores p
  distinct : ∀ p, 1 ≤ p → p ≤ numOfParties → ∀ i < setSize, ∀ j < setSize,
    elements p i = elements p j → i = j
  address_lt : ∀ x, ∀ j < numHashFunctions, (hashElement x).address j < numOfBins
  reachable : Net.Reachable (shareProgram numOfParties keys) room (shareInit Key) network
  finished : ∀ p, 1 ≤ p → p ≤ numOfParties →
    network.Finished (shareProgram numOfParties keys) p
  cuckoo_run : cuckooHashing dummy (fun i => hashElement (elements 1 i)) setSize numOfBins
    (numCores 1) entries = some cuckoo
  inserted : cuckoo.failed = []
  client : ∀ p, 2 ≤ p → p ≤ numOfParties → ClientResults (oprg p) numOfBins
    cuckoo.out.hashTable cuckoo.out.nelesinbin (leaderResults p)
  server : ∀ p, 2 ≤ p → p ≤ numOfParties → ∀ out, simpleHashing dummy
    (fun i => hashElement (elements p i)) setSize numOfBins (numCores p) = some out →
    ServerResults (oprg p) numOfBins out.resBins out.nelesinbin (masks p)

namespace NaiveRun

variable {X V Key : Type*} [Zero V] (r : NaiveRun X V Key)

/-- `m_secretShare` of party `p`. -/
def share (p : Nat) : Buf Byte :=
  secretShare r.prg (r.maskSizeInBytes * r.numOfBins) (r.network.loc p).shares

/-- `simple_hashing` of `runAsFollower`, for party `p`. -/
def simple (p : Nat) : Option (SimpleHashOutput V) :=
  simpleHashing r.dummy (fun i => r.hashElement (r.elements p i)) r.setSize r.numOfBins
    (r.numCores p)

/-- The `FollowerSet` of `runAsFollower`, for party `p` with the tables `out`. -/
def followerSet (p : Nat) (out : SimpleHashOutput V) : FollowerSet where
  numOfElements := r.setSize
  elementsToHashTable := out.elementsToHashTable
  numOfElementsInBin := out.nelesinbin
  numOfBins := r.numOfBins
  masks := r.masks p
  maskSizeInBytes := r.maskSizeInBytes
  binToElementsToHashTable := out.binToElementsToHashTable
  maxBinSize := r.maxBinSize

/-- What follower `p` sends, if it gets so far. -/
def sent (p : Nat) : Option (Buf Byte) :=
  (r.simple p).map fun out => naiveRun (r.followerSet p out) (r.share p)

/-- `hashInfo` of `runAsLeader`. -/
def info : Buf CuckooHashInfo :=
  hashInfo r.setSize r.numOfBins r.cuckoo.out r.freshInfo

/-- The leader when it has received the masks of all followers. -/
def leader (received : Nat → Buf Byte) : NaiveLeader where
  numParties := r.numOfParties - 1
  setSize := r.setSize
  maskSizeInBytes := r.maskSizeInBytes
  leaderResults := r.leaderResults
  partiesResults := received

/-- Element `i` of the leader, which is element `e p` of follower `p`, is found: all that the leader
adds up for it is zero, it is accepted, and every run of the worker threads counts it. -/
def Completes (i : Nat) (e : Nat → Nat) : Prop :=
  ∃ received : Nat → Buf Byte,
    (∀ p, 2 ≤ p → p ≤ r.numOfParties → r.sent p = some (received p)) ∧
    0 ≤ (r.info i).binIndex ∧ 0 ≤ (r.info i).tableIndex ∧
    row r.maskSizeInBytes (r.share 1) (r.info i).binIndex.toNat
      + ∑ p ∈ Finset.Icc 2 r.numOfParties,
          row r.maskSizeInBytes (r.leaderResults p) (r.info i).tableIndex.toNat
      + ∑ p ∈ Finset.Icc 2 r.numOfParties,
          row r.maskSizeInBytes (received p) ((r.info i).hashedBy * r.setSize + e p) = 0 ∧
    ((r.leader received).isElementInAllSets i (r.info i).binIndex.toNat
      (r.info i).tableIndex.toNat (r.info i).hashedBy (r.share 1)).1 = true ∧
    (∃ found n, LeaderRuns (r.leader received).isElementInAllSets r.info r.setSize (r.share 1)
      (r.numCores 1) found n) ∧
    ∀ found n, LeaderRuns (r.leader received).isElementInAllSets r.info r.setSize (r.share 1)
      (r.numCores 1) found n → ∃ t < min (r.numCores 1) r.setSize, i ∈ found t

theorem cuckooSpec : r.cuckoo.Spec r.dummy (fun i => r.hashElement (r.elements 1 i)) r.setSize
    r.numOfBins := by
  obtain ⟨run, hrun, hspec⟩ := cuckooHashing_spec r.dummy (r.numCores_pos 1)
    (fun e _ => r.address_lt (r.elements 1 e)) r.entries
  cases r.cuckoo_run.symm.trans hrun
  exact hspec

/-- A follower has its tables if its last thread starts inside its elements. -/
theorem simpleSpec {p : Nat}
    (hcores : (r.numCores p - 1) * ceilDivide r.setSize (r.numCores p) ≤ r.setSize) :
    ∃ out, r.simple p = some out ∧
      out.Spec r.dummy (fun i => r.hashElement (r.elements p i)) r.setSize r.numOfBins :=
  simpleHashing_spec r.dummy (r.numCores_pos p) ((startpos_le_iff (r.numCores_pos p)).mpr hcores)
    fun e _ => r.address_lt (r.elements p e)

/-- The shares of a bin cancel. -/
theorem sum_share {b : Nat} (hb : b < r.numOfBins) :
    ∑ p ∈ Finset.Icc 1 r.numOfParties, row r.maskSizeInBytes (r.share p) b = 0 := by
  funext j
  rw [Finset.sum_apply]
  have hlt : b * r.maskSizeInBytes + j < r.maskSizeInBytes * r.numOfBins :=
    calc b * r.maskSizeInBytes + j < (b + 1) * r.maskSizeInBytes := by
          rw [Nat.succ_mul]; exact Nat.add_lt_add_left j.isLt _
      _ ≤ r.maskSizeInBytes * r.numOfBins := by
          rw [Nat.mul_comm]; exact Nat.mul_le_mul_left _ hb
  exact sum_secretShare_eq_zero r.prg r.maskSizeInBytes r.numOfBins r.reachable r.finished _ hlt

/-- What the leader knows of an element `x`: its bin, the first hash function `h` that leads
there, and the position of the OPRG results for the bin, which are those for its value. -/
structure PlaceOf (r : NaiveRun X V Key) (x : X) (b h : Nat) (info : CuckooHashInfo) : Prop where
  bin_lt : b < r.numOfBins
  hash_lt : h < numHashFunctions
  address : (r.hashElement x).address h = b
  first : ∀ h' < h, (r.hashElement x).address h' ≠ b
  binIndex : info.binIndex = b
  hashedBy : info.hashedBy = h
  tableIndex : info.tableIndex = (binToResult r.numOfBins r.cuckoo.out.nelesinbin b : Nat)
  full : 0 < r.cuckoo.out.nelesinbin b
  value : r.cuckoo.out.hashTable b = (r.hashElement x).val

/-- As every insertion succeeded, every element has its place. -/
theorem exists_place {i : Nat} (hi : i < r.setSize) :
    ∃ b h, r.PlaceOf (r.elements 1 i) b h (r.info i) := by
  have hspec := r.cuckooSpec
  obtain ⟨b, hb⟩ := hspec.all r.inserted i hi
  have hbin := (hspec.own hb).2.1
  obtain ⟨hbinIndex, hleast⟩ := hspec.hashInfo_bin r.freshInfo hb
  obtain ⟨hh, haddr, hfirst⟩ := leastAddress_some.mp hleast
  refine ⟨b, (r.info i).hashedBy, hbin, hh, haddr, hfirst, hbinIndex, rfl, ?_, ?_, ?_⟩
  · rw [hspec.binToResult hbin]
    exact hspec.hashInfo_tableIndex hb (Or.inl r.inserted)
  · rw [hspec.nelesinbin b hbin, if_pos (full_iff.mpr ⟨i, hb⟩)]
    exact Nat.one_pos
  · rw [hspec.hashTable b hbin, hb]

/-- **What a follower sends for the first hash function of an element that leads to a bin**: the
OPRG at the element's value, with the share of the bin. -/
theorem row_sent {p : Nat} (h2 : 2 ≤ p) (hn : p ≤ r.numOfParties) {out : SimpleHashOutput V}
    (hout : r.simple p = some out) {e h : Nat}
    (he : e < r.setSize) (hh : h < numHashFunctions)
    (hfirst : ∀ h' < h, (r.hashElement (r.elements p e)).address h'
      ≠ (r.hashElement (r.elements p e)).address h) :
    row r.maskSizeInBytes (naiveRun (r.followerSet p out) (r.share p)) (h * r.setSize + e)
      = r.oprg p ((r.hashElement (r.elements p e)).address h) (r.hashElement (r.elements p e)).val
        + row r.maskSizeInBytes (r.share p) ((r.hashElement (r.elements p e)).address h) := by
  have hspec := SimpleHashOutput.Spec.of_simpleHashing (r.numCores_pos p)
    (fun e _ => r.address_lt (r.elements p e)) hout
  have hbin := r.address_lt (r.elements p e) h hh
  obtain ⟨u, hu, hto, -, hval⟩ := hspec.position he hh hbin
  have hpos := startingPosForBin_apply r.numOfBins out.nelesinbin hbin
  have hserver := r.server p h2 hn out hout _ hbin u hu
  -- the value is kept, because no earlier hash function leads to the bin
  rw [storedValue_eq, if_neg fun hex => by
    obtain ⟨h', hlt, heq⟩ := hex
    exact hfirst h' hlt heq] at hval
  rw [hpos, hval] at hserver
  have hrow := row_naiveRun (r.followerSet p out) (r.share p) hh he
  refine hrow.trans ?_
  have hindex : (r.followerSet p out).elementsToHashTable (e * numHashFunctions + h)
      = binStart out.nelesinbin ((r.hashElement (r.elements p e)).address h) + u := by
    rw [Nat.mul_comm e]
    exact hto
  rw [hindex]
  refine (row_xorMasks (r.masks p) r.maskSizeInBytes (r.share p) hbin hu).trans ?_
  rw [← hserver]
  rfl

/-- **All that the leader adds up for a common element is zero.** -/
theorem sum_common {i : Nat} {e : Nat → Nat}
    (he : ∀ p, 2 ≤ p → p ≤ r.numOfParties →
      e p < r.setSize ∧ r.elements p (e p) = r.elements 1 i) {received : Nat → Buf Byte}
    (hsent : ∀ p, 2 ≤ p → p ≤ r.numOfParties → r.sent p = some (received p)) {b h : Nat}
    (hplace : r.PlaceOf (r.elements 1 i) b h (r.info i)) :
    row r.maskSizeInBytes (r.share 1) b
      + ∑ p ∈ Finset.Icc 2 r.numOfParties, row r.maskSizeInBytes (r.leaderResults p)
          (binToResult r.numOfBins r.cuckoo.out.nelesinbin b)
      + ∑ p ∈ Finset.Icc 2 r.numOfParties, row r.maskSizeInBytes (received p)
          (h * r.setSize + e p) = 0 := by
  have hone : Finset.Icc 1 r.numOfParties = insert 1 (Finset.Icc 2 r.numOfParties) := by
    ext p
    rw [Finset.mem_insert, Finset.mem_Icc, Finset.mem_Icc]
    have := r.two_le_numOfParties
    omega
  have hshares := r.sum_share hplace.bin_lt
  rw [hone, Finset.sum_insert fun hmem => absurd (Finset.mem_Icc.mp hmem).1 (by omega)] at hshares
  -- follower by follower, the two OPRG results cancel and the share is left
  rw [add_assoc, ← Finset.sum_add_distrib, ← hshares]
  congr 1
  refine Finset.sum_congr rfl fun p hp => ?_
  obtain ⟨h2, hn⟩ := Finset.mem_Icc.mp hp
  obtain ⟨hlt, heq⟩ := he p h2 hn
  obtain ⟨out, hout, hreceived⟩ := Option.map_eq_some_iff.mp (hsent p h2 hn)
  have hrow := r.row_sent h2 hn hout hlt hplace.hash_lt fun h' hh' => by
    rw [heq, hplace.address]
    exact hplace.first h' hh'
  rw [heq, hplace.address] at hrow
  rw [← hreceived, hrow, r.client p h2 hn b hplace.bin_lt hplace.full, hplace.value,
    XorGroup.add_cancel_left]

theorem distinctBins : DistinctBins r.info r.setSize := by
  intro i hi j hj _ _ heq
  have hspec := r.cuckooSpec
  obtain ⟨b, hb⟩ := hspec.all r.inserted i hi
  obtain ⟨b', hb'⟩ := hspec.all r.inserted j hj
  have hi' : (r.info i).binIndex = b := (hspec.hashInfo_bin r.freshInfo hb).1
  have hj' : (r.info j).binIndex = b' := (hspec.hashInfo_bin r.freshInfo hb').1
  rw [hi', hj', Int.toNat_natCast, Int.toNat_natCast] at heq
  rw [heq, hb'] at hb
  exact (Option.some.inj hb).symm

/-- **Completeness.** If the last thread of every follower starts inside the elements, a common
element is found. -/
theorem completes_of_inside {i : Nat} (hi : i < r.setSize) {e : Nat → Nat}
    (he : ∀ p, 2 ≤ p → p ≤ r.numOfParties →
      e p < r.setSize ∧ r.elements p (e p) = r.elements 1 i)
    (hcores : ∀ p, 2 ≤ p → p ≤ r.numOfParties →
      (r.numCores p - 1) * ceilDivide r.setSize (r.numCores p) ≤ r.setSize) :
    r.Completes i e := by
  have hexists : ∀ p, ∃ received, 2 ≤ p → p ≤ r.numOfParties → r.sent p = some received := by
    intro p
    by_cases hp : 2 ≤ p ∧ p ≤ r.numOfParties
    · obtain ⟨out, hout, -⟩ := r.simpleSpec (hcores p hp.1 hp.2)
      exact ⟨_, fun _ _ => Option.map_eq_some_iff.mpr ⟨out, hout, rfl⟩⟩
    · exact ⟨fun _ => 0, fun h2 hn => absurd ⟨h2, hn⟩ hp⟩
  choose received hsent using hexists
  refine ⟨received, hsent, ?_⟩
  obtain ⟨b, h, hplace⟩ := r.exists_place hi
  have hsum := r.sum_common he hsent hplace
  have hbin : (r.info i).binIndex.toNat = b := by rw [hplace.binIndex, Int.toNat_natCast]
  have htable : (r.info i).tableIndex.toNat
      = binToResult r.numOfBins r.cuckoo.out.nelesinbin b := by
    rw [hplace.tableIndex, Int.toNat_natCast]
  have hico : Finset.Ico 2 (2 + (r.leader received).numParties) = Finset.Icc 2 r.numOfParties := by
    ext p
    rw [Finset.mem_Ico, Finset.mem_Icc]
    have : (r.leader received).numParties = r.numOfParties - 1 := rfl
    have := r.two_le_numOfParties
    omega
  rw [← htable, ← hbin, ← hplace.hashedBy] at hsum
  have haccept : ((r.leader received).isElementInAllSets i (r.info i).binIndex.toNat
      (r.info i).tableIndex.toNat (r.info i).hashedBy (r.share 1)).1 = true := by
    rw [NaiveLeader.isElementInAllSets_iff, hico]
    -- the masks to choose are those of the same element for the same hash function
    refine ⟨fun p => (r.info i).hashedBy * r.setSize + e p, fun p h2 hn => ?_, hsum⟩
    have hlt : p ≤ r.numOfParties := (Finset.mem_Icc.mp (hico ▸ Finset.mem_Ico.mpr ⟨h2, hn⟩)).2
    have := (he p h2 hlt).1
    refine ⟨Nat.le_add_right _ _, ?_⟩
    exact row_cell_lt (Nat.lt_succ_self _) this
  refine ⟨by rw [hplace.binIndex]; omega, by rw [hplace.tableIndex]; omega, hsum, haccept,
    exists_leaderRuns _ _ _ _ _, fun found n hrun => ?_⟩
  refine hrun.mem_of_found (r.leader received).localCheck r.distinctBins (r.numCores_pos 1) hi ?_
  have hplaced : Placed r.info i := by
    refine ⟨?_, ?_⟩
    · rw [hplace.binIndex]
      omega
    · rw [hplace.tableIndex]
      omega
  rw [MultiPartyPSI.found, decide_eq_true hplaced, haccept]
  rfl

/-- And only then: without its masks the leader finds nothing. -/
theorem Completes.inside {r : NaiveRun X V Key} {i : Nat} {e : Nat → Nat} (h : r.Completes i e)
    {p : Nat} (h2 : 2 ≤ p) (hn : p ≤ r.numOfParties) :
    (r.numCores p - 1) * ceilDivide r.setSize (r.numCores p) ≤ r.setSize := by
  obtain ⟨received, hsent, -⟩ := h
  obtain ⟨out, hout, -⟩ := Option.map_eq_some_iff.mp (hsent p h2 hn)
  exact (startpos_le_iff (r.numCores_pos p)).mp (startpos_le_of_simpleHashing hout)

/-- **When an element that everyone has is found**: when no thread of a follower starts behind the
follower's elements. -/
theorem completes_iff {i : Nat} (hi : i < r.setSize) {e : Nat → Nat}
    (he : ∀ p, 2 ≤ p → p ≤ r.numOfParties →
      e p < r.setSize ∧ r.elements p (e p) = r.elements 1 i) :
    r.Completes i e ↔ ∀ p, 2 ≤ p → p ≤ r.numOfParties →
      (r.numCores p - 1) * ceilDivide r.setSize (r.numCores p) ≤ r.setSize :=
  ⟨fun h _ h2 hn => h.inside h2 hn, r.completes_of_inside hi he⟩

end NaiveRun

/-- Bins and value of a number. The first and the last hash function agree. -/
def numberHash (x : Nat) : Hashed Nat := ⟨fun j => (x + j % 2) % 4, x + 1⟩

/-- A function for the OPRG. -/
def numberOprg (b v : Nat) : Fin 1 → Byte := fun _ => XorVec.ofBits (BitVec.ofNat 8 (16 * b + v))

theorem numberHash_address_lt (x : Nat) : ∀ j < numHashFunctions, (numberHash x).address j < 4 :=
  fun _ _ => Nat.mod_lt _ (Nat.zero_lt_succ 3)

/-- Masks of nine cells, which are in bins 0, 1 and 2. -/
def numberMasks : Buf Byte := fun k =>
  XorVec.ofBits (BitVec.ofNat 8 ([1, 0, 18, 16, 26, 16, 17, 34, 42].getD k 0))

/-- Two parties with three elements, two of them in common, each party on two cores. -/
def twoCoreRun : NaiveRun Nat Nat Nat where
  numOfParties := 2
  setSize := 3
  numOfBins := 4
  maskSizeInBytes := 1
  maxBinSize := 3
  elements := fun p i => if p = 1 then [0, 4, 1].getD i 0 else [1, 9, 0].getD i 0
  hashElement := numberHash
  dummy := 0
  oprg := fun _ => numberOprg
  prg := fun k _ j => XorVec.ofBits (BitVec.ofNat 8 (k + j))
  keys := fun _ _ => 7
  numCores := fun _ => 2
  room := unbounded
  network := twoFinished 7
  entries := fun _ => ⟨0, fun _ => 0, 0⟩
  cuckoo := (cuckooHashing 0 (fun i => numberHash ([0, 4, 1].getD i 0)) 3 4 2
    fun _ => ⟨0, fun _ => 0, 0⟩).get rfl
  leaderResults := fun _ k => XorVec.ofBits (BitVec.ofNat 8 ([1, 21, 34].getD k 0))
  masks := fun _ => numberMasks
  freshInfo := fun _ => ⟨0, 0, 0⟩
  two_le_numOfParties := le_rfl
  numCores_pos := fun _ => Nat.two_pos
  distinct := fun p h1 hn => by
    obtain rfl | rfl : p = 1 ∨ p = 2 := by omega
    · decide
    · decide
  address_lt := numberHash_address_lt
  reachable := twoFinished_reachable fun _ _ => 7
  finished := fun _ h1 h2 => twoFinished_finished (fun _ _ => 7) h1 h2
  cuckoo_run := (Option.some_get _).symm
  inserted := rfl
  client := fun _ _ _ => by
    unfold ClientResults
    decide
  server := fun p h2 hn out hout => by
    obtain rfl : p = 2 := Nat.le_antisymm hn h2
    have hall : ∀ out ∈ simpleHashing 0 (fun i => numberHash ([1, 9, 0].getD i 0)) 3 4 2,
        ∀ b < 4, ∀ u < out.nelesinbin b,
          row 1 numberMasks (startingPosForBin 4 out.nelesinbin b + u)
            = numberOprg b (out.resBins (startingPosForBin 4 out.nelesinbin b + u)) := by
      decide +kernel
    exact hall out hout

/-- One is number 2 of the leader and number 0 of the follower. -/
theorem twoCoreRun_completes : twoCoreRun.Completes 2 fun _ => 0 := by
  refine (twoCoreRun.completes_iff (by decide) fun p h2 hn => ?_).mpr fun _ _ _ =>
    show (2 - 1) * ceilDivide 3 2 ≤ 3 by decide
  obtain rfl : p = 2 := Nat.le_antisymm hn h2
  decide

/-- Two parties with the same four elements, each on eight cores. -/
def eightCoreRun : NaiveRun Nat Nat Nat where
  numOfParties := 2
  setSize := 4
  numOfBins := 4
  maskSizeInBytes := 1
  maxBinSize := 3
  elements := fun _ i => i
  hashElement := numberHash
  dummy := 0
  oprg := fun _ => numberOprg
  prg := fun k _ j => XorVec.ofBits (BitVec.ofNat 8 (k + j))
  keys := fun _ _ => 7
  numCores := fun _ => 8
  room := unbounded
  network := twoFinished 7
  entries := fun _ => ⟨0, fun _ => 0, 0⟩
  cuckoo := (cuckooHashing 0 numberHash 4 4 8 fun _ => ⟨0, fun _ => 0, 0⟩).get rfl
  leaderResults := fun _ k => XorVec.ofBits (BitVec.ofNat 8 (17 * k + 1))
  masks := fun _ _ => 0
  freshInfo := fun _ => ⟨0, 0, 0⟩
  two_le_numOfParties := le_rfl
  numCores_pos := fun _ => Nat.zero_lt_succ 7
  distinct := fun _ _ _ _ _ _ _ h => h
  address_lt := numberHash_address_lt
  reachable := twoFinished_reachable fun _ _ => 7
  finished := fun _ h1 h2 => twoFinished_finished (fun _ _ => 7) h1 h2
  cuckoo_run := (Option.some_get _).symm
  inserted := rfl
  client := fun _ _ _ => by
    unfold ClientResults
    decide
  server := fun _ _ _ out hout => by
    have hnone : simpleHashing 0 numberHash 4 4 8 = none := rfl
    cases hnone.symm.trans hout

/-- The follower's threads 5 to 7 start behind its elements, and the leader waits for its masks. -/
theorem eightCoreRun_not_completes :
    (∀ p, 2 ≤ p → p ≤ eightCoreRun.numOfParties →
      0 < eightCoreRun.setSize ∧ eightCoreRun.elements p 0 = eightCoreRun.elements 1 0) ∧
    ¬ eightCoreRun.Completes 0 fun _ => 0 :=
  ⟨fun _ _ _ => ⟨Nat.zero_lt_succ 3, rfl⟩, fun h => absurd (h.inside le_rfl le_rfl) (by decide)⟩

end MultiPartyPSI
