import MultiPartyPSI.Party.NaiveRun
import MultiPartyPSI.Party.PsiRun

/-!
# What the leader finds

Behind the OPRGs every strategy but TWO_PARTY does the same: the leader adds its own results
and one value of each follower to its share of a bin, and counts the elements where this is
zero. `LeaderFinds` is what comes of that in every run of the worker threads. What a strategy
has to bring is a `LocalCheck` that finds the follower's mask for a common element, for the hash
function that placed it with the leader (`PsiOutcome.leaderFinds`).
-/

namespace MultiPartyPSI

open Lib Buf

/-! ## Runs of the worker threads -/

section Workers

variable {check : ElementCheck} {info : Buf CuckooHashInfo} {setSize numCores maskSize : Nat}
variable {share : Buf Byte}

/-- Every element is counted once. -/
theorem LeaderRuns.eq_card (hl : LocalCheck maskSize check) (hd : DistinctBins info setSize)
    (hcores : 0 < numCores) (hw : numCores * setSize < 2 ^ 32) {res : Nat → List Nat} {n : Nat}
    (h : LeaderRuns check info setSize share numCores res n) :
    n = ((Finset.range setSize).filter fun i => found check info share i = true).card := by
  have hle : min numCores setSize * setSize < 2 ^ 32 :=
    (Nat.mul_le_mul_right _ (Nat.min_le_left _ _)).trans_lt hw
  have hres := fun t ht => h.found_eq (t := t) hl hd hle ht
  obtain ⟨schedule, -, -, hfound, rfl⟩ := h
  rw [← hfound]
  -- after `t` threads all elements before the start of the next have been counted
  have hsum := loop_induct (P := fun t count => count
      = (foundBefore check info share (t * setSize / min numCores setSize)).length)
    (f := fun i count => count + (res i).length) (s := 0) (min numCores setSize)
    (by rw [Nat.zero_mul, Nat.zero_div]; rfl) fun t count ht hcount => by
      rw [hcount, hres t ht, ← workerEnd_eq hle ht, ← workerStart_eq hle ht]
      exact length_foundBefore_add (workerStart_le_end hle ht)
  have hlist : (foundBefore check info share setSize).length
      = ((Finset.range setSize).filter fun i => found check info share i = true).card := by
    unfold foundBefore
    rw [← List.toFinset_card_of_nodup (List.nodup_range.filter _), List.toFinset_filter,
      List.toFinset_range]
  rw [← hlist, hsum]
  by_cases h0 : setSize = 0
  · rw [h0, Nat.mul_zero, Nat.zero_div]
  · rw [Nat.mul_div_cancel_left _ (by omega)]

/-- Every run of the threads finds the common elements, and nothing but elements that cancel;
so it returns their number unless some other element cancels as well. -/
structure LeaderFinds (check : ElementCheck) (info : Buf CuckooHashInfo) (setSize numCores : Nat)
    (share : Buf Byte) (common : Finset Nat) (Cancels : Nat → Prop) : Prop where
  returns : ∃ found n, LeaderRuns check info setSize share numCores found n
  finds : ∀ found n, LeaderRuns check info setSize share numCores found n →
    ∀ i ∈ common, ∃ t < min numCores setSize, i ∈ found t
  cancels : ∀ found n, LeaderRuns check info setSize share numCores found n →
    ∀ t < min numCores setSize, ∀ i ∈ found t, Cancels i
  size : ∀ found n, LeaderRuns check info setSize share numCores found n →
    common.card ≤ n ∧ (n = common.card ↔ ∀ i < setSize, Cancels i → i ∈ common)

theorem LeaderFinds.of_check (hl : LocalCheck maskSize check) (hd : DistinctBins info setSize)
    (hcores : 0 < numCores) (hw : numCores * setSize < 2 ^ 32) {common : Finset Nat}
    {Cancels : Nat → Prop}
    (hcheck : ∀ i < setSize, found check info share i = true ↔ Cancels i)
    (hcommon : ∀ i ∈ common, i < setSize ∧ Cancels i) :
    LeaderFinds check info setSize numCores share common Cancels := by
  have hle : min numCores setSize * setSize < 2 ^ 32 :=
    (Nat.mul_le_mul_right _ (Nat.min_le_left _ _)).trans_lt hw
  constructor
  case returns => exact exists_leaderRuns check info setSize share numCores
  case finds =>
    intro res n h i hi
    obtain ⟨hlt, hc⟩ := hcommon i hi
    exact h.mem_of_found hl hd hcores hlt ((hcheck i hlt).mpr hc)
  case cancels =>
    intro res n h t ht i hi
    rw [h.found_eq hl hd hle ht, List.mem_filter, List.mem_range, Bool.and_eq_true] at hi
    exact (hcheck i (hi.1.trans_le (workerEnd_le ht))).mp hi.2.2
  case size =>
    intro res n h
    have hsub : common ⊆ (Finset.range setSize).filter fun i =>
        found check info share i = true := by
      intro i hi
      obtain ⟨hlt, hc⟩ := hcommon i hi
      exact Finset.mem_filter.mpr ⟨Finset.mem_range.mpr hlt, (hcheck i hlt).mpr hc⟩
    rw [h.eq_card hl hd hcores hw]
    refine ⟨Finset.card_le_card hsub, fun hcard i hi hc => ?_, fun hall => ?_⟩
    · rw [Finset.eq_of_subset_of_card_le hsub hcard.le]
      exact Finset.mem_filter.mpr ⟨Finset.mem_range.mpr hi, (hcheck i hi).mpr hc⟩
    · refine congrArg Finset.card (Finset.Subset.antisymm (fun i hi => ?_) hsub)
      obtain ⟨hlt, hf⟩ := Finset.mem_filter.mp hi
      exact hall i (Finset.mem_range.mp hlt) ((hcheck i (Finset.mem_range.mp hlt)).mp hf)

end Workers

/-! ## Common elements -/

section Common

variable {G : Type*} [CommGroup G] {C : OprgCrypto G} {X : Type*} {s : PsiSession C X}

/-- Several parties with sets of different elements. The leader finds a bin for every element,
and its number of elements times that of its cores is a `uint32_t`. -/
structure PsiSession.Regular (s : PsiSession C X) : Prop where
  two_le : 2 ≤ s.numOfParties
  distinct : ∀ p, 1 ≤ p → p ≤ s.numOfParties → ∀ i < s.setSize, ∀ j < s.setSize,
    s.elements p i = s.elements p j → i = j
  inserted : s.cuckoo.failed = []
  cores : s.numCores 1 * s.setSize < 2 ^ 32

/-- `hashInfo` of `runAsLeader`. -/
def PsiSession.info (s : PsiSession C X) : Buf CuckooHashInfo :=
  hashInfo s.setSize s.numOfBins s.cuckoo.out s.freshInfo

/-- All followers have element `i` of the leader. -/
def PsiSession.IsCommon (s : PsiSession C X) (i : Nat) : Prop :=
  ∀ p ∈ Finset.Icc 2 s.numOfParties, ∃ e < s.setSize, s.elements p e = s.elements 1 i

instance [DecidableEq X] : DecidablePred s.IsCommon := fun i =>
  inferInstanceAs (Decidable (∀ p ∈ Finset.Icc 2 s.numOfParties,
    ∃ e < s.setSize, s.elements p e = s.elements 1 i))

/-- The intersection, by the leader's numbers of the elements. -/
def PsiSession.common [DecidableEq X] (s : PsiSession C X) : Finset Nat :=
  (Finset.range s.setSize).filter s.IsCommon

/-- The masks of a follower with the shares of their bins. -/
def PsiOutcome.masked (o : PsiOutcome s) (p : Nat) : Buf Byte :=
  xorMasks (o.masks p) s.maskSizeInBytes (s.share (s.shares p)) s.numOfBins (s.simple p).nelesinbin

/-- The position among the masks of party `p` of its element `e` for hash function `h`. -/
def PsiSession.maskIndex (s : PsiSession C X) (p e h : Nat) : Nat :=
  (s.simple p).elementsToHashTable (e * numHashFunctions + h)

/-- `additiveSecretShare` can end. -/
theorem PsiSession.exists_shared (s : PsiSession C X) :
    ∃ c, Net.Reachable (shareProgram s.numOfParties s.keys) unbounded (shareInit (List Byte)) c ∧
      ∀ p, 1 ≤ p → p ≤ s.numOfParties → c.Finished (shareProgram s.numOfParties s.keys) p :=
  exists_finished trivial .refl

/-- The tables of a regular session, as those of NAIVE_METHOD_SMALL_N. -/
noncomputable def PsiOutcome.naiveRun (o : PsiOutcome s) (h : s.Regular) :
    NaiveRun X (Fin (ceilDivide s.elebitlen 8) → Byte) (List Byte) where
  numOfParties := s.numOfParties
  setSize := s.setSize
  numOfBins := s.numOfBins
  maskSizeInBytes := s.maskSizeInBytes
  maxBinSize := s.maxBinSize
  elements := s.elements
  hashElement := s.hashElement
  dummy := s.dummy
  oprg := o.oprg
  prg := s.prg
  keys := s.keys
  numCores := s.numCores
  room := unbounded
  network := s.exists_shared.choose
  entries := s.entries
  cuckoo := s.cuckoo
  leaderResults := o.leaderResults
  masks := o.masks
  freshInfo := s.freshInfo
  two_le_numOfParties := h.two_le
  numCores_pos := s.numCores_pos
  distinct := h.distinct
  address_lt := s.address_lt
  reachable := s.exists_shared.choose_spec.1
  finished := s.exists_shared.choose_spec.2
  cuckoo_run := s.cuckoo_run
  inserted := h.inserted
  client := o.client
  server := fun p h2 hn out hout => by
    cases (s.simple_run h2 hn).symm.trans hout
    exact o.server p h2 hn

section Naive

variable (o : PsiOutcome s) (h : s.Regular)

theorem naiveRun_share {p : Nat} (h1 : 1 ≤ p) (hn : p ≤ s.numOfParties) :
    (o.naiveRun h).share p = s.share (s.shares p) :=
  congrArg (secretShare s.prg _) (shares_of_finished (o.naiveRun h).reachable ⟨h1, hn⟩
    ((o.naiveRun h).finished p h1 hn))

/-- What party `p` sends in NAIVE_METHOD_SMALL_N. -/
noncomputable def PsiOutcome.naiveSent (p : Nat) : Buf Byte :=
  MultiPartyPSI.naiveRun ((o.naiveRun h).followerSet p (s.simple p)) ((o.naiveRun h).share p)

theorem naiveRun_sent {p : Nat} (h2 : 2 ≤ p) (hn : p ≤ s.numOfParties) :
    (o.naiveRun h).sent p = some (o.naiveSent h p) :=
  Option.map_eq_some_iff.mpr ⟨_, s.simple_run h2 hn, rfl⟩

/-- It is a selection of the masks. -/
theorem row_naiveSent {p e j : Nat} (h2 : 2 ≤ p) (hn : p ≤ s.numOfParties)
    (he : e < s.setSize) (hj : j < numHashFunctions) :
    row s.maskSizeInBytes (o.naiveSent h p) (j * s.setSize + e)
      = row s.maskSizeInBytes (o.masked p) (s.maskIndex p e j) := by
  refine (row_naiveRun ((o.naiveRun h).followerSet p (s.simple p)) ((o.naiveRun h).share p) hj
    he).trans ?_
  rw [naiveRun_share o h (by omega) hn]
  rfl

include h in
/-- **What a follower adds for the first hash function of an element that leads to a bin**: the
value of the OPRG, and its share. -/
theorem row_masked {p e j : Nat} (h2 : 2 ≤ p) (hn : p ≤ s.numOfParties) (he : e < s.setSize)
    (hj : j < numHashFunctions)
    (hfirst : ∀ j' < j, (s.hashElement (s.elements p e)).address j'
      ≠ (s.hashElement (s.elements p e)).address j) :
    row s.maskSizeInBytes (o.masked p) (s.maskIndex p e j)
      = o.oprg p ((s.hashElement (s.elements p e)).address j) (s.hashElement (s.elements p e)).val
        + row s.maskSizeInBytes (s.share (s.shares p))
          ((s.hashElement (s.elements p e)).address j) := by
  rw [← row_naiveSent o h h2 hn he hj, ← naiveRun_share o h (by omega) hn]
  exact (o.naiveRun h).row_sent h2 hn (s.simple_run h2 hn) he hj hfirst

/-- **For a common element, what everyone has adds up to zero.** -/
theorem sum_masked {i b j : Nat} {e : Nat → Nat}
    (he : ∀ p, 2 ≤ p → p ≤ s.numOfParties →
      e p < s.setSize ∧ s.elements p (e p) = s.elements 1 i)
    (hplace : (o.naiveRun h).PlaceOf (s.elements 1 i) b j (s.info i)) :
    row s.maskSizeInBytes (s.share (s.shares 1)) b
      + ∑ p ∈ Finset.Icc 2 s.numOfParties, row s.maskSizeInBytes (o.leaderResults p)
          (s.info i).tableIndex.toNat
      + ∑ p ∈ Finset.Icc 2 s.numOfParties,
          row s.maskSizeInBytes (o.masked p) (s.maskIndex p (e p) j) = 0 := by
  have hn := h.two_le
  rw [hplace.tableIndex, Int.toNat_natCast, ← naiveRun_share o h le_rfl (by omega)]
  refine (congrArg _ (Finset.sum_congr rfl fun p hp => ?_)).trans
    ((o.naiveRun h).sum_common he (fun _ h2 hn => naiveRun_sent o h h2 hn) hplace)
  obtain ⟨h2, hp⟩ := Finset.mem_Icc.mp hp
  exact (row_naiveSent o h h2 hp (he p h2 hp).1 hplace.hash_lt).symm

end Naive

/-! ## Checks -/

/-- The values of party `p` that a strategy's check tries for element `i`, in bin `b` by hash
function `j`. -/
abbrev Candidates (w : Nat) := (p i b j : Nat) → Set (Fin w → Byte)

/-- Element `i`, in bin `b` by hash function `j` and with the results at `t`, looks common: the
leader's share and results cancel with one candidate of each follower. -/
def PsiOutcome.CancelsAt (o : PsiOutcome s) (cand : Candidates s.maskSizeInBytes)
    (i b t j : Nat) : Prop :=
  ∃ x : Nat → Fin s.maskSizeInBytes → Byte,
    (∀ p, 2 ≤ p → p ≤ s.numOfParties → x p ∈ cand p i b j) ∧
    row s.maskSizeInBytes (s.share (s.shares 1)) b
      + ∑ p ∈ Finset.Icc 2 s.numOfParties, row s.maskSizeInBytes (o.leaderResults p) t
      + ∑ p ∈ Finset.Icc 2 s.numOfParties, x p = 0

/-- The same, at the place where the leader has the element. -/
def PsiOutcome.Cancels (o : PsiOutcome s) (cand : Candidates s.maskSizeInBytes) (i : Nat) : Prop :=
  o.CancelsAt cand i (s.info i).binIndex.toNat (s.info i).tableIndex.toNat (s.info i).hashedBy

/-- The same about results that agree with those of the outcome, and the numbering of the followers
in the leaders. -/
theorem PsiOutcome.cancelsAt_iff {o : PsiOutcome s} {cand : Candidates s.maskSizeInBytes}
    {leaderResults : Nat → Buf Byte}
    (h : ∀ p, 2 ≤ p → p ≤ s.numOfParties → leaderResults p = o.leaderResults p) {i b t j : Nat} :
    o.CancelsAt cand i b t j ↔ ∃ x : Nat → Fin s.maskSizeInBytes → Byte,
      (∀ p, 2 ≤ p → p ≤ s.numOfParties → x p ∈ cand p i b j) ∧
      row s.maskSizeInBytes (s.share (s.shares 1)) b
        + ∑ p ∈ Finset.Ico 2 (2 + (s.numOfParties - 1)), row s.maskSizeInBytes (leaderResults p) t
        + ∑ p ∈ Finset.Ico 2 (2 + (s.numOfParties - 1)), x p = 0 := by
  have hico : Finset.Ico 2 (2 + (s.numOfParties - 1)) = Finset.Icc 2 s.numOfParties := by
    ext p
    rw [Finset.mem_Ico, Finset.mem_Icc]
    omega
  have hleader : ∑ p ∈ Finset.Icc 2 s.numOfParties, row s.maskSizeInBytes (leaderResults p) t
      = ∑ p ∈ Finset.Icc 2 s.numOfParties, row s.maskSizeInBytes (o.leaderResults p) t :=
    Finset.sum_congr rfl fun p hp => by
      obtain ⟨h2, hn⟩ := Finset.mem_Icc.mp hp
      rw [h p h2 hn]
  rw [hico, hleader]
  rfl

/-- With one candidate for each follower there is nothing to choose. -/
theorem PsiOutcome.cancelsAt_values (o : PsiOutcome s) (cand : Candidates s.maskSizeInBytes)
    {leaderResults : Nat → Buf Byte} (i b t j : Nat) (value : Nat → Fin s.maskSizeInBytes → Byte)
    (h : ∀ p, 2 ≤ p → p ≤ s.numOfParties → leaderResults p = o.leaderResults p)
    (hvalue : ∀ p, 2 ≤ p → p ≤ s.numOfParties → ∀ x, x ∈ cand p i b j ↔ x = value p) :
    o.CancelsAt cand i b t j ↔ row s.maskSizeInBytes (s.share (s.shares 1)) b
      + ∑ p ∈ Finset.Ico 2 (2 + (s.numOfParties - 1)),
          (row s.maskSizeInBytes (leaderResults p) t + value p) = 0 := by
  rw [PsiOutcome.cancelsAt_iff h]
  have hsum : ∀ x : Nat → Fin s.maskSizeInBytes → Byte,
      (∀ p, 2 ≤ p → p ≤ s.numOfParties → x p = value p) →
      ∑ p ∈ Finset.Ico 2 (2 + (s.numOfParties - 1)), x p
        = ∑ p ∈ Finset.Ico 2 (2 + (s.numOfParties - 1)), value p := fun x hx =>
    Finset.sum_congr rfl fun p hp => by
      obtain ⟨h2, hlt⟩ := Finset.mem_Ico.mp hp
      exact hx p h2 (by omega)
  constructor
  · rintro ⟨x, hx, hzero⟩
    rw [Finset.sum_add_distrib, ← add_assoc,
      ← hsum x fun p h2 hn => (hvalue p h2 hn _).mp (hx p h2 hn)]
    exact hzero
  · intro hzero
    refine ⟨value, fun p h2 hn => (hvalue p h2 hn _).mpr rfl, ?_⟩
    rwa [Finset.sum_add_distrib, ← add_assoc] at hzero

/-- Candidates that are rows of a buffer for each follower: one row of each is chosen. -/
theorem PsiOutcome.cancelsAt_rows (o : PsiOutcome s) (cand : Candidates s.maskSizeInBytes)
    {leaderResults : Nat → Buf Byte} (i b t j : Nat) (results : Nat → Buf Byte)
    (minIndex maxIndex : Nat)
    (h : ∀ p, 2 ≤ p → p ≤ s.numOfParties → leaderResults p = o.leaderResults p)
    (hrows : ∀ p, 2 ≤ p → p ≤ s.numOfParties → ∀ x, x ∈ cand p i b j ↔
      ∃ c, (minIndex ≤ c ∧ c < maxIndex) ∧ row s.maskSizeInBytes (results p) c = x) :
    o.CancelsAt cand i b t j ↔ ∃ c : Nat → Nat, (∀ p, 2 ≤ p → p < 2 + (s.numOfParties - 1) →
        minIndex ≤ c p ∧ c p < maxIndex) ∧
      row s.maskSizeInBytes (s.share (s.shares 1)) b
        + ∑ p ∈ Finset.Ico 2 (2 + (s.numOfParties - 1)), row s.maskSizeInBytes (leaderResults p) t
        + ∑ p ∈ Finset.Ico 2 (2 + (s.numOfParties - 1)),
            row s.maskSizeInBytes (results p) (c p) = 0 := by
  rw [PsiOutcome.cancelsAt_iff h]
  constructor
  · rintro ⟨x, hx, hsum⟩
    have hex : ∀ p, ∃ c, 2 ≤ p → p ≤ s.numOfParties →
        (minIndex ≤ c ∧ c < maxIndex) ∧ row s.maskSizeInBytes (results p) c = x p := by
      intro p
      by_cases hp : 2 ≤ p ∧ p ≤ s.numOfParties
      · obtain ⟨c, hc⟩ := (hrows p hp.1 hp.2 _).mp (hx p hp.1 hp.2)
        exact ⟨c, fun _ _ => hc⟩
      · exact ⟨0, fun h2 hn => absurd ⟨h2, hn⟩ hp⟩
    choose c hc using hex
    refine ⟨c, fun p h2 hlt => (hc p h2 (by omega)).1, ?_⟩
    rw [← hsum]
    refine congrArg _ (Finset.sum_congr rfl fun p hp => ?_)
    obtain ⟨h2, hlt⟩ := Finset.mem_Ico.mp hp
    exact (hc p h2 (by omega)).2
  · rintro ⟨c, hc, hsum⟩
    exact ⟨fun p => row s.maskSizeInBytes (results p) (c p), fun p h2 hn =>
      (hrows p h2 hn _).mpr ⟨c p, hc p h2 (by omega), rfl⟩, hsum⟩

/-- The candidates have the mask of every element: for the first hash function that leads to a
bin, if the leader has the element there. -/
def PsiOutcome.Covers (o : PsiOutcome s) (cand : Candidates s.maskSizeInBytes) : Prop :=
  ∀ p, 2 ≤ p → p ≤ s.numOfParties → ∀ i < s.setSize, ∀ e < s.setSize,
    s.elements p e = s.elements 1 i → ∀ j < numHashFunctions,
    (∀ j' < j, (s.hashElement (s.elements p e)).address j'
      ≠ (s.hashElement (s.elements p e)).address j) →
    row s.maskSizeInBytes (o.masked p) (s.maskIndex p e j)
      ∈ cand p i ((s.hashElement (s.elements p e)).address j) j

/-- **A local check that looks for candidates which cancel, and has those of all common elements,
finds the common elements.** -/
theorem PsiOutcome.leaderFinds [DecidableEq X] (o : PsiOutcome s) (h : s.Regular)
    {check : ElementCheck} (hl : LocalCheck s.maskSizeInBytes check)
    {cand : Candidates s.maskSizeInBytes}
    (hcheck : ∀ i < s.setSize, (s.info i).binIndex.toNat < s.numOfBins →
      (s.info i).hashedBy < numHashFunctions →
      ((check i (s.info i).binIndex.toNat (s.info i).tableIndex.toNat (s.info i).hashedBy
        (s.share (s.shares 1))).1 = true ↔ o.Cancels cand i))
    (hcover : o.Covers cand) :
    LeaderFinds check s.info s.setSize (s.numCores 1) (s.share (s.shares 1)) s.common
      (o.Cancels cand) := by
  have hd : DistinctBins s.info s.setSize := (o.naiveRun h).distinctBins
  have hplaces : ∀ i < s.setSize, ∃ b j,
      (o.naiveRun h).PlaceOf (s.elements 1 i) b j (s.info i) := fun i hi =>
    (o.naiveRun h).exists_place hi
  refine LeaderFinds.of_check hl hd (s.numCores_pos 1) h.cores (fun i hi => ?_) fun i hi => ?_
  · obtain ⟨b, j, hplace⟩ := hplaces i hi
    have hplaced : Placed s.info i := by
      refine ⟨?_, ?_⟩
      · rw [hplace.binIndex]
        omega
      · rw [hplace.tableIndex]
        omega
    have hbin : (s.info i).binIndex.toNat < s.numOfBins := by
      rw [hplace.binIndex, Int.toNat_natCast]
      exact hplace.bin_lt
    have hhash : (s.info i).hashedBy < numHashFunctions := by
      rw [hplace.hashedBy]
      exact hplace.hash_lt
    rw [found, decide_eq_true hplaced, Bool.true_and]
    exact hcheck i hi hbin hhash
  · obtain ⟨hlt, hall⟩ := Finset.mem_filter.mp hi
    have hlt := Finset.mem_range.mp hlt
    obtain ⟨b, j, hplace⟩ := hplaces i hlt
    have hb : (s.info i).binIndex.toNat = b := by
      rw [hplace.binIndex, Int.toNat_natCast]
    have hj : (s.info i).hashedBy = j := hplace.hashedBy
    -- the element, wherever a follower has it
    have hex : ∀ p, ∃ e, 2 ≤ p → p ≤ s.numOfParties →
        e < s.setSize ∧ s.elements p e = s.elements 1 i := by
      intro p
      by_cases hp : 2 ≤ p ∧ p ≤ s.numOfParties
      · obtain ⟨e, he⟩ := hall p (Finset.mem_Icc.mpr hp)
        exact ⟨e, fun _ _ => he⟩
      · exact ⟨0, fun h2 hn => absurd ⟨h2, hn⟩ hp⟩
    choose e he using hex
    refine ⟨hlt, fun p => row s.maskSizeInBytes (o.masked p) (s.maskIndex p (e p) j),
      fun p h2 hn => ?_, ?_⟩
    · obtain ⟨hlt', heq⟩ := he p h2 hn
      have haddr := hplace.address
      have hfirst := hplace.first
      have hc := hcover p h2 hn i hlt (e p) hlt' heq j hplace.hash_lt
      rw [heq] at hc
      rw [hb, hj, ← haddr]
      exact hc fun j' hj' he' => hfirst j' hj' (he'.trans haddr)
    · rw [hb]
      exact sum_masked o h he hplace

/-! ## What the leader has received -/

/-- A buffer that a thread of `receiveServerData` has received into: block `k`. -/
def receivedBuf (blocks : List (List Byte)) (k : Nat) : Buf Byte :=
  fun i => (blocks.getD k []).getD i 0

theorem row_receivedBuf {blocks : List (List Byte)} {k n w r : Nat} {m : Buf Byte}
    (hk : blocks[k]? = some (sendBytes m n)) (hr : r * w + w ≤ n) :
    row w (receivedBuf blocks k) r = row w m r := by
  funext j
  have hlt : r * w + j < n := by omega
  have hblock : blocks.getD k [] = sendBytes m n := by
    rw [List.getD_eq_getElem?_getD, hk, Option.getD_some]
  rw [row_apply, row_apply, receivedBuf, hblock, List.getD_eq_getElem?_getD, sendBytes,
    List.getElem?_map, List.getElem?_range hlt]
  rfl

/-- The followers send blocks of the lengths that the leader asks for. -/
def PsiSession.BlocksMatch (s : PsiSession C X) : Prop :=
  ∀ p, 2 ≤ p → p ≤ s.numOfParties → ∀ masks share,
    (s.followerRun p (s.followerSet p masks) share).map List.length = s.blockLengths

/-- The blocks of follower `p`. -/
def PsiOutcome.blocks (o : PsiOutcome s) (p : Nat) : List (List Byte) :=
  s.followerRun p (s.followerSet p (o.masks p)) (s.share (s.shares p))

/-- What the leader returns with: the results of `o`, and the blocks of the followers. -/
structure PsiOutcome.Received (o : PsiOutcome s) (leaderResults : Nat → Buf Byte)
    (received : Nat → List (List Byte)) : Prop where
  leaderResults : ∀ p, 2 ≤ p → p ≤ s.numOfParties → leaderResults p = o.leaderResults p
  blocks : ∀ p, 2 ≤ p → p ≤ s.numOfParties → received p = o.blocks p

theorem PsiSession.BlocksMatch.fit (h : s.BlocksMatch) : s.BlocksFit := by
  intro p h2 hn masks share
  rw [List.length_flatten, h p h2 hn]

theorem PsiOutcome.Ends.received {o : PsiOutcome s} (hmatch : s.BlocksMatch)
    {shares : List (List Byte)} {leaderResults : Nat → Buf Byte}
    {received : Nat → List (List Byte)} (h : o.Ends 1 (.leader shares leaderResults received)) :
    shares = s.shares 1 ∧ o.Received leaderResults received := by
  cases h with
  | leader _ _ hall =>
      refine ⟨rfl, fun p h2 hn => (hall p h2 hn).1, fun p h2 hn => ?_⟩
      rw [(hall p h2 hn).2, ← hmatch p h2 hn (o.masks p) (s.share (s.shares p))]
      exact splitLengths_flatten _

/-- **In every run everyone returns with the tables of one outcome**, and the leader with the
blocks that the followers make of theirs. -/
theorem PsiSession.leader_spec (s : PsiSession C X) (hK : C.pk.Lossless)
    (hmatch : s.BlocksMatch) :
    ∃ o : PsiOutcome s, ∀ (room : Nat → Prop) (c : Conf Nat Socket SocketByte PartyData),
      Conf.Reachable peerSocket room ⟨s.run, fun _ => []⟩ c →
      (∀ p data, c.loc p = .ret data → o.Ends p data) ∧
      ∀ shares leaderResults received, c.loc 1 = .ret (.leader shares leaderResults received) →
        shares = s.shares 1 ∧ o.Received leaderResults received := by
  obtain ⟨o, ho⟩ := s.exists_outcome hK
  refine ⟨o, fun room c hc => ?_⟩
  have hends : ∀ p data, c.loc p = .ret data → o.Ends p data := fun p data hloc => by
    rw [(s.scenario hK hmatch.fit).eq_result hc hloc]
    exact ho p
  exact ⟨hends, fun shares leaderResults received hloc => (hends 1 _ hloc).received hmatch⟩

/-- In some run everyone returns; so what is known of all runs comes about. -/
theorem PsiSession.exists_leader_returned (s : PsiSession C X) (hK : C.pk.Lossless)
    (hmatch : s.BlocksMatch) {o : PsiOutcome s}
    {Finds : List (List Byte) → (Nat → Buf Byte) → (Nat → List (List Byte)) → Prop}
    (ho : ∀ (room : Nat → Prop) (c : Conf Nat Socket SocketByte PartyData),
      Conf.Reachable peerSocket room ⟨s.run, fun _ => []⟩ c →
      (∀ p data, c.loc p = .ret data → o.Ends p data) ∧
      ∀ shares leaderResults received, c.loc 1 = .ret (.leader shares leaderResults received) →
        Finds shares leaderResults received) :
    ∃ (c : Conf Nat Socket SocketByte PartyData) (shares : List (List Byte))
      (leaderResults : Nat → Buf Byte) (received : Nat → List (List Byte)),
      Conf.Reachable peerSocket (fun _ => True) ⟨s.run, fun _ => []⟩ c ∧
      (∀ p, ∃ data, c.loc p = .ret data ∧ o.Ends p data) ∧
      c.loc 1 = .ret (.leader shares leaderResults received) ∧
      (∀ p, o.Ends p (s.result p)) ∧ o.Received leaderResults received ∧
      Finds shares leaderResults received := by
  obtain ⟨c, hreach, hret⟩ := s.exists_returned hK hmatch.fit
  obtain ⟨hends, hfinds⟩ := ho _ c hreach
  have hresult : ∀ p, o.Ends p (s.result p) := fun p => hends p _ (hret p)
  have hleader : o.Ends 1 (s.result 1) := hresult 1
  exact ⟨c, _, _, _, hreach, fun p => ⟨_, hret p, hresult p⟩, hret 1, hresult,
    (hleader.received hmatch).2, hfinds _ _ _ (hret 1)⟩

end Common

theorem smallSession_regular {second : Nat} (h : ofNatLE second 0 ≠ ofNatLE 1 0) :
    (smallSession second).Regular := by
  refine ⟨le_rfl, fun p h1 hn i hi j hj heq => ?_, rfl, show 2 * 2 < 2 ^ 32 by decide⟩
  have heq : ofNatLE (if p = 1 then i else [1, second].getD i 0) 0
      = ofNatLE (if p = 1 then j else [1, second].getD j 0) 0 := congrFun heq 0
  have hi : i < 2 := hi
  have hj : j < 2 := hj
  obtain rfl | rfl : i = 0 ∨ i = 1 := by omega
  all_goals obtain rfl | rfl : j = 0 ∨ j = 1 := by omega
  · rfl
  · split at heq
    · exact absurd heq (by decide)
    · exact absurd heq.symm h
  · split at heq
    · exact absurd heq (by decide)
    · exact absurd heq h
  · rfl

end MultiPartyPSI
