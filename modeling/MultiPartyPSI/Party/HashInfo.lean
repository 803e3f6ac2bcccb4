import MultiPartyPSI.Leaders.Leader
import MultiPartyPSI.Oprg.Positions

/-!
# Where the leader finds its elements

After cuckoo hashing, `PsiParty::runAsLeader` notes for each element its bin, the hash
function that put it there and the position of its OPRG result. The first two come
from the bins, the third from `perm`.

`perm` lists one element per full bin, but the last loop runs over all of it. If every
insertion succeeded there is no difference. If some did not, the rest of `perm` is still
zero, and the loop ends by giving element 0 the last position, wherever it really is.
-/

namespace MultiPartyPSI

open Lib Buf

variable {V : Type*}

/-- The first loop of `runAsLeader` over `hashInfo`: no element has a place. -/
def clearInfo (setSize : Nat) (info : Buf CuckooHashInfo) : Buf CuckooHashInfo :=
  loop (fun i info => info.write i { info i with tableIndex := -1, binIndex := -1 }) setSize info

/-- The second loop: the element of a bin that is not empty. -/
def fillBins (numOfBins : Nat) (binIds hashedBy : Buf Nat) (info : Buf CuckooHashInfo) :
    Buf CuckooHashInfo :=
  loop (fun i info =>
    if binIds i ≠ 0 then
      info.write (binIds i - 1)
        { info (binIds i - 1) with binIndex := i, hashedBy := hashedBy i }
    else info) numOfBins info

/-- The third loop: the elements in the order of `perm`. -/
def fillTableIndex (setSize : Nat) (perm : Buf Nat) (info : Buf CuckooHashInfo) :
    Buf CuckooHashInfo :=
  loop (fun i info => info.write (perm i) { info (perm i) with tableIndex := i }) setSize info

/-- `hashInfo` as `runAsLeader` fills it. -/
def hashInfo (setSize numOfBins : Nat) (out : CuckooOutput V) (fresh : Buf CuckooHashInfo) :
    Buf CuckooHashInfo :=
  fillTableIndex setSize out.perm
    (fillBins numOfBins out.binIds out.hashedBy (clearInfo setSize fresh))

/-- What `hashInfo` should say of element `e`: its bin, the first hash function leading
there, and the position of the bin's OPRG result, which is the number of full bins before.
An element in no bin is marked, and every strategy's check skips it. -/
structure InfoRight (hash : Nat → Hashed V) (nbins : Nat) (run : CuckooRun V)
    (info : Buf CuckooHashInfo) (e : Nat) : Prop where
  binIndex : ∀ b, run.final.table b = some e → (info e).binIndex = b
  hashedBy : ∀ b, run.final.table b = some e →
    leastAddress (hash e).address b = some (info e).hashedBy
  tableIndex : ∀ b, run.final.table b = some e →
    (info e).tableIndex = Nat.count run.final.Full b ∧
      Nat.count run.final.Full b = binToResult nbins run.out.nelesinbin b
  absent : ¬ run.final.Stored e → (info e).binIndex = -1 ∧
    ∀ (check : ElementCheck) (st : List Nat × Buf Byte), checkElement check info e st = st

/-! ## The loops -/

section Loops

variable {setSize nbins e : Nat} {perm binIds hashedBy : Buf Nat} {info : Buf CuckooHashInfo}

theorem clearInfo_apply (he : e < setSize) :
    (clearInfo setSize info e).tableIndex = -1 ∧ (clearInfo setSize info e).binIndex = -1 := by
  refine loop_settles (Q := fun e (m : Buf CuckooHashInfo) =>
    (m e).tableIndex = -1 ∧ (m e).binIndex = -1) setSize (fun i m _ => ?_)
    (fun i k m hlt _ hm => ?_) he
  · rw [write_same]
    exact ⟨rfl, rfl⟩
  · rw [write_ne _ _ (Nat.ne_of_lt hlt)]
    exact hm

/-- An element that is in no bin is passed over. -/
theorem fillBins_absent (h : ∀ b < nbins, binIds b ≠ e + 1) :
    fillBins nbins binIds hashedBy info e = info e := by
  refine loop_induct (P := fun _ (m : Buf CuckooHashInfo) => m e = info e) nbins rfl ?_
  intro k m hk hm
  dsimp only
  split
  · next h0 =>
      have := h k hk
      rw [write_ne _ _ (by omega), hm]
  · exact hm

/-- An element that is in one bin gets that bin. -/
theorem fillBins_apply (hashedBy : Buf Nat) (info : Buf CuckooHashInfo) {b : Nat}
    (hb : b < nbins) (he : binIds b = e + 1)
    (hun : ∀ b' < nbins, binIds b' = e + 1 → b' = b) :
    (fillBins nbins binIds hashedBy info e).binIndex = b ∧
      (fillBins nbins binIds hashedBy info e).hashedBy = hashedBy b := by
  refine loop_induct (P := fun k (m : Buf CuckooHashInfo) =>
    b < k → (m e).binIndex = b ∧ (m e).hashedBy = hashedBy b) nbins
    (fun h => absurd h (Nat.not_lt_zero b)) ?_ hb
  intro k m hk hm hbk
  dsimp only
  by_cases hkb : k = b
  · subst hkb
    rw [if_pos (by omega), he, Nat.add_sub_cancel, write_same]
    exact ⟨rfl, rfl⟩
  · have hm' := hm (by omega)
    split
    · next h0 =>
        have : binIds k ≠ e + 1 := fun h => hkb (hun k hk h)
        rwa [write_ne _ _ (by omega)]
    · exact hm'

/-- The loop over the bins notes no positions. -/
theorem fillBins_tableIndex (nbins : Nat) (binIds hashedBy : Buf Nat) (info : Buf CuckooHashInfo)
    (e : Nat) : (fillBins nbins binIds hashedBy info e).tableIndex = (info e).tableIndex := by
  refine loop_induct (P := fun _ (m : Buf CuckooHashInfo) =>
    (m e).tableIndex = (info e).tableIndex) nbins rfl ?_
  intro k m _ hm
  dsimp only
  split
  · by_cases h : e = binIds k - 1
    · subst h
      rw [write_same]
      exact hm
    · rwa [write_ne _ _ h]
  · exact hm

/-- The last loop leaves the bins as they are. -/
theorem fillTableIndex_bin (setSize : Nat) (perm : Buf Nat) (info : Buf CuckooHashInfo) (e : Nat) :
    (fillTableIndex setSize perm info e).binIndex = (info e).binIndex ∧
      (fillTableIndex setSize perm info e).hashedBy = (info e).hashedBy := by
  refine loop_induct (P := fun _ (m : Buf CuckooHashInfo) =>
    (m e).binIndex = (info e).binIndex ∧ (m e).hashedBy = (info e).hashedBy) setSize
    ⟨rfl, rfl⟩ ?_
  intro k m _ hm
  by_cases h : e = perm k
  · subst h
    rw [write_same]
    exact hm
  · rwa [write_ne _ _ h]

/-- An element gets the last position at which `perm` lists it. -/
theorem fillTableIndex_apply {i : Nat} (hi : i < setSize) (hp : perm i = e)
    (hlast : ∀ i' < setSize, i < i' → perm i' ≠ e) :
    (fillTableIndex setSize perm info e).tableIndex = i := by
  refine loop_induct (P := fun k (m : Buf CuckooHashInfo) =>
    i < k → (m e).tableIndex = i) setSize (fun h => absurd h (Nat.not_lt_zero i)) ?_ hi
  intro k m hk hm hik
  by_cases h : e = perm k
  · have hki : k = i := by
      by_contra hne
      exact hlast k hk (by omega) h.symm
    subst hki
    rw [h, write_same]
  · rw [write_ne _ _ h]
    refine hm ?_
    rcases Nat.lt_succ_iff_lt_or_eq.mp hik with h' | rfl
    · exact h'
    · exact absurd hp.symm h

end Loops

/-! ## The array -/

section Info

variable {dummy : V} {hash : Nat → Hashed V} {setSize nbins : Nat} {run : CuckooRun V}
  {fresh : Buf CuckooHashInfo}

/-- The position of an element is `-1` or that of a mask. -/
theorem hashInfo_tableIndex_range (nbins : Nat) (out : CuckooOutput V)
    (fresh : Buf CuckooHashInfo) {e : Nat} (he : e < setSize) :
    (hashInfo setSize nbins out fresh e).tableIndex = -1 ∨
      ∃ t < setSize, (hashInfo setSize nbins out fresh e).tableIndex = (t : Int) := by
  refine loop_induct (P := fun _ (m : Buf CuckooHashInfo) =>
    (m e).tableIndex = -1 ∨ ∃ t < setSize, (m e).tableIndex = (t : Int)) setSize (Or.inl ?_) ?_
  · rw [fillBins_tableIndex]
    exact (clearInfo_apply he).1
  · intro k m hk hm
    by_cases h : e = out.perm k
    · rw [h, write_same]
      exact Or.inr ⟨k, hk, rfl⟩
    · rwa [write_ne _ _ h]

theorem CuckooRun.Spec.binIds_eq_iff (h : run.Spec dummy hash setSize nbins) {b e : Nat}
    (hb : b < nbins) : run.out.binIds b = e + 1 ↔ run.final.table b = some e := by
  rw [h.binIds b hb]
  cases run.final.table b with
  | none => simp
  | some e' => simp

/-- Different full bins list their elements at different positions. -/
theorem CuckooRun.Spec.perm_inj (h : run.Spec dummy hash setSize nbins) {b i : Nat}
    (hi : i < Nat.count run.final.Full nbins) (hb : run.final.table b = some (run.out.perm i)) :
    i = Nat.count run.final.Full b := by
  obtain ⟨b', -, hf, rfl⟩ := exists_count_eq hi
  obtain ⟨e', he'⟩ := full_iff.mp hf
  rw [h.perm he'] at hb
  rw [h.unique hb he']

variable (fresh) in
/-- An element in a bin gets that bin and its first hash function. -/
theorem CuckooRun.Spec.hashInfo_bin (h : run.Spec dummy hash setSize nbins) {b e : Nat}
    (hb : run.final.table b = some e) :
    (hashInfo setSize nbins run.out fresh e).binIndex = b ∧
      leastAddress (hash e).address b = some (hashInfo setSize nbins run.out fresh e).hashedBy := by
  obtain ⟨h1, h2⟩ := fillTableIndex_bin setSize run.out.perm
    (fillBins nbins run.out.binIds run.out.hashedBy (clearInfo setSize fresh)) e
  obtain ⟨h3, h4⟩ := fillBins_apply run.out.hashedBy (clearInfo setSize fresh)
    (h.own hb).2.1 ((h.binIds_eq_iff (h.own hb).2.1).mpr hb)
    fun b' hb' he' => h.unique ((h.binIds_eq_iff hb').mp he') hb
  rw [hashInfo, h1, h2, h3, h4]
  exact ⟨rfl, h.hashedBy hb⟩

/-- An element in a bin gets the bin's position, unless it is element 0 and some insertion
failed. -/
theorem CuckooRun.Spec.hashInfo_tableIndex (h : run.Spec dummy hash setSize nbins) {b e : Nat}
    (hb : run.final.table b = some e) (h0 : run.failed = [] ∨ e ≠ 0) :
    (hashInfo setSize nbins run.out fresh e).tableIndex = Nat.count run.final.Full b := by
  have hcount := h.count
  have hlt : Nat.count run.final.Full b < Nat.count run.final.Full nbins :=
    Nat.count_strict_mono (full_iff.mpr ⟨e, hb⟩) (h.own hb).2.1
  refine fillTableIndex_apply (by omega) (h.perm hb) fun i hi hlater he => ?_
  by_cases hlisted : i < Nat.count run.final.Full nbins
  · have := h.perm_inj hlisted (he ▸ hb)
    omega
  · rcases h0 with hnil | hne
    · rw [hnil, List.length_nil] at hcount
      omega
    · rw [h.perm_tail i (by omega)] at he
      exact hne he.symm

/-- Element 0 gets the last position when some insertion failed. -/
theorem CuckooRun.Spec.hashInfo_tableIndex_zero (h : run.Spec dummy hash setSize nbins)
    (hf : run.failed ≠ []) :
    (hashInfo setSize nbins run.out fresh 0).tableIndex = (setSize - 1 : Nat) := by
  have hcount := h.count
  have hpos := List.length_pos_iff.mpr hf
  exact fillTableIndex_apply (by omega) (h.perm_tail _ (by omega)) fun i hi hlt => by omega

/-- An element in no bin is marked. -/
theorem CuckooRun.Spec.hashInfo_absent (h : run.Spec dummy hash setSize nbins) {e : Nat}
    (he : e < setSize) (hs : ¬ run.final.Stored e) :
    (hashInfo setSize nbins run.out fresh e).binIndex = -1 := by
  rw [hashInfo, (fillTableIndex_bin setSize _ _ e).1, fillBins_absent fun b hb hbe =>
    hs ⟨b, (h.binIds_eq_iff hb).mp hbe⟩]
  exact (clearInfo_apply he).2

theorem CuckooRun.Spec.infoRight (h : run.Spec dummy hash setSize nbins) {e : Nat}
    (he : e < setSize) (h0 : run.failed = [] ∨ ¬ run.final.Stored 0) :
    InfoRight hash nbins run (hashInfo setSize nbins run.out fresh) e := by
  refine ⟨fun b hb => (h.hashInfo_bin fresh hb).1, fun b hb => (h.hashInfo_bin fresh hb).2,
    fun b hb => ⟨?_, (h.binToResult (h.own hb).2.1).symm⟩,
    fun hs => ⟨h.hashInfo_absent he hs, fun check st => ?_⟩⟩
  · refine h.hashInfo_tableIndex hb (h0.imp_right fun hno => ?_)
    intro heq
    subst heq
    exact hno ⟨b, hb⟩
  · rw [checkElement, if_pos (h.hashInfo_absent he hs)]

/-- **`hashInfo` is right exactly when no insertion failed, or element 0 is in no bin.** -/
theorem hashInfo_right_iff [Zero V] {ntasks : Nat} {entries : Buf (CuckooEntry V)}
    (hn : 0 < ntasks)
    (hadr : ∀ e < setSize, ∀ j < numHashFunctions, (hash e).address j < nbins)
    (hrun : cuckooHashing dummy hash setSize nbins ntasks entries = some run) :
    (∀ e < setSize, InfoRight hash nbins run (hashInfo setSize nbins run.out fresh) e)
      ↔ run.failed = [] ∨ ¬ run.final.Stored 0 := by
  obtain ⟨run', hrun', h⟩ := cuckooHashing_spec dummy hn hadr entries
  cases hrun.symm.trans hrun'
  refine ⟨fun hall => ?_, fun h0 e he => h.infoRight he h0⟩
  by_contra hc
  obtain ⟨hf, hs⟩ := not_or.mp hc
  obtain ⟨b, hb⟩ := not_not.mp hs
  have hcount := h.count
  have hpos := List.length_pos_iff.mpr hf
  have hlt : Nat.count run.final.Full b < Nat.count run.final.Full nbins :=
    Nat.count_strict_mono (full_iff.mpr ⟨0, hb⟩) (h.own hb).2.1
  have hti := ((hall 0 (h.own hb).1).tableIndex b hb).1
  rw [h.hashInfo_tableIndex_zero hf] at hti
  omega

/-- Two elements in three bins, both inserted. -/
theorem hashInfo_right_two :
    ∃ run, cuckooHashing (0 : Byte) (fun e => ⟨fun j => (e + j) % 3, 0⟩) 2 3 1
        (fun _ => ⟨0, fun _ => 0, 0⟩) = some run ∧
      ∀ e < 2, InfoRight (fun e => ⟨fun j => (e + j) % 3, (0 : Byte)⟩) 3 run
        (hashInfo 2 3 run.out fun _ => ⟨0, 0, 0⟩) e :=
  ⟨_, rfl, (hashInfo_right_iff (by decide) (fun e _ j _ => Nat.mod_lt _ (by decide))
    (show cuckooHashing (0 : Byte) _ 2 3 1 (fun _ => ⟨0, fun _ => 0, 0⟩) = some _ from rfl)).mpr
      (Or.inl rfl)⟩

/-- Two elements in three bins, all their addresses equal: the second insertion fails and
leaves element 0 in bin 0, but its position is noted as 1. -/
theorem hashInfo_wrong_two :
    ∃ run, cuckooHashing (0 : Byte) (fun _ => ⟨fun _ => 0, 0⟩) 2 3 1
        (fun _ => ⟨0, fun _ => 0, 0⟩) = some run ∧
      ¬ ∀ e < 2, InfoRight (fun _ => ⟨fun _ => 0, (0 : Byte)⟩) 3 run
        (hashInfo 2 3 run.out fun _ => ⟨0, 0, 0⟩) e := by
  refine ⟨_, rfl, fun h => ?_⟩
  have hti := ((h 0 (by decide)).tableIndex 0 rfl).1
  exact absurd hti (by decide)

end Info

end MultiPartyPSI
