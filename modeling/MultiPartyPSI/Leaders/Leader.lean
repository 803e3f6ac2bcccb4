import MultiPartyPSI.Defs
import Mathlib.Algebra.BigOperators.Intervals

/-!
# The leader's worker threads

`Leader.cpp`. `Leader::run` cuts the elements over threads; each thread checks its
elements one after the other with the strategy's `isElementInAllSets`, which works in
place on the share of the element's bin. The threads share `m_secretShare`, so a run is
any interleaving of their checks.

A check that only looks at and only touches the share of its own bin cannot be
disturbed as long as no two elements have the same bin: `Workers.Inv` says that
the share of an element not checked yet is still the initial one.
-/

namespace MultiPartyPSI

open Lib Buf

/-- A strategy's `isElementInAllSets(index, binIndex, tableIndex, hashFuncIndex, secret)`, with
the array that `secret` points into at `binIndex` times the mask size. -/
abbrev ElementCheck := (index binIndex tableIndex hashFuncIndex : Nat) → Buf Byte → Bool × Buf Byte

/-- One round of `Leader::checkElementsInThread`: the thread's `intersection`, and the share. -/
def checkElement (check : ElementCheck) (hash : Buf CuckooHashInfo) (i : Nat)
    (st : List Nat × Buf Byte) : List Nat × Buf Byte :=
  if (hash i).binIndex = -1 then st
  else if (hash i).tableIndex = -1 then st
  else
    let r := check i (hash i).binIndex.toNat (hash i).tableIndex.toNat (hash i).hashedBy st.2
    (if r.1 then st.1 ++ [i] else st.1, r.2)

/-- The worker threads: the next element and the `intersection` of each, and the share. -/
structure Workers where
  next : Buf Nat
  intersection : Buf (List Nat)
  secretShare : Buf Byte

section Run

variable (check : ElementCheck) (hash : Buf CuckooHashInfo) (setSize numCores : Nat)

/-- `elementInfo->startPos`, a 32-bit product. -/
def workerStart (i : Nat) : Nat := i * setSize % 2 ^ 32 / numCores

/-- `elementInfo->endPos`. -/
def workerEnd (i : Nat) : Nat :=
  if i = numCores - 1 then setSize else (i + 1) * setSize % 2 ^ 32 / numCores

/-- The threads when they are created. -/
def Workers.init (secretShare : Buf Byte) : Workers :=
  ⟨workerStart setSize numCores, fun _ => [], secretShare⟩

/-- Thread `t` checks its next element, if it has one. -/
def Workers.step (w : Workers) (t : Nat) : Workers :=
  if w.next t < workerEnd setSize numCores t then
    let st := checkElement check hash (w.next t) (w.intersection t, w.secretShare)
    ⟨w.next.write t (w.next t + 1), w.intersection.write t st.1, st.2⟩
  else w

/-- The threads are scheduled in some order. -/
def Workers.run (w : Workers) (schedule : List Nat) : Workers :=
  schedule.foldl (Workers.step check hash setSize numCores) w

/-- `Leader::run` returns `intersectionSize`, having found `found`: some order of the checks
of `min(m_numCores, m_setSize)` threads completes them all. -/
def LeaderRuns (secretShare : Buf Byte) (mNumCores : Nat) (found : Nat → List Nat)
    (intersectionSize : Nat) : Prop :=
  let numCores := min mNumCores setSize
  ∃ schedule : List Nat, (∀ t ∈ schedule, t < numCores) ∧
    let w := (Workers.init setSize numCores secretShare).run check hash setSize numCores schedule
    (∀ t < numCores, workerEnd setSize numCores t ≤ w.next t) ∧ found = w.intersection ∧
      intersectionSize = loop (fun i n => n + (w.intersection i).length) numCores 0

end Run

/-! ## Ranges -/

section Ranges

variable {setSize numCores : Nat}

theorem workerStart_eq (hw : numCores * setSize < 2 ^ 32) {t : Nat} (ht : t < numCores) :
    workerStart setSize numCores t = t * setSize / numCores := by
  rw [workerStart, Nat.mod_eq_of_lt (lt_of_le_of_lt (Nat.mul_le_mul_right _ ht.le) hw)]

theorem workerEnd_eq (hw : numCores * setSize < 2 ^ 32) {t : Nat} (ht : t < numCores) :
    workerEnd setSize numCores t = (t + 1) * setSize / numCores := by
  unfold workerEnd
  split
  · next h =>
      rw [h, Nat.sub_add_cancel (by omega), Nat.mul_div_cancel_left _ (by omega)]
  · rw [Nat.mod_eq_of_lt (lt_of_le_of_lt (Nat.mul_le_mul_right _ ht) hw)]

theorem workerStart_le_end (hw : numCores * setSize < 2 ^ 32) {t : Nat} (ht : t < numCores) :
    workerStart setSize numCores t ≤ workerEnd setSize numCores t := by
  rw [workerStart_eq hw ht, workerEnd_eq hw ht]
  exact Nat.div_le_div_right (Nat.mul_le_mul_right _ (Nat.le_succ t))

theorem workerEnd_le {t : Nat} (ht : t < numCores) : workerEnd setSize numCores t ≤ setSize := by
  unfold workerEnd
  split
  · exact le_rfl
  · exact Nat.div_le_of_le_mul ((Nat.mod_le _ _).trans (Nat.mul_le_mul_right _ ht))

/-- No element belongs to two threads. -/
theorem worker_unique (hw : numCores * setSize < 2 ^ 32) {t t' e : Nat} (ht : t < numCores)
    (ht' : t' < numCores) (h : workerStart setSize numCores t ≤ e)
    (h' : e < workerEnd setSize numCores t) (g : workerStart setSize numCores t' ≤ e)
    (g' : e < workerEnd setSize numCores t') : t = t' := by
  have hmono : ∀ {a b : Nat}, a < numCores → b < numCores → a < b →
      workerEnd setSize numCores a ≤ workerStart setSize numCores b := by
    intro a b ha hb hab
    rw [workerEnd_eq hw ha, workerStart_eq hw hb]
    exact Nat.div_le_div_right (Nat.mul_le_mul_right _ hab)
  rcases Nat.lt_trichotomy t t' with hlt | heq | hgt
  · have := hmono ht ht' hlt
    omega
  · exact heq
  · have := hmono ht' ht hgt
    omega

/-- Every element belongs to a thread, also when the products wrap around: the ranges lead from
`0` to `setSize`, so one of them passes the element on its way up. -/
theorem exists_worker {e : Nat} (he : e < setSize) (hn : 0 < numCores) : ∃ t < numCores,
    workerStart setSize numCores t ≤ e ∧ e < workerEnd setSize numCores t := by
  have hzero : workerStart setSize numCores 0 = 0 := by
    rw [workerStart, Nat.zero_mul, Nat.zero_mod, Nat.zero_div]
  -- the last thread that starts at or before `e`
  obtain ⟨t, ht, hlast⟩ : ∃ t < numCores, workerStart setSize numCores t ≤ e ∧
      ∀ t' < numCores, t < t' → e < workerStart setSize numCores t' := by
    let P := fun t => t < numCores ∧ workerStart setSize numCores t ≤ e
    have hP : P (Nat.findGreatest P numCores) :=
      Nat.findGreatest_spec (Nat.zero_le _) ⟨hn, by rw [hzero]; exact Nat.zero_le e⟩
    refine ⟨_, hP.1, hP.2, fun t' ht' hlt => ?_⟩
    by_contra hle
    exact Nat.findGreatest_is_greatest hlt ht'.le ⟨ht', by omega⟩
  refine ⟨t, ht, hlast.1, ?_⟩
  unfold workerEnd
  split
  · exact he
  · exact hlast.2 (t + 1) (by omega) (Nat.lt_succ_self t)

end Ranges

/-! ## The checks end -/

section Completes

variable {check : ElementCheck} {hash : Buf CuckooHashInfo} {setSize numCores : Nat}

variable (check hash) in
/-- The threads when thread `t` has checked its next element. -/
def Workers.advance (w : Workers) (t : Nat) : Workers :=
  let st := checkElement check hash (w.next t) (w.intersection t, w.secretShare)
  ⟨w.next.write t (w.next t + 1), w.intersection.write t st.1, st.2⟩

theorem Workers.step_eq (w : Workers) (t : Nat) :
    w.step check hash setSize numCores t
      = if w.next t < workerEnd setSize numCores t then w.advance check hash t else w := rfl

theorem Workers.advance_next (w : Workers) (t t' : Nat) :
    (w.advance check hash t).next t' = if t' = t then w.next t + 1 else w.next t' := rfl

theorem Workers.next_le_step (w : Workers) (t t' : Nat) :
    w.next t' ≤ (w.step check hash setSize numCores t).next t' := by
  rw [step_eq]
  split
  · rw [advance_next]
    split
    · next htt =>
        rw [htt]
        exact Nat.le_succ _
    · exact le_rfl
  · exact le_rfl

theorem Workers.next_le_run (w : Workers) (schedule : List Nat) (t' : Nat) :
    w.next t' ≤ (w.run check hash setSize numCores schedule).next t' := by
  induction schedule generalizing w with
  | nil => exact le_rfl
  | cons t ts ih => exact (w.next_le_step t t').trans (ih _)

/-- A thread that runs long enough completes its range. -/
theorem Workers.run_replicate {t m : Nat} {w : Workers}
    (h : workerEnd setSize numCores t ≤ w.next t + m) :
    workerEnd setSize numCores t
      ≤ (w.run check hash setSize numCores (List.replicate m t)).next t := by
  induction m generalizing w with
  | zero => exact h
  | succ m ih =>
      refine ih (w := w.step check hash setSize numCores t) ?_
      rw [step_eq]
      split
      · rw [advance_next, if_pos rfl]
        omega
      · omega

/-- Whatever the checks do, `Leader::run` can return: the threads may run one after another. -/
theorem exists_leaderRuns (check : ElementCheck) (hash : Buf CuckooHashInfo) (setSize : Nat)
    (share : Buf Byte) (mNumCores : Nat) :
    ∃ found n, LeaderRuns check hash setSize share mNumCores found n := by
  have h : ∀ k ≤ min mNumCores setSize, ∃ schedule : List Nat,
      (∀ t ∈ schedule, t < min mNumCores setSize) ∧ ∀ t < k,
        workerEnd setSize (min mNumCores setSize) t
          ≤ ((Workers.init setSize (min mNumCores setSize) share).run check hash setSize
              (min mNumCores setSize) schedule).next t := by
    intro k
    induction k with
    | zero => exact fun _ => ⟨[], fun t ht => absurd ht List.not_mem_nil,
        fun t ht => absurd ht (Nat.not_lt_zero t)⟩
    | succ k ih =>
        intro hk
        obtain ⟨schedule, hsch, hdone⟩ := ih (by omega)
        refine ⟨schedule ++ List.replicate setSize k, fun t ht => ?_, fun t ht => ?_⟩
        · rcases List.mem_append.mp ht with ht | ht
          · exact hsch t ht
          · rw [List.eq_of_mem_replicate ht]
            exact hk
        · unfold Workers.run at hdone ⊢
          rw [List.foldl_append]
          rcases Nat.lt_succ_iff_lt_or_eq.mp ht with hlt | heq
          · exact (hdone t hlt).trans (Workers.next_le_run _ _ _)
          · rw [heq]
            exact Workers.run_replicate ((workerEnd_le hk).trans (Nat.le_add_left _ _))
  obtain ⟨schedule, hsch, hdone⟩ := h _ le_rfl
  exact ⟨_, _, schedule, hsch, hdone, rfl, rfl⟩

end Completes

/-! ## Independence of the checks -/

/-- A check looks at and touches the share of its own bin only. -/
structure LocalCheck (maskSize : Nat) (check : ElementCheck) : Prop where
  /-- Other bins keep their share. -/
  frame : ∀ i b t h share b', b' ≠ b →
    row maskSize (check i b t h share).2 b' = row maskSize share b'
  /-- The answer depends on the bin's share. -/
  dep : ∀ i b t h share share', row maskSize share b = row maskSize share' b →
    (check i b t h share).1 = (check i b t h share').1

/-- Element `i` was placed, as far as `hash` says. -/
def Placed (hash : Buf CuckooHashInfo) (i : Nat) : Prop :=
  (hash i).binIndex ≠ -1 ∧ (hash i).tableIndex ≠ -1

instance (hash : Buf CuckooHashInfo) (i : Nat) : Decidable (Placed hash i) :=
  inferInstanceAs (Decidable (_ ∧ _))

/-- Element `i` is placed, and its check succeeds on `share`. -/
def found (check : ElementCheck) (hash : Buf CuckooHashInfo) (share : Buf Byte) (i : Nat) : Bool :=
  decide (Placed hash i) &&
    (check i (hash i).binIndex.toNat (hash i).tableIndex.toNat (hash i).hashedBy share).1

section Inv

variable {check : ElementCheck} {hash : Buf CuckooHashInfo} {setSize numCores : Nat}
  {maskSize : Nat} {share : Buf Byte}

theorem checkElement_fst (i : Nat) (l : List Nat) (share : Buf Byte) :
    (checkElement check hash i (l, share)).1
      = if found check hash share i then l ++ [i] else l := by
  unfold checkElement found Placed
  by_cases hb : (hash i).binIndex = -1
  · simp [hb]
  · by_cases ht : (hash i).tableIndex = -1
    · simp [ht]
    · simp [hb, ht]

/-- Whether an element is found depends on the share of its bin. -/
theorem found_congr (hl : LocalCheck maskSize check) {share' : Buf Byte} {i : Nat}
    (h : Placed hash i → row maskSize share' (hash i).binIndex.toNat
      = row maskSize share (hash i).binIndex.toNat) :
    found check hash share' i = found check hash share i := by
  unfold found
  by_cases hp : Placed hash i
  · rw [hl.dep _ _ _ _ _ _ (h hp)]
  · rw [decide_eq_false hp, Bool.false_and, Bool.false_and]

/-- A check leaves the share of every bin but its own. -/
theorem row_checkElement (hl : LocalCheck maskSize check) (i : Nat) (st : List Nat × Buf Byte)
    {b : Nat} (hb : Placed hash i → b ≠ (hash i).binIndex.toNat) :
    row maskSize (checkElement check hash i st).2 b = row maskSize st.2 b := by
  unfold checkElement
  split
  · rfl
  · split
    · rfl
    · next h1 h2 => exact hl.frame _ _ _ _ _ _ (hb ⟨h1, h2⟩)

/-- Placed elements are in different bins. -/
def DistinctBins (hash : Buf CuckooHashInfo) (setSize : Nat) : Prop :=
  ∀ i < setSize, ∀ j < setSize, Placed hash i → Placed hash j →
    (hash i).binIndex.toNat = (hash j).binIndex.toNat → i = j

theorem Workers.advance_intersection (w : Workers) (t t' : Nat) :
    (w.advance check hash t).intersection t'
      = if t' = t then
          if found check hash w.secretShare (w.next t) then w.intersection t ++ [w.next t]
          else w.intersection t
        else w.intersection t' := by
  rw [← checkElement_fst]
  rfl

/-- The share of every other element is left alone. -/
theorem Workers.row_advance (hl : LocalCheck maskSize check) (hd : DistinctBins hash setSize)
    {w : Workers} {t e : Nat} (hset : w.next t < setSize) (he : e < setSize) (hp : Placed hash e)
    (hne : e ≠ w.next t) :
    row maskSize (w.advance check hash t).secretShare (hash e).binIndex.toNat
      = row maskSize w.secretShare (hash e).binIndex.toNat :=
  row_checkElement hl _ _ fun hpn heq => hne (hd e he _ hset hp hpn heq)

/-- Whatever has been scheduled so far. -/
structure Workers.Inv (check : ElementCheck) (hash : Buf CuckooHashInfo)
    (setSize numCores maskSize : Nat) (share : Buf Byte) (w : Workers) : Prop where
  /-- A thread is inside its range. -/
  range : ∀ t < numCores, workerStart setSize numCores t ≤ w.next t ∧
    w.next t ≤ workerEnd setSize numCores t
  /-- It has found what succeeds on the initial share. -/
  result : ∀ t < numCores, w.intersection t
    = ((List.range (w.next t)).filter fun i =>
        decide (workerStart setSize numCores t ≤ i) && found check hash share i)
  /-- The share of an element not checked yet is untouched. -/
  untouched : ∀ e < setSize, Placed hash e →
    (∀ t < numCores, workerStart setSize numCores t ≤ e → w.next t ≤ e) →
    row maskSize w.secretShare (hash e).binIndex.toNat
      = row maskSize share (hash e).binIndex.toNat

theorem Workers.Inv.init (hw : numCores * setSize < 2 ^ 32) :
    (Workers.init setSize numCores share).Inv check hash setSize numCores maskSize share := by
  refine ⟨fun t ht => ⟨le_rfl, workerStart_le_end hw ht⟩, fun t _ => ?_, fun _ _ _ _ => rfl⟩
  refine (List.filter_eq_nil_iff.mpr fun i hi => ?_).symm
  have : i < workerStart setSize numCores t := List.mem_range.mp hi
  simp [this]

theorem Workers.Inv.step (hl : LocalCheck maskSize check) (hd : DistinctBins hash setSize)
    (hw : numCores * setSize < 2 ^ 32) {w : Workers} {t : Nat} (ht : t < numCores)
    (h : w.Inv check hash setSize numCores maskSize share) :
    (w.step check hash setSize numCores t).Inv check hash setSize numCores maskSize share := by
  rw [Workers.step_eq]
  split
  · next hlt =>
      obtain ⟨hs, he⟩ := h.range t ht
      have hset : w.next t < setSize := lt_of_lt_of_le hlt (workerEnd_le ht)
      -- nobody has checked the element before
      have hfresh : ∀ t' < numCores, workerStart setSize numCores t' ≤ w.next t →
          w.next t' ≤ w.next t := by
        intro t' ht' hs'
        by_contra hc
        have hend := (h.range t' ht').2
        have := worker_unique hw ht' ht hs' (by omega) hs hlt
        subst this
        omega
      have hfound : found check hash w.secretShare (w.next t)
          = found check hash share (w.next t) :=
        found_congr hl fun hp => h.untouched _ hset hp hfresh
      refine ⟨fun t' ht' => ?_, fun t' ht' => ?_, fun e hes hp hun => ?_⟩
      · rw [Workers.advance_next]
        split
        · next htt =>
            rw [htt]
            omega
        · exact h.range t' ht'
      · rw [Workers.advance_next, Workers.advance_intersection]
        split
        · next htt =>
            subst htt
            rw [hfound, List.range_succ, List.filter_append, ← h.result t' ht']
            by_cases hf : found check hash share (w.next t') = true
            · simp [hf, hs]
            · simp [hf]
        · exact h.result t' ht'
      · have hne : e ≠ w.next t := by
          intro heq
          subst heq
          have := hun t ht hs
          rw [Workers.advance_next, if_pos rfl] at this
          omega
        rw [Workers.row_advance hl hd hset hes hp hne]
        refine h.untouched e hes hp fun t' ht' hs' => ?_
        have := hun t' ht' hs'
        rw [Workers.advance_next] at this
        split at this
        · next htt =>
            rw [htt]
            omega
        · exact this
  · exact h

theorem Workers.Inv.run (hl : LocalCheck maskSize check) (hd : DistinctBins hash setSize)
    (hw : numCores * setSize < 2 ^ 32) (schedule : List Nat)
    (hsch : ∀ t ∈ schedule, t < numCores) {w : Workers}
    (h : w.Inv check hash setSize numCores maskSize share) :
    (w.run check hash setSize numCores schedule).Inv check hash setSize numCores maskSize
      share := by
  induction schedule generalizing w with
  | nil => exact h
  | cons t ts ih =>
      exact ih (fun t' ht' => hsch t' (List.mem_cons_of_mem _ ht'))
        (h.step hl hd hw (hsch t List.mem_cons_self))

/-- **Each thread finds, of its elements, those whose check succeeds on the initial share.** -/
theorem LeaderRuns.found_eq (hl : LocalCheck maskSize check) (hd : DistinctBins hash setSize)
    {mNumCores : Nat} (hw : min mNumCores setSize * setSize < 2 ^ 32) {res : Nat → List Nat}
    {n : Nat} (h : LeaderRuns check hash setSize share mNumCores res n) {t : Nat}
    (ht : t < min mNumCores setSize) :
    res t = (List.range (workerEnd setSize (min mNumCores setSize) t)).filter fun i =>
      decide (workerStart setSize (min mNumCores setSize) t ≤ i) && found check hash share i := by
  obtain ⟨schedule, hsch, hdone, rfl, -⟩ := h
  have hinit : (Workers.init setSize (min mNumCores setSize) share).Inv check hash setSize
      (min mNumCores setSize) maskSize share := Workers.Inv.init hw
  have hinv := hinit.run hl hd hw schedule hsch
  rw [hinv.result t ht, le_antisymm (hinv.range t ht).2 (hdone t ht)]

/-- Some thread has checked element `e`. -/
def Workers.Checked (setSize numCores : Nat) (w : Workers) (e : Nat) : Prop :=
  ∃ t < numCores, workerStart setSize numCores t ≤ e ∧ e < w.next t

/-- What holds even when ranges overlap: until an element is checked its share is untouched,
and one whose check succeeds is found then. -/
structure Workers.Finds (check : ElementCheck) (hash : Buf CuckooHashInfo)
    (setSize numCores maskSize : Nat) (share : Buf Byte) (w : Workers) : Prop where
  start : ∀ t < numCores, workerStart setSize numCores t ≤ w.next t
  untouched : ∀ e < setSize, Placed hash e → ¬ w.Checked setSize numCores e →
    row maskSize w.secretShare (hash e).binIndex.toNat
      = row maskSize share (hash e).binIndex.toNat
  finds : ∀ e < setSize, found check hash share e = true → w.Checked setSize numCores e →
    ∃ t < numCores, e ∈ w.intersection t

/-- The element of a round has been checked afterwards, and no other is new. -/
theorem Workers.checked_advance {w : Workers} {t : Nat} (ht : t < numCores)
    (hs : workerStart setSize numCores t ≤ w.next t) {e : Nat} :
    (w.advance check hash t).Checked setSize numCores e
      ↔ e = w.next t ∨ w.Checked setSize numCores e := by
  refine ⟨fun hc => ?_, fun hc => ?_⟩
  · obtain ⟨t', ht', hs', hn⟩ := hc
    rw [Workers.advance_next] at hn
    split at hn
    · next htt =>
        by_cases he : e = w.next t
        · exact Or.inl he
        · exact Or.inr ⟨t, ht, htt ▸ hs', by omega⟩
    · exact Or.inr ⟨t', ht', hs', hn⟩
  · rcases hc with hc | hc
    · refine ⟨t, ht, by rwa [hc], ?_⟩
      rw [Workers.advance_next, if_pos rfl]
      omega
    · obtain ⟨t', ht', hs', hn⟩ := hc
      refine ⟨t', ht', hs', ?_⟩
      rw [Workers.advance_next]
      split
      · next htt =>
          rw [htt] at hn
          omega
      · exact hn

/-- A thread forgets nothing. -/
theorem Workers.mem_advance {w : Workers} {t t' e : Nat} (h : e ∈ w.intersection t') :
    e ∈ (w.advance check hash t).intersection t' := by
  rw [Workers.advance_intersection]
  split
  · next htt =>
      rw [htt] at h
      split
      · exact List.mem_append_left _ h
      · exact h
  · exact h

theorem Workers.Finds.step (hl : LocalCheck maskSize check) (hd : DistinctBins hash setSize)
    {w : Workers} {t : Nat} (ht : t < numCores)
    (h : w.Finds check hash setSize numCores maskSize share) :
    (w.step check hash setSize numCores t).Finds check hash setSize numCores maskSize share := by
  rw [Workers.step_eq]
  split
  · next hlt =>
      have hset : w.next t < setSize := lt_of_lt_of_le hlt (workerEnd_le ht)
      refine ⟨fun t' ht' => ?_, fun e he hp hno => ?_, fun e he hf hc => ?_⟩
      · rw [Workers.advance_next]
        split
        · next htt =>
            rw [htt]
            exact (h.start t ht).trans (Nat.le_succ _)
        · exact h.start t' ht'
      · rw [Workers.checked_advance ht (h.start t ht), not_or] at hno
        rw [← h.untouched e he hp hno.2]
        exact Workers.row_advance hl hd hset he hp hno.1
      · rw [Workers.checked_advance ht (h.start t ht)] at hc
        by_cases hold : w.Checked setSize numCores e
        · obtain ⟨t', ht', hmem⟩ := h.finds e he hf hold
          exact ⟨t', ht', Workers.mem_advance hmem⟩
        · have he' : e = w.next t := hc.resolve_right hold
          refine ⟨t, ht, ?_⟩
          rw [Workers.advance_intersection, if_pos rfl, ← he', if_pos]
          · exact List.mem_append_right _ (List.mem_singleton.mpr rfl)
          · rwa [found_congr hl fun hp => h.untouched e he hp hold]
  · exact h

theorem Workers.Finds.run (hl : LocalCheck maskSize check) (hd : DistinctBins hash setSize)
    (schedule : List Nat) (hsch : ∀ t ∈ schedule, t < numCores) {w : Workers}
    (h : w.Finds check hash setSize numCores maskSize share) :
    (w.run check hash setSize numCores schedule).Finds check hash setSize numCores maskSize
      share := by
  induction schedule generalizing w with
  | nil => exact h
  | cons t ts ih =>
      exact ih (fun t' ht' => hsch t' (List.mem_cons_of_mem t ht'))
        (h.step hl hd (hsch t List.mem_cons_self))

/-- **An element whose check succeeds on the initial share is in the intersection of a thread.** -/
theorem LeaderRuns.mem_of_found (hl : LocalCheck maskSize check) (hd : DistinctBins hash setSize)
    {mNumCores : Nat} (hcores : 0 < mNumCores) {res : Nat → List Nat} {n : Nat}
    (h : LeaderRuns check hash setSize share mNumCores res n) {i : Nat} (hi : i < setSize)
    (hf : found check hash share i = true) : ∃ t < min mNumCores setSize, i ∈ res t := by
  obtain ⟨schedule, hsch, hdone, rfl, -⟩ := h
  have hinit : (Workers.init setSize (min mNumCores setSize) share).Finds check hash setSize
      (min mNumCores setSize) maskSize share :=
    ⟨fun _ _ => le_rfl, fun _ _ _ _ => rfl, fun e _ _ hc => by
      obtain ⟨t, -, hs, hn⟩ := hc
      exact absurd hn (not_lt.mpr hs)⟩
  obtain ⟨t, ht, hs, he⟩ := exists_worker hi (show 0 < min mNumCores setSize by omega)
  exact (hinit.run hl hd schedule hsch).finds i hi hf ⟨t, ht, hs, lt_of_lt_of_le he (hdone t ht)⟩

end Inv

/-! ## The size of the intersection -/

section Size

variable {check : ElementCheck} {hash : Buf CuckooHashInfo} {setSize numCores maskSize : Nat}
  {share : Buf Byte}

/-- The elements before `n` whose check succeeds on the initial share. -/
def foundBefore (check : ElementCheck) (hash : Buf CuckooHashInfo) (share : Buf Byte) (n : Nat) :
    List Nat :=
  (List.range n).filter fun i => found check hash share i

/-- The elements of a range are those before its end without those before its start. -/
theorem length_foundBefore_add {a b : Nat} (hab : a ≤ b) :
    (foundBefore check hash share a).length
        + ((List.range b).filter fun i => decide (a ≤ i) && found check hash share i).length
      = (foundBefore check hash share b).length := by
  induction b, hab using Nat.le_induction with
  | base =>
      have hnone : ((List.range a).filter fun i => decide (a ≤ i) && found check hash share i)
          = [] := by
        refine List.filter_eq_nil_iff.mpr fun i hi => ?_
        simp [List.mem_range.mp hi]
      rw [hnone, List.length_nil, Nat.add_zero]
  | succ b hab ih =>
      unfold foundBefore at ih ⊢
      rw [List.range_succ, List.filter_append, List.filter_append, List.length_append,
        List.length_append, ← Nat.add_assoc, ih]
      congr 1
      simp [List.filter_singleton, hab]

/-- **Every element is counted once**: whatever the order of the checks, the leader returns the
number of placed elements whose check succeeds on the initial share. -/
theorem LeaderRuns.intersectionSize_eq (hl : LocalCheck maskSize check)
    (hd : DistinctBins hash setSize) {mNumCores : Nat} (hset : 1 ≤ setSize) (hcores : 1 ≤ mNumCores)
    (hw : mNumCores * setSize < 2 ^ 32) {res : Nat → List Nat} {n : Nat}
    (h : LeaderRuns check hash setSize share mNumCores res n) :
    n = (foundBefore check hash share setSize).length := by
  have hle : min mNumCores setSize * setSize < 2 ^ 32 :=
    (Nat.mul_le_mul_right _ (Nat.min_le_left _ _)).trans_lt hw
  have hpos : 0 < min mNumCores setSize := by omega
  have hres := fun t ht => h.found_eq (t := t) hl hd hle ht
  obtain ⟨schedule, -, -, hfound, rfl⟩ := h
  rw [← hfound]
  -- the ranges follow one another, from `0` to `setSize`
  have hsum := loop_induct (P := fun t count => count
      = (foundBefore check hash share (t * setSize / min mNumCores setSize)).length)
    (f := fun i count => count + (res i).length) (s := 0) (min mNumCores setSize)
    (by rw [Nat.zero_mul, Nat.zero_div]; rfl) fun t count ht hcount => by
      have hstart := workerStart_eq hle ht
      have hend := workerEnd_eq hle ht
      rw [hcount, hres t ht, ← hend, ← hstart]
      exact length_foundBefore_add (workerStart_le_end hle ht)
  rw [hsum, Nat.mul_div_cancel_left _ hpos]

/-- A check that succeeds on a share of zero, and overwrites it. -/
def overwritingCheck : ElementCheck :=
  fun _ b _ _ share => (isZero share (b * 1) 1, share.write b (XorVec.ofBits 1#8))

theorem overwritingCheck_local : LocalCheck 1 overwritingCheck := by
  refine ⟨fun i b t h share b' hb' => ?_, fun i b t h share share' hrow => ?_⟩
  · funext j
    have hj : j.val = 0 := by omega
    rw [row_apply, row_apply, hj, Nat.mul_one, Nat.add_zero]
    exact write_ne _ _ hb'
  · rw [Bool.eq_iff_iff]
    refine (isZero_row share b 1).trans ?_
    rw [hrow]
    exact (isZero_row share' b 1).symm

/-- Three elements for two threads: one that was not placed, and two in different bins, of which one
has a share of zero. -/
theorem LeaderRuns.intersectionSize_three :
    ∃ res, LeaderRuns overwritingCheck
      (fun i => [⟨0, 0, 0⟩, ⟨1, -1, 0⟩, ⟨2, 1, 1⟩].getD i ⟨-1, -1, 0⟩) 3
      (fun i => if i = 2 then 0 else XorVec.ofBits 1#8) 2 res 1 := by
  obtain ⟨res, n, hrun⟩ := exists_leaderRuns overwritingCheck
    (fun i => [⟨0, 0, 0⟩, ⟨1, -1, 0⟩, ⟨2, 1, 1⟩].getD i ⟨-1, -1, 0⟩) 3
    (fun i => if i = 2 then 0 else XorVec.ofBits 1#8) 2
  have hn := hrun.intersectionSize_eq overwritingCheck_local (by unfold DistinctBins; decide)
    (by decide) (by decide) (by decide)
  obtain rfl : n = 1 := hn.trans (by decide)
  exact ⟨res, hrun⟩

end Size

end MultiPartyPSI
