import MultiPartyPSI.Util.Rank

/-!
# When `solve` takes pivots

The substitution of `solve` takes for a row the last column that is left in which the row has a
one. That is the row's pivot if every dependent column is a sum of the columns before the
pivot that precedes it, and the last column is independent of the others. This is a property of
the columns, whatever the order of the rows is, and `PivotsTaken` states it so.

Of a system that has a solution and is not of this kind, the substitution runs out of rows, or
settles a row by a column that is not its pivot (`pivotsTaken_iff`); whether the vector it returns
is right then depends on the order of the rows and on the right-hand side.
-/

namespace MultiPartyPSI

open Lib Buf

section Pivots

variable {numRows numCols n : ℕ} {A : ℕ → ℕ → GF2} {b : ℕ → GF2} {pivot : ℕ → ℕ}
  {taken : List (ℕ × ℕ)}

/-- The last column is no sum of the columns before it; and where column `p` is none and the
columns after it, up to column `k`, all are, column `k` is a sum of the columns before `p`. -/
structure PivotsTaken (numRows numCols : ℕ) (A : ℕ → ℕ → GF2) : Prop where
  last : ¬ SumOfBefore numRows A (numCols - 1) (numCols - 1)
  inner : ∀ k < numCols, ∀ p < k, ¬ SumOfBefore numRows A p p →
    (∀ k', p < k' → k' ≤ k → SumOfBefore numRows A k' k') → SumOfBefore numRows A p k

/-- The coefficients of the columns before column `p` are finitely many. -/
theorem exists_fin_iff_sumOfBefore {p k : ℕ} :
    (∃ x : Fin p → GF2, ∀ i < numRows, ∑ c : Fin p, A i c * x c = A i k)
      ↔ SumOfBefore numRows A p k := by
  refine ⟨?_, ?_⟩
  · rintro ⟨x, hx⟩
    refine ⟨fun c => if hc : c < p then x ⟨c, hc⟩ else 0, fun i hi => ?_⟩
    refine Eq.trans ?_ (hx i hi)
    rw [dot, Finset.sum_range]
    exact Finset.sum_congr rfl fun c _ => by rw [dif_pos c.isLt]
  · rintro ⟨x, hx⟩
    refine ⟨fun c => x c, fun i hi => ?_⟩
    refine Eq.trans ?_ (hx i hi)
    rw [dot, Finset.sum_range]

instance (numRows p k : ℕ) (A : ℕ → ℕ → GF2) : Decidable (SumOfBefore numRows A p k) :=
  decidable_of_iff _ exists_fin_iff_sumOfBefore

instance (numRows numCols : ℕ) (A : ℕ → ℕ → GF2) : Decidable (PivotsTaken numRows numCols A) :=
  decidable_of_iff (¬ SumOfBefore numRows A (numCols - 1) (numCols - 1) ∧
      ∀ k < numCols, ∀ p < k, ¬ SumOfBefore numRows A p p →
        (∀ k' ≤ k, p < k' → SumOfBefore numRows A k' k') → SumOfBefore numRows A p k)
    ⟨fun h => ⟨h.1, fun k hk p hp hno hsums =>
        h.2 k hk p hp hno fun k' hkk hpk => hsums k' hpk hkk⟩,
      fun h => ⟨h.last, fun k hk p hp hno hsums =>
        h.inner k hk p hp hno fun k' hpk hkk => hsums k' hkk hpk⟩⟩

/-- A column that is the right-hand side goes through the elimination as it does in the matrix. -/
theorem eliminateColumn_b {j k : ℕ} {s : Elimination} (h : s.b = fun i => s.A i k) :
    (eliminateColumn numRows j s).b = fun i => (eliminateColumn numRows j s).A i k := by
  rw [eliminateColumn]
  split
  · exact h
  · next i hi =>
      have hswap : swapRows s.b s.nextRow i = fun r => swapRows s.A s.nextRow i r k := by
        funext r
        rw [h, swapRows, swapRows]
        split_ifs <;> rfl
      dsimp only
      rw [hswap]
      funext r
      rw [addRow, addRow]
      split_ifs <;> rfl

/-- Elimination keeps the relations between the columns. -/
theorem sumOfBefore_eliminate {p k : ℕ} :
    SumOfBefore numRows (eliminate numRows numCols A fun _ => 0).A p k
      ↔ SumOfBefore numRows A p k := by
  have hcolumn : (eliminate numRows numCols A (A · k)).b
      = fun i => (eliminate numRows numCols A (A · k)).A i k :=
    loop_induct (P := fun _ (s : Elimination) => s.b = fun i => s.A i k) numCols rfl
      fun _ _ _ hs => eliminateColumn_b hs
  obtain ⟨b', hb'⟩ := eliminate_A numRows numCols A (A · k)
  refine exists_congr fun x => ?_
  refine Iff.trans ?_ (solves_eliminate numCols)
  rw [hcolumn, hb']

theorem pivotsTaken_eliminate :
    PivotsTaken numRows numCols (eliminate numRows numCols A fun _ => 0).A
      ↔ PivotsTaken numRows numCols A := by
  refine ⟨fun h => ⟨?_, ?_⟩, fun h => ⟨?_, ?_⟩⟩
  · simpa only [sumOfBefore_eliminate] using h.last
  · simpa only [sumOfBefore_eliminate] using h.inner
  · simpa only [sumOfBefore_eliminate] using h.last
  · simpa only [sumOfBefore_eliminate] using h.inner

/-- The substitution starts from the last row with a pivot. -/
theorem PivotsTaken.startRow_eq (h : PivotsTaken numRows numCols A) (hcols : 1 ≤ numCols)
    (hech : Echelon numRows numCols A n pivot) : startRow numCols A numRows = n := by
  obtain ⟨t, ht, hlast⟩ := (hech.exists_pivot_iff (Nat.sub_lt hcols Nat.one_pos)).mpr h.last
  have hone : A t (numCols - 1) ≠ 0 := by
    rw [← hlast, hech.one t ht]
    exact one_ne_zero
  -- no pivot lies behind the last column
  have htn : t + 1 = n := by
    by_contra hne
    have hlt := hech.pivot_mono (t + 1) (by omega) t (Nat.lt_succ_self t)
    have := hech.pivot_lt (t + 1) (by omega)
    omega
  have hfrom : ∀ m, n ≤ m → m ≤ numRows → startRow numCols A m = n := by
    intro m hm
    induction m, hm using Nat.le_induction with
    | base =>
        intro _
        rw [← htn, startRow, if_neg hone]
    | succ m hm ih =>
        intro hle
        rw [startRow, if_pos (hech.rest m hm hle _ (Nat.sub_lt hcols Nat.one_pos))]
        exact ih (Nat.le_of_succ_le hle)
  exact hfrom numRows hech.le_rows le_rfl

/-- Between its pivot and the next one a row is zero. -/
theorem PivotsTaken.between (h : PivotsTaken numRows numCols A)
    (hech : Echelon numRows numCols A n pivot) {t j : ℕ} (ht : t < n) (hlt : pivot t < j)
    (hj : j < numCols) (hlater : ∀ t', t < t' → t' < n → j < pivot t') : A t j = 0 := by
  have hsum : SumOfBefore numRows A (pivot t) j := by
    refine h.inner j hj (pivot t) hlt
      ((hech.exists_pivot_iff (hech.pivot_lt t ht)).mp ⟨t, ht, rfl⟩) fun k hk hkj => ?_
    -- a column that is no such sum has a pivot, and that comes after column `j`
    by_contra hno
    obtain ⟨t', ht', rfl⟩ := (hech.exists_pivot_iff (hkj.trans_lt hj)).mpr hno
    rcases Nat.lt_trichotomy t t' with htt | rfl | htt
    · exact Nat.not_lt.mpr hkj (hlater t' htt ht')
    · exact Nat.lt_irrefl _ hk
    · exact Nat.lt_asymm hk (hech.pivot_mono t ht t' htt)
  exact (hech.sumOfBefore_iff (hech.pivot_lt t ht).le).mp hsum t (ht.trans_le hech.le_rows)
    fun _ => le_rfl

/-- The rows from `lastRow` on have their pivots from column `j` on; so a column that is taken
for the row before and is not its pivot lies between two pivots. -/
theorem PivotsTaken.takenColumns_pivot (h : PivotsTaken numRows numCols A)
    (hech : Echelon numRows numCols A n pivot) {j lastRow : ℕ} (hj : j ≤ numCols)
    (hn : lastRow ≤ n) (hpivot : ∀ t, t + 1 = lastRow → pivot t < j)
    (hlater : ∀ t, lastRow ≤ t → t < n → j ≤ pivot t)
    (htaken : takenColumns A j lastRow = some taken) :
    ∀ p ∈ taken, p.1 < n ∧ p.2 = pivot p.1 := by
  induction j generalizing lastRow taken with
  | zero =>
      obtain rfl := Option.some.inj htaken
      exact fun p hp => absurd hp List.not_mem_nil
  | succ j ih =>
      cases lastRow with
      | zero => cases htaken
      | succ t =>
          have hpt := hpivot t rfl
          rw [takenColumns] at htaken
          split at htaken
          · next hzero =>
              refine ih (Nat.le_of_succ_le hj) hn (fun t' ht' => ?_)
                (fun t' ht' htn => Nat.le_of_succ_le (hlater t' ht' htn)) htaken
              obtain rfl := Nat.succ.inj ht'
              exact hech.pivot_lt_of_zero hn hpt hzero
          · next hone =>
              have heq : j = pivot t := by
                by_contra hne
                have hlt : pivot t < j := lt_of_le_of_ne (Nat.le_of_lt_succ hpt) (Ne.symm hne)
                exact hone (h.between hech hn hlt hj fun t' ht' htn => hlater t' ht' htn)
              obtain ⟨rest, hrest, rfl⟩ := Option.map_eq_some_iff.mp htaken
              intro p hp
              rcases List.mem_cons.mp hp with rfl | hp
              · exact ⟨hn, heq⟩
              · refine ih (Nat.le_of_succ_le hj) (Nat.le_of_succ_le hn) (fun t' ht' => ?_)
                  (fun t' ht' htn => ?_) hrest p hp
                · exact (hech.pivot_mono t hn t' (by omega)).trans_eq heq.symm
                · rcases Nat.lt_or_eq_of_le ht' with hlt | rfl
                  · exact Nat.le_of_succ_le (hlater t' hlt htn)
                  · exact heq.le

/-- A column that is taken as its row's pivot is zero below. -/
theorem PivotsTaken.settlesRows (h : PivotsTaken numRows numCols A) (hcols : 1 ≤ numCols) :
    SettlesRows numRows numCols A := by
  intro taken htaken p hp i hpi hi
  obtain ⟨pivot, hech⟩ : ∃ pivot, Echelon numRows numCols
      (eliminate numRows numCols A fun _ => 0).A
      (eliminate numRows numCols A fun _ => 0).nextRow pivot := echelon_eliminate
  have hR := pivotsTaken_eliminate.mpr h
  rw [hR.startRow_eq hcols hech] at htaken
  obtain ⟨hn, hcol⟩ := hR.takenColumns_pivot hech le_rfl le_rfl
    (fun t ht => hech.pivot_lt t (ht ▸ Nat.lt_succ_self t))
    (fun t ht htn => absurd htn (Nat.not_lt.mpr ht)) htaken p hp
  rw [hcol]
  exact hech.below p.1 hn i hpi hi

/-- Once a row is settled, the one before `lastRow` is. -/
theorem takenColumns_head {j t : ℕ} (htaken : takenColumns A j (t + 1) = some taken)
    (hne : taken ≠ []) : ∃ c, (t, c) ∈ taken := by
  induction j with
  | zero => exact absurd (Option.some.inj htaken).symm hne
  | succ j ih =>
      rw [takenColumns] at htaken
      split at htaken
      · exact ih htaken
      · obtain ⟨rest, -, rfl⟩ := Option.map_eq_some_iff.mp htaken
        exact ⟨j, List.mem_cons_self⟩

/-- In an echelon form every row is settled before the columns run out. -/
theorem mem_takenColumns (hech : Echelon numRows numCols A n pivot) {j lastRow : ℕ}
    (hn : lastRow ≤ n) (hpivot : ∀ t, t + 1 = lastRow → pivot t < j)
    (htaken : takenColumns A j lastRow = some taken) {t : ℕ} (ht : t < lastRow) :
    ∃ c, (t, c) ∈ taken := by
  induction j generalizing lastRow taken with
  | zero => exact absurd (hpivot (lastRow - 1) (by omega)) (Nat.not_lt_zero _)
  | succ j ih =>
      cases lastRow with
      | zero => cases ht
      | succ s =>
          have hps := hpivot s rfl
          rw [takenColumns] at htaken
          split at htaken
          · next hzero =>
              refine ih hn (fun s' hs' => ?_) htaken ht
              obtain rfl := Nat.succ.inj hs'
              exact hech.pivot_lt_of_zero hn hps hzero
          · obtain ⟨rest, hrest, rfl⟩ := Option.map_eq_some_iff.mp htaken
            rcases Nat.lt_or_eq_of_le (Nat.le_of_lt_succ ht) with hts | rfl
            · obtain ⟨c, hc⟩ := ih (Nat.le_of_succ_le hn)
                (fun s' hs' => (hech.pivot_mono s hn s' (by omega)).trans_le
                  (Nat.le_of_lt_succ hps)) hrest hts
              exact ⟨c, List.mem_cons_of_mem _ hc⟩
            · exact ⟨j, List.mem_cons_self⟩

/-- Between the column that is taken for a row and those taken for the rows below, the row is
zero. -/
theorem takenColumns_between {j lastRow t c k : ℕ} (htaken : takenColumns A j lastRow = some taken)
    (hmem : (t, c) ∈ taken) (hck : c < k) (hkj : k < j)
    (hbelow : ∀ p ∈ taken, t < p.1 → k < p.2) : A t k = 0 := by
  induction j generalizing lastRow taken with
  | zero => cases hkj
  | succ j ih =>
      cases lastRow with
      | zero => cases htaken
      | succ s =>
          rw [takenColumns] at htaken
          split at htaken
          · next hzero =>
              rcases Nat.lt_or_eq_of_le (Nat.le_of_lt_succ hkj) with hlt | rfl
              · exact ih htaken hmem hlt hbelow
              · -- the row before `lastRow` is settled by a column before this one
                obtain ⟨c', hc'⟩ := takenColumns_head htaken (List.ne_nil_of_mem hmem)
                have hts := Nat.le_of_lt_succ (takenColumns_lt htaken hmem).1
                rcases Nat.lt_or_eq_of_le hts with hts | rfl
                · exact absurd (hbelow _ hc' hts)
                    (Nat.lt_asymm (takenColumns_lt htaken hc').2)
                · exact hzero
          · obtain ⟨rest, hrest, rfl⟩ := Option.map_eq_some_iff.mp htaken
            rcases List.mem_cons.mp hmem with heq | hmem
            · obtain ⟨rfl, rfl⟩ := Prod.mk.inj heq
              exact absurd hkj (Nat.not_lt.mpr hck)
            · have hts := (takenColumns_lt hrest hmem).1
              exact ih hrest hmem (hbelow _ List.mem_cons_self hts)
                fun p hp => hbelow p (List.mem_cons_of_mem _ hp)

/-- Where a pivot is taken for each row, column by column, `PivotsTaken` is what lets this come
about. -/
theorem pivotsTaken_of_takenColumns (hcols : 1 ≤ numCols)
    (hech : Echelon numRows numCols A n pivot) (hstart : startRow numCols A numRows = n)
    (htaken : takenColumns A numCols n = some taken) (hall : ∀ p ∈ taken, p.2 = pivot p.1) :
    PivotsTaken numRows numCols A := by
  refine ⟨?_, fun k hk p hpk hp hsums => ?_⟩
  · obtain ⟨m, rfl⟩ := Nat.exists_eq_add_of_le' hcols
    cases n with
    | zero => cases htaken
    | succ t =>
        have hlast : A t m ≠ 0 := (startRow_eq_succ hstart).2
        rw [takenColumns, if_neg hlast] at htaken
        obtain ⟨rest, -, rfl⟩ := Option.map_eq_some_iff.mp htaken
        exact (hech.exists_pivot_iff (Nat.lt_succ_self m)).mp
          ⟨t, Nat.lt_succ_self t, (hall _ List.mem_cons_self).symm⟩
  · obtain ⟨t, ht, rfl⟩ := (hech.exists_pivot_iff (hpk.trans hk)).mpr hp
    -- no pivot lies between column `pivot t` and column `k`
    have hlater : ∀ i, t < i → i < n → k < pivot i := by
      intro i hti hi
      by_contra hle
      exact (hech.exists_pivot_iff (hech.pivot_lt i hi)).mp ⟨i, hi, rfl⟩
        (hsums _ (hech.pivot_mono i hi t hti) (Nat.le_of_not_lt hle))
    refine (hech.sumOfBefore_iff (hpk.trans hk).le).mpr fun i hi hpivot => ?_
    by_cases hin : i < n
    · rcases Nat.lt_trichotomy t i with hti | rfl | hit
      · exact hech.before i hin k (hlater i hti hin)
      · obtain ⟨c, hc⟩ := mem_takenColumns hech le_rfl
          (fun s hs => hech.pivot_lt s (hs ▸ Nat.lt_succ_self s)) htaken hin
        have hcol : c = pivot t := hall _ hc
        refine takenColumns_between htaken hc (hcol.trans_lt hpk) hk fun p hp htp => ?_
        rw [hall p hp]
        exact hlater p.1 htp (takenColumns_lt htaken hp).1
      · exact absurd (hpivot hin) (Nat.not_le.mpr (hech.pivot_mono t ht i hit))
    · exact hech.rest i (Nat.le_of_not_lt hin) hi k hk

/-- If the rows do not run out before the columns, `PivotsTaken` says exactly that the substitution
starts from the last pivot and takes for each row its own. -/
theorem pivotsTaken_iff (hcols : 1 ≤ numCols) {A : ℕ → ℕ → GF2}
    (hech : Echelon numRows numCols (eliminate numRows numCols A fun _ => 0).A n pivot)
    (htaken : takenColumns (eliminate numRows numCols A fun _ => 0).A numCols
      (startRow numCols (eliminate numRows numCols A fun _ => 0).A numRows) = some taken) :
    PivotsTaken numRows numCols A
      ↔ startRow numCols (eliminate numRows numCols A fun _ => 0).A numRows = n ∧
        ∀ p ∈ taken, p.2 = pivot p.1 := by
  rw [← pivotsTaken_eliminate]
  refine ⟨fun h => ?_, fun h => ?_⟩
  · have hstart := h.startRow_eq hcols hech
    rw [hstart] at htaken
    exact ⟨hstart, fun p hp => (h.takenColumns_pivot hech le_rfl le_rfl
      (fun t ht => hech.pivot_lt t (ht ▸ Nat.lt_succ_self t))
      (fun t ht htn => absurd htn (Nat.not_lt.mpr ht)) htaken p hp).2⟩
  · rw [h.1] at htaken
    exact pivotsTaken_of_takenColumns hcols hech h.1 htaken h.2

end Pivots

end MultiPartyPSI
