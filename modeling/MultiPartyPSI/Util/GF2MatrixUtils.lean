import MultiPartyPSI.Lib.Echelon
import MultiPartyPSI.Lib.LittleEndian
import MultiPartyPSI.Lib.Loop
import Mathlib.Algebra.Field.ZMod

/-!
# Linear systems over GF(2)

`GF2MatrixUtils.cpp`. `solve` eliminates column by column and then substitutes back, from
the last column to the first, one row for every column. It works on the assumption that
there is a pivot in every column: then it returns the only solution, or throws if there is
none. If there are fewer pivots it still throws when there is no solution; what it does when
there is one depends on how the rows came out.
-/

namespace MultiPartyPSI

open Lib Buf

abbrev GF2 := ZMod 2

/-- `vec_GF2FromBytes`, of the bytes from offset `p` on. -/
def vecGF2FromBytes (arr : Buf Byte) (p : ℕ) (k : ℕ) : GF2 := if arr.bit (8 * p + k) then 1 else 0

/-- `A`, `b` and `nextRow` of `solve`. -/
structure Elimination where
  A : ℕ → ℕ → GF2
  b : ℕ → GF2
  nextRow : ℕ

/-- The first row from `nextRow` on with a one in column `j`. -/
def findRow (numRows j : ℕ) (s : Elimination) : Option ℕ :=
  (List.range' s.nextRow (numRows - s.nextRow)).find? fun i => s.A i j = 1

/-- Column `j` of the elimination. -/
def eliminateColumn (numRows j : ℕ) (s : Elimination) : Elimination :=
  match findRow numRows j s with
  | none => s
  | some i =>
      let A := swapRows s.A s.nextRow i
      let b := swapRows s.b s.nextRow i
      { A := addRow A s.nextRow fun k => s.nextRow < k ∧ k < numRows ∧ A k j = 1
        b := addRow b s.nextRow fun k => s.nextRow < k ∧ k < numRows ∧ A k j = 1
        nextRow := s.nextRow + 1 }

/-- The elimination. -/
def eliminate (numRows numCols : ℕ) (A : ℕ → ℕ → GF2) (b : ℕ → GF2) : Elimination :=
  loop (eliminateColumn numRows) numCols ⟨A, b, 0⟩

/-- The `while` loop, with `lastRow + 1` as its argument; `none` is an exception. There is at least
one column. -/
def skipRows (numCols : ℕ) (A : ℕ → ℕ → GF2) (b : ℕ → GF2) : ℕ → Option ℕ
  | 0 => none
  | lastRow + 1 =>
      if A lastRow (numCols - 1) = 0 then
        if dot numCols (A lastRow) (fun _ => 0) ≠ b lastRow then none
        else skipRows numCols A b lastRow
      else some (lastRow + 1)

/-- The loop over the columns, with `j + 1` and `lastRow + 1` as its arguments. -/
def substituteBack (numCols : ℕ) (A : ℕ → ℕ → GF2) (b : ℕ → GF2) :
    ℕ → ℕ → (ℕ → GF2) → Option (ℕ → GF2)
  | 0, _, sol => some sol
  | _ + 1, 0, _ => none
  | j + 1, lastRow + 1, sol =>
      if A lastRow j = 0 then substituteBack numCols A b j (lastRow + 1) sol
      else substituteBack numCols A b j lastRow
        (if dot numCols (A lastRow) sol ≠ b lastRow then Function.update sol j 1 else sol)

/-- `solve`. -/
def solve (numRows numCols : ℕ) (A : ℕ → ℕ → GF2) (b : ℕ → GF2) : Option (ℕ → GF2) :=
  let s := eliminate numRows numCols A b
  (skipRows numCols s.A s.b numRows).bind fun lastRow =>
    substituteBack numCols s.A s.b numCols lastRow fun _ => 0

/-! ## Elimination -/

theorem eq_one_of_ne_zero {a : GF2} (h : a ≠ 0) : a = 1 := by
  revert a
  decide

section Eliminate

variable {numRows j : ℕ} {s : Elimination}

theorem findRow_some {i : ℕ} (h : findRow numRows j s = some i) :
    s.nextRow ≤ i ∧ i < numRows ∧ s.A i j = 1 := by
  have hmem := List.mem_of_find?_eq_some h
  have hone := List.find?_some h
  rw [List.mem_range'_1] at hmem
  exact ⟨hmem.1, by omega, of_decide_eq_true hone⟩

theorem findRow_none (h : findRow numRows j s = none) {i : ℕ} (hi : s.nextRow ≤ i)
    (hr : i < numRows) : s.A i j = 0 := by
  by_contra hne
  have hno := List.find?_eq_none.mp h i (List.mem_range'_1.mpr ⟨hi, by omega⟩)
  exact hno (decide_eq_true (eq_one_of_ne_zero hne))

/-- A column keeps the solutions. -/
theorem solves_eliminateColumn {cols : ℕ} {x : ℕ → GF2} :
    Solves numRows cols (eliminateColumn numRows j s).A (eliminateColumn numRows j s).b x
      ↔ Solves numRows cols s.A s.b x := by
  rw [eliminateColumn]
  split
  · exact Iff.rfl
  · next i hi =>
      obtain ⟨hle, hlt, -⟩ := findRow_some hi
      refine (solves_addRow (hle.trans_lt hlt) fun h => Nat.lt_irrefl _ h.1).trans ?_
      exact solves_swapRows (hle.trans_lt hlt) hlt

/-- A column keeps the echelon form. -/
theorem echelon_eliminateColumn {pivot : ℕ → ℕ} (h : Echelon numRows j s.A s.nextRow pivot) :
    ∃ pivot, Echelon numRows (j + 1) (eliminateColumn numRows j s).A
      (eliminateColumn numRows j s).nextRow pivot := by
  rw [eliminateColumn]
  split
  · next hnone => exact ⟨pivot, h.skip fun i hi hr => findRow_none hnone hi hr⟩
  · next i hi =>
      obtain ⟨hle, hlt, hone⟩ := findRow_some hi
      -- the rows that are moved have no pivot yet
      have hswap : ∀ k, s.nextRow ≤ k → k < numRows → ∀ c < j,
          swapRows s.A s.nextRow i k c = 0 := by
        intro k hk hkr c hc
        rw [swapRows]
        split
        · exact h.rest i hle hlt c hc
        · split
          · exact h.rest _ le_rfl (hle.trans_lt hlt) c hc
          · exact h.rest k hk hkr c hc
      have hpivot : swapRows s.A s.nextRow i s.nextRow = s.A i := if_pos rfl
      show ∃ pivot, Echelon numRows (j + 1)
        (addRow (swapRows s.A s.nextRow i) s.nextRow fun k =>
          s.nextRow < k ∧ k < numRows ∧ swapRows s.A s.nextRow i k j = 1) (s.nextRow + 1) pivot
      refine ⟨_, h.pivotAt (hle.trans_lt hlt) (fun t ht => ?_) ?_ (fun k hk hkr => ?_)
        fun k hk hkr c hc => ?_⟩
      · rw [addRow_of_not fun hS => Nat.lt_asymm ht hS.1, swapRows, if_neg (Nat.ne_of_lt ht),
          if_neg (Nat.ne_of_lt (ht.trans_le hle))]
      · rw [addRow_of_not fun hS => Nat.lt_irrefl _ hS.1, hpivot]
        exact hone
      · -- the pivot row is added where there is a one below the pivot
        by_cases hk1 : swapRows s.A s.nextRow i k j = 1
        · rw [addRow_of ⟨hk, hkr, hk1⟩, Pi.add_apply, hk1, hpivot, hone]
          rfl
        · rw [addRow_of_not fun hS => hk1 hS.2.2]
          by_contra hne
          exact hk1 (eq_one_of_ne_zero hne)
      · by_cases hS : s.nextRow < k ∧ k < numRows ∧ swapRows s.A s.nextRow i k j = 1
        · rw [addRow_of hS, Pi.add_apply, hswap k hk hkr c hc,
            hswap _ le_rfl (hle.trans_lt hlt) c hc, add_zero]
        · rw [addRow_of_not hS]
          exact hswap k hk hkr c hc

variable {numCols : ℕ} {A : ℕ → ℕ → GF2} {b : ℕ → GF2}

theorem solves_eliminate (numCols : ℕ) {cols : ℕ} {x : ℕ → GF2} :
    Solves numRows cols (eliminate numRows numCols A b).A (eliminate numRows numCols A b).b x
      ↔ Solves numRows cols A b x := by
  refine loop_induct (P := fun _ (s : Elimination) => Solves numRows cols s.A s.b x
    ↔ Solves numRows cols A b x) numCols Iff.rfl fun j s _ hs => ?_
  exact solves_eliminateColumn.trans hs

theorem echelon_eliminate : ∃ pivot, Echelon numRows numCols (eliminate numRows numCols A b).A
    (eliminate numRows numCols A b).nextRow pivot := by
  refine loop_induct
    (P := fun j (s : Elimination) => ∃ pivot, Echelon numRows j s.A s.nextRow pivot) numCols
    ⟨id, .start⟩ fun j s _ hs => ?_
  obtain ⟨pivot, hpivot⟩ := hs
  exact echelon_eliminateColumn hpivot

end Eliminate

/-! ## Substitution -/

section Substitute

variable {numRows numCols n : ℕ} {A : ℕ → ℕ → GF2} {b : ℕ → GF2}

/-- A row without a solution is found on the way up. -/
theorem skipRows_eq_none {i : ℕ} (hzero : ∀ k, n ≤ k → k < numRows → A k (numCols - 1) = 0)
    (hi : n ≤ i) (hr : i < numRows) (hb : b i ≠ 0) : skipRows numCols A b numRows = none := by
  induction numRows with
  | zero => cases hr
  | succ m ih =>
      rw [skipRows, if_pos (hzero m (hi.trans (Nat.le_of_lt_succ hr)) (Nat.lt_succ_self m)),
        dot_zero_right]
      rcases Nat.lt_or_eq_of_le (Nat.le_of_lt_succ hr) with hlt | rfl
      · split
        · rfl
        · exact ih (fun k hk hkm => hzero k hk (Nat.lt_succ_of_lt hkm)) hlt
      · rw [if_pos hb.symm]

/-- With a pivot in every column, the last one is in row `numCols - 1`. -/
theorem skipRows_eq_some (hcols : 1 ≤ numCols) (hle : numCols ≤ numRows)
    (hone : A (numCols - 1) (numCols - 1) = 1)
    (hzero : ∀ k, numCols ≤ k → k < numRows → A k (numCols - 1) = 0)
    (hb : ∀ k, numCols ≤ k → k < numRows → b k = 0) :
    skipRows numCols A b numRows = some numCols := by
  induction numRows with
  | zero => omega
  | succ m ih =>
      rcases Nat.lt_or_eq_of_le hle with hlt | rfl
      · have hm := Nat.le_of_lt_succ hlt
        rw [skipRows, if_pos (hzero m hm (Nat.lt_succ_self m)), dot_zero_right,
          if_neg (not_not_intro (hb m hm (Nat.lt_succ_self m)).symm)]
        exact ih hm (fun k hk hkm => hzero k hk (Nat.lt_succ_of_lt hkm))
          fun k hk hkm => hb k hk (Nat.lt_succ_of_lt hkm)
      · rw [Nat.add_sub_cancel] at hone
        rw [skipRows, Nat.add_sub_cancel, hone, if_neg one_ne_zero]

theorem add_one_eq {a c : GF2} (h : a ≠ c) : a + 1 = c := by
  revert a c
  decide

theorem settleRow_ne {P : Prop} [Decidable P] (sol : ℕ → GF2) {j k : ℕ} (hk : k ≠ j) :
    (if P then Function.update sol j 1 else sol) k = sol k := by
  split
  · exact Function.update_of_ne hk _ _
  · rfl

/-- A row that is zero in the column keeps its value. -/
theorem dot_settleRow_of_eq_zero {P : Prop} [Decidable P] {a : ℕ → GF2} {j : ℕ} (hj : j < numCols)
    (ha : a j = 0) (sol : ℕ → GF2) :
    dot numCols a (if P then Function.update sol j 1 else sol) = dot numCols a sol := by
  split
  · exact dot_update_of_eq_zero hj ha _
  · rfl

/-- The row the column is taken for gets its right-hand side. -/
theorem dot_settleRow {a : ℕ → GF2} {j : ℕ} (hj : j < numCols) (ha : a j = 1) {sol : ℕ → GF2}
    (hsol : sol j = 0) (c : GF2) :
    dot numCols a (if dot numCols a sol ≠ c then Function.update sol j 1 else sol) = c := by
  split
  · next hne =>
      rw [dot_update hj, ha, hsol, sub_zero, mul_one]
      exact add_one_eq hne
  · next heq => exact not_not.mp heq

/-- In a triangular system every row determines one entry, and the rows below stay right. -/
theorem substituteBack_triangular (hone : ∀ t < numCols, A t t = 1)
    (hbelow : ∀ t < numCols, ∀ i, t < i → i < numCols → A i t = 0) {j : ℕ} (hj : j ≤ numCols)
    {sol : ℕ → GF2} (hsol : ∀ k < j, sol k = 0)
    (hrows : ∀ i, j ≤ i → i < numCols → dot numCols (A i) sol = b i) :
    ∃ x, substituteBack numCols A b j j sol = some x ∧ Solves numCols numCols A b x := by
  induction j generalizing sol with
  | zero => exact ⟨sol, rfl, fun i hi => hrows i (Nat.zero_le i) hi⟩
  | succ j ih =>
      rw [substituteBack, hone j hj, if_neg one_ne_zero]
      refine ih (Nat.le_of_succ_le hj) (fun k hk => ?_) fun i hi hic => ?_
      · rw [settleRow_ne sol (Nat.ne_of_lt hk)]
        exact hsol k (Nat.lt_succ_of_lt hk)
      · -- a row below has a zero in this column; row `j` itself is made right
        rcases Nat.lt_or_eq_of_le hi with hlt | rfl
        · rw [dot_settleRow_of_eq_zero hj (hbelow j hj i hlt hic)]
          exact hrows i hlt hic
        · exact dot_settleRow hj (hone j hj) (hsol j (Nat.lt_succ_self j)) _

end Substitute

/-! ## Solving -/

section Solve

variable {numRows numCols : ℕ} {A : ℕ → ℕ → GF2} {b : ℕ → GF2}

/-- A system without a solution is always recognised. -/
theorem solve_eq_none (hcols : 1 ≤ numCols) (hno : ∀ x, ¬ Solves numRows numCols A b x) :
    solve numRows numCols A b = none := by
  obtain ⟨pivot, hech⟩ : ∃ pivot, Echelon numRows numCols (eliminate numRows numCols A b).A
      (eliminate numRows numCols A b).nextRow pivot := echelon_eliminate
  -- some row without a pivot has a right-hand side
  have hrow : ∃ i, (eliminate numRows numCols A b).nextRow ≤ i ∧ i < numRows ∧
      (eliminate numRows numCols A b).b i ≠ 0 := by
    by_contra hall
    push Not at hall
    obtain ⟨x, hx⟩ := hech.exists_solves_of_rest hall
    exact hno x ((solves_eliminate numCols).mp hx)
  obtain ⟨i, hi, hr, hb⟩ := hrow
  rw [solve, skipRows_eq_none (fun k hk hkr => hech.rest k hk hkr _ (by omega)) hi hr hb]
  rfl

/-- Elimination keeps the columns independent. -/
theorem determined_eliminate (hdet : Determined numRows numCols A) {x : ℕ → GF2}
    (hx : Solves numRows numCols A b x) :
    Determined numRows numCols (eliminate numRows numCols A b).A := by
  intro y hy k hk
  -- adding `y` to a solution gives another one
  have hxy : Solves numRows numCols (eliminate numRows numCols A b).A
      (eliminate numRows numCols A b).b fun k => x k + y k := by
    intro i hi
    rw [dot_add_right, (solves_eliminate numCols).mpr hx i hi, hy i hi, add_zero]
  have heq := hdet.unique ((solves_eliminate numCols).mp hxy) hx hk
  exact left_eq_add.mp heq.symm

/-- A system with independent columns is solved if it can be. -/
theorem exists_solve_eq_some (hcols : 1 ≤ numCols) (hdet : Determined numRows numCols A)
    {x : ℕ → GF2} (hx : Solves numRows numCols A b x) :
    ∃ x', solve numRows numCols A b = some x' ∧ ∀ k < numCols, x' k = x k := by
  obtain ⟨pivot, hech⟩ : ∃ pivot, Echelon numRows numCols (eliminate numRows numCols A b).A
      (eliminate numRows numCols A b).nextRow pivot := echelon_eliminate
  have hxs : Solves numRows numCols (eliminate numRows numCols A b).A
      (eliminate numRows numCols A b).b x := (solves_eliminate numCols).mpr hx
  have hdet' := determined_eliminate hdet hx
  have hn : (eliminate numRows numCols A b).nextRow = numCols :=
    le_antisymm hech.le_done (hech.le_of_determined hdet')
  rw [hn] at hech
  have hone : ∀ t < numCols, (eliminate numRows numCols A b).A t t = 1 := by
    intro t ht
    have h := hech.one t ht
    rwa [hech.pivot_eq ht] at h
  have hbelow : ∀ t < numCols, ∀ i, t < i → i < numRows →
      (eliminate numRows numCols A b).A i t = 0 := by
    intro t ht i hti hi
    have h := hech.below t ht i hti hi
    rwa [hech.pivot_eq ht] at h
  have hlast : numCols - 1 < numCols := by omega
  have hskip := skipRows_eq_some (b := (eliminate numRows numCols A b).b) hcols hech.le_rows
    (hone _ hlast) (fun k hk hkr => hech.rest k hk hkr _ hlast) fun k hk hkr => by
      rw [← hxs k hkr, dot_eq_zero (hech.rest k hk hkr)]
  obtain ⟨x', hsub, hx'⟩ : ∃ x', substituteBack numCols (eliminate numRows numCols A b).A
      (eliminate numRows numCols A b).b numCols numCols (fun _ => 0) = some x' ∧
      Solves numCols numCols (eliminate numRows numCols A b).A
        (eliminate numRows numCols A b).b x' :=
    substituteBack_triangular hone
      (fun t ht i hti hi => hbelow t ht i hti (hi.trans_le hech.le_rows)) le_rfl
      (fun _ _ => rfl) fun i hi hic => absurd hic (Nat.not_lt.mpr hi)
  refine ⟨x', ?_, fun k hk => ?_⟩
  · rw [solve, hskip]
    exact hsub
  · -- the rows that have no pivot hold anyway
    have hsolves : Solves numRows numCols (eliminate numRows numCols A b).A
        (eliminate numRows numCols A b).b x' := by
      intro i hi
      by_cases hic : i < numCols
      · exact hx' i hic
      · have hci := Nat.le_of_not_lt hic
        rw [dot_eq_zero (hech.rest i hci hi), ← hxs i hi, dot_eq_zero (hech.rest i hci hi)]
    exact hdet.unique ((solves_eliminate numCols).mp hsolves) hx hk

end Solve

end MultiPartyPSI
