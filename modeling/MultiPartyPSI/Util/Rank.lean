import MultiPartyPSI.Util.GF2MatrixUtils
import Mathlib.LinearAlgebra.LinearIndependent.Basic

/-!
# What `solve` does, by the rank of the columns

With independent columns `solve` decides the system. With dependent ones the substitution
takes for a row the last column in which the row has a one, whether its pivot is there or not.
A row that is settled stays right only if it has a zero in all columns taken later, so
`SettlesRows` asks for this. For every matrix without it there is a right-hand side for which
`solve` returns a vector that is no solution.
-/

namespace MultiPartyPSI

open Lib Buf

/-! ## Independent columns -/

section Columns

variable {numRows numCols : ℕ} {A : ℕ → ℕ → GF2} {b : ℕ → GF2}

/-- Column `c` as a vector. -/
def column (A : ℕ → ℕ → GF2) (numRows c : ℕ) (i : Fin numRows) : GF2 := A i c

theorem sum_column_apply (x : ℕ → GF2) (i : Fin numRows) :
    (∑ c : Fin numCols, x c • column A numRows c) i = dot numCols (A i) x := by
  rw [Finset.sum_apply, dot, Finset.sum_range]
  refine Finset.sum_congr rfl fun c _ => ?_
  rw [Pi.smul_apply, smul_eq_mul, column, mul_comm]

theorem determined_of_linearIndependent
    (h : LinearIndependent GF2 (fun c : Fin numCols => column A numRows c)) :
    Determined numRows numCols A := by
  intro x hx k hk
  refine Fintype.linearIndependent_iff.mp h (fun c => x c) ?_ ⟨k, hk⟩
  funext i
  rw [sum_column_apply x i]
  exact hx i i.isLt

/-- Solving means writing the right-hand side by the columns. -/
theorem not_solves_of_notMem_span (h : (fun i : Fin numRows => b i) ∉
    Submodule.span GF2 (Set.range fun c : Fin numCols => column A numRows c)) (x : ℕ → GF2) :
    ¬ Solves numRows numCols A b x := by
  intro hx
  have hsum : (fun i : Fin numRows => b i) = ∑ c : Fin numCols, x c • column A numRows c := by
    funext i
    rw [sum_column_apply x i]
    exact (hx i i.isLt).symm
  refine h ?_
  rw [hsum]
  exact Submodule.sum_mem _ fun c _ =>
    Submodule.smul_mem _ _ (Submodule.subset_span ⟨c, rfl⟩)

/-- **Systems with independent columns are decided**: `solve` returns the only solution, and throws
if there is none. -/
theorem solve_of_linearIndependent (hcols : 1 ≤ numCols)
    (hind : LinearIndependent GF2 (fun c : Fin numCols => column A numRows c)) (b : ℕ → GF2) :
    (∀ x, Solves numRows numCols A b x → ∃ x', solve numRows numCols A b = some x' ∧
        Solves numRows numCols A b x' ∧
        ∀ y, Solves numRows numCols A b y → ∀ k < numCols, y k = x' k) ∧
      ((¬ ∃ x, Solves numRows numCols A b x) → solve numRows numCols A b = none) := by
  have hdet := determined_of_linearIndependent hind
  refine ⟨fun x hx => ?_, fun hno => solve_eq_none hcols fun x hx => hno ⟨x, hx⟩⟩
  obtain ⟨x', hx', hsame⟩ := exists_solve_eq_some hcols hdet hx
  have hsol : Solves numRows numCols A b x' := by
    intro i hi
    rw [← hx i hi]
    exact dot_congr hsame
  exact ⟨x', hx', hsol, fun y hy k hk => hdet.unique hy hsol hk⟩

/-- The columns with the bits of `columns`. -/
def bitColumns (columns : List ℕ) (i c : ℕ) : GF2 :=
  if (columns.getD c 0).testBit i then 1 else 0

/-- Two independent columns in three rows: they span `101`, and they do not span `111`. -/
theorem solve_of_linearIndependent_three :
    (∃ x, solve 3 2 (bitColumns [0b011, 0b110]) (bitColumns [0b101] · 0) = some x ∧
        x 0 = 1 ∧ x 1 = 1) ∧
      solve 3 2 (bitColumns [0b011, 0b110]) (bitColumns [0b111] · 0) = none := by
  have hind : LinearIndependent GF2 fun c : Fin 2 => column (bitColumns [0b011, 0b110]) 3 c :=
    Fintype.linearIndependent_iff.mpr (by decide)
  have hboth : Solves 3 2 (bitColumns [0b011, 0b110]) (bitColumns [0b101] · 0) fun _ => 1 := by
    unfold Solves
    decide
  obtain ⟨x, hx, -, hall⟩ := (solve_of_linearIndependent (by decide) hind
    (bitColumns [0b101] · 0)).1 _ hboth
  refine ⟨⟨x, hx, (hall _ hboth 0 (by decide)).symm, (hall _ hboth 1 (by decide)).symm⟩, ?_⟩
  refine (solve_of_linearIndependent (by decide) hind _).2 fun hex => ?_
  obtain ⟨y, hy⟩ := hex
  -- the first row asks for column 0 and the last one for column 1, and the middle one for one only
  have hdot : ∀ a, dot 2 a y = a 0 * y 0 + a 1 * y 1 := fun a => by
    rw [dot, Finset.sum_range_succ, Finset.sum_range_one]
  have hno : ∀ y₀ y₁, ¬ ∀ i < 3, bitColumns [0b011, 0b110] i 0 * y₀
      + bitColumns [0b011, 0b110] i 1 * y₁ = bitColumns [0b111] i 0 := by
    decide
  exact hno (y 0) (y 1) fun i hi => (hdot _).symm.trans (hy i hi)

end Columns

/-! ## The columns that are taken -/

section Taken

/-- The row that `skipRows` comes to if no row throws, as there with one added. -/
def startRow (numCols : ℕ) (A : ℕ → ℕ → GF2) : ℕ → ℕ
  | 0 => 0
  | lastRow + 1 =>
      if A lastRow (numCols - 1) = 0 then startRow numCols A lastRow else lastRow + 1

/-- The rows that `substituteBack` settles, each with the column that is taken for its pivot; `none`
if the rows run out before the columns. -/
def takenColumns (A : ℕ → ℕ → GF2) : ℕ → ℕ → Option (List (ℕ × ℕ))
  | 0, _ => some []
  | _ + 1, 0 => none
  | j + 1, lastRow + 1 =>
      if A lastRow j = 0 then takenColumns A j (lastRow + 1)
      else (takenColumns A j lastRow).map fun taken => (lastRow, j) :: taken

/-- The rows of the eliminated matrix run out, or every column that is taken for a row is zero in
all rows below it. -/
def SettlesRows (numRows numCols : ℕ) (A : ℕ → ℕ → GF2) : Prop :=
  let R := (eliminate numRows numCols A fun _ => 0).A
  ∀ taken, takenColumns R numCols (startRow numCols R numRows) = some taken →
    ∀ p ∈ taken, ∀ i, p.1 < i → i < numRows → R i p.2 = 0

instance (numRows numCols : ℕ) (A : ℕ → ℕ → GF2) : Decidable (SettlesRows numRows numCols A) :=
  decidable_of_iff (∀ taken ∈ takenColumns (eliminate numRows numCols A fun _ => 0).A numCols
      (startRow numCols (eliminate numRows numCols A fun _ => 0).A numRows),
    ∀ p ∈ taken, ∀ i < numRows, p.1 < i → (eliminate numRows numCols A fun _ => 0).A i p.2 = 0)
    ⟨fun h taken ht p hp i hpi hi => h taken ht p hp i hi hpi,
      fun h taken ht p hp i hi hpi => h taken ht p hp i hpi hi⟩

variable {numRows numCols n : ℕ} {A : ℕ → ℕ → GF2} {b : ℕ → GF2} {taken : List (ℕ × ℕ)}

theorem skipRows_some {lastRow : ℕ} (h : skipRows numCols A b numRows = some lastRow) :
    lastRow = startRow numCols A numRows ∧ ∀ i, lastRow ≤ i → i < numRows → b i = 0 := by
  induction numRows with
  | zero => cases h
  | succ m ih =>
      rw [skipRows, dot_zero_right] at h
      rw [startRow]
      split at h
      · next hzero =>
          rw [if_pos hzero]
          split at h
          · cases h
          · next hb =>
              obtain ⟨hrow, hrest⟩ := ih h
              refine ⟨hrow, fun i hi him => ?_⟩
              rcases Nat.lt_or_eq_of_le (Nat.le_of_lt_succ him) with hlt | rfl
              · exact hrest i hi hlt
              · exact (not_not.mp hb).symm
      · next hone =>
          rw [if_neg hone]
          obtain rfl := Option.some.inj h
          exact ⟨rfl, fun i hi him => absurd him (Nat.not_lt.mpr hi)⟩

theorem startRow_eq_succ {t : ℕ} (h : startRow numCols A numRows = t + 1) :
    t < numRows ∧ A t (numCols - 1) ≠ 0 := by
  induction numRows with
  | zero => cases h
  | succ m ih =>
      rw [startRow] at h
      split at h
      · obtain ⟨hlt, hone⟩ := ih h
        exact ⟨Nat.lt_succ_of_lt hlt, hone⟩
      · next hone =>
          obtain rfl := Nat.succ.inj h
          exact ⟨Nat.lt_succ_self m, hone⟩

theorem startRow_le : startRow numCols A numRows ≤ numRows := by
  cases h : startRow numCols A numRows with
  | zero => exact Nat.zero_le _
  | succ t => exact (startRow_eq_succ h).1

theorem skipRows_of_startRow (hpos : 0 < startRow numCols A numRows)
    (hb : ∀ i, startRow numCols A numRows ≤ i → b i = 0) :
    skipRows numCols A b numRows = some (startRow numCols A numRows) := by
  induction numRows with
  | zero => cases hpos
  | succ m ih =>
      rw [startRow] at hpos hb ⊢
      rw [skipRows, dot_zero_right]
      split
      · next hzero =>
          rw [if_pos hzero] at hpos hb
          rw [if_neg (not_not_intro (hb m startRow_le).symm)]
          exact ih hpos hb
      · rfl

/-- The substitution returns only if every column has a row. -/
theorem exists_takenColumns {j lastRow : ℕ} {sol x : ℕ → GF2}
    (h : substituteBack numCols A b j lastRow sol = some x) :
    ∃ taken, takenColumns A j lastRow = some taken := by
  induction j generalizing lastRow sol with
  | zero => exact ⟨[], rfl⟩
  | succ j ih =>
      cases lastRow with
      | zero => cases h
      | succ lastRow =>
          rw [substituteBack] at h
          rw [takenColumns]
          split at h
          · next hzero =>
              rw [if_pos hzero]
              exact ih h
          · next hone =>
              obtain ⟨taken, htaken⟩ := ih h
              rw [if_neg hone, htaken]
              exact ⟨_, rfl⟩

theorem takenColumns_lt {j lastRow : ℕ} (h : takenColumns A j lastRow = some taken)
    {p : ℕ × ℕ} (hp : p ∈ taken) : p.1 < lastRow ∧ p.2 < j := by
  induction j generalizing lastRow taken with
  | zero =>
      obtain rfl := Option.some.inj h
      cases hp
  | succ j ih =>
      cases lastRow with
      | zero => cases h
      | succ lastRow =>
          rw [takenColumns] at h
          split at h
          · obtain ⟨hrow, hcol⟩ := ih h hp
            exact ⟨hrow, Nat.lt_succ_of_lt hcol⟩
          · obtain ⟨rest, hrest, rfl⟩ := Option.map_eq_some_iff.mp h
            rcases List.mem_cons.mp hp with rfl | hp
            · exact ⟨Nat.lt_succ_self _, Nat.lt_succ_self _⟩
            · obtain ⟨hrow, hcol⟩ := ih hrest hp
              exact ⟨Nat.lt_succ_of_lt hrow, Nat.lt_succ_of_lt hcol⟩

/-! ### Returned vectors are solutions -/

/-- The pivot of the row that is next lies among the columns left, so the rows are used up
with the columns; and a row that is settled is not disturbed by the columns taken later. -/
theorem solves_of_substituteBack {pivot : ℕ → ℕ} (hech : Echelon numRows numCols A n pivot)
    {j lastRow : ℕ} (hj : j ≤ numCols) (hn : lastRow ≤ n)
    (hpivot : ∀ t, t + 1 = lastRow → pivot t < j) {sol x : ℕ → GF2}
    (hsol : ∀ k < j, sol k = 0)
    (hrows : ∀ i, lastRow ≤ i → i < numRows → dot numCols (A i) sol = b i)
    (htaken : takenColumns A j lastRow = some taken)
    (hclear : ∀ p ∈ taken, ∀ i, p.1 < i → i < numRows → A i p.2 = 0)
    (h : substituteBack numCols A b j lastRow sol = some x) : Solves numRows numCols A b x := by
  induction j generalizing lastRow sol taken with
  | zero =>
      obtain rfl := Option.some.inj h
      cases lastRow with
      | zero => exact fun i hi => hrows i (Nat.zero_le i) hi
      | succ t => exact absurd (hpivot t rfl) (Nat.not_lt_zero _)
  | succ j ih =>
      cases lastRow with
      | zero => cases h
      | succ t =>
          have hpt := hpivot t rfl
          rw [substituteBack] at h
          rw [takenColumns] at htaken
          split at h
          · next hzero =>
              rw [if_pos hzero] at htaken
              refine ih (Nat.le_of_succ_le hj) hn (fun t' ht' => ?_)
                (fun k hk => hsol k (Nat.lt_succ_of_lt hk)) hrows htaken hclear h
              obtain rfl := Nat.succ.inj ht'
              exact hech.pivot_lt_of_zero hn hpt hzero
          · next hone =>
              rw [if_neg hone] at htaken
              obtain ⟨rest, hrest, rfl⟩ := Option.map_eq_some_iff.mp htaken
              have hbelow := hclear _ List.mem_cons_self
              refine ih (Nat.le_of_succ_le hj) (Nat.le_of_succ_le hn) (fun t' ht' => ?_)
                (fun k hk => ?_) (fun i hi hir => ?_) hrest
                (fun p hp => hclear p (List.mem_cons_of_mem _ hp)) h
              · exact (hech.pivot_mono t hn t' (by omega)).trans_le (Nat.le_of_lt_succ hpt)
              · rw [settleRow_ne sol (Nat.ne_of_lt hk)]
                exact hsol k (Nat.lt_succ_of_lt hk)
              · rcases Nat.lt_or_eq_of_le hi with hlt | rfl
                · rw [dot_settleRow_of_eq_zero hj (hbelow i hlt hir)]
                  exact hrows i hlt hir
                · exact dot_settleRow hj (eq_one_of_ne_zero hone) (hsol j (Nat.lt_succ_self j)) _

/-! ### A right-hand side that goes wrong -/

/-- Where every row is right already, nothing is changed. -/
theorem substituteBack_of_dot {j lastRow : ℕ} (htaken : takenColumns A j lastRow = some taken)
    {sol : ℕ → GF2} (hrows : ∀ i < lastRow, dot numCols (A i) sol = b i) :
    substituteBack numCols A b j lastRow sol = some sol := by
  induction j generalizing lastRow taken with
  | zero => rfl
  | succ j ih =>
      cases lastRow with
      | zero => cases htaken
      | succ t =>
          rw [takenColumns] at htaken
          rw [substituteBack]
          split at htaken
          · next hzero =>
              rw [if_pos hzero]
              exact ih htaken hrows
          · next hone =>
              obtain ⟨rest, hrest, -⟩ := Option.map_eq_some_iff.mp htaken
              rw [if_neg hone, if_neg (not_not_intro (hrows t (Nat.lt_succ_self t)))]
              exact ih hrest fun i hi => hrows i (Nat.lt_succ_of_lt hi)

theorem dot_unit (a : ℕ → GF2) {c : ℕ} (hc : c < numCols) :
    dot numCols a (Function.update (fun _ => 0) c 1) = a c := by
  rw [dot_update hc, dot_zero_right, zero_add, sub_zero, mul_one]

/-- With column `c`, down to the row for which it is taken, as the right-hand side, only `c` is
set. -/
theorem substituteBack_unit {j lastRow t c : ℕ} (hj : j ≤ numCols)
    (htaken : takenColumns A j lastRow = some taken) (hmem : (t, c) ∈ taken)
    (hb : ∀ i ≤ t, b i = A i c) (hrest : ∀ i, t < i → b i = 0) :
    substituteBack numCols A b j lastRow (fun _ => 0)
      = some (Function.update (fun _ => 0) c 1) := by
  induction j generalizing lastRow taken with
  | zero =>
      obtain rfl := Option.some.inj htaken
      cases hmem
  | succ j ih =>
      cases lastRow with
      | zero => cases htaken
      | succ s =>
          rw [takenColumns] at htaken
          rw [substituteBack, dot_zero_right]
          split at htaken
          · next hzero =>
              rw [if_pos hzero]
              exact ih (Nat.le_of_succ_le hj) htaken hmem
          · next hone =>
              obtain ⟨rest, hsome, rfl⟩ := Option.map_eq_some_iff.mp htaken
              rw [if_neg hone]
              rcases List.mem_cons.mp hmem with heq | htail
              · -- the row for which `c` is taken
                obtain ⟨rfl, rfl⟩ := Prod.mk.inj heq
                rw [hb t le_rfl, if_pos (Ne.symm hone)]
                refine substituteBack_of_dot hsome fun i hi => ?_
                rw [dot_unit _ hj, hb i hi.le]
              · have hts : t < s := (takenColumns_lt hsome htail).1
                rw [hrest s hts, if_neg (not_not_intro rfl)]
                exact ih (Nat.le_of_succ_le hj) hsome htail

end Taken

/-! ## Every right-hand side comes up -/

section RightHandSide

variable {numRows numCols : ℕ}

theorem addRow_addRow (f : ℕ → GF2) {p : ℕ} {S : ℕ → Prop} [DecidablePred S] (hS : ¬ S p) :
    addRow (addRow f p S) p S = f := by
  funext k
  by_cases hk : S k
  · rw [addRow_of hk, addRow_of hk, addRow_of_not hS, add_assoc, CharTwo.add_self_eq_zero, add_zero]
  · rw [addRow_of_not hk, addRow_of_not hk]

/-- The pivot is looked for in the matrix alone. -/
theorem eliminateColumn_A (j : ℕ) (s : Elimination) (b : ℕ → GF2) :
    ∃ b', eliminateColumn numRows j { s with b := b }
      = { eliminateColumn numRows j s with b := b' } := by
  cases hrow : findRow numRows j s with
  | none =>
      have hrow' : findRow numRows j { s with b := b } = none := hrow
      refine ⟨b, ?_⟩
      rw [eliminateColumn, hrow', eliminateColumn, hrow]
  | some i =>
      have hrow' : findRow numRows j { s with b := b } = some i := hrow
      rw [eliminateColumn, hrow', eliminateColumn, hrow]
      exact ⟨_, rfl⟩

/-- A column can leave any right-hand side: its row operations can be undone. -/
theorem exists_eliminateColumn (numRows j : ℕ) (s : Elimination) (b : ℕ → GF2) :
    ∃ b', eliminateColumn numRows j { s with b := b' }
      = { eliminateColumn numRows j s with b := b } := by
  cases hrow : findRow numRows j s with
  | none =>
      refine ⟨b, ?_⟩
      have hrow' : findRow numRows j { s with b := b } = none := hrow
      rw [eliminateColumn, hrow', eliminateColumn, hrow]
  | some i =>
      have hrow' : ∀ b', findRow numRows j { s with b := b' } = some i := fun _ => hrow
      refine ⟨swapRows (addRow b s.nextRow fun k => s.nextRow < k ∧ k < numRows ∧
        swapRows s.A s.nextRow i k j = 1) s.nextRow i, ?_⟩
      rw [eliminateColumn, hrow', eliminateColumn, hrow]
      dsimp only
      rw [swapRows_swapRows, addRow_addRow b fun hS => Nat.lt_irrefl _ hS.1]

theorem eliminate_succ (A : ℕ → ℕ → GF2) (b : ℕ → GF2) :
    eliminate numRows (numCols + 1) A b
      = eliminateColumn numRows numCols (eliminate numRows numCols A b) := rfl

/-- Elimination can leave any right-hand side. -/
theorem exists_eliminate (numRows numCols : ℕ) (A : ℕ → ℕ → GF2) (b : ℕ → GF2) :
    ∃ b', eliminate numRows numCols A b'
      = { eliminate numRows numCols A fun _ => 0 with b := b } := by
  induction numCols generalizing b with
  | zero => exact ⟨b, rfl⟩
  | succ j ih =>
      obtain ⟨b₁, hb₁⟩ := exists_eliminateColumn numRows j
        (eliminate numRows j A fun _ => 0) b
      obtain ⟨b', hb'⟩ := ih b₁
      refine ⟨b', ?_⟩
      rw [eliminate_succ, hb', hb₁]
      rfl

/-- What elimination does to the matrix does not depend on the right-hand side. -/
theorem eliminate_A (numRows numCols : ℕ) (A : ℕ → ℕ → GF2) (b : ℕ → GF2) :
    ∃ b', eliminate numRows numCols A b
      = { eliminate numRows numCols A fun _ => 0 with b := b' } := by
  induction numCols with
  | zero => exact ⟨b, rfl⟩
  | succ j ih =>
      obtain ⟨b₁, hb₁⟩ := ih
      rw [eliminate_succ, hb₁]
      exact eliminateColumn_A j _ b₁

end RightHandSide

section Solve

variable {numRows numCols : ℕ}

/-- For each column that is taken there is a right-hand side of which `solve` sets that column
alone: the column itself down to the row it is taken for, and nothing below. -/
theorem exists_solve_unit {A : ℕ → ℕ → GF2} {taken : List (ℕ × ℕ)} {t c : ℕ}
    (htaken : takenColumns (eliminate numRows numCols A fun _ => 0).A numCols
      (startRow numCols (eliminate numRows numCols A fun _ => 0).A numRows) = some taken)
    (hmem : (t, c) ∈ taken) :
    ∃ b b', eliminate numRows numCols A b
        = { eliminate numRows numCols A fun _ => 0 with b := b' } ∧
      (∀ i, t < i → b' i = 0) ∧
      solve numRows numCols A b = some (Function.update (fun _ => 0) c 1) := by
  obtain ⟨htrow, -⟩ := takenColumns_lt htaken hmem
  obtain ⟨b, hb⟩ := exists_eliminate numRows numCols A fun k =>
    if k ≤ t then (eliminate numRows numCols A fun _ => 0).A k c else 0
  have hbelow : ∀ k, t < k →
      (if k ≤ t then (eliminate numRows numCols A fun _ => 0).A k c else 0) = 0 :=
    fun k hk => if_neg (Nat.not_le.mpr hk)
  refine ⟨b, _, hb, hbelow, ?_⟩
  have hskip := skipRows_of_startRow (Nat.zero_lt_of_lt htrow)
    fun k hk => hbelow k (htrow.trans_le hk)
  rw [solve, hb]
  dsimp only
  rw [hskip]
  exact substituteBack_unit le_rfl htaken hmem (fun k hk => if_pos hk) hbelow

/-- A matrix of which only solutions are returned has its rows settled. -/
theorem settlesRows_of_sound {A : ℕ → ℕ → GF2}
    (hsound : ∀ b x, solve numRows numCols A b = some x → Solves numRows numCols A b x) :
    SettlesRows numRows numCols A := by
  intro taken htaken p hp i hpi hi
  by_contra hne
  obtain ⟨t, c⟩ := p
  obtain ⟨-, hc⟩ := takenColumns_lt htaken hp
  obtain ⟨b, b', hb, hbelow, hsolve⟩ := exists_solve_unit htaken hp
  -- the one that column `c` has in row `i` is left over
  have hrow := (solves_eliminate numCols).mpr (hsound b _ hsolve) i hi
  rw [hb] at hrow
  dsimp only at hrow
  rw [dot_unit _ hc, hbelow i hpi] at hrow
  exact hne hrow

/-- The row the substitution starts from has a one in the last column, so it has a pivot. -/
theorem startRow_le_nextRow {s : Elimination} {pivot : ℕ → ℕ} (hcols : 1 ≤ numCols)
    (hech : Echelon numRows numCols s.A s.nextRow pivot) :
    startRow numCols s.A numRows ≤ s.nextRow := by
  cases hrow : startRow numCols s.A numRows with
  | zero => exact Nat.zero_le _
  | succ t =>
      obtain ⟨hlt, hone⟩ := startRow_eq_succ hrow
      have hlast : numCols - 1 < numCols := by omega
      by_contra hge
      exact hone (hech.rest t (Nat.le_of_not_lt hge) hlt _ hlast)

/-- Where the rows are settled, what is returned is a solution. -/
theorem SettlesRows.solves {A : ℕ → ℕ → GF2} {b x : ℕ → GF2} (hcols : 1 ≤ numCols)
    (hclear : SettlesRows numRows numCols A) (hx : solve numRows numCols A b = some x) :
    Solves numRows numCols A b x := by
  obtain ⟨pivot, hech⟩ : ∃ pivot, Echelon numRows numCols (eliminate numRows numCols A b).A
      (eliminate numRows numCols A b).nextRow pivot := echelon_eliminate
  obtain ⟨b', hb'⟩ := eliminate_A numRows numCols A b
  refine (solves_eliminate numCols).mp ?_
  rw [solve] at hx
  obtain ⟨lastRow, hskip, hsub⟩ := Option.bind_eq_some_iff.mp hx
  rw [hb'] at hech hskip hsub ⊢
  obtain ⟨rfl, hrest⟩ := skipRows_some hskip
  obtain ⟨taken, htaken⟩ := exists_takenColumns hsub
  have hstart := startRow_le_nextRow hcols hech
  refine solves_of_substituteBack hech le_rfl hstart
    (fun t ht => hech.pivot_lt t (Nat.lt_of_lt_of_le (ht ▸ Nat.lt_succ_self t) hstart))
    (fun _ _ => rfl) (fun i hi hir => ?_) htaken (hclear taken htaken) hsub
  rw [dot_zero_right, hrest i hi hir]

/-- **When `solve` returns only solutions**: exactly for the matrices whose rows, once settled,
are not disturbed by the columns taken after them. -/
theorem solve_sound_iff (hcols : 1 ≤ numCols) (A : ℕ → ℕ → GF2) :
    (∀ b x, solve numRows numCols A b = some x → Solves numRows numCols A b x)
      ↔ SettlesRows numRows numCols A :=
  ⟨settlesRows_of_sound, fun hclear _ _ hx => hclear.solves hcols hx⟩

end Solve

end MultiPartyPSI
