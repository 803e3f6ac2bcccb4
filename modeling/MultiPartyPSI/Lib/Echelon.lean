import Mathlib.Algebra.BigOperators.Fin
import Mathlib.LinearAlgebra.Dimension.Constructions
import Mathlib.LinearAlgebra.FiniteDimensional.Lemmas

/-!
# Elimination

A system of linear equations is a family of rows `A i` with right-hand sides `b i`. Swapping
two rows and adding one row to others keep its solutions. Elimination goes from column to
column; what it has reached is an echelon form: some rows with a pivot each, and below a
pivot only zeros, also in the rows that have no pivot yet.

The rows with pivots can always be solved. If no two vectors solve the same system, there
is a pivot in every column, and then the form is triangular.
-/

namespace Lib

variable {K : Type*}

/-- Two rows exchanged. -/
def swapRows {α : Type*} (f : ℕ → α) (p q k : ℕ) : α :=
  if k = p then f q else if k = q then f p else f k

/-- Row `p` added to the rows with `S`. -/
def addRow {α : Type*} [Add α] (f : ℕ → α) (p : ℕ) (S : ℕ → Prop) [DecidablePred S] (k : ℕ) : α :=
  if S k then f k + f p else f k

/-- Exchanging the rows again. -/
theorem swapRows_swapRows {α : Type*} (f : ℕ → α) (p q : ℕ) :
    swapRows (swapRows f p q) p q = f := by
  funext k
  simp only [swapRows]
  split_ifs with h1 h2 h3 <;> simp_all

theorem addRow_of {α : Type*} [Add α] {f : ℕ → α} {p : ℕ} {S : ℕ → Prop} [DecidablePred S] {k : ℕ}
    (h : S k) : addRow f p S k = f k + f p := if_pos h

theorem addRow_of_not {α : Type*} [Add α] {f : ℕ → α} {p : ℕ} {S : ℕ → Prop} [DecidablePred S]
    {k : ℕ} (h : ¬ S k) : addRow f p S k = f k := if_neg h

section Dot

variable [CommRing K] {n : ℕ}

/-- The inner product of the first `n` entries. -/
def dot (n : ℕ) (a x : ℕ → K) : K := ∑ k ∈ Finset.range n, a k * x k

theorem dot_add_left (a a' x : ℕ → K) : dot n (a + a') x = dot n a x + dot n a' x := by
  simp only [dot, Pi.add_apply, add_mul, Finset.sum_add_distrib]

theorem dot_eq_zero {a x : ℕ → K} (h : ∀ k < n, a k = 0) : dot n a x = 0 :=
  Finset.sum_eq_zero fun k hk => by rw [h k (Finset.mem_range.mp hk), zero_mul]

theorem dot_zero_right (a : ℕ → K) : dot n a (fun _ => 0) = 0 :=
  Finset.sum_eq_zero fun k _ => mul_zero (a k)

theorem dot_congr {a x x' : ℕ → K} (h : ∀ k < n, x k = x' k) : dot n a x = dot n a x' :=
  Finset.sum_congr rfl fun k hk => by rw [h k (Finset.mem_range.mp hk)]

theorem dot_add_right (a x x' : ℕ → K) :
    dot n a (fun k => x k + x' k) = dot n a x + dot n a x' := by
  simp only [dot, mul_add, Finset.sum_add_distrib]

theorem dot_sub_right (a x x' : ℕ → K) :
    dot n a (fun k => x k - x' k) = dot n a x - dot n a x' := by
  simp only [dot, mul_sub, Finset.sum_sub_distrib]

/-- One entry changed. -/
theorem dot_update {a x : ℕ → K} {j : ℕ} (hj : j < n) (v : K) :
    dot n a (Function.update x j v) = dot n a x + a j * (v - x j) := by
  have hmem := Finset.mem_range.mpr hj
  rw [dot, dot, ← Finset.add_sum_erase _ _ hmem, ← Finset.add_sum_erase _ (fun k => a k * x k) hmem,
    Function.update_self]
  have hrest : ∀ k ∈ (Finset.range n).erase j, a k * Function.update x j v k = a k * x k := by
    intro k hk
    rw [Function.update_of_ne (Finset.ne_of_mem_erase hk)]
  rw [Finset.sum_congr rfl hrest]
  ring

/-- A change where the row is zero. -/
theorem dot_update_of_eq_zero {a x : ℕ → K} {j : ℕ} (hj : j < n) (ha : a j = 0) (v : K) :
    dot n a (Function.update x j v) = dot n a x := by
  rw [dot_update hj, ha, zero_mul, add_zero]

end Dot

section Systems

variable [CommRing K] {rows cols : ℕ} {A : ℕ → ℕ → K} {b x : ℕ → K}

/-- `x` solves the system. -/
def Solves (rows cols : ℕ) (A : ℕ → ℕ → K) (b x : ℕ → K) : Prop :=
  ∀ i < rows, dot cols (A i) x = b i

theorem solves_swapRows {p q : ℕ} (hp : p < rows) (hq : q < rows) :
    Solves rows cols (swapRows A p q) (swapRows b p q) x ↔ Solves rows cols A b x := by
  have hone : ∀ {A : ℕ → ℕ → K} {b : ℕ → K}, Solves rows cols A b x →
      Solves rows cols (swapRows A p q) (swapRows b p q) x := by
    intro A b h i hi
    rw [swapRows, swapRows]
    split
    · exact h q hq
    · split
      · exact h p hp
      · exact h i hi
  refine ⟨?_, ?_⟩
  · intro h
    have h' := hone h
    rwa [swapRows_swapRows, swapRows_swapRows] at h'
  · exact hone

theorem solves_addRow {p : ℕ} (hp : p < rows) {S : ℕ → Prop} [DecidablePred S] (hS : ¬ S p) :
    Solves rows cols (addRow A p S) (addRow b p S) x ↔ Solves rows cols A b x := by
  refine ⟨?_, ?_⟩
  · intro h i hi
    have hrow := h p hp
    rw [addRow_of_not hS, addRow_of_not hS] at hrow
    have hi' := h i hi
    by_cases hSi : S i
    · rw [addRow_of hSi, addRow_of hSi, dot_add_left, hrow] at hi'
      exact add_right_cancel hi'
    · rwa [addRow_of_not hSi, addRow_of_not hSi] at hi'
  · intro h i hi
    by_cases hSi : S i
    · rw [addRow_of hSi, addRow_of hSi, dot_add_left, h i hi, h p hp]
    · rw [addRow_of_not hSi, addRow_of_not hSi]
      exact h i hi

/-- No two vectors solve the same system. -/
def Determined (rows cols : ℕ) (A : ℕ → ℕ → K) : Prop :=
  ∀ x : ℕ → K, Solves rows cols A (fun _ => 0) x → ∀ k < cols, x k = 0

theorem Determined.unique (h : Determined rows cols A) {x' : ℕ → K} (hx : Solves rows cols A b x)
    (hx' : Solves rows cols A b x') {k : ℕ} (hk : k < cols) : x k = x' k := by
  refine sub_eq_zero.mp (h (fun k => x k - x' k) (fun i hi => ?_) k hk)
  rw [dot_sub_right, hx i hi, hx' i hi, sub_self]

end Systems

/-! ## Echelon forms -/

/-- After the first `done` columns, the first `n` rows have pivots. -/
structure Echelon [CommRing K] (rows done : ℕ) (A : ℕ → ℕ → K) (n : ℕ) (pivot : ℕ → ℕ) : Prop where
  le_rows : n ≤ rows
  pivot_lt : ∀ t < n, pivot t < done
  pivot_mono : ∀ t < n, ∀ t' < t, pivot t' < pivot t
  one : ∀ t < n, A t (pivot t) = 1
  below : ∀ t < n, ∀ i, t < i → i < rows → A i (pivot t) = 0
  before : ∀ t < n, ∀ k < pivot t, A t k = 0
  rest : ∀ i, n ≤ i → i < rows → ∀ k < done, A i k = 0

section Forms

variable [CommRing K] {rows done n : ℕ} {A A' : ℕ → ℕ → K} {pivot : ℕ → ℕ}

theorem Echelon.start : Echelon rows 0 A 0 pivot :=
  ⟨Nat.zero_le _, fun _ ht => absurd ht (Nat.not_lt_zero _),
    fun _ ht => absurd ht (Nat.not_lt_zero _),
    fun _ ht => absurd ht (Nat.not_lt_zero _), fun _ ht => absurd ht (Nat.not_lt_zero _),
    fun _ ht => absurd ht (Nat.not_lt_zero _), fun _ _ _ _ hk => absurd hk (Nat.not_lt_zero _)⟩

/-- A column without a pivot. -/
theorem Echelon.skip (h : Echelon rows done A n pivot)
    (hcol : ∀ i, n ≤ i → i < rows → A i done = 0) : Echelon rows (done + 1) A n pivot := by
  refine ⟨h.le_rows, fun t ht => Nat.lt_succ_of_lt (h.pivot_lt t ht), h.pivot_mono, h.one, h.below,
    h.before, fun i hi hir k hk => ?_⟩
  rcases Nat.lt_or_eq_of_le (Nat.le_of_lt_succ hk) with hk | rfl
  · exact h.rest i hi hir k hk
  · exact hcol i hi hir

/-- A column with a pivot in row `n`. -/
theorem Echelon.pivotAt (h : Echelon rows done A n pivot) (hn : n < rows)
    (hsame : ∀ t < n, A' t = A t) (hone : A' n done = 1)
    (hbelow : ∀ i, n < i → i < rows → A' i done = 0)
    (hrest : ∀ i, n ≤ i → i < rows → ∀ k < done, A' i k = 0) :
    Echelon rows (done + 1) A' (n + 1) (Function.update pivot n done) := by
  have hold : ∀ t < n, Function.update pivot n done t = pivot t := by
    intro t ht
    exact Function.update_of_ne (Nat.ne_of_lt ht) _ _
  -- in each field row `n` is new, and the rows before are as they were
  constructor
  case le_rows => exact hn
  case pivot_lt =>
    intro t ht
    rcases Nat.lt_or_eq_of_le (Nat.le_of_lt_succ ht) with ht | rfl
    · rw [hold t ht]
      exact Nat.lt_succ_of_lt (h.pivot_lt t ht)
    · rw [Function.update_self]
      exact Nat.lt_succ_self _
  case pivot_mono =>
    intro t ht t' ht'
    rcases Nat.lt_or_eq_of_le (Nat.le_of_lt_succ ht) with ht | rfl
    · rw [hold t ht, hold t' (ht'.trans ht)]
      exact h.pivot_mono t ht t' ht'
    · rw [Function.update_self, hold t' ht']
      exact h.pivot_lt t' ht'
  case one =>
    intro t ht
    rcases Nat.lt_or_eq_of_le (Nat.le_of_lt_succ ht) with ht | rfl
    · rw [hold t ht, hsame t ht]
      exact h.one t ht
    · rw [Function.update_self]
      exact hone
  case below =>
    intro t ht i hti hi
    rcases Nat.lt_or_eq_of_le (Nat.le_of_lt_succ ht) with ht | rfl
    · rw [hold t ht]
      by_cases hin : i < n
      · rw [hsame i hin]
        exact h.below t ht i hti hi
      · exact hrest i (Nat.le_of_not_lt hin) hi _ (h.pivot_lt t ht)
    · rw [Function.update_self]
      exact hbelow i hti hi
  case before =>
    intro t ht k hk
    rcases Nat.lt_or_eq_of_le (Nat.le_of_lt_succ ht) with ht | rfl
    · rw [hold t ht] at hk
      rw [hsame t ht]
      exact h.before t ht k hk
    · rw [Function.update_self] at hk
      exact hrest t le_rfl hn k hk
  case rest =>
    intro i hi hir k hk
    rcases Nat.lt_or_eq_of_le (Nat.le_of_lt_succ hk) with hk | rfl
    · exact hrest i (Nat.le_of_succ_le hi) hir k hk
    · exact hbelow i hi hir

/-- The rows with pivots can be solved, whatever the right-hand side: from the last one up, each
pivot makes its row right and changes no row below. -/
theorem Echelon.exists_solves (h : Echelon rows done A n pivot) (b : ℕ → K) :
    ∃ x, Solves n done A b x := by
  have hfrom : ∀ m ≤ n, ∃ x, ∀ i, n - m ≤ i → i < n → dot done (A i) x = b i := by
    intro m
    induction m with
    | zero => exact fun _ => ⟨fun _ => 0, fun i hi hin => absurd hin (Nat.not_lt.mpr hi)⟩
    | succ m ih =>
        intro hm
        obtain ⟨x, hx⟩ := ih (Nat.le_of_succ_le hm)
        have ht : n - (m + 1) < n := by omega
        have hlt := h.pivot_lt _ ht
        refine ⟨Function.update x (pivot (n - (m + 1)))
          (x (pivot (n - (m + 1))) + (b (n - (m + 1)) - dot done (A (n - (m + 1))) x)),
          fun i hi hin => ?_⟩
        rcases Nat.lt_or_eq_of_le hi with hi | rfl
        · rw [dot_update_of_eq_zero hlt (h.below _ ht i hi (hin.trans_le h.le_rows))]
          exact hx i (by omega) hin
        · rw [dot_update hlt, h.one _ ht]
          ring
  obtain ⟨x, hx⟩ := hfrom n le_rfl
  exact ⟨x, fun i hi => hx i (by omega) hi⟩

/-- If the right-hand side is zero wherever there is no pivot, the whole system can be solved. -/
theorem Echelon.exists_solves_of_rest (h : Echelon rows done A n pivot) {b : ℕ → K}
    (hb : ∀ i, n ≤ i → i < rows → b i = 0) : ∃ x, Solves rows done A b x := by
  obtain ⟨x, hx⟩ := h.exists_solves b
  refine ⟨x, fun i hi => ?_⟩
  by_cases hin : i < n
  · exact hx i hin
  · have hni := Nat.le_of_not_lt hin
    rw [dot_eq_zero (h.rest i hni hi), hb i hni hi]

/-- A column in which the row is zero is not its pivot. -/
theorem Echelon.pivot_lt_of_zero [Nontrivial K] (h : Echelon rows done A n pivot) {t j : ℕ}
    (ht : t < n) (hj : pivot t < j + 1) (hzero : A t j = 0) : pivot t < j := by
  refine lt_of_le_of_ne (Nat.le_of_lt_succ hj) fun heq => ?_
  have hone := h.one t ht
  rw [heq, hzero] at hone
  exact zero_ne_one hone

/-! ### The columns before another one -/

/-- The first `c` columns have the pivots that lie among them. -/
theorem Echelon.restrict (h : Echelon rows done A n pivot) {c : ℕ} (hc : c ≤ done) :
    ∃ m, Echelon rows c A m pivot ∧ ∀ i, m ≤ i → i < n → c ≤ pivot i := by
  -- the pivots lie in order, so those among the first columns are the first ones
  have hsplit : ∀ m ≤ n, ∃ m' ≤ m, (∀ t < m', pivot t < c) ∧
      ∀ i, m' ≤ i → i < m → c ≤ pivot i := by
    intro m
    induction m with
    | zero =>
        exact fun _ => ⟨0, le_rfl, fun _ ht => absurd ht (Nat.not_lt_zero _),
          fun _ _ hi => absurd hi (Nat.not_lt_zero _)⟩
    | succ m ih =>
        intro hm
        by_cases hcm : pivot m < c
        · refine ⟨m + 1, le_rfl, fun t ht => ?_, fun i hi him => absurd him (Nat.not_lt.mpr hi)⟩
          rcases Nat.lt_or_eq_of_le (Nat.le_of_lt_succ ht) with ht | rfl
          · exact (h.pivot_mono m hm t ht).trans hcm
          · exact hcm
        · obtain ⟨m', hle, hbefore, hafter⟩ := ih (Nat.le_of_succ_le hm)
          refine ⟨m', Nat.le_succ_of_le hle, hbefore, fun i hi him => ?_⟩
          rcases Nat.lt_or_eq_of_le (Nat.le_of_lt_succ him) with him | rfl
          · exact hafter i hi him
          · exact Nat.le_of_not_lt hcm
  obtain ⟨m, hle, hbefore, hafter⟩ := hsplit n le_rfl
  refine ⟨m, ⟨hle.trans h.le_rows, hbefore, ?_, ?_, ?_, ?_, ?_⟩, hafter⟩
  · exact fun t ht => h.pivot_mono t (ht.trans_le hle)
  · exact fun t ht => h.one t (ht.trans_le hle)
  · exact fun t ht => h.below t (ht.trans_le hle)
  · exact fun t ht => h.before t (ht.trans_le hle)
  · intro i hi hir k hk
    by_cases hin : i < n
    · exact h.before i hin k (hk.trans_le (hafter i hi hin))
    · exact h.rest i (Nat.le_of_not_lt hin) hir k (hk.trans_le hc)

/-- Column `k` is a sum of the columns before column `p`. -/
def SumOfBefore (rows : ℕ) (A : ℕ → ℕ → K) (p k : ℕ) : Prop :=
  ∃ x, Solves rows p A (fun i => A i k) x

/-- In an echelon form these are the columns that are zero in every row without a pivot before
`p`. -/
theorem Echelon.sumOfBefore_iff (h : Echelon rows done A n pivot) {p k : ℕ} (hp : p ≤ done) :
    SumOfBefore rows A p k ↔ ∀ i < rows, (i < n → p ≤ pivot i) → A i k = 0 := by
  refine ⟨?_, ?_⟩
  · rintro ⟨x, hx⟩ i hi hpivot
    refine (hx i hi).symm.trans (dot_eq_zero fun c hc => ?_)
    by_cases hin : i < n
    · exact h.before i hin c (hc.trans_le (hpivot hin))
    · exact h.rest i (Nat.le_of_not_lt hin) hi c (hc.trans_le hp)
  · intro hzero
    obtain ⟨m, hm, hafter⟩ := h.restrict hp
    exact hm.exists_solves_of_rest fun i hi hir => hzero i hir (hafter i hi)

/-- The pivots are in the columns that are no sums of the columns before them. -/
theorem Echelon.exists_pivot_iff [Nontrivial K] (h : Echelon rows done A n pivot) {k : ℕ}
    (hk : k < done) : (∃ t < n, pivot t = k) ↔ ¬ SumOfBefore rows A k k := by
  rw [h.sumOfBefore_iff hk.le]
  refine ⟨?_, ?_⟩
  · rintro ⟨t, ht, rfl⟩ hzero
    exact one_ne_zero ((h.one t ht).symm.trans
      (hzero t (ht.trans_le h.le_rows) fun _ => le_rfl))
  · intro hne
    by_contra hno
    push Not at hno
    refine hne fun i hi hpivot => ?_
    by_cases hin : i < n
    · exact h.before i hin k (lt_of_le_of_ne (hpivot hin) (hno i hin).symm)
    · exact h.rest i (Nat.le_of_not_lt hin) hi k hk

end Forms

/-- With fewer pivots than columns some vector other than zero solves the homogeneous system. -/
theorem Echelon.le_of_determined [Field K] {rows done n : ℕ} {A : ℕ → ℕ → K} {pivot : ℕ → ℕ}
    (h : Echelon rows done A n pivot) (hdet : Determined rows done A) : done ≤ n := by
  by_contra hlt
  -- with more columns than pivots some vector is sent to zero by the rows with pivots
  let f : (Fin done → K) →ₗ[K] (Fin n → K) :=
    { toFun := fun x i => ∑ k : Fin done, A i k * x k
      map_add' := by
        intro x y
        funext i
        simp only [Pi.add_apply, mul_add, Finset.sum_add_distrib]
      map_smul' := by
        intro c x
        funext i
        simp only [Pi.smul_apply, smul_eq_mul, RingHom.id_apply, Finset.mul_sum]
        exact Finset.sum_congr rfl fun k _ => by ring }
  have hker : LinearMap.ker f ≠ ⊥ := LinearMap.ker_ne_bot_of_finrank_lt (by simp; omega)
  obtain ⟨x, hx, hne⟩ := Submodule.exists_mem_ne_zero_of_ne_bot hker
  refine hne (funext fun k => ?_)
  -- the other rows are zero, so it solves the whole system
  have hzero := hdet (fun k => if hk : k < done then x ⟨k, hk⟩ else 0) (fun i hi => ?_) k k.isLt
  · simpa using hzero
  · by_cases hin : i < n
    · have hrow := congrFun (LinearMap.mem_ker.mp hx) ⟨i, hin⟩
      rw [dot, Finset.sum_range]
      simpa [f] using hrow
    · exact dot_eq_zero fun k hk => h.rest i (Nat.le_of_not_lt hin) hi k hk

theorem Echelon.le_pivot [CommRing K] {rows done n : ℕ} {A : ℕ → ℕ → K} {pivot : ℕ → ℕ}
    (h : Echelon rows done A n pivot) {t : ℕ} (ht : t < n) : t ≤ pivot t := by
  induction t with
  | zero => exact Nat.zero_le _
  | succ t ih =>
      exact Nat.succ_le_of_lt ((ih (Nat.lt_of_succ_lt ht)).trans_lt
        (h.pivot_mono _ ht t (Nat.lt_succ_self t)))

theorem Echelon.le_done [CommRing K] {rows done n : ℕ} {A : ℕ → ℕ → K} {pivot : ℕ → ℕ}
    (h : Echelon rows done A n pivot) : n ≤ done := by
  by_contra hlt
  have hn : n - 1 < n := by omega
  have hge := h.le_pivot hn
  have := h.pivot_lt _ hn
  omega

/-- With a pivot in every column, row `t` has its pivot in column `t`. -/
theorem Echelon.pivot_eq [CommRing K] {rows done : ℕ} {A : ℕ → ℕ → K} {pivot : ℕ → ℕ}
    (h : Echelon rows done A done pivot) {t : ℕ} (ht : t < done) : pivot t = t := by
  have hle : ∀ m < done, pivot (done - 1 - m) ≤ done - 1 - m := by
    intro m
    induction m with
    | zero => exact fun hm => Nat.le_sub_one_of_lt (h.pivot_lt _ (by omega))
    | succ m ih =>
        intro hm
        have hlt := h.pivot_mono (done - 1 - m) (by omega) (done - 1 - (m + 1)) (by omega)
        have := ih (by omega)
        omega
  have hup := hle (done - 1 - t) (by omega)
  rw [show done - 1 - (done - 1 - t) = t by omega] at hup
  exact le_antisymm hup (h.le_pivot ht)

end Lib
