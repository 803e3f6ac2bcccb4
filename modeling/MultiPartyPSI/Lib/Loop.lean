import Mathlib.Logic.Basic

/-!
# Counting loops

`loop body n s` is `for (i = 0; i < n; i++) s = body i s`, and `loopM` is the same
loop over a body that can fail. Each comes with the one rule a proof about it
needs: an invariant that is indexed by the loop variable, established before the
first round and carried by each round, holds after the last. Many loops settle one
cell a round; `loop_settles` is the rule in that case.
-/

namespace Lib

variable {σ : Type*}

/-- `for (i = 0; i < n; i++) s = body i s`. -/
def loop (body : Nat → σ → σ) : Nat → σ → σ
  | 0, s => s
  | n + 1, s => body n (loop body n s)

@[simp] theorem loop_zero (body : Nat → σ → σ) (s : σ) : loop body 0 s = s := rfl

theorem loop_succ (body : Nat → σ → σ) (n : Nat) (s : σ) :
    loop body (n + 1) s = body n (loop body n s) := rfl

/-- The invariant rule for counting loops. -/
theorem loop_induct {f : Nat → σ → σ} {P : Nat → σ → Prop} {s : σ} (n : Nat) (h0 : P 0 s)
    (hs : ∀ i t, i < n → P i t → P (i + 1) (f i t)) : P n (loop f n s) := by
  induction n with
  | zero => exact h0
  | succ n ih => exact hs n _ (Nat.lt_succ_self n) (ih fun i t hi => hs i t (Nat.lt_succ_of_lt hi))

/-- What round `i` settles and no later round disturbs is so at the end. -/
theorem loop_settles {f : Nat → σ → σ} {Q : Nat → σ → Prop} {s : σ} (n : Nat)
    (hnew : ∀ i t, i < n → Q i (f i t))
    (hkeep : ∀ i k t, i < k → k < n → Q i t → Q i (f k t)) {i : Nat} (hi : i < n) :
    Q i (loop f n s) := by
  refine loop_induct (P := fun k t => ∀ i < k, Q i t) n
    (fun i hi => absurd hi (Nat.not_lt_zero i)) ?_ i hi
  intro k t hk ht i hi
  rcases Nat.lt_or_eq_of_le (Nat.le_of_lt_succ hi) with hlt | rfl
  · exact hkeep i k t hlt hk (ht i hlt)
  · exact hnew i t hk

/-- Rounds that rewrite disjoint parts of the state, each from what its part held before the
loop. `g` reads a cell, `T i` is the part of round `i`. -/
theorem loop_disjoint {κ α : Type*} {f : Nat → σ → σ} {g : σ → κ → α} {T : Nat → κ → Prop}
    {v : κ → α} {s : σ} (n : Nat)
    (hnew : ∀ i t, i < n → (∀ c, T i c → g t c = g s c) → ∀ c, T i c → g (f i t) c = v c)
    (hkeep : ∀ i t c, i < n → ¬ T i c → g (f i t) c = g t c)
    (hdisj : ∀ i k c, i < n → k < n → T i c → T k c → i = k) :
    (∀ i < n, ∀ c, T i c → g (loop f n s) c = v c)
      ∧ ∀ c, (∀ i < n, ¬ T i c) → g (loop f n s) c = g s c := by
  refine loop_induct (P := fun k t => (∀ i < k, ∀ c, T i c → g t c = v c)
    ∧ ∀ c, (∀ i < k, ¬ T i c) → g t c = g s c) n ?_ ?_
  · exact ⟨fun i hi => absurd hi (Nat.not_lt_zero i), fun _ _ => rfl⟩
  · intro k t hk ⟨hdone, hrest⟩
    refine ⟨fun i hi c hc => ?_, fun c hc => ?_⟩
    · rcases Nat.lt_or_eq_of_le (Nat.le_of_lt_succ hi) with hlt | rfl
      · rw [hkeep k t c hk fun h =>
          Nat.ne_of_lt hlt (hdisj i k c (Nat.lt_trans hlt hk) hk hc h)]
        exact hdone i hlt c hc
      · refine hnew i t hk (fun d hd => hrest d fun l hl h => ?_) c hc
        exact Nat.ne_of_lt hl (hdisj l i d (Nat.lt_trans hl hk) hk h hd)
    · rw [hkeep k t c hk (hc k (Nat.lt_succ_self k))]
      exact hrest c fun i hi => hc i (Nat.lt_succ_of_lt hi)

/-- Two loops whose bodies agree on the rounds they run compute the same. -/
theorem loop_congr {f g : Nat → σ → σ} (n : Nat) (s : σ) (h : ∀ i t, i < n → f i t = g i t) :
    loop f n s = loop g n s := by
  induction n with
  | zero => rfl
  | succ n ih =>
      rw [loop_succ, loop_succ, ih fun i t hi => h i t (Nat.lt_succ_of_lt hi)]
      exact h n _ (Nat.lt_succ_self n)

/-- A loop of `m + n` rounds is the first `m` rounds followed by the other `n`. -/
theorem loop_add (body : Nat → σ → σ) (m n : Nat) (s : σ) :
    loop body (m + n) s = loop (fun i => body (m + i)) n (loop body m s) := by
  induction n with
  | zero => rfl
  | succ n ih => rw [← Nat.add_assoc, loop_succ, loop_succ, ih]

/-- A loop over two variables that do not meet is two loops. -/
theorem loop_prod {τ : Type*} (f : Nat → σ → σ) (g : Nat → τ → τ) (n : Nat) (s : σ × τ) :
    loop (fun i s => (f i s.1, g i s.2)) n s = (loop f n s.1, loop g n s.2) := by
  induction n with
  | zero => rfl
  | succ n ih => rw [loop_succ, ih, loop_succ, loop_succ]

/-- The same loop over a body that can fail; the first failure ends it. -/
def loopM (body : Nat → σ → Option σ) : Nat → σ → Option σ
  | 0, s => some s
  | n + 1, s => (loopM body n s).bind (body n)

@[simp] theorem loopM_zero (body : Nat → σ → Option σ) (s : σ) : loopM body 0 s = some s := rfl

theorem loopM_succ (body : Nat → σ → Option σ) (n : Nat) (s : σ) :
    loopM body (n + 1) s = (loopM body n s).bind (body n) := rfl

/-- The invariant rule for loops that do not fail. -/
theorem loopM_total {f : Nat → σ → Option σ} {P : Nat → σ → Prop} {s : σ} (n : Nat)
    (h0 : P 0 s) (hs : ∀ i t, i < n → P i t → ∃ t', f i t = some t' ∧ P (i + 1) t') :
    ∃ t, loopM f n s = some t ∧ P n t := by
  induction n with
  | zero => exact ⟨s, rfl, h0⟩
  | succ n ih =>
      obtain ⟨t, ht, hP⟩ := ih fun i t hi => hs i t (Nat.lt_succ_of_lt hi)
      obtain ⟨t', ht', hP'⟩ := hs n t (Nat.lt_succ_self n) hP
      exact ⟨t', by rw [loopM_succ, ht]; exact ht', hP'⟩

/-- A loop that does not fail, whose rounds settle one cell each and keep the cells before. -/
theorem loopM_settles {f : Nat → σ → Option σ} {Q : Nat → σ → Prop} {s : σ} (n : Nat)
    (hs : ∀ i t, i < n → ∃ t', f i t = some t' ∧ Q i t' ∧ ∀ k < i, Q k t → Q k t') :
    ∃ t, loopM f n s = some t ∧ ∀ i < n, Q i t := by
  refine loopM_total (P := fun k t => ∀ i < k, Q i t) n
    (fun i hi => absurd hi (Nat.not_lt_zero i)) ?_
  intro k t hk ht
  obtain ⟨t', ht', hnew, hkeep⟩ := hs k t hk
  refine ⟨t', ht', fun i hi => ?_⟩
  rcases Nat.lt_or_eq_of_le (Nat.le_of_lt_succ hi) with hlt | rfl
  · exact hkeep i hlt (ht i hlt)
  · exact hnew

/-- The invariant rule for loops that may fail: it speaks of the runs that did not. -/
theorem loopM_induct {f : Nat → σ → Option σ} {P : Nat → σ → Prop} {s t : σ} (n : Nat)
    (h : loopM f n s = some t) (h0 : P 0 s)
    (hs : ∀ i t t', i < n → P i t → f i t = some t' → P (i + 1) t') : P n t := by
  induction n generalizing t with
  | zero => cases h; exact h0
  | succ n ih =>
      rw [loopM_succ] at h
      obtain ⟨u, hu, hb⟩ := Option.bind_eq_some_iff.mp h
      exact hs n u t (Nat.lt_succ_self n)
        (ih hu fun i t t' hi => hs i t t' (Nat.lt_succ_of_lt hi)) hb

/-- In a run that did not fail every round succeeded. -/
theorem loopM_round {f : Nat → σ → Option σ} {s t : σ} {n : Nat} (h : loopM f n s = some t)
    {i : Nat} (hi : i < n) : ∃ u v, f i u = some v := by
  induction n generalizing t with
  | zero => exact absurd hi (Nat.not_lt_zero i)
  | succ n ih =>
      rw [loopM_succ] at h
      obtain ⟨u, hu, hb⟩ := Option.bind_eq_some_iff.mp h
      rcases Nat.lt_or_eq_of_le (Nat.le_of_lt_succ hi) with hlt | rfl
      · exact ih hu hlt
      · exact ⟨u, t, hb⟩

end Lib
