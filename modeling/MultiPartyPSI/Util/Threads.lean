import MultiPartyPSI.Lib.Loop
import MultiPartyPSI.Util.Typedefs

/-!
# Cutting a range over threads

Both hashing routines give thread `i` the elements from `startpos` to `endpos`: equal
pieces rounded up, the last one cut at the end. Rounding up is what makes the pieces
cover everything; it can also leave the last threads a start behind the end.
-/

namespace MultiPartyPSI

open Lib

/-- `ctx[i].startpos`. -/
def startpos (neles ntasks i : Nat) : Nat := i * ceilDivide neles ntasks

/-- `ctx[i].endpos`. -/
def endpos (neles ntasks i : Nat) : Nat :=
  min (startpos neles ntasks i + ceilDivide neles ntasks) neles

/-- `for (i = startpos; i < endpos; i++)`, run for one thread after the other. -/
def forTasks {σ : Type*} (neles ntasks : Nat) (body : Nat → σ → σ) (s : σ) : σ :=
  loop (fun i => loop (fun k => body (startpos neles ntasks i + k))
    (endpos neles ntasks i - startpos neles ntasks i)) ntasks s

theorem startpos_succ (neles ntasks i : Nat) :
    startpos neles ntasks (i + 1) = startpos neles ntasks i + ceilDivide neles ntasks :=
  Nat.succ_mul _ _

/-- A thread that starts inside the range ends where the next one starts, or at its end. -/
theorem endpos_eq (neles ntasks i : Nat) :
    endpos neles ntasks i = min (startpos neles ntasks (i + 1)) neles := by
  rw [startpos_succ, endpos]

/-- With at least one thread the pieces reach the end. -/
theorem le_startpos_ntasks (neles : Nat) {ntasks : Nat} (h : 0 < ntasks) :
    neles ≤ startpos neles ntasks ntasks := by
  rw [startpos, Nat.mul_comm]
  exact le_ceilDivide_mul neles h

/-- The pieces of the first `i` threads together are the range up to where the next starts. -/
theorem forTasks_range {σ : Type*} {P : Nat → σ → Prop} {neles ntasks : Nat}
    {body : Nat → σ → σ} {s : σ} (hn : 0 < ntasks) (h0 : P 0 s)
    (hs : ∀ e t, e < neles → P e t → P (e + 1) (body e t)) :
    P neles (forTasks neles ntasks body s) := by
  have h : P (min (startpos neles ntasks ntasks) neles) (forTasks neles ntasks body s) := by
    refine loop_induct (P := fun i t => P (min (startpos neles ntasks i) neles) t) ntasks ?_ ?_
    · rwa [startpos, Nat.zero_mul, Nat.zero_min]
    · intro i t _ ht
      rw [← endpos_eq]
      rcases Nat.le_total (startpos neles ntasks i) neles with hle | hle
      · rw [Nat.min_eq_left hle] at ht
        have hend : startpos neles ntasks i ≤ endpos neles ntasks i :=
          Nat.le_min.mpr ⟨Nat.le_add_right _ _, hle⟩
        have hin : endpos neles ntasks i ≤ neles := Nat.min_le_right _ _
        have := loop_induct (P := fun k t => P (startpos neles ntasks i + k) t)
          (f := fun k => body (startpos neles ntasks i + k))
          (endpos neles ntasks i - startpos neles ntasks i) ht
          (fun k t hk => hs (startpos neles ntasks i + k) t (by omega))
        rwa [Nat.add_sub_cancel' hend] at this
      · -- the thread starts behind the end and does nothing
        have hend : endpos neles ntasks i = neles :=
          Nat.min_eq_right (Nat.le_trans hle (Nat.le_add_right _ _))
        rw [Nat.min_eq_right hle] at ht
        rwa [hend, Nat.sub_eq_zero_of_le hle]
  rwa [Nat.min_eq_right (le_startpos_ntasks neles hn)] at h

end MultiPartyPSI
