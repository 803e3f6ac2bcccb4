import MultiPartyPSI.Lib.BitMatrix

/-!
# Bit vectors

What the OPRG uses of `CBitVector`. A vector is attached to an array and knows its length;
the two calls the parties' tables go through, `Get` and `XORBits`, return without a word
where they would reach behind the end. Every call is about whole bytes, since mask lengths
are padded to bytes, so of `GetBits` and `XORBits` the branch for whole bytes is here.

`XORBits` calls commute. `row_xorMaskCalls` says what a list of them leaves in a row, and by
`maskSum_perm` the right side does not depend on the list's order.
-/

namespace MultiPartyPSI

open Lib Buf

/-- A `CBitVector` attached to an array of `size` bytes. -/
structure CBitVector where
  bits : Buf Byte
  size : Nat

/-- `Get<uint32_t>(8 * i, 8)`. -/
def CBitVector.get8 (v : CBitVector) (i : Nat) : Nat :=
  if 8 * i + 8 > v.size <<< 3 then 0 else (v.bits i).toBits.toNat

/-- `XORBits`, for whole bytes. -/
def CBitVector.XORBits (v : CBitVector) (p : Buf Byte) (pos len : Nat) : CBitVector :=
  if len < 1 ∨ pos + len > v.size <<< 3 then v
  else { v with bits := xorInto v.bits (pos >>> 3) p 0 (len >>> 3) }

/-- One call `m_vResults.XORBits(p, index * m_nMaskBitLen, m_nMaskBitLen)`. -/
structure MaskCall where
  index : Nat
  p : Buf Byte

/-- The calls, one after another, for masks of `maskbytelen` bytes. -/
def xorMaskCalls (maskbytelen : Nat) (calls : List MaskCall) (results : CBitVector) : CBitVector :=
  calls.foldl (fun v c => v.XORBits c.p (c.index * (8 * maskbytelen)) (8 * maskbytelen)) results

/-- What the calls add to mask `r`. -/
def maskSum (maskbytelen : Nat) (calls : List MaskCall) (r : Nat) : Fin maskbytelen → Byte :=
  (calls.map fun c => if c.index = r then row maskbytelen c.p 0 else 0).sum

theorem CBitVector.get8_eq {v : CBitVector} {i : Nat} (h : i < v.size) :
    v.get8 i = (v.bits i).toBits.toNat := by
  rw [get8, if_neg (by rw [Nat.shiftLeft_eq]; omega)]

@[simp] theorem CBitVector.XORBits_size (v : CBitVector) (p : Buf Byte) (pos len : Nat) :
    (v.XORBits p pos len).size = v.size := by
  unfold XORBits
  split <;> rfl

variable {w n : Nat}

/-- A call adds its mask to the row it names. -/
theorem CBitVector.row_XORBits {v : CBitVector} (hv : v.size = n * w) (p : Buf Byte) {i : Nat}
    (hi : i < n) (r : Nat) :
    row w (v.XORBits p (i * (8 * w)) (8 * w)).bits r
      = row w v.bits r + if i = r then row w p 0 else 0 := by
  rcases Nat.eq_zero_or_pos w with rfl | hw
  · exact Subsingleton.elim _ _
  have hfit : i * w + w ≤ n * w := row_end_le w hi
  have hpos : i * (8 * w) = 8 * (i * w) := by ring
  rw [XORBits, if_neg (by rw [hv, Nat.shiftLeft_eq]; omega), hpos, Nat.shiftRight_eq_div_pow,
    Nat.shiftRight_eq_div_pow, Nat.mul_div_cancel_left _ (by decide),
    Nat.mul_div_cancel_left _ (by decide)]
  by_cases hr : i = r
  · subst hr
    have := row_xorInto_same v.bits i p 0 w
    rw [Nat.zero_mul] at this
    rw [if_pos rfl, ← this]
  · rw [if_neg hr, add_zero]
    exact row_xorInto_ne v.bits p 0 w fun h => hr h.symm

/-- A row after the calls: what it held, and every mask called on it. -/
theorem row_xorMaskCalls {calls : List MaskCall} (hin : ∀ c ∈ calls, c.index < n)
    {v : CBitVector} (hv : v.size = n * w) (r : Nat) :
    row w (xorMaskCalls w calls v).bits r = row w v.bits r + maskSum w calls r := by
  unfold maskSum
  induction calls generalizing v with
  | nil => exact (add_zero _).symm
  | cons c calls ih =>
      have hrest := ih (fun d hd => hin d (List.mem_cons_of_mem c hd))
        (v := v.XORBits c.p (c.index * (8 * w)) (8 * w)) (by rw [CBitVector.XORBits_size, hv])
      rw [CBitVector.row_XORBits hv c.p (hin c List.mem_cons_self)] at hrest
      rw [List.map_cons, List.sum_cons, ← add_assoc]
      exact hrest

/-! ## Which mask, and what is added to it -/

/-- All that `XORBits` takes of a call. -/
def MaskCall.masked (maskbytelen : Nat) (c : MaskCall) : Nat × (Fin maskbytelen → Byte) :=
  (c.index, row maskbytelen c.p 0)

/-- `XORBits` reads as many bytes as it is told to. -/
theorem CBitVector.XORBits_ofRow (v : CBitVector) (p : Buf Byte) (pos : Nat) :
    v.XORBits p pos (8 * w) = v.XORBits (ofRow (row w p 0)) pos (8 * w) := by
  have hlen : (8 * w) >>> 3 = w := by
    rw [Nat.shiftRight_eq_div_pow]
    exact Nat.mul_div_cancel_left w (by decide)
  unfold XORBits
  split
  · rfl
  · rw [hlen]
    congr 1
    funext i
    rw [xorInto_apply, xorInto_apply]
    split
    · next h =>
        have hi : i - pos >>> 3 < w := by omega
        rw [Nat.zero_add, ofRow_row p 0 hi, Nat.zero_mul, Nat.zero_add]
    · rfl

/-- Calls that add the same do the same. -/
theorem xorMaskCalls_congr {calls calls' : List MaskCall}
    (h : calls.map (MaskCall.masked w) = calls'.map (MaskCall.masked w)) (v : CBitVector) :
    xorMaskCalls w calls v = xorMaskCalls w calls' v := by
  have hfold : ∀ (calls : List MaskCall) (v : CBitVector), xorMaskCalls w calls v
      = (calls.map (MaskCall.masked w)).foldl
        (fun v m => v.XORBits (ofRow m.2) (m.1 * (8 * w)) (8 * w)) v := by
    intro calls v
    rw [List.foldl_map, xorMaskCalls]
    congr 1
    funext v c
    exact v.XORBits_ofRow c.p _
  rw [hfold, h, ← hfold]

/-! ## Sums of calls -/

theorem maskSum_eq_masked (calls : List MaskCall) (r : Nat) :
    maskSum w calls r
      = ((calls.map (MaskCall.masked w)).map fun m => if m.1 = r then m.2 else 0).sum := by
  rw [List.map_map]
  rfl

/-- The order of the calls does not matter. -/
theorem maskSum_perm {calls calls' : List MaskCall} (h : calls.Perm calls') (r : Nat) :
    maskSum w calls r = maskSum w calls' r := (h.map _).sum_eq

theorem maskSum_flatMap (f : Nat → List MaskCall) (k r : Nat) :
    maskSum w ((List.range k).flatMap f) r = ∑ i ∈ Finset.range k, maskSum w (f i) r := by
  induction k with
  | zero => rfl
  | succ k ih =>
      rw [List.range_succ, List.flatMap_append, Finset.sum_range_succ, ← ih, maskSum, maskSum,
        maskSum, List.map_append, List.sum_append, List.flatMap_singleton]

/-- Calls at different places: only the one at `r` counts. -/
theorem maskSum_of_masked {calls : List MaskCall} {place : Nat → Nat} {m : Nat → Fin w → Byte}
    {k : Nat} (h : calls.map (MaskCall.masked w) = (List.range k).map fun u => (place u, m u))
    (r : Nat) :
    maskSum w calls r = ∑ u ∈ Finset.range k, if place u = r then m u else 0 := by
  rw [maskSum_eq_masked, h, List.map_map]
  rfl

end MultiPartyPSI
