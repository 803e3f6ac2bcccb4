import MultiPartyPSI.Lib.Loop
import MultiPartyPSI.Lib.Xor
import Mathlib.Tactic.Ring

/-!
# Blocks of memory

A block is read through its offset from the block's start. `zipInto` is the
loop behind every bulk operation on blocks: walk `n` cells of a source and
combine each into the matching cell of the destination. `copy` overwrites,
`xorInto` adds.

Most blocks hold equally long rows one after another. The last section says what
a bulk operation on one row does to that row (`*_row_same`) and to every other
(`*_row_ne`), which is all a proof about such a block should need: no offsets.
-/

namespace Lib

/-- A block of memory, addressed from its start. -/
abbrev Buf (α : Type*) := Nat → α

namespace Buf

variable {α : Type*}

/-- Store one cell. -/
def write (m : Buf α) (p : Nat) (a : α) : Buf α := fun i => if i = p then a else m i

@[simp] theorem write_same (m : Buf α) (p : Nat) (a : α) : m.write p a p = a := if_pos rfl

theorem write_ne (m : Buf α) {p i : Nat} (a : α) (h : i ≠ p) : m.write p a i = m i := if_neg h

/-- `for (i = 0; i < n; i++) dst[p+i] = f(dst[p+i], src[q+i])`. -/
def zipInto (f : α → α → α) (dst : Buf α) (p : Nat) (src : Buf α) (q n : Nat) : Buf α :=
  loop (fun i m => m.write (p + i) (f (m (p + i)) (src (q + i)))) n dst

/-- Every cell of the range is combined once, every other cell is left alone. -/
theorem zipInto_apply (f : α → α → α) (dst : Buf α) (p : Nat) (src : Buf α) (q n i : Nat) :
    zipInto f dst p src q n i
      = if p ≤ i ∧ i < p + n then f (dst i) (src (q + (i - p))) else dst i := by
  refine loop_induct (P := fun k (m : Buf α) => ∀ i, m i
    = if p ≤ i ∧ i < p + k then f (dst i) (src (q + (i - p))) else dst i) n ?_ ?_ i
  · intro i
    rw [if_neg (by omega)]
  · intro k m _ hm i
    by_cases hi : i = p + k
    · subst hi
      rw [write_same, hm, if_neg (by omega), if_pos (by omega), Nat.add_sub_cancel_left]
    · rw [write_ne _ _ hi, hm i]
      by_cases hr : p ≤ i ∧ i < p + k
      · rw [if_pos hr, if_pos (by omega)]
      · rw [if_neg hr, if_neg (by omega)]

/-- `memcpy(dst + p, src + q, n)`. -/
def copy (dst : Buf α) (p : Nat) (src : Buf α) (q n : Nat) : Buf α :=
  zipInto (fun _ b => b) dst p src q n

/-- `memset(dst + p, a, n)`. -/
def fill (dst : Buf α) (p : Nat) (a : α) (n : Nat) : Buf α :=
  zipInto (fun _ b => b) dst p (fun _ => a) 0 n

/-- `for (i = 0; i < n; i++) dst[p+i] ^= src[q+i]`. -/
def xorInto [XorGroup α] (dst : Buf α) (p : Nat) (src : Buf α) (q n : Nat) : Buf α :=
  zipInto (fun a b => a + b) dst p src q n

theorem copy_apply (dst : Buf α) (p : Nat) (src : Buf α) (q n i : Nat) :
    copy dst p src q n i = if p ≤ i ∧ i < p + n then src (q + (i - p)) else dst i :=
  zipInto_apply _ dst p src q n i

theorem fill_apply (dst : Buf α) (p : Nat) (a : α) (n i : Nat) :
    fill dst p a n i = if p ≤ i ∧ i < p + n then a else dst i :=
  zipInto_apply _ dst p _ 0 n i

theorem xorInto_apply [XorGroup α] (dst : Buf α) (p : Nat) (src : Buf α) (q n i : Nat) :
    xorInto dst p src q n i
      = if p ≤ i ∧ i < p + n then dst i + src (q + (i - p)) else dst i :=
  zipInto_apply _ dst p src q n i

/-- Two neighbouring ranges in one go. -/
theorem zipInto_append (f : α → α → α) (dst : Buf α) (p : Nat) (src : Buf α) (q a b : Nat) :
    zipInto f (zipInto f dst p src q a) (p + a) src (q + a) b = zipInto f dst p src q (a + b) := by
  unfold zipInto
  rw [loop_add]
  refine loop_congr b _ fun i m _ => ?_
  rw [Nat.add_assoc, Nat.add_assoc]

theorem xorInto_append [XorGroup α] (dst : Buf α) (p : Nat) (src : Buf α) (q a b : Nat) :
    xorInto (xorInto dst p src q a) (p + a) src (q + a) b = xorInto dst p src q (a + b) :=
  zipInto_append _ dst p src q a b

/-! ## Rows -/

/-- Row `k` of a block of rows of `len` cells. -/
def row (len : Nat) (m : Buf α) (k : Nat) : Fin len → α := fun j => m (k * len + j)

@[simp] theorem row_apply (len : Nat) (m : Buf α) (k : Nat) (j : Fin len) :
    row len m k j = m (k * len + j) := rfl

/-- A pointer to a row. -/
theorem row_offset (len : Nat) (m : Buf α) (k : Nat) :
    row len (fun i => m (k * len + i)) 0 = row len m k := by
  funext j
  rw [row_apply, row_apply, Nat.zero_mul, Nat.zero_add]

/-- A row ends where the rows behind it begin, or earlier. -/
theorem row_end_le {k n : Nat} (len : Nat) (hk : k < n) : k * len + len ≤ n * len := by
  rw [← Nat.succ_mul]
  exact Nat.mul_le_mul_right len hk

/-- A cell of one of `n` rows. -/
theorem row_cell_lt {len k n j : Nat} (hk : k < n) (hj : j < len) : k * len + j < n * len :=
  (Nat.add_lt_add_left hj _).trans_le (row_end_le len hk)

/-- Cells of different rows are different cells. -/
theorem not_mem_row {len k k' j : Nat} (hk : k' ≠ k) (hj : j < len) :
    ¬ (k * len ≤ k' * len + j ∧ k' * len + j < k * len + len) := by
  rcases Nat.lt_or_gt_of_ne hk with h | h
  · have := row_end_le len h
    omega
  · have := row_end_le len h
    omega

/-- A cell is given by its row and its place there. -/
theorem row_cell_inj {len k k' j j' : Nat} (hj : j < len) (hj' : j' < len)
    (h : k * len + j = k' * len + j') : k = k' ∧ j = j' := by
  by_cases hk : k = k'
  · subst hk
    exact ⟨rfl, Nat.add_left_cancel h⟩
  · exact absurd ⟨by omega, by omega⟩ (not_mem_row (Ne.symm hk) hj')

theorem row_zipInto_same (f : α → α → α) (dst : Buf α) (k : Nat) (src : Buf α) (q len : Nat) :
    row len (zipInto f dst (k * len) src q len) k
      = fun j => f (row len dst k j) (src (q + j)) := by
  funext j
  have := j.isLt
  rw [row_apply, zipInto_apply, if_pos (by omega), Nat.add_sub_cancel_left, row_apply]

theorem row_zipInto_ne (f : α → α → α) (dst : Buf α) {k k' : Nat} (src : Buf α) (q len : Nat)
    (hk : k' ≠ k) : row len (zipInto f dst (k * len) src q len) k' = row len dst k' := by
  funext j
  rw [row_apply, zipInto_apply, if_neg (not_mem_row hk j.isLt), row_apply]

@[simp] theorem row_xorInto_same [XorGroup α] (dst : Buf α) (k : Nat) (src : Buf α)
    (q len : Nat) :
    row len (xorInto dst (k * len) src (q * len) len) k = row len dst k + row len src q :=
  row_zipInto_same _ dst k src (q * len) len

theorem row_xorInto_ne [XorGroup α] (dst : Buf α) {k k' : Nat} (src : Buf α) (q len : Nat)
    (hk : k' ≠ k) : row len (xorInto dst (k * len) src q len) k' = row len dst k' :=
  row_zipInto_ne _ dst src q len hk

@[simp] theorem row_copy_same (dst : Buf α) (k : Nat) (src : Buf α) (q len : Nat) :
    row len (copy dst (k * len) src (q * len) len) k = row len src q :=
  row_zipInto_same _ dst k src (q * len) len

theorem row_copy_ne (dst : Buf α) {k k' : Nat} (src : Buf α) (q len : Nat) (hk : k' ≠ k) :
    row len (copy dst (k * len) src q len) k' = row len dst k' :=
  row_zipInto_ne _ dst src q len hk

/-- A bulk operation that spans a row acts on the row. -/
theorem row_zipInto_span (f : α → α → α) (dst src : Buf α) {len k n : Nat}
    (h : (k + 1) * len ≤ n) :
    row len (zipInto f dst 0 src 0 n) k = fun j => f (row len dst k j) (row len src k j) := by
  funext j
  have := j.isLt
  rw [Nat.succ_mul] at h
  rw [row_apply, zipInto_apply, if_pos (by omega), Nat.sub_zero, Nat.zero_add]
  rfl

theorem row_copy_span (dst src : Buf α) {len k n : Nat} (h : (k + 1) * len ≤ n) :
    row len (copy dst 0 src 0 n) k = row len src k := row_zipInto_span _ dst src h

theorem row_xorInto_span [XorGroup α] (dst src : Buf α) {len k n : Nat}
    (h : (k + 1) * len ≤ n) :
    row len (xorInto dst 0 src 0 n) k = row len dst k + row len src k :=
  row_zipInto_span _ dst src h

/-- A loop that writes its rows in order leaves every one of them written. -/
theorem row_loop_copy (len n : Nat) (src : Nat → Buf α) (q : Nat → Nat) (dst : Buf α) {k : Nat}
    (hk : k < n) :
    row len (loop (fun i m => copy m (i * len) (src i) (q i * len) len) n dst) k
      = row len (src k) (q k) := by
  refine loop_settles (Q := fun k (m : Buf α) => row len m k = row len (src k) (q k)) n
    (fun i m _ => row_copy_same ..) (fun i k m hlt _ hm => ?_) hk
  rw [row_copy_ne m (src k) _ len (Nat.ne_of_lt hlt), hm]

/-- The rows such a loop does not come to stay. -/
theorem row_loop_copy_of_le (len n : Nat) (src : Nat → Buf α) (q : Nat → Nat) (dst : Buf α)
    {k : Nat} (hk : n ≤ k) :
    row len (loop (fun i m => copy m (i * len) (src i) (q i * len) len) n dst) k
      = row len dst k := by
  refine loop_induct (P := fun _ (m : Buf α) => row len m k = row len dst k) n rfl ?_
  intro i m hi hm
  rw [row_copy_ne m (src i) _ len (by omega), hm]

/-- The source's rows may lie anywhere. -/
theorem row_loop_copy_from (len n : Nat) (src : Buf α) (p : Nat → Nat) (dst : Buf α) {k : Nat}
    (hk : k < n) :
    row len (loop (fun i m => copy m (i * len) src (p i) len) n dst) k
      = fun j : Fin len => src (p k + j) := by
  refine loop_settles (Q := fun k (m : Buf α) =>
    row len m k = fun j : Fin len => src (p k + j)) n
    (fun i m _ => ?_) (fun i k m hlt _ hm => ?_) hk
  · funext j
    have := j.isLt
    rw [row_apply, copy_apply, if_pos (by omega), Nat.add_sub_cancel_left]
  · rw [← hm]
    funext j
    rw [row_apply, row_apply, copy_apply, if_neg (not_mem_row (Nat.ne_of_lt hlt) j.isLt)]

/-- Rows written by nested loops, `n` of them in each round of the outer one. -/
theorem row_loop_loop_copy (len n : Nat) {rounds : Nat} (src : Nat → Nat → Buf α)
    (q : Nat → Nat → Nat) (dst : Buf α) {i j : Nat} (hi : i < rounds) (hj : j < n) :
    row len (loop (fun i => loop (fun j m => copy m ((i * n + j) * len) (src i j) (q i j * len) len)
      n) rounds dst) (i * n + j) = row len (src i j) (q i j) := by
  refine loop_settles (Q := fun i (m : Buf α) =>
    row len m (i * n + j) = row len (src i j) (q i j)) rounds ?_ ?_ hi
  · intro i m _
    refine loop_settles (Q := fun j (m : Buf α) =>
      row len m (i * n + j) = row len (src i j) (q i j)) n (fun j m _ => row_copy_same ..) ?_ hj
    intro j j' m hlt _ hm
    rw [row_copy_ne _ _ _ _ (by omega), hm]
  · intro i i' m hlt _ hm
    refine loop_induct (P := fun _ (m : Buf α) =>
      row len m (i * n + j) = row len (src i j) (q i j)) n hm ?_
    intro j' m hj' hm
    rw [row_copy_ne _ _ _ _ fun he => Nat.ne_of_lt hlt (row_cell_inj hj hj' he).1, hm]

/-- A block that starts with the cells of `r`. -/
def ofRow [Zero α] {len : Nat} (r : Fin len → α) : Buf α :=
  fun i => if h : i < len then r ⟨i, h⟩ else 0

theorem ofRow_apply [Zero α] {len i : Nat} (r : Fin len → α) (h : i < len) :
    ofRow r i = r ⟨i, h⟩ := dif_pos h

@[simp] theorem row_ofRow [Zero α] {len : Nat} (r : Fin len → α) : row len (ofRow r) 0 = r := by
  funext j
  rw [row_apply, Nat.zero_mul, Nat.zero_add, ofRow_apply r j.isLt]

theorem ofRow_row [Zero α] {len j : Nat} (m : Buf α) (k : Nat) (hj : j < len) :
    ofRow (row len m k) j = m (k * len + j) := ofRow_apply _ hj

/-- A block made of rows. -/
def ofRows [Zero α] {len : Nat} (t : Buf (Fin len → α)) : Buf α :=
  fun i => ofRow (t (i / len)) (i % len)

@[simp] theorem row_ofRows [Zero α] {len : Nat} (t : Buf (Fin len → α)) (k : Nat) :
    row len (ofRows t) k = t k := by
  funext j
  have hlen : 0 < len := (Nat.zero_le _).trans_lt j.isLt
  have hdiv : (k * len + j) / len = k := by
    rw [Nat.mul_comm, Nat.mul_add_div hlen, Nat.div_eq_of_lt j.isLt, Nat.add_zero]
  have hmod : (k * len + j) % len = j := by
    rw [Nat.mul_comm, Nat.mul_add_mod, Nat.mod_eq_of_lt j.isLt]
  rw [row_apply, ofRows, hdiv, hmod, ofRow_apply _ j.isLt]

/-- A row of a row: `n` rows of `len` cells make a row of `n * len`. -/
theorem row_row (len n : Nat) (m : Buf α) (h : Nat) {r : Nat} (hr : r < n) :
    row len m (h * n + r) = fun j : Fin len => row (n * len) m h ⟨r * len + j,
      calc r * len + j < (r + 1) * len := by rw [Nat.succ_mul]; exact Nat.add_lt_add_left j.isLt _
        _ ≤ n * len := Nat.mul_le_mul_right len hr⟩ := by
  funext j
  rw [row_apply, row_apply]
  congr 1
  ring

/-- Adding the same cells twice leaves the block as it was. -/
@[simp] theorem xorInto_xorInto [XorGroup α] (dst : Buf α) (p : Nat) (src : Buf α) (q n : Nat) :
    xorInto (xorInto dst p src q n) p src q n = dst := by
  funext i
  rw [xorInto_apply, xorInto_apply]
  split
  · exact XorGroup.add_cancel_right _ _
  · rfl

end Buf

end Lib
