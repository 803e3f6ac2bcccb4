import MultiPartyPSI.Defs

/-!
# Byte array helpers of the filter

`Util.h` of the garbled Bloom filter. `xorByteArray` works in machine words, with the
usual lengths unrolled; since XOR has no carries it is `XOR` on every length.
-/

namespace MultiPartyPSI

open Lib Buf

/-- `for (i = 0; i < count; i++) words[i] ^= words2[i]`, on words of `size` bytes that
start at `inOut + p` and `in2 + q`. -/
def xorWords (size count : Nat) (inOut : Buf Byte) (p : Nat) (in2 : Buf Byte) (q : Nat) :
    Buf Byte :=
  loop (fun i m => XOR m (p + i * size) in2 (q + i * size) size) count inOut

/-- `xorByteArray`, on `inOut + p` and `in2 + q`. -/
def xorByteArray (inOut : Buf Byte) (p : Nat) (in2 : Buf Byte) (q len : Nat) : Buf Byte :=
  if len = 10 then
    xorWords 1 2 (xorWords 8 1 inOut p in2 q) (p + 8) in2 (q + 8)
  else if len = 16 then xorWords 8 2 inOut p in2 q
  else if len = 24 then xorWords 8 3 inOut p in2 q
  else if len = 32 then xorWords 8 4 inOut p in2 q
  else if len = 20 then xorWords 4 5 inOut p in2 q
  else
    let intLen := len / 4
    let r := len % 4
    if r = 0 then xorWords 4 intLen inOut p in2 q
    else xorWords 4 intLen (xorWords 1 r inOut p in2 q) (p + r) in2 (q + r)

/-- `exists`: `idx` is among the first `i` entries of `indHis`. -/
def existsIn (idx : Nat) (indHis : Buf Nat) (i : Nat) : Bool :=
  (List.range i).any fun j => indHis j == idx

theorem xorWords_eq (size count : Nat) (inOut : Buf Byte) (p : Nat) (in2 : Buf Byte) (q : Nat) :
    xorWords size count inOut p in2 q = XOR inOut p in2 q (count * size) := by
  refine loop_induct (P := fun i m => m = XOR inOut p in2 q (i * size)) count ?_ ?_
  · rw [Nat.zero_mul]
    rfl
  · intro i m _ hm
    rw [hm, XOR_eq_xorInto, XOR_eq_xorInto, XOR_eq_xorInto, xorInto_append, Nat.succ_mul]

/-- On every length, the unrolled ones included. -/
@[simp] theorem xorByteArray_eq (inOut : Buf Byte) (p : Nat) (in2 : Buf Byte) (q len : Nat) :
    xorByteArray inOut p in2 q len = XOR inOut p in2 q len := by
  have happend : ∀ a b : Nat, XOR (XOR inOut p in2 q a) (p + a) in2 (q + a) b
      = XOR inOut p in2 q (a + b) := fun a b => xorInto_append inOut p in2 q a b
  unfold xorByteArray
  simp only [xorWords_eq]
  by_cases h10 : len = 10
  · rw [if_pos h10, h10]
    exact happend 8 2
  · rw [if_neg h10]
    -- in the other unrolled cases the words tile the array
    split_ifs with h16 h24 h32 h20 hr
    · rw [h16]
    · rw [h24]
    · rw [h32]
    · rw [h20]
    · rw [Nat.div_mul_cancel (Nat.dvd_of_mod_eq_zero hr)]
    · rw [Nat.mul_one, happend]
      congr 1
      omega

theorem existsIn_iff {idx : Nat} {indHis : Buf Nat} {i : Nat} :
    existsIn idx indHis i = true ↔ ∃ j < i, indHis j = idx := by
  rw [existsIn, List.any_eq_true]
  exact ⟨fun ⟨j, hj, h⟩ => ⟨j, List.mem_range.mp hj, eq_of_beq h⟩,
    fun ⟨j, hj, h⟩ => ⟨j, List.mem_range.mpr hj, beq_iff_eq.mpr h⟩⟩

end MultiPartyPSI
