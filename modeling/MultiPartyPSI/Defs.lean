import MultiPartyPSI.Lib.Buffer

/-!
# Shared definitions

`defs.h` and `defs.cpp`. Masks and shares are byte strings of one length per run,
stored one after another, and everything done to them is `XOR`.

Sizes, offsets and counters are natural numbers: as lengths of arrays and positions in them
they fit the machine's 32-bit types. The products that leave 32 bits while the arrays still
fit are written out with their reduction: the number of OTs, the bits of the choices and the
positions in them, the length of an expanded key, the mask size, and the bounds of the
leader's threads.
-/

namespace MultiPartyPSI

open Lib Buf

/-- `XOR`, on `xoree1 + p` and `xoree2 + q`. -/
def XOR (xoree1 : Buf Byte) (p : Nat) (xoree2 : Buf Byte) (q size : Nat) : Buf Byte :=
  loop (fun i m => m.write (p + i) (m (p + i) ^^^ xoree2 (q + i))) size xoree1

/-- `isZero`, on `arr + p`. -/
def isZero (arr : Buf Byte) (p size : Nat) : Bool :=
  (List.range size).all fun i => arr (p + i) == 0

/-- `CuckooHashInfo`. -/
structure CuckooHashInfo where
  binIndex : Int
  tableIndex : Int
  hashedBy : Nat

theorem XOR_eq_xorInto (a : Buf Byte) (p : Nat) (b : Buf Byte) (q size : Nat) :
    XOR a p b q size = xorInto a p b q size := rfl

section Rows

variable (a b : Buf Byte) (p k q w : Nat)

@[simp] theorem row_XOR_same :
    row w (XOR a (k * w) b (q * w) w) k = row w a k + row w b q := row_xorInto_same a k b q w

theorem row_XOR_ne {k k' : Nat} (q : Nat) (hk : k' ≠ k) :
    row w (XOR a (k * w) b q w) k' = row w a k' := row_xorInto_ne a b q w hk

@[simp] theorem XOR_XOR : XOR (XOR a p b q w) p b q w = a := xorInto_xorInto a p b q w

theorem isZero_row : isZero a (k * w) w = true ↔ row w a k = 0 := by
  rw [isZero, List.all_eq_true]
  refine ⟨?_, ?_⟩
  · intro h
    funext j
    exact eq_of_beq (h j (List.mem_range.mpr j.isLt))
  · intro h j hj
    exact beq_iff_eq.mpr (congrFun h ⟨j, List.mem_range.mp hj⟩)

end Rows

end MultiPartyPSI
