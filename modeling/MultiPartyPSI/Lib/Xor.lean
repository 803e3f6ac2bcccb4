import Mathlib.Algebra.BigOperators.Group.Finset.Basic
import Mathlib.Algebra.BigOperators.Group.List.Basic
import Mathlib.Algebra.BigOperators.Pi
import Mathlib.Data.Fintype.EquivFin
import Mathlib.Tactic.Abel

/-!
# Groups in which every element is its own inverse

Masks, shares and pads are byte strings under exclusive or. Written with `^^^`
that is a fact about machine words; written additively it is a commutative group
in which `a + a = 0`, and every finite XOR becomes a `Finset.sum` that the whole
of the big-operator library already knows how to reorder.

`XorGroup` is that structure, `XorVec w` is the instance that matters: a `w`-bit
vector whose addition *is* exclusive or.
-/

namespace Lib

/-- A commutative group of exponent two. -/
class XorGroup (G : Type*) extends AddCommGroup G where
  /-- Every element cancels itself. -/
  add_self : ∀ a : G, a + a = 0

namespace XorGroup

variable {G : Type*} [XorGroup G]

@[simp] theorem add_self_eq (a : G) : a + a = 0 := XorGroup.add_self a

@[simp] theorem neg_eq (a : G) : -a = a := neg_eq_of_add_eq_zero_left (XorGroup.add_self a)

@[simp] theorem add_cancel_right (a b : G) : a + b + b = a := by
  rw [add_assoc, add_self_eq, add_zero]

@[simp] theorem add_cancel_left (a b : G) : a + (a + b) = b := by
  rw [← add_assoc, add_self_eq, zero_add]

/-- A sum vanishes exactly when its two halves agree. -/
theorem add_eq_zero_iff {a b : G} : a + b = 0 ↔ a = b := by
  rw [add_eq_zero_iff_eq_neg, neg_eq]

/-- Moving a summand across an equation. -/
theorem eq_add_iff {a b c : G} : a = b + c ↔ a + c = b := by
  refine ⟨?_, ?_⟩
  · intro h
    rw [h]
    exact add_cancel_right b c
  · intro h
    rw [← h]
    exact (add_cancel_right a c).symm

instance {ι : Type*} {H : ι → Type*} [∀ i, XorGroup (H i)] : XorGroup (∀ i, H i) where
  add_self a := funext fun i => XorGroup.add_self (a i)

end XorGroup

/-- A vector of `w` bits, added by exclusive or. -/
def XorVec (w : Nat) : Type := BitVec w

namespace XorVec

variable {w : Nat}

instance : DecidableEq (XorVec w) := inferInstanceAs (DecidableEq (BitVec w))

instance : Inhabited (XorVec w) := inferInstanceAs (Inhabited (BitVec w))

instance : Fintype (XorVec w) :=
  Fintype.ofEquiv (Fin (2 ^ w))
    ⟨fun x => (⟨x⟩ : BitVec w), fun v => BitVec.toFin v, fun _ => rfl, fun _ => rfl⟩

/-- The bit vector a word is made of. -/
def toBits (a : XorVec w) : BitVec w := a

/-- The word made of a bit vector. -/
def ofBits (a : BitVec w) : XorVec w := a

@[simp] theorem toBits_ofBits (a : BitVec w) : (ofBits a).toBits = a := rfl

@[simp] theorem ofBits_toBits (a : XorVec w) : ofBits a.toBits = a := rfl

theorem toBits_injective : Function.Injective (toBits : XorVec w → BitVec w) := fun _ _ h => h

instance : XorOp (XorVec w) := ⟨fun a b => ofBits (a.toBits ^^^ b.toBits)⟩

instance : AndOp (XorVec w) := ⟨fun a b => ofBits (a.toBits &&& b.toBits)⟩

instance : Zero (XorVec w) := ⟨ofBits 0#w⟩

instance : Add (XorVec w) := ⟨fun a b => a ^^^ b⟩

instance : Neg (XorVec w) := ⟨fun a => a⟩

instance : XorGroup (XorVec w) where
  add_assoc a b c := BitVec.xor_assoc a.toBits b.toBits c.toBits
  zero_add _ := BitVec.zero_xor
  add_zero _ := BitVec.xor_zero
  neg_add_cancel _ := BitVec.xor_self
  add_comm a b := BitVec.xor_comm a.toBits b.toBits
  add_self _ := BitVec.xor_self
  nsmul := nsmulRec
  zsmul := zsmulRec

@[simp] theorem toBits_zero : (0 : XorVec w).toBits = 0#w := rfl

@[simp] theorem toBits_add (a b : XorVec w) : (a + b).toBits = a.toBits ^^^ b.toBits := rfl

@[simp] theorem toBits_and (a b : XorVec w) : (a &&& b).toBits = a.toBits &&& b.toBits := rfl

end XorVec

/-- Eight bits. -/
abbrev Byte := XorVec 8

end Lib
