import Mathlib.Algebra.Polynomial.BigOperators
import Mathlib.LinearAlgebra.Lagrange

/-!
# Polynomials with given roots and values

`BuildFromRoots` and `interpolate` of NTL, which is not part of the repository: both are defined
here by what its documentation says they compute. A multiple of the polynomial with roots at all
points can be added to an interpolant without changing its values there.
-/

namespace MultiPartyPSI

open Polynomial

/-- The monic polynomial with the given roots. -/
noncomputable def rootsPoly {R : Type*} [CommRing R] (l : List R) : R[X] :=
  (l.map fun a => X - C a).prod

theorem eval_rootsPoly {R : Type*} [CommRing R] {l : List R} {a : R} (ha : a ∈ l) :
    (rootsPoly l).eval a = 0 := by
  rw [rootsPoly, eval_list_prod, List.map_map]
  refine List.prod_eq_zero (List.mem_map.mpr ⟨a, ha, ?_⟩)
  simp

theorem rootsPoly_cons {R : Type*} [CommRing R] (a : R) (l : List R) :
    rootsPoly (a :: l) = (X - C a) * rootsPoly l :=
  List.prod_cons

theorem monic_rootsPoly {R : Type*} [CommRing R] (l : List R) : (rootsPoly l).Monic := by
  induction l with
  | nil => exact monic_one
  | cons a l ih =>
      rw [rootsPoly_cons]
      exact (monic_X_sub_C a).mul ih

theorem natDegree_rootsPoly {R : Type*} [CommRing R] [Nontrivial R] (l : List R) :
    (rootsPoly l).natDegree = l.length := by
  induction l with
  | nil => exact natDegree_one
  | cons a l ih =>
      rw [rootsPoly_cons, (monic_X_sub_C a).natDegree_mul (monic_rootsPoly l), natDegree_X_sub_C,
        ih, List.length_cons, Nat.add_comm]

section Interpolate

variable {E : Type*} [Field E]

/-- `interpolate(f, a, b)`: the polynomial of least degree that takes the values `b` at `a`. -/
noncomputable def interpolate (a b : List E) : E[X] :=
  Lagrange.interpolate Finset.univ a.get fun i => b.getD i 0

theorem interpolate_nil (b : List E) : interpolate [] b = 0 := by
  have hempty : (Finset.univ : Finset (Fin ([] : List E).length)) = ∅ := rfl
  rw [interpolate, hempty, Lagrange.interpolate_empty]

theorem rootsPoly_nil : rootsPoly ([] : List E) = 1 := List.prod_nil

variable {a : List E} (ha : a.Nodup)
include ha

theorem degree_interpolate_lt (b : List E) : (interpolate a b).degree < a.length := by
  have hlt := Lagrange.degree_interpolate_lt (s := Finset.univ) (v := a.get)
    (fun i => b.getD i 0) (ha.injective_get.injOn)
  rwa [Finset.card_univ, Fintype.card_fin] at hlt

theorem eval_interpolate (b : List E) (i : Fin a.length) :
    (interpolate a b).eval (a.get i) = b.getD i 0 :=
  Lagrange.eval_interpolate_at_node _ ha.injective_get.injOn (Finset.mem_univ i)

/-- One value at all points. -/
theorem interpolate_eq_C {b : List E} {c : E} (hne : 0 < a.length)
    (hb : ∀ i < a.length, b.getD i 0 = c) : interpolate a b = C c := by
  refine (Lagrange.eq_interpolate_of_eval_eq _ ha.injective_get.injOn ?_ fun i _ => ?_).symm
  · rw [Finset.card_univ, Fintype.card_fin]
    exact degree_C_le.trans_lt (Nat.cast_pos.mpr hne)
  · rw [eval_C, hb i i.isLt]

variable {r : E[X]} {n : ℕ} (hn : a.length ≤ n) (hr : r.degree < (n - a.length : ℕ))
include hn hr

/-- A random multiple fills up the degree. -/
theorem degree_mul_rootsPoly_add_lt (b : List E) :
    (r * rootsPoly a + interpolate a b).degree < n := by
  refine (degree_add_le _ _).trans_lt (max_lt ?_ ?_)
  · rcases eq_or_ne r 0 with rfl | hne
    · rw [zero_mul, degree_zero]
      exact WithBot.bot_lt_coe n
    · have hnat : r.natDegree < n - a.length := (natDegree_lt_iff_degree_lt hne).mpr hr
      have hmul : (r * rootsPoly a).natDegree < n := by
        rw [mul_comm, (monic_rootsPoly a).natDegree_mul' hne, natDegree_rootsPoly]
        omega
      exact degree_le_natDegree.trans_lt (Nat.cast_lt.mpr hmul)
  · exact (degree_interpolate_lt ha b).trans_le (Nat.cast_le.mpr hn)

omit hn hr in
/-- And it keeps the values. -/
theorem eval_mul_rootsPoly_add (r : E[X]) (b : List E) (i : Fin a.length) :
    (r * rootsPoly a + interpolate a b).eval (a.get i) = b.getD i 0 := by
  rw [eval_add, eval_mul, eval_rootsPoly (List.get_mem a i), mul_zero, zero_add,
    eval_interpolate ha]

end Interpolate

/-- The values at the points of a list. -/
theorem eval_mul_rootsPoly_add_map {ι E : Type*} [Field E] {l : List ι} {f g : ι → E}
    (hf : (l.map f).Nodup) {x : ι} (hx : x ∈ l) (r : E[X]) :
    (r * rootsPoly (l.map f) + interpolate (l.map f) (l.map g)).eval (f x) = g x := by
  obtain ⟨i, hi, rfl⟩ := List.mem_iff_getElem.mp hx
  have heval := eval_mul_rootsPoly_add hf r (l.map g) ⟨i, by rwa [List.length_map]⟩
  rw [List.get_eq_getElem, List.getElem_map] at heval
  rw [heval, List.getD_eq_getElem?_getD, List.getElem?_map, List.getElem?_eq_getElem hi]
  rfl

end MultiPartyPSI
