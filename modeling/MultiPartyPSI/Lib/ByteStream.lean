import MultiPartyPSI.Lib.Proc
import MultiPartyPSI.Lib.Xor
import Mathlib.Data.List.SplitLengths

/-!
# Bytes over channels

A socket carries bytes, so what is sent as one block can be asked for in other portions.
The messages of a network are then single bytes, besides messages of another type `Γ`. A
program sends and waits for lists of bytes, and `stamped` lists are what its plan is about.
-/

namespace Lib

variable {P Γ R : Type*}

/-- The byte of a message. -/
def byteOf : Byte ⊕ Γ → Byte := Sum.elim id fun _ => 0

/-- Send some bytes to one process. -/
def Proc.sendBytes (d : P) (l : List Byte) : Proc P (Byte ⊕ Γ) Unit :=
  (Proc.sendList d (l.map .inl)).bind fun _ => .ret ()

/-- Wait for `n` bytes of one process. -/
def Proc.receiveBytes (s : P) (n : ℕ) : Proc P (Byte ⊕ Γ) (List Byte) :=
  (Proc.receiveList s n).bind fun l => .ret (l.map byteOf)

/-- Blocks that are asked for by their lengths are cut up as they were. -/
theorem splitLengths_flatten {α : Type*} (blocks : List (List α)) :
    (blocks.map List.length).splitLengths blocks.flatten = blocks := by
  induction blocks with
  | nil => rfl
  | cons block blocks ih =>
      rw [List.map_cons, List.flatten_cons, List.splitLengths_cons, List.take_left, List.drop_left,
        ih]

/-- Bytes sent at time `t`. -/
def stamped (t : ℕ) (l : List Byte) : List (ℕ × (Byte ⊕ Γ)) := l.map fun b => (t, .inl b)

@[simp] theorem stamped_nil (t : ℕ) : (stamped t [] : List (ℕ × (Byte ⊕ Γ))) = [] := rfl

theorem stamped_append (t : ℕ) (l l' : List Byte) :
    (stamped t (l ++ l') : List (ℕ × (Byte ⊕ Γ))) = stamped t l ++ stamped t l' :=
  List.map_append

section Plans

variable [DecidableEq P]

/-- Traffic with one process. -/
def toOnly (q : P) (items : List (ℕ × (Byte ⊕ Γ))) : Traffic P (Byte ⊕ Γ) :=
  fun q' => if q' = q then items else []

@[simp] theorem toOnly_self (q : P) (items : List (ℕ × (Byte ⊕ Γ))) : toOnly q items q = items :=
  if_pos rfl

theorem toOnly_ne {q q' : P} (items : List (ℕ × (Byte ⊕ Γ))) (h : q' ≠ q) :
    toOnly q items q' = [] := if_neg h

@[simp] theorem toOnly_nil (q q' : P) : toOnly q ([] : List (ℕ × (Byte ⊕ Γ))) q' = [] := by
  unfold toOnly
  split <;> rfl

theorem toOnly_append (q : P) (l l' : List (ℕ × (Byte ⊕ Γ))) (q' : P) :
    toOnly q (l ++ l') q' = toOnly q l q' ++ toOnly q l' q' := by
  unfold toOnly
  split <;> rfl

theorem Plan.sendBytes (t : ℕ) (d : P) (l : List Byte) :
    Plan t (Proc.sendBytes (Γ := Γ) d l) (fun _ => []) (toOnly d (stamped t l)) () t := by
  refine ((Plan.sendList t d (l.map Sum.inl)).bind (.ret () le_rfl)).congr (fun q => rfl)
    fun q => ?_
  rw [List.append_nil, List.map_map]
  rfl

theorem Plan.receiveBytes {τ t n : ℕ} (hτ : τ < t) (s : P) (l : List Byte) (hn : l.length = n) :
    Plan t (Proc.receiveBytes (Γ := Γ) s n) (toOnly s (stamped τ l)) (fun _ => []) l t := by
  have hl : ((l.map Sum.inl).map (byteOf : Byte ⊕ Γ → Byte)) = l := by
    rw [List.map_map]
    exact List.map_id l
  have hlist := Plan.receiveList hτ s (l.map (Sum.inl : Byte → Byte ⊕ Γ))
    (by rw [List.length_map, hn])
  have h := Plan.bind (f := fun l => .ret (l.map byteOf)) hlist (.ret _ le_rfl)
  rw [hl] at h
  refine h.congr (fun q => ?_) fun q => rfl
  rw [List.append_nil, List.map_map]
  rfl

/-- Something is computed in the end. -/
theorem Plan.map {R' : Type*} {t t' : ℕ} {p : Proc P (Byte ⊕ Γ) R} {inp out : Traffic P (Byte ⊕ Γ)}
    {r : R} (f : R → R') (h : Plan t p inp out r t') :
    Plan t (p.bind fun r => .ret (f r)) inp out (f r) t' :=
  (Plan.bind h (.ret (f r) le_rfl)).congr (fun _ => List.append_nil _) fun _ => List.append_nil _

/-- Wait for a block, send an answer to it, and return something. -/
theorem Plan.answer {τ t n : ℕ} (hτ : τ < t) (s : P) (l : List Byte) (hn : l.length = n)
    (f : List Byte → List Byte) (g : List Byte → R) :
    Plan t ((Proc.receiveBytes s n).bind fun l => (Proc.sendBytes s (f l)).bind fun _ => .ret (g l))
      (toOnly s (stamped τ l)) (toOnly (Γ := Γ) s (stamped t (f l))) (g l) t := by
  have hsend := Plan.bind (f := fun _ => .ret (g l)) (Plan.sendBytes (Γ := Γ) t s (f l))
    (.ret (g l) le_rfl)
  exact (Plan.bind (f := fun l => (Proc.sendBytes s (f l)).bind fun _ => .ret (g l))
    (Plan.receiveBytes hτ s l hn) hsend).congr (fun q => List.append_nil _)
    fun q => List.append_nil _

/-- Send a block, wait for the answer, and return something. -/
theorem Plan.ask {t n : ℕ} (s : P) (l answer : List Byte) (hn : answer.length = n)
    (g : List Byte → R) :
    Plan t ((Proc.sendBytes s l).bind fun _ => (Proc.receiveBytes s n).bind fun a => .ret (g a))
      (toOnly s (stamped (t + 1) answer)) (toOnly (Γ := Γ) s (stamped t l)) (g answer) (t + 2) := by
  have hrecv := Plan.bind (f := fun a => .ret (g a))
    (Plan.receiveBytes (Γ := Γ) (Nat.lt_succ_self (t + 1)) s answer hn) (.ret (g answer) le_rfl)
  exact (Plan.bind (f := fun _ => (Proc.receiveBytes s n).bind fun a => .ret (g a))
    (Plan.sendBytes t s l) (hrecv.mono (Nat.le_add_right t 2))).congr
    (fun q => List.append_nil _) fun q => List.append_nil _

/-- What comes first of a stream, and then the rest of it. -/
theorem Plan.bind_toOnly {R' : Type*} {t t' t'' : ℕ} {q : P} {p : Proc P (Byte ⊕ Γ) R}
    {f : R → Proc P (Byte ⊕ Γ) R'} {i i' : List (ℕ × (Byte ⊕ Γ))}
    {out out' : Traffic P (Byte ⊕ Γ)} {r : R} {r' : R'}
    (h : Plan t p (toOnly q i) out r t') (h' : Plan t' (f r) (toOnly q i') out' r' t'') :
    Plan t (p.bind f) (toOnly q (i ++ i')) (fun d => out d ++ out' d) r' t'' :=
  (Plan.bind h h').congr (fun s => (toOnly_append q i i' s).symm) fun _ => rfl

/-- Blocks sent one after the other are one stream. -/
theorem Plan.sendBlocks (t : ℕ) (d : P) (blocks : List (List Byte)) :
    Plan t (Proc.collect (Proc.sendBytes (Γ := Γ) d) blocks) (fun _ => [])
      (toOnly d (stamped t blocks.flatten)) (blocks.map fun _ => ()) t := by
  induction blocks with
  | nil => exact (Plan.ret [] le_rfl).congr (fun _ => rfl) fun q => (toOnly_nil d q).symm
  | cons block blocks ih =>
      refine (Plan.bind (Plan.sendBytes t d block) (Plan.map _ ih)).congr (fun _ => rfl) fun q => ?_
      rw [← toOnly_append, ← stamped_append]
      rfl

/-- They can be received as other blocks, if it is as many bytes. -/
theorem Plan.receiveBlocks {τ t : ℕ} (hτ : τ < t) (s : P) {lengths : List ℕ} {stream : List Byte}
    (h : stream.length = lengths.sum) :
    Plan t (Proc.collect (Proc.receiveBytes (Γ := Γ) s) lengths) (toOnly s (stamped τ stream))
      (fun _ => []) (lengths.splitLengths stream) t := by
  induction lengths generalizing stream with
  | nil =>
      rw [List.length_eq_zero_iff.mp h]
      exact (Plan.ret [] le_rfl).congr (fun q => (toOnly_nil s q).symm) fun _ => rfl
  | cons n lengths ih =>
      rw [List.sum_cons] at h
      have hfirst : (stream.take n).length = n := List.length_take_of_le (by omega)
      have hrest : (stream.drop n).length = lengths.sum := by
        rw [List.length_drop]
        omega
      rw [← List.take_append_drop n stream, stamped_append, List.take_append_drop,
        List.splitLengths_cons]
      exact Plan.bind_toOnly (Plan.receiveBytes hτ s _ hfirst) (Plan.map _ (ih hrest))

end Plans

end Lib
