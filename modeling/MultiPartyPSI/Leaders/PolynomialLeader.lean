import MultiPartyPSI.Leaders.Leader
import MultiPartyPSI.Util.PolynomialUtils

/-!
# The polynomial leaders

`PolynomialLeader.cpp` and `SimpleHashingPolynomialLeader.cpp`. A follower
sends polynomials that take its masks as values; the leader evaluates the one for the hash
function (and bin) at its element and adds the value as a byte string.

The value is written with as many bytes as it needs, but the addition always runs over the
length of a mask. So a value whose high byte is zero makes the leader read behind the end of
the bytes. `accepts_iff` says that this is the only way in which the check goes wrong. The
followers, who send coefficients in the same form, fill them up with zeros.
-/

namespace MultiPartyPSI

open Lib Buf

section Model

variable {E Poly : Type*}

/-- `XOR` with the data of a vector. It fails where it reads behind the vector's end. -/
def xorVector (xoree1 : Buf Byte) (p : Nat) (arr : List Byte) (size : Nat) : Option (Buf Byte) :=
  loopM (fun i m => arr[i]?.map fun a => m.write (p + i) (m (p + i) ^^^ a)) size xoree1

/-- What both polynomial leaders hold; the followers are the parties from 2 on. -/
structure PolynomialLeader (E Poly : Type*) where
  ops : GF2EOps E Poly
  numParties : Nat
  numOfBins : Nat
  maskSizeInBytes : Nat
  elements : Buf Byte
  elementSize : Nat
  leaderResults : Nat → Buf Byte
  partiesPolynomials : Nat → Nat → Poly

variable (l : PolynomialLeader E Poly)

/-- The value at element `index` of polynomial `polynomial` of follower `p`. -/
def PolynomialLeader.value (polynomial index p : Nat) : E :=
  l.ops.eval (l.partiesPolynomials p polynomial)
    (convertBytesToGF2E l.ops l.elements (index * l.elementSize) l.elementSize)

/-- The `isElementInAllSets` of both leaders, with the polynomial that each follower's
polynomials are taken from, and `secret` at `pos`. -/
def PolynomialLeader.check (polynomial index tableIndex pos : Nat) (share : Buf Byte) :
    Option (Bool × Buf Byte) :=
  (loopM (fun i share =>
      xorVector (XOR share pos (l.leaderResults (i + 2)) (tableIndex * l.maskSizeInBytes)
          l.maskSizeInBytes) pos
        (convertElementToBytes l.ops (l.value polynomial index (i + 2))) l.maskSizeInBytes)
    l.numParties share).map fun share => (isZero share pos l.maskSizeInBytes, share)

/-- `PolynomialLeader::isElementInAllSets`. -/
def PolynomialLeader.isElementInAllSets (index binIndex tableIndex hashFuncIndex : Nat)
    (share : Buf Byte) : Option (Bool × Buf Byte) :=
  l.check hashFuncIndex index tableIndex (binIndex * l.maskSizeInBytes) share

/-- `SimpleHashingPolynomialLeader::isElementInAllSets`. -/
def PolynomialLeader.simpleHashingIsElementInAllSets (index binIndex tableIndex
    hashFuncIndex : Nat) (share : Buf Byte) : Option (Bool × Buf Byte) :=
  l.check (hashFuncIndex * l.numOfBins + binIndex) index tableIndex
    (binIndex * l.maskSizeInBytes) share

end Model

/-! ## What the check adds -/

section Check

variable {E Poly : Type*} {w : Nat}

/-- Within its bytes a vector behaves like the number it was made of. -/
theorem xorVector_element (ops : GF2EOps E Poly) (v : E) (m : Buf Byte) (p : Nat)
    (hw : w ≤ numBytes (ops.rep v)) :
    xorVector m p (convertElementToBytes ops v) w = some (XOR m p (ofNatLE (ops.rep v)) 0 w) := by
  have hget : ∀ i < w, (convertElementToBytes ops v)[i]? = some (ofNatLE (ops.rep v) i) := by
    intro i hi
    rw [convertElementToBytes, convertGF2XToBytes, bytesFromGF2X, List.getElem?_map,
      List.getElem?_range (by omega)]
    rfl
  unfold xorVector
  obtain ⟨t, ht, rfl⟩ := loopM_total (P := fun i (t : Buf Byte) =>
      t = XOR m p (ofNatLE (ops.rep v)) 0 i)
    (f := fun i m => (convertElementToBytes ops v)[i]?.map fun a =>
      m.write (p + i) (m (p + i) ^^^ a)) (s := m) w rfl fun i t hi ht => by
      refine ⟨_, by rw [hget i hi]; rfl, ?_⟩
      rw [ht, XOR, XOR, loop_succ, Nat.zero_add]
  exact ht

/-- Beyond them it is read outside. -/
theorem le_numBytes_of_xorVector {ops : GF2EOps E Poly} {v : E} {m m' : Buf Byte} {p : Nat}
    (h : xorVector m p (convertElementToBytes ops v) w = some m') :
    w ≤ numBytes (ops.rep v) := by
  rw [← length_convertElementToBytes]
  refine loopM_induct (P := fun i (_ : Buf Byte) => i ≤ (convertElementToBytes ops v).length) w h
    (Nat.zero_le _) ?_
  intro i t t' _ _ hstep
  obtain ⟨a, ha, -⟩ := Option.map_eq_some_iff.mp hstep
  exact (List.getElem?_eq_some_iff.mp ha).1

variable (l : PolynomialLeader E Poly)

/-- The check is right: it touches only bytes that exist, adds to the share of its bin the
leader's results and the encodings of the values, and accepts exactly if that gives zero. -/
def PolynomialLeader.Accepts (polynomial index b tableIndex : Nat) (share : Buf Byte)
    (res : Option (Bool × Buf Byte)) : Prop :=
  ∃ r, res = some r ∧
    row l.maskSizeInBytes r.2 b = row l.maskSizeInBytes share b
      + ∑ p ∈ Finset.Ico 2 (2 + l.numParties),
          (row l.maskSizeInBytes (l.leaderResults p) tableIndex
            + encoding l.ops l.maskSizeInBytes (l.value polynomial index p)) ∧
    (∀ b', b' ≠ b → row l.maskSizeInBytes r.2 b' = row l.maskSizeInBytes share b') ∧
    (r.1 = true ↔ row l.maskSizeInBytes share b
      + ∑ p ∈ Finset.Ico 2 (2 + l.numParties),
          (row l.maskSizeInBytes (l.leaderResults p) tableIndex
            + encoding l.ops l.maskSizeInBytes (l.value polynomial index p)) = 0)

theorem row_XOR_ofNatLE (m : Buf Byte) (b a : Nat) :
    row w (XOR m (b * w) (ofNatLE a) 0 w) b = row w m b + fun j : Fin w => ofNatLE a j := by
  refine (row_zipInto_same _ m b (ofNatLE a) 0 w).trans ?_
  funext j
  rw [Nat.zero_add]
  rfl

/-- A check that comes through has read no follower's value outside. -/
theorem PolynomialLeader.le_numBytes_of_check {polynomial index tableIndex pos : Nat}
    {share : Buf Byte} {r : Bool × Buf Byte}
    (h : l.check polynomial index tableIndex pos share = some r) {p : Nat} (h2 : 2 ≤ p)
    (hp : p < 2 + l.numParties) :
    l.maskSizeInBytes ≤ numBytes (l.ops.rep (l.value polynomial index p)) := by
  obtain ⟨m, hm, -⟩ := Option.map_eq_some_iff.mp h
  have hall := loopM_induct (P := fun i (_ : Buf Byte) => ∀ k < i,
      l.maskSizeInBytes ≤ numBytes (l.ops.rep (l.value polynomial index (k + 2))))
    l.numParties hm (fun k hk => absurd hk (Nat.not_lt_zero k))
    fun i t t' _ hprev hstep k hk => by
      rcases Nat.lt_succ_iff_lt_or_eq.mp hk with hlt | heq
      · exact hprev k hlt
      · rw [heq]
        exact le_numBytes_of_xorVector hstep
  have := hall (p - 2) (by omega)
  rwa [Nat.sub_add_cancel h2] at this

/-- **The check is right exactly if the value of every follower fills the mask's bytes.** -/
theorem PolynomialLeader.accepts_check_iff (polynomial index b tableIndex : Nat)
    (share : Buf Byte) :
    l.Accepts polynomial index b tableIndex share
        (l.check polynomial index tableIndex (b * l.maskSizeInBytes) share)
      ↔ ∀ p, 2 ≤ p → p < 2 + l.numParties →
          l.maskSizeInBytes ≤ numBytes (l.ops.rep (l.value polynomial index p)) := by
  refine ⟨?_, ?_⟩
  · intro h p h2 hp
    obtain ⟨r, hr, -⟩ := h
    exact l.le_numBytes_of_check hr h2 hp
  · intro h
    obtain ⟨m, hm, hrow, hframe⟩ := loopM_total (P := fun i (m : Buf Byte) =>
        row l.maskSizeInBytes m b = row l.maskSizeInBytes share b
          + ∑ p ∈ Finset.Ico 2 (2 + i),
              (row l.maskSizeInBytes (l.leaderResults p) tableIndex
                + encoding l.ops l.maskSizeInBytes (l.value polynomial index p)) ∧
        ∀ b', b' ≠ b → row l.maskSizeInBytes m b' = row l.maskSizeInBytes share b')
      (f := fun i share =>
        xorVector (XOR share (b * l.maskSizeInBytes) (l.leaderResults (i + 2))
            (tableIndex * l.maskSizeInBytes) l.maskSizeInBytes) (b * l.maskSizeInBytes)
          (convertElementToBytes l.ops (l.value polynomial index (i + 2))) l.maskSizeInBytes)
      (s := share) l.numParties
      ⟨by rw [Nat.add_zero, Finset.Ico_self, Finset.sum_empty, add_zero], fun _ _ => rfl⟩
      fun i m hi hm => by
        refine ⟨_, xorVector_element _ _ _ _ (h (i + 2) (by omega) (by omega)), ?_, ?_⟩
        · rw [row_XOR_ofNatLE, row_XOR_same, hm.1, ← Nat.add_assoc,
            Finset.sum_Ico_succ_top (by omega), Nat.add_comm 2 i, add_assoc, add_assoc]
          rfl
        · intro b' hb'
          rw [row_XOR_ne _ _ _ _ hb', row_XOR_ne _ _ _ _ hb', hm.2 b' hb']
    refine ⟨(isZero m (b * l.maskSizeInBytes) l.maskSizeInBytes, m), ?_, hrow, hframe, ?_⟩
    · rw [PolynomialLeader.check, hm]
      rfl
    · rw [← hrow]
      exact isZero_row m b l.maskSizeInBytes

/-- **Either leader's check is right exactly if, for every follower, the value of the polynomial
for the element's hash function (and bin) has a byte for every byte of a mask**: its high byte
must not be zero. -/
theorem PolynomialLeader.accepts_iff (index b tableIndex h : Nat) (share : Buf Byte) :
    (l.Accepts h index b tableIndex share (l.isElementInAllSets index b tableIndex h share)
        ↔ ∀ p, 2 ≤ p → p < 2 + l.numParties →
          l.maskSizeInBytes ≤ numBytes (l.ops.rep (l.value h index p))) ∧
      (l.Accepts (h * l.numOfBins + b) index b tableIndex share
          (l.simpleHashingIsElementInAllSets index b tableIndex h share)
        ↔ ∀ p, 2 ≤ p → p < 2 + l.numParties →
          l.maskSizeInBytes ≤ numBytes (l.ops.rep (l.value (h * l.numOfBins + b) index p))) :=
  ⟨l.accepts_check_iff h index b tableIndex share,
    l.accepts_check_iff (h * l.numOfBins + b) index b tableIndex share⟩

/-- One follower, masks of five bytes, and polynomials that are constantly one. -/
def constantOneLeader : PolynomialLeader Nat Nat where
  ops := ⟨id, id, fun c _ => c⟩
  numParties := 1
  numOfBins := 2
  maskSizeInBytes := 5
  elements := fun _ => 0
  elementSize := 4
  leaderResults := fun _ _ => 0
  partiesPolynomials := fun _ _ => 1

/-- One is written as one byte, and five are read. -/
theorem constantOneLeader_wrong :
    ¬ constantOneLeader.Accepts 0 0 0 0 (fun _ => 0)
        (constantOneLeader.isElementInAllSets 0 0 0 0 fun _ => 0) ∧
      ¬ constantOneLeader.Accepts 0 0 0 0 (fun _ => 0)
        (constantOneLeader.simpleHashingIsElementInAllSets 0 0 0 0 fun _ => 0) := by
  have hwrong : ¬ constantOneLeader.Accepts 0 0 0 0 (fun _ => 0)
      (constantOneLeader.check 0 0 0 (0 * 5) fun _ => 0) := by
    intro h
    have hbytes := (constantOneLeader.accepts_check_iff 0 0 0 0 _).mp h 2 le_rfl (by decide)
    exact absurd hbytes (by decide)
  exact ⟨hwrong, hwrong⟩

end Check

end MultiPartyPSI
