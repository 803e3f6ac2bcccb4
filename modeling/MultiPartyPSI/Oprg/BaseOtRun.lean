import MultiPartyPSI.Lib.Script
import MultiPartyPSI.Oprg.NaorPinkas
import Mathlib.Data.ZMod.Basic

/-!
# Runs of the base OTs

The two programs of `NaorPinkas` as a network. There is one block in each direction, and what
is shown is what the OT extension asks for: in the end the keys of the two parties match.
-/

namespace MultiPartyPSI

open Lib Buf

section Runs

variable {G : Type*} [CommGroup G] {K : PkCrypto G}

/-- The two sides of `NaorPinkas`. -/
inductive OtRole where
  | sender
  | receiver
  deriving DecidableEq

/-- The programs of both: the receiver of the OT extension is the sender here. -/
def baseOtProg (D : BaseOtDraws K codeWordBits) (keySeeds keyMtx : Buf Byte) :
    OtRole → Proc OtRole (Byte ⊕ Empty) (Buf Byte)
  | .sender => K.initOTReceiver D.alpha D.tmp keyMtx .receiver
  | .receiver => K.initOTSender D.choices D.pK keySeeds .sender

/-- What each sends the other. -/
def baseOtStream (D : BaseOtDraws K codeWordBits) (s d : OtRole) : List (ℕ × (Byte ⊕ Empty)) :=
  match s with
  | .sender => toOnly .receiver (stamped 0 D.pointsBlock) d
  | .receiver => toOnly .sender (stamped 1 D.keysBlock) d

/-- The key seeds each ends with. -/
def baseOtResult (D : BaseOtDraws K codeWordBits) (keySeeds keyMtx : Buf Byte) : OtRole → Buf Byte
  | .sender => D.keyMtx keyMtx
  | .receiver => D.keySeeds keySeeds

theorem baseOt_plan (hK : K.Lossless) (D : BaseOtDraws K codeWordBits) (keySeeds keyMtx : Buf Byte)
    (p : OtRole) : ∃ t t', Plan t (baseOtProg D keySeeds keyMtx p) (fun s => baseOtStream D s p)
      (fun d => baseOtStream D p d) (baseOtResult D keySeeds keyMtx p) t' := by
  cases p with
  | sender =>
      exact ⟨0, 2, (initOTReceiver_plan keyMtx OtRole.receiver 0).congr
        (fun s => by cases s <;> rfl) fun _ => rfl⟩
  | receiver =>
      exact ⟨1, 1, (initOTSender_plan hK keySeeds OtRole.sender Nat.zero_lt_one).congr
        (fun s => by cases s <;> rfl) fun _ => rfl⟩

/-- Both follow the script. -/
def baseOtScript (hK : K.Lossless) (D : BaseOtDraws K codeWordBits) (keySeeds keyMtx : Buf Byte) :
    Script OtRole (Byte ⊕ Empty) (Buf Byte) where
  prog := baseOtProg D keySeeds keyMtx
  stream := baseOtStream D
  result := baseOtResult D keySeeds keyMtx
  plan := baseOt_plan hK D keySeeds keyMtx
  parties := {.sender, .receiver}
  mem_parties {s d} _ := by cases s <;> cases d <;> decide

/-- **The base OTs in every run.** Whatever the order of steps, both sides finish, and then the
sender of the OT extension has the key its choice bit selects of every pair. -/
theorem baseOt_run (hK : K.Lossless) (D : BaseOtDraws K codeWordBits) (keySeeds keyMtx : Buf Byte)
    {c : Net OtRole (Byte ⊕ Empty) (Proc OtRole (Byte ⊕ Empty) (Buf Byte))}
    (h : Net.Reachable procAct unbounded ⟨baseOtProg D keySeeds keyMtx, fun _ => []⟩ c) :
    ((∃ p, ¬ Net.Finished procAct c p) → ∃ c', Net.Step procAct unbounded c c') ∧
    (∃ c', Net.Reachable procAct unbounded c c' ∧ ∀ p, Net.Finished procAct c' p) ∧
    ∀ keys seeds, c.loc .sender = .ret keys → c.loc .receiver = .ret seeds →
      BaseOts (K.aesKey keys) (K.aesKey seeds) D.choices := by
  have hreach : Net.Reachable procAct unbounded (baseOtScript hK D keySeeds keyMtx).init c := h
  refine ⟨fun ⟨p, hp⟩ => Script.exists_step hreach (fun _ _ _ _ => trivial) hp,
    Script.exists_finished hreach fun _ _ _ _ => trivial, fun keys seeds hkeys hseeds => ?_⟩
  have hk : keys = D.keyMtx keyMtx := Script.eq_result hreach hkeys
  have hs : seeds = D.keySeeds keySeeds := Script.eq_result hreach hseeds
  rw [hk, hs]
  exact D.baseOts hK keySeeds keyMtx

/-- A group of 1009 elements, written in two bytes. -/
def smallPk : PkCrypto (Multiplicative (ZMod 1009)) where
  generator := Multiplicative.ofAdd 1
  feBytes := 2
  exportToBytes x := ofNatLE (Multiplicative.toAdd x).val
  importFromBytes b := Multiplicative.ofAdd ((loadLE (ofRow b) 0 2 : ℕ) : ZMod 1009)
  symbits := 128
  hashRoutine b i := ofRow b (4 + i % 2)

theorem smallPk_lossless : smallPk.Lossless := by
  intro x _
  have hlt : (Multiplicative.toAdd x).val < 2 ^ (8 * 2) :=
    (ZMod.val_lt _).trans (by decide)
  have hload : loadLE (ofRow (row 2 (ofNatLE (Multiplicative.toAdd x).val) 0)) 0 2
      = (Multiplicative.toAdd x).val := by
    refine loadLE_ofNatLE hlt fun i hi => ?_
    rw [Nat.zero_add, ofRow_row _ _ hi, Nat.zero_mul, Nat.zero_add]
  change Multiplicative.ofAdd
    ((loadLE (ofRow (row 2 (ofNatLE (Multiplicative.toAdd x).val) 0)) 0 2 : ℕ) : ZMod 1009) = x
  rw [hload, ZMod.natCast_zmod_val]
  rfl

theorem smallPk_pow (k : Nat) :
    smallPk.generator ^ k = Multiplicative.ofAdd ((k : ZMod 1009)) := by
  rw [show smallPk.generator = Multiplicative.ofAdd 1 from rfl, ← ofAdd_nsmul, nsmul_one]

/-- Two numbers below 1009 are different elements. -/
theorem smallPk_pow_ne {a b : Nat} (ha : a < 1009) (hb : b < 1009) (h : a ≠ b) :
    smallPk.generator ^ a ≠ smallPk.generator ^ b := by
  rw [smallPk_pow, smallPk_pow]
  intro he
  have := (ZMod.natCast_eq_natCast_iff' a b 1009).mp (Multiplicative.ofAdd.injective he)
  rw [Nat.mod_eq_of_lt ha, Nat.mod_eq_of_lt hb] at this
  exact h this

theorem smallPk_senderC_ne_one (u : Nat) : smallPk.senderC 3 (fun _ => 700) u ≠ 1 := by
  rw [← pow_zero smallPk.generator, PkCrypto.senderC]
  split
  · exact smallPk_pow_ne (by decide) (by decide) (by decide)
  · exact smallPk_pow_ne (by decide) (by decide) (by decide)

theorem smallPk_pk0_ne_one {k : Nat} (hk : k < 256) :
    smallPk.pk0 (ofNatLE 90) (· + 1) (smallPk.senderC 3 fun _ => 700) k ≠ 1 := by
  cases hbit : getBit (ofNatLE 90) k with
  | false =>
      rw [← pow_zero smallPk.generator, PkCrypto.pk0, hbit, if_neg (by decide)]
      exact smallPk_pow_ne (by omega) (by decide) (by omega)
  | true =>
      rw [PkCrypto.pk0, hbit, if_pos (by decide), ne_eq, div_eq_one]
      exact smallPk_pow_ne (a := 700) (by decide) (by omega) (by omega)

/-- Draws for a run by hand: the keys are the powers to 1, 2 and so on. -/
def smallDraws : BaseOtDraws smallPk codeWordBits where
  alpha := 3
  tmp _ := 700
  choices := ofNatLE 90
  pK k := k + 1
  pC_ne_one u _ := smallPk_senderC_ne_one u
  pk0_ne_one _ hk := smallPk_pk0_ne_one hk

/-- A run of theirs can be brought to its end, and then the keys match. -/
theorem baseOt_run_small :
    ∃ c keys seeds, Net.Reachable procAct unbounded
        ⟨baseOtProg smallDraws (fun _ => 0) fun _ => 0, fun _ => []⟩ c ∧
      c.loc .sender = .ret keys ∧ c.loc .receiver = .ret seeds ∧
      BaseOts (smallPk.aesKey keys) (smallPk.aesKey seeds) (ofNatLE 90) := by
  obtain ⟨-, ⟨c, hreach, hfin⟩, -⟩ := baseOt_run smallPk_lossless smallDraws (fun _ => 0)
    (fun _ => 0) .refl
  obtain ⟨keys, hkeys⟩ := Proc.act_eq_done (hfin .sender)
  obtain ⟨seeds, hseeds⟩ := Proc.act_eq_done (hfin .receiver)
  exact ⟨c, keys, seeds, hreach, hkeys, hseeds, (baseOt_run smallPk_lossless smallDraws (fun _ => 0)
    (fun _ => 0) hreach).2.2 keys seeds hkeys hseeds⟩

end Runs

end MultiPartyPSI
