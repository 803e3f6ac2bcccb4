import MultiPartyPSI.Kissner.PaillierParty
import MultiPartyPSI.Kissner.Scheme

/-!
# Threshold Paillier is such a scheme

What the polynomial protocol assumes of its encryption, `PaillierParty.cpp` provides when
its scaling factors are exact and the leader has set it up as it does.
-/

namespace MultiPartyPSI

open Lib Finset

namespace PaillierSetUp

/-- A set-up and dealings that decryption works for. -/
structure Fits (S : PaillierSetUp) (deal : ℕ → Dealing) : Prop where
  a_eq : S.a = 1
  b_eq : S.b = 1
  ne : S.pTag.val ≠ S.qTag.val
  coprime_m : S.m.Coprime S.n
  lt_pTag : S.numOfParties < S.pTag.val
  lt_qTag : S.numOfParties < S.qTag.val
  coprime_beta : (∑ i ∈ range S.numOfParties, (deal (i + 1)).beta).Coprime S.n

variable (S : PaillierSetUp) (deal : ℕ → Dealing)

/-- `s_i`, from the values that are received. -/
def shareOf (i : ℕ) (values : List ℕ) : ℕ :=
  values.foldl (fun s value => addMod s value (S.n * S.m)) (S.eval (deal i) i)

variable {S deal}

theorem ids_eq_map (n : ℕ) : List.range' 1 n = (List.range n).map fun k => k + 1 := by
  rw [List.range'_eq_map_range]
  exact List.map_congr_left fun k _ => Nat.add_comm 1 k

/-- Received from all the others, the values add up to the share. -/
theorem shareOf_others (i : ℕ) : S.shareOf deal i ((others S.numOfParties i).map fun j =>
    S.eval (deal j) i) = S.share deal i := by
  rw [shareOf, share, List.foldl_map]
  generalize S.eval (deal i) i = s
  have h : ∀ n, (others n i).foldl (fun s j => addMod s (S.eval (deal j) i) (S.n * S.m)) s
      = loop (fun k s => if k + 1 = i then s
          else addMod s (S.eval (deal (k + 1)) i) (S.n * S.m)) n s := by
    intro n
    induction n with
    | zero => rfl
    | succ n ih =>
        rw [others] at ih ⊢
        rw [List.range'_1_concat, List.filter_append, List.foldl_append, ih, loop_succ,
          Nat.add_comm 1 n]
        by_cases hn : n + 1 = i
        · simp [hn]
        · simp [hn]
  exact h _

variable (S deal)

/-- Threshold Paillier, with the factors as exact integers. -/
def scheme (h : S.Fits deal) : AdditiveScheme S.n S.numOfParties ℕ {x : ℕ // x.Coprime S.n} where
  pTag := S.pTag.val
  qTag := S.qTag.val
  a := S.a
  b := S.b
  deal p q := S.eval (deal p) q
  share := S.shareOf deal
  pubKey p := S.pubKey (deal p)
  one := 1
  mulMod c c' := mulMod c c' S.field
  powerMod c e := powerMod c e S.field
  encrypt M x := S.encrypt M x
  partialDecrypt := S.partialDecrypt (Scale.exact S.numOfParties)
  decrypt partialCiphers pubKeys :=
    (S.decrypt (Scale.exact S.numOfParties) partialCiphers pubKeys).getD 0
  Carries c k := ∃ k' : ℕ, S.Carries c k' ∧ (k' : ZMod S.n) = k
  carries_one := ⟨0, carries_one, Nat.cast_zero⟩
  carries_mulMod := by
    intro c c' k k' hc hc'
    obtain ⟨l, hl, rfl⟩ := hc
    obtain ⟨l', hl', rfl⟩ := hc'
    exact ⟨l + l', hl.mulMod hl', Nat.cast_add l l'⟩
  carries_powerMod := by
    intro c k e hc
    obtain ⟨l, hl, rfl⟩ := hc
    exact ⟨l * e, hl.powerMod e, Nat.cast_mul l e⟩
  carries_encrypt := by
    intro M x
    refine ⟨S.a * M, carries_encrypt (by rw [h.b_eq]; exact Nat.coprime_one_left _) x.2 M, ?_⟩
    rw [h.a_eq, one_mul]
  decrypt_eq := by
    intro c k keys hc hkeys
    obtain ⟨l, hl, rfl⟩ := hc
    have hperm : keys.Perm (S.pubKeys deal) := by
      rw [ids_eq_map, List.map_map] at hkeys
      exact hkeys
    have hparts : (List.range' 1 S.numOfParties).map (fun i =>
        (i, S.partialDecrypt (Scale.exact S.numOfParties)
          (S.shareOf deal i ((others S.numOfParties i).map fun j => S.eval (deal j) i)) c))
        = S.partialCiphers (Scale.exact S.numOfParties) deal c := by
      rw [ids_eq_map, List.map_map, partialCiphers]
      refine List.map_congr_left fun k _ => ?_
      simp only [Function.comp_apply, shareOf_others]
    rw [hparts, decrypt_carries h.a_eq h.ne h.coprime_m h.lt_pTag h.lt_qTag h.coprime_beta hl hperm,
      Option.getD_some, ZMod.natCast_mod]

end PaillierSetUp

/-- Three parties with the primes `11` and `47`. -/
def threePartySetUp : PaillierSetUp where
  numOfParties := 3
  pTag := ⟨5, Nat.prime_five, Nat.prime_eleven⟩
  qTag := ⟨23, by decide, by decide⟩
  a := 1
  b := 1

theorem threePartySetUp_fits : threePartySetUp.Fits fun _ => ⟨1, fun _ => 1⟩ :=
  ⟨rfl, rfl, by decide, by decide, by decide, by decide, by decide⟩

end MultiPartyPSI
