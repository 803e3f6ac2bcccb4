import Mathlib.Data.ZMod.Basic
import Mathlib.Data.List.Range

/-!
# Additively homomorphic encryption with threshold decryption

What the polynomial protocol needs of the encryption under it: multiplying ciphertexts adds
what they carry, raising them to a power multiplies it, and when all parties have put their
partial decryptions together what is carried comes out modulo `N`. Keys come from an
exchange: every party deals one value to every other one, and what it receives goes into
its share.
-/

namespace MultiPartyPSI

/-- The keys of `m_parties`: all parties but `partyId`, in ascending order. -/
def others (numOfParties partyId : ℕ) : List ℕ :=
  (List.range' 1 numOfParties).filter fun q => q ≠ partyId

theorem mem_others {numOfParties p q : ℕ} :
    q ∈ others numOfParties p ↔ (1 ≤ q ∧ q ≤ numOfParties) ∧ q ≠ p := by
  simp only [others, List.mem_filter, List.mem_range'_1, decide_eq_true_eq]
  omega

theorem nodup_others (numOfParties p : ℕ) : (others numOfParties p).Nodup :=
  (List.nodup_range' 1).filter _

/-- An encryption of numbers modulo `N` for some parties; `Z` is what goes over the wire and
`X` what encryption draws. -/
structure AdditiveScheme (N numOfParties : ℕ) (Z X : Type) where
  /-- What the leader tells the others. -/
  pTag : Z
  qTag : Z
  a : Z
  b : Z
  /-- What a party deals to another one. -/
  deal : ℕ → ℕ → Z
  /-- `m_share`, from what the others dealt. -/
  share : ℕ → List Z → Z
  pubKey : ℕ → Z
  one : Z
  mulMod : Z → Z → Z
  powerMod : Z → ℕ → Z
  encrypt : ℕ → X → Z
  partialDecrypt : Z → Z → Z
  decrypt : List (ℕ × Z) → List Z → ℕ
  /-- A ciphertext carries a number. -/
  Carries : Z → ZMod N → Prop
  carries_one : Carries one 0
  carries_mulMod : ∀ {c c' k k'}, Carries c k → Carries c' k' → Carries (mulMod c c') (k + k')
  carries_powerMod : ∀ {c k} (e : ℕ), Carries c k → Carries (powerMod c e) (k * e)
  carries_encrypt : ∀ M x, Carries (encrypt M x) M
  /-- With the shares and keys of all parties, what is carried comes out. -/
  decrypt_eq : ∀ {c k keys}, Carries c k →
    keys.Perm ((List.range' 1 numOfParties).map pubKey) →
    (decrypt ((List.range' 1 numOfParties).map fun i =>
      (i, partialDecrypt (share i ((others numOfParties i).map fun j => deal j i)) c)) keys :
        ZMod N) = k

end MultiPartyPSI
