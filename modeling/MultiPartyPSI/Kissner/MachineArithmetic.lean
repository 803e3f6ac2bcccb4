import MultiPartyPSI.Kissner.PaillierParty
import MultiPartyPSI.Lib.Buffer

/-!
# The scaling factors as the machine holds them

`m_delta` is a `uint32_t`, and so are the products `2*m_delta` and `4*m_delta*m_delta`
before they meet a big integer; an entry of `m_lagrangeBasis` goes through an `int`. The
square is the first to leave its type: up to seven parties everything is exact, from
eight on it is not.
-/

namespace MultiPartyPSI

open Lib Buf Finset

/-- What a product of type `uint32_t` is stored as. -/
def uint32 (x : ℕ) : ℕ := x % 2 ^ 32

/-- `static_cast<int>`; what it yields for a number out of range is undefined. -/
def castToInt (x : ℚ) : Option ℤ :=
  if -2 ^ 31 ≤ truncate x ∧ truncate x < 2 ^ 31 then some (truncate x) else none

/-- The factors as `initPaiilier` computes them. -/
def Scale.machine (numOfParties : ℕ) : Option Scale :=
  let delta := factorial uint32 numOfParties
  (loopM (fun k basis =>
    (castToInt (lagrangeProd delta numOfParties (k + 1))).map fun v => write basis (k + 1) v)
    numOfParties (fun _ => 0)).map fun basis =>
      { twoDelta := uint32 (2 * delta)
        fourDeltaDelta := uint32 (uint32 (4 * delta) * delta)
        lagrangeBasis := basis }

/-- Nothing wraps around for this number of parties, and decryption with the machine's values
inverts encryption, for all keys and dealings that exact arithmetic allows. -/
structure MachineExact (numOfParties : ℕ) : Prop where
  delta : factorial uint32 numOfParties = numOfParties.factorial
  twoDelta : uint32 (2 * factorial uint32 numOfParties) = 2 * numOfParties.factorial
  fourDeltaDelta :
    uint32 (uint32 (4 * factorial uint32 numOfParties) * factorial uint32 numOfParties)
    = 4 * numOfParties.factorial * numOfParties.factorial
  lagrangeBasis : ∀ j, 1 ≤ j → j ≤ numOfParties → ∃ z : ℤ,
    castToInt (lagrangeProd (factorial uint32 numOfParties) numOfParties j) = some z ∧
      (z : ℚ) = lagrangeProd numOfParties.factorial numOfParties j
  decrypts : ∃ s, Scale.machine numOfParties = some s ∧
    ∀ S : PaillierSetUp, S.numOfParties = numOfParties → S.a = 1 → S.b = 1 →
      S.pTag.val ≠ S.qTag.val → S.m.Coprime S.n →
      numOfParties < S.pTag.val → numOfParties < S.qTag.val →
      ∀ deal : ℕ → Dealing, (∑ i ∈ range numOfParties, (deal (i + 1)).beta).Coprime S.n →
      ∀ M x : ℕ, M < S.n → x.Coprime S.n →
        S.decrypt s (S.partialCiphers s deal (S.encrypt M x)) (S.pubKeys deal) = some M

/-! ## Up to seven parties -/

/-- Two readings that agree where decryption looks decrypt alike. -/
theorem PaillierSetUp.decrypt_congr (S : PaillierSetUp) {s s' : Scale}
    (h2 : s.twoDelta = s'.twoDelta) (h4 : s.fourDeltaDelta = s'.fourDeltaDelta)
    (hb : ∀ i < S.numOfParties, s.lagrangeBasis (i + 1) = s'.lagrangeBasis (i + 1))
    (deal : ℕ → Dealing) (c : ℕ) (keys : List ℕ) :
    S.decrypt s (S.partialCiphers s deal c) keys
      = S.decrypt s' (S.partialCiphers s' deal c) keys := by
  have hcombine : ∀ (ciphers : ℕ → ℕ) (t : ℕ), t ≤ S.numOfParties →
      S.combine s ((List.range t).map fun k => (k + 1, ciphers k))
        = S.combine s' ((List.range t).map fun k => (k + 1, ciphers k)) := by
    intro ciphers t
    induction t with
    | zero => intro _; rfl
    | succ t ih =>
        intro ht
        have ih := ih (by omega)
        unfold PaillierSetUp.combine at ih ⊢
        rw [List.range_succ, List.map_append, List.foldlM_append, List.foldlM_append, ih]
        simp [hb t (by omega)]
  have hciphers : S.partialCiphers s deal c = S.partialCiphers s' deal c := by
    simp only [PaillierSetUp.partialCiphers, PaillierSetUp.partialDecrypt, h2]
  rw [hciphers]
  unfold PaillierSetUp.decrypt
  rw [PaillierSetUp.partialCiphers, hcombine _ _ le_rfl, h4]

theorem castToInt_intCast {z : ℤ} (h : -2 ^ 31 ≤ z ∧ z < 2 ^ 31) : castToInt z = some z := by
  rw [castToInt, truncate_intCast, if_pos h]

/-- The weights of at most seven parties are small. -/
theorem lagrangeAtZero_small {n i : ℕ} (hn : n ≤ 7) (hi : i < n) :
    -2 ^ 31 ≤ n.factorial * lagrangeAtZero n i ∧ n.factorial * lagrangeAtZero n i < 2 ^ 31 := by
  have : ∀ n ≤ 7, ∀ i < n, -2 ^ 31 ≤ n.factorial * lagrangeAtZero n i ∧
      n.factorial * lagrangeAtZero n i < 2 ^ 31 := by decide
  exact this n hn i hi

theorem Scale.machine_eq {n : ℕ} (hn : n ≤ 7) (hd : factorial uint32 n = n.factorial) :
    ∃ s, Scale.machine n = some s ∧ s.twoDelta = uint32 (2 * factorial uint32 n) ∧
      s.fourDeltaDelta = uint32 (uint32 (4 * factorial uint32 n) * factorial uint32 n) ∧
      ∀ i < n, s.lagrangeBasis (i + 1) = n.factorial * lagrangeAtZero n i := by
  obtain ⟨basis, hrun, hbasis⟩ := loopM_settles
    (Q := fun i (basis : ℕ → ℤ) => basis (i + 1) = n.factorial * lagrangeAtZero n i)
    (f := fun k basis =>
      (castToInt (lagrangeProd (factorial uint32 n) n (k + 1))).map fun v => write basis (k + 1) v)
    (s := fun _ => 0) n
    (by
      intro k basis hk
      refine ⟨write basis (k + 1) (n.factorial * lagrangeAtZero n k), ?_, write_same _ _ _, ?_⟩
      · rw [hd, lagrangeProd_eq _ hk, ← Int.cast_natCast, ← Int.cast_mul,
          castToInt_intCast (lagrangeAtZero_small hn hk)]
        rfl
      · intro i hi hold
        rw [write_ne _ _ (by omega), hold])
  refine ⟨⟨_, _, basis⟩, ?_, rfl, rfl, hbasis⟩
  rw [Scale.machine]
  simp only [hrun, Option.map_some]
  rfl

/-- **Seven parties** are the most for which the machine's values are exact. -/
theorem machineExact_iff (numOfParties : ℕ) : MachineExact numOfParties ↔ numOfParties ≤ 7 := by
  refine ⟨?_, ?_⟩
  · intro h
    by_contra hn
    -- the square no longer fits
    have hlt : uint32 (uint32 (4 * factorial uint32 numOfParties) * factorial uint32 numOfParties)
        < 2 ^ 32 := Nat.mod_lt _ (by decide)
    have hfac : Nat.factorial 8 ≤ numOfParties.factorial := Nat.factorial_le (by omega)
    have hsq := Nat.mul_le_mul hfac hfac
    have h8 : Nat.factorial 8 * Nat.factorial 8 = 1625702400 := by decide
    rw [h.fourDeltaDelta, Nat.mul_assoc] at hlt
    omega
  · intro hn
    have hd : factorial uint32 numOfParties = numOfParties.factorial := by
      have : ∀ n ≤ 7, factorial uint32 n = n.factorial := by decide
      exact this _ hn
    have h2 : uint32 (2 * factorial uint32 numOfParties) = 2 * numOfParties.factorial := by
      have : ∀ n ≤ 7, uint32 (2 * factorial uint32 n) = 2 * n.factorial := by decide
      exact this _ hn
    have h4 : uint32 (uint32 (4 * factorial uint32 numOfParties) * factorial uint32 numOfParties)
        = 4 * numOfParties.factorial * numOfParties.factorial := by
      have : ∀ n ≤ 7, uint32 (uint32 (4 * factorial uint32 n) * factorial uint32 n)
          = 4 * n.factorial * n.factorial := by decide
      exact this _ hn
    refine ⟨hd, h2, h4, fun j hj hjn => ?_, ?_⟩
    · obtain ⟨i, rfl⟩ := Nat.exists_eq_add_of_le' hj
      refine ⟨numOfParties.factorial * lagrangeAtZero numOfParties i, ?_, ?_⟩
      · rw [hd, lagrangeProd_eq _ hjn, ← Int.cast_natCast, ← Int.cast_mul,
          castToInt_intCast (lagrangeAtZero_small hn hjn)]
      · rw [lagrangeProd_eq _ hjn]
        push_cast
        rfl
    · obtain ⟨s, hrun, hs2, hs4, hsb⟩ := Scale.machine_eq hn hd
      refine ⟨s, hrun, ?_⟩
      intro S hS ha hb hne hm hp hq deal hbeta M x hM hx
      subst hS
      -- the machine's factors are the exact ones, and these decrypt
      have hdec := PaillierSetUp.decrypt_carries ha hne hm hp hq hbeta
        (PaillierSetUp.carries_encrypt (by rw [hb]; exact Nat.coprime_one_left _) hx M)
        (List.Perm.refl _)
      rw [ha, one_mul, Nat.mod_eq_of_lt hM] at hdec
      rw [← hdec]
      refine S.decrypt_congr ?_ ?_ ?_ deal _ _
      · rw [hs2, h2, Scale.exact, factorial_id]
      · rw [hs4, h4, Scale.exact, factorial_id]
      · intro i hi
        rw [hsb i hi, lagrangeBasis_exact hi]

/-- Ten parties, as configured. -/
theorem not_machineExact_ten : ¬ MachineExact 10 := by
  intro h
  exact absurd h.fourDeltaDelta (by decide)

end MultiPartyPSI
