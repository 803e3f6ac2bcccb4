import MultiPartyPSI.Kissner.NTL
import MultiPartyPSI.Lib.Loop
import MultiPartyPSI.Lib.Shamir
import MultiPartyPSI.Lib.SquareModulus
import Mathlib.Data.Nat.Prime.Factorial

/-!
# Threshold Paillier

`PaillierParty.cpp`. The leader picks two safe primes and tells every party both of them.
Each party deals a polynomial whose constant coefficient is a multiple of `m_m` and adds
up the values it receives: its share. Raising a ciphertext to twice `m_delta` times the
share is a partial decryption; the leader combines these with the interpolation weights,
scaled by `m_delta` so that they are integers.

The scaling factors are parameters here: this module reads them as exact integers.
-/

namespace MultiPartyPSI

open Lib Finset

/-- What `GenGermainPrime_ZZ` returns. -/
structure GermainPrime where
  val : ℕ
  prime : val.Prime
  prime_two_mul_add_one : (2 * val + 1).Prime

/-- What `initPaiilier` makes known to every party. -/
structure PaillierSetUp where
  numOfParties : ℕ
  pTag : GermainPrime
  qTag : GermainPrime
  a : ℕ
  b : ℕ

/-- `2*m_delta`, `4*m_delta*m_delta` and `m_lagrangeBasis`. -/
structure Scale where
  twoDelta : ℕ
  fourDeltaDelta : ℕ
  lagrangeBasis : ℕ → ℤ

/-- `factorial`, where `word` is what a product is stored as. -/
def factorial (word : ℕ → ℕ) (n : ℕ) : ℕ := loop (fun i ret => word (ret * (i + 1))) n 1

/-- `prod`, for party `j`. -/
def lagrangeProd (delta : ℚ) (numOfParties j : ℕ) : ℚ :=
  loop (fun k prod =>
    if j = k + 1 then prod else prod * (k + 1 : ℕ) / (((k + 1 : ℕ) : ℤ) - (j : ℤ) : ℤ))
    numOfParties delta

/-- The value of `static_cast<int>`, of a number it can hold. -/
def truncate (x : ℚ) : ℤ := x.num.tdiv x.den

/-- The factors as exact integers. -/
def Scale.exact (numOfParties : ℕ) : Scale where
  twoDelta := 2 * factorial id numOfParties
  fourDeltaDelta := 4 * factorial id numOfParties * factorial id numOfParties
  lagrangeBasis j := truncate (lagrangeProd (factorial id numOfParties) numOfParties j)

/-! ## The scaling factors -/

theorem truncate_intCast (z : ℤ) : truncate z = z := by simp [truncate]

theorem factorial_id (n : ℕ) : factorial id n = n.factorial := by
  induction n with
  | zero => rfl
  | succ n ih =>
      show id (factorial id n * (n + 1)) = _
      rw [ih, Nat.factorial_succ, id_eq, Nat.mul_comm]

/-- The loop multiplies by the ratios that make a weight. -/
theorem lagrangeProd_eq (delta : ℚ) {numOfParties i : ℕ} (hi : i < numOfParties) :
    lagrangeProd delta numOfParties (i + 1) = delta * lagrangeAtZero numOfParties i := by
  have hloop : ∀ (d : ℚ) (n : ℕ), lagrangeProd d n (i + 1) = d * ∏ k ∈ range n, nodeRatio i k := by
    intro d n
    induction n with
    | zero => simp [lagrangeProd]
    | succ n ih =>
        rw [lagrangeProd, loop_succ]
        rw [lagrangeProd] at ih
        rw [ih, prod_range_succ, nodeRatio]
        by_cases h : n = i
        · simp [h]
        · rw [if_neg (by omega), if_neg h]
          push_cast
          rw [add_sub_add_right_eq_sub, mul_div_assoc, mul_assoc]
  rw [hloop, prod_nodeRatio hi]

/-- The basis is the interpolation weights, scaled; truncation loses nothing. -/
theorem lagrangeBasis_exact {numOfParties i : ℕ} (hi : i < numOfParties) :
    (Scale.exact numOfParties).lagrangeBasis (i + 1)
      = numOfParties.factorial * lagrangeAtZero numOfParties i := by
  show truncate _ = _
  rw [lagrangeProd_eq _ hi, factorial_id, ← Int.cast_natCast, ← Int.cast_mul, truncate_intCast]

/-! ## A party -/

/-- What a party draws in `secretShare`: `beta`, and the coefficients from the second on. -/
structure Dealing where
  beta : ℕ
  coefficient : ℕ → ℕ

namespace PaillierSetUp

variable (S : PaillierSetUp)

/-- `m_p`. -/
def p : ℕ := 2 * S.pTag.val + 1

/-- `m_q`. -/
def q : ℕ := 2 * S.qTag.val + 1

/-- `m_n`. -/
def n : ℕ := S.p * S.q

/-- `m_m`. -/
def m : ℕ := S.pTag.val * S.qTag.val

/-- `m_field`. -/
def field : ℕ := S.n * S.n

/-- `m_g`. -/
def g : ℕ := mulMod (powerMod (1 + S.n) S.a S.field) (powerMod S.b S.n S.field) S.field

/-- `coefficients[k]`. -/
def coefficients (d : Dealing) (k : ℕ) : ℕ :=
  if k = 0 then mulMod d.beta S.m (S.n * S.m) else d.coefficient k

/-- `rep(eval(polynomial,ZZ_p(i)))`. -/
def eval (d : Dealing) (i : ℕ) : ℕ :=
  (∑ k ∈ range S.numOfParties, S.coefficients d k * i ^ k) % (S.n * S.m)

/-- `m_share` of party `i`: its own value and those it receives, in the order of `m_parties`. -/
def share (deal : ℕ → Dealing) (i : ℕ) : ℕ :=
  loop (fun k s =>
    if k + 1 = i then s else addMod s (S.eval (deal (k + 1)) i) (S.n * S.m))
    S.numOfParties (S.eval (deal i) i)

/-- `m_pubKey`. -/
def pubKey (d : Dealing) : ℕ := mulMod (mulMod S.a d.beta S.n) S.m S.n

/-- `encrypt`, with the number `x` it draws. -/
def encrypt (plain x : ℕ) : ℕ :=
  mulMod (powerMod S.g plain S.field) (powerMod x S.n S.field) S.field

/-- `partialDecrypt`. -/
def partialDecrypt (s : Scale) (mShare cipher : ℕ) : ℕ :=
  powerMod cipher (s.twoDelta * mShare) S.field

/-- `L_function`. -/
def lFunction (value : ℕ) : ℤ := ((value : ℤ) - 1) / S.n

/-- `prod`, of all partial decryptions; `m_lagrangeBasis` may be negative. -/
def combine (s : Scale) (partialCiphers : List (ℕ × ℕ)) : Option ℕ :=
  partialCiphers.foldlM (fun prod c =>
    (powerModZZ c.2 (2 * s.lagrangeBasis c.1) S.field).map fun x => mulMod prod x S.field) 1

/-- `decrypt`. -/
def decrypt (s : Scale) (partialCiphers : List (ℕ × ℕ)) (pubKeys : List ℕ) : Option ℕ := do
  let sum := pubKeys.foldl (fun sum pubKey => addMod sum pubKey S.n) 0
  let phi := mulMod S.a sum S.n
  let prod ← S.combine s partialCiphers
  let lResult := S.lFunction prod
  let combinedShare ← invMod (mulMod s.fourDeltaDelta phi S.n) S.n
  return (lResult * combinedShare % S.n).toNat

/-- The map of partial decryptions of a ciphertext, in the order of the parties. -/
def partialCiphers (s : Scale) (deal : ℕ → Dealing) (cipher : ℕ) : List (ℕ × ℕ) :=
  (List.range S.numOfParties).map fun k =>
    (k + 1, S.partialDecrypt s (S.share deal (k + 1)) cipher)

/-- The public keys of all parties. -/
def pubKeys (deal : ℕ → Dealing) : List ℕ :=
  (List.range S.numOfParties).map fun k => S.pubKey (deal (k + 1))

/-! ## Key material -/

theorem n_pos : 0 < S.n := Nat.mul_pos (Nat.succ_pos _) (Nat.succ_pos _)

theorem one_lt_n : 1 < S.n := by
  have hp := S.pTag.prime.pos
  have hq := S.qTag.prime.pos
  calc 1 < 3 * 3 := by decide
    _ ≤ S.n := Nat.mul_le_mul (by unfold p; omega) (by unfold q; omega)

theorem field_pos : 0 < S.field := Nat.mul_pos S.n_pos S.n_pos

/-- The totient of the modulus, for different primes. -/
theorem totient_n (h : S.pTag.val ≠ S.qTag.val) : S.n.totient = 4 * S.m := by
  have hcop : S.p.Coprime S.q :=
    (Nat.coprime_primes S.pTag.prime_two_mul_add_one S.qTag.prime_two_mul_add_one).mpr (by
      omega)
  rw [n, Nat.totient_mul hcop, p, q, Nat.totient_prime S.pTag.prime_two_mul_add_one,
    Nat.totient_prime S.qTag.prime_two_mul_add_one, m]
  simp only [Nat.add_sub_cancel]
  ring

/-! ## Ciphertexts

Modulo the square a ciphertext is a power of `1 + m_n`, which carries the plaintext, times
an `m_n`-th power, which hides it. -/

/-- Number `c` carries `k`. -/
def Carries (c k : ℕ) : Prop :=
  ∃ x : (ZMod (S.n * S.n))ˣ,
    (c : ZMod (S.n * S.n)) = (1 + S.n) ^ k * (x ^ S.n : (ZMod (S.n * S.n))ˣ)

section Carries

variable {S} {c c' k k' : ℕ}

theorem carries_one : S.Carries 1 0 := ⟨1, by simp⟩

theorem Carries.mulMod (h : S.Carries c k) (h' : S.Carries c' k') :
    S.Carries (mulMod c c' S.field) (k + k') := by
  obtain ⟨x, hx⟩ := h
  obtain ⟨x', hx'⟩ := h'
  refine ⟨x * x', ?_⟩
  rw [field, cast_mulMod, hx, hx', pow_add, mul_pow, Units.val_mul]
  ring

theorem Carries.powerMod (h : S.Carries c k) (e : ℕ) :
    S.Carries (powerMod c e S.field) (k * e) := by
  obtain ⟨x, hx⟩ := h
  refine ⟨x ^ e, ?_⟩
  rw [field, cast_powerMod, hx, mul_pow, ← pow_mul, ← Units.val_pow_eq_pow_val, ← pow_mul,
    ← pow_mul, mul_comm e]

theorem carries_powerMod {x : ℕ} (hx : x.Coprime S.n) :
    S.Carries (MultiPartyPSI.powerMod x S.n S.field) 0 := by
  refine ⟨ZMod.unitOfCoprime x (hx.mul_right hx), ?_⟩
  rw [field, cast_powerMod, pow_zero, one_mul, Units.val_pow_eq_pow_val, ZMod.coe_unitOfCoprime]

theorem carries_g (hb : S.b.Coprime S.n) : S.Carries S.g S.a := by
  have h : S.Carries (1 + S.n) 1 := ⟨1, by simp⟩
  have := (h.powerMod S.a).mulMod (carries_powerMod hb)
  rwa [one_mul, add_zero] at this

/-- A ciphertext carries `m_a` times its plaintext. -/
theorem carries_encrypt (hb : S.b.Coprime S.n) {x : ℕ} (hx : x.Coprime S.n) (plain : ℕ) :
    S.Carries (S.encrypt plain x) (S.a * plain) := by
  have := ((carries_g hb).powerMod plain).mulMod (carries_powerMod hx)
  rwa [add_zero] at this

end Carries

/-! ## Shares -/

section Shares

variable (deal : ℕ → Dealing)

/-- Coefficient `k` of the polynomial that is shared, the sum of those dealt. -/
def sharedCoefficient (k : ℕ) : ZMod (S.n * S.m) :=
  ∑ i ∈ range S.numOfParties, (S.coefficients (deal (i + 1)) k : ZMod (S.n * S.m))

theorem cast_eval (d : Dealing) (i : ℕ) : (S.eval d i : ZMod (S.n * S.m))
    = ∑ k ∈ range S.numOfParties, (S.coefficients d k : ZMod (S.n * S.m)) * (i : ZMod _) ^ k := by
  rw [eval, ZMod.natCast_mod]
  push_cast
  rfl

/-- A share is a value of that polynomial. -/
theorem cast_share {i : ℕ} (hi : i < S.numOfParties) : (S.share deal (i + 1) : ZMod (S.n * S.m))
    = ∑ k ∈ range S.numOfParties, S.sharedCoefficient deal k * ((i + 1 : ℕ) : ZMod _) ^ k := by
  -- the party's own value is there from the start and is left out of the loop
  have hloop : ∀ t ≤ S.numOfParties, ((loop (fun k s =>
      if k + 1 = i + 1 then s else addMod s (S.eval (deal (k + 1)) (i + 1)) (S.n * S.m)) t
        (S.eval (deal (i + 1)) (i + 1)) : ℕ) : ZMod (S.n * S.m))
      = (if i < t then 0 else (S.eval (deal (i + 1)) (i + 1) : ZMod (S.n * S.m)))
        + ∑ k ∈ range t, (S.eval (deal (k + 1)) (i + 1) : ZMod (S.n * S.m)) := by
    intro t
    induction t with
    | zero => simp
    | succ t ih =>
        intro ht
        have ih := ih (by omega)
        rw [loop_succ, sum_range_succ]
        rcases Nat.lt_trichotomy t i with h | h | h
        · rw [if_neg (by omega), cast_addMod, ih, if_neg (by omega), if_neg (by omega), add_assoc]
        · subst h
          rw [if_pos rfl, ih, if_neg (Nat.lt_irrefl _), if_pos (Nat.lt_succ_self _), zero_add,
            add_comm]
        · rw [if_neg (by omega), cast_addMod, ih, if_pos h, if_pos (by omega), add_assoc]
  rw [share, hloop _ le_rfl, if_pos hi, zero_add]
  simp only [cast_eval, sharedCoefficient, sum_mul]
  exact sum_comm

/-- What is shared is `m_m` times the sum of the betas. -/
theorem sharedCoefficient_zero : S.sharedCoefficient deal 0
    = ((∑ i ∈ range S.numOfParties, (deal (i + 1)).beta) * S.m : ℕ) := by
  rw [sharedCoefficient, sum_mul]
  push_cast
  refine sum_congr rfl fun i _ => ?_
  rw [coefficients, if_pos rfl, cast_mulMod]

end Shares

/-! ## Combining partial decryptions -/

section Decrypt

variable {S} {deal : ℕ → Dealing} {c k : ℕ}

/-- A number that carries something is a unit modulo the square. -/
theorem Carries.unit (h : S.Carries c k) : ∃ u : (ZMod (S.n * S.n))ˣ,
    (c : ZMod (S.n * S.n)) = u ∧ ∃ x : (ZMod (S.n * S.n))ˣ,
      (u : ZMod (S.n * S.n)) = (1 + S.n) ^ k * (x ^ S.n : (ZMod (S.n * S.n))ˣ) := by
  obtain ⟨x, hx⟩ := h
  obtain ⟨w, hw⟩ := isUnit_one_add (N := S.n)
  have hu : ((w ^ k * x ^ S.n : (ZMod (S.n * S.n))ˣ) : ZMod (S.n * S.n))
      = (1 + S.n) ^ k * (x ^ S.n : (ZMod (S.n * S.n))ˣ) := by
    rw [Units.val_mul, Units.val_pow_eq_pow_val, hw]
  exact ⟨w ^ k * x ^ S.n, hx.trans hu.symm, x, hu⟩

/-- The product of powers of units never needs an inverse that does not exist. -/
theorem combine_units (s : Scale) (ciphers : ℕ → ℕ) (u : ℕ → (ZMod (S.n * S.n))ˣ)
    (hu : ∀ k, (ciphers k : ZMod (S.n * S.n)) = u k) (t : ℕ) :
    ∃ prod, S.combine s ((List.range t).map fun k => (k + 1, ciphers k)) = some prod ∧
      prod < S.field ∧ (prod : ZMod (S.n * S.n))
        = ((∏ k ∈ range t, u k ^ (2 * s.lagrangeBasis (k + 1)) : (ZMod (S.n * S.n))ˣ) :
            ZMod (S.n * S.n)) := by
  induction t with
  | zero =>
      exact ⟨1, rfl, Nat.one_lt_mul_iff.mpr ⟨S.n_pos, S.n_pos, Or.inl S.one_lt_n⟩, by simp⟩
  | succ t ih =>
      obtain ⟨prod, hrun, _, hprod⟩ := ih
      obtain ⟨r, hr, hru⟩ := powerModZZ_unit (n := S.n * S.n) S.field_pos (hu t)
        (2 * s.lagrangeBasis (t + 1))
      refine ⟨mulMod prod r S.field, ?_, mulMod_lt _ _ S.field_pos, ?_⟩
      · rw [combine] at hrun ⊢
        rw [List.range_succ, List.map_append, List.foldlM_append, hrun]
        simp [field, hr]
      · rw [field, cast_mulMod, hprod, hru, prod_range_succ, Units.val_mul]

/-- The exponent that is left in the combination, but for what the ciphertext carries. -/
def combinedExponent (S : PaillierSetUp) (deal : ℕ → Dealing) : ℕ :=
  S.n.totient * (S.numOfParties.factorial * S.numOfParties.factorial
    * ∑ i ∈ range S.numOfParties, (deal (i + 1)).beta)

/-- **All partial decryptions together** leave `1` modulo `m_n`, and what is carried above. -/
theorem combine_partialCiphers (hne : S.pTag.val ≠ S.qTag.val) (hn : 0 < S.numOfParties)
    (h : S.Carries c k) :
    S.combine (Scale.exact S.numOfParties)
        (S.partialCiphers (Scale.exact S.numOfParties) deal c)
      = some (1 + S.n * (k * S.combinedExponent deal % S.n)) := by
  obtain ⟨u, hcu, x, hux⟩ := h.unit
  set Δ := S.numOfParties.factorial with hΔ
  obtain ⟨prod, hrun, hlt, hprod⟩ := combine_units (S := S) (Scale.exact S.numOfParties)
    (fun k => S.partialDecrypt (Scale.exact S.numOfParties) (S.share deal (k + 1)) c)
    (fun k => u ^ (2 * Δ * S.share deal (k + 1))) (by
      intro k
      rw [partialDecrypt, field, cast_powerMod, hcu, ← Units.val_pow_eq_pow_val]
      show ((u ^ (2 * factorial id S.numOfParties * S.share deal (k + 1)) :
        (ZMod (S.n * S.n))ˣ) : ZMod (S.n * S.n)) = _
      rw [factorial_id]) S.numOfParties
  -- both factors `2 * Δ` go to the base, which then dies under `m_n * m_m`
  have hbase : (u ^ (4 * (Δ * Δ))) ^ (S.n * S.m) = 1 := by
    have hu := pow_self_mul_totient S.n_pos u
    rw [totient_n S hne] at hu
    calc (u ^ (4 * (Δ * Δ))) ^ (S.n * S.m) = (u ^ (S.n * (4 * S.m))) ^ (Δ * Δ) := by
          rw [← pow_mul, ← pow_mul]
          congr 1
          ring
      _ = 1 := by rw [hu, one_pow]
  have hshares := prod_pow_shares hn hbase (S.sharedCoefficient deal)
    (s := fun i => (S.share deal (i + 1) : ℤ))
    (d := (((∑ i ∈ range S.numOfParties, (deal (i + 1)).beta) * S.m : ℕ) : ℤ))
    (fun i hi => by rw [Int.cast_natCast]; exact S.cast_share deal hi)
    (by rw [Int.cast_natCast]; exact (S.sharedCoefficient_zero deal).symm)
  have hexp : ∏ k ∈ range S.numOfParties, (u ^ (2 * Δ * S.share deal (k + 1)))
        ^ (2 * (Scale.exact S.numOfParties).lagrangeBasis (k + 1))
      = u ^ S.combinedExponent deal := by
    calc ∏ k ∈ range S.numOfParties, (u ^ (2 * Δ * S.share deal (k + 1)))
          ^ (2 * (Scale.exact S.numOfParties).lagrangeBasis (k + 1))
        = ∏ i ∈ range S.numOfParties, ((u ^ (4 * (Δ * Δ))) ^ (S.share deal (i + 1) : ℤ))
            ^ lagrangeAtZero S.numOfParties i := by
          refine prod_congr rfl fun i hi => ?_
          rw [lagrangeBasis_exact (mem_range.mp hi), ← zpow_natCast, ← zpow_natCast, ← zpow_mul,
            ← zpow_mul, ← zpow_mul]
          congr 1
          push_cast
          ring
      _ = u ^ S.combinedExponent deal := by
          rw [hshares, zpow_natCast, ← pow_mul, combinedExponent, totient_n S hne]
          congr 1
          ring
  rw [hexp, combinedExponent, pow_mul_totient S.n_pos hux, mul_assoc] at hprod
  rw [partialCiphers, hrun]
  exact congrArg some (eq_one_add_mul_mod S.one_lt_n hlt hprod)

theorem cast_sum_pubKeys {keys : List ℕ} (h : keys.Perm (S.pubKeys deal)) :
    ((keys.foldl (fun sum pubKey => addMod sum pubKey S.n) 0 : ℕ) : ZMod S.n)
      = S.a * S.m * (∑ i ∈ range S.numOfParties, (deal (i + 1)).beta : ℕ) := by
  have hfold : ∀ (l : List ℕ) (s : ℕ),
      ((l.foldl (fun sum pubKey => addMod sum pubKey S.n) s : ℕ) : ZMod S.n)
        = s + (l.map fun k : ℕ => (k : ZMod S.n)).sum := by
    intro l
    induction l with
    | nil => simp
    | cons k l ih =>
        intro s
        rw [List.foldl_cons, ih, cast_addMod, List.map_cons, List.sum_cons, add_assoc]
  have hsum : ((S.pubKeys deal).map fun k : ℕ => (k : ZMod S.n)).sum
      = ∑ i ∈ range S.numOfParties, (S.pubKey (deal (i + 1)) : ZMod S.n) := by
    rw [pubKeys, List.map_map]
    rfl
  rw [hfold, Nat.cast_zero, zero_add, (h.map _).sum_eq, hsum]
  simp only [pubKey, cast_mulMod, Nat.cast_sum, mul_sum]
  refine sum_congr rfl fun i _ => ?_
  ring

/-- The number `decrypt` inverts, and what it is modulo `m_n`. -/
theorem cast_combinedShare (hne : S.pTag.val ≠ S.qTag.val) {keys : List ℕ}
    (h : keys.Perm (S.pubKeys deal)) :
    ((mulMod (Scale.exact S.numOfParties).fourDeltaDelta (mulMod S.a
        (keys.foldl (fun sum pubKey => addMod sum pubKey S.n) 0) S.n) S.n : ℕ) : ZMod S.n)
      = (S.combinedExponent deal * S.a * S.a : ℕ) := by
  rw [cast_mulMod, cast_mulMod, cast_sum_pubKeys h, combinedExponent, totient_n S hne]
  simp only [Scale.exact, factorial_id]
  push_cast
  ring

/-- **Decryption** of a number that carries `k` divides it by the square of `m_a`: once for
the public keys, once for `phi`. -/
theorem decrypt_some (hne : S.pTag.val ≠ S.qTag.val) (hn : 0 < S.numOfParties)
    (h : S.Carries c k) {keys : List ℕ} (hkeys : keys.Perm (S.pubKeys deal))
    (hcop : (S.combinedExponent deal * S.a * S.a).Coprime S.n) :
    ∃ r < S.n, S.decrypt (Scale.exact S.numOfParties)
        (S.partialCiphers (Scale.exact S.numOfParties) deal c) keys = some r ∧
      (r : ZMod S.n) * S.a * S.a = k := by
  have hcast := cast_combinedShare hne hkeys
  set d := mulMod (Scale.exact S.numOfParties).fourDeltaDelta (mulMod S.a
    (keys.foldl (fun sum pubKey => addMod sum pubKey S.n) 0) S.n) S.n with hd
  obtain ⟨b, hb, hbd⟩ := invMod_some (a := d) S.n_pos (by
    rw [← ZMod.isUnit_iff_coprime, hcast, ZMod.isUnit_iff_coprime]
    exact hcop)
  set T := S.combinedExponent deal with hT
  -- the argument of `L_function` is one more than a multiple of `n`
  have hL : S.lFunction (1 + S.n * (k * T % S.n)) = (k * T % S.n : ℕ) := by
    have hpos : (S.n : ℤ) ≠ 0 := by exact_mod_cast S.n_pos.ne'
    rw [lFunction]
    push_cast
    rw [add_sub_cancel_left, Int.mul_ediv_cancel_left _ hpos]
  refine ⟨k * T % S.n * b % S.n, Nat.mod_lt _ S.n_pos, ?_, ?_⟩
  · rw [decrypt, combine_partialCiphers hne hn h]
    show (invMod d S.n).bind (fun combinedShare =>
      some (S.lFunction (1 + S.n * (k * T % S.n)) * combinedShare % S.n).toNat) = _
    rw [hb, hL]
    rfl
  · rw [ZMod.natCast_mod, Nat.cast_mul, ZMod.natCast_mod]
    rw [hcast] at hbd
    push_cast at hbd ⊢
    linear_combination (k : ZMod S.n) * hbd

theorem decrypt_none (hne : S.pTag.val ≠ S.qTag.val) (partialCiphers : List (ℕ × ℕ))
    {keys : List ℕ} (hkeys : keys.Perm (S.pubKeys deal))
    (hcop : ¬ (S.combinedExponent deal * S.a * S.a).Coprime S.n) :
    S.decrypt (Scale.exact S.numOfParties) partialCiphers keys = none := by
  have hinv := invMod_none (n := S.n) (a := mulMod (Scale.exact S.numOfParties).fourDeltaDelta
      (mulMod S.a (keys.foldl (fun sum pubKey => addMod sum pubKey S.n) 0) S.n) S.n) (by
    rw [← ZMod.isUnit_iff_coprime, cast_combinedShare hne hkeys, ZMod.isUnit_iff_coprime]
    exact hcop)
  rw [decrypt]
  cases hc : S.combine (Scale.exact S.numOfParties) partialCiphers with
  | none => rfl
  | some prod =>
      show (invMod _ S.n).bind _ = none
      rw [hinv]
      rfl

theorem coprime_combinedExponent_iff (hne : S.pTag.val ≠ S.qTag.val)
    (ha : S.a.Coprime S.n)
    (hbeta : (∑ i ∈ range S.numOfParties, (deal (i + 1)).beta).Coprime S.n) :
    (S.combinedExponent deal * S.a * S.a).Coprime S.n ↔
      (S.numOfParties.factorial * S.m).Coprime S.n := by
  have hodd : Odd S.n :=
    (odd_two_mul_add_one S.pTag.val).mul (odd_two_mul_add_one S.qTag.val)
  have hfour : Nat.Coprime 4 S.n := Nat.Coprime.pow_left 2 (Nat.coprime_two_left.mpr hodd)
  simp only [combinedExponent, totient_n S hne, Nat.coprime_mul_iff_left]
  tauto

theorem pos_of_coprime_sum
    (hbeta : (∑ i ∈ range S.numOfParties, (deal (i + 1)).beta).Coprime S.n) :
    0 < S.numOfParties := by
  refine Nat.pos_of_ne_zero fun h => ?_
  rw [h, sum_range_zero, Nat.coprime_zero_left] at hbeta
  exact absurd hbeta S.one_lt_n.ne'

end Decrypt

/-! ## Computing with ciphertexts -/

/-- The ciphertexts that the multiplications and powers of `addEncPolys` and
`mulEncPolyByPoly` make of the encryptions of `M`, and their combinations of `M`. -/
inductive Obtained {t : ℕ} (M x : Fin t → ℕ) : (Fin t → ℕ) → ℕ → Prop where
  | encrypt (i : Fin t) : Obtained M x (Pi.single i 1) (S.encrypt (M i) (x i))
  | one : Obtained M x 0 1
  | mulMod {k k' : Fin t → ℕ} {c c' : ℕ} : Obtained M x k c → Obtained M x k' c' →
      Obtained M x (k + k') (mulMod c c' S.field)
  | powerMod {k : Fin t → ℕ} {c : ℕ} (e : ℕ) : Obtained M x k c →
      Obtained M x (e • k) (powerMod c e S.field)

theorem Obtained.carries {S : PaillierSetUp} (hb : S.b.Coprime S.n) {t : ℕ} {M x : Fin t → ℕ}
    (hx : ∀ i, (x i).Coprime S.n) {k : Fin t → ℕ} {c : ℕ} (h : S.Obtained M x k c) :
    S.Carries c (S.a * ∑ i, k i * M i) := by
  induction h with
  | encrypt i =>
      have hsum : ∑ j, (Pi.single i 1 : Fin t → ℕ) j * M j = M i := by
        rw [Finset.sum_eq_single i]
        · rw [Pi.single_eq_same, one_mul]
        · intro j _ hj
          rw [Pi.single_eq_of_ne hj, zero_mul]
        · intro hi
          exact absurd (mem_univ i) hi
      rw [hsum]
      exact carries_encrypt hb (hx i) (M i)
  | one =>
      have hsum : ∑ j, (0 : Fin t → ℕ) j * M j = 0 := by simp
      rw [hsum, mul_zero]
      exact carries_one
  | @mulMod k k' c c' _ _ ih ih' =>
      have hsum : ∑ j, (k + k') j * M j = (∑ j, k j * M j) + ∑ j, k' j * M j := by
        simp [add_mul, sum_add_distrib]
      rw [hsum, mul_add]
      exact ih.mulMod ih'
  | @powerMod k c e _ ih =>
      have hsum : ∑ j, (e • k) j * M j = (∑ j, k j * M j) * e := by
        rw [sum_mul]
        refine sum_congr rfl fun j _ => ?_
        rw [Pi.smul_apply, smul_eq_mul]
        ring
      rw [hsum, ← mul_assoc]
      exact ih.powerMod e

/-! ## What decryption returns -/

/-- `n !` is invertible when there are fewer parties than either prime. -/
theorem coprime_factorial {S : PaillierSetUp} (hp : S.numOfParties < S.pTag.val)
    (hq : S.numOfParties < S.qTag.val) : S.numOfParties.factorial.Coprime S.n := by
  rw [n, Nat.coprime_mul_iff_right]
  have hpn := S.pTag.prime_two_mul_add_one.coprime_factorial_of_lt
    (show S.numOfParties < 2 * S.pTag.val + 1 by omega)
  have hqn := S.qTag.prime_two_mul_add_one.coprime_factorial_of_lt
    (show S.numOfParties < 2 * S.qTag.val + 1 by omega)
  exact ⟨hpn.symm, hqn.symm⟩

/-- With `m_a` one, decryption returns what is carried. -/
theorem decrypt_carries {S : PaillierSetUp} {deal : ℕ → Dealing} {c k : ℕ} (ha : S.a = 1)
    (hne : S.pTag.val ≠ S.qTag.val) (hm : S.m.Coprime S.n)
    (hp : S.numOfParties < S.pTag.val) (hq : S.numOfParties < S.qTag.val)
    (hbeta : (∑ i ∈ range S.numOfParties, (deal (i + 1)).beta).Coprime S.n)
    (h : S.Carries c k) {keys : List ℕ} (hkeys : keys.Perm (S.pubKeys deal)) :
    S.decrypt (Scale.exact S.numOfParties)
      (S.partialCiphers (Scale.exact S.numOfParties) deal c) keys = some (k % S.n) := by
  have hcop := (coprime_combinedExponent_iff hne (by rw [ha]; exact Nat.coprime_one_left _)
    hbeta).mpr (Nat.Coprime.mul_left (coprime_factorial hp hq) hm)
  obtain ⟨r, hr, hrun, hrk⟩ := decrypt_some hne (pos_of_coprime_sum hbeta) h hkeys hcop
  rw [ha, Nat.cast_one, mul_one, mul_one, ZMod.natCast_eq_natCast_iff', Nat.mod_eq_of_lt hr] at hrk
  rw [hrun, hrk]

end PaillierSetUp

open PaillierSetUp

/-- **Threshold decryption is homomorphic** as the leader sets it up: what was made of
ciphertexts decrypts to the same combination of the plaintexts, and `L_function` always gets
a number that is `1` modulo `m_n`. -/
theorem decrypt_obtained (S : PaillierSetUp) (ha : S.a = 1) (hb : S.b = 1)
    (hne : S.pTag.val ≠ S.qTag.val) (hm : S.m.Coprime S.n)
    (hp : S.numOfParties < S.pTag.val) (hq : S.numOfParties < S.qTag.val)
    (deal : ℕ → Dealing)
    (hbeta : (∑ i ∈ range S.numOfParties, (deal (i + 1)).beta).Coprime S.n)
    {t : ℕ} (M x : Fin t → ℕ) (hx : ∀ i, (x i).Coprime S.n) {k : Fin t → ℕ} {c : ℕ}
    (h : S.Obtained M x k c) {keys : List ℕ} (hkeys : keys.Perm (S.pubKeys deal)) :
    (∃ prod, S.combine (Scale.exact S.numOfParties)
        (S.partialCiphers (Scale.exact S.numOfParties) deal c) = some prod ∧ prod % S.n = 1) ∧
      S.decrypt (Scale.exact S.numOfParties)
        (S.partialCiphers (Scale.exact S.numOfParties) deal c) keys
          = some ((∑ i, k i * M i) % S.n) := by
  have hc := h.carries (by rw [hb]; exact Nat.coprime_one_left _) hx
  rw [ha, one_mul] at hc
  refine ⟨⟨_, combine_partialCiphers hne (pos_of_coprime_sum hbeta) hc, ?_⟩,
    decrypt_carries ha hne hm hp hq hbeta hc hkeys⟩
  rw [Nat.add_mul_mod_self_left, Nat.mod_eq_of_lt S.one_lt_n]

/-- Two parties with the primes `7` and `11`. -/
def smallSetUp (a : ℕ) : PaillierSetUp where
  numOfParties := 2
  pTag := ⟨3, by decide, by decide⟩
  qTag := ⟨5, by decide, by decide⟩
  a := a
  b := 1

/-- Twice the plaintext `4`. -/
theorem decrypt_obtained_small : ∃ c,
    (smallSetUp 1).decrypt (Scale.exact 2)
      ((smallSetUp 1).partialCiphers (Scale.exact 2) (fun _ => ⟨1, fun _ => 1⟩) c)
      ((smallSetUp 1).pubKeys fun _ => ⟨1, fun _ => 1⟩) = some 8 := by
  have h := decrypt_obtained (smallSetUp 1) rfl rfl (by decide) (by decide) (by decide) (by decide)
    (fun _ => ⟨1, fun _ => 1⟩) (by decide) (fun _ : Fin 1 => 4) (fun _ => 3)
    (fun _ => by decide) (Obtained.powerMod 2 (Obtained.encrypt 0)) (List.Perm.refl _)
  exact ⟨_, h.2⟩

/-- **When decryption inverts encryption**: `m_a` is divided out twice but multiplied in once,
so it has to be `1` as far as the plaintext is concerned; `m_b` does not matter. Besides,
what is divided by has to be invertible. -/
theorem decrypt_encrypt_iff (S : PaillierSetUp) (hne : S.pTag.val ≠ S.qTag.val)
    (ha : S.a.Coprime S.n) (hb : S.b.Coprime S.n) (deal : ℕ → Dealing)
    (hbeta : (∑ i ∈ range S.numOfParties, (deal (i + 1)).beta).Coprime S.n)
    {M x : ℕ} (hx : x.Coprime S.n) (hM : M < S.n) {keys : List ℕ}
    (hkeys : keys.Perm (S.pubKeys deal)) :
    S.decrypt (Scale.exact S.numOfParties)
        (S.partialCiphers (Scale.exact S.numOfParties) deal (S.encrypt M x)) keys = some M ↔
      (S.numOfParties.factorial * (S.pTag.val * S.qTag.val)).Coprime S.n ∧
        S.n ∣ M * (S.a - 1) := by
  have hn := pos_of_coprime_sum hbeta
  have hc := carries_encrypt hb hx M
  have hcop := coprime_combinedExponent_iff hne ha hbeta
  have hpos : 1 ≤ S.a := by
    refine Nat.pos_of_ne_zero fun h => ?_
    rw [h, Nat.coprime_zero_left] at ha
    exact absurd ha S.one_lt_n.ne'
  have hdvd : S.n ∣ M * (S.a - 1) ↔ (M : ZMod S.n) * S.a = M := by
    rw [← ZMod.natCast_eq_zero_iff]
    push_cast [hpos]
    rw [mul_sub, mul_one, sub_eq_zero]
  obtain ⟨w, hw⟩ := (ZMod.isUnit_iff_coprime S.a S.n).mpr ha
  by_cases hT : (S.combinedExponent deal * S.a * S.a).Coprime S.n
  · obtain ⟨r, hr, hrun, hrk⟩ := decrypt_some hne hn hc hkeys hT
    -- one factor `m_a` cancels against the one in the generator
    have hrM : (r : ZMod S.n) * S.a = M := by
      rw [← hw] at hrk ⊢
      rw [Nat.cast_mul, ← hw, mul_comm (w : ZMod S.n) (M : ZMod S.n)] at hrk
      exact w.isUnit.mul_right_cancel hrk
    have heq : r = M ↔ (r : ZMod S.n) = M := by
      rw [ZMod.natCast_eq_natCast_iff', Nat.mod_eq_of_lt hr, Nat.mod_eq_of_lt hM]
    rw [hrun, Option.some_inj, heq, hdvd]
    refine ⟨?_, ?_⟩
    · intro h
      rw [h] at hrM
      exact ⟨hcop.mp hT, hrM⟩
    · intro h
      refine w.isUnit.mul_right_cancel ?_
      rw [hw, hrM, h.2]
  · rw [decrypt_none hne _ hkeys hT]
    refine ⟨?_, ?_⟩
    · intro h
      cases h
    · intro h
      exact absurd (hcop.mpr h.1) hT

/-- With `m_a` one, `4` comes back. -/
theorem decrypt_encrypt_small :
    (smallSetUp 1).decrypt (Scale.exact 2) ((smallSetUp 1).partialCiphers (Scale.exact 2)
        (fun _ => ⟨1, fun _ => 1⟩) ((smallSetUp 1).encrypt 4 3))
      ((smallSetUp 1).pubKeys fun _ => ⟨1, fun _ => 1⟩) = some 4 :=
  (decrypt_encrypt_iff (smallSetUp 1) (by decide) (by decide) (by decide)
    (fun _ => ⟨1, fun _ => 1⟩) (by decide) (by decide) (by decide) (List.Perm.refl _)).mpr
    (by decide)

/-- With `m_a` two, it does not. -/
theorem decrypt_encrypt_two :
    (smallSetUp 2).decrypt (Scale.exact 2) ((smallSetUp 2).partialCiphers (Scale.exact 2)
        (fun _ => ⟨1, fun _ => 1⟩) ((smallSetUp 2).encrypt 4 3))
      ((smallSetUp 2).pubKeys fun _ => ⟨1, fun _ => 1⟩) ≠ some 4 := by
  obtain ⟨r, hr, hrun, hrk⟩ := @decrypt_some (smallSetUp 2) (fun _ => ⟨1, fun _ => 1⟩) _ _
    (by decide) (by decide) (carries_encrypt (S := smallSetUp 2) (x := 3) (by decide) (by decide) 4)
    _ (List.Perm.refl _) (by decide)
  intro h
  cases hrun.symm.trans h
  exact absurd hrk (by decide)

end MultiPartyPSI
