import MultiPartyPSI.Kissner.KissnerScript
import MultiPartyPSI.Kissner.Exchange

/-!
# Runs of the polynomial protocol

In whatever order the parties take their steps, each of them receives what is meant for that
step, and the leader decrypts the sum over all parties of their polynomials, multiplied by
what all those from there on have drawn. An element that is in every set is a root of all
the terms, so the leader counts it.
-/

namespace MultiPartyPSI

open Lib Buf

variable {N : ℕ} {Z Y : Type}

namespace KissnerSystem

variable (S : KissnerSystem Y) (E : AdditiveScheme N S.numOfParties Z Y)

/-- What party `d` is to receive from party `s`, step by step: the parameters of the leader, a
share, an encrypted polynomial, the sum of those before it in the ring, a public key, and the
ciphertexts or their partial decryptions. -/
def messages (s d : ℕ) : List Z :=
  (if s = S.leaderId then [E.pTag, E.qTag, E.a, E.b] else []) ++ ([E.deal s d] ++
    ((if s < d then S.encPoly E s else []) ++
    ((if s = (S.party d).prevParty then S.ringPoly E (S.ringPos s) else []) ++
    ((if d = S.leaderId then [E.pubKey s] else []) ++
    (if s = S.leaderId then (List.range (2 * S.setSize + 1)).map (S.cipher E)
      else if d = S.leaderId then (List.range (2 * S.setSize + 1)).map (S.partialDec E s)
      else [])))))

/-- Element `k` of the leader is in the set of every party. -/
def InAllSets (k : ℕ) : Prop :=
  ∀ q, 1 ≤ q → q ≤ S.numOfParties → ∃ k' < S.setSize, ∀ b < ceilDivide S.elementSizeInBits 8,
    S.elements q (k' * ceilDivide S.elementSizeInBits 8 + b)
      = S.elements S.leaderId (k * ceilDivide S.elementSizeInBits 8 + b)

variable (N) in
/-- Element `k` of the leader, as `BuildFromRoots` gets it. -/
def leaderRoot (k : ℕ) : ZMod N :=
  loadLE (S.elements S.leaderId) (k * ceilDivide S.elementSizeInBits 8)
    (ceilDivide S.elementSizeInBits 8)

variable {S E}

/-- The script lists just these messages. -/
theorem map_phases (hn : 2 ≤ S.numOfParties) {s d : ℕ} (hs : 1 ≤ s ∧ s ≤ S.numOfParties)
    (hd : 1 ≤ d ∧ d ≤ S.numOfParties) : (S.phases E s d).map Prod.snd = S.messages E s d := by
  have hset : (S.setUpPhase E s d).map Prod.snd
      = if s = S.leaderId then [E.pTag, E.qTag, E.a, E.b] else [] := by
    rw [setUpPhase]
    split
    · rfl
    · rfl
  have hpoly : (S.polyPhase E s d).map Prod.snd = if s < d then S.encPoly E s else [] := by
    rw [polyPhase]
    split
    · simp
    · rfl
  have hring : (S.ringPhase E s d).map Prod.snd
      = if s = (S.party d).prevParty then S.ringPoly E (S.ringPos s) else [] := by
    rw [ringPhase, apply_ite (List.map Prod.snd)]
    exact if_congr (next_eq_iff hn hd hs) (by simp) rfl
  have hkey : (S.keyPhase E s d).map Prod.snd = if d = S.leaderId then [E.pubKey s] else [] := by
    rw [keyPhase]
    split
    · rfl
    · rfl
  have hdec : (S.decryptPhase E s d).map Prod.snd
      = if s = S.leaderId then (List.range (2 * S.setSize + 1)).map (S.cipher E)
        else if d = S.leaderId then (List.range (2 * S.setSize + 1)).map (S.partialDec E s)
        else [] := by
    rw [decryptPhase, List.map_flatMap]
    simp only [decryptRound]
    split
    · exact List.map_eq_flatMap.symm
    · split
      · exact List.map_eq_flatMap.symm
      · simp
  simp only [phases, List.map_append, hset, hpoly, hring, hkey, hdec]
  rfl

/-- The leader has the public keys of all parties. -/
theorem perm_pubKeys (hL : 1 ≤ S.leaderId ∧ S.leaderId ≤ S.numOfParties) :
    (S.pubKeys E).Perm ((List.range' 1 S.numOfParties).map E.pubKey) := by
  have hperm : (S.leaderId :: others S.numOfParties S.leaderId).Perm
      (List.range' 1 S.numOfParties) := by
    refine (List.perm_ext_iff_of_nodup ?_ (List.nodup_range' 1)).mpr fun q => ?_
    · refine List.nodup_cons.mpr ⟨fun hmem => ?_, nodup_others _ _⟩
      exact (mem_others.mp hmem).2 rfl
    · rw [List.mem_cons, mem_others, List.mem_range'_1]
      omega
  exact hperm.map E.pubKey

/-- What the leader decrypts. -/
theorem cast_coefficient [NeZero N] (hL : 1 ≤ S.leaderId ∧ S.leaderId ≤ S.numOfParties) {k : ℕ}
    (hk : k < 2 * S.setSize + 1) : (S.coefficient E k : ZMod N) = (S.aggregate N).coeff k :=
  E.decrypt_eq ((carries_aggregate hL).getD hk E.one) (perm_pubKeys hL)

/-- The leader's decryption of the sum. -/
theorem evalDecrypted_coefficients [NeZero N]
    (hL : 1 ≤ S.leaderId ∧ S.leaderId ≤ S.numOfParties) (x : ZMod N) :
    (S.party S.leaderId).evalDecrypted ((List.range (2 * S.setSize + 1)).map (S.coefficient E)) x
      = (S.aggregate N).eval x := by
  refine KissnerParty.evalDecrypted_eq (fun k hk => ?_)
    (carries_aggregate (E := E) hL).coeff_eq_zero x
  have hk' : k < 2 * S.setSize + 1 := hk
  rw [← cast_coefficient (E := E) hL hk', List.getD_eq_getElem?_getD, List.getElem?_map,
    List.getElem?_range hk']
  rfl

/-- An element of all sets is a root of the sum. -/
theorem InAllSets.eval_eq_zero {k : ℕ} (h : S.InAllSets k) :
    (S.aggregate N).eval (S.leaderRoot N k) = 0 := by
  refine eval_aggregate fun q hq => ?_
  obtain ⟨hq1, hqn⟩ := Finset.mem_Icc.mp hq
  obtain ⟨k', hk', hbytes⟩ := h q hq1 hqn
  refine List.mem_map.mpr ⟨k', List.mem_range.mpr hk', ?_⟩
  exact congrArg Nat.cast (loadLE_congr hbytes)

/-- A filter keeps what is known to pass it. -/
theorem map_sublist_filter {α : Type*} {f : ℕ → α} {pass : α → Bool} {l l' : List ℕ}
    (hl : l.Sublist l') (h : ∀ k ∈ l, pass (f k) = true) :
    (l.map f).Sublist ((l'.map f).filter pass) := by
  have hpass : (l.map f).filter pass = l.map f := by
    refine List.filter_eq_self.mpr fun a ha => ?_
    obtain ⟨k, hk, rfl⟩ := List.mem_map.mp ha
    exact h k hk
  rw [← hpass]
  exact (hl.map f).filter pass

end KissnerSystem

/-- **The polynomial protocol**, for any scheme: in every run, whatever the order of steps,
everyone receives what is meant for that step, someone can go on until all have finished, and
the leader decrypts the sum and puts every element that is in all sets in `intersection`, whose
length `run` returns. -/
theorem kissner_run [NeZero N] (S : KissnerSystem Y) (E : AdditiveScheme N S.numOfParties Z Y)
    (hn : 2 ≤ S.numOfParties) (hL : 1 ≤ S.leaderId ∧ S.leaderId ≤ S.numOfParties)
    {received : Lib.History ℕ Z} {c : Net ℕ Z (Proc ℕ Z (KissnerResult N))}
    (hrun : Net.Run procAct (fun _ => True) (S.start E) received c) :
    (∀ s ∈ S.ids, ∀ d ∈ S.ids, d ≠ s → received (s, d) <+: S.messages E s d ∧
      (Net.Finished procAct c d → received (s, d) = S.messages E s d)) ∧
    ((∃ p, ¬ Net.Finished procAct c p) → ∃ c', Net.Step procAct (fun _ => True) c c') ∧
    (∃ c', Net.Reachable procAct (fun _ => True) c c' ∧ ∀ p, Net.Finished procAct c' p) ∧
    ∀ r, c.loc S.leaderId = .ret r →
      r.decryptedPoly.length = 2 * S.setSize + 1 ∧
      (∀ k < 2 * S.setSize + 1,
        (r.decryptedPoly.getD k 0 : ZMod N) = (S.aggregate N).coeff k) ∧
      ∀ common : List ℕ, common.Sublist (List.range S.setSize) →
        (∀ k ∈ common, S.InAllSets k) →
        (common.map (S.leaderRoot N)).Sublist r.intersection := by
  have hreach : Net.Reachable procAct (fun _ => True) (S.script E hn hL).init c := hrun.reachable
  refine ⟨fun s hs d hd hds => ?_, fun hp => ?_,
    Script.exists_finished hreach fun _ _ _ _ => trivial,
    fun r hr => ?_⟩
  · have hstream : ((S.script E hn hL).stream s d).map Prod.snd = S.messages E s d := by
      rw [show (S.script E hn hL).stream s d = S.phases E s d from if_pos ⟨hs, hd, hds⟩]
      exact KissnerSystem.map_phases hn (S.mem_ids.mp hs) (S.mem_ids.mp hd)
    rw [← hstream]
    exact ⟨Script.received_prefix (T := S.script E hn hL) hrun s d,
      fun hfin => Script.received_eq (T := S.script E hn hL) hrun hfin s⟩
  · obtain ⟨p, hp⟩ := hp
    exact Script.exists_step hreach (fun _ _ _ _ => trivial) hp
  · have hresult : r = S.result E S.leaderId :=
      (Script.eq_result hreach hr).trans (if_pos (S.mem_ids.mpr hL))
    rw [KissnerSystem.result, if_neg (not_not_intro rfl)] at hresult
    subst hresult
    refine ⟨by rw [List.length_map, List.length_range], fun k hk => ?_,
      fun common hrange hcommon => ?_⟩
    · rw [← KissnerSystem.cast_coefficient (E := E) hL hk, List.getD_eq_getElem?_getD,
        List.getElem?_map, List.getElem?_range hk]
      rfl
    · refine KissnerSystem.map_sublist_filter hrange fun k hk => ?_
      exact decide_eq_true ((KissnerSystem.evalDecrypted_coefficients hL _).trans
        (hcommon k hk).eval_eq_zero)

/-- Three parties with the elements from 1 to 4, from 2 to 5 and from 3 to 6: a run can always be
brought to its end, and then the leader has the two that all of them have. -/
theorem kissner_run_four :
    ∃ c r, Net.Reachable procAct (fun _ => True)
        ((threePartySystem 4).start (threePartySetUp.scheme _ threePartySetUp_fits)) c ∧
      c.loc 2 = .ret r ∧ r.decryptedPoly.length = 9 ∧ [3, 4].Sublist r.intersection := by
  have hNeZero : NeZero threePartySetUp.n := ⟨by decide⟩
  obtain ⟨-, -, ⟨c, hreach, hfin⟩, -⟩ := kissner_run (threePartySystem 4)
    (threePartySetUp.scheme _ threePartySetUp_fits) (by decide) (by decide) .start
  obtain ⟨received, hrun⟩ := hreach.exists_run
  obtain ⟨r, hr⟩ := Proc.act_eq_done (hfin 2)
  obtain ⟨hlen, -, hcount⟩ := (kissner_run (threePartySystem 4)
    (threePartySetUp.scheme _ threePartySetUp_fits) (by decide) (by decide) hrun).2.2.2 r hr
  have hcommon : ∀ k ∈ [1, 2], ∀ q < 4, 1 ≤ q → ∃ k' < 4, ∀ b < 4,
      (threePartySystem 4).elements q (k' * 4 + b)
        = (threePartySystem 4).elements 2 (k * 4 + b) := by
    decide
  have hroots : [1, 2].map ((threePartySystem 4).leaderRoot threePartySetUp.n) = [3, 4] := by
    decide
  have hall := hcount [1, 2] (by decide) fun k hk q hq1 hqn =>
    hcommon k hk q (Nat.lt_succ_of_le hqn) hq1
  rw [hroots] at hall
  exact ⟨c, r, hreach, hr, hlen, hall⟩

/-- No run goes on forever. -/
theorem KissnerSystem.terminates [NeZero N] (S : KissnerSystem Y)
    (E : AdditiveScheme N S.numOfParties Z Y) (hn : 2 ≤ S.numOfParties)
    (hL : 1 ≤ S.leaderId ∧ S.leaderId ≤ S.numOfParties)
    {run : ℕ → Net ℕ Z (Proc ℕ Z (KissnerResult N))} (h0 : run 0 = S.start E) :
    ¬ ∀ k, Net.Step procAct (fun _ => True) (run k) (run (k + 1)) :=
  (S.script E hn hL).terminates h0

end MultiPartyPSI
