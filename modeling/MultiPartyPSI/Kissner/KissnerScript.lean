import MultiPartyPSI.Kissner.Aggregation

/-!
# The script of the polynomial protocol

All that one party sends another one goes over one channel: the parameters of the set-up, a
share, an encrypted polynomial, the sum that goes around the ring, a key, and then, one by
one, the ciphertexts and their partial decryptions. The script below lists it in this order,
each message with the time it is sent at: the party `k` steps after the leader passes the
sum on at time `3 + k`. Every party has a plan for its part, so every order of steps follows
the script.
-/

namespace MultiPartyPSI

open Lib Buf

variable {N : ℕ} {Z Y : Type}

namespace KissnerParty

variable (P : KissnerParty Y) {n : ℕ} {E : AdditiveScheme N n Z Y}

/-- A party's part of a phase: `X s d` is what goes from `s` to `d` in it. -/
def PhasePlan {R : Type} (t : ℕ) (prog : Proc ℕ Z R) (X : ℕ → ℕ → List (ℕ × Z)) (r : R)
    (t' : ℕ) : Prop :=
  Plan t prog (P.within fun q => X q P.partyId) (P.within fun q => X P.partyId q) r t'

section Phases

variable {P} {α R R' : Type} {t t' t'' : ℕ} {prog : Proc ℕ Z R} {X X' : ℕ → ℕ → List (ℕ × Z)}
  {r : R}

/-- One phase after the other. -/
theorem PhasePlan.bind {f : R → Proc ℕ Z R'} {r' : R'} (h : P.PhasePlan t prog X r t')
    (h' : P.PhasePlan t' (f r) X' r' t'') :
    P.PhasePlan t (prog.bind f) (fun s d => X s d ++ X' s d) r' t'' :=
  (Plan.bind h h').congr (within_append _ _) (within_append _ _)

theorem PhasePlan.mono {u : ℕ} (hu : u ≤ t) (h : P.PhasePlan t prog X r t') :
    P.PhasePlan u prog X r t' :=
  Plan.mono hu h

/-- Something is computed at the end of a phase. -/
theorem PhasePlan.map (f : R → R') (h : P.PhasePlan t prog X r t') :
    P.PhasePlan t (prog.bind fun r => .ret (f r)) X (f r) t' :=
  (Plan.bind h (.ret (f r) le_rfl)).congr (fun _ => List.append_nil _) fun _ => List.append_nil _

/-- A loop in which every round is a phase. -/
theorem PhasePlan.collect {f : α → Proc ℕ Z R} {l : List α} (T : ℕ → ℕ)
    (X : ℕ → ℕ → ℕ → List (ℕ × Z)) (r : ℕ → R)
    (h : ∀ i a, l[i]? = some a → P.PhasePlan (T i) (f a) (X i) (r i) (T (i + 1))) :
    P.PhasePlan (T 0) (Proc.collect f l)
      (fun s d => (List.range l.length).flatMap fun i => X i s d)
      ((List.range l.length).map r) (T l.length) :=
  (Plan.collect T _ _ r h).congr (fun _ => flatMap_if _ _ _) fun _ => flatMap_if _ _ _

theorem within_eq_nil {f : Traffic ℕ Z} (h : ∀ q ∈ P.peers, f q = []) (q : ℕ) :
    [] = P.within f q := by
  rw [within_congr h q, within_nil]

/-- Traffic with one peer. -/
theorem within_eq_single {f : Traffic ℕ Z} {items : List (ℕ × Z)} {q₀ : ℕ} (hq₀ : q₀ ∈ P.peers)
    (hf : f q₀ = items) (hne : ∀ q ∈ P.peers, q ≠ q₀ → f q = []) (q : ℕ) :
    (if q = q₀ then items else []) = P.within f q := by
  rw [within]
  by_cases hq : q = q₀
  · rw [hq, if_pos rfl, if_pos hq₀, hf]
  · rw [if_neg hq]
    split
    · next hmem => exact (hne q hmem hq).symm
    · rfl

variable (P)

/-- Something for every peer. -/
theorem plan_sendAll {f : ℕ → Proc ℕ Z R} (items : Traffic ℕ Z) (r : ℕ → R)
    (h : ∀ q, Plan t (f q) (fun _ => []) (fun q' => if q' = q then items q else []) (r q) t) :
    Plan t (Proc.collect f P.peers) (fun _ => []) (P.within items) (P.peers.map r) t :=
  Plan.collect_sends (nodup_others _ _) items r fun q _ => h q

/-- Something from every peer. -/
theorem plan_receiveAll {τ : ℕ} (hτ : τ < t) (m : ℕ → Z) :
    Plan t (Proc.collect Proc.receiveFrom P.peers) (P.within fun q => [(τ, m q)]) (fun _ => [])
      (P.peers.map m) t :=
  Plan.collect_recvs (nodup_others _ _) (fun q => [(τ, m q)]) m fun q _ =>
    Plan.receiveFrom hτ q (m q)

/-- In the map of partial decryptions there is one for every party, in ascending order. -/
theorem ordered_zip (f : ℕ → Z) :
    P.ordered ((P.partyId, f P.partyId) :: P.peers.zip (P.peers.map f))
      = (List.range' 1 P.numOfParties).map fun i => (i, f i) := by
  have hzip : ∀ (l : List ℕ) (i : ℕ), i ∈ l → (l.zip (l.map f)).lookup i = some (f i) := by
    intro l i
    induction l with
    | nil => intro hi; cases hi
    | cons a l ih =>
        intro hi
        rw [List.map_cons, List.zip_cons_cons, List.lookup_cons]
        by_cases ha : i = a
        · subst ha
          simp
        · rw [beq_eq_false_iff_ne.mpr ha]
          exact ih ((List.mem_cons.mp hi).resolve_left ha)
  refine (List.filterMap_congr fun i hi => ?_).trans
    (congrFun List.filterMap_eq_map (List.range' 1 P.numOfParties))
  rw [List.lookup_cons]
  by_cases hip : i = P.partyId
  · subst hip
    simp
  · rw [beq_eq_false_iff_ne.mpr hip]
    have hmem : i ∈ P.peers := by
      rw [peers, mem_others]
      rw [List.mem_range'_1] at hi
      omega
    simp [hzip _ i hmem]

end Phases

end KissnerParty

namespace KissnerSystem

variable (S : KissnerSystem Y) (E : AdditiveScheme N S.numOfParties Z Y)

/-! ## The script -/

/-- The party after `p`. -/
def next (p : ℕ) : ℕ := (S.party p).nextParty

/-- `m_share` of party `p`. -/
def share (p : ℕ) : Z := E.share p ((others S.numOfParties p).map fun q => E.deal q p)

/-- The ciphertext of coefficient `k` of the final sum. -/
def cipher (k : ℕ) : Z := (S.ringPoly E (S.numOfParties - 1)).getD k E.one

/-- The partial decryption of coefficient `k` by party `p`. -/
def partialDec (p k : ℕ) : Z := E.partialDecrypt (S.share E p) (S.cipher E k)

/-- `pubKeys`. -/
def pubKeys : List Z :=
  E.pubKey S.leaderId :: (others S.numOfParties S.leaderId).map E.pubKey

/-- Coefficient `k` as the leader decrypts it. -/
def coefficient (k : ℕ) : ℕ :=
  E.decrypt ((List.range' 1 S.numOfParties).map fun p => (p, S.partialDec E p k)) (S.pubKeys E)

/-- `initPaiilier`, from the leader. -/
def setUpPhase (s _d : ℕ) : List (ℕ × Z) :=
  if s = S.leaderId then [E.pTag, E.qTag, E.a, E.b].map fun m => (0, m) else []

/-- `secretShare`, from everyone. -/
def sharePhase (s d : ℕ) : List (ℕ × Z) := [(1, E.deal s d)]

/-- `makeSharedPolynomial`, to those above. -/
def polyPhase (s d : ℕ) : List (ℕ × Z) :=
  if s < d then (S.encPoly E s).map fun m => (2, m) else []

/-- Around the ring. -/
def ringPhase (s d : ℕ) : List (ℕ × Z) :=
  if d = S.next s then (S.ringPoly E (S.ringPos s)).map fun m => (3 + S.ringPos s, m) else []

/-- The public keys, to the leader. -/
def keyPhase (s d : ℕ) : List (ℕ × Z) :=
  if d = S.leaderId then [(3 + S.numOfParties, E.pubKey s)] else []

/-- One coefficient: the leader's question and the answers. -/
def decryptRound (k s d : ℕ) : List (ℕ × Z) :=
  if s = S.leaderId then [(4 + S.numOfParties + 2 * k, S.cipher E k)]
  else if d = S.leaderId then [(5 + S.numOfParties + 2 * k, S.partialDec E s k)]
  else []

/-- All coefficients. -/
def decryptPhase (s d : ℕ) : List (ℕ × Z) :=
  (List.range (2 * S.setSize + 1)).flatMap fun k => S.decryptRound E k s d

section Ring

variable {S} (hn : 2 ≤ S.numOfParties) (hL : 1 ≤ S.leaderId ∧ S.leaderId ≤ S.numOfParties)

theorem next_eq {p : ℕ} (hp : 1 ≤ p ∧ p ≤ S.numOfParties) :
    S.next p = if p = S.numOfParties then 1 else p + 1 := by
  rw [next, KissnerParty.nextParty]
  show p % S.numOfParties + 1 = _
  split
  · next h => rw [h, Nat.mod_self]
  · next h => rw [Nat.mod_eq_of_lt (by omega)]

theorem prevParty_eq (p : ℕ) :
    (S.party p).prevParty = if p - 1 = 0 then S.numOfParties else p - 1 := rfl

theorem mem_peers {p q : ℕ} :
    q ∈ (S.party p).peers ↔ (1 ≤ q ∧ q ≤ S.numOfParties) ∧ q ≠ p := mem_others

include hn

theorem next_mem_peers {p : ℕ} (hp : 1 ≤ p ∧ p ≤ S.numOfParties) :
    S.next p ∈ (S.party p).peers := by
  rw [mem_peers, next_eq hp]
  split
  · omega
  · omega

theorem prevParty_mem_peers {p : ℕ} (hp : 1 ≤ p ∧ p ≤ S.numOfParties) :
    (S.party p).prevParty ∈ (S.party p).peers := by
  rw [mem_peers, prevParty_eq]
  split
  · omega
  · omega

/-- `prevParty` is the one that `nextParty` leads here from. -/
theorem next_eq_iff {p q : ℕ} (hp : 1 ≤ p ∧ p ≤ S.numOfParties)
    (hq : 1 ≤ q ∧ q ≤ S.numOfParties) : p = S.next q ↔ q = (S.party p).prevParty := by
  rw [next_eq hq, prevParty_eq]
  split
  · split
    · omega
    · omega
  · split
    · omega
    · omega

include hL

/-- The leader's predecessor is last. -/
theorem ringPos_prevParty_leader :
    S.ringPos (S.party S.leaderId).prevParty = S.numOfParties - 1 := by
  rw [ringPos_eq hL (mem_peers.mp (prevParty_mem_peers hn hL)).1, prevParty_eq]
  split_ifs <;> omega

/-- Everyone else is one step after their predecessor. -/
theorem ringPos_prevParty {p : ℕ} (hp : 1 ≤ p ∧ p ≤ S.numOfParties) (hpL : p ≠ S.leaderId) :
    S.ringPos p = S.ringPos (S.party p).prevParty + 1 := by
  rw [ringPos_eq hL (mem_peers.mp (prevParty_mem_peers hn hp)).1, ringPos_eq hL hp, prevParty_eq]
  split_ifs <;> omega

end Ring

/-! ## The plans -/

section Plans

variable {S E} (hn : 2 ≤ S.numOfParties) (hL : 1 ≤ S.leaderId ∧ S.leaderId ≤ S.numOfParties)
  {p : ℕ} (hp : 1 ≤ p ∧ p ≤ S.numOfParties)

theorem leader_mem_peers (hL : 1 ≤ S.leaderId ∧ S.leaderId ≤ S.numOfParties)
    (hpL : p ≠ S.leaderId) : S.leaderId ∈ (S.party p).peers :=
  mem_peers.mpr ⟨hL, hpL.symm⟩

theorem ne_of_mem_peers {q : ℕ} (hq : q ∈ (S.party p).peers) : q ≠ p := (mem_peers.mp hq).2

include hL in
theorem plan_initPaiilier :
    (S.party p).PhasePlan 0 ((S.party p).initPaiilier E) (S.setUpPhase E) () 1 := by
  rw [KissnerParty.initPaiilier]
  by_cases hpL : p = S.leaderId
  · -- the leader sends the four parameters to everyone
    rw [if_pos (show (S.party p).partyId = (S.party p).leaderId from hpL)]
    have hsend := (S.party p).plan_sendAll (fun _ => [E.pTag, E.qTag, E.a, E.b].map fun m => (0, m))
      _ fun q => Plan.sendList 0 q [E.pTag, E.qTag, E.a, E.b]
    refine (hsend.bind (.ret () (Nat.zero_le 1))).congr (fun q => ?_) fun q => ?_
    · refine KissnerParty.within_eq_nil (fun q hq => if_neg ?_) q
      intro hqL
      exact ne_of_mem_peers hq (hqL.trans hpL.symm)
    · rw [List.append_nil]
      exact KissnerParty.within_congr (fun q _ => (if_pos hpL).symm) q
  · rw [if_neg (show ¬ (S.party p).partyId = (S.party p).leaderId from hpL)]
    have hrecv := Plan.receiveList Nat.zero_lt_one S.leaderId [E.pTag, E.qTag, E.a, E.b] rfl
    refine ((hrecv.bind (.ret () le_rfl)).mono (Nat.zero_le 1)).congr (fun q => ?_) fun q => ?_
    · rw [List.append_nil]
      exact KissnerParty.within_eq_single (leader_mem_peers hL hpL) (if_pos rfl)
        (fun q _ hqL => if_neg hqL) q
    · exact KissnerParty.within_eq_nil (fun q _ => if_neg hpL) q

theorem plan_secretShare :
    (S.party p).PhasePlan 1 ((S.party p).secretShare E) (sharePhase S E) (S.share E p) 2 := by
  have hsend := (S.party p).plan_sendAll (fun q => [(1, E.deal p q)]) (fun _ => ()) fun q =>
    Plan.sendTo 1 q (E.deal p q)
  have hrecv := (S.party p).plan_receiveAll Nat.one_lt_two fun q => E.deal q p
  have hret := hrecv.bind (f := fun values => .ret (E.share p values)) (.ret (S.share E p) le_rfl)
  refine (hsend.bind (hret.mono (Nat.le_succ 1))).congr (fun q => ?_) fun q => ?_
  · rw [List.nil_append, List.append_nil]
    rfl
  · rw [List.nil_append, List.append_nil]
    rfl

include hp in
theorem plan_polyPhase :
    (S.party p).PhasePlan 2 ((S.party p).makeSharedPolynomial E
      ((S.party p).getEncryptedCoefficients E)) (S.polyPhase E) (S.sharedPoly E p) 3 :=
  KissnerParty.plan_makeSharedPolynomial (P := S.party p) hp (S.encPoly E) (S.length_encPoly E) 2

include hn hp in
/-- What a party gets from its predecessor in the ring. -/
theorem within_ringPhase_in (q : ℕ) :
    (if q = (S.party p).prevParty then
        (S.ringPoly E (S.ringPos (S.party p).prevParty)).map fun m =>
          (3 + S.ringPos (S.party p).prevParty, m) else [])
      = (S.party p).within (fun q => S.ringPhase E q p) q := by
  have hprev := prevParty_mem_peers hn hp
  refine KissnerParty.within_eq_single hprev (if_pos ?_) (fun q' hq' hne => if_neg ?_) q
  · exact (next_eq_iff hn hp (mem_peers.mp hprev).1).mpr rfl
  · intro hnext
    exact hne ((next_eq_iff hn hp (mem_peers.mp hq').1).mp hnext)

include hn hp in
/-- What it hands to the next one. -/
theorem within_ringPhase_out (q : ℕ) :
    (if q = S.next p then (S.ringPoly E (S.ringPos p)).map fun m => (3 + S.ringPos p, m) else [])
      = (S.party p).within (S.ringPhase E p) q :=
  KissnerParty.within_eq_single (next_mem_peers hn hp) (if_pos rfl) (fun _ _ hne => if_neg hne) q

/-- One ciphertext: a follower answers. -/
theorem plan_answer (hL : 1 ≤ S.leaderId ∧ S.leaderId ≤ S.numOfParties) (hpL : p ≠ S.leaderId)
    (k : ℕ) :
    (S.party p).PhasePlan (5 + S.numOfParties + 2 * k)
      ((Proc.receiveFrom S.leaderId).bind fun cipher =>
        Proc.sendTo S.leaderId (E.partialDecrypt (S.share E p) cipher))
      (S.decryptRound E k) () (5 + S.numOfParties + 2 * (k + 1)) := by
  have hleader := leader_mem_peers hL hpL
  have hrecv := Plan.receiveFrom (t := 5 + S.numOfParties + 2 * k)
    (show 4 + S.numOfParties + 2 * k < _ by omega) S.leaderId (S.cipher E k)
  have hsend :=
    (Plan.sendTo (5 + S.numOfParties + 2 * k) S.leaderId (S.partialDec E p k)).mono_right
    (show _ ≤ 5 + S.numOfParties + 2 * (k + 1) by omega)
  refine (hrecv.bind hsend).congr (fun q => ?_) fun q => ?_
  · rw [List.append_nil]
    refine KissnerParty.within_eq_single hleader (if_pos rfl) (fun q' _ hne => ?_) q
    exact (if_neg hne).trans (if_neg hpL)
  · rw [List.nil_append]
    refine KissnerParty.within_eq_single hleader ?_ (fun q' _ hne => ?_) q
    · exact (if_neg hpL).trans (if_pos rfl)
    · exact (if_neg hpL).trans (if_neg hne)

/-- One ciphertext: the leader asks everyone and decrypts. -/
theorem plan_decryptCoefficient (k : ℕ) :
    (S.party S.leaderId).PhasePlan (4 + S.numOfParties + 2 * k)
      ((S.party S.leaderId).decryptCoefficient E (S.share E S.leaderId) (S.pubKeys E)
        (S.cipher E k))
      (S.decryptRound E k) (S.coefficient E k) (4 + S.numOfParties + 2 * (k + 1)) := by
  have hsend := (S.party S.leaderId).plan_sendAll (t := 4 + S.numOfParties + 2 * k)
    (fun _ => [(4 + S.numOfParties + 2 * k, S.cipher E k)]) (fun _ => ())
    fun q => Plan.sendTo _ q (S.cipher E k)
  have hrecv := (S.party S.leaderId).plan_receiveAll
    (show 5 + S.numOfParties + 2 * k < 4 + S.numOfParties + 2 * (k + 1) by omega)
    fun q => S.partialDec E q k
  -- what is decrypted does not depend on the order of the answers
  have hdecs : (S.party S.leaderId).ordered ((S.leaderId, S.partialDec E S.leaderId k) ::
      (S.party S.leaderId).peers.zip ((S.party S.leaderId).peers.map fun q => S.partialDec E q k))
      = (List.range' 1 S.numOfParties).map fun q => (q, S.partialDec E q k) :=
    (S.party S.leaderId).ordered_zip fun q => S.partialDec E q k
  have hret : Plan (4 + S.numOfParties + 2 * (k + 1))
      (.ret (E.decrypt ((S.party S.leaderId).ordered
        ((S.leaderId, S.partialDec E S.leaderId k) :: (S.party S.leaderId).peers.zip
          ((S.party S.leaderId).peers.map fun q => S.partialDec E q k))) (S.pubKeys E)) :
        Proc ℕ Z ℕ) (fun _ => []) (fun _ => []) (S.coefficient E k)
      (4 + S.numOfParties + 2 * (k + 1)) := by
    rw [hdecs]
    exact .ret _ le_rfl
  refine (hsend.bind ((hrecv.bind (f := fun decs => .ret (E.decrypt ((S.party S.leaderId).ordered
    ((S.leaderId, S.partialDec E S.leaderId k) :: (S.party S.leaderId).peers.zip decs))
    (S.pubKeys E))) hret).mono (by omega))).congr (fun q => ?_) fun q => ?_
  · rw [List.nil_append, List.append_nil]
    refine KissnerParty.within_congr (fun q' hq' => ?_) q
    exact ((if_neg (ne_of_mem_peers hq')).trans (if_pos rfl)).symm
  · rw [List.append_nil, List.append_nil]
    exact KissnerParty.within_congr (fun q' _ => (if_pos rfl).symm) q

include hL in
/-- All ciphertexts, at a follower. -/
theorem plan_decrypt_follower (hpL : p ≠ S.leaderId) :
    (S.party p).PhasePlan (5 + S.numOfParties)
      (Proc.collect (fun _ => (Proc.receiveFrom S.leaderId).bind fun cipher =>
        Proc.sendTo S.leaderId (E.partialDecrypt (S.share E p) cipher))
        (List.range (2 * S.setSize + 1)))
      (S.decryptPhase E) ((List.range (2 * S.setSize + 1)).map fun _ => ())
      (5 + S.numOfParties + 2 * (2 * S.setSize + 1)) := by
  have hround := KissnerParty.PhasePlan.collect (fun k => 5 + S.numOfParties + 2 * k)
    (S.decryptRound E) (fun _ => ()) (l := List.range (2 * S.setSize + 1))
    fun k _ _ => plan_answer (E := E) hL hpL k
  rw [List.length_range] at hround
  exact hround

variable [NeZero N]

include hL in
theorem length_ringPoly (k : ℕ) : (S.ringPoly E k).length = 2 * S.setSize + 1 :=
  (carries_ringPoly (N := N) hL k).length

include hn hL hp in
/-- A follower adds its polynomial to the sum and passes it on. -/
theorem plan_ring_follower (hpL : p ≠ S.leaderId) :
    (S.party p).PhasePlan 3
      ((Proc.receiveList (S.party p).prevParty (2 * S.setSize + 1)).bind fun prevPoly =>
        Proc.sendList (S.next p) (KissnerParty.addEncPolys E prevPoly (S.sharedPoly E p)))
      (S.ringPhase E) ((S.ringPoly E (S.ringPos p)).map fun _ => ()) (3 + S.ringPos p) := by
  -- the one before has the sum up to its own place in the ring
  have hpos := ringPos_prevParty hn hL hp hpL
  have hpoly : KissnerParty.addEncPolys E (S.ringPoly E (S.ringPos (S.party p).prevParty))
      (S.sharedPoly E p) = S.ringPoly E (S.ringPos p) := by
    rw [hpos, ringPoly, ← hpos, ringId_ringPos hL hp]
  have hrecv := Plan.receiveList (t := 3 + S.ringPos p)
    (show 3 + S.ringPos (S.party p).prevParty < _ by omega) (S.party p).prevParty
    (S.ringPoly E (S.ringPos (S.party p).prevParty)) (length_ringPoly hL _)
  have hsend := Plan.sendList (3 + S.ringPos p) (S.next p) (S.ringPoly E (S.ringPos p))
  rw [← hpoly] at hsend
  have hring := hrecv.bind (f := fun prevPoly =>
    Proc.sendList (S.next p) (KissnerParty.addEncPolys E prevPoly (S.sharedPoly E p))) hsend
  rw [hpoly] at hring
  refine (hring.mono (Nat.le_add_right 3 _)).congr (fun q => ?_) fun q => ?_
  · rw [List.append_nil]
    exact within_ringPhase_in hn hp q
  · rw [List.nil_append]
    exact within_ringPhase_out hn hp q

include hn hL in
/-- The leader starts the sum, and gets it back. -/
theorem plan_ring_leader :
    (S.party S.leaderId).PhasePlan 3
      ((Proc.sendList (S.next S.leaderId) (S.sharedPoly E S.leaderId)).bind fun _ =>
        Proc.receiveList (S.party S.leaderId).prevParty (2 * S.setSize + 1))
      (S.ringPhase E) (S.ringPoly E (S.numOfParties - 1)) (3 + S.numOfParties) := by
  have hpos := ringPos_prevParty_leader hn hL
  have hzero : S.ringPos S.leaderId = 0 := by
    rw [ringPos_eq hL hL, if_neg (lt_irrefl _), Nat.sub_self]
  have hsend := Plan.sendList 3 (S.next S.leaderId) (S.ringPoly E 0)
  have hrecv := Plan.receiveList (t := 3 + S.numOfParties)
    (show 3 + (S.numOfParties - 1) < _ by omega) (S.party S.leaderId).prevParty
    (S.ringPoly E (S.numOfParties - 1)) (length_ringPoly hL _)
  have hring := hsend.bind (f := fun _ => Proc.receiveList (S.party S.leaderId).prevParty
    (2 * S.setSize + 1)) (hrecv.mono (Nat.le_add_right 3 _))
  refine hring.congr (fun q => ?_) fun q => ?_
  · rw [List.nil_append, ← hpos]
    exact within_ringPhase_in hn hL q
  · rw [List.append_nil]
    refine Eq.trans ?_ (within_ringPhase_out hn hL q)
    rw [hzero]

include hL in
/-- All ciphertexts, at the leader. -/
theorem plan_decrypt_leader :
    (S.party S.leaderId).PhasePlan (4 + S.numOfParties)
      (Proc.collect ((S.party S.leaderId).decryptCoefficient E (S.share E S.leaderId) (S.pubKeys E))
        (S.ringPoly E (S.numOfParties - 1)))
      (S.decryptPhase E) ((List.range (2 * S.setSize + 1)).map (S.coefficient E))
      (4 + S.numOfParties + 2 * (2 * S.setSize + 1)) := by
  have hround := KissnerParty.PhasePlan.collect (fun k => 4 + S.numOfParties + 2 * k)
    (S.decryptRound E) (S.coefficient E) (l := S.ringPoly E (S.numOfParties - 1))
    (f := (S.party S.leaderId).decryptCoefficient E (S.share E S.leaderId) (S.pubKeys E))
    fun k a ha => by
      have hcipher : S.cipher E k = a := by
        rw [cipher, List.getD_eq_getElem?_getD, ha]
        rfl
      rw [← hcipher]
      exact plan_decryptCoefficient k
  rw [length_ringPoly hL] at hround
  exact hround

include hn hL hp in
/-- What a follower does once it has its polynomial. -/
theorem plan_follower (hpL : p ≠ S.leaderId) :
    (S.party p).PhasePlan 3 ((S.party p).makeDecryptedPolynomialAsFollower E (S.share E p)
      (S.sharedPoly E p))
      (fun s d => S.ringPhase E s d ++ (S.keyPhase E s d ++ S.decryptPhase E s d)) ()
      (5 + S.numOfParties + 2 * (2 * S.setSize + 1)) := by
  have hkey : (S.party p).PhasePlan (3 + S.numOfParties)
      (Proc.sendTo S.leaderId (E.pubKey p)) (S.keyPhase E) () (5 + S.numOfParties) := by
    refine ((Plan.sendTo _ _ _).mono_right (by omega)).congr (fun q => ?_) fun q => ?_
    · exact KissnerParty.within_eq_nil (fun q' _ => if_neg hpL) q
    · exact KissnerParty.within_eq_single (leader_mem_peers hL hpL) (if_pos rfl)
        (fun q' _ hne => if_neg hne) q
  -- from the last phase to the first
  have hend := (plan_decrypt_follower (E := E) hL hpL).map fun _ => ()
  have hrest := (hkey.bind (f := fun _ =>
    (Proc.collect (fun _ => (Proc.receiveFrom S.leaderId).bind fun cipher =>
      Proc.sendTo S.leaderId (E.partialDecrypt (S.share E p) cipher))
      (List.range (2 * S.setSize + 1))).bind fun _ => .ret ()) hend).mono
    (Nat.add_le_add_left (ringPos_lt (S := S) (by omega) p).le 3)
  have hring := (plan_ring_follower (E := E) hn hL hp hpL).bind (f := fun _ =>
    (Proc.sendTo S.leaderId (E.pubKey p)).bind fun _ =>
      (Proc.collect (fun _ => (Proc.receiveFrom S.leaderId).bind fun cipher =>
        Proc.sendTo S.leaderId (E.partialDecrypt (S.share E p) cipher))
        (List.range (2 * S.setSize + 1))).bind fun _ => .ret ()) hrest
  rw [Proc.bind_assoc] at hring
  exact hring

include hn hL in
/-- What the leader does then. -/
theorem plan_leader :
    (S.party S.leaderId).PhasePlan 3 ((S.party S.leaderId).makeDecryptedPolynomialAsLeader E
      (S.share E S.leaderId) (S.sharedPoly E S.leaderId))
      (fun s d => S.ringPhase E s d ++ (S.keyPhase E s d ++ S.decryptPhase E s d))
      ((List.range (2 * S.setSize + 1)).map (S.coefficient E))
      (4 + S.numOfParties + 2 * (2 * S.setSize + 1)) := by
  have hkeys : (S.party S.leaderId).PhasePlan (4 + S.numOfParties)
      (Proc.collect Proc.receiveFrom (S.party S.leaderId).peers) (S.keyPhase E)
      ((S.party S.leaderId).peers.map E.pubKey) (4 + S.numOfParties) := by
    refine ((S.party S.leaderId).plan_receiveAll (show 3 + S.numOfParties < _ by omega)
      E.pubKey).congr (fun q => ?_) fun q => ?_
    · exact KissnerParty.within_congr (fun q' _ => (if_pos rfl).symm) q
    · exact KissnerParty.within_eq_nil (fun q' hq' => if_neg (ne_of_mem_peers hq')) q
  have hrest := (hkeys.bind (f := fun keys =>
    Proc.collect ((S.party S.leaderId).decryptCoefficient E (S.share E S.leaderId)
      (E.pubKey S.leaderId :: keys)) (S.ringPoly E (S.numOfParties - 1)))
    (plan_decrypt_leader (E := E) hL)).mono (show 3 + S.numOfParties ≤ _ by omega)
  have hring := (plan_ring_leader (E := E) hn hL).bind (f := fun finalPoly =>
    (Proc.collect Proc.receiveFrom (S.party S.leaderId).peers).bind fun keys =>
      Proc.collect ((S.party S.leaderId).decryptCoefficient E (S.share E S.leaderId)
        (E.pubKey S.leaderId :: keys)) finalPoly) hrest
  rw [Proc.bind_assoc] at hring
  exact hring

/-- All phases. -/
def phases (S : KissnerSystem Y) (E : AdditiveScheme N S.numOfParties Z Y) (s d : ℕ) :
    List (ℕ × Z) :=
  S.setUpPhase E s d ++ (S.sharePhase E s d ++ (S.polyPhase E s d ++
    (S.ringPhase E s d ++ (S.keyPhase E s d ++ S.decryptPhase E s d))))

/-- What party `p` computes. -/
def result (S : KissnerSystem Y) (E : AdditiveScheme N S.numOfParties Z Y) (p : ℕ) :
    KissnerResult N :=
  if p ≠ S.leaderId then ⟨[], []⟩
  else
    let decryptedPoly := (List.range (2 * S.setSize + 1)).map (S.coefficient E)
    ⟨decryptedPoly, ((S.party p).roots N).filter fun root =>
      (S.party p).evalDecrypted decryptedPoly root = 0⟩

include hn hL hp in
/-- A whole run of one party. -/
theorem plan_run :
    ∃ t', (S.party p).PhasePlan 0 ((S.party p).run E) (S.phases E) (S.result E p) t' := by
  have hset := plan_initPaiilier (E := E) (p := p) hL
  have hshare := plan_secretShare (S := S) (E := E) (p := p)
  have hpoly := plan_polyPhase (E := E) hp
  have hlast : ∃ t', (S.party p).PhasePlan 3
      (if p ≠ S.leaderId then
        ((S.party p).makeDecryptedPolynomialAsFollower E (S.share E p) (S.sharedPoly E p)).bind
          fun _ => .ret ⟨[], []⟩
      else
        ((S.party p).makeDecryptedPolynomialAsLeader E (S.share E p) (S.sharedPoly E p)).bind
          fun decryptedPoly => .ret ⟨decryptedPoly, ((S.party p).roots N).filter fun root =>
            (S.party p).evalDecrypted decryptedPoly root = 0⟩)
      (fun s d => S.ringPhase E s d ++ (S.keyPhase E s d ++ S.decryptPhase E s d))
      (S.result E p) t' := by
    by_cases hpL : p = S.leaderId
    · subst hpL
      rw [if_neg (not_not_intro rfl), result, if_neg (not_not_intro rfl)]
      exact ⟨_, (plan_leader (E := E) hn hL).map _⟩
    · rw [if_pos hpL, result, if_pos hpL]
      exact ⟨_, (plan_follower (E := E) hn hL hp hpL).map _⟩
  obtain ⟨t', hlast⟩ := hlast
  exact ⟨t', hset.bind (hshare.bind (hpoly.bind hlast))⟩

end Plans

/-! ## All parties -/

/-- Every party runs; there is nobody else. -/
def prog (S : KissnerSystem Y) (E : AdditiveScheme N S.numOfParties Z Y) (p : ℕ) :
    Proc ℕ Z (KissnerResult N) :=
  if p ∈ S.ids then (S.party p).run E else .ret ⟨[], []⟩

/-- All parties at the start of `run`. -/
def start : Net ℕ Z (Proc ℕ Z (KissnerResult N)) := ⟨S.prog E, fun _ => []⟩

/-- The script of a whole run. -/
def script [NeZero N] (hn : 2 ≤ S.numOfParties)
    (hL : 1 ≤ S.leaderId ∧ S.leaderId ≤ S.numOfParties) : Script ℕ Z (KissnerResult N) where
  prog := S.prog E
  stream s d := if s ∈ S.ids ∧ d ∈ S.ids ∧ d ≠ s then S.phases E s d else []
  result p := if p ∈ S.ids then S.result E p else ⟨[], []⟩
  plan p := by
    by_cases hp : p ∈ S.ids
    · obtain ⟨t', hplan⟩ := plan_run (E := E) hn hL (S.mem_ids.mp hp)
      refine ⟨0, t', ?_⟩
      rw [prog, if_pos hp, if_pos hp]
      refine hplan.congr (fun q => if_congr ?_ rfl rfl) fun q => if_congr ?_ rfl rfl
      · rw [mem_peers, mem_ids, mem_ids]
        have := S.mem_ids.mp hp
        omega
      · rw [mem_peers, mem_ids, mem_ids]
        have := S.mem_ids.mp hp
        omega
    · refine ⟨0, 0, ?_⟩
      rw [prog, if_neg hp, if_neg hp]
      refine (Plan.ret _ le_rfl).congr (fun q => ?_) fun q => ?_
      · exact (if_neg fun h => hp h.2.1).symm
      · exact (if_neg fun h => hp h.1).symm
  parties := S.ids.toFinset
  mem_parties {s d} h := by
    split at h
    · next hsd => exact ⟨List.mem_toFinset.mpr hsd.1, List.mem_toFinset.mpr hsd.2.1⟩
    · exact absurd rfl h

end KissnerSystem

end MultiPartyPSI
