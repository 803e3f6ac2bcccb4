import MultiPartyPSI.Defs
import MultiPartyPSI.Lib.Fifo
import MultiPartyPSI.Lib.ZeroSum
import Mathlib.Algebra.BigOperators.Intervals
import Mathlib.Algebra.Order.BigOperators.Group.Finset

/-!
# Additive secret sharing

`PsiParty::additiveSecretShare`. A party draws a key for every party above it and
sends it there, then receives one from every party below; its share is the XOR of
the PRG streams of all these keys.

Every local state and every channel is determined by how many actions each party has
taken, so the reachable states are the `stateOf act`. That is the whole invariant:
the messages cannot go wrong, and what is left is that the streams cancel in pairs.
-/

namespace MultiPartyPSI

open Lib Buf

section Model

variable {Key : Type*}

/-- Where a party is in `additiveSecretShare`: in one of its two loops, at index `i`, with the
keys in `shares` so far. -/
inductive ShareState (Key : Type*) where
  | sending (i : Nat) (shares : List Key)
  | receiving (i : Nat) (shares : List Key)

/-- `shares`. -/
def ShareState.shares : ShareState Key → List Key
  | sending _ shares => shares
  | receiving _ shares => shares

/-- The second loop: `for (i = 1; i <= m_partyId-1; i++)`. -/
def receiveLoop (partyId i : Nat) (shares : List Key) : Act Nat Key (ShareState Key) :=
  if i ≤ partyId - 1 then .recv i fun share => .receiving (i + 1) (shares ++ [share]) else .done

/-- The program of a party; `keys p i` is the key that party `p` draws for party `i`. -/
def shareProgram (numOfParties : Nat) (keys : Nat → Nat → Key) (partyId : Nat) :
    ShareState Key → Act Nat Key (ShareState Key)
  | .sending i shares =>
      if 1 ≤ partyId ∧ partyId ≤ numOfParties then
        if i ≤ numOfParties then
          .send i (keys partyId i) (.sending (i + 1) (shares ++ [keys partyId i]))
        else receiveLoop partyId 1 shares
      else .done
  | .receiving i shares => receiveLoop partyId i shares

/-- Before anyone starts. -/
def shareInit (Key : Type*) : Net Nat Key (ShareState Key) :=
  ⟨fun p => .sending (p + 1) [], fun _ => []⟩

/-- `m_secretShare`: the XOR of the PRG streams of all keys. -/
def secretShare (prg : Key → Nat → Buf Byte) (shareSize : Nat) (shares : List Key) : Buf Byte :=
  shares.foldl (fun m share => XOR m 0 (prg share shareSize) 0 shareSize)
    (fill (fun _ => 0) 0 0 shareSize)

end Model

/-! ## States by number of actions -/

section Runs

variable {Key : Type*} (n : Nat) (keys : Nat → Nat → Key)

/-- The keys party `p` has after `a` actions: those it sent, then those it received. -/
def sharesAfter (p a : Nat) : List Key :=
  (List.range (min a (n - p))).map (fun k => keys p (p + 1 + k))
    ++ (List.range (a - (n - p))).map fun k => keys (k + 1) p

/-- The local state of party `p` after `a` actions. -/
def after (p a : Nat) : ShareState Key :=
  if a ≤ n - p then .sending (p + 1 + a) (sharesAfter n keys p a)
  else .receiving (a - (n - p) + 1) (sharesAfter n keys p a)

/-- Party `i` has sent its key to party `j` above it, which has not received it yet. -/
def InFlight (act : Nat → Nat) (i j : Nat) : Prop :=
  (1 ≤ i ∧ i < j ∧ j ≤ n) ∧ j - i ≤ act i ∧ act j < n - j + i

instance (act : Nat → Nat) (i j : Nat) : Decidable (InFlight n act i j) :=
  inferInstanceAs (Decidable (_ ∧ _))

/-- The state when party `p` has taken `act p` actions, for all `p`. -/
def stateOf (act : Nat → Nat) : Net Nat Key (ShareState Key) :=
  ⟨fun p => after n keys p (act p),
    fun k => if InFlight n act k.1 k.2 then [keys k.1 k.2] else []⟩

variable {n keys}

theorem sharesAfter_sent {p a : Nat} (ha : a < n - p) :
    sharesAfter n keys p (a + 1) = sharesAfter n keys p a ++ [keys p (p + 1 + a)] := by
  rw [sharesAfter, sharesAfter, Nat.min_eq_left (by omega), Nat.min_eq_left (by omega),
    Nat.sub_eq_zero_of_le (by omega), Nat.sub_eq_zero_of_le (by omega), List.range_succ]
  simp

theorem sharesAfter_received {p a : Nat} (ha : n - p ≤ a) :
    sharesAfter n keys p (a + 1) = sharesAfter n keys p a ++ [keys (a - (n - p) + 1) p] := by
  rw [sharesAfter, sharesAfter, Nat.min_eq_right (by omega), Nat.min_eq_right ha,
    show a + 1 - (n - p) = a - (n - p) + 1 by omega, List.range_succ, List.map_append,
    List.append_assoc]
  rfl

/-- While it has someone to send to, a party sends. -/
theorem program_send {p a : Nat} (hp : 1 ≤ p ∧ p ≤ n) (ha : a < n - p) :
    shareProgram n keys p (after n keys p a)
      = .send (p + 1 + a) (keys p (p + 1 + a)) (after n keys p (a + 1)) := by
  rw [after, after, if_pos (by omega), if_pos (by omega), shareProgram, if_pos hp,
    if_pos (by omega), sharesAfter_sent ha]
  rfl

/-- Then it receives. -/
theorem program_recv (keys : Nat → Nat → Key) {p a : Nat} (hp : 1 ≤ p ∧ p ≤ n) (ha : n - p ≤ a) :
    shareProgram n keys p (after n keys p a)
      = if a < n - 1 then .recv (a - (n - p) + 1) fun share =>
          .receiving (a + 1 - (n - p) + 1) (sharesAfter n keys p a ++ [share])
        else .done := by
  have hloop : shareProgram n keys p (after n keys p a)
      = receiveLoop p (a - (n - p) + 1) (sharesAfter n keys p a) := by
    unfold after
    split
    · have : a - (n - p) + 1 = 1 := by omega
      rw [shareProgram, if_pos hp, if_neg (by omega), this]
    · rfl
  rw [hloop, receiveLoop, show a - (n - p) + 1 + 1 = a + 1 - (n - p) + 1 by omega]
  exact if_congr (by omega) rfl rfl

/-- Nobody else does anything. -/
theorem program_outside {p : Nat} (hp : ¬ (1 ≤ p ∧ p ≤ n)) :
    shareProgram n keys p (after n keys p 0) = .done := by
  rw [after, if_pos (Nat.zero_le _), shareProgram, if_neg hp]

/-- One more action of party `p`. -/
theorem stateOf_update {act : Nat → Nat} {p : Nat} {k : Nat × Nat} {l : List Key}
    (hchan : ∀ i j, (if (i, j) = k then l else if InFlight n act i j then [keys i j] else [])
      = if InFlight n (Function.update act p (act p + 1)) i j then [keys i j] else []) :
    (stateOf n keys act).put p (after n keys p (act p + 1)) k l
      = stateOf n keys (Function.update act p (act p + 1)) := by
  unfold stateOf Net.put
  congr 1
  · funext q
    by_cases hq : q = p
    · subst hq
      rw [Function.update_self, Function.update_self]
    · rw [Function.update_of_ne hq, Function.update_of_ne hq]
  · funext x
    obtain ⟨i, j⟩ := x
    rw [← hchan, Function.update_apply]

/-- The actions taken so far: none too many, and nothing received before it was sent. -/
structure Counts (n : Nat) (act : Nat → Nat) : Prop where
  le : ∀ p, act p ≤ n - 1
  /-- Only the parties act. -/
  outside : ∀ p, ¬ (1 ≤ p ∧ p ≤ n) → act p = 0
  causal : ∀ i j, 1 ≤ i → i < j → j ≤ n → n - j + i ≤ act j → j - i ≤ act i

/-- One more action of party `p`, which is none too many; if it receives then the sender has
sent. -/
theorem Counts.update {act : Nat → Nat} (h : Counts n act) {p : Nat} (hp : 1 ≤ p ∧ p ≤ n)
    (ha : act p < n - 1) (hcausal : ∀ i, 1 ≤ i → i < p → act p + 1 = n - p + i → p - i ≤ act i) :
    Counts n (Function.update act p (act p + 1)) := by
  constructor
  case le =>
    intro q
    by_cases hq : q = p
    · subst hq
      rw [Function.update_self]
      exact ha
    · rw [Function.update_of_ne hq]
      exact h.le q
  case outside =>
    intro q hq
    have hqp : q ≠ p := fun hqp => hq (hqp ▸ hp)
    rw [Function.update_of_ne hqp]
    exact h.outside q hq
  case causal =>
    intro i j hi hij hj hr
    have hc := h.causal i j hi hij hj
    by_cases hjp : j = p
    · subst hjp
      rw [Function.update_self] at hr
      rw [Function.update_of_ne hij.ne]
      by_cases hlast : act j + 1 = n - j + i
      · exact hcausal i hi hij hlast
      · exact hc (by omega)
    · rw [Function.update_of_ne hjp] at hr
      by_cases hip : i = p
      · subst hip
        rw [Function.update_self]
        exact (hc hr).trans (Nat.le_succ _)
      · rw [Function.update_of_ne hip]
        exact hc hr

/-- Only the channels change on which `p` sends or receives next. -/
theorem inFlight_update {act : Nat → Nat} {p i j : Nat}
    (hsend : ¬ (i = p ∧ j = p + 1 + act p)) (hrecv : ¬ (j = p ∧ act p + 1 = n - p + i)) :
    InFlight n (Function.update act p (act p + 1)) i j ↔ InFlight n act i j := by
  unfold InFlight
  by_cases hij : i = j
  · subst hij
    omega
  by_cases hip : i = p
  · subst hip
    rw [Function.update_self, Function.update_of_ne (Ne.symm hij)]
    omega
  · rw [Function.update_of_ne hip]
    by_cases hjp : j = p
    · subst hjp
      rw [Function.update_self]
      omega
    · rw [Function.update_of_ne hjp]

/-- A party that sends next, after its action. -/
theorem Counts.send {act : Nat → Nat} (h : Counts n act) {p : Nat} (hp : 1 ≤ p ∧ p ≤ n)
    (ha : act p < n - p) (keys : Nat → Nat → Key) :
    Counts n (Function.update act p (act p + 1)) ∧
      (stateOf n keys act).put p (after n keys p (act p + 1)) (p, p + 1 + act p)
          ((stateOf n keys act).chan (p, p + 1 + act p) ++ [keys p (p + 1 + act p)])
        = stateOf n keys (Function.update act p (act p + 1)) := by
  refine ⟨h.update hp (by omega) fun i hi hip hr => by omega, stateOf_update fun i j => ?_⟩
  have hempty : (stateOf n keys act).chan (p, p + 1 + act p) = [] := by
    refine if_neg fun hf => ?_
    have : p + 1 + act p - p ≤ act p := hf.2.1
    omega
  rw [hempty, List.nil_append]
  by_cases hk : (i, j) = (p, p + 1 + act p)
  · obtain ⟨rfl, rfl⟩ := Prod.mk.inj hk
    -- the receiver cannot have had it before it was sent
    have hnot : ¬ n - (i + 1 + act i) + i ≤ act (i + 1 + act i) := by
      intro hr
      have := h.causal i (i + 1 + act i) hp.1 (by omega) (by omega) hr
      omega
    rw [if_pos rfl, if_pos]
    refine ⟨by omega, ?_, ?_⟩
    · rw [Function.update_self]
      omega
    · rw [Function.update_of_ne (by omega)]
      omega
  · rw [if_neg hk]
    refine if_congr (Iff.symm ?_) rfl rfl
    by_cases hi : 1 ≤ i
    · exact inFlight_update (fun h => hk (Prod.ext h.1 h.2)) (by omega)
    · exact iff_of_false (fun hf => hi hf.1.1) fun hf => hi hf.1.1

/-- A party that receives next, after its action: the message is its peer's key. -/
theorem Counts.recv {act : Nat → Nat} (h : Counts n act) {p : Nat} (hp : 1 ≤ p ∧ p ≤ n)
    (ha : n - p ≤ act p) (ha' : act p < n - 1) (keys : Nat → Nat → Key) {m : Key}
    {rest : List Key}
    (hchan : (stateOf n keys act).chan (act p - (n - p) + 1, p) = m :: rest) :
    Counts n (Function.update act p (act p + 1)) ∧
      (stateOf n keys act).put p
          (.receiving (act p + 1 - (n - p) + 1) (sharesAfter n keys p (act p) ++ [m]))
          (act p - (n - p) + 1, p) rest
        = stateOf n keys (Function.update act p (act p + 1)) := by
  -- the message is there because its sender has sent it
  have hfl : InFlight n act (act p - (n - p) + 1) p := by
    by_contra hno
    have : (stateOf n keys act).chan (act p - (n - p) + 1, p) = [] := if_neg hno
    rw [this] at hchan
    cases hchan
  have hm : [keys (act p - (n - p) + 1) p] = m :: rest := by
    rw [← hchan]
    exact (if_pos hfl).symm
  obtain ⟨rfl, rfl⟩ := List.cons.inj hm
  refine ⟨?_, ?_⟩
  · refine h.update hp ha' fun i hi hip hr => ?_
    rw [show i = act p - (n - p) + 1 by omega]
    exact hfl.2.1
  · rw [← sharesAfter_received ha]
    have hafter : (ShareState.receiving (act p + 1 - (n - p) + 1)
        (sharesAfter n keys p (act p + 1)) : ShareState Key) = after n keys p (act p + 1) := by
      rw [after, if_neg (by omega)]
    rw [hafter]
    refine stateOf_update fun i j => ?_
    by_cases hk : (i, j) = (act p - (n - p) + 1, p)
    · obtain ⟨rfl, rfl⟩ := Prod.mk.inj hk
      rw [if_pos rfl, if_neg]
      intro hf
      have hr := hf.2.2
      rw [Function.update_self] at hr
      omega
    · rw [if_neg hk]
      refine if_congr (Iff.symm ?_) rfl rfl
      by_cases hj : j ≤ n
      · refine inFlight_update (by omega) fun hr => hk ?_
        obtain ⟨rfl, hr⟩ := hr
        exact Prod.ext (show i = act j - (n - j) + 1 by omega) rfl
      · exact iff_of_false (fun hf => hj hf.1.2.2) fun hf => hj hf.1.2.2

/-- **Every reachable state is given by how many actions each party has taken.** -/
theorem reachable_stateOf {room : Nat → Prop} {c : Net Nat Key (ShareState Key)}
    (h : Net.Reachable (shareProgram n keys) room (shareInit Key) c) :
    ∃ act, Counts n act ∧ c = stateOf n keys act := by
  refine Net.reachable_induct (I := fun c => ∃ act, Counts n act ∧ c = stateOf n keys act) h
    ⟨fun _ => 0, ⟨fun _ => Nat.zero_le _, fun _ _ => rfl, ?_⟩, ?_⟩ ?_
  · intro i j _ _ _ hr
    omega
  · unfold shareInit stateOf
    congr 1
    · funext p
      rw [after, if_pos (Nat.zero_le _), sharesAfter]
      simp
    · funext k
      refine (if_neg fun hf => ?_).symm
      have : k.2 - k.1 ≤ 0 := hf.2.1
      have := hf.1
      omega
  · intro c c' hex hstep
    obtain ⟨act, hc, rfl⟩ := hex
    cases hstep with
    | @send p q m s hprog _ =>
        have hprog : shareProgram n keys p (after n keys p (act p)) = .send q m s := hprog
        by_cases hp : 1 ≤ p ∧ p ≤ n
        · by_cases ha : act p < n - p
          · rw [program_send hp ha] at hprog
            cases hprog
            exact ⟨_, hc.send hp ha keys⟩
          · rw [program_recv keys hp (by omega)] at hprog
            split at hprog <;> cases hprog
        · rw [hc.outside p hp, program_outside hp] at hprog
          cases hprog
    | @recv p q m rest next hprog hchan =>
        have hprog : shareProgram n keys p (after n keys p (act p)) = .recv q next := hprog
        by_cases hp : 1 ≤ p ∧ p ≤ n
        · by_cases ha : act p < n - p
          · rw [program_send hp ha] at hprog
            cases hprog
          · rw [program_recv keys hp (by omega)] at hprog
            split at hprog
            · next ha' =>
                cases hprog
                exact ⟨_, hc.recv hp (by omega) ha' keys hchan⟩
            · cases hprog
        · rw [hc.outside p hp, program_outside hp] at hprog
          cases hprog

/-- A party that has finished has taken all its actions. -/
theorem Counts.act_of_done {act : Nat → Nat} (h : Counts n act) {p : Nat} (hp : 1 ≤ p ∧ p ≤ n)
    (hdone : shareProgram n keys p (after n keys p (act p)) = .done) : act p = n - 1 := by
  have hle := h.le p
  by_cases ha : act p < n - p
  · rw [program_send hp ha] at hdone
    cases hdone
  · rw [program_recv keys hp (by omega)] at hdone
    split at hdone
    · cases hdone
    · omega

/-- A party that has finished has sent and received all its keys. -/
theorem shares_of_finished {room : Nat → Prop} {c : Net Nat Key (ShareState Key)}
    (h : Net.Reachable (shareProgram n keys) room (shareInit Key) c) {p : Nat}
    (hp : 1 ≤ p ∧ p ≤ n) (hdone : c.Finished (shareProgram n keys) p) :
    (c.loc p).shares = sharesAfter n keys p (n - 1) := by
  obtain ⟨act, hc, rfl⟩ := reachable_stateOf h
  show (after n keys p (act p)).shares = _
  rw [hc.act_of_done hp hdone]
  unfold after
  split <;> rfl

/-- No reachable state is stuck, with room for one message: the first unfinished party
has its next peer's key waiting, or sends. -/
theorem exists_step {room : Nat → Prop} (hroom : room 0) {c : Net Nat Key (ShareState Key)}
    (h : Net.Reachable (shareProgram n keys) room (shareInit Key) c)
    (hun : ∃ p, 1 ≤ p ∧ p ≤ n ∧ ¬ c.Finished (shareProgram n keys) p) :
    ∃ c', Net.Step (shareProgram n keys) room c c' := by
  classical
  obtain ⟨act, hc, rfl⟩ := reachable_stateOf h
  obtain ⟨h1, hn, hnd⟩ := Nat.find_spec hun
  have hbelow : ∀ q, 1 ≤ q → q < Nat.find hun → act q = n - 1 := by
    intro q hq hlt
    have hq' : q ≤ n := by omega
    have hfin : shareProgram n keys q (after n keys q (act q)) = .done := by
      by_contra hno
      exact Nat.find_min hun hlt ⟨hq, hq', hno⟩
    exact hc.act_of_done ⟨hq, hq'⟩ hfin
  generalize Nat.find hun = p at *
  have hnd : shareProgram n keys p (after n keys p (act p)) ≠ .done := hnd
  by_cases ha : act p < n - p
  · have hempty : (stateOf n keys act).chan (p, p + 1 + act p) = [] := if_neg fun hf => by
      have : p + 1 + act p - p ≤ act p := hf.2.1
      omega
    exact ⟨_, Net.Step.send (program_send ⟨h1, hn⟩ ha) (by rw [hempty]; exact hroom)⟩
  · have hprog := program_recv keys ⟨h1, hn⟩ (Nat.not_lt.mp ha)
    by_cases ha' : act p < n - 1
    · rw [if_pos ha'] at hprog
      have hsent := hbelow (act p - (n - p) + 1) (by omega) (by omega)
      have hfl : InFlight n act (act p - (n - p) + 1) p :=
        ⟨by omega, by omega, by omega⟩
      have hmsg : (stateOf n keys act).chan (act p - (n - p) + 1, p)
          = [keys (act p - (n - p) + 1) p] := if_pos hfl
      exact ⟨_, Net.Step.recv hprog hmsg⟩
    · rw [if_neg ha'] at hprog
      exact absurd hprog hnd

theorem length_shares_of_recv {p q : Nat} {st : ShareState Key} {next : Key → ShareState Key}
    (h : shareProgram n keys p st = .recv q next) (m : Key) :
    (next m).shares.length = st.shares.length + 1 := by
  have hloop : ∀ i shares, receiveLoop p i shares = .recv q next →
      (next m).shares.length = shares.length + 1 := by
    intro i shares h
    by_cases hi : i ≤ p - 1
    · rw [receiveLoop, if_pos hi] at h
      cases h
      exact List.length_append
    · rw [receiveLoop, if_neg hi] at h
      cases h
  cases st with
  | receiving i shares => exact hloop i shares h
  | sending i shares =>
      by_cases hp : 1 ≤ p ∧ p ≤ n
      · by_cases hi : i ≤ n
        · rw [shareProgram, if_pos hp, if_pos hi] at h
          cases h
        · rw [shareProgram, if_pos hp, if_neg hi] at h
          exact hloop 1 shares h
      · rw [shareProgram, if_neg hp] at h
        cases h

theorem length_shares_of_send {p q : Nat} {m : Key} {st next : ShareState Key}
    (h : shareProgram n keys p st = .send q m next) :
    next.shares.length = st.shares.length + 1 := by
  have hloop : ∀ i (shares : List Key), receiveLoop p i shares ≠ .send q m next := by
    intro i shares h
    by_cases hi : i ≤ p - 1
    · rw [receiveLoop, if_pos hi] at h
      cases h
    · rw [receiveLoop, if_neg hi] at h
      cases h
  cases st with
  | receiving i shares => exact absurd h (hloop i shares)
  | sending i shares =>
      by_cases hp : 1 ≤ p ∧ p ≤ n
      · by_cases hi : i ≤ n
        · rw [shareProgram, if_pos hp, if_pos hi] at h
          cases h
          exact List.length_append
        · rw [shareProgram, if_pos hp, if_neg hi] at h
          exact absurd h (hloop 1 shares)
      · rw [shareProgram, if_neg hp] at h
        cases h

/-- Every step adds a key to those of a party. -/
theorem sum_length_shares_lt {room : Nat → Prop} {c c' : Net Nat Key (ShareState Key)}
    (h : Net.Reachable (shareProgram n keys) room (shareInit Key) c)
    (hstep : Net.Step (shareProgram n keys) room c c') :
    ∑ p ∈ Finset.Icc 1 n, (c.loc p).shares.length
      < ∑ p ∈ Finset.Icc 1 n, (c'.loc p).shares.length := by
  have hparty : ∀ p, shareProgram n keys p (c.loc p) ≠ .done → p ∈ Finset.Icc 1 n := by
    obtain ⟨act, hc, rfl⟩ := reachable_stateOf h
    intro p hp
    rw [Finset.mem_Icc]
    by_contra hno
    refine hp ?_
    show shareProgram n keys p (after n keys p (act p)) = .done
    rw [hc.outside p hno, program_outside hno]
  have hgrows : ∀ (p : Nat) (k : Nat × Nat) (next : ShareState Key) (l : List Key),
      p ∈ Finset.Icc 1 n → next.shares.length = (c.loc p).shares.length + 1 →
      ∑ q ∈ Finset.Icc 1 n, (c.loc q).shares.length
        < ∑ q ∈ Finset.Icc 1 n, ((c.put p next k l).loc q).shares.length := by
    intro p k next l hp hlen
    refine Finset.sum_lt_sum (fun q _ => ?_) ⟨p, hp, ?_⟩
    · by_cases hq : q = p
      · subst hq
        rw [Net.put_loc_self, hlen]
        exact Nat.le_succ _
      · rw [Net.put_loc_ne _ _ _ _ _ hq]
    · rw [Net.put_loc_self, hlen]
      exact Nat.lt_succ_self _
  cases hstep with
  | send hp _ =>
      exact hgrows _ _ _ _ (hparty _ fun hd => by rw [hd] at hp; cases hp)
        (length_shares_of_send hp)
  | recv hp _ =>
      exact hgrows _ _ _ _ (hparty _ fun hd => by rw [hd] at hp; cases hp)
        (length_shares_of_recv hp _)

/-- No party ends up with more than one key of every other party. -/
theorem length_shares_le {room : Nat → Prop} {c : Net Nat Key (ShareState Key)}
    (h : Net.Reachable (shareProgram n keys) room (shareInit Key) c) (p : Nat) :
    (c.loc p).shares.length ≤ n - 1 := by
  obtain ⟨act, hc, rfl⟩ := reachable_stateOf h
  have hlen : (after n keys p (act p)).shares.length = act p := by
    have : (after n keys p (act p)).shares = sharesAfter n keys p (act p) := by
      unfold after
      split <;> rfl
    rw [this, sharesAfter, List.length_append, List.length_map, List.length_map,
      List.length_range, List.length_range]
    omega
  exact hlen.trans_le (hc.le p)

/-- With room for one message, every run can be continued until all parties have finished. -/
theorem exists_finished {room : Nat → Prop} (hroom : room 0) {c : Net Nat Key (ShareState Key)}
    (h : Net.Reachable (shareProgram n keys) room (shareInit Key) c) :
    ∃ c', Net.Reachable (shareProgram n keys) room (shareInit Key) c' ∧
      ∀ p, 1 ≤ p → p ≤ n → c'.Finished (shareProgram n keys) p := by
  induction hk : (n - 1) * n - ∑ p ∈ Finset.Icc 1 n, (c.loc p).shares.length
    using Nat.strong_induction_on generalizing c with
  | _ k ih =>
      by_cases hdone : ∀ p, 1 ≤ p → p ≤ n → c.Finished (shareProgram n keys) p
      · exact ⟨c, h, hdone⟩
      · have hun : ∃ p, 1 ≤ p ∧ p ≤ n ∧ ¬ c.Finished (shareProgram n keys) p := by
          by_contra hno
          exact hdone fun p h1 hn => by
            by_contra hp
            exact hno ⟨p, h1, hn, hp⟩
        obtain ⟨c', hstep⟩ := exists_step hroom h hun
        have hlt := sum_length_shares_lt h hstep
        have hle : ∑ p ∈ Finset.Icc 1 n, (c'.loc p).shares.length ≤ (n - 1) * n := by
          refine (Finset.sum_le_card_nsmul _ _ _ fun p _ =>
            length_shares_le (h.tail hstep) p).trans_eq ?_
          rw [Nat.card_Icc, Nat.add_sub_cancel, smul_eq_mul, Nat.mul_comm]
        exact ih _ (by omega) (h.tail hstep) rfl

end Runs

/-! ## The shares -/

section Shares

variable {Key : Type*}

theorem secretShare_apply (prg : Key → Nat → Buf Byte) {shareSize j : Nat} (hj : j < shareSize)
    (shares : List Key) :
    secretShare prg shareSize shares j = (shares.map fun k => prg k shareSize j).sum := by
  have h : ∀ (l : List Key) (m : Buf Byte),
      l.foldl (fun m share => XOR m 0 (prg share shareSize) 0 shareSize) m j
        = m j + (l.map fun k => prg k shareSize j).sum := by
    intro l
    induction l with
    | nil => intro m; simp
    | cons k l ih =>
        intro m
        rw [List.foldl_cons, ih, XOR_eq_xorInto, xorInto_apply, if_pos (by omega), List.map_cons,
          List.sum_cons, Nat.sub_zero, Nat.zero_add, add_assoc]
  rw [secretShare, h, fill_apply, if_pos (by omega), zero_add]

theorem sum_map_range {G : Type*} [AddCommMonoid G] (f : Nat → G) (m : Nat) :
    ((List.range m).map f).sum = ∑ k ∈ Finset.range m, f k := rfl

/-- The share of a finished party is the sum of the streams of its pairs. -/
theorem secretShare_eq_padShare (prg : Key → Nat → Buf Byte) (keys : Nat → Nat → Key)
    {n p shareSize j : Nat} (hp : 1 ≤ p ∧ p ≤ n) (hj : j < shareSize) :
    secretShare prg shareSize (sharesAfter n keys p (n - 1)) j
      = padShare (Finset.Icc 1 n) (fun a b => prg (keys a b) shareSize j) p := by
  have hup : (Finset.Icc 1 n).filter (fun q => p < q) = Finset.Ico (p + 1) (n + 1) := by
    ext q
    simp only [Finset.mem_filter, Finset.mem_Icc, Finset.mem_Ico]
    omega
  have hdown : (Finset.Icc 1 n).filter (fun q => q < p) = Finset.Ico 1 p := by
    ext q
    simp only [Finset.mem_filter, Finset.mem_Icc, Finset.mem_Ico]
    omega
  rw [secretShare_apply prg hj, padShare_eq, hup, hdown, Finset.sum_Ico_eq_sum_range,
    Finset.sum_Ico_eq_sum_range, sharesAfter, List.map_append, List.sum_append, List.map_map,
    List.map_map, Nat.min_eq_right (by omega), show n - 1 - (n - p) = p - 1 by omega,
    show n + 1 - (p + 1) = n - p by omega]
  congr 1
  refine (sum_map_range _ _).trans (Finset.sum_congr rfl fun k _ => ?_)
  rw [Nat.add_comm 1 k]
  rfl

/-- **Once all parties have finished, whatever the order of their actions, their shares add up
to zero at every byte.** -/
theorem sum_secretShare_eq_zero {room : Nat → Prop} {n : Nat} {keys : Nat → Nat → Key}
    (prg : Key → Nat → Buf Byte) (maskSize numOfBins : Nat) {c : Net Nat Key (ShareState Key)}
    (h : Net.Reachable (shareProgram n keys) room (shareInit Key) c)
    (hdone : ∀ p, 1 ≤ p → p ≤ n → c.Finished (shareProgram n keys) p) :
    ∀ j < maskSize * numOfBins,
      ∑ p ∈ Finset.Icc 1 n, secretShare prg (maskSize * numOfBins) (c.loc p).shares j = 0 := by
  intro j hj
  rw [← sum_padShare (Finset.Icc 1 n) fun a b => prg (keys a b) (maskSize * numOfBins) j]
  refine Finset.sum_congr rfl fun p hp => ?_
  obtain ⟨h1, hn⟩ := Finset.mem_Icc.mp hp
  rw [shares_of_finished h ⟨h1, hn⟩ (hdone p h1 hn), secretShare_eq_padShare prg keys ⟨h1, hn⟩ hj]

/-- Two parties that have finished: the first has sent its key, the second has received it. -/
def twoFinished (key : Key) : Net Nat Key (ShareState Key) :=
  ((shareInit Key).put 1 (.sending 3 [key]) (1, 2) [key]).put 2 (.receiving 2 [key]) (1, 2) []

theorem twoFinished_reachable (keys : Nat → Nat → Key) :
    Net.Reachable (shareProgram 2 keys) unbounded (shareInit Key) (twoFinished (keys 1 2)) := by
  have hsend : Net.Step (shareProgram 2 keys) unbounded (shareInit Key)
      ((shareInit Key).put 1 (.sending 3 [keys 1 2]) (1, 2) [keys 1 2]) :=
    Net.Step.send (q := 2) (m := keys 1 2) rfl trivial
  have hrecv : Net.Step (shareProgram 2 keys) unbounded
      ((shareInit Key).put 1 (.sending 3 [keys 1 2]) (1, 2) [keys 1 2]) (twoFinished (keys 1 2)) :=
    Net.Step.recv (q := 1) (m := keys 1 2) (k := fun m => ShareState.receiving 2 [m]) rfl rfl
  exact (Relation.ReflTransGen.single hsend).tail hrecv

theorem twoFinished_finished (keys : Nat → Nat → Key) {p : Nat} (h1 : 1 ≤ p) (h2 : p ≤ 2) :
    (twoFinished (keys 1 2)).Finished (shareProgram 2 keys) p := by
  obtain rfl | rfl : p = 1 ∨ p = 2 := by omega
  · rfl
  · rfl

theorem sum_secretShare_two : ∑ p ∈ Finset.Icc 1 2,
    secretShare (fun k _ j => XorVec.ofBits (BitVec.ofNat 8 (k + j))) (2 * 3)
      ((twoFinished 7).loc p).shares 4 = 0 :=
  sum_secretShare_eq_zero _ 2 3 (twoFinished_reachable fun _ _ => 7)
    (fun _ h1 h2 => twoFinished_finished _ h1 h2) 4 (by decide)

end Shares

/-! ## What the shares hide

The PRG streams are taken as independent strings: the key of parties `i < j` is the pair
itself, and its stream is whatever string `pads i j` the pair has. -/

section Hiding

variable {n L : Nat}

/-- The stream of the key of a pair: its string. -/
def padStream (pads : Nat → Nat → Fin L → Byte) (k : Nat × Nat) (_ : Nat) : Buf Byte :=
  fun j => if h : j < L then pads k.1 k.2 ⟨j, h⟩ else 0

/-- `m_secretShare` of party `p` in state `c`, for given strings of all pairs. -/
def shareAt (c : Net Nat (Nat × Nat) (ShareState (Nat × Nat))) (pads : Nat → Nat → Fin L → Byte)
    (p : Nat) : Fin L → Byte :=
  fun j => secretShare (padStream pads) L (c.loc p).shares j

/-- Parties that have all finished. -/
def AllFinished (n : Nat) (c : Net Nat (Nat × Nat) (ShareState (Nat × Nat))) : Prop :=
  ∀ p, 1 ≤ p → p ≤ n → c.Finished (shareProgram n Prod.mk) p

theorem shareAt_eq_padShare {room : Nat → Prop}
    {c : Net Nat (Nat × Nat) (ShareState (Nat × Nat))}
    (h : Net.Reachable (shareProgram n Prod.mk) room (shareInit (Nat × Nat)) c)
    (hdone : AllFinished n c) (pads : Nat → Nat → Fin L → Byte) {p : Nat}
    (hp : p ∈ Finset.Icc 1 n) : shareAt c pads p = padShare (Finset.Icc 1 n) pads p := by
  obtain ⟨h1, hn⟩ := Finset.mem_Icc.mp hp
  funext j
  rw [shareAt, shares_of_finished h ⟨h1, hn⟩ (hdone p h1 hn),
    secretShare_eq_padShare (padStream pads) Prod.mk ⟨h1, hn⟩ j.isLt, padShare, padShare,
    Finset.sum_apply]
  refine Finset.sum_congr rfl fun q _ => ?_
  unfold edge padStream
  split <;> exact dif_pos j.isLt

/-- The share of a coalition member does not depend on the strings of honest pairs. -/
theorem shareAt_coalition {room : Nat → Prop}
    {c : Net Nat (Nat × Nat) (ShareState (Nat × Nat))}
    (h : Net.Reachable (shareProgram n Prod.mk) room (shareInit (Nat × Nat)) c)
    (hdone : AllFinished n c) {H : Finset Nat} (fixed : Nat → Nat → Fin L → Byte)
    (a : PairOf H → Fin L → Byte) {p : Nat} (hp : p ∈ Finset.Icc 1 n \ H) :
    shareAt c (padsOf H fixed a) p = shareAt c fixed p := by
  obtain ⟨hp, hH⟩ := Finset.mem_sdiff.mp hp
  rw [shareAt_eq_padShare h hdone _ hp, shareAt_eq_padShare h hdone _ hp]
  refine padShare_congr hp fun i _ j _ _ hij => dif_neg fun hin => ?_
  rcases hij with rfl | rfl
  · exact hH hin.1
  · exact hH hin.2.1

/-- **Any two assignments of shares to the honest parties that complete the coalition's shares
to zero come from equally many choices of the honest pairs' strings**, which the coalition's
own shares do not depend on. -/
theorem card_honest_strings_eq {room : Nat → Prop}
    {c : Net Nat (Nat × Nat) (ShareState (Nat × Nat))}
    (h : Net.Reachable (shareProgram n Prod.mk) room (shareInit (Nat × Nat)) c)
    (hdone : AllFinished n c) {C : Finset Nat} (hC : C ⊆ Finset.Icc 1 n)
    (hleft : (Finset.Icc 1 n \ C).Nonempty) (fixed : Nat → Nat → Fin L → Byte)
    {v w : Nat → Fin L → Byte}
    (hv : ∑ p ∈ Finset.Icc 1 n \ C, v p + ∑ p ∈ C, shareAt c fixed p = 0)
    (hw : ∑ p ∈ Finset.Icc 1 n \ C, w p + ∑ p ∈ C, shareAt c fixed p = 0) :
    (∀ (a : PairOf (Finset.Icc 1 n \ C) → Fin L → Byte), ∀ p ∈ C,
        shareAt c (padsOf (Finset.Icc 1 n \ C) fixed a) p = shareAt c fixed p) ∧
      Nat.card {a : PairOf (Finset.Icc 1 n \ C) → Fin L → Byte //
        ∀ p ∈ Finset.Icc 1 n \ C, shareAt c (padsOf (Finset.Icc 1 n \ C) fixed a) p = v p}
      = Nat.card {a : PairOf (Finset.Icc 1 n \ C) → Fin L → Byte //
        ∀ p ∈ Finset.Icc 1 n \ C, shareAt c (padsOf (Finset.Icc 1 n \ C) fixed a) p = w p} := by
  obtain ⟨p₀, hp₀⟩ := hleft
  have hsub : Finset.Icc 1 n \ C ⊆ Finset.Icc 1 n := Finset.sdiff_subset
  have htotal : ∑ p ∈ Finset.Icc 1 n \ C, v p = ∑ p ∈ Finset.Icc 1 n \ C, w p := by
    rw [XorGroup.add_eq_zero_iff.mp hv, XorGroup.add_eq_zero_iff.mp hw]
  have hshare : ∀ u : Nat → Fin L → Byte,
      Nat.card {a : PairOf (Finset.Icc 1 n \ C) → Fin L → Byte //
        ∀ p ∈ Finset.Icc 1 n \ C, shareAt c (padsOf (Finset.Icc 1 n \ C) fixed a) p = u p}
      = Nat.card {a : PairOf (Finset.Icc 1 n \ C) → Fin L → Byte //
        ∀ p ∈ Finset.Icc 1 n \ C,
          padShare (Finset.Icc 1 n) (padsOf (Finset.Icc 1 n \ C) fixed a) p = u p} := by
    intro u
    refine Nat.card_congr (Equiv.subtypeEquivRight fun a => forall₂_congr fun p hp => ?_)
    rw [shareAt_eq_padShare h hdone _ (hsub hp)]
  refine ⟨fun a p hp => shareAt_coalition h hdone fixed a ?_, ?_⟩
  · exact Finset.mem_sdiff.mpr ⟨hC hp, fun hp' => (Finset.mem_sdiff.mp hp').2 hp⟩
  · rw [hshare, hshare]
    exact card_share_eq hsub hp₀ fixed htotal

/-- Two honest parties: both shares zero, or both one. -/
theorem card_honest_strings_two :
    (∀ (a : PairOf (Finset.Icc 1 2 \ ∅) → Fin 1 → Byte), ∀ p ∈ (∅ : Finset Nat),
        shareAt (twoFinished (1, 2)) (padsOf (Finset.Icc 1 2 \ ∅) (fun _ _ => 0) a) p
          = shareAt (twoFinished (1, 2)) (fun _ _ => 0) p) ∧
      Nat.card {a : PairOf (Finset.Icc 1 2 \ ∅) → Fin 1 → Byte // ∀ p ∈ Finset.Icc 1 2 \ ∅,
        shareAt (twoFinished (1, 2)) (padsOf (Finset.Icc 1 2 \ ∅) (fun _ _ => 0) a) p
          = fun _ => 0}
      = Nat.card {a : PairOf (Finset.Icc 1 2 \ ∅) → Fin 1 → Byte // ∀ p ∈ Finset.Icc 1 2 \ ∅,
        shareAt (twoFinished (1, 2)) (padsOf (Finset.Icc 1 2 \ ∅) (fun _ _ => 0) a) p
          = fun _ => XorVec.ofBits 1#8} :=
  card_honest_strings_eq (twoFinished_reachable Prod.mk)
    (fun _ h1 h2 => twoFinished_finished Prod.mk h1 h2) (Finset.empty_subset _)
    ⟨1, by decide⟩ (fun _ _ => 0) (by decide) (by decide)

end Hiding

end MultiPartyPSI
