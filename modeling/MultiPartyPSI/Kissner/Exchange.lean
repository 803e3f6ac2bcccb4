import MultiPartyPSI.Kissner.KissnerParty
import MultiPartyPSI.Kissner.PaillierScheme

/-!
# The exchange of polynomials

`makeSharedPolynomial` sends everything to all parties above before it receives anything,
and it receives from the parties below in ascending order. Over channels that take a whole
polynomial nobody ever waits in vain. Over smaller ones three parties are enough to get
stuck: the second one sends to the third before it reads what the first one sends it, and
the third one waits for the first.
-/

namespace Lib

variable {P M R R' α : Type*}

/-- The next `k` actions send to `q`. -/
def Proc.SendsTo (q : P) : ℕ → Proc P M R → Prop
  | 0, _ => True
  | k + 1, .send d _ next => d = q ∧ Proc.SendsTo q k next
  | _ + 1, .ret _ => False
  | _ + 1, .recv _ _ => False

/-- All actions send, to processes in `S`. -/
def Proc.OnlySends (S : P → Prop) : Proc P M R → Prop
  | .ret _ => True
  | .send d _ next => S d ∧ Proc.OnlySends S next
  | .recv _ _ => False

/-- The first thing that is waited for comes from `s`; before that, processes in `S` are sent
to. -/
def Proc.WaitsFor (S : P → Prop) (s : P) : Proc P M R → Prop
  | .ret _ => False
  | .send d _ next => S d ∧ Proc.WaitsFor S s next
  | .recv s' _ => s' = s

theorem Proc.SendsTo.exists_send {q : P} {k : ℕ} {p : Proc P M R} (h : p.SendsTo q (k + 1)) :
    ∃ m next, p = .send q m next ∧ next.SendsTo q k := by
  cases p with
  | ret r => exact h.elim
  | send d m next =>
      obtain ⟨rfl, hnext⟩ := h
      exact ⟨m, next, rfl, hnext⟩
  | recv s next => exact h.elim

theorem Proc.SendsTo.bind {q : P} {k : ℕ} {p : Proc P M R} {f : R → Proc P M R'}
    (h : p.SendsTo q k) : (p.bind f).SendsTo q k := by
  induction k generalizing p with
  | zero => trivial
  | succ k ih =>
      cases p with
      | ret r => exact h.elim
      | send d m next => exact ⟨h.1, ih h.2⟩
      | recv s next => exact h.elim

theorem Proc.sendsTo_sendList (q : P) (msgs : List M) :
    (Proc.sendList q msgs).SendsTo q msgs.length := by
  induction msgs with
  | nil => trivial
  | cons m msgs ih => exact ⟨rfl, ih.bind⟩

theorem Proc.OnlySends.bind {S : P → Prop} {p : Proc P M R} {f : R → Proc P M R'}
    (h : p.OnlySends S) (hf : ∀ r, (f r).OnlySends S) : (p.bind f).OnlySends S := by
  induction p with
  | ret r => exact hf r
  | send d m next ih => exact ⟨h.1, ih h.2⟩
  | recv s next _ => exact h.elim

theorem Proc.OnlySends.collect {S : P → Prop} {f : α → Proc P M R} {l : List α}
    (h : ∀ a ∈ l, (f a).OnlySends S) : (Proc.collect f l).OnlySends S := by
  induction l with
  | nil => trivial
  | cons a l ih =>
      exact (h a List.mem_cons_self).bind fun r =>
        (ih fun b hb => h b (List.mem_cons_of_mem a hb)).bind fun rs => trivial

theorem Proc.OnlySends.bind_waitsFor {S : P → Prop} {s : P} {p : Proc P M R}
    {f : R → Proc P M R'} (h : p.OnlySends S) (hf : ∀ r, (f r).WaitsFor S s) :
    (p.bind f).WaitsFor S s := by
  induction p with
  | ret r => exact hf r
  | send d m next ih => exact ⟨h.1, ih h.2⟩
  | recv s' next _ => exact h.elim

theorem Proc.WaitsFor.bind {S : P → Prop} {s : P} {p : Proc P M R} {f : R → Proc P M R'}
    (h : p.WaitsFor S s) : (p.bind f).WaitsFor S s := by
  induction p with
  | ret r => exact h.elim
  | send d m next ih => exact ⟨h.1, ih h.2⟩
  | recv s' next _ => exact h

end Lib

namespace MultiPartyPSI

open Lib

variable {N : ℕ} {Z X : Type} (S : KissnerSystem X) (E : AdditiveScheme N S.numOfParties Z X)

namespace KissnerSystem

/-- Every party runs `makeSharedPolynomial`; there is nobody else. -/
def exchangeProg (p : ℕ) : Proc ℕ Z (List Z) :=
  if p ∈ S.ids then (S.party p).makeSharedPolynomial E (S.encPoly E p) else .ret []

/-- What goes from `s` to `d`. -/
def exchangeStream (s d : ℕ) : List (ℕ × Z) :=
  if s ∈ S.ids ∧ d ∈ S.ids ∧ s < d then (S.encPoly E s).map fun m => (0, m) else []

/-- The script of the exchange. -/
def exchange : Script ℕ Z (List Z) where
  prog := S.exchangeProg E
  stream := S.exchangeStream E
  result p := if p ∈ S.ids then S.sharedPoly E p else []
  plan p := by
    by_cases hp : p ∈ S.ids
    · refine ⟨0, 1, ?_⟩
      rw [exchangeProg, if_pos hp, if_pos hp]
      have hp' := (S.mem_ids).mp hp
      refine (KissnerParty.plan_makeSharedPolynomial (P := S.party p) hp' (S.encPoly E)
        (S.length_encPoly E) 0).congr (fun q => ?_) fun q => ?_
      · rw [KissnerParty.within, exchangeStream, ← ite_and]
        refine if_congr ?_ rfl rfl
        rw [KissnerParty.peers, mem_others, mem_ids, mem_ids]
        show ((1 ≤ q ∧ q ≤ S.numOfParties) ∧ q ≠ p) ∧ q < p ↔ _
        omega
      · rw [KissnerParty.within, exchangeStream, ← ite_and]
        refine if_congr ?_ rfl rfl
        rw [KissnerParty.peers, mem_others, mem_ids, mem_ids]
        show ((1 ≤ q ∧ q ≤ S.numOfParties) ∧ q ≠ p) ∧ p < q ↔ _
        omega
    · refine ⟨0, 0, ?_⟩
      rw [exchangeProg, if_neg hp, if_neg hp]
      refine (Plan.ret [] le_rfl).congr (fun q => ?_) fun q => ?_
      · rw [exchangeStream, if_neg fun h => hp h.2.1]
      · rw [exchangeStream, if_neg fun h => hp h.1]
  parties := S.ids.toFinset
  mem_parties {s d} h := by
    rw [exchangeStream] at h
    split at h
    · next hsd => exact ⟨List.mem_toFinset.mpr hsd.1, List.mem_toFinset.mpr hsd.2.1⟩
    · exact absurd rfl h

/-- The exchange gets stuck nowhere, over channels that hold `capacity` messages. -/
def ExchangeNeverStuck (capacity : ℕ) : Prop :=
  ∀ c, Net.Reachable procAct (· < capacity) (S.exchange E).init c →
    (∃ p, ¬ Net.Finished procAct c p) → ∃ c', Net.Step procAct (· < capacity) c c'

variable {S E}

theorem length_exchangeStream_le (s d : ℕ) :
    (S.exchangeStream E s d).length ≤ S.setSize + 1 := by
  rw [exchangeStream]
  split
  · rw [List.length_map, length_encPoly]
  · exact Nat.zero_le _

/-- With room for a whole polynomial nobody is kept from sending. -/
theorem exchangeNeverStuck_of_le {capacity : ℕ} (h : S.setSize + 1 ≤ capacity) :
    S.ExchangeNeverStuck E capacity := by
  intro c hc hp
  obtain ⟨p, hp⟩ := hp
  exact Script.exists_step hc
    (fun s d k hk => hk.trans_le ((length_exchangeStream_le s d).trans h)) hp

section TwoParties

variable {capacity : ℕ} {c : Net ℕ Z (Proc ℕ Z (List Z))} {hist : Lib.History ℕ Z}
  {inp out : ℕ → Traffic ℕ Z}

/-- Between two parties everything that is still expected goes one way. -/
theorem inp_one_way (hn : S.numOfParties = 2) (hf : (S.exchange E).Follows hist c inp out)
    {s d : ℕ} (hne : inp d s ≠ []) : s = 1 ∧ d = 2 := by
  have hsd : s ∈ S.ids ∧ d ∈ S.ids ∧ s < d := by
    by_contra hno
    have hle : (inp d s).length ≤ (S.exchangeStream E s d).length := hf.length_le s d
    rw [exchangeStream, if_neg hno] at hle
    exact hne (List.length_eq_zero_iff.mp (Nat.le_zero.mp hle))
  rw [mem_ids, mem_ids, hn] at hsd
  omega

theorem out_one_way (hn : S.numOfParties = 2) (hf : (S.exchange E).Follows hist c inp out)
    {s d : ℕ} (hne : out s d ≠ []) : s = 1 ∧ d = 2 := by
  obtain ⟨fl, _, hflight⟩ := hf.flight s d
  refine inp_one_way hn hf fun hnil => hne ?_
  rw [hnil] at hflight
  exact (List.append_eq_nil_iff.mp hflight).2

theorem send_one_way (hn : S.numOfParties = 2) (hf : (S.exchange E).Follows hist c inp out)
    {p q : ℕ} {m : Z} {next : Proc ℕ Z (List Z)} (hloc : c.loc p = .send q m next) :
    p = 1 ∧ q = 2 := by
  obtain ⟨t, t', hplan⟩ := hf.plan p
  rw [hloc] at hplan
  obtain ⟨t₀, o, ho, _⟩ := hplan.send_inv
  refine out_one_way hn hf ?_
  rw [ho, Function.update_self]
  exact List.cons_ne_nil _ _

theorem recv_one_way (hn : S.numOfParties = 2) (hf : (S.exchange E).Follows hist c inp out)
    {p q : ℕ} {k : Z → Proc ℕ Z (List Z)} (hloc : c.loc p = .recv q k) : q = 1 ∧ p = 2 := by
  obtain ⟨t, t', hplan⟩ := hf.plan p
  rw [hloc] at hplan
  obtain ⟨t₀, τ, m, i, _, hi, _⟩ := hplan.recv_inv
  refine inp_one_way hn hf ?_
  rw [hi, Function.update_self]
  exact List.cons_ne_nil _ _

/-- What is in flight can be received. -/
theorem exists_recv_step (hn : S.numOfParties = 2) (hf : (S.exchange E).Follows hist c inp out)
    {m : Z} {l : List Z} (hchan : c.chan (1, 2) = m :: l) (hinp : inp 2 1 ≠ []) :
    ∃ c', Net.Step procAct (· < capacity) c c' := by
  obtain ⟨t, t', hplan⟩ := hf.plan 2
  cases hloc : c.loc 2 with
  | ret r =>
      rw [hloc] at hplan
      exact absurd (congrFun hplan.ret_inv.1 1) hinp
  | send q m next => exact absurd (send_one_way hn hf hloc).1 (by decide)
  | recv q k =>
      obtain ⟨rfl, -⟩ := recv_one_way hn hf hloc
      exact ⟨_, .recv (show (c.loc 2).act = .recv 1 k by rw [hloc]; rfl) hchan⟩

/-- What is not yet sent can be sent as long as there is room. -/
theorem exists_send_step (hn : S.numOfParties = 2) (hf : (S.exchange E).Follows hist c inp out)
    (hroom : (c.chan (1, 2)).length < capacity) (hout : out 1 2 ≠ []) :
    ∃ c', Net.Step procAct (· < capacity) c c' := by
  obtain ⟨t, t', hplan⟩ := hf.plan 1
  cases hloc : c.loc 1 with
  | ret r =>
      rw [hloc] at hplan
      exact absurd (congrFun hplan.ret_inv.2.1 2) hout
  | send q m next =>
      obtain ⟨-, rfl⟩ := send_one_way hn hf hloc
      exact ⟨_, .send (show (c.loc 1).act = .send 2 m next by rw [hloc]; rfl) hroom⟩
  | recv q k => exact absurd (recv_one_way hn hf hloc).2 (by decide)

/-- A party that has not finished has something left to send or to receive. -/
theorem exists_left (hn : S.numOfParties = 2) (hf : (S.exchange E).Follows hist c inp out) {p : ℕ}
    (hp : ¬ Net.Finished procAct c p) : inp 2 1 ≠ [] := by
  obtain ⟨t, t', hplan⟩ := hf.plan p
  cases hloc : c.loc p with
  | ret r => exact absurd (show (c.loc p).act = .done by rw [hloc]; rfl) hp
  | send q m next =>
      obtain ⟨rfl, rfl⟩ := send_one_way hn hf hloc
      rw [hloc] at hplan
      obtain ⟨t₀, o, ho, _⟩ := hplan.send_inv
      obtain ⟨fl, _, hflight⟩ := hf.flight 1 2
      -- what is still to be sent is still to be received
      intro hnil
      rw [hnil, ho, Function.update_self] at hflight
      exact List.cons_ne_nil _ _ (List.append_eq_nil_iff.mp hflight).2
  | recv q k =>
      obtain ⟨rfl, rfl⟩ := recv_one_way hn hf hloc
      rw [hloc] at hplan
      obtain ⟨t₀, τ, m, i, _, hi, _⟩ := hplan.recv_inv
      rw [hi, Function.update_self]
      exact List.cons_ne_nil _ _

end TwoParties

/-- Between two parties everything goes one way, and one of them only receives. -/
theorem exchangeNeverStuck_two (hn : S.numOfParties = 2) {capacity : ℕ} (hcap : 1 ≤ capacity) :
    S.ExchangeNeverStuck E capacity := by
  intro c hc hp
  obtain ⟨p, hp⟩ := hp
  obtain ⟨hist, hrun⟩ := hc.exists_run
  obtain ⟨inp, out, hf⟩ := (S.exchange E).follows_of_run hrun
  have hleft := exists_left hn hf hp
  -- either something is in flight, or there is room
  obtain ⟨fl, hfl, hflight⟩ := hf.flight 1 2
  cases fl with
  | cons e fl => exact exists_recv_step hn hf hfl hleft
  | nil =>
      have hroom : (c.chan (1, 2)).length < capacity := by
        rw [hfl]
        exact hcap
      rw [List.nil_append] at hflight
      exact exists_send_step hn hf hroom (hflight ▸ hleft)

/-! ## Getting stuck -/

/-- The first party is still sending to the second, the second to the third, and the third has
nothing of what it waits for. -/
structure Jammed (capacity : ℕ) (c : Net ℕ Z (Proc ℕ Z (List Z))) : Prop where
  first : ∃ k, (c.chan (1, 2)).length + k = S.setSize + 1 ∧ (c.loc 1).SendsTo 2 k
  second : ∃ k, (c.chan (2, 3)).length + k = S.setSize + 1 ∧ (c.loc 2).SendsTo 3 k
  third : (c.loc 3).WaitsFor (fun q => 3 < q) 1
  full : (c.chan (1, 2)).length ≤ capacity ∧ (c.chan (2, 3)).length ≤ capacity
  empty : c.chan (1, 3) = []

/-- A party starts with the one above it. -/
theorem sendsTo_exchangeProg {p : ℕ} (hp : 1 ≤ p ∧ p < S.numOfParties) :
    (S.exchangeProg E p).SendsTo (p + 1) (S.setSize + 1) := by
  rw [exchangeProg, if_pos (S.mem_ids.mpr ⟨hp.1, hp.2.le⟩)]
  have hrange : List.range' (p + 1) (S.numOfParties - p)
      = (p + 1) :: List.range' (p + 2) (S.numOfParties - p - 1) := by
    rw [show S.numOfParties - p = S.numOfParties - p - 1 + 1 by omega, List.range'_succ]
    rfl
  have hfirst : (Proc.sendList (p + 1) (S.encPoly E p)).SendsTo (p + 1) (S.setSize + 1) := by
    rw [← S.length_encPoly E p]
    exact Proc.sendsTo_sendList _ _
  show (Proc.bind (Proc.collect (fun i => Proc.sendList i (S.encPoly E p))
    (List.range' (p + 1) (S.numOfParties - p))) _).SendsTo _ _
  rw [hrange]
  exact hfirst.bind.bind

/-- Before it waits for the first party, the third one only sends. -/
theorem waitsFor_exchangeProg (hn : 3 ≤ S.numOfParties) :
    (S.exchangeProg E 3).WaitsFor (fun q => 3 < q) 1 := by
  rw [exchangeProg, if_pos (S.mem_ids.mpr ⟨by decide, hn⟩)]
  refine Proc.OnlySends.bind_waitsFor (Proc.OnlySends.collect fun i hi => ?_) fun _ => ?_
  · refine Proc.OnlySends.collect fun m _ => ⟨?_, trivial⟩
    exact (List.mem_range'_1.mp hi).1
  · have hreceive : (Proc.receiveList 1 (S.setSize + 1) : Proc ℕ Z (List Z)).WaitsFor
        (fun q => 3 < q) 1 := by
      rw [Proc.receiveList, List.range_succ_eq_map]
      exact Proc.WaitsFor.bind rfl
    exact Proc.WaitsFor.bind (Proc.WaitsFor.bind hreceive)

theorem Jammed.start (capacity : ℕ) (hn : 3 ≤ S.numOfParties) :
    Jammed (S := S) capacity (S.exchange E).init :=
  ⟨⟨S.setSize + 1, Nat.zero_add _, sendsTo_exchangeProg ⟨le_rfl, by omega⟩⟩,
    ⟨S.setSize + 1, Nat.zero_add _, sendsTo_exchangeProg ⟨by omega, by omega⟩⟩,
    waitsFor_exchangeProg hn, ⟨Nat.zero_le _, Nat.zero_le _⟩, rfl⟩

/-- While it lasts, the first two have something to send. -/
theorem Jammed.sends {capacity : ℕ} (hcap : capacity ≤ S.setSize)
    {c : Net ℕ Z (Proc ℕ Z (List Z))} (h : Jammed (S := S) capacity c) :
    (∃ m next k, c.loc 1 = .send 2 m next ∧ (c.chan (1, 2)).length + 1 + k = S.setSize + 1 ∧
      next.SendsTo 2 k) ∧
    (∃ m next k, c.loc 2 = .send 3 m next ∧ (c.chan (2, 3)).length + 1 + k = S.setSize + 1 ∧
      next.SendsTo 3 k) := by
  obtain ⟨⟨k, hk, h1⟩, ⟨k', hk', h2⟩, -, hfull, -⟩ := h
  obtain ⟨k, rfl⟩ := Nat.exists_eq_add_of_le' (show 1 ≤ k by omega)
  obtain ⟨k', rfl⟩ := Nat.exists_eq_add_of_le' (show 1 ≤ k' by omega)
  obtain ⟨m, next, hloc, hnext⟩ := h1.exists_send
  obtain ⟨m', next', hloc', hnext'⟩ := h2.exists_send
  exact ⟨⟨m, next, k, hloc, by omega, hnext⟩, ⟨m', next', k', hloc', by omega, hnext'⟩⟩

/-- Steps of other parties on other channels do not matter. -/
theorem Jammed.put {capacity : ℕ} {c : Net ℕ Z (Proc ℕ Z (List Z))}
    (h : Jammed (S := S) capacity c) {p : ℕ} (s : Proc ℕ Z (List Z)) {k : ℕ × ℕ} (l : List Z)
    (hp : p ≠ 1 ∧ p ≠ 2 ∧ p ≠ 3) (hk : k ≠ (1, 2) ∧ k ≠ (2, 3) ∧ k ≠ (1, 3)) :
    Jammed (S := S) capacity (c.put p s k l) := by
  constructor
  case first =>
    rw [Net.put_loc_ne _ _ _ _ _ hp.1.symm, Net.put_chan_ne _ _ _ _ _ hk.1.symm]
    exact h.first
  case second =>
    rw [Net.put_loc_ne _ _ _ _ _ hp.2.1.symm, Net.put_chan_ne _ _ _ _ _ hk.2.1.symm]
    exact h.second
  case third =>
    rw [Net.put_loc_ne _ _ _ _ _ hp.2.2.symm]
    exact h.third
  case full =>
    rw [Net.put_chan_ne _ _ _ _ _ hk.1.symm, Net.put_chan_ne _ _ _ _ _ hk.2.1.symm]
    exact h.full
  case empty =>
    rw [Net.put_chan_ne _ _ _ _ _ hk.2.2.symm]
    exact h.empty

section Sends

variable {capacity : ℕ} {c : Net ℕ Z (Proc ℕ Z (List Z))} {next : Proc ℕ Z (List Z)} {k : ℕ}
  {l : List Z}

/-- The first party goes on to the next coefficient. -/
theorem Jammed.sendFirst (h : Jammed (S := S) capacity c) (hlen : l.length + k = S.setSize + 1)
    (hnext : next.SendsTo 2 k) (hfull : l.length ≤ capacity) :
    Jammed (S := S) capacity (c.put 1 next (1, 2) l) := by
  constructor
  case first =>
    rw [Net.put_chan_self, Net.put_loc_self]
    exact ⟨k, hlen, hnext⟩
  case second =>
    rw [Net.put_loc_ne _ _ _ _ _ (by decide), Net.put_chan_ne _ _ _ _ _ (by decide)]
    exact h.second
  case third =>
    rw [Net.put_loc_ne _ _ _ _ _ (by decide)]
    exact h.third
  case full =>
    rw [Net.put_chan_self, Net.put_chan_ne _ _ _ _ _ (by decide)]
    exact ⟨hfull, h.full.2⟩
  case empty =>
    rw [Net.put_chan_ne _ _ _ _ _ (by decide)]
    exact h.empty

/-- The second party goes on to the next coefficient. -/
theorem Jammed.sendSecond (h : Jammed (S := S) capacity c) (hlen : l.length + k = S.setSize + 1)
    (hnext : next.SendsTo 3 k) (hfull : l.length ≤ capacity) :
    Jammed (S := S) capacity (c.put 2 next (2, 3) l) := by
  constructor
  case first =>
    rw [Net.put_loc_ne _ _ _ _ _ (by decide), Net.put_chan_ne _ _ _ _ _ (by decide)]
    exact h.first
  case second =>
    rw [Net.put_chan_self, Net.put_loc_self]
    exact ⟨k, hlen, hnext⟩
  case third =>
    rw [Net.put_loc_ne _ _ _ _ _ (by decide)]
    exact h.third
  case full =>
    rw [Net.put_chan_self, Net.put_chan_ne _ _ _ _ _ (by decide)]
    exact ⟨h.full.1, hfull⟩
  case empty =>
    rw [Net.put_chan_ne _ _ _ _ _ (by decide)]
    exact h.empty

/-- The third party sends to those above it, and waits all the same. -/
theorem Jammed.sendThird (h : Jammed (S := S) capacity c) {q : ℕ}
    (hnext : next.WaitsFor (fun q => 3 < q) 1) :
    Jammed (S := S) capacity (c.put 3 next (3, q) l) := by
  constructor
  case first =>
    rw [Net.put_loc_ne _ _ _ _ _ (by decide), Net.put_chan_ne _ _ _ _ _ (by simp)]
    exact h.first
  case second =>
    rw [Net.put_loc_ne _ _ _ _ _ (by decide), Net.put_chan_ne _ _ _ _ _ (by simp)]
    exact h.second
  case third =>
    rw [Net.put_loc_self]
    exact hnext
  case full =>
    rw [Net.put_chan_ne _ _ _ _ _ (by simp), Net.put_chan_ne _ _ _ _ _ (by simp)]
    exact h.full
  case empty =>
    rw [Net.put_chan_ne _ _ _ _ _ (by simp)]
    exact h.empty

end Sends

/-- Nobody gets out of it. -/
theorem Jammed.step {capacity : ℕ} (hcap : capacity ≤ S.setSize)
    {c c' : Net ℕ Z (Proc ℕ Z (List Z))} (h : Jammed (S := S) capacity c)
    (hs : Net.Step procAct (· < capacity) c c') : Jammed (S := S) capacity c' := by
  obtain ⟨⟨m₁, next₁, k₁, hloc₁, hk₁, hnext₁⟩, ⟨m₂, next₂, k₂, hloc₂, hk₂, hnext₂⟩⟩ := h.sends hcap
  have hthird := h.third
  cases hs with
  | @send p q m s hact hroom =>
      have hloc := Proc.act_eq_send hact
      have hlen : (c.chan (p, q) ++ [m]).length = (c.chan (p, q)).length + 1 := List.length_append
      by_cases h1 : p = 1
      · subst h1
        rw [hloc₁] at hloc
        cases hloc
        exact h.sendFirst (hlen ▸ hk₁) hnext₁ (hlen ▸ hroom)
      by_cases h2 : p = 2
      · subst h2
        rw [hloc₂] at hloc
        cases hloc
        exact h.sendSecond (hlen ▸ hk₂) hnext₂ (hlen ▸ hroom)
      by_cases h3 : p = 3
      · subst h3
        rw [hloc] at hthird
        exact h.sendThird hthird.2
      · exact h.put s _ ⟨h1, h2, h3⟩ ⟨by simp [h1], by simp [h2], by simp [h1]⟩
  | @recv p q m l k hact hm =>
      have hloc := Proc.act_eq_recv hact
      -- the first two are sending, and there is nothing for the third one
      have h1 : p ≠ 1 := by
        intro h1
        rw [h1, hloc₁] at hloc
        cases hloc
      have h2 : p ≠ 2 := by
        intro h2
        rw [h2, hloc₂] at hloc
        cases hloc
      have h3 : p ≠ 3 := by
        intro h3
        subst h3
        rw [hloc] at hthird
        obtain rfl : q = 1 := hthird
        rw [h.empty] at hm
        cases hm
      exact h.put _ _ ⟨h1, h2, h3⟩ ⟨by simp [h2], by simp [h3], by simp [h3]⟩

/-- A run that is jammed ends in a state where nobody can go on and the first party has not
finished. -/
theorem not_exchangeNeverStuck {capacity : ℕ} (hn : 3 ≤ S.numOfParties)
    (hcap : capacity ≤ S.setSize) : ¬ S.ExchangeNeverStuck E capacity := by
  intro hnever
  have hstart : Net.Reachable procAct (· < capacity) (S.exchange E).init (S.exchange E).init :=
    .refl
  obtain ⟨c, hc, hlast⟩ := Script.exists_last hstart
  have hjam : Jammed (S := S) capacity c :=
    Net.reachable_induct hc (Jammed.start capacity hn) fun _ _ h hs => h.step hcap hs
  obtain ⟨⟨m, next, k, hloc, -, -⟩, -⟩ := hjam.sends hcap
  obtain ⟨c', hstep⟩ := hnever c hc ⟨1, fun hfin => by
    rw [Net.Finished, procAct, hloc] at hfin
    cases hfin⟩
  exact hlast c' hstep

end KissnerSystem

/-- **When the exchange never gets stuck**: between two parties, or when every channel takes a
whole polynomial. -/
theorem exchangeNeverStuck_iff {N : ℕ} {Z X : Type} (S : KissnerSystem X)
    (E : AdditiveScheme N S.numOfParties Z X) (hn : 2 ≤ S.numOfParties) {capacity : ℕ}
    (hcap : 1 ≤ capacity) :
    S.ExchangeNeverStuck E capacity ↔ S.numOfParties = 2 ∨ S.setSize + 1 ≤ capacity := by
  refine ⟨?_, ?_⟩
  · intro h
    by_contra hno
    exact KissnerSystem.not_exchangeNeverStuck (by omega) (by omega) h
  · intro h
    rcases h with h | h
    · exact KissnerSystem.exchangeNeverStuck_two h hcap
    · exact KissnerSystem.exchangeNeverStuck_of_le h

theorem two_coprime_n : Nat.Coprime 2 threePartySetUp.n := by decide

/-- Three parties: the elements of party `p` are the numbers from `p` on. -/
def threePartySystem (setSize : ℕ) :
    KissnerSystem {x : ℕ // x.Coprime threePartySetUp.n} where
  numOfParties := 3
  leaderId := 2
  setSize := setSize
  elementSizeInBits := 32
  elements p i := if i % 4 = 0 then BitVec.ofNat 8 (i / 4 + p) else 0
  encRandom p i := ⟨2 ^ (p + i), Nat.Coprime.pow_left _ two_coprime_n⟩
  random p i j := p + 2 * i + 3 * j

/-- Ten elements each, over channels that hold eleven messages. -/
theorem exchangeNeverStuck_eleven :
    (threePartySystem 10).ExchangeNeverStuck
      (threePartySetUp.scheme _ threePartySetUp_fits) 11 :=
  (exchangeNeverStuck_iff (threePartySystem 10) (threePartySetUp.scheme _ threePartySetUp_fits)
    (by decide) (by decide)).mpr (Or.inr (by decide))

/-- Over channels that hold ten, they can get stuck. -/
theorem not_exchangeNeverStuck_ten :
    ¬ (threePartySystem 10).ExchangeNeverStuck
      (threePartySetUp.scheme _ threePartySetUp_fits) 10 :=
  KissnerSystem.not_exchangeNeverStuck (by decide) (by decide)

end MultiPartyPSI
