import MultiPartyPSI.Party.MultiPartyPlayer
import Mathlib.Algebra.Order.BigOperators.Group.Finset
import Mathlib.Data.Nat.Find

/-!
# The connections are set up in pairs

For each pair of parties the connections between them are numbered in the order they are
established in. The lower party connects with its slots in ascending order, the upper one
accepts in the same order into its own, and nobody else connects to the address of the pair;
so equal slots hold the two ends of one connection.

Nobody waits in vain: of the parties that have not finished, the lowest one waits at most
for a party above to listen, and that one can go on, since all it may be accepting from are
parties below which have finished.
-/

namespace MultiPartyPSI

open ConnectState

variable {C : ConnectConfig} {st st' : ConnectState}

/-- The connections to an address, in order. -/
def ConnectState.connectionsTo (st : ConnectState) (a : SocketPartyData) : List ℕ :=
  (List.range st.established.length).filter fun m => st.established[m]? = some a

theorem mem_connectionsTo {a : SocketPartyData} {m : ℕ} :
    m ∈ st.connectionsTo a ↔ st.established[m]? = some a := by
  rw [connectionsTo, List.mem_filter, List.mem_range, decide_eq_true_eq]
  refine ⟨?_, ?_⟩
  · exact fun h => h.2
  · intro h
    exact ⟨(List.getElem?_eq_some_iff.mp h).1, h⟩

/-- One more connection. -/
theorem connectionsTo_append {a a' : SocketPartyData}
    (h : st'.established = st.established ++ [a']) :
    st'.connectionsTo a
      = st.connectionsTo a ++ if a' = a then [st.established.length] else [] := by
  rw [connectionsTo, connectionsTo, h, List.length_append, List.length_singleton, List.range_succ,
    List.filter_append]
  congr 1
  · refine List.filter_congr fun m hm => ?_
    rw [List.getElem?_append_left (List.mem_range.mp hm)]
  · rw [List.filter_singleton, List.getElem?_concat_length]
    simp

/-- The state of a pair of parties `i < j`, of whose connections `acc` are accepted. -/
structure PairInv (C : ConnectConfig) (st : ConnectState) (i j acc : ℕ) : Prop where
  length_le : (st.connectionsTo (C.myAddress j i)).length ≤ C.commThreads
  acc_le : acc ≤ (st.connectionsTo (C.myAddress j i)).length
  connect_iff : ∀ k < C.commThreads,
    .connect j k ∈ st.ops i ↔ (st.connectionsTo (C.myAddress j i)).length ≤ k
  accept_iff : ∀ k < C.commThreads, .accept i k ∈ st.ops j ↔ acc ≤ k
  notListening : .listen i ∈ st.ops j →
    st.backlog (C.myAddress j i) = none ∧ st.connectionsTo (C.myAddress j i) = []
  queue : .listen i ∉ st.ops j →
    st.backlog (C.myAddress j i) = some ((st.connectionsTo (C.myAddress j i)).drop acc)
  handle : .listen i ∉ st.ops j → acc < C.commThreads →
    st.sockets j i (C.commThreads - 1) = .listening (C.myAddress j i)
  client : ∀ k m, (st.connectionsTo (C.myAddress j i))[k]? = some m →
    st.sockets i j k = .client m
  server : ∀ k m, k < acc → (st.connectionsTo (C.myAddress j i))[k]? = some m →
    st.sockets j i k = .server m

/-- What holds in every reachable state. -/
structure ConnectInv (C : ConnectConfig) (st : ConnectState) : Prop where
  suffix : ∀ p, st.ops p <:+ if 1 ≤ p ∧ p ≤ C.numOfParties then connectToAllParties C p else []
  pairs : ∀ i j, C.Pair i j → ∃ acc, PairInv C st i j acc
  established : ∀ a ∈ st.established, ∃ i j, C.Pair i j ∧ a = C.myAddress j i

/-- A pair that a step is not about. -/
theorem PairInv.frame {i j acc : ℕ} (h : PairInv C st i j acc)
    (hconnect : ∀ k, .connect j k ∈ st'.ops i ↔ .connect j k ∈ st.ops i)
    (haccept : ∀ k, .accept i k ∈ st'.ops j ↔ .accept i k ∈ st.ops j)
    (hlisten : .listen i ∈ st'.ops j ↔ .listen i ∈ st.ops j)
    (hbacklog : st'.backlog (C.myAddress j i) = st.backlog (C.myAddress j i))
    (hconns : st'.connectionsTo (C.myAddress j i) = st.connectionsTo (C.myAddress j i))
    (hclient : st'.sockets i j = st.sockets i j) (hserver : st'.sockets j i = st.sockets j i) :
    PairInv C st' i j acc := by
  constructor
  case length_le =>
    rw [hconns]
    exact h.length_le
  case acc_le =>
    rw [hconns]
    exact h.acc_le
  case connect_iff =>
    intro k hk
    rw [hconnect, hconns]
    exact h.connect_iff k hk
  case accept_iff =>
    intro k hk
    rw [haccept]
    exact h.accept_iff k hk
  case notListening =>
    rw [hlisten, hbacklog, hconns]
    exact h.notListening
  case queue =>
    rw [hlisten, hbacklog, hconns]
    exact h.queue
  case handle =>
    rw [hlisten, hserver]
    exact h.handle
  case client =>
    rw [hconns, hclient]
    exact h.client
  case server =>
    rw [hconns, hserver]
    exact h.server

/-! ## The beginning -/

theorem ConnectInv.init (C : ConnectConfig) : ConnectInv C (init C) := by
  refine ⟨fun p => List.suffix_rfl, fun i j hij => ⟨0, ?_⟩, fun a ha => absurd ha List.not_mem_nil⟩
  obtain ⟨hi, hlt, hj⟩ := hij
  have hopsi : (ConnectState.init C).ops i = connectToAllParties C i := if_pos ⟨hi, by omega⟩
  have hopsj : (ConnectState.init C).ops j = connectToAllParties C j := if_pos ⟨by omega, hj⟩
  have hlisten : .listen i ∈ (ConnectState.init C).ops j := by
    rw [hopsj, listen_mem]
    exact ⟨hi, hlt⟩
  constructor
  case length_le => exact Nat.zero_le _
  case acc_le => exact Nat.zero_le _
  case connect_iff =>
    intro k hk
    rw [hopsi, connect_mem]
    exact ⟨fun _ => Nat.zero_le k, fun _ => ⟨⟨hlt, hj⟩, hk⟩⟩
  case accept_iff =>
    intro k hk
    rw [hopsj, accept_mem]
    exact ⟨fun _ => Nat.zero_le k, fun _ => ⟨⟨hi, hlt⟩, hk⟩⟩
  case notListening => exact fun _ => ⟨rfl, rfl⟩
  case queue => exact fun h => absurd hlisten h
  case handle => exact fun h => absurd hlisten h
  case client =>
    intro k m hm
    cases hm
  case server =>
    intro k m hk
    cases hk

/-! ## One call -/

/-- The other party a call is about. -/
def ConnectOp.peer : ConnectOp → ℕ
  | .listen i => i
  | .accept i _ => i
  | .connect i _ => i

/-- The lower one of the two parties. -/
def ConnectOp.lower (p : ℕ) : ConnectOp → ℕ
  | .listen i => i
  | .accept i _ => i
  | .connect _ _ => p

/-- The upper one. -/
def ConnectOp.upper (p : ℕ) : ConnectOp → ℕ
  | .listen _ => p
  | .accept _ _ => p
  | .connect i _ => i

theorem ConnectInv.head {p : ℕ} {x : ConnectOp} {rest : List ConnectOp} (h : ConnectInv C st)
    (hops : st.ops p = x :: rest) :
    x :: rest <:+ connectToAllParties C p ∧ C.Pair (x.lower p) (x.upper p) := by
  have hsuffix := h.suffix p
  rw [hops] at hsuffix
  split at hsuffix
  · next hp =>
      refine ⟨hsuffix, ?_⟩
      have hmem := hsuffix.subset List.mem_cons_self
      cases x with
      | listen i =>
          have := listen_mem.mp hmem
          exact ⟨this.1, this.2, hp.2⟩
      | accept i k =>
          have := (accept_mem.mp hmem).1
          exact ⟨this.1, this.2, hp.2⟩
      | connect i k =>
          have := (connect_mem.mp hmem).1
          exact ⟨hp.1, this.1, this.2⟩
  · exact absurd (List.eq_nil_of_suffix_nil hsuffix) (List.cons_ne_nil _ _)

/-- A call of party `p` changes its own array for the other party, and what is at their address. -/
structure StepOn (C : ConnectConfig) (st st' : ConnectState) (p : ℕ) (x : ConnectOp)
    (rest : List ConnectOp) : Prop where
  ops : st'.ops = Function.update st.ops p rest
  sockets : ∃ k s, st'.sockets = setSocket st.sockets p x.peer k s
  backlog : ∀ a ≠ C.myAddress (x.upper p) (x.lower p), st'.backlog a = st.backlog a
  connectionsTo : ∀ a ≠ C.myAddress (x.upper p) (x.lower p),
    st'.connectionsTo a = st.connectionsTo a
  established : ∀ a ∈ st'.established,
    a ∈ st.established ∨ a = C.myAddress (x.upper p) (x.lower p)

section Call

variable {p i j acc : ℕ} {x : ConnectOp} {rest : List ConnectOp}

/-- Other calls stay. -/
theorem StepOn.mem_iff (hs : StepOn C st st' p x rest) (hops : st.ops p = x :: rest) {q : ℕ}
    {y : ConnectOp} (hne : q = p → y ≠ x) : y ∈ st'.ops q ↔ y ∈ st.ops q := by
  rw [hs.ops]
  by_cases hq : q = p
  · subst hq
    rw [Function.update_self, hops, List.mem_cons]
    exact ⟨Or.inr, fun h => h.resolve_left (hne rfl)⟩
  · rw [Function.update_of_ne hq]

/-- Other pairs stay as they are. -/
theorem StepOn.pairInv (hports : C.PortsUnique) (hs : StepOn C st st' p x rest)
    (hops : st.ops p = x :: rest) (hx : C.Pair (x.lower p) (x.upper p)) (hij : C.Pair i j)
    (hne : ¬ (i = x.lower p ∧ j = x.upper p)) (h : PairInv C st i j acc) :
    PairInv C st' i j acc := by
  have haddr : C.myAddress j i ≠ C.myAddress (x.upper p) (x.lower p) := by
    intro heq
    exact hne (hports i j _ _ hij hx heq)
  obtain ⟨k, s, hsockets⟩ := hs.sockets
  -- the array of the call is on one of the two sides
  have hside : ∀ p' i', (p' = i ∧ i' = j ∨ p' = j ∧ i' = i) →
      st'.sockets p' i' = st.sockets p' i' := by
    intro p' i' hpi
    rw [hsockets]
    refine setSocket_array _ _ _ ?_
    by_contra hboth
    push Not at hboth
    obtain ⟨rfl, rfl⟩ := hboth
    obtain ⟨-, hlt, -⟩ := hij
    obtain ⟨-, hltx, -⟩ := hx
    cases x with
    | listen i' => simp only [ConnectOp.peer, ConnectOp.lower, ConnectOp.upper] at *; omega
    | accept i' k' => simp only [ConnectOp.peer, ConnectOp.lower, ConnectOp.upper] at *; omega
    | connect i' k' => simp only [ConnectOp.peer, ConnectOp.lower, ConnectOp.upper] at *; omega
  refine h.frame (fun k => hs.mem_iff hops ?_) (fun k => hs.mem_iff hops ?_) (hs.mem_iff hops ?_)
    (hs.backlog _ haddr) (hs.connectionsTo _ haddr)
    (hside i j (Or.inl ⟨rfl, rfl⟩)) (hside j i (Or.inr ⟨rfl, rfl⟩))
  · intro hp hx'
    subst hx'
    exact hne ⟨hp, rfl⟩
  · intro hp hx'
    subst hx'
    exact hne ⟨rfl, hp⟩
  · intro hp hx'
    subst hx'
    exact hne ⟨rfl, hp⟩

/-- A step is right if it is right for the pair it is about. -/
theorem ConnectInv.stepOn (hports : C.PortsUnique) (h : ConnectInv C st)
    (hs : StepOn C st st' p x rest) (hops : st.ops p = x :: rest)
    (hpair : ∀ acc, PairInv C st (x.lower p) (x.upper p) acc →
      ∃ acc', PairInv C st' (x.lower p) (x.upper p) acc') : ConnectInv C st' := by
  obtain ⟨hsuffix, hx⟩ := h.head hops
  refine ⟨fun q => ?_, fun i j hij => ?_, fun a ha => ?_⟩
  · rw [hs.ops]
    by_cases hq : q = p
    · subst hq
      rw [Function.update_self]
      have hrest : rest <:+ x :: rest := List.suffix_cons x rest
      rw [← hops] at hrest
      exact hrest.trans (h.suffix q)
    · rw [Function.update_of_ne hq]
      exact h.suffix q
  · obtain ⟨acc, hacc⟩ := h.pairs i j hij
    by_cases hne : i = x.lower p ∧ j = x.upper p
    · obtain ⟨rfl, rfl⟩ := hne
      exact hpair acc hacc
    · exact ⟨acc, hs.pairInv hports hops hx hij hne hacc⟩
  · rcases hs.established a ha with ha | ha
    · exact h.established a ha
    · exact ⟨_, _, hx, ha⟩

end Call

/-! ## The three calls -/

section Calls

variable {p i k acc : ℕ} {rest : List ConnectOp}

/-- While a party has not listened for another one, it has accepted nothing. -/
theorem PairInv.acc_eq_zero (hc : 1 ≤ C.commThreads)
    (hsuffix : .listen i :: rest <:+ connectToAllParties C p) (hops : st.ops p = .listen i :: rest)
    (h : PairInv C st i p acc) : acc = 0 := by
  have hi := listen_mem.mp (hsuffix.subset List.mem_cons_self)
  have hmem : ConnectOp.accept i 0 ∈ st.ops p := by
    rw [hops]
    refine List.mem_cons_of_mem _ ((mem_rest_iff hsuffix (accept_mem.mpr ⟨hi, hc⟩)).mpr ?_)
    exact Nat.le_refl i
  exact Nat.le_zero.mp ((h.accept_iff 0 hc).mp hmem)

/-- The pair after `Listen`. -/
theorem PairInv.listen (hc : 1 ≤ C.commThreads)
    (hsuffix : .listen i :: rest <:+ connectToAllParties C p) (hops : st.ops p = .listen i :: rest)
    (hs : StepOn C st st' p (.listen i) rest)
    (hsockets : st'.sockets
      = setSocket st.sockets p i (C.commThreads - 1) (.listening (C.myAddress p i)))
    (hbacklog : st'.backlog (C.myAddress p i) = some [])
    (hest : st'.established = st.established) (h : PairInv C st i p acc) : PairInv C st' i p 0 := by
  obtain rfl := h.acc_eq_zero hc hsuffix hops
  have hi := listen_mem.mp (hsuffix.subset List.mem_cons_self)
  have hempty := (h.notListening (hops ▸ List.mem_cons_self)).2
  have hconns : st'.connectionsTo (C.myAddress p i) = [] := by
    rw [connectionsTo, hest]
    exact hempty
  have hgone : ConnectOp.listen i ∉ st'.ops p := by
    rw [hs.ops, Function.update_self,
      mem_rest_iff hsuffix (hsuffix.subset List.mem_cons_self)]
    exact Nat.lt_irrefl i
  constructor
  case length_le =>
    rw [hconns]
    exact Nat.zero_le _
  case acc_le => exact Nat.zero_le _
  case connect_iff =>
    intro k hk
    rw [hs.mem_iff (y := .connect p k) hops fun _ => ConnectOp.noConfusion, h.connect_iff k hk,
      hempty, hconns]
  case accept_iff =>
    intro k hk
    rw [hs.mem_iff (y := .accept i k) hops fun _ => ConnectOp.noConfusion, h.accept_iff k hk]
  case notListening => exact fun hmem => absurd hmem hgone
  case queue =>
    intro _
    rw [hbacklog, hconns]
    rfl
  case handle =>
    intro _ _
    rw [hsockets]
    exact setSocket_self _ _ _ _ _
  case client =>
    intro k m hm
    rw [hconns] at hm
    cases hm
  case server =>
    intro k m hk
    cases hk

theorem ConnectInv.listenStep (hports : C.PortsUnique) (hc : 1 ≤ C.commThreads)
    (h : ConnectInv C st) (hops : st.ops p = .listen i :: rest) :
    ConnectInv C (st.listenStep C p i rest) := by
  obtain ⟨hsuffix, hx⟩ := h.head hops
  obtain ⟨acc₀, hacc₀⟩ := h.pairs i p hx
  obtain ⟨hnone, -⟩ := hacc₀.notListening (hops ▸ List.mem_cons_self)
  rw [ConnectState.listenStep, hnone]
  refine h.stepOn (x := .listen i) hports ⟨rfl, ⟨_, _, rfl⟩,
    fun a ha => Function.update_of_ne ha _ _, fun _ _ => rfl, fun a ha => Or.inl ha⟩ hops
    fun acc hacc => ⟨0, ?_⟩
  exact PairInv.listen hc hsuffix hops ⟨rfl, ⟨_, _, rfl⟩,
    fun a ha => Function.update_of_ne ha _ _, fun _ _ => rfl, fun a ha => Or.inl ha⟩ rfl
    (Function.update_self _ _ _) rfl hacc

/-- What a party accepts next. -/
theorem PairInv.acc_eq (hsuffix : .accept i k :: rest <:+ connectToAllParties C p)
    (hops : st.ops p = .accept i k :: rest) (h : PairInv C st i p acc) : acc = k := by
  obtain ⟨hi, hk⟩ := accept_mem.mp (hsuffix.subset List.mem_cons_self)
  have hle : acc ≤ k := (h.accept_iff k hk).mp (hops ▸ List.mem_cons_self)
  by_contra hne
  -- an earlier slot would still have to be filled
  have hmem := (h.accept_iff acc (by omega)).mpr le_rfl
  rw [hops] at hmem
  rcases List.mem_cons.mp hmem with heq | hmem
  · cases heq
    exact hne rfl
  · rw [mem_rest_iff hsuffix (accept_mem.mpr ⟨hi, by omega⟩)] at hmem
    simp only [ConnectOp.Before] at hmem
    omega

/-- A party that accepts has listened before. -/
theorem listen_notMem (hsuffix : .accept i k :: rest <:+ connectToAllParties C p)
    (hops : st.ops p = .accept i k :: rest) : ConnectOp.listen i ∉ st.ops p := by
  obtain ⟨hi, -⟩ := accept_mem.mp (hsuffix.subset List.mem_cons_self)
  rw [hops, List.mem_cons, mem_rest_iff hsuffix (listen_mem.mpr hi)]
  simp [ConnectOp.Before]

/-- Accepting takes the connections of the pair, one after the other. -/
theorem PairInv.acceptStep_eq (hsuffix : .accept i k :: rest <:+ connectToAllParties C p)
    (hops : st.ops p = .accept i k :: rest) (h : PairInv C st i p acc) :
    st.acceptStep C p i k rest = ((st.connectionsTo (C.myAddress p i))[k]?).map fun m =>
      { st with
        ops := Function.update st.ops p rest
        sockets := setSocket st.sockets p i k (.server m)
        backlog := Function.update st.backlog (C.myAddress p i)
          (some ((st.connectionsTo (C.myAddress p i)).drop (k + 1))) } := by
  obtain ⟨hi, hk⟩ := accept_mem.mp (hsuffix.subset List.mem_cons_self)
  obtain rfl := h.acc_eq hsuffix hops
  have hgone : ConnectOp.listen i ∉ st.ops p := listen_notMem hsuffix hops
  rw [acceptStep, h.handle hgone hk]
  simp only
  rw [h.queue hgone]
  by_cases hlen : acc < (st.connectionsTo (C.myAddress p i)).length
  · rw [List.drop_eq_getElem_cons hlen, List.getElem?_eq_getElem hlen]
    rfl
  · rw [List.drop_eq_nil_of_le (Nat.le_of_not_lt hlen),
      List.getElem?_eq_none (Nat.le_of_not_lt hlen)]
    rfl

/-- The pair after one `Accept`. -/
theorem PairInv.accept {m : ℕ} (hsuffix : .accept i k :: rest <:+ connectToAllParties C p)
    (hops : st.ops p = .accept i k :: rest) (hs : StepOn C st st' p (.accept i k) rest)
    (hm : (st.connectionsTo (C.myAddress p i))[k]? = some m)
    (hsockets : st'.sockets = setSocket st.sockets p i k (.server m))
    (hbacklog : st'.backlog (C.myAddress p i)
      = some ((st.connectionsTo (C.myAddress p i)).drop (k + 1)))
    (hest : st'.established = st.established) (h : PairInv C st i p acc) :
    PairInv C st' i p (k + 1) := by
  obtain ⟨hi, hk⟩ := accept_mem.mp (hsuffix.subset List.mem_cons_self)
  obtain rfl := h.acc_eq hsuffix hops
  have hconns : st'.connectionsTo (C.myAddress p i) = st.connectionsTo (C.myAddress p i) := by
    rw [connectionsTo, hest]
    rfl
  have hgone : ConnectOp.listen i ∉ st.ops p := listen_notMem hsuffix hops
  have hlisten := hs.mem_iff (q := p) (y := .listen i) hops fun _ => ConnectOp.noConfusion
  constructor
  case length_le =>
    rw [hconns]
    exact h.length_le
  case acc_le =>
    rw [hconns]
    exact (List.getElem?_eq_some_iff.mp hm).1
  case connect_iff =>
    intro k' hk'
    rw [hs.mem_iff (y := .connect p k') hops fun _ => ConnectOp.noConfusion,
      h.connect_iff k' hk', hconns]
  case accept_iff =>
    intro k' hk'
    rw [hs.ops, Function.update_self, mem_rest_iff hsuffix (accept_mem.mpr ⟨hi, hk'⟩)]
    show (i < i ∨ i = i ∧ acc < k') ↔ acc + 1 ≤ k'
    omega
  case notListening => exact fun hmem => absurd (hlisten.mp hmem) hgone
  case queue =>
    intro _
    rw [hbacklog, hconns]
  case handle =>
    intro _ hlt
    -- the last slot is not the one that is filled
    rw [hsockets, setSocket_slot _ _ _ _ (by omega)]
    exact h.handle hgone hk
  case client =>
    intro k' m' hm'
    rw [hconns] at hm'
    rw [hsockets, setSocket_array _ _ _ (Or.inl (Nat.ne_of_lt hi.2))]
    exact h.client k' m' hm'
  case server =>
    intro k' m' hk' hm'
    rw [hconns] at hm'
    rw [hsockets]
    by_cases heq : k' = acc
    · subst heq
      rw [hm] at hm'
      cases hm'
      exact setSocket_self _ _ _ _ _
    · rw [setSocket_slot _ _ _ _ heq]
      exact h.server k' m' (by omega) hm'

theorem ConnectInv.acceptStep (hports : C.PortsUnique) (h : ConnectInv C st)
    (hops : st.ops p = .accept i k :: rest) (hstep : st.acceptStep C p i k rest = some st') :
    ConnectInv C st' := by
  obtain ⟨hsuffix, hx⟩ := h.head hops
  obtain ⟨acc₀, hacc₀⟩ := h.pairs i p hx
  rw [hacc₀.acceptStep_eq hsuffix hops] at hstep
  obtain ⟨m, hm, rfl⟩ := Option.map_eq_some_iff.mp hstep
  have hs : StepOn C st {
      st with
      ops := Function.update st.ops p rest
      sockets := setSocket st.sockets p i k (.server m)
      backlog := Function.update st.backlog (C.myAddress p i)
        (some ((st.connectionsTo (C.myAddress p i)).drop (k + 1))) } p (.accept i k) rest :=
    ⟨rfl, ⟨_, _, rfl⟩, fun a ha => Function.update_of_ne ha _ _, fun _ _ => rfl,
      fun a ha => Or.inl ha⟩
  exact h.stepOn hports hs hops fun acc hacc =>
    ⟨k + 1, PairInv.accept hsuffix hops hs hm rfl (Function.update_self _ _ _) rfl hacc⟩

/-- Which slot is connected next. -/
theorem PairInv.length_eq (hsuffix : .connect i k :: rest <:+ connectToAllParties C p)
    (hops : st.ops p = .connect i k :: rest) (h : PairInv C st p i acc) :
    (st.connectionsTo (C.myAddress i p)).length = k := by
  obtain ⟨hi, hk⟩ := connect_mem.mp (hsuffix.subset List.mem_cons_self)
  have hle := (h.connect_iff k hk).mp (hops ▸ List.mem_cons_self)
  by_contra hne
  -- an earlier slot would still have to be connected
  have hmem := (h.connect_iff _ (show (st.connectionsTo (C.myAddress i p)).length < _ by omega)).mpr
    le_rfl
  rw [hops] at hmem
  rcases List.mem_cons.mp hmem with heq | hmem
  · cases heq
    exact hne rfl
  · rw [mem_rest_iff hsuffix (connect_mem.mpr ⟨hi, by omega⟩)] at hmem
    simp only [ConnectOp.Before] at hmem
    omega

/-- The pair after one `connect`. -/
theorem PairInv.connect {queue : List ℕ}
    (hsuffix : .connect i k :: rest <:+ connectToAllParties C p)
    (hops : st.ops p = .connect i k :: rest) (hs : StepOn C st st' p (.connect i k) rest)
    (hqueue : st.backlog (C.myAddress i p) = some queue)
    (hsockets : st'.sockets = setSocket st.sockets p i k (.client st.established.length))
    (hbacklog : st'.backlog (C.myAddress i p) = some (queue ++ [st.established.length]))
    (hest : st'.established = st.established ++ [C.myAddress i p]) (h : PairInv C st p i acc) :
    PairInv C st' p i acc := by
  obtain ⟨hi, hk⟩ := connect_mem.mp (hsuffix.subset List.mem_cons_self)
  have hlen := h.length_eq hsuffix hops
  have hconns : st'.connectionsTo (C.myAddress i p)
      = st.connectionsTo (C.myAddress i p) ++ [st.established.length] := by
    rw [connectionsTo_append hest, if_pos rfl]
  -- the upper party listens
  have hgone : ConnectOp.listen p ∉ st.ops i := by
    intro hmem
    rw [(h.notListening hmem).1] at hqueue
    cases hqueue
  have hlisten := hs.mem_iff (q := i) (y := .listen p) hops fun _ => ConnectOp.noConfusion
  have hdrop := h.queue hgone
  rw [hqueue] at hdrop
  obtain rfl := Option.some.inj hdrop
  have hacc := h.acc_le
  constructor
  case length_le =>
    rw [hconns, List.length_append, hlen]
    exact hk
  case acc_le =>
    rw [hconns, List.length_append]
    exact hacc.trans (Nat.le_add_right _ _)
  case connect_iff =>
    intro k' hk'
    rw [hs.ops, Function.update_self, mem_rest_iff hsuffix (connect_mem.mpr ⟨hi, hk'⟩), hconns,
      List.length_append, hlen, List.length_singleton]
    show (i < i ∨ i = i ∧ k < k') ↔ k + 1 ≤ k'
    omega
  case accept_iff =>
    intro k' hk'
    rw [hs.mem_iff (y := .accept p k') hops fun _ => ConnectOp.noConfusion, h.accept_iff k' hk']
  case notListening => exact fun hmem => absurd (hlisten.mp hmem) hgone
  case queue =>
    intro _
    rw [hbacklog, hconns, List.drop_append_of_le_length hacc]
  case handle =>
    intro _ hlt
    rw [hsockets, setSocket_array _ _ _ (Or.inl (Nat.ne_of_gt hi.1))]
    exact h.handle hgone hlt
  case client =>
    intro k' m hm
    rw [hconns] at hm
    rw [hsockets]
    by_cases heq : k' = k
    · subst heq
      rw [← hlen, List.getElem?_concat_length] at hm
      cases hm
      exact setSocket_self _ _ _ _ _
    · rw [setSocket_slot _ _ _ _ heq]
      have hlt := (List.getElem?_eq_some_iff.mp hm).1
      rw [List.length_append, hlen, List.length_singleton] at hlt
      rw [List.getElem?_append_left (by omega)] at hm
      exact h.client k' m hm
  case server =>
    intro k' m hk' hm
    rw [hconns, List.getElem?_append_left (by omega)] at hm
    rw [hsockets, setSocket_array _ _ _ (Or.inl (Nat.ne_of_gt hi.1))]
    exact h.server k' m hk' hm

theorem ConnectInv.connectStep (hports : C.PortsUnique) (h : ConnectInv C st)
    (hops : st.ops p = .connect i k :: rest) (hstep : st.connectStep C p i k rest = some st') :
    ConnectInv C st' := by
  obtain ⟨hsuffix, -⟩ := h.head hops
  rw [ConnectState.connectStep, C.otherAddress_eq] at hstep
  cases hqueue : st.backlog (C.myAddress i p) with
  | none =>
      rw [hqueue] at hstep
      cases hstep
  | some queue =>
      rw [hqueue] at hstep
      obtain rfl := Option.some.inj hstep
      have hs : StepOn C st {
          ops := Function.update st.ops p rest
          sockets := setSocket st.sockets p i k (.client st.established.length)
          backlog := Function.update st.backlog (C.myAddress i p)
            (some (queue ++ [st.established.length]))
          established := st.established ++ [C.myAddress i p] } p (.connect i k) rest := by
        refine ⟨rfl, ⟨_, _, rfl⟩, fun a ha => Function.update_of_ne ha _ _, fun a ha => ?_,
          fun a ha => ?_⟩
        · have hne : C.myAddress i p ≠ a := ha.symm
          refine (connectionsTo_append rfl).trans ?_
          rw [if_neg hne, List.append_nil]
        · rcases List.mem_append.mp ha with ha | ha
          · exact Or.inl ha
          · exact Or.inr (List.mem_singleton.mp ha)
      exact h.stepOn hports hs hops fun acc hacc =>
        ⟨acc, PairInv.connect hsuffix hops hs hqueue rfl (Function.update_self _ _ _) rfl hacc⟩

end Calls

/-! ## Whole runs -/

theorem ConnectInv.step (hports : C.PortsUnique) (hc : 1 ≤ C.commThreads) (h : ConnectInv C st)
    (hstep : Step C st st') : ConnectInv C st' := by
  obtain ⟨p, hp⟩ := hstep
  rw [stepParty] at hp
  cases hops : st.ops p with
  | nil =>
      rw [hops] at hp
      cases hp
  | cons x rest =>
      rw [hops] at hp
      cases x with
      | listen i =>
          obtain rfl := Option.some.inj hp
          exact h.listenStep hports hc hops
      | accept i k => exact h.acceptStep hports hops hp
      | connect i k => exact h.connectStep hports hops hp

theorem ConnectInv.of_reachable (hports : C.PortsUnique) (hc : 1 ≤ C.commThreads)
    (h : Reachable C st) : ConnectInv C st := by
  induction h with
  | refl => exact .init C
  | tail _ hstep ih => exact ih.step hports hc hstep

theorem exists_step_of_isSome {p : ℕ} (h : (st.stepParty C p).isSome = true) :
    ∃ st', Step C st st' := by
  obtain ⟨st', hst'⟩ := Option.isSome_iff_exists.mp h
  exact ⟨st', p, hst'⟩

/-- A party whose next call is to accept a connection can go on once the other party has
finished. -/
theorem ConnectInv.exists_step_of_accept {p i k : ℕ} {rest : List ConnectOp}
    (h : ConnectInv C st) (hops : st.ops p = .accept i k :: rest) (hi : st.ops i = []) :
    ∃ st', Step C st st' := by
  obtain ⟨hsuffix, hx⟩ := h.head hops
  obtain ⟨-, hk⟩ := accept_mem.mp (hsuffix.subset List.mem_cons_self)
  obtain ⟨acc, hacc⟩ := h.pairs i p hx
  -- all connections of the pair are there
  have hlen : k < (st.connectionsTo (C.myAddress p i)).length := by
    by_contra hle
    have hmem := (hacc.connect_iff k hk).mpr (Nat.le_of_not_lt hle)
    rw [hi] at hmem
    cases hmem
  refine exists_step_of_isSome (p := p) ?_
  rw [stepParty, hops]
  simp only
  rw [hacc.acceptStep_eq hsuffix hops, List.getElem?_eq_getElem hlen]
  rfl

theorem exists_step_of_listen {p i : ℕ} {rest : List ConnectOp}
    (hops : st.ops p = .listen i :: rest) : ∃ st', Step C st st' := by
  refine exists_step_of_isSome (p := p) ?_
  rw [stepParty, hops]
  rfl

/-- A party that has still to listen for `p` can go on once all those below `p` have finished. -/
theorem ConnectInv.exists_step_of_listen_mem {i p : ℕ} (h : ConnectInv C st)
    (hlow : ∀ q < p, st.ops q = []) (hlisten : .listen p ∈ st.ops i) : ∃ st', Step C st st' := by
  cases hops : st.ops i with
  | nil =>
      rw [hops] at hlisten
      cases hlisten
  | cons y rest =>
      obtain ⟨hsuffix, -⟩ := h.head hops
      rw [hops] at hlisten
      cases y with
      | listen i' => exact exists_step_of_listen hops
      | accept i' k' =>
          -- what it accepts first is from a party below `p`
          have hmem := (List.mem_cons.mp hlisten).resolve_left nofun
          have hlt : i' < p := (mem_rest_iff hsuffix
            (hsuffix.subset (List.mem_cons_of_mem _ hmem))).mp hmem
          exact h.exists_step_of_accept hops (hlow i' hlt)
      | connect i' k' =>
          -- it connects only after it has listened for everyone
          have hmem := (List.mem_cons.mp hlisten).resolve_left nofun
          exact ((mem_rest_iff hsuffix
            (hsuffix.subset (List.mem_cons_of_mem _ hmem))).mp hmem).elim

/-- A party that has not finished can go on, or waits for a lower one or, to be listened to, for
a higher one. -/
theorem ConnectInv.exists_step (h : ConnectInv C st) (hp : ∃ p, st.ops p ≠ []) :
    ∃ st', Step C st st' := by
  classical
  -- the lowest party that has not finished
  have hlow : ∀ q < Nat.find hp, st.ops q = [] := by
    intro q hq
    by_contra hne
    exact Nat.find_min hp hq hne
  have hne := Nat.find_spec hp
  generalize Nat.find hp = p at hlow hne
  cases hops : st.ops p with
  | nil => exact absurd hops hne
  | cons x rest =>
      obtain ⟨hsuffix, hx⟩ := h.head hops
      cases x with
      | listen i => exact exists_step_of_listen hops
      | accept i k => exact h.exists_step_of_accept hops (hlow i hx.2.1)
      | connect i k =>
          obtain ⟨acc, hacc⟩ := h.pairs p i hx
          by_cases hlisten : ConnectOp.listen p ∈ st.ops i
          · -- the upper party is on its way to listen
            exact h.exists_step_of_listen_mem hlow hlisten
          · refine exists_step_of_isSome (p := p) ?_
            rw [stepParty, hops]
            simp only
            rw [ConnectState.connectStep, C.otherAddress_eq, hacc.queue hlisten]
            rfl

/-- Sockets `k` of two parties are the two ends of connection `m`. -/
def ConnectState.Paired (st : ConnectState) (m i j k : ℕ) : Prop :=
  st.sockets i j k = .client m ∧ st.sockets j i k = .server m

/-- When all have finished, slot `k` has the connection that was established as number `k`. -/
theorem PairInv.paired {i j acc : ℕ} (h : PairInv C st i j acc) (hall : ∀ p, st.ops p = [])
    {k : ℕ} (hk : k < C.commThreads) :
    ∃ m, (st.connectionsTo (C.myAddress j i))[k]? = some m ∧ st.Paired m i j k := by
  have hlen : k < (st.connectionsTo (C.myAddress j i)).length := by
    by_contra hle
    have hmem := (h.connect_iff k hk).mpr (Nat.le_of_not_lt hle)
    rw [hall i] at hmem
    cases hmem
  have hacc : k < acc := by
    by_contra hle
    have hmem := (h.accept_iff k hk).mpr (Nat.le_of_not_lt hle)
    rw [hall j] at hmem
    cases hmem
  have hget := List.getElem?_eq_getElem hlen
  exact ⟨_, hget, h.client k _ hget, h.server k _ hacc hget⟩

theorem nodup_connectionsTo (a : SocketPartyData) : (st.connectionsTo a).Nodup :=
  List.nodup_range.filter _

/-- A call leaves the party with fewer calls. -/
theorem length_lt_of_stepParty {p : ℕ} (h : st.stepParty C p = some st') :
    ∃ rest, st'.ops = Function.update st.ops p rest ∧ rest.length < (st.ops p).length := by
  have hdrop : ∀ i (rest : List ConnectOp), (dropAccepts i rest).length ≤ rest.length :=
    fun i rest => (List.dropWhile_suffix _).length_le
  rw [stepParty] at h
  cases hops : st.ops p with
  | nil =>
      rw [hops] at h
      cases h
  | cons x rest =>
      rw [hops] at h
      rw [List.length_cons]
      cases x with
      | listen i =>
          obtain rfl := Option.some.inj h
          rw [ConnectState.listenStep]
          split
          · exact ⟨rest, rfl, Nat.lt_succ_self _⟩
          · exact ⟨_, rfl, Nat.lt_succ_of_le (hdrop i rest)⟩
      | accept i k =>
          simp only [ConnectState.acceptStep] at h
          split at h
          · split at h
            · obtain rfl := Option.some.inj h
              exact ⟨rest, rfl, Nat.lt_succ_self _⟩
            · cases h
          · obtain rfl := Option.some.inj h
            exact ⟨_, rfl, Nat.lt_succ_of_le (hdrop i rest)⟩
      | connect i k =>
          simp only [ConnectState.connectStep] at h
          split at h
          · obtain rfl := Option.some.inj h
            exact ⟨rest, rfl, Nat.lt_succ_self _⟩
          · cases h

/-- How many calls are left. -/
def remainingCalls (C : ConnectConfig) (st : ConnectState) : ℕ :=
  ∑ p ∈ Finset.range (C.numOfParties + 1), (st.ops p).length

theorem ConnectInv.ops_eq_nil (h : ConnectInv C st) {p : ℕ}
    (hp : ¬ (1 ≤ p ∧ p ≤ C.numOfParties)) : st.ops p = [] := by
  have hsuffix := h.suffix p
  rw [if_neg hp] at hsuffix
  exact List.eq_nil_of_suffix_nil hsuffix

theorem ConnectInv.remainingCalls_lt (h : ConnectInv C st) (hstep : Step C st st') :
    remainingCalls C st' < remainingCalls C st := by
  obtain ⟨p, hp⟩ := hstep
  obtain ⟨rest, hops, hlt⟩ := length_lt_of_stepParty hp
  have hmem : p ∈ Finset.range (C.numOfParties + 1) := by
    by_contra hout
    rw [Finset.mem_range] at hout
    rw [h.ops_eq_nil (by omega)] at hlt
    cases hlt
  refine Finset.sum_lt_sum (fun q _ => ?_) ⟨p, hmem, ?_⟩
  · rw [hops]
    by_cases hq : q = p
    · subst hq
      rw [Function.update_self]
      exact hlt.le
    · rw [Function.update_of_ne hq]
  · rw [hops, Function.update_self]
    exact hlt

/-- Every run can be continued until all have finished. -/
theorem ConnectState.Reachable.exists_finished (hports : C.PortsUnique) (hc : 1 ≤ C.commThreads)
    (h : Reachable C st) : ∃ st', Reachable C st' ∧ ∀ p, st'.ops p = [] := by
  induction hn : remainingCalls C st using Nat.strong_induction_on generalizing st with
  | _ n ih =>
      have hinv := ConnectInv.of_reachable hports hc h
      by_cases hall : ∃ p, st.ops p ≠ []
      · obtain ⟨st', hstep⟩ := hinv.exists_step hall
        exact ih _ (hn ▸ hinv.remainingCalls_lt hstep) (h.tail hstep) rfl
      · exact ⟨st, h, fun p => by_contra fun hp => hall ⟨p, hp⟩⟩

/-- **Setting up the connections**: someone can always go on until all have finished, and then
sockets of one number are the two ends of one connection, and every connection is in exactly
one such pair. -/
theorem connectToAllParties_pairs (C : ConnectConfig) (hc : 1 ≤ C.commThreads)
    (hports : C.PortsUnique) {st : ConnectState} (h : Reachable C st) :
    ((∃ p, st.ops p ≠ []) → ∃ st', Step C st st') ∧
    ((∀ p, st.ops p = []) →
      (∀ i j k, C.Pair i j → k < C.commThreads →
        ∃ m < st.established.length, st.Paired m i j k) ∧
      ∀ m < st.established.length, ∃! s : ℕ × ℕ × ℕ,
        (C.Pair s.1 s.2.1 ∧ s.2.2 < C.commThreads) ∧ st.Paired m s.1 s.2.1 s.2.2) := by
  have hinv := ConnectInv.of_reachable hports hc h
  refine ⟨hinv.exists_step, fun hall => ⟨fun i j k hij hk => ?_, fun m hm => ?_⟩⟩
  · obtain ⟨acc, hacc⟩ := hinv.pairs i j hij
    obtain ⟨m, hm, hpaired⟩ := hacc.paired hall hk
    have hest := mem_connectionsTo.mp (List.mem_of_getElem? hm)
    exact ⟨m, (List.getElem?_eq_some_iff.mp hest).1, hpaired⟩
  · -- the pair of the address the connection was made to
    have hest := List.getElem?_eq_getElem hm
    obtain ⟨i, j, hij, ha⟩ := hinv.established _ (List.getElem_mem hm)
    rw [ha] at hest
    obtain ⟨k, hk⟩ := List.getElem?_of_mem (mem_connectionsTo.mpr hest)
    obtain ⟨acc, hacc⟩ := hinv.pairs i j hij
    have hklt := (List.getElem?_eq_some_iff.mp hk).1
    obtain ⟨m', hm', hpaired⟩ := hacc.paired hall (hklt.trans_le hacc.length_le)
    rw [hk] at hm'
    cases hm'
    refine ⟨(i, j, k), ⟨⟨hij, hklt.trans_le hacc.length_le⟩, hpaired⟩, fun s hs => ?_⟩
    obtain ⟨i', j', k'⟩ := s
    obtain ⟨⟨hij', hk'⟩, hpaired'⟩ := hs
    -- another slot with this connection is of the same pair, and has the same number
    obtain ⟨acc', hacc'⟩ := hinv.pairs i' j' hij'
    obtain ⟨m', hm', hclient, -⟩ := hacc'.paired hall hk'
    rw [hpaired'.1] at hclient
    cases hclient
    have hest' := mem_connectionsTo.mp (List.mem_of_getElem? hm')
    rw [hest] at hest'
    obtain ⟨rfl, rfl⟩ := hports i j i' j' hij hij' (Option.some.inj hest')
    rw [(List.getElem?_inj hklt (nodup_connectionsTo _)).mp (hk.trans hm'.symm)]

/-- Three parties on one machine, with two connections between any two of them. -/
def threeParties : ConnectConfig where
  numOfParties := 3
  commThreads := 2
  isLocalHost := true
  ip _ := loopbackAddress
  port p := 8000 + 100 * p

/-- They can all finish, and then the second sockets of the first and the last belong together. -/
theorem connectToAllParties_pairs_three :
    ∃ st, Reachable threeParties st ∧ (∀ p, st.ops p = []) ∧
      ∃ m < st.established.length, st.Paired m 1 3 1 := by
  have hports : threeParties.PortsUnique := by
    intro i j i' j' hij hij' heq
    obtain ⟨hi, hlt, hj⟩ := hij
    obtain ⟨hi', hlt', hj'⟩ := hij'
    have hport : (8000 + 100 * j + i) % 65536 = (8000 + 100 * j' + i') % 65536 :=
      congrArg Prod.snd heq
    simp only [threeParties] at hj hj'
    rw [Nat.mod_eq_of_lt (by omega), Nat.mod_eq_of_lt (by omega)] at hport
    omega
  obtain ⟨st, hst, hall⟩ := Reachable.exists_finished (C := threeParties) hports (by decide)
    .refl
  refine ⟨st, hst, hall, ?_⟩
  exact ((connectToAllParties_pairs threeParties (by decide) hports hst).2 hall).1 1 3 1
    ⟨by decide, by decide, by decide⟩ (by decide)

end MultiPartyPSI
