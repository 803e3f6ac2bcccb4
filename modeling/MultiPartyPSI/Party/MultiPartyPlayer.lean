import Mathlib.Data.List.Pairwise
import Mathlib.Data.List.Range
import Mathlib.Logic.Relation

/-!
# Setting up the connections

`MultiPartyPlayer::connectToAllParties`, with `listen` and `connect` of `connection.cpp`.
Every pair of parties shares an array of sockets on either side. A party first listens for
all parties below it, one after the other, and accepts as many connections of each as there
are communication threads; then it connects to all parties above. While it accepts, the
listening socket is in the last slot of the array, where the last accepted connection goes.

A connection is known by its place among all that are established, a socket by the
connection it is an end of.
-/

namespace MultiPartyPSI

/-- `LOOPBACK_ADDRESS`. -/
def loopbackAddress : String := "127.0.0.1"

/-- `SocketPartyData`: an address and a port. -/
abbrev SocketPartyData := String × ℕ

/-- What all parties read from the configuration file. -/
structure ConnectConfig where
  numOfParties : ℕ
  commThreads : ℕ
  isLocalHost : Bool
  ip : ℕ → String
  port : ℕ → ℕ

namespace ConnectConfig

variable (C : ConnectConfig)

/-- `ipAddress` of a party. -/
def ipAddress (p : ℕ) : String := if C.isLocalHost then loopbackAddress else C.ip p

/-- `m_myAddresses[i]` of party `p`; a port has 16 bits. -/
def myAddress (p i : ℕ) : SocketPartyData := (C.ipAddress p, (C.port p + i) % 65536)

/-- `m_otherAddresses[i]` of party `p`. -/
def otherAddress (p i : ℕ) : SocketPartyData := (C.ipAddress i, (C.port i + p) % 65536)

/-- Where `i` connects, `p` listens. -/
theorem otherAddress_eq (p i : ℕ) : C.otherAddress i p = C.myAddress p i := rfl

/-- `i` and `j` are parties, `i` the one below. -/
def Pair (i j : ℕ) : Prop := 1 ≤ i ∧ i < j ∧ j ≤ C.numOfParties

/-- Ports are so far apart that no two pairs meet at one address. -/
def PortsUnique : Prop :=
  ∀ i j i' j', C.Pair i j → C.Pair i' j' → C.myAddress j i = C.myAddress j' i' → i = i' ∧ j = j'

end ConnectConfig

/-- `CSocket`. -/
inductive CSocket where
  /-- `INVALID_SOCKET`. -/
  | invalid
  /-- A socket that could not be bound. -/
  | unbound
  | listening (address : SocketPartyData)
  /-- The end that connected, and the one that was accepted. -/
  | client (connection : ℕ)
  | server (connection : ℕ)
  deriving DecidableEq

/-- One call that may have to wait: `Socket`, `Bind` and `Listen` for party `i`, one `Accept` into
slot `k` of its array, or one `connect` into slot `k`. -/
inductive ConnectOp where
  | listen (i : ℕ)
  | accept (i k : ℕ)
  | connect (i k : ℕ)
  deriving DecidableEq

/-- The calls of `connectToAllParties` by party `p`. -/
def connectToAllParties (C : ConnectConfig) (p : ℕ) : List ConnectOp :=
  ((List.range' 1 (p - 1)).flatMap fun i =>
    .listen i :: (List.range C.commThreads).map (.accept i)) ++
  ((List.range' (p + 1) (C.numOfParties - p)).flatMap fun i =>
    (List.range C.commThreads).map (.connect i))

/-- The parties and the network between them. -/
structure ConnectState where
  /-- What a party has still to call. -/
  ops : ℕ → List ConnectOp
  /-- `m_parties[i].get()[k]` of party `p`. -/
  sockets : ℕ → ℕ → ℕ → CSocket
  /-- The connections to an address that nobody has accepted, if someone listens there. -/
  backlog : SocketPartyData → Option (List ℕ)
  /-- The addresses of all connections, in the order they are established in. -/
  established : List SocketPartyData

namespace ConnectState

/-- Another socket in a slot. -/
def setSocket (sockets : ℕ → ℕ → ℕ → CSocket) (p i k : ℕ) (s : CSocket) : ℕ → ℕ → ℕ → CSocket :=
  Function.update sockets p (Function.update (sockets p) i (Function.update (sockets p i) k s))

/-- `listen_failure`: the accepts that are left are skipped. -/
def dropAccepts (i : ℕ) (ops : List ConnectOp) : List ConnectOp :=
  ops.dropWhile fun op => match op with
    | .accept i' _ => decide (i' = i)
    | _ => false

variable (C : ConnectConfig) (st : ConnectState)

/-- `Socket`, `Bind` and `Listen`; an address that is in use cannot be bound. -/
def listenStep (p i : ℕ) (rest : List ConnectOp) : ConnectState :=
  match st.backlog (C.myAddress p i) with
  | none => { st with
      ops := Function.update st.ops p rest
      sockets := setSocket st.sockets p i (C.commThreads - 1) (.listening (C.myAddress p i))
      backlog := Function.update st.backlog (C.myAddress p i) (some []) }
  | some _ => { st with
      ops := Function.update st.ops p (dropAccepts i rest)
      sockets := setSocket st.sockets p i (C.commThreads - 1) .unbound }

/-- `Accept`, on the socket in the last slot; it waits for a connection. -/
def acceptStep (p i k : ℕ) (rest : List ConnectOp) : Option ConnectState :=
  match st.sockets p i (C.commThreads - 1) with
  | .listening a =>
      match st.backlog a with
      | some (conn :: queue) => some { st with
          ops := Function.update st.ops p rest
          sockets := setSocket st.sockets p i k (.server conn)
          backlog := Function.update st.backlog a (some queue) }
      | _ => none
  | _ => some { st with ops := Function.update st.ops p (dropAccepts i rest) }

/-- `connect`, which tries until someone listens. -/
def connectStep (p i k : ℕ) (rest : List ConnectOp) : Option ConnectState :=
  match st.backlog (C.otherAddress p i) with
  | some queue => some {
      ops := Function.update st.ops p rest
      sockets := setSocket st.sockets p i k (.client st.established.length)
      backlog := Function.update st.backlog (C.otherAddress p i)
        (some (queue ++ [st.established.length]))
      established := st.established ++ [C.otherAddress p i] }
  | none => none

/-- The next call of party `p`, if it does not have to wait. -/
def stepParty (p : ℕ) : Option ConnectState :=
  match st.ops p with
  | [] => none
  | .listen i :: rest => some (st.listenStep C p i rest)
  | .accept i k :: rest => st.acceptStep C p i k rest
  | .connect i k :: rest => st.connectStep C p i k rest

/-- Some party makes its next call. -/
def Step (st st' : ConnectState) : Prop := ∃ p, st.stepParty C p = some st'

/-- Nobody has done anything. -/
def init : ConnectState where
  ops p := if 1 ≤ p ∧ p ≤ C.numOfParties then connectToAllParties C p else []
  sockets _ _ _ := .invalid
  backlog _ := none
  established := []

/-- The states of all runs. -/
def Reachable (st : ConnectState) : Prop := Relation.ReflTransGen (Step C) (init C) st

variable {st}

theorem setSocket_self (sockets : ℕ → ℕ → ℕ → CSocket) (p i k : ℕ) (s : CSocket) :
    setSocket sockets p i k s p i k = s := by
  rw [setSocket, Function.update_self, Function.update_self, Function.update_self]

theorem setSocket_slot (sockets : ℕ → ℕ → ℕ → CSocket) (p i : ℕ) {k k' : ℕ} (s : CSocket)
    (hk : k' ≠ k) : setSocket sockets p i k s p i k' = sockets p i k' := by
  rw [setSocket, Function.update_self, Function.update_self, Function.update_of_ne hk]

/-- Other arrays stay as they are. -/
theorem setSocket_array (sockets : ℕ → ℕ → ℕ → CSocket) {p i p' i' : ℕ} (k : ℕ) (s : CSocket)
    (h : p' ≠ p ∨ i' ≠ i) : setSocket sockets p i k s p' i' = sockets p' i' := by
  rw [setSocket]
  by_cases hp : p' = p
  · rcases h with h | h
    · exact absurd hp h
    · rw [hp, Function.update_self, Function.update_of_ne h]
  · rw [Function.update_of_ne hp]

end ConnectState

/-! ## The order of the calls -/

/-- The first call comes before the second in the program of a party. -/
def ConnectOp.Before : ConnectOp → ConnectOp → Prop
  | .listen i, .listen i' => i < i'
  | .listen i, .accept i' _ => i ≤ i'
  | .listen _, .connect _ _ => True
  | .accept i _, .listen i' => i < i'
  | .accept i k, .accept i' k' => i < i' ∨ i = i' ∧ k < k'
  | .accept _ _, .connect _ _ => True
  | .connect _ _, .listen _ => False
  | .connect _ _, .accept _ _ => False
  | .connect i k, .connect i' k' => i < i' ∨ i = i' ∧ k < k'

theorem ConnectOp.Before.asymm {x y : ConnectOp} (h : x.Before y) : ¬ y.Before x := by
  cases x with
  | listen i => cases y <;> simp only [Before, not_false_eq_true] at h ⊢ <;> omega
  | accept i k => cases y <;> simp only [Before, not_false_eq_true] at h ⊢ <;> omega
  | connect i k =>
      cases y with
      | listen i' => exact h.elim
      | accept i' k' => exact h.elim
      | connect i' k' =>
          simp only [Before] at h ⊢
          omega

section Calls

variable {C : ConnectConfig} {p : ℕ}

theorem listen_mem {i : ℕ} : .listen i ∈ connectToAllParties C p ↔ 1 ≤ i ∧ i < p := by
  simp only [connectToAllParties, List.mem_append, List.mem_flatMap, List.mem_range'_1,
    List.mem_cons, List.mem_map, ConnectOp.listen.injEq, reduceCtorEq, and_false, exists_false,
    or_false, exists_eq_right']
  omega

theorem accept_mem {i k : ℕ} :
    .accept i k ∈ connectToAllParties C p ↔ (1 ≤ i ∧ i < p) ∧ k < C.commThreads := by
  simp only [connectToAllParties, List.mem_append, List.mem_flatMap, List.mem_range'_1,
    List.mem_cons, List.mem_map, List.mem_range, ConnectOp.accept.injEq, reduceCtorEq, false_or,
    and_false, exists_false, or_false]
  refine ⟨?_, ?_⟩
  · intro h
    obtain ⟨i', hi, k', hk, rfl, rfl⟩ := h
    exact ⟨by omega, hk⟩
  · intro h
    exact ⟨i, by omega, k, h.2, rfl, rfl⟩

theorem connect_mem {i k : ℕ} :
    .connect i k ∈ connectToAllParties C p ↔ (p < i ∧ i ≤ C.numOfParties) ∧ k < C.commThreads := by
  simp only [connectToAllParties, List.mem_append, List.mem_flatMap, List.mem_range'_1,
    List.mem_cons, List.mem_map, List.mem_range, ConnectOp.connect.injEq, reduceCtorEq, false_or,
    and_false, exists_false]
  refine ⟨?_, ?_⟩
  · intro h
    obtain ⟨i', hi, k', hk, rfl, rfl⟩ := h
    exact ⟨by omega, hk⟩
  · intro h
    exact ⟨i, by omega, k, h.2, rfl, rfl⟩

/-- The calls are made in order. -/
theorem pairwise_connectToAllParties (C : ConnectConfig) (p : ℕ) :
    (connectToAllParties C p).Pairwise ConnectOp.Before := by
  rw [connectToAllParties, List.pairwise_append]
  refine ⟨?_, ?_, ?_⟩
  · rw [List.pairwise_flatMap]
    refine ⟨fun i _ => ?_, ?_⟩
    · rw [List.pairwise_cons, List.pairwise_map]
      refine ⟨fun y hy => ?_, List.pairwise_lt_range.imp fun h => Or.inr ⟨rfl, h⟩⟩
      obtain ⟨k, -, rfl⟩ := List.mem_map.mp hy
      exact le_rfl
    · refine (List.pairwise_lt_range' 1).imp fun {i i'} h x hx y hy => ?_
      -- everything about `i` is before everything about `i'`
      rcases List.mem_cons.mp hx with rfl | hx
      · rcases List.mem_cons.mp hy with rfl | hy
        · exact h
        · obtain ⟨k, -, rfl⟩ := List.mem_map.mp hy
          exact h.le
      · obtain ⟨k, -, rfl⟩ := List.mem_map.mp hx
        rcases List.mem_cons.mp hy with rfl | hy
        · exact h
        · obtain ⟨k', -, rfl⟩ := List.mem_map.mp hy
          exact Or.inl h
  · rw [List.pairwise_flatMap]
    refine ⟨fun i _ => ?_, ?_⟩
    · rw [List.pairwise_map]
      exact List.pairwise_lt_range.imp fun h => Or.inr ⟨rfl, h⟩
    · refine (List.pairwise_lt_range' 1).imp fun {i i'} h x hx y hy => ?_
      obtain ⟨k, -, rfl⟩ := List.mem_map.mp hx
      obtain ⟨k', -, rfl⟩ := List.mem_map.mp hy
      exact Or.inl h
  · intro x hx y hy
    obtain ⟨i', -, hy⟩ := List.mem_flatMap.mp hy
    obtain ⟨k', -, rfl⟩ := List.mem_map.mp hy
    obtain ⟨i, -, hx⟩ := List.mem_flatMap.mp hx
    rcases List.mem_cons.mp hx with rfl | hx
    · trivial
    · obtain ⟨k, -, rfl⟩ := List.mem_map.mp hx
      trivial

/-- What is left after a call are those that come after it. -/
theorem mem_rest_iff {x y : ConnectOp} {rest : List ConnectOp}
    (h : x :: rest <:+ connectToAllParties C p) (hy : y ∈ connectToAllParties C p) :
    y ∈ rest ↔ x.Before y := by
  obtain ⟨before, hsplit⟩ := h
  have hpair := pairwise_connectToAllParties C p
  rw [← hsplit, List.pairwise_append, List.pairwise_cons] at hpair
  obtain ⟨-, ⟨hrest, -⟩, hbefore⟩ := hpair
  refine ⟨?_, ?_⟩
  · exact fun hmem => hrest y hmem
  · intro hxy
    rw [← hsplit, List.mem_append, List.mem_cons] at hy
    rcases hy with hy | rfl | hy
    · exact absurd (hbefore y hy x List.mem_cons_self) hxy.asymm
    · exact absurd hxy hxy.asymm
    · exact hy

end Calls

end MultiPartyPSI
