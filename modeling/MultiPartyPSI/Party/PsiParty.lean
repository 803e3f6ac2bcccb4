import MultiPartyPSI.Followers.Follower
import MultiPartyPSI.Hashing.SimpleHashingIndex
import MultiPartyPSI.Oprg.OprgRun
import MultiPartyPSI.Party.HashInfo
import MultiPartyPSI.Party.SecretShare

/-!
# The threads of a party

`PsiParty::run` with all that goes over the sockets. Party 1 is the leader. All parties share
a secret; then the leader starts a thread for each follower, which runs the OPRG with it, and
when these have been joined another thread for each, which receives what the follower
sends. A follower runs the OPRG with the leader and sends what its strategy makes of its masks.

A socket of a party is a pair of the party at the other end and a number below
`m_commThreads`. All threads of a party that talk to one other party use the same sockets.
-/

namespace MultiPartyPSI

open Lib Buf

/-- `KEY_SIZE`. -/
abbrev keySize : Nat := 16

/-- The party at the other end, and the number of the socket. -/
abbrev Socket := Nat × Nat

/-- Socket `id` of party `q` to party `p` is the other end of socket `id` of `p` to `q`. -/
def peerSocket (e : Nat × Socket) : Nat × Socket := (e.2.1, e.1, e.2.2)

/-- What a thread of a party sends are bytes. -/
abbrev SocketByte := Byte ⊕ Empty

/-- What a party ends with: the keys of its share, and its tables. What the leader has received is
not looked at yet. -/
inductive PartyData where
  | leader (shares : List (List Byte)) (leaderResults : Nat → Buf Byte)
      (received : Nat → List (List Byte))
  | follower (shares : List (List Byte)) (masks : Buf Byte)
  | other

/-- All that the parties of one run bring with them and draw, and the table that cuckoo hashing
makes of the leader's elements. `tasks_inside` is what the followers' `simple_hashing` takes to
return, and `numOTs_lt` what the OPRG takes to read the leader's table. -/
structure PsiSession {G : Type*} [CommGroup G] (C : OprgCrypto G) (X : Type*) where
  numOfParties : Nat
  setSize : Nat
  numOfBins : Nat
  maskSizeInBytes : Nat
  maxBinSize : Nat
  commThreads : Nat
  /-- `outbitlen`. -/
  elebitlen : Nat
  elements : Nat → Nat → X
  hashElement : X → Hashed (Fin (ceilDivide elebitlen 8) → Byte)
  dummy : Fin (ceilDivide elebitlen 8) → Byte
  numCores : Nat → Nat
  prg : List Byte → Nat → Buf Byte
  /-- The key party `p` draws for party `i`. -/
  keys : Nat → Nat → List Byte
  /-- What the leader and a follower draw for their base OTs. -/
  draws : Nat → BaseOtDraws C.pk codeWordBits
  /-- Memory as it was allocated. -/
  entries : Buf (CuckooEntry (Fin (ceilDivide elebitlen 8) → Byte))
  freshInfo : Buf CuckooHashInfo
  keyMtx : Nat → Buf Byte
  keySeeds : Nat → Buf Byte
  leaderBuf : Nat → Buf Byte
  masksBuf : Nat → Buf Byte
  /-- The orders in which the threads of an OPRG make their calls. -/
  leaderOrder : Nat → List MaskCall → List MaskCall
  followerOrder : Nat → List MaskCall → List MaskCall
  cuckoo : CuckooRun (Fin (ceilDivide elebitlen 8) → Byte)
  /-- The blocks that `run` of a strategy's follower sends, from its set and its share. -/
  followerRun : Nat → FollowerSet → Buf Byte → List (List Byte)
  /-- The lengths the strategy's leader asks for. -/
  blockLengths : List Nat
  numOfParties_pos : 0 < numOfParties
  numCores_pos : ∀ p, 0 < numCores p
  address_lt : ∀ x, ∀ j < numHashFunctions, (hashElement x).address j < numOfBins
  keys_length : ∀ p i, (keys p i).length = keySize
  leaderOrder_perm : ∀ p calls, (leaderOrder p calls).Perm calls
  followerOrder_perm : ∀ p calls, (followerOrder p calls).Perm calls
  cuckoo_run : cuckooHashing dummy (fun i => hashElement (elements 1 i)) setSize numOfBins
    (numCores 1) entries = some cuckoo
  tasks_inside : ∀ p, 2 ≤ p → p ≤ numOfParties →
    (numCores p - 1) * ceilDivide setSize (numCores p) ≤ setSize
  numOTs_lt : numOfBins * ceilDivide elebitlen 8 < 2 ^ 29

namespace PsiSession

variable {G : Type*} [CommGroup G] {C : OprgCrypto G} {X : Type*} (s : PsiSession C X)

theorem cuckooSpec : s.cuckoo.Spec s.dummy (fun i => s.hashElement (s.elements 1 i)) s.setSize
    s.numOfBins := by
  obtain ⟨run, hrun, hspec⟩ := cuckooHashing_spec s.dummy (s.numCores_pos 1)
    (fun e _ => s.address_lt (s.elements 1 e)) s.entries
  cases s.cuckoo_run.symm.trans hrun
  exact hspec

/-- What `simple_hashing` returns to party `p`, and what it has of it before. -/
def simple (p : Nat) : SimpleHashOutput (Fin (ceilDivide s.elebitlen 8) → Byte) :=
  (simpleHashing s.dummy (fun i => s.hashElement (s.elements p i)) s.setSize s.numOfBins
    (s.numCores p)).getD ⟨fun _ => s.dummy, fun _ => s.dummy, 0, 0, 0, 0⟩

/-- It returns to every follower. -/
theorem simple_run {p : Nat} (h2 : 2 ≤ p) (hn : p ≤ s.numOfParties) :
    simpleHashing s.dummy (fun i => s.hashElement (s.elements p i)) s.setSize s.numOfBins
      (s.numCores p) = some (s.simple p) := by
  obtain ⟨out, hrun, -⟩ := simpleHashing_spec s.dummy (s.numCores_pos p)
    ((startpos_le_iff (s.numCores_pos p)).mpr (s.tasks_inside p h2 hn))
    fun e _ => s.address_lt (s.elements p e)
  rw [simple, hrun, Option.getD_some]

theorem simpleSpec {p : Nat} (h2 : 2 ≤ p) (hn : p ≤ s.numOfParties) :
    (s.simple p).Spec s.dummy (fun i => s.hashElement (s.elements p i)) s.setSize s.numOfBins :=
  SimpleHashOutput.Spec.of_simpleHashing (s.numCores_pos p)
    (fun e _ => s.address_lt (s.elements p e)) (s.simple_run h2 hn)

/-- A bin of the leader has an element or none. -/
theorem sum_leaderBins_le :
    ∑ i ∈ Finset.range s.numOfBins, s.cuckoo.out.nelesinbin i ≤ s.setSize := by
  have hspec := s.cuckooSpec
  rw [← hspec.count, ← sum_ite_eq_count]
  refine (Finset.sum_le_sum fun i hi => ?_).trans (Nat.le_add_right _ _)
  rw [hspec.nelesinbin i (Finset.mem_range.mp hi)]

/-- A follower has every element as often as there are hash functions. -/
theorem sum_followerBins_le {p : Nat} (h2 : 2 ≤ p) (hn : p ≤ s.numOfParties) :
    ∑ i ∈ Finset.range s.numOfBins, (s.simple p).nelesinbin i ≤ s.setSize * numHashFunctions := by
  have hspec := s.simpleSpec h2 hn
  have haddr : ∀ e < s.setSize, ∀ j < numHashFunctions,
      (s.hashElement (s.elements p e)).address j < s.numOfBins := fun e _ => s.address_lt _
  have hlen := length_cells s.dummy haddr
  rw [hspec.sum_nelesinbin_eq le_rfl, Nat.mul_comm, ← hlen, List.length_flatMap]
  exact (sum_map_range _ _).ge

/-- The OPRG of the leader and party `i + 2`. -/
def oprg (i : Fin (s.numOfParties - 1)) : OprgPair C where
  draws := s.draws (i + 2)
  nbins := s.numOfBins
  elebitlen := s.elebitlen
  maskbytelen := s.maskSizeInBytes
  nthreads := s.commThreads
  neles := s.setSize
  totaleles := s.setSize * numHashFunctions
  clientTable := ofRows s.cuckoo.out.hashTable
  serverTable := ofRows (s.simple (i + 2)).resBins
  clientBins := s.cuckoo.out.nelesinbin
  serverBins := (s.simple (i + 2)).nelesinbin
  keyMtx := s.keyMtx (i + 2)
  keySeeds := s.keySeeds (i + 2)
  clientBuf := s.leaderBuf (i + 2)
  serverBuf := s.masksBuf (i + 2)
  clientOrder := s.leaderOrder (i + 2)
  serverOrder := s.followerOrder (i + 2)
  numOTs_lt := s.numOTs_lt
  clientBins_le := s.sum_leaderBins_le
  serverBins_le := s.sum_followerBins_le (Nat.le_add_left 2 i) (by omega)
  clientOrder_perm := s.leaderOrder_perm (i + 2)
  serverOrder_perm := s.followerOrder_perm (i + 2)

/-- `additiveSecretShare`, up to the streams of the keys. -/
def additiveSecretShare (partyId : Nat) : Proc Socket SocketByte (List (List Byte)) := do
  let sent ← Proc.collect (fun i => do
      Proc.sendBytes (i, 0) (s.keys partyId i)
      return s.keys partyId i)
    (List.range' (partyId + 1) (s.numOfParties - partyId))
  let received ← Proc.collect (fun i => Proc.receiveBytes (i, 0) keySize)
    (List.range' 1 (partyId - 1))
  return sent ++ received

/-- `m_secretShare`. -/
def share (shares : List (List Byte)) : Buf Byte :=
  secretShare s.prg (s.maskSizeInBytes * s.numOfBins) shares

/-- The `FollowerSet` of `runAsFollower`, for party `p`. -/
def followerSet (p : Nat) (masks : Buf Byte) : FollowerSet where
  numOfElements := s.setSize
  elementsToHashTable := (s.simple p).elementsToHashTable
  numOfElementsInBin := (s.simple p).nelesinbin
  numOfBins := s.numOfBins
  masks := masks
  maskSizeInBytes := s.maskSizeInBytes
  binToElementsToHashTable := (s.simple p).binToElementsToHashTable
  maxBinSize := s.maxBinSize

theorem index_lt {p : Nat} (h : 2 ≤ p ∧ p ≤ s.numOfParties) : p - 2 < s.numOfParties - 1 := by
  omega

/-- What was found out about the followers, by their party numbers. -/
def byParty {α : Type*} (f : Fin (s.numOfParties - 1) → α) (default : α) (p : Nat) : α :=
  if h : 2 ≤ p ∧ p ≤ s.numOfParties then f ⟨p - 2, s.index_lt h⟩ else default

/-- A thread of `receiveServerData`: the blocks that follower `p` sends. -/
def receiveBlocks (p : Nat) : Proc Socket SocketByte (List (List Byte)) :=
  Proc.collect (Proc.receiveBytes (p, 0)) s.blockLengths

/-- `runAsLeader`, until the leader's own `run` has received everything. -/
def runAsLeader (shares : List (List Byte)) : Thread Socket SocketByte PartyData :=
  (Thread.all (s.numOfParties - 1) fun i => (s.oprg i).client fun id => ((i : Nat) + 2, id)).bind
    fun leaderResults =>
  (Thread.all (s.numOfParties - 1) fun i => (s.receiveBlocks (i + 2)).thread).bind fun received =>
  .ret (.leader shares (s.byParty leaderResults fun _ => 0) (s.byParty received []))

/-- `runAsFollower`, for party `i + 2`. -/
def runAsFollower (i : Fin (s.numOfParties - 1)) (shares : List (List Byte)) :
    Thread Socket SocketByte PartyData :=
  ((s.oprg i).server fun id => (1, id)).bind fun masks =>
  (Proc.collect (Proc.sendBytes (1, 0))
    (s.followerRun (i + 2) (s.followerSet (i + 2) masks) (s.share shares))).thread.bind fun _ =>
  .ret (.follower shares masks)

/-- `run`. -/
def run (p : Nat) : Thread Socket SocketByte PartyData :=
  if p = 1 then (s.additiveSecretShare 1).thread.bind s.runAsLeader
  else if h : 2 ≤ p ∧ p ≤ s.numOfParties then
    (s.additiveSecretShare p).thread.bind (s.runAsFollower ⟨p - 2, s.index_lt h⟩)
  else .ret .other

end PsiSession

end MultiPartyPSI
