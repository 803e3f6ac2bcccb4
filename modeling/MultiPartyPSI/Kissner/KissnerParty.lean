import MultiPartyPSI.Kissner.Scheme
import MultiPartyPSI.Lib.LittleEndian
import MultiPartyPSI.Lib.Script
import MultiPartyPSI.Util.Typedefs

/-!
# The polynomial protocol

`KissnerParty.cpp`, with the messages of `initPaiilier` and `secretShare` that come first on
the same channels. A party's polynomial has its elements as roots. It goes, encrypted, to
all parties above; each party multiplies those it has by random polynomials and adds the
products. These sums are added up around the ring, from the leader to the leader, who then
has the coefficients decrypted one by one.
-/

namespace MultiPartyPSI

open Lib Buf

/-- What `run` leaves: `decryptedPoly` and `intersection`. It returns the length of the
latter; a follower has neither. -/
structure KissnerResult (N : ℕ) where
  decryptedPoly : List ℕ
  intersection : List (ZMod N)

/-- A party of the polynomial protocol: what it is configured with and what it draws. -/
structure KissnerParty (X : Type) where
  numOfParties : ℕ
  leaderId : ℕ
  setSize : ℕ
  elementSizeInBits : ℕ
  partyId : ℕ
  elements : Buf Byte
  /-- What `encrypt` draws for coefficient `i`. -/
  encRandom : ℕ → X
  /-- Coefficient `j` of `randomPoly`, for the polynomial of party `i + 1`. -/
  random : ℕ → ℕ → ℕ

namespace KissnerParty

variable {N : ℕ} {Z X : Type} (P : KissnerParty X) {n : ℕ} (E : AdditiveScheme N n Z X)

/-- `prevParty`. -/
def prevParty : ℕ := if P.partyId - 1 = 0 then P.numOfParties else P.partyId - 1

/-- `nextParty`. -/
def nextParty : ℕ := P.partyId % P.numOfParties + 1

/-- The parties it is connected to. -/
def peers : List ℕ := others P.numOfParties P.partyId

/-! ## Polynomials -/

/-- `m_roots`. -/
def roots (N : ℕ) : List (ZMod N) :=
  (List.range P.setSize).map fun i =>
    (loadLE P.elements (i * ceilDivide P.elementSizeInBits 8) (ceilDivide P.elementSizeInBits 8) :
      ZMod N)

/-- The coefficients of `BuildFromRoots`. -/
def buildFromRoots : List (ZMod N) → ℕ → ZMod N
  | [], 0 => 1
  | [], _ + 1 => 0
  | a :: l, 0 => -(a * buildFromRoots l 0)
  | a :: l, k + 1 => buildFromRoots l k - a * buildFromRoots l (k + 1)

/-- `getEncryptedCoefficients`. -/
def getEncryptedCoefficients : List Z :=
  (List.range (P.setSize + 1)).map fun i =>
    E.encrypt (buildFromRoots (P.roots N) i).val (P.encRandom i)

/-- `addEncPolys`. -/
def addEncPolys (poly1 poly2 : List Z) : List Z := List.zipWith E.mulMod poly1 poly2

/-- `mulEncPolyByPoly`. -/
def mulEncPolyByPoly (encPoly : List Z) (poly : ℕ → ℕ) : List Z :=
  (List.range (2 * P.setSize + 1)).map fun i =>
    (List.range (i + 1)).foldl (fun prod j =>
      if j ≤ P.setSize ∧ i - j ≤ P.setSize then
        E.mulMod prod (E.powerMod (encPoly.getD j E.one) (poly (i - j)))
      else prod) E.one

/-- `sumPoly`: the loop over `receivedPolys`. -/
def sumPolys (receivedPolys : List (List Z)) : List Z :=
  receivedPolys.zipIdx.foldl (fun sumPoly poly =>
    let prodPoly := P.mulEncPolyByPoly E poly.1 (P.random poly.2)
    if sumPoly.isEmpty then prodPoly else addEncPolys E sumPoly prodPoly) []

/-- `poly` at a point. -/
def evalDecrypted (decryptedPoly : List ℕ) (x : ZMod N) : ZMod N :=
  ∑ i ∈ Finset.range (2 * P.setSize + 1), (decryptedPoly.getD i 0 : ZMod N) * x ^ i

/-! ## Messages -/

/-- The messages of `initPaiilier` before `secretShare`. -/
def initPaiilier : Proc ℕ Z Unit :=
  if P.partyId = P.leaderId then do
    let _ ← Proc.collect (fun q => Proc.sendList q [E.pTag, E.qTag, E.a, E.b]) P.peers
    return ()
  else do
    let _ ← Proc.receiveList P.leaderId 4
    return ()

/-- `secretShare`; it returns `m_share`. -/
def secretShare : Proc ℕ Z Z := do
  let _ ← Proc.collect (fun q => Proc.sendTo q (E.deal P.partyId q)) P.peers
  let values ← Proc.collect Proc.receiveFrom P.peers
  return E.share P.partyId values

/-- `makeSharedPolynomial`. -/
def makeSharedPolynomial (encPoly : List Z) : Proc ℕ Z (List Z) := do
  let _ ← Proc.collect (fun i => Proc.sendList i encPoly)
    (List.range' (P.partyId + 1) (P.numOfParties - P.partyId))
  let receivedPolys ← Proc.collect (fun i => Proc.receiveList i (P.setSize + 1))
    (List.range' 1 (P.partyId - 1))
  return P.sumPolys E (receivedPolys ++ [encPoly])

/-- `makeDecryptedPolynomialAsFollower`. -/
def makeDecryptedPolynomialAsFollower (mShare : Z) (sharedPoly : List Z) : Proc ℕ Z Unit := do
  let prevPoly ← Proc.receiveList P.prevParty (2 * P.setSize + 1)
  let _ ← Proc.sendList P.nextParty (addEncPolys E prevPoly sharedPoly)
  Proc.sendTo P.leaderId (E.pubKey P.partyId)
  let _ ← Proc.collect (fun _ => do
    let cipher ← Proc.receiveFrom P.leaderId
    Proc.sendTo P.leaderId (E.partialDecrypt mShare cipher)) (List.range (2 * P.setSize + 1))
  return ()

/-- `decs`, a map, in the order it is iterated in. -/
def ordered (decs : List (ℕ × Z)) : List (ℕ × Z) :=
  (List.range' 1 P.numOfParties).filterMap fun i => (decs.lookup i).map fun d => (i, d)

/-- The decryption of one coefficient. -/
def decryptCoefficient (mShare : Z) (pubKeys : List Z) (cipher : Z) : Proc ℕ Z ℕ := do
  let _ ← Proc.collect (fun q => Proc.sendTo q cipher) P.peers
  let decs ← Proc.collect Proc.receiveFrom P.peers
  return E.decrypt (P.ordered ((P.partyId, E.partialDecrypt mShare cipher) :: P.peers.zip decs))
    pubKeys

/-- `makeDecryptedPolynomialAsLeader`. -/
def makeDecryptedPolynomialAsLeader (mShare : Z) (sharedPoly : List Z) : Proc ℕ Z (List ℕ) := do
  let _ ← Proc.sendList P.nextParty sharedPoly
  let finalPoly ← Proc.receiveList P.prevParty (2 * P.setSize + 1)
  let keys ← Proc.collect Proc.receiveFrom P.peers
  Proc.collect (P.decryptCoefficient E mShare (E.pubKey P.partyId :: keys)) finalPoly

/-- `run`. -/
def run : Proc ℕ Z (KissnerResult N) := do
  P.initPaiilier E
  let mShare ← P.secretShare E
  let sharedPolynomial ← P.makeSharedPolynomial E (P.getEncryptedCoefficients E)
  if P.partyId ≠ P.leaderId then do
    P.makeDecryptedPolynomialAsFollower E mShare sharedPolynomial
    return ⟨[], []⟩
  else do
    let decryptedPoly ← P.makeDecryptedPolynomialAsLeader E mShare sharedPolynomial
    return ⟨decryptedPoly,
      (P.roots N).filter fun root => P.evalDecrypted decryptedPoly root = 0⟩

/-! ## Plans

Traffic of a party is with its peers only: `within` cuts it down to them. -/

/-- Traffic with the peers. -/
def within (f : Traffic ℕ Z) : Traffic ℕ Z := fun q => if q ∈ P.peers then f q else []

section Plans

variable {P E}

theorem within_append (f g : Traffic ℕ Z) (q : ℕ) :
    P.within f q ++ P.within g q = P.within (fun q => f q ++ g q) q := by
  unfold within
  split
  · rfl
  · rfl

theorem within_congr {f g : Traffic ℕ Z} (h : ∀ q ∈ P.peers, f q = g q) (q : ℕ) :
    P.within f q = P.within g q := by
  unfold within
  split
  · next hq => exact h q hq
  · rfl

theorem within_nil (q : ℕ) : P.within (fun _ => ([] : List (ℕ × Z))) q = [] := ite_self _

theorem length_addEncPolys {k : ℕ} {f g : List Z} (hf : f.length = k) (hg : g.length = k) :
    (addEncPolys E f g).length = k := by
  rw [addEncPolys, List.length_zipWith, hf, hg, Nat.min_self]

theorem length_getEncryptedCoefficients :
    (P.getEncryptedCoefficients E).length = P.setSize + 1 := by
  rw [getEncryptedCoefficients, List.length_map, List.length_range]

/-- The exchange: sent at once, and received once all of it is sent. -/
theorem plan_makeSharedPolynomial (hp : 1 ≤ P.partyId ∧ P.partyId ≤ P.numOfParties)
    (encPoly : ℕ → List Z) (hlen : ∀ q, (encPoly q).length = P.setSize + 1) (t : ℕ) :
    Plan t (P.makeSharedPolynomial E (encPoly P.partyId))
      (P.within fun q => if q < P.partyId then (encPoly q).map fun m => (t, m) else [])
      (P.within fun q =>
        if P.partyId < q then (encPoly P.partyId).map fun m => (t, m) else [])
      (P.sumPolys E ((List.range' 1 (P.partyId - 1)).map encPoly ++ [encPoly P.partyId]))
      (t + 1) := by
  have hsend := Plan.collect_sends (List.nodup_range' (s := P.partyId + 1)
      (n := P.numOfParties - P.partyId) 1) (fun _ => (encPoly P.partyId).map fun m => (t, m)) _
    fun i _ => Plan.sendList t i (encPoly P.partyId)
  have hrecv := Plan.collect_recvs (List.nodup_range' (s := 1) (n := P.partyId - 1) 1)
    (fun i => (encPoly i).map fun m => (t, m)) encPoly
    fun i _ => Plan.receiveList (Nat.lt_succ_self t) i (encPoly i) (hlen i)
  have hret := hrecv.bind (f := fun receivedPolys =>
    .ret (P.sumPolys E (receivedPolys ++ [encPoly P.partyId]))) (.ret _ le_rfl)
  refine (hsend.bind (hret.mono (Nat.le_succ t))).congr (fun q => ?_) fun q => ?_
  · rw [List.nil_append, List.append_nil, within]
    by_cases hq : q < P.partyId
    · rw [if_pos hq]
      exact if_congr (by rw [List.mem_range'_1, peers, mem_others]; omega) rfl rfl
    · rw [if_neg hq, ite_self, if_neg]
      rw [List.mem_range'_1]
      omega
  · rw [List.nil_append, List.append_nil, within]
    by_cases hq : P.partyId < q
    · rw [if_pos hq]
      exact if_congr (by rw [List.mem_range'_1, peers, mem_others]; omega) rfl rfl
    · rw [if_neg hq, ite_self, if_neg]
      rw [List.mem_range'_1]
      omega

end Plans

end KissnerParty

/-- All parties of a run: what they agree on, and what each has and draws. -/
structure KissnerSystem (X : Type) where
  numOfParties : ℕ
  leaderId : ℕ
  setSize : ℕ
  elementSizeInBits : ℕ
  elements : ℕ → Buf Byte
  encRandom : ℕ → ℕ → X
  /-- Coefficient `j` of the polynomial that party `p` draws for party `i + 1`. -/
  random : ℕ → ℕ → ℕ → ℕ

/-- One party of a run. -/
def KissnerSystem.party {X : Type} (S : KissnerSystem X) (p : ℕ) : KissnerParty X where
  numOfParties := S.numOfParties
  leaderId := S.leaderId
  setSize := S.setSize
  elementSizeInBits := S.elementSizeInBits
  partyId := p
  elements := S.elements p
  encRandom := S.encRandom p
  random := S.random p

namespace KissnerSystem

variable {N : ℕ} {Z X : Type} (S : KissnerSystem X) (E : AdditiveScheme N S.numOfParties Z X)

/-- The ids of all parties. -/
def ids : List ℕ := List.range' 1 S.numOfParties

theorem mem_ids {p : ℕ} : p ∈ S.ids ↔ 1 ≤ p ∧ p ≤ S.numOfParties := by
  rw [ids, List.mem_range'_1]
  omega

/-- What party `p` sends to all parties above. -/
def encPoly (p : ℕ) : List Z := (S.party p).getEncryptedCoefficients E

theorem length_encPoly (p : ℕ) : (S.encPoly E p).length = S.setSize + 1 :=
  KissnerParty.length_getEncryptedCoefficients

/-- What party `p` has computed at the end of the exchange. -/
def sharedPoly (p : ℕ) : List Z :=
  (S.party p).sumPolys E ((List.range' 1 (p - 1)).map (S.encPoly E) ++ [S.encPoly E p])

end KissnerSystem

end MultiPartyPSI
