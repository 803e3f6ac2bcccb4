import MultiPartyPSI.Lib.ByteStream
import MultiPartyPSI.Oprg.OtRoutines

/-!
# The base OTs

`ot/naor-pinkas.cpp`, and its use in `InitOTSender` and `InitOTReceiver` of `ot-psi.cpp`,
which cut the hashes to AES keys. The sender of the OT extension is the receiver here. The
curve is outside of the model: a commutative group with a way to write its elements as
bytes. The point at infinity is the one element that is not read back from its bytes.

`naorPinkas_keys` is the point: the receiver's hash for OT `k` is the sender's for the value
it chose, since both hash the group element `g ^ (alpha * pK[k])`.
-/

namespace MultiPartyPSI

open Lib Buf

section Model

/-- `pk_crypto` and `crypto`, as far as the base OTs use them. -/
structure PkCrypto (G : Type*) where
  /-- `get_generator`. -/
  generator : G
  /-- `fe_byte_size`. -/
  feBytes : Nat
  exportToBytes : G → Buf Byte
  importFromBytes : (Fin feBytes → Byte) → G
  /-- `symbits` of the security level. -/
  symbits : Nat
  hashRoutine : (Fin (4 + feBytes) → Byte) → Buf Byte

variable {G : Type*} (K : PkCrypto G)

/-- `get_aes_key_bytes`. -/
def PkCrypto.aesKeyBytes : Nat :=
  if K.symbits = 80 then 16
  else if K.symbits = 112 then 16
  else if K.symbits = 128 then 16
  else if K.symbits = 192 then 24
  else if K.symbits = 256 then 32
  else 64

/-- `get_hash_bytes`. -/
def PkCrypto.hashBytes : Nat :=
  if K.symbits = 80 then 20
  else if K.symbits = 112 then 32
  else if K.symbits = 128 then 32
  else if K.symbits = 192 then 64
  else if K.symbits = 256 then 64
  else 64

/-- `hash_ctr`. -/
def PkCrypto.hashCtr (inbuf : Buf Byte) (ctr : Nat) : Buf Byte :=
  let tmpbuf := copy (fun _ => 0) 0 (ofNatLE ctr) 0 4
  let tmpbuf := copy tmpbuf 4 inbuf 0 K.feBytes
  K.hashRoutine (row (4 + K.feBytes) tmpbuf 0)

/-- `import_from_bytes` for element `u` of a buffer. -/
def PkCrypto.importAt (pBuf : Buf Byte) (u : Nat) : G := K.importFromBytes (row K.feBytes pBuf u)

/-- `export_to_bytes` for all of `n` elements. -/
def PkCrypto.exportAll (elements : Nat → G) (n : Nat) (pBuf : Buf Byte) : Buf Byte :=
  loop (fun u pBuf => copy pBuf (u * K.feBytes) (K.exportToBytes (elements u)) 0 K.feBytes) n pBuf

variable [CommGroup G]

/-- `PK0` for OT `k`, from the points that are received. -/
def PkCrypto.pk0 (choices : Buf Byte) (pK : Nat → Nat) (pC : Nat → G) (k : Nat) : G :=
  let choice := (getBit choices k).toNat
  if choice ≠ 0 then pC choice / K.generator ^ pK k else K.generator ^ pK k

/-- `pC` of the sender: the powers to `alpha` and to the further numbers. -/
def PkCrypto.senderC (alpha : Nat) (tmp : Nat → Nat) (u : Nat) : G :=
  if u = 0 then K.generator ^ alpha else K.generator ^ tmp u

/-- The hashes of `NaorPinkas::Receiver`. -/
def PkCrypto.receiverHashes (pC0 : G) (pK : Nat → Nat) (nOTs : Nat) (ret : Buf Byte) : Buf Byte :=
  loop (fun k ret => copy ret (k * K.hashBytes) (K.hashCtr (K.exportToBytes (pC0 ^ pK k)) k) 0
    K.hashBytes) nOTs ret

/-- The hashes of `NaorPinkas::Sender`. -/
def PkCrypto.senderHashes (nSndVals nOTs alpha : Nat) (pC pPK0 : Nat → G) (ret : Buf Byte) :
    Buf Byte :=
  loop (fun k => loop (fun u ret =>
    let pK0r := pPK0 k ^ alpha
    let val := if u = 0 then pK0r else pC u ^ alpha / pK0r
    copy ret ((k * nSndVals + u) * K.hashBytes) (K.hashCtr (K.exportToBytes val) k) 0 K.hashBytes)
    nSndVals) nOTs ret

variable {P Γ : Type}

/-- `NaorPinkas::Receiver`, with `nSndVals` values an OT. -/
def PkCrypto.naorPinkasReceiver (nSndVals nOTs : Nat) (choices : Buf Byte) (pK : Nat → Nat)
    (ret : Buf Byte) (socket : P) : Proc P (Byte ⊕ Γ) (Buf Byte) := do
  let received ← Proc.receiveBytes socket (nSndVals * K.feBytes)
  let pBuf : Buf Byte := fun i => received.getD i 0
  let pC := K.importAt pBuf
  let pBuf := K.exportAll (K.pk0 choices pK pC) nOTs pBuf
  Proc.sendBytes socket (sendBytes pBuf (nOTs * K.feBytes))
  return K.receiverHashes (pC 0) pK nOTs ret

/-- `NaorPinkas::Sender`. -/
def PkCrypto.naorPinkasSender (nSndVals nOTs alpha : Nat) (tmp : Nat → Nat) (ret : Buf Byte)
    (socket : P) : Proc P (Byte ⊕ Γ) (Buf Byte) := do
  let pC := K.senderC alpha tmp
  let pBuf := K.exportAll pC nSndVals fun _ => 0
  Proc.sendBytes socket (sendBytes pBuf (nSndVals * K.feBytes))
  let received ← Proc.receiveBytes socket (nOTs * K.feBytes)
  let pPK0 := K.importAt fun i => received.getD i 0
  return K.senderHashes nSndVals nOTs alpha pC pPK0 ret

/-- `InitOTSender`: the key seeds of the party that chooses. -/
def PkCrypto.initOTSender (choices : Buf Byte) (pK : Nat → Nat) (keySeeds : Buf Byte)
    (socket : P) : Proc P (Byte ⊕ Γ) (Buf Byte) := do
  let pBuf ← K.naorPinkasReceiver 2 codeWordBits choices pK (fun _ => 0) socket
  return loop (fun i keySeeds => copy keySeeds (i * K.aesKeyBytes) pBuf (i * K.hashBytes)
    K.aesKeyBytes) codeWordBits keySeeds

/-- `InitOTReceiver`: both key seeds of every OT. -/
def PkCrypto.initOTReceiver (alpha : Nat) (tmp : Nat → Nat) (keyMtx : Buf Byte) (socket : P) :
    Proc P (Byte ⊕ Γ) (Buf Byte) := do
  let pBuf ← K.naorPinkasSender 2 codeWordBits alpha tmp (fun _ => 0) socket
  return loop (fun i keyMtx => copy keyMtx (i * K.aesKeyBytes) pBuf (i * K.hashBytes)
    K.aesKeyBytes) (codeWordBits * 2) keyMtx

end Model

/-! ## Both keys -/

section Keys

variable {G : Type*} {K : PkCrypto G}

/-- Every element but the point at infinity is read back from its bytes. -/
def PkCrypto.Lossless [CommGroup G] (K : PkCrypto G) : Prop :=
  ∀ x : G, x ≠ 1 → K.importFromBytes (row K.feBytes (K.exportToBytes x) 0) = x

theorem PkCrypto.aesKeyBytes_le_hashBytes : K.aesKeyBytes ≤ K.hashBytes := by
  unfold aesKeyBytes hashBytes
  split_ifs <;> omega

theorem row_exportAll (elements : Nat → G) {n u : Nat} (hu : u < n) (pBuf : Buf Byte) :
    row K.feBytes (K.exportAll elements n pBuf) u
      = row K.feBytes (K.exportToBytes (elements u)) 0 := by
  have h := row_loop_copy K.feBytes n (fun u => K.exportToBytes (elements u)) (fun _ => 0) pBuf hu
  simp only [Nat.zero_mul] at h
  exact h

/-- A buffer that is received has the rows of the one that was sent. -/
theorem row_sendBytes (m : Buf Byte) {len n u : Nat} (hu : u < n) :
    row len (fun i => (sendBytes m (n * len)).getD i 0) u = row len m u := by
  funext j
  have hlt : u * len + j < n * len := row_cell_lt hu j.isLt
  rw [row_apply, row_apply, List.getD_eq_getElem?_getD, sendBytes, List.getElem?_map,
    List.getElem?_range hlt]
  rfl

variable [CommGroup G]

/-- Elements that are not at infinity arrive. -/
theorem PkCrypto.Lossless.importAt_exportAll (hK : K.Lossless) {elements : Nat → G} {n u : Nat}
    (hu : u < n) (hne : elements u ≠ 1) (pBuf : Buf Byte) :
    K.importAt (fun i => (sendBytes (K.exportAll elements n pBuf) (n * K.feBytes)).getD i 0) u
      = elements u := by
  rw [importAt, row_sendBytes _ hu, row_exportAll elements hu, hK _ hne]

theorem row_receiverHashes (pC0 : G) (pK : Nat → Nat) {nOTs k : Nat} (hk : k < nOTs)
    (ret : Buf Byte) :
    row K.hashBytes (K.receiverHashes pC0 pK nOTs ret) k
      = row K.hashBytes (K.hashCtr (K.exportToBytes (pC0 ^ pK k)) k) 0 := by
  have h := row_loop_copy K.hashBytes nOTs (fun k => K.hashCtr (K.exportToBytes (pC0 ^ pK k)) k)
    (fun _ => 0) ret hk
  simp only [Nat.zero_mul] at h
  exact h

theorem row_senderHashes {nSndVals nOTs : Nat} (alpha : Nat) (pC pPK0 : Nat → G) {k u : Nat}
    (hk : k < nOTs) (hu : u < nSndVals) (ret : Buf Byte) :
    row K.hashBytes (K.senderHashes nSndVals nOTs alpha pC pPK0 ret) (k * nSndVals + u)
      = row K.hashBytes (K.hashCtr (K.exportToBytes
          (if u = 0 then pPK0 k ^ alpha else pC u ^ alpha / pPK0 k ^ alpha)) k) 0 := by
  have h := row_loop_loop_copy K.hashBytes nSndVals (fun k u => K.hashCtr (K.exportToBytes
    (if u = 0 then pPK0 k ^ alpha else pC u ^ alpha / pPK0 k ^ alpha)) k) (fun _ _ => 0) ret hk hu
  simp only [Nat.zero_mul] at h
  exact h

/-- **The value both hash.** What the sender makes of `PK0` for the value that was chosen is what
the receiver makes of `C_0`. -/
theorem chosen_value (choices : Buf Byte) (pK : Nat → Nat) (alpha : Nat) (tmp : Nat → Nat)
    (k : Nat) :
    (if (getBit choices k).toNat = 0 then K.pk0 choices pK (K.senderC alpha tmp) k ^ alpha
      else K.senderC alpha tmp (getBit choices k).toNat ^ alpha
        / K.pk0 choices pK (K.senderC alpha tmp) k ^ alpha)
      = K.senderC alpha tmp 0 ^ pK k := by
  have hC0 : K.senderC alpha tmp 0 = K.generator ^ alpha := if_pos rfl
  rw [hC0, ← pow_mul, Nat.mul_comm, pow_mul]
  cases hbit : getBit choices k with
  | false =>
      rw [if_pos (by rfl), PkCrypto.pk0, hbit, if_neg (by decide)]
  | true =>
      rw [if_neg (by decide), PkCrypto.pk0, hbit, if_pos (by decide), ← div_pow, div_div_cancel]

/-- **The receiver gets the hash of the value it chose.** -/
theorem row_hashes_eq (choices : Buf Byte) (pK : Nat → Nat) (alpha : Nat) (tmp : Nat → Nat)
    {nSndVals nOTs k : Nat} (hn : 2 ≤ nSndVals) (hk : k < nOTs) {pPK0 : Nat → G}
    (hpk : pPK0 k = K.pk0 choices pK (K.senderC alpha tmp) k) (ret ret' : Buf Byte) :
    row K.hashBytes (K.receiverHashes (K.senderC alpha tmp 0) pK nOTs ret) k
      = row K.hashBytes (K.senderHashes nSndVals nOTs alpha (K.senderC alpha tmp) pPK0 ret')
          (k * nSndVals + (getBit choices k).toNat) := by
  have hlt : (getBit choices k).toNat < nSndVals := (Bool.toNat_lt _).trans_le hn
  rw [row_receiverHashes _ _ hk, row_senderHashes _ _ _ hk hlt, hpk, chosen_value]

/-- `pk0` looks at the points of the values alone. -/
theorem pk0_congr {choices : Buf Byte} {pK : Nat → Nat} {pC pC' : Nat → G}
    (h : ∀ u < 2, pC u = pC' u) (k : Nat) : K.pk0 choices pK pC k = K.pk0 choices pK pC' k := by
  rw [PkCrypto.pk0, PkCrypto.pk0, h _ (Bool.toNat_lt _)]

end Keys

/-! ## What goes over the socket -/

section Draws

variable {G : Type*} [CommGroup G] (K : PkCrypto G)

/-- What both draw for `nOTs` base OTs. None of the points they send is at infinity. -/
structure BaseOtDraws (nOTs : Nat) where
  alpha : Nat
  tmp : Nat → Nat
  choices : Buf Byte
  pK : Nat → Nat
  pC_ne_one : ∀ u < 2, K.senderC alpha tmp u ≠ 1
  pk0_ne_one : ∀ k < nOTs, K.pk0 choices pK (K.senderC alpha tmp) k ≠ 1

variable {K} {nOTs : Nat} (D : BaseOtDraws K nOTs)

/-- The first block, of the points `C`. -/
def BaseOtDraws.pointsBlock : List Byte :=
  sendBytes (K.exportAll (K.senderC D.alpha D.tmp) 2 fun _ => 0) (2 * K.feBytes)

/-- The answer, of the public keys. -/
def BaseOtDraws.keysBlock : List Byte :=
  sendBytes (K.exportAll (K.pk0 D.choices D.pK (K.senderC D.alpha D.tmp)) nOTs
    fun i => D.pointsBlock.getD i 0) (nOTs * K.feBytes)

/-- The hashes of the receiver. -/
def BaseOtDraws.receiverRet (ret : Buf Byte) : Buf Byte :=
  K.receiverHashes (K.senderC D.alpha D.tmp 0) D.pK nOTs ret

/-- The hashes of the sender. -/
def BaseOtDraws.senderRet (ret : Buf Byte) : Buf Byte :=
  K.senderHashes 2 nOTs D.alpha (K.senderC D.alpha D.tmp)
    (K.importAt fun i => D.keysBlock.getD i 0) ret

variable {P Γ : Type} [DecidableEq P] {D}

theorem length_sendBytes (m : Buf Byte) (n : Nat) : (sendBytes m n).length = n := by
  rw [sendBytes, List.length_map, List.length_range]

/-- The receiver, when the points are on their way. -/
theorem naorPinkasReceiver_plan (hK : K.Lossless) (ret : Buf Byte) (socket : P) {τ t : Nat}
    (hτ : τ < t) :
    Plan t (K.naorPinkasReceiver (Γ := Γ) 2 nOTs D.choices D.pK ret socket)
      (toOnly socket (stamped τ D.pointsBlock)) (toOnly socket (stamped t D.keysBlock))
      (D.receiverRet ret) t := by
  have hC : ∀ u < 2, K.importAt (fun i => D.pointsBlock.getD i 0) u
      = K.senderC D.alpha D.tmp u :=
    fun u hu => hK.importAt_exportAll hu (D.pC_ne_one u hu) _
  have hpk : K.pk0 D.choices D.pK (K.importAt fun i => D.pointsBlock.getD i 0)
      = K.pk0 D.choices D.pK (K.senderC D.alpha D.tmp) := funext fun k => pk0_congr hC k
  have h := Plan.answer (Γ := Γ) hτ socket D.pointsBlock (length_sendBytes _ _)
    (fun l => sendBytes (K.exportAll (K.pk0 D.choices D.pK (K.importAt fun i => l.getD i 0)) nOTs
      fun i => l.getD i 0) (nOTs * K.feBytes))
    (fun l => K.receiverHashes (K.importAt (fun i => l.getD i 0) 0) D.pK nOTs ret)
  simp only [hC 0 Nat.two_pos, hpk] at h
  exact h

/-- The sender, who starts. -/
theorem naorPinkasSender_plan (ret : Buf Byte) (socket : P) (t : Nat) :
    Plan t (K.naorPinkasSender (Γ := Γ) 2 nOTs D.alpha D.tmp ret socket)
      (toOnly socket (stamped (t + 1) D.keysBlock)) (toOnly socket (stamped t D.pointsBlock))
      (D.senderRet ret) (t + 2) :=
  Plan.ask socket D.pointsBlock D.keysBlock (length_sendBytes _ _)
    fun l => K.senderHashes 2 nOTs D.alpha (K.senderC D.alpha D.tmp)
      (K.importAt fun i => l.getD i 0) ret

/-- The hash for a choice. -/
theorem row_receiverRet (hK : K.Lossless) {k : Nat} (hk : k < nOTs) (ret ret' : Buf Byte) :
    row K.hashBytes (D.receiverRet ret) k
      = row K.hashBytes (D.senderRet ret') (k * 2 + (getBit D.choices k).toNat) :=
  row_hashes_eq D.choices D.pK D.alpha D.tmp le_rfl hk
    (hK.importAt_exportAll hk (D.pk0_ne_one k hk) _) ret ret'

end Draws

/-! ## The keys of the OT extension -/

section Seeds

variable {G : Type*} [CommGroup G] {K : PkCrypto G}

/-- The key seeds the sender of the OT extension cuts from its hashes. -/
def BaseOtDraws.keySeeds (D : BaseOtDraws K codeWordBits) (keySeeds : Buf Byte) : Buf Byte :=
  loop (fun i keySeeds => copy keySeeds (i * K.aesKeyBytes) (D.receiverRet fun _ => 0)
    (i * K.hashBytes) K.aesKeyBytes) codeWordBits keySeeds

/-- The key seeds the receiver of the OT extension cuts from its own. -/
def BaseOtDraws.keyMtx (D : BaseOtDraws K codeWordBits) (keyMtx : Buf Byte) : Buf Byte :=
  loop (fun i keyMtx => copy keyMtx (i * K.aesKeyBytes) (D.senderRet fun _ => 0)
    (i * K.hashBytes) K.aesKeyBytes) (codeWordBits * 2) keyMtx

/-- AES key `i` of a buffer. -/
def PkCrypto.aesKey (K : PkCrypto G) (keys : Buf Byte) (i : Nat) : Fin K.aesKeyBytes → Byte :=
  row K.aesKeyBytes keys i

/-- **What the base OTs are for**: one key of every pair. -/
theorem BaseOtDraws.baseOts (hK : K.Lossless) (D : BaseOtDraws K codeWordBits)
    (keySeeds keyMtx : Buf Byte) :
    BaseOts (K.aesKey (D.keyMtx keyMtx)) (K.aesKey (D.keySeeds keySeeds)) D.choices := by
  intro k hk
  have hlt : 2 * k + (getBit D.choices k).toNat < codeWordBits * 2 := by
    have := Bool.toNat_lt (getBit D.choices k)
    omega
  have hrow := row_receiverRet hK (D := D) hk (fun _ => 0) (fun _ => 0)
  unfold PkCrypto.aesKey BaseOtDraws.keySeeds BaseOtDraws.keyMtx
  rw [row_loop_copy_from _ _ _ _ _ hk, row_loop_copy_from _ _ _ _ _ hlt]
  funext j
  have := congrFun hrow ⟨j, j.isLt.trans_le K.aesKeyBytes_le_hashBytes⟩
  rw [row_apply, row_apply, Nat.mul_comm k 2] at this
  exact this

variable {P Γ : Type} [DecidableEq P] {D : BaseOtDraws K codeWordBits}

theorem initOTSender_plan (hK : K.Lossless) (keySeeds : Buf Byte) (socket : P) {τ t : Nat}
    (hτ : τ < t) :
    Plan t (K.initOTSender (Γ := Γ) D.choices D.pK keySeeds socket)
      (toOnly socket (stamped τ D.pointsBlock)) (toOnly socket (stamped t D.keysBlock))
      (D.keySeeds keySeeds) t :=
  Plan.map (fun pBuf => loop (fun i keySeeds => copy keySeeds (i * K.aesKeyBytes) pBuf
    (i * K.hashBytes) K.aesKeyBytes) codeWordBits keySeeds)
    (naorPinkasReceiver_plan hK (fun _ => 0) socket hτ)

theorem initOTReceiver_plan (keyMtx : Buf Byte) (socket : P) (t : Nat) :
    Plan t (K.initOTReceiver (Γ := Γ) D.alpha D.tmp keyMtx socket)
      (toOnly socket (stamped (t + 1) D.keysBlock)) (toOnly socket (stamped t D.pointsBlock))
      (D.keyMtx keyMtx) (t + 2) :=
  Plan.map (fun pBuf => loop (fun i keyMtx => copy keyMtx (i * K.aesKeyBytes) pBuf
    (i * K.hashBytes) K.aesKeyBytes) (codeWordBits * 2) keyMtx)
    (naorPinkasSender_plan (fun _ => 0) socket t)

end Seeds

end MultiPartyPSI
