import MultiPartyPSI.Oprg.CodeWords
import MultiPartyPSI.Oprg.OtThreads
import MultiPartyPSI.Util.EklundhTranspose

/-!
# One OPRG, from the base OTs to the table

`oprg_client` and `oprg_server` as threads, with the transposition and the code words they
really use. The order in which the threads of a party make their calls is whatever it is:
`order` is any reordering of all calls.

`oprgRun_spec` is about what both tables hold behind `evaluate_crf`, if the keys of the two come
from base OTs: the leader's at its full bins and the follower's at all its items are values of
one function of a bin and a value.
-/

namespace MultiPartyPSI

open Lib Buf

section Model

/-- `crypto`, as far as the OPRG uses it. -/
structure OprgCrypto (G : Type*) where
  pk : PkCrypto G
  /-- The block cipher of the key streams. -/
  encrypt : (Fin pk.aesKeyBytes → Byte) → Nat → Buf Byte
  /-- The hash of `OPEMasking`. -/
  maskHash : (Fin (8 + codeWordBytes) → Byte) → Buf Byte
  /-- The block cipher under `const_seed`. -/
  fixedKeyAes : (Fin aesBytes → Byte) → Buf Byte
  /-- `crypto::hash`, for `noutbytes`. -/
  hash : Nat → List Byte → Buf Byte

variable {G : Type*} (C : OprgCrypto G)

/-- The OT extension, with its code and its transposition. -/
def OprgCrypto.ot : OtCrypto (Fin C.pk.aesKeyBytes → Byte) :=
  ⟨C.encrypt, C.maskHash, vCodeWords, eklundhBitTranspose⟩

/-- `fixed_key_aes_hash`. -/
def OprgCrypto.fixedKeyAesHash {ninbytes : Nat} (inbuf : Fin ninbytes → Byte) : Buf Byte :=
  let aesHashInBuf := copy (fill (fun _ => 0) 0 0 aesBytes) 0 (ofRow inbuf) 0 ninbytes
  xorInto (C.fixedKeyAes (row aesBytes aesHashInBuf 0)) 0 aesHashInBuf 0 aesBytes

/-- `evaluate_crf`, with `result` and `masks` the same buffer. -/
def OprgCrypto.evaluateCrf (masks : Buf Byte) (nelements elebytelen : Nat) : Buf Byte :=
  if elebytelen ≤ aesBytes then
    loop (fun i result => copy result (i * elebytelen)
      (C.fixedKeyAesHash (row elebytelen result i)) 0 elebytelen) nelements masks
  else
    loop (fun i result => copy result (i * elebytelen)
      (C.hash elebytelen (List.ofFn (row elebytelen result i))) 0 elebytelen) nelements masks

variable [CommGroup G] {S Γ : Type}

/-- `oprg_client`. -/
def OprgCrypto.oprgClient (alpha : Nat) (tmp : Nat → Nat) (order : List MaskCall → List MaskCall)
    (keyMtx hashTable : Buf Byte) (nbins neles : Nat) (nelesinbin : Buf Nat)
    (elebitlen maskbytelen nthreads : Nat) (resBuf : Buf Byte) (sock : Nat → S) :
    Thread S (Byte ⊕ Γ) (Buf Byte) :=
  let numOTs := nbins * ceilDivide elebitlen 8 % 2 ^ 32
  (C.pk.initOTReceiver alpha tmp keyMtx (sock 0)).thread.bind fun keyMtx =>
  (receiveThreads C.ot (C.pk.aesKey keyMtx) (clientChoices hashTable numOTs)
    (clientMasking elebitlen nbins nelesinbin) numOTs nthreads sock).bind fun threads =>
  .ret (C.evaluateCrf (xorMaskCalls maskbytelen (order threads.flatten)
    ⟨fill resBuf 0 0 (neles * maskbytelen), neles * maskbytelen⟩).bits neles maskbytelen)

/-- `oprg_server`. -/
def OprgCrypto.oprgServer (choices : Buf Byte) (pK : Nat → Nat)
    (order : List MaskCall → List MaskCall) (keySeeds hashTable : Buf Byte)
    (nbins totaleles : Nat) (nelesinbin : Buf Nat) (elebitlen maskbytelen nthreads : Nat)
    (resBuf : Buf Byte) (sock : Nat → S) : Thread S (Byte ⊕ Γ) (Buf Byte) :=
  let numOTs := nbins * ceilDivide elebitlen 8 % 2 ^ 32
  (C.pk.initOTSender choices pK keySeeds (sock 0)).thread.bind fun keySeeds =>
  (sendThreads C.ot (C.pk.aesKey keySeeds) choices (serverMasking elebitlen maskbytelen nbins
    nelesinbin ⟨hashTable, totaleles * ceilDivide elebitlen 8⟩) numOTs nthreads sock).bind
    fun threads =>
  .ret (C.evaluateCrf (xorMaskCalls maskbytelen (order threads.flatten)
    ⟨fill resBuf 0 0 (totaleles * maskbytelen), totaleles * maskbytelen⟩).bits totaleles
    maskbytelen)

end Model

/-! ## `evaluate_crf` -/

section Crf

variable {G : Type*} {C : OprgCrypto G}

/-- What `evaluate_crf` makes of one mask. -/
def OprgCrypto.crf (C : OprgCrypto G) {w : Nat} (r : Fin w → Byte) : Fin w → Byte :=
  row w (if w ≤ aesBytes then C.fixedKeyAesHash r else C.hash w (List.ofFn r)) 0

/-- A loop that rewrites row after row, each from itself. -/
theorem row_loop_rewrite {w : Nat} (f : (Fin w → Byte) → Buf Byte) (m : Buf Byte) {n k : Nat}
    (hk : k < n) :
    row w (loop (fun i result => copy result (i * w) (f (row w result i)) 0 w) n m) k
      = row w (f (row w m k)) 0 := by
  have h := loop_induct (P := fun i (result : Buf Byte) => ∀ k, row w result k
      = if k < i then row w (f (row w m k)) 0 else row w m k)
    (f := fun i result => copy result (i * w) (f (row w result i)) 0 w) (s := m) n
    (fun k => by rw [if_neg (Nat.not_lt_zero k)]) ?_ k
  · rw [h, if_pos hk]
  · intro i result _ hresult k
    have hcopy : copy result (i * w) (f (row w result i)) 0 w
        = copy result (i * w) (f (row w result i)) (0 * w) w := by rw [Nat.zero_mul]
    rw [hcopy]
    by_cases hki : k = i
    · subst hki
      rw [row_copy_same, hresult, if_neg (Nat.lt_irrefl k), if_pos (Nat.lt_succ_self k)]
    · rw [row_copy_ne _ _ _ _ hki, hresult]
      exact if_congr (by omega) rfl rfl

theorem row_evaluateCrf (masks : Buf Byte) {w n i : Nat} (hi : i < n) :
    row w (C.evaluateCrf masks n w) i = C.crf (row w masks i) := by
  unfold OprgCrypto.evaluateCrf OprgCrypto.crf
  split
  · exact row_loop_rewrite C.fixedKeyAesHash masks hi
  · exact row_loop_rewrite (fun r => C.hash w (List.ofFn r)) masks hi

variable {V : Type*} {w nbins : Nat} {F : Nat → V → Fin w → Byte} {hashTable : Buf V}
variable {nelesinbin : Buf Nat} {res : Buf Byte}

/-- Both tables are evaluated alike. -/
theorem ClientResults.evaluateCrf {neles : Nat} (h : ClientResults F nbins hashTable nelesinbin res)
    (hneles : ∑ i ∈ Finset.range nbins, nelesinbin i ≤ neles) :
    ClientResults (fun b v => C.crf (F b v)) nbins hashTable nelesinbin
      (C.evaluateCrf res neles w) := by
  intro b hb hfull
  have hpos : binToResult nbins nelesinbin b < neles :=
    (runningSum_add_lt hb hfull).trans_le hneles
  rw [row_evaluateCrf _ hpos, h b hb hfull]

theorem ServerResults.evaluateCrf {totaleles : Nat}
    (h : ServerResults F nbins hashTable nelesinbin res)
    (htotal : ∑ i ∈ Finset.range nbins, nelesinbin i ≤ totaleles) :
    ServerResults (fun b v => C.crf (F b v)) nbins hashTable nelesinbin
      (C.evaluateCrf res totaleles w) := by
  intro b hb u hu
  have hpos : startingPosForBin nbins nelesinbin b + u < totaleles :=
    (runningSum_add_lt hb hu).trans_le htotal
  rw [row_evaluateCrf _ hpos, h b hb u hu]

end Crf

/-! ## Both sides -/

/-- What a leader and a follower bring to one OPRG with fewer than `2 ^ 29` OTs. The buffers are
whatever they are, and so is the order of the calls. -/
structure OprgPair {G : Type*} [CommGroup G] (C : OprgCrypto G) where
  draws : BaseOtDraws C.pk codeWordBits
  nbins : Nat
  elebitlen : Nat
  maskbytelen : Nat
  nthreads : Nat
  neles : Nat
  totaleles : Nat
  clientTable : Buf Byte
  serverTable : Buf Byte
  clientBins : Buf Nat
  serverBins : Buf Nat
  keyMtx : Buf Byte
  keySeeds : Buf Byte
  clientBuf : Buf Byte
  serverBuf : Buf Byte
  clientOrder : List MaskCall → List MaskCall
  serverOrder : List MaskCall → List MaskCall
  numOTs_lt : nbins * ceilDivide elebitlen 8 < 2 ^ 29
  clientBins_le : ∑ i ∈ Finset.range nbins, clientBins i ≤ neles
  serverBins_le : ∑ i ∈ Finset.range nbins, serverBins i ≤ totaleles
  clientOrder_perm : ∀ calls, (clientOrder calls).Perm calls
  serverOrder_perm : ∀ calls, (serverOrder calls).Perm calls

namespace OprgPair

variable {G : Type*} [CommGroup G] {C : OprgCrypto G} (O : OprgPair C) {S Γ : Type}

/-- The leader's thread. -/
def client (sock : Nat → S) : Thread S (Byte ⊕ Γ) (Buf Byte) :=
  C.oprgClient O.draws.alpha O.draws.tmp O.clientOrder O.keyMtx O.clientTable O.nbins O.neles
    O.clientBins O.elebitlen O.maskbytelen O.nthreads O.clientBuf sock

/-- The follower's thread. -/
def server (sock : Nat → S) : Thread S (Byte ⊕ Γ) (Buf Byte) :=
  C.oprgServer O.draws.choices O.draws.pK O.serverOrder O.keySeeds O.serverTable O.nbins
    O.totaleles O.serverBins O.elebitlen O.maskbytelen O.nthreads O.serverBuf sock

/-- What the leader's threads send, and the calls they make. -/
def clientThreads : List (List Byte × List MaskCall) :=
  oprgClient C.ot (C.pk.aesKey (O.draws.keyMtx O.keyMtx)) O.clientTable O.nbins O.clientBins
    O.elebitlen O.nthreads

/-- The calls of the follower's threads, if they return. -/
def serverCalls : Option (List (List MaskCall)) :=
  oprgServer C.ot (C.pk.aesKey (O.draws.keySeeds O.keySeeds)) O.draws.choices O.serverTable
    O.nbins O.totaleles O.serverBins O.elebitlen O.maskbytelen O.nthreads
    (streamOf O.clientThreads)

/-- The leader's table. -/
def clientRes : Buf Byte :=
  C.evaluateCrf (xorMaskCalls O.maskbytelen (O.clientOrder (O.clientThreads.map Prod.snd).flatten)
    ⟨fill O.clientBuf 0 0 (O.neles * O.maskbytelen), O.neles * O.maskbytelen⟩).bits O.neles
    O.maskbytelen

/-- The follower's table. -/
def serverRes : Buf Byte :=
  C.evaluateCrf (xorMaskCalls O.maskbytelen (O.serverOrder (O.serverCalls.getD []).flatten)
    ⟨fill O.serverBuf 0 0 (O.totaleles * O.maskbytelen), O.totaleles * O.maskbytelen⟩).bits
    O.totaleles O.maskbytelen

/-- The function of a bin and a value that both evaluate, from the rows of the sender. -/
def value (rows : Nat → Fin codeWordBytes → Byte) (b : Nat)
    (v : Fin (ceilDivide O.elebitlen 8) → Byte) : Fin O.maskbytelen → Byte :=
  C.crf (MultiPartyPSI.oprg C.ot O.draws.choices rows O.maskbytelen
    (otsDone (O.nbins * ceilDivide O.elebitlen 8) O.nthreads) (ceilDivide O.elebitlen 8) b v)

/-- **The two tables hold one function**, and the follower's threads return. -/
theorem results (hK : C.pk.Lossless) :
    O.serverCalls.isSome ∧ ∃ rows : Nat → Fin codeWordBytes → Byte,
      ClientResults (O.value rows) O.nbins (row (ceilDivide O.elebitlen 8) O.clientTable)
        O.clientBins O.clientRes ∧
      ServerResults (O.value rows) O.nbins (row (ceilDivide O.elebitlen 8) O.serverTable)
        O.serverBins O.serverRes := by
  have htr : ∀ n, Transposes (C.ot.eklundhBitTranspose codeWordBits (n * codeWordBits))
      codeWordBits (n * codeWordBits) := fun n =>
    eklundhBitTranspose_transposes (n := 8) (by decide) n
  obtain ⟨threads, hthreads, rows, hclient, hserver⟩ := oprg_results (P := C.ot) O.elebitlen
    O.maskbytelen O.nthreads O.clientTable O.serverTable O.numOTs_lt
    (O.draws.baseOts hK O.keySeeds O.keyMtx) htr O.clientBins_le O.serverBins_le
  have hsome : O.serverCalls = some threads := hthreads
  refine ⟨by rw [hsome]; rfl, rows, ?_, ?_⟩
  · exact (hclient O.clientBuf _ ⟨_, O.clientOrder_perm _, rfl⟩).evaluateCrf O.clientBins_le
  · rw [serverRes, hsome, Option.getD_some]
    exact (hserver O.serverBuf _ ⟨_, O.serverOrder_perm _, rfl⟩).evaluateCrf O.serverBins_le

variable [DecidableEq S] {sock : Nat → S}

/-- The leader's side of the scenario, from time `t` on. -/
theorem client_course (hsock : Function.Injective sock) (t : Nat) :
    ∃ k, Course t (O.client (Γ := Γ) sock) (toOnly (sock 0) (stamped (t + 1) O.draws.keysBlock))
      (fun s => toOnly (sock 0) (stamped t O.draws.pointsBlock) s
        ++ onSockets sock O.nthreads (fun id => stamped (t + 2) (streamOf O.clientThreads id)) s)
      O.clientRes (t + 2) k := by
  obtain ⟨k₁, hbase⟩ := (initOTReceiver_plan (Γ := Γ) (D := O.draws) O.keyMtx (sock 0) t).course
  obtain ⟨k₂, hots⟩ := receiveThreads_course (P := C.ot) (Γ := Γ) hsock
    (C.pk.aesKey (O.draws.keyMtx O.keyMtx))
    (clientChoices O.clientTable (O.nbins * ceilDivide O.elebitlen 8 % 2 ^ 32))
    (clientMasking O.elebitlen O.nbins O.clientBins) (O.nbins * ceilDivide O.elebitlen 8 % 2 ^ 32)
    O.nthreads (t + 2)
  exact ⟨_, (Course.bind hbase (hots.map fun threads => C.evaluateCrf (xorMaskCalls O.maskbytelen
    (O.clientOrder threads.flatten) ⟨fill O.clientBuf 0 0 (O.neles * O.maskbytelen),
      O.neles * O.maskbytelen⟩).bits O.neles O.maskbytelen)).congr
    (fun s => List.append_nil _) fun _ => rfl⟩

/-- The follower's side. -/
theorem server_course (hK : C.pk.Lossless) (hsock : Function.Injective sock) {τ t τ' : Nat}
    (hτ : τ < t) (ht : t ≤ τ') :
    ∃ k, Course t (O.server (Γ := Γ) sock)
      (fun s => toOnly (sock 0) (stamped τ O.draws.pointsBlock) s
        ++ onSockets sock O.nthreads (fun id => stamped τ' (streamOf O.clientThreads id)) s)
      (toOnly (sock 0) (stamped t O.draws.keysBlock)) O.serverRes (τ' + 1) k := by
  obtain ⟨threads, hthreads⟩ := Option.isSome_iff_exists.mp (O.results hK).1
  obtain ⟨k₁, hbase⟩ := (initOTSender_plan (Γ := Γ) hK (D := O.draws) O.keySeeds (sock 0) hτ).course
  obtain ⟨k₂, hots⟩ := sendThreads_course (Γ := Γ) hsock (Nat.lt_succ_self τ') hthreads
  have hres := (hots.map fun threads => C.evaluateCrf (xorMaskCalls O.maskbytelen
    (O.serverOrder threads.flatten) ⟨fill O.serverBuf 0 0 (O.totaleles * O.maskbytelen),
      O.totaleles * O.maskbytelen⟩).bits O.totaleles O.maskbytelen).mono
    (ht.trans (Nat.le_succ τ'))
  rw [serverRes, hthreads, Option.getD_some]
  exact ⟨_, Course.congr (Course.bind hbase hres) (fun _ => rfl) fun s => List.append_nil _⟩

end OprgPair

end MultiPartyPSI
