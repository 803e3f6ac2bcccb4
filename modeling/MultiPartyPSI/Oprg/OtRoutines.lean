import MultiPartyPSI.Oprg.OpeMasking

/-!
# The two routines, batch by batch

`OTReceiverRoutine` and `OTSenderRoutine`, and the threads that run them. A thread has a range of
OTs and goes through it in batches of whole blocks; the last batch of a range can be cut in the
middle of a block. The receiver only sends and the sender only receives, each over the
thread's own socket, so a sender thread is run on what its receiver thread sends.

`runs_eq` follows a batch on both sides and then the rest of the range: there is one row for
each OT such that the receiver makes its calls from that row and the sender makes its own from
the row with the code word of the receiver's choice added.
-/

namespace MultiPartyPSI

open Lib Buf

/-- `NUMOTBLOCKS`. -/
abbrev numOtBlocks : Nat := 1024

/-- `REGISTER_BITS`. -/
abbrev registerBits : Nat := 128

/-- `sock->Send(m, n)`: the bytes it adds to the stream. -/
def sendBytes (m : Buf Byte) (n : Nat) : List Byte := (List.range n).map m

/-- `sock->Receive(m, n)`. Without `n` bytes to come it does not return. -/
def receiveBytes (m : Buf Byte) (n : Nat) (stream : List Byte) : Option (Buf Byte × List Byte) :=
  if n ≤ stream.length then
    some (copy m 0 (fun i => stream.getD i 0) 0 n, stream.drop n)
  else none

/-- `processedOTBlocks`, with `i` OTs of `lim` done. -/
def processedOTBlocks (lim i : Nat) : Nat := min numOtBlocks (ceilDivide (lim - i) codeWordBits)

/-- `min(lim-i, OTsPerIteration)`. -/
def processedOTs (lim i : Nat) : Nat := min (lim - i) (processedOTBlocks lim i * codeWordBits)

theorem processedOTs_pos {lim i : Nat} (h : i < lim) : 0 < processedOTs lim i := by
  have hleft : 0 < lim - i := Nat.sub_pos_of_lt h
  have hblocks : 0 < ceilDivide (lim - i) codeWordBits :=
    (lt_ceilDivide_iff (Nat.zero_lt_succ _)).mpr (by rwa [Nat.zero_mul])
  exact Nat.lt_min.mpr ⟨hleft, Nat.mul_pos (Nat.lt_min.mpr ⟨Nat.zero_lt_succ _, hblocks⟩)
    (Nat.zero_lt_succ _)⟩

section Model

variable {Key : Type*} (P : OtCrypto Key)

/-- The loop of `OTReceiverRoutine`: what it sends, and the calls it makes. -/
def receiverLoop (keySeedMtx : Buf Key) (choices : CBitVector) (M : ClientMasking) (lim : Nat)
    (T vSnd : Buf Byte) (ctr i : Nat) : List Byte × List MaskCall :=
  if i < lim then
    let blocks := processedOTBlocks lim i
    let built := buildMatrices P keySeedMtx T vSnd blocks ctr
    let vSnd := generateChoiceCodes P choices built.2.1 i (processedOTs lim i)
    let T := P.eklundhBitTranspose codeWordBits (blocks * codeWordBits) built.1
    let rest := receiverLoop keySeedMtx choices M lim T (fun _ => 0) built.2.2
      (i + processedOTs lim i)
    (sendBytes vSnd (codeWordBytes * (blocks * codeWordBits)) ++ rest.1,
      clientExpand P M T i (processedOTs lim i) ++ rest.2)
  else ([], [])
termination_by lim - i
decreasing_by
  have : 0 < processedOTs lim i := processedOTs_pos (by assumption)
  omega

/-- The loop of `OTSenderRoutine` on a stream: the calls it makes. -/
def senderLoop (keySeeds : Buf Key) (U : Buf Byte) (M : ServerMasking) (lim : Nat)
    (Q vRcv : Buf Byte) (ctr nProgress : Nat) (stream : List Byte) : Option (List MaskCall) :=
  if nProgress < lim then
    let blocks := processedOTBlocks lim nProgress
    (receiveBytes vRcv (blocks * codeWordBits * codeWordBytes) stream).bind fun received =>
      let built := buildQMatrix P keySeeds U Q received.1 blocks ctr
      let Q := P.eklundhBitTranspose codeWordBits (blocks * codeWordBits) built.1
      (senderLoop keySeeds U M lim Q received.1 built.2 (nProgress + processedOTs lim nProgress)
        received.2).map (serverExpand P M Q U nProgress (processedOTs lim nProgress) ++ ·)
  else some []
termination_by lim - nProgress
decreasing_by
  have : 0 < processedOTs lim nProgress := processedOTs_pos (by assumption)
  omega

/-- The OTs of a thread, before the last ones are cut. -/
def myNumOTs (numOTs numThreads : Nat) : Nat :=
  ceilDivide (padToMultiple numOTs registerBits) numThreads

/-- `lim` of thread `id`. A thread that starts behind the end has nothing to do. -/
def threadLim (numOTs myNumOTs id : Nat) : Nat := min (myNumOTs + id * myNumOTs) numOTs

/-- `OTReceiverRoutine`, in an object that has done no OTs yet. -/
def otReceiverRoutine (keySeedMtx : Buf Key) (choices : CBitVector) (M : ClientMasking)
    (numOTs myNumOTs id : Nat) : List Byte × List MaskCall :=
  receiverLoop P keySeedMtx choices M (threadLim numOTs myNumOTs id) (fun _ => 0) (fun _ => 0)
    (id * myNumOTs) (id * myNumOTs)

/-- `OTSenderRoutine`, in an object that has done no OTs yet. -/
def otSenderRoutine (keySeeds : Buf Key) (U : Buf Byte) (M : ServerMasking)
    (numOTs myNumOTs id : Nat) (stream : List Byte) : Option (List MaskCall) :=
  senderLoop P keySeeds U M (threadLim numOTs myNumOTs id) (fun _ => 0) (fun _ => 0)
    (id * myNumOTs) (id * myNumOTs) stream

/-- `receive`: the threads' streams and calls. -/
def receive (keySeedMtx : Buf Key) (choices : CBitVector) (M : ClientMasking)
    (numOTs numThreads : Nat) : List (List Byte × List MaskCall) :=
  if numOTs = 0 then []
  else (List.range numThreads).map
    (otReceiverRoutine P keySeedMtx choices M numOTs (myNumOTs numOTs numThreads))

/-- `send`: the threads' calls, when thread `id` is sent `streams id`. -/
def send (keySeeds : Buf Key) (U : Buf Byte) (M : ServerMasking) (numOTs numThreads : Nat)
    (streams : Nat → List Byte) : Option (List (List MaskCall)) :=
  if numOTs = 0 then some []
  else (List.range numThreads).mapM fun id =>
    otSenderRoutine P keySeeds U M numOTs (myNumOTs numOTs numThreads) id (streams id)

end Model

/-! ## Batches -/

section Batches

/-- A batch fills its blocks, the last one perhaps in part. -/
theorem ceilDivide_processedOTs (lim i : Nat) :
    ceilDivide (processedOTs lim i) codeWordBits = processedOTBlocks lim i := by
  have hrounds : ∀ x t : Nat, t < ceilDivide x codeWordBits ↔ t * codeWordBits < x :=
    fun x t => lt_ceilDivide_iff (by decide)
  refine eq_of_forall_lt_iff fun t => ?_
  rw [hrounds, processedOTs, processedOTBlocks, Nat.lt_min, Nat.lt_min, hrounds,
    Nat.mul_lt_mul_right (by decide), Nat.lt_min, hrounds]
  tauto

/-- What is sent arrives. -/
theorem receiveBytes_sendBytes (m vSnd : Buf Byte) (n : Nat) (rest : List Byte) :
    receiveBytes m n (sendBytes vSnd n ++ rest) = some (copy m 0 vSnd 0 n, rest) := by
  have hlen : (sendBytes vSnd n).length = n := by rw [sendBytes, List.length_map, List.length_range]
  rw [receiveBytes, if_pos (by rw [List.length_append, hlen]; exact Nat.le_add_right _ _),
    List.drop_left' hlen]
  congr 2
  funext i
  rw [copy_apply, copy_apply]
  split
  · next h =>
      have hi : 0 + (i - 0) < (sendBytes vSnd n).length := by omega
      rw [List.getD_eq_getElem?_getD, List.getElem?_append_left hi, sendBytes,
        List.getElem?_map, List.getElem?_range (by omega)]
      rfl
  · rfl

end Batches

/-! ## Runs of a thread -/

section Runs

variable {Key : Type*} {P : OtCrypto Key} {keySeedMtx keySeeds : Buf Key} {U : Buf Byte}
variable {choices : CBitVector} {MC : ClientMasking} {MS : ServerMasking}

/-- The OTs of a batch and the OTs behind it. -/
theorem range'_batch {lim i : Nat} (h : i < lim) :
    List.range' i (lim - i) = List.range' i (processedOTs lim i)
      ++ List.range' (i + processedOTs lim i) (lim - (i + processedOTs lim i)) := by
  have : processedOTs lim i ≤ lim - i := Nat.min_le_left _ _
  rw [List.range'_append_1]
  congr 1
  omega

/-- The rounds of `ClientExpand`, by the numbers of the OTs. -/
theorem clientExpand_eq {matrix : Buf Byte} {rows : Nat → Fin codeWordBytes → Byte} {i n : Nat}
    (h : ∀ j < n, rows (i + j) = row codeWordBytes matrix j) :
    clientExpand P MC matrix i n
      = (List.range' i n).flatMap fun ot => clientMaskOt P MC ot (rows ot) := by
  rw [List.range'_eq_map_range, List.flatMap_map]
  refine List.flatMap_congr fun j hj => ?_
  rw [h j (List.mem_range.mp hj)]

/-- The rounds of `ServerExpand`, by the numbers of the OTs. -/
theorem serverExpand_eq {matrix : Buf Byte} {rows : Nat → Fin codeWordBytes → Byte} {i n : Nat}
    (h : ∀ j < n, rows (i + j) = row codeWordBytes matrix j) :
    serverExpand P MS matrix U i n
      = (List.range' i n).flatMap fun ot => serverMaskOt P MS U ot (rows ot) := by
  rw [List.range'_eq_map_range, List.flatMap_map]
  refine List.flatMap_congr fun j hj => ?_
  rw [h j (List.mem_range.mp hj)]

/-- A batch of the sender, once its bytes are there. -/
theorem senderLoop_step {lim i : Nat} (h : i < lim) (Q vRcv m : Buf Byte) (ctr : Nat)
    (rest : List Byte) :
    senderLoop P keySeeds U MS lim Q vRcv ctr i (sendBytes m
        (codeWordBytes * (processedOTBlocks lim i * codeWordBits)) ++ rest)
      = let received := copy vRcv 0 m 0 (codeWordBytes * (processedOTBlocks lim i * codeWordBits))
        let built := buildQMatrix P keySeeds U Q received (processedOTBlocks lim i) ctr
        let Q' := P.eklundhBitTranspose codeWordBits (processedOTBlocks lim i * codeWordBits)
          built.1
        (senderLoop P keySeeds U MS lim Q' received built.2 (i + processedOTs lim i) rest).map
          (serverExpand P MS Q' U i (processedOTs lim i) ++ ·) := by
  rw [senderLoop, if_pos h]
  dsimp only
  rw [Nat.mul_comm _ codeWordBytes, receiveBytes_sendBytes, Option.bind_some]

/-- The rows of a batch of `n` OTs from `i` on, and the rows of the OTs behind it. -/
def batchRows (T : Buf Byte) (i n : Nat) (rows : Nat → Fin codeWordBytes → Byte) (ot : Nat) :
    Fin codeWordBytes → Byte :=
  if ot < i + n then row codeWordBytes T (ot - i) else rows ot

theorem batchRows_add (T : Buf Byte) (i : Nat) {n j : Nat}
    (rows : Nat → Fin codeWordBytes → Byte) (hj : j < n) :
    batchRows T i n rows (i + j) = row codeWordBytes T j := by
  rw [batchRows, if_pos (by omega), Nat.add_sub_cancel_left]

theorem batchRows_of_mem {T : Buf Byte} {i n k ot : Nat}
    {rows : Nat → Fin codeWordBytes → Byte} (h : ot ∈ List.range' (i + n) k) :
    batchRows T i n rows ot = rows ot := by
  have := (List.mem_range'_1.mp h).1
  rw [batchRows, if_neg (by omega)]

variable (choices MC MS) in
/-- **One range on both sides.** Each OT has a row; the receiver makes its calls from the rows, and
the sender, on what the receiver sends, from the rows with the code words of the choices. -/
theorem exists_rows (hbase : BaseOts keySeedMtx keySeeds U)
    (htr : ∀ n, Transposes (P.eklundhBitTranspose codeWordBits (n * codeWordBits)) codeWordBits
      (n * codeWordBits)) (lim i : Nat) (T vSnd : Buf Byte) (ctr : Nat) :
    ∃ rows : Nat → Fin codeWordBytes → Byte,
      (receiverLoop P keySeedMtx choices MC lim T vSnd ctr i).2
          = (List.range' i (lim - i)).flatMap (fun ot => clientMaskOt P MC ot (rows ot)) ∧
        ∀ Q vRcv rest, senderLoop P keySeeds U MS lim Q vRcv ctr i
            ((receiverLoop P keySeedMtx choices MC lim T vSnd ctr i).1 ++ rest)
          = some ((List.range' i (lim - i)).flatMap fun ot => serverMaskOt P MS U ot (rows ot
            + row codeWordBytes (selectCode U (P.codeWords (choices.getChoice ot))) 0)) := by
  induction hk : lim - i using Nat.strong_induction_on generalizing i T vSnd ctr with
  | _ k ih =>
  subst hk
  by_cases h : i < lim
  · have hpos := processedOTs_pos h
    rw [receiverLoop, if_pos h]
    dsimp only
    generalize hbuilt : buildMatrices P keySeedMtx T vSnd (processedOTBlocks lim i) ctr = built
    generalize hsent : generateChoiceCodes P choices built.2.1 i (processedOTs lim i) = sent
    generalize hT : P.eklundhBitTranspose codeWordBits
      (processedOTBlocks lim i * codeWordBits) built.1 = T'
    -- what is behind this batch is done by the rest of the loop
    obtain ⟨rows, hclient, hserver⟩ := ih (lim - (i + processedOTs lim i)) (by omega)
      (i + processedOTs lim i) T' (fun _ => 0) built.2.2 rfl
    have hbatch := fun j => batchRows_add T' i (n := processedOTs lim i) (j := j) rows
    refine ⟨batchRows T' i (processedOTs lim i) rows, ?_, ?_⟩
    · rw [hclient, range'_batch h, List.flatMap_append, clientExpand_eq hbatch]
      refine congrArg (_ ++ ·) ?_
      exact List.flatMap_congr fun ot hot => by rw [batchRows_of_mem hot]
    · intro Q vRcv rest
      -- the buffer that is received into has the rows that were sent
      have hrcv : ∀ k < codeWordBits, row (32 * processedOTBlocks lim i)
          (copy vRcv 0 sent 0 (codeWordBytes * (processedOTBlocks lim i * codeWordBits))) k
            = row (32 * processedOTBlocks lim i) sent k := fun k hk => row_copy_span _ _ (by
        calc (k + 1) * (32 * processedOTBlocks lim i)
            ≤ codeWordBits * (32 * processedOTBlocks lim i) := Nat.mul_le_mul_right _ hk
          _ = codeWordBytes * (processedOTBlocks lim i * codeWordBits) := by ring)
      have hctr : built.2.2 = ctr + 2 * processedOTBlocks lim i := by rw [← hbuilt]; rfl
      rw [List.append_assoc, senderLoop_step h]
      dsimp only [buildQMatrix]
      rw [← hctr, hserver, Option.map_some, range'_batch h, List.flatMap_append]
      refine congrArg some (congrArg₂ (· ++ ·) ?_ ?_)
      · refine serverExpand_eq fun j hj => ?_
        rw [batchRows_add T' i rows hj]
        subst hsent hT hbuilt
        exact (row_batch hbase htr (ceilDivide_processedOTs lim i) T vSnd Q _ hrcv hj).symm
      · exact List.flatMap_congr fun ot hot => by rw [batchRows_of_mem hot]
  · refine ⟨fun _ => 0, ?_, fun Q vRcv rest => ?_⟩
    · rw [receiverLoop, if_neg h, Nat.sub_eq_zero_of_le (Nat.not_lt.mp h)]
      rfl
    · rw [senderLoop, if_neg h, Nat.sub_eq_zero_of_le (Nat.not_lt.mp h)]
      rfl

end Runs

end MultiPartyPSI
