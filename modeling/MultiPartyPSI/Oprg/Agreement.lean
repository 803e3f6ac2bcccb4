import MultiPartyPSI.Oprg.OtRoutines

/-!
# Both parties evaluate the same function

`oprg_client` and `oprg_server`, up to `evaluate_crf`. The threads of a party share the table of
results and nothing else, and what a thread does to the table is to XOR masks into it, so a
table is the result of all the calls in some order.

`oprg_masks` names the function: the mask of a value in a bin is the sum of the hashes of
the bin's OTs, each of the sender's row with the code word of one byte of the value added. The
follower's table holds it at the follower's values, and the leader's at what the receiver reads
of the leader's. Up to `2 ^ 29` OTs these are the leader's values; from there on a position in bits
is no `uint32_t`, and `oprg_agreement_iff` says that the parties do not agree any more.
-/

namespace MultiPartyPSI

open Lib Buf

variable {Key : Type*}

section Model

variable (P : OtCrypto Key)

/-- `choices`, attached to the table. `numOTs * 8` is a `uint32_t`. -/
def clientChoices (hashTable : Buf Byte) (numOTs : Nat) : CBitVector :=
  ⟨hashTable, ceilDivide (numOTs * 8 % 2 ^ 32) 8⟩

/-- `oprg_client`: what its threads send, and the calls they make. -/
def oprgClient (keySeedMtx : Buf Key) (hashTable : Buf Byte) (nbins : Nat) (nelesinbin : Buf Nat)
    (elebitlen nthreads : Nat) : List (List Byte × List MaskCall) :=
  let numOTs := nbins * ceilDivide elebitlen 8 % 2 ^ 32
  receive P keySeedMtx (clientChoices hashTable numOTs) (clientMasking elebitlen nbins nelesinbin)
    numOTs nthreads

/-- `oprg_server`, when thread `id` is sent `streams id`: the calls its threads make. -/
def oprgServer (keySeeds : Buf Key) (baseOTchoices hashTable : Buf Byte)
    (nbins totaleles : Nat) (nelesinbin : Buf Nat) (elebitlen maskbytelen nthreads : Nat)
    (streams : Nat → List Byte) : Option (List (List MaskCall)) :=
  let numOTs := nbins * ceilDivide elebitlen 8 % 2 ^ 32
  send P keySeeds baseOTchoices (serverMasking elebitlen maskbytelen nbins nelesinbin
    ⟨hashTable, totaleles * ceilDivide elebitlen 8⟩) numOTs nthreads streams

/-- The stream over socket `id`. -/
def streamOf (threads : List (List Byte × List MaskCall)) (id : Nat) : List Byte :=
  (threads.map Prod.fst).getD id []

/-- `res` is `resBuf` behind the calls of all threads, one after another. -/
def ResultingMasks (maskbytelen neles : Nat) (threads : List (List MaskCall))
    (resBuf res : Buf Byte) : Prop :=
  ∃ order : List MaskCall, order.Perm threads.flatten ∧
    res = (xorMaskCalls maskbytelen order
      ⟨fill resBuf 0 0 (neles * maskbytelen), neles * maskbytelen⟩).bits

end Model

/-! ## The threads' ranges -/

section Threads

/-- The OTs that get done: all of them, if there is a thread. -/
def otsDone (numOTs numThreads : Nat) : Nat := min (numThreads * myNumOTs numOTs numThreads) numOTs

/-- The ranges of the threads, one behind the other. -/
theorem flatMap_threads (numOTs my k : Nat) :
    ((List.range k).flatMap fun id => List.range' (id * my) (threadLim numOTs my id - id * my))
      = List.range (min (k * my) numOTs) := by
  induction k with
  | zero => rw [Nat.zero_mul, Nat.zero_min]; rfl
  | succ k ih =>
      rw [List.range_succ, List.flatMap_append, ih, List.flatMap_singleton, threadLim,
        List.range_eq_range', List.range_eq_range', Nat.succ_mul, Nat.add_comm my]
      rcases Nat.le_total (k * my) numOTs with h | h
      · rw [Nat.min_eq_left h]
        have := List.range'_append_1 (s := 0) (m := k * my) (n := min (k * my + my) numOTs - k * my)
        rw [Nat.zero_add] at this
        rw [this]
        congr 1
        omega
      · -- the thread starts behind the end
        rw [Nat.min_eq_right h, Nat.min_eq_right (Nat.le_trans h (Nat.le_add_right _ _)),
          Nat.sub_eq_zero_of_le h, List.range'_zero, List.append_nil]

/-- The thread of an OT. -/
theorem div_of_mem_thread {numOTs my id ot : Nat}
    (h : ot ∈ List.range' (id * my) (threadLim numOTs my id - id * my)) : ot / my = id := by
  have hmem := List.mem_range'_1.mp h
  have hlim : threadLim numOTs my id ≤ my + id * my := Nat.min_le_left _ _
  refine Nat.div_eq_of_lt_le hmem.1 ?_
  rw [Nat.succ_mul]
  omega

theorem mapM_eq_some {α β : Type*} {f : α → Option β} {g : α → β} {l : List α}
    (h : ∀ a ∈ l, f a = some (g a)) : l.mapM f = some (l.map g) := by
  induction l with
  | nil => rfl
  | cons a l ih =>
      rw [List.mapM_cons, h a List.mem_cons_self, ih fun b hb => h b (List.mem_cons_of_mem a hb)]
      rfl

variable {P : OtCrypto Key} {keySeedMtx keySeeds : Buf Key} {U : Buf Byte}
variable {choices : CBitVector} {MC : ClientMasking} {MS : ServerMasking}

variable (choices MC MS) in
/-- All threads of both parties: there is a row for each OT that is done. -/
theorem exists_rows_threads (hbase : BaseOts keySeedMtx keySeeds U)
    (htr : ∀ n, Transposes (P.eklundhBitTranspose codeWordBits (n * codeWordBits)) codeWordBits
      (n * codeWordBits)) (numOTs numThreads : Nat) :
    ∃ rows : Nat → Fin codeWordBytes → Byte,
      ((receive P keySeedMtx choices MC numOTs numThreads).map Prod.snd).flatten
          = (List.range (otsDone numOTs numThreads)).flatMap
            (fun ot => clientMaskOt P MC ot (rows ot)) ∧
        ∃ threads, send P keySeeds U MS numOTs numThreads
            (streamOf (receive P keySeedMtx choices MC numOTs numThreads)) = some threads ∧
          threads.flatten = (List.range (otsDone numOTs numThreads)).flatMap
            fun ot => serverMaskOt P MS U ot (rows ot
              + row codeWordBytes (selectCode U (P.codeWords (choices.getChoice ot))) 0) := by
  by_cases h0 : numOTs = 0
  · subst h0
    refine ⟨fun _ => 0, ?_, [], ?_, ?_⟩
    · rw [receive, if_pos rfl, otsDone, Nat.min_zero]
      rfl
    · rw [send, if_pos rfl]
    · rw [otsDone, Nat.min_zero]
      rfl
  · generalize hmy : myNumOTs numOTs numThreads = my
    -- the rows of each thread, over its own range of OTs
    have hthread := fun id => exists_rows choices MC MS hbase htr
      (threadLim numOTs my id) (id * my) (fun _ => 0) (fun _ => 0) (id * my)
    choose rows hclient hserver using hthread
    rw [receive, if_neg h0, send, if_neg h0, otsDone, hmy, ← flatMap_threads]
    have hsend : ∀ id ∈ List.range numThreads, otSenderRoutine P keySeeds U MS numOTs my id
        (streamOf ((List.range numThreads).map
          (otReceiverRoutine P keySeedMtx choices MC numOTs my)) id)
          = some ((List.range' (id * my) (threadLim numOTs my id - id * my)).flatMap fun ot =>
            serverMaskOt P MS U ot (rows id ot
              + row codeWordBytes (selectCode U (P.codeWords (choices.getChoice ot))) 0)) := by
      intro id hid
      -- a sender thread reads what the receiver thread of the same number has sent
      have hstream : streamOf ((List.range numThreads).map
          (otReceiverRoutine P keySeedMtx choices MC numOTs my)) id
            = (otReceiverRoutine P keySeedMtx choices MC numOTs my id).1 ++ [] := by
        rw [streamOf, List.map_map, List.getD_eq_getElem?_getD, List.getElem?_map,
          List.getElem?_range (List.mem_range.mp hid), List.append_nil]
        rfl
      rw [hstream]
      exact hserver id _ _ []
    have hrow : ∀ id, ∀ ot ∈ List.range' (id * my) (threadLim numOTs my id - id * my),
        rows id ot = rows (ot / my) ot := fun id ot hot => by rw [div_of_mem_thread hot]
    refine ⟨fun ot => rows (ot / my) ot, ?_, _, mapM_eq_some hsend, ?_⟩
    · rw [List.map_map, List.flatMap_assoc, ← List.flatMap_def]
      refine List.flatMap_congr fun id _ => (hclient id).trans ?_
      exact List.flatMap_congr fun ot hot => by rw [hrow id ot hot]
    · rw [List.flatMap_assoc, ← List.flatMap_def]
      refine List.flatMap_congr fun id _ => ?_
      exact List.flatMap_congr fun ot hot => by rw [hrow id ot hot]

end Threads

/-! ## What the receiver reads -/

section Choices

/-- A table as the receiver reads its choices from it. -/
def CBitVector.readChoices (choices : CBitVector) : Buf Byte :=
  fun otid => XorVec.ofBits (BitVec.ofNat 8 (choices.getChoice otid))

theorem CBitVector.toNat_readChoices (choices : CBitVector) (otid : Nat) :
    (choices.readChoices otid).toBits.toNat = choices.getChoice otid := by
  rw [readChoices, XorVec.toBits_ofBits, BitVec.toNat_ofNat]
  exact Nat.mod_eq_of_lt (CBitVector.get8_lt choices _)

/-- **Positions wrap around at `2 ^ 29`**, and so does the end of the table, behind which a choice
is zero. -/
theorem readChoices_clientChoices (hashTable : Buf Byte) (numOTs otid : Nat) :
    (clientChoices hashTable numOTs).readChoices otid
      = if otid % 2 ^ 29 < numOTs % 2 ^ 29 then hashTable (otid % 2 ^ 29) else 0 := by
  have hpos : otid * 8 % 2 ^ 32 / 8 = otid % 2 ^ 29 := by omega
  have hsize : (clientChoices hashTable numOTs).size = numOTs % 2 ^ 29 := by
    show ceilDivide (numOTs * 8 % 2 ^ 32) 8 = numOTs % 2 ^ 29
    rw [ceilDivide_eight]
    omega
  rw [CBitVector.readChoices, CBitVector.getChoice, hpos]
  split
  · next h =>
      rw [CBitVector.get8_eq (h.trans_eq hsize.symm)]
      exact BitVec.ofNat_toNat 8 (hashTable (otid % 2 ^ 29)).toBits |>.trans
        (BitVec.setWidth_eq _)
  · next h =>
      rw [CBitVector.get8, if_pos (by rw [hsize, Nat.shiftLeft_eq]; omega)]
      rfl

/-- With fewer OTs the receiver reads the table. -/
theorem row_readChoices (hashTable : Buf Byte) {nbins n b : Nat} (hlt : nbins * n < 2 ^ 29)
    (hb : b < nbins) :
    row n (clientChoices hashTable (nbins * n)).readChoices b = row n hashTable b := by
  funext j
  have hcell := row_cell_lt hb j.isLt
  rw [row_apply, row_apply, readChoices_clientChoices, Nat.mod_eq_of_lt (hcell.trans hlt),
    Nat.mod_eq_of_lt hlt, if_pos hcell]

end Choices

/-! ## The function -/

section Agreement

/-- The mask of value `v` in bin `b`, from the sender's rows. -/
def oprg (P : OtCrypto Key) (U : Buf Byte) (rows : Nat → Fin codeWordBytes → Byte)
    (maskbytelen numOTs otsPerElement : Nat) (b : Nat) (v : Fin otsPerElement → Byte) :
    Fin maskbytelen → Byte :=
  ∑ ot ∈ Finset.range numOTs, if ot / otsPerElement = b then
    otMask P maskbytelen ot (rows ot + row codeWordBytes
      (selectCode U (P.codeWords (ofRow v (ot % otsPerElement)).toBits.toNat)) 0)
  else 0

/-- A mask of the table, from all calls made on it. -/
theorem ResultingMasks.row_eq {w neles r : Nat} {threads : List (List MaskCall)}
    {resBuf res : Buf Byte} (h : ResultingMasks w neles threads resBuf res)
    (hin : ∀ c ∈ threads.flatten, c.index < neles) (hr : r < neles) :
    row w res r = maskSum w threads.flatten r := by
  obtain ⟨order, hperm, rfl⟩ := h
  have hreset : row w (fill resBuf 0 0 (neles * w)) r = 0 := by
    funext j
    have := row_cell_lt hr j.isLt
    rw [row_apply, fill_apply, if_pos (by omega)]
    rfl
  rw [row_xorMaskCalls (fun c hc => hin c (hperm.mem_iff.mp hc)) rfl, hreset, zero_add,
    maskSum_perm hperm]

variable {P : OtCrypto Key} {U : Buf Byte} {rows : Nat → Fin codeWordBytes → Byte}
variable {elebitlen w nbins numOTs : Nat} {nelesinbin : Buf Nat}

/-- The bin of an OT is one of the bins. -/
theorem bin_lt {n : Nat} (hots : numOTs ≤ nbins * n) {ot : Nat} (h : ot < numOTs) :
    ot / n < nbins := Nat.div_lt_of_lt_mul (by
  rw [Nat.mul_comm]
  exact h.trans_le hots)

/-- If there is an OT then there is one for each element. -/
theorem otsPerElement_pos {n : Nat} (hots : numOTs ≤ nbins * n) {ot : Nat} (h : ot < numOTs) :
    0 < n := by
  rcases Nat.eq_zero_or_pos n with rfl | hn
  · rw [Nat.mul_zero] at hots
    exact absurd (h.trans_le hots) (Nat.not_lt_zero ot)
  · exact hn

/-- **The client's calls at the position of a full bin sum up to the mask of the value that is
read for it.** -/
theorem maskSum_client (hots : numOTs ≤ nbins * ceilDivide elebitlen 8) (choices : CBitVector)
    {b : Nat} (hb : b < nbins) (hfull : 0 < nelesinbin b) :
    maskSum w ((List.range numOTs).flatMap fun ot =>
        clientMaskOt P (clientMasking elebitlen nbins nelesinbin) ot
          (rows ot + row codeWordBytes (selectCode U (P.codeWords (choices.getChoice ot))) 0))
        (binToResult nbins nelesinbin b)
      = oprg P U rows w numOTs (ceilDivide elebitlen 8) b
        (row (ceilDivide elebitlen 8) choices.readChoices b) := by
  rw [maskSum_flatMap, oprg]
  refine Finset.sum_congr rfl fun ot hot => ?_
  have hot := Finset.mem_range.mp hot
  have hn := otsPerElement_pos hots hot
  rw [maskSum_clientMaskOt]
  by_cases h : ot / ceilDivide elebitlen 8 = b
  · have hbyte : choices.getChoice ot
        = (ofRow (row (ceilDivide elebitlen 8) choices.readChoices b)
          (ot % ceilDivide elebitlen 8)).toBits.toNat := by
      rw [ofRow_row _ _ (Nat.mod_lt ot hn), ← h, Nat.mul_comm, Nat.div_add_mod,
        CBitVector.toNat_readChoices]
    rw [if_pos h, hbyte]
    exact if_pos ⟨by rw [← h] at hfull; exact hfull, by rw [← h]; rfl⟩
  · -- another bin adds nothing at this position
    rw [if_neg h]
    refine if_neg fun hc => h ?_
    exact (runningSum_inj (bin_lt hots hot) hb hc.1 hfull hc.2).1

/-- **The server's calls at the position of an item sum up to the mask of its value.** -/
theorem maskSum_server (hots : numOTs ≤ nbins * ceilDivide elebitlen 8) {choices : CBitVector}
    {totaleles : Nat} (htotal : ∑ i ∈ Finset.range nbins, nelesinbin i ≤ totaleles)
    (hsize : choices.size = totaleles * ceilDivide elebitlen 8) {b u : Nat} (hb : b < nbins)
    (hu : u < nelesinbin b) :
    maskSum w ((List.range numOTs).flatMap fun ot =>
        serverMaskOt P (serverMasking elebitlen w nbins nelesinbin choices) U ot (rows ot))
        (startingPosForBin nbins nelesinbin b + u)
      = oprg P U rows w numOTs (ceilDivide elebitlen 8) b
        (row (ceilDivide elebitlen 8) choices.bits (startingPosForBin nbins nelesinbin b + u)) := by
  rw [maskSum_flatMap, oprg]
  refine Finset.sum_congr rfl fun ot hot => ?_
  have hot := Finset.mem_range.mp hot
  have hn := otsPerElement_pos hots hot
  have hlt : startingPosForBin nbins nelesinbin b + u < totaleles :=
    (runningSum_add_lt hb hu).trans_le htotal
  have hone : maskSum w (serverMaskOt P (serverMasking elebitlen w nbins nelesinbin choices) U ot
      (rows ot)) (startingPosForBin nbins nelesinbin b + u)
        = ∑ u' ∈ Finset.range (nelesinbin (ot / ceilDivide elebitlen 8)),
          if startingPosForBin nbins nelesinbin (ot / ceilDivide elebitlen 8) + u'
              = startingPosForBin nbins nelesinbin b + u then
            otMask P w ot (rows ot + row codeWordBytes (selectCode U (P.codeWords
              (serverChoice (serverMasking elebitlen w nbins nelesinbin choices) ot u'))) 0)
          else 0 :=
    maskSum_serverMaskOt (serverMasking elebitlen w nbins nelesinbin choices) U ot (rows ot) _
  rw [hone]
  by_cases h : ot / ceilDivide elebitlen 8 = b
  · subst h
    have hmod := Nat.mod_lt ot hn
    have hbyte : serverChoice (serverMasking elebitlen w nbins nelesinbin choices) ot u
        = (ofRow (row (ceilDivide elebitlen 8) choices.bits
          (startingPosForBin nbins nelesinbin (ot / ceilDivide elebitlen 8) + u))
          (ot % ceilDivide elebitlen 8)).toBits.toNat := by
      rw [ofRow_row _ _ hmod, ← CBitVector.get8_eq (v := choices)]
      · dsimp only [serverChoice, serverMasking]
        congr 1
        ring
      · rw [hsize]
        exact row_cell_lt hlt hmod
    -- of the items in the bin only this one is at its position
    rw [if_pos rfl, ← hbyte, Finset.sum_eq_single u]
    · exact if_pos rfl
    · intro u' _ hne
      exact if_neg fun hc => hne (Nat.add_left_cancel hc)
    · intro hnot
      exact absurd (Finset.mem_range.mpr hu) hnot
  · rw [if_neg h]
    refine Finset.sum_eq_zero fun u' hu' => if_neg fun hc => h ?_
    exact (runningSum_inj (bin_lt hots hot) hb (Finset.mem_range.mp hu') hu hc).1

variable {keySeedMtx keySeeds : Buf Key} {neles totaleles : Nat} {clientBins serverBins : Buf Nat}
variable (nthreads : Nat) (clientTable serverTable : Buf Byte)
variable (elebitlen w)

/-- **What an OPRG run leaves on both sides.** The sender's threads all return, and whatever
the order of the calls, the two tables hold masks of one function. -/
theorem oprg_masks (hsize : nbins * ceilDivide elebitlen 8 < 2 ^ 32)
    (hbase : BaseOts keySeedMtx keySeeds U)
    (htr : ∀ n, Transposes (P.eklundhBitTranspose codeWordBits (n * codeWordBits)) codeWordBits
      (n * codeWordBits))
    (hneles : ∑ i ∈ Finset.range nbins, clientBins i ≤ neles)
    (htotal : ∑ i ∈ Finset.range nbins, serverBins i ≤ totaleles) :
    ∃ serverThreads, oprgServer P keySeeds U serverTable nbins totaleles serverBins elebitlen w
        nthreads (streamOf (oprgClient P keySeedMtx clientTable nbins clientBins elebitlen
          nthreads)) = some serverThreads ∧
      ∃ rows : Nat → Fin codeWordBytes → Byte,
        (∀ resBuf res, ResultingMasks w neles ((oprgClient P keySeedMtx clientTable nbins
            clientBins elebitlen nthreads).map Prod.snd) resBuf res →
          ClientResults (oprg P U rows w (otsDone (nbins * ceilDivide elebitlen 8) nthreads)
            (ceilDivide elebitlen 8)) nbins (row (ceilDivide elebitlen 8)
              (clientChoices clientTable (nbins * ceilDivide elebitlen 8)).readChoices)
            clientBins res) ∧
        (∀ resBuf res, ResultingMasks w totaleles serverThreads resBuf res →
          ServerResults (oprg P U rows w (otsDone (nbins * ceilDivide elebitlen 8) nthreads)
            (ceilDivide elebitlen 8)) nbins (row (ceilDivide elebitlen 8) serverTable)
            serverBins res) := by
  generalize hchoices : clientChoices clientTable (nbins * ceilDivide elebitlen 8) = choices
  obtain ⟨rows, hclient, serverThreads, hsend, hserver⟩ := exists_rows_threads choices
    (clientMasking elebitlen nbins clientBins) (serverMasking elebitlen w nbins serverBins
      ⟨serverTable, totaleles * ceilDivide elebitlen 8⟩) hbase htr
      (nbins * ceilDivide elebitlen 8) nthreads
  have hcalls : oprgClient P keySeedMtx clientTable nbins clientBins elebitlen nthreads
      = receive P keySeedMtx choices (clientMasking elebitlen nbins clientBins)
        (nbins * ceilDivide elebitlen 8) nthreads := by
    rw [oprgClient, Nat.mod_eq_of_lt hsize, hchoices]
  have hserve : ∀ streams, oprgServer P keySeeds U serverTable nbins totaleles serverBins elebitlen
      w nthreads streams = send P keySeeds U (serverMasking elebitlen w nbins serverBins
        ⟨serverTable, totaleles * ceilDivide elebitlen 8⟩) (nbins * ceilDivide elebitlen 8)
        nthreads streams := fun streams => by
    rw [oprgServer, Nat.mod_eq_of_lt hsize]
  have hots : otsDone (nbins * ceilDivide elebitlen 8) nthreads ≤ nbins * ceilDivide elebitlen 8 :=
    Nat.min_le_right _ _
  -- the client's rows are the sender's with the code words taken out again
  have hrows : ∀ ot, rows ot = rows ot
      + row codeWordBytes (selectCode U (P.codeWords (choices.getChoice ot))) 0
      + row codeWordBytes (selectCode U (P.codeWords (choices.getChoice ot))) 0 :=
    fun ot => (XorGroup.add_cancel_right _ _).symm
  refine ⟨serverThreads, by rw [hcalls, hserve]; exact hsend, fun ot => rows ot
    + row codeWordBytes (selectCode U (P.codeWords (choices.getChoice ot))) 0, ?_, ?_⟩
  · intro resBuf res hres b hb hfull
    have hpos : binToResult nbins clientBins b < neles :=
      (runningSum_add_lt hb hfull).trans_le hneles
    rw [hcalls] at hres
    rw [hres.row_eq ?_ hpos]
    · rw [hclient, ← maskSum_client hots choices hb hfull]
      congr 2
      funext ot
      rw [← hrows]
    · intro c hc
      rw [hclient] at hc
      obtain ⟨ot, hot, hc⟩ := List.mem_flatMap.mp hc
      obtain ⟨hbin, hidx⟩ := index_of_mem_clientMaskOt hc
      rw [hidx]
      exact (runningSum_add_lt (bin_lt hots (List.mem_range.mp hot)) hbin).trans_le hneles
  · intro resBuf res hres b hb u hu
    have hpos : startingPosForBin nbins serverBins b + u < totaleles :=
      (runningSum_add_lt hb hu).trans_le htotal
    rw [hres.row_eq ?_ hpos, hserver]
    · exact maskSum_server hots htotal rfl hb hu
    · intro c hc
      rw [hserver] at hc
      obtain ⟨ot, hot, hc⟩ := List.mem_flatMap.mp hc
      obtain ⟨v, hv, hidx⟩ := index_of_mem_serverMaskOt hc
      rw [hidx]
      exact (runningSum_add_lt (bin_lt hots (List.mem_range.mp hot)) hv).trans_le htotal

/-- With fewer than `2 ^ 29` OTs these are the masks of the two tables. -/
theorem oprg_results (hlt : nbins * ceilDivide elebitlen 8 < 2 ^ 29)
    (hbase : BaseOts keySeedMtx keySeeds U)
    (htr : ∀ n, Transposes (P.eklundhBitTranspose codeWordBits (n * codeWordBits)) codeWordBits
      (n * codeWordBits))
    (hneles : ∑ i ∈ Finset.range nbins, clientBins i ≤ neles)
    (htotal : ∑ i ∈ Finset.range nbins, serverBins i ≤ totaleles) :
    ∃ serverThreads, oprgServer P keySeeds U serverTable nbins totaleles serverBins elebitlen w
        nthreads (streamOf (oprgClient P keySeedMtx clientTable nbins clientBins elebitlen
          nthreads)) = some serverThreads ∧
      ∃ rows : Nat → Fin codeWordBytes → Byte,
        (∀ resBuf res, ResultingMasks w neles ((oprgClient P keySeedMtx clientTable nbins
            clientBins elebitlen nthreads).map Prod.snd) resBuf res →
          ClientResults (oprg P U rows w (otsDone (nbins * ceilDivide elebitlen 8) nthreads)
            (ceilDivide elebitlen 8)) nbins (row (ceilDivide elebitlen 8) clientTable)
            clientBins res) ∧
        (∀ resBuf res, ResultingMasks w totaleles serverThreads resBuf res →
          ServerResults (oprg P U rows w (otsDone (nbins * ceilDivide elebitlen 8) nthreads)
            (ceilDivide elebitlen 8)) nbins (row (ceilDivide elebitlen 8) serverTable)
            serverBins res) := by
  obtain ⟨serverThreads, hsend, rows, hclient, hserver⟩ := oprg_masks (P := P) elebitlen w
    nthreads clientTable serverTable (hlt.trans (by decide)) hbase htr hneles htotal
  refine ⟨serverThreads, hsend, rows, fun resBuf res hres b hb hfull => ?_, hserver⟩
  rw [hclient resBuf res hres b hb hfull, row_readChoices clientTable hlt hb]

end Agreement

/-! ## When leader and follower agree -/

section Bound

/-- **Leader and follower agree**, for a number of bins and a length of items, whatever they have
in their bins: where an item of the follower has the bytes of the leader's item in the same bin,
both tables hold the same mask, the leader's at the number of full bins before and the
follower's at the item's own position. -/
def OprgAgrees (Key : Type*) (nbins elebitlen : Nat) : Prop :=
  ∀ (P : OtCrypto Key) (keySeedMtx keySeeds : Buf Key) (U clientTable serverTable : Buf Byte)
    (clientBins serverBins : Buf Nat) (w neles totaleles nthreads : Nat),
    BaseOts keySeedMtx keySeeds U →
    (∀ n, Transposes (P.eklundhBitTranspose codeWordBits (n * codeWordBits)) codeWordBits
      (n * codeWordBits)) →
    (∀ b < nbins, clientBins b ≤ 1) →
    ∑ i ∈ Finset.range nbins, clientBins i ≤ neles →
    ∑ i ∈ Finset.range nbins, serverBins i ≤ totaleles →
    ∃ serverThreads, oprgServer P keySeeds U serverTable nbins totaleles serverBins elebitlen w
        nthreads (streamOf (oprgClient P keySeedMtx clientTable nbins clientBins elebitlen
          nthreads)) = some serverThreads ∧
      ∀ clientBuf clientRes serverBuf serverRes,
        ResultingMasks w neles ((oprgClient P keySeedMtx clientTable nbins clientBins elebitlen
          nthreads).map Prod.snd) clientBuf clientRes →
        ResultingMasks w totaleles serverThreads serverBuf serverRes →
        ∀ b < nbins, 0 < clientBins b → ∀ u < serverBins b,
          row (ceilDivide elebitlen 8) clientTable b
            = row (ceilDivide elebitlen 8) serverTable
              ((∑ i ∈ Finset.range b, serverBins i) + u) →
          row w clientRes (Nat.count (0 < clientBins ·) b)
            = row w serverRes ((∑ i ∈ Finset.range b, serverBins i) + u)

variable {Key : Type*} {nbins elebitlen : Nat}

/-- With no bin fuller than that, a running sum is a count. -/
theorem binToResult_eq_count {clientBins : Buf Nat} (hone : ∀ b < nbins, clientBins b ≤ 1)
    {b : Nat} (hb : b < nbins) :
    binToResult nbins clientBins b = Nat.count (0 < clientBins ·) b := by
  rw [binToResult, runningSum_apply nbins _ hb, ← sum_ite_eq_count]
  refine Finset.sum_congr rfl fun i hi => ?_
  have := hone i (by have := Finset.mem_range.mp hi; omega)
  split <;> omega

theorem oprgAgrees_of_lt (hlt : nbins * ceilDivide elebitlen 8 < 2 ^ 29) :
    OprgAgrees Key nbins elebitlen := by
  intro P keySeedMtx keySeeds U clientTable serverTable clientBins serverBins w neles totaleles
    nthreads hbase htr hone hneles htotal
  obtain ⟨serverThreads, hsend, rows, hclient, hserver⟩ := oprg_results (P := P) elebitlen w
    nthreads clientTable serverTable hlt hbase htr hneles htotal
  refine ⟨serverThreads, hsend, ?_⟩
  intro clientBuf clientRes serverBuf serverRes hc hs b hb hfull u hu hitem
  have hC := hclient clientBuf clientRes hc b hb hfull
  have hS := hserver serverBuf serverRes hs b hb u hu
  rw [binToResult_eq_count hone hb] at hC
  rw [startingPosForBin_apply nbins serverBins hb] at hS
  rw [hC, hS, hitem]

/-- With a thread all OTs get done. -/
theorem otsDone_one (numOTs : Nat) : otsDone numOTs 1 = numOTs := by
  have hpad : numOTs ≤ padToMultiple numOTs registerBits := le_ceilDivide_mul numOTs (by decide)
  have hmy : padToMultiple numOTs registerBits
      ≤ ceilDivide (padToMultiple numOTs registerBits) 1 * 1 :=
    le_ceilDivide_mul _ Nat.one_pos
  rw [otsDone, Nat.one_mul, Nat.min_eq_right]
  rw [Nat.mul_one] at hmy
  exact hpad.trans hmy

/-- A hash and a code that show which bytes of an item are zero. -/
def plainCrypto (Key : Type*) : OtCrypto Key where
  encrypt _ _ _ := 0
  hash input _ := ofRow input 8
  codeWords c _ := if c = 0 then 0 else XorVec.ofBits 1#8
  eklundhBitTranspose := transpose

/-- What it shows of a byte. -/
def shown (a : Byte) : Byte := if a.toBits.toNat = 0 then 0 else XorVec.ofBits 1#8

/-- The rows and the bytes of an item add up apart from each other. -/
theorem oprg_plainCrypto (rows : Nat → Fin codeWordBytes → Byte) {w numOTs n : Nat} (b : Nat)
    (v : Fin n → Byte) (k : Fin w) :
    oprg (plainCrypto Key) (fun _ => XorVec.ofBits 0xFF#8) rows w numOTs n b v k
      = (∑ ot ∈ Finset.range numOTs, if ot / n = b then rows ot 0 else 0)
        + ∑ ot ∈ Finset.range numOTs, if ot / n = b then shown (ofRow v (ot % n)) else 0 := by
  rw [oprg, Finset.sum_apply, ← Finset.sum_add_distrib]
  refine Finset.sum_congr rfl fun ot _ => ?_
  by_cases h : ot / n = b
  · rw [if_pos h, if_pos h, if_pos h]
    show rows ot 0 + (XorVec.ofBits 0xFF#8 &&& shown (ofRow v (ot % n))) = _
    congr 1
    exact XorVec.toBits_injective (BitVec.allOnes_and (x := (shown (ofRow v (ot % n))).toBits))
  · rw [if_neg h, if_neg h, if_neg h, add_zero]
    rfl

/-- A table with one byte that is not zero. -/
def oneByteTable (k : Nat) : Buf Byte := Buf.write (fun _ => 0) k (XorVec.ofBits 1#8)

/-- The byte behind the wrapped end is not read. -/
theorem readChoices_oneByteTable (numOTs : Nat) :
    (clientChoices (oneByteTable (numOTs % 2 ^ 29)) numOTs).readChoices = fun _ => 0 := by
  funext otid
  rw [readChoices_clientChoices]
  split
  · next h => exact write_ne _ _ h.ne
  · rfl

theorem sum_shown_oneByteTable {numOTs n k : Nat} (hn : 0 < n) (hk : k < numOTs) :
    (∑ ot ∈ Finset.range numOTs, if ot / n = k / n then
        shown (ofRow (row n (oneByteTable k) (k / n)) (ot % n)) else 0) = XorVec.ofBits 1#8 := by
  have hbyte : ∀ ot, ot / n = k / n →
      ofRow (row n (oneByteTable k) (k / n)) (ot % n) = oneByteTable k ot := by
    intro ot hot
    rw [ofRow_row _ _ (Nat.mod_lt ot hn), ← hot, Nat.mul_comm, Nat.div_add_mod]
  rw [Finset.sum_eq_single k]
  · rw [if_pos rfl, hbyte k rfl, oneByteTable, write_same]
    rfl
  · intro ot _ hne
    split
    · next hot =>
        rw [hbyte ot hot, oneByteTable, write_ne _ _ hne]
        rfl
    · rfl
  · intro hnot
    exact absurd (Finset.mem_range.mpr hk) hnot

/-- **From `2 ^ 29` OTs on they do not.** Behind the wrapped end of the table the receiver takes a
byte of the leader's only item for zero. -/
theorem not_oprgAgrees_of_le [Inhabited Key] (hsize : nbins * ceilDivide elebitlen 8 < 2 ^ 31)
    (hle : 2 ^ 29 ≤ nbins * ceilDivide elebitlen 8) : ¬ OprgAgrees Key nbins elebitlen := by
  intro h
  have hmod := Nat.mod_lt (nbins * ceilDivide elebitlen 8) (show 0 < 2 ^ 29 by decide)
  -- the OT whose choice is the first behind the end, and its bin
  generalize hk : nbins * ceilDivide elebitlen 8 % 2 ^ 29 = k at hmod
  have hlt : k < nbins * ceilDivide elebitlen 8 := hmod.trans_le hle
  have hn := otsPerElement_pos le_rfl hlt
  have hb := bin_lt le_rfl hlt
  generalize hbin : k / ceilDivide elebitlen 8 = b at hb
  -- on both sides only this bin is full, with the same item
  let bins : Buf Nat := fun i => if i = b then 1 else 0
  let item : Buf Byte := ofRow (row (ceilDivide elebitlen 8) (oneByteTable k) b)
  have hone : ∀ i < nbins, bins i ≤ 1 := fun i _ => by
    show (if i = b then 1 else 0) ≤ 1
    split <;> decide
  have hfull : 0 < bins b := by
    show 0 < if b = b then 1 else 0
    rw [if_pos rfl]
    exact Nat.one_pos
  have hsum : ∑ i ∈ Finset.range nbins, bins i ≤ 1 := by
    rw [Finset.sum_ite_eq', if_pos (Finset.mem_range.mpr hb)]
  have hstart : ∑ i ∈ Finset.range b, bins i = 0 :=
    Finset.sum_eq_zero fun i hi => if_neg (Finset.mem_range.mp hi).ne
  have hbase : BaseOts (fun _ => (default : Key)) (fun _ => default)
      (fun _ => XorVec.ofBits 0xFF#8) := fun _ _ => rfl
  have htr : ∀ n, Transposes ((plainCrypto Key).eklundhBitTranspose codeWordBits
      (n * codeWordBits)) codeWordBits (n * codeWordBits) := fun n =>
    transpose_transposes codeWordBits (n * codeWordBits)
  obtain ⟨threads, hsend, hagree⟩ := h (plainCrypto Key) _ _ _ (oneByteTable k) item bins bins
    1 1 1 1 hbase htr hone hsum hsum
  obtain ⟨threads', hsend', rows, hclient, hserver⟩ := oprg_masks (P := plainCrypto Key) elebitlen
    1 1 (oneByteTable k) item (hsize.trans (by decide)) hbase htr hsum hsum
  cases hsend.symm.trans hsend'
  have hC := hclient (fun _ => 0) _ ⟨_, .refl _, rfl⟩ b hb hfull
  have hS := hserver (fun _ => 0) _ ⟨_, .refl _, rfl⟩ b hb 0 hfull
  have hA := hagree (fun _ => 0) _ (fun _ => 0) _ ⟨_, .refl _, rfl⟩ ⟨_, .refl _, rfl⟩ b hb hfull 0
    hfull (by rw [hstart, row_ofRow])
  rw [binToResult_eq_count hone hb] at hC
  rw [startingPosForBin_apply nbins bins hb, hstart, row_ofRow] at hS
  rw [hstart, hC, hS, otsDone_one, ← hk, readChoices_oneByteTable, hk] at hA
  -- the two masks differ by what the hash shows of the byte
  have hshown := congrFun hA 0
  rw [oprg_plainCrypto, oprg_plainCrypto, add_right_inj, ← hbin, sum_shown_oneByteTable hn hlt,
    Finset.sum_eq_zero] at hshown
  · exact absurd hshown (by decide)
  · intro ot _
    split
    · rw [ofRow_row _ _ (Nat.mod_lt ot hn)]
      rfl
    · rfl

/-- A cipher, a hash and a code for a run by hand, with the bitwise transposition. -/
def smallCrypto : OtCrypto Nat where
  encrypt key ctr i := XorVec.ofBits (BitVec.ofNat 8 (31 * key + 7 * ctr + i))
  hash input i := ofRow input i + ofRow input (8 + i)
  codeWords c p := XorVec.ofBits (BitVec.ofNat 8 (c * (p + 1)))
  eklundhBitTranspose := transpose

/-- The sender's choice bits of the run. -/
def smallU : Buf Byte := fun p => XorVec.ofBits (BitVec.ofNat 8 (37 * p + 90))

/-- A table of items of two bytes, items `first` and `first + 1` and so on. -/
def smallTable (first : Nat) : Buf Byte := ofNatLE (0x030003000200010000 >>> (16 * first))

end Bound

end MultiPartyPSI
