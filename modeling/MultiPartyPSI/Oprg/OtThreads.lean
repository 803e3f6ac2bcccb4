import MultiPartyPSI.Lib.Scenario
import MultiPartyPSI.Oprg.Agreement
import MultiPartyPSI.Oprg.NaorPinkas

/-!
# The OPRG over sockets

`oprg_client` and `oprg_server` with everything they send and wait for: the base OTs over the
first socket, then a thread for each socket that goes through its range of OTs, and in the
end `evaluate_crf` on the table of results. `OtRoutines` has the loops of the threads as
functions of a whole stream; here the receiver sends a batch at a time and the sender waits
for each batch, and `receiverProc_plan` and `senderProc_plan` say that this comes to the same.
-/

namespace MultiPartyPSI

open Lib Buf

section Loops

variable {Key : Type*} (P : OtCrypto Key) {S Γ : Type}

/-- The loop of `OTReceiverRoutine`, on its socket. -/
def receiverProc (keySeedMtx : Buf Key) (choices : CBitVector) (M : ClientMasking) (lim : Nat)
    (T vSnd : Buf Byte) (ctr i : Nat) (sock : S) : Proc S (Byte ⊕ Γ) (List MaskCall) :=
  if i < lim then
    let blocks := processedOTBlocks lim i
    let built := buildMatrices P keySeedMtx T vSnd blocks ctr
    let vSnd := generateChoiceCodes P choices built.2.1 i (processedOTs lim i)
    let T := P.eklundhBitTranspose codeWordBits (blocks * codeWordBits) built.1
    let calls := clientExpand P M T i (processedOTs lim i)
    (Proc.sendBytes sock (sendBytes vSnd (codeWordBytes * (blocks * codeWordBits)))).bind fun _ =>
      (receiverProc keySeedMtx choices M lim T (fun _ => 0) built.2.2
        (i + processedOTs lim i) sock).bind fun rest => .ret (calls ++ rest)
  else .ret []
termination_by lim - i
decreasing_by
  have : 0 < processedOTs lim i := processedOTs_pos (by assumption)
  omega

/-- The loop of `OTSenderRoutine`, on its socket. -/
def senderProc (keySeeds : Buf Key) (U : Buf Byte) (M : ServerMasking) (lim : Nat)
    (Q vRcv : Buf Byte) (ctr nProgress : Nat) (sock : S) : Proc S (Byte ⊕ Γ) (List MaskCall) :=
  if nProgress < lim then
    let blocks := processedOTBlocks lim nProgress
    let len := blocks * codeWordBits * codeWordBytes
    (Proc.receiveBytes sock len).bind fun received =>
      let vRcv := copy vRcv 0 (fun i => received.getD i 0) 0 len
      let built := buildQMatrix P keySeeds U Q vRcv blocks ctr
      let Q := P.eklundhBitTranspose codeWordBits (blocks * codeWordBits) built.1
      let calls := serverExpand P M Q U nProgress (processedOTs lim nProgress)
      (senderProc keySeeds U M lim Q vRcv built.2 (nProgress + processedOTs lim nProgress)
        sock).bind fun rest => .ret (calls ++ rest)
  else .ret []
termination_by lim - nProgress
decreasing_by
  have : 0 < processedOTs lim nProgress := processedOTs_pos (by assumption)
  omega

/-- The bytes of all batches from OT `i` on. -/
def batchBytes (lim i : Nat) : Nat :=
  if i < lim then
    processedOTBlocks lim i * codeWordBits * codeWordBytes + batchBytes lim (i + processedOTs lim i)
  else 0
termination_by lim - i
decreasing_by
  have : 0 < processedOTs lim i := processedOTs_pos (by assumption)
  omega

variable {P}

theorem length_receiverLoop (keySeedMtx : Buf Key) (choices : CBitVector) (M : ClientMasking)
    (lim : Nat) (T vSnd : Buf Byte) (ctr i : Nat) :
    (receiverLoop P keySeedMtx choices M lim T vSnd ctr i).1.length = batchBytes lim i := by
  induction hk : lim - i using Nat.strong_induction_on generalizing i T vSnd ctr with
  | _ k ih =>
  subst hk
  rw [receiverLoop, batchBytes]
  by_cases h : i < lim
  · have hpos := processedOTs_pos h
    rw [if_pos h, if_pos h]
    dsimp only
    rw [List.length_append, length_sendBytes, ih _ (by omega) _ _ _ _ rfl, Nat.mul_comm]
  · rw [if_neg h, if_neg h]
    rfl

variable [DecidableEq S] {sock : S}

variable (sock) in
/-- The receiver sends the stream of its range. -/
theorem receiverProc_plan (keySeedMtx : Buf Key) (choices : CBitVector) (M : ClientMasking)
    (lim : Nat) (T vSnd : Buf Byte) (ctr i t : Nat) :
    Plan t (receiverProc (Γ := Γ) P keySeedMtx choices M lim T vSnd ctr i sock) (fun _ => [])
      (toOnly sock (stamped t (receiverLoop P keySeedMtx choices M lim T vSnd ctr i).1))
      (receiverLoop P keySeedMtx choices M lim T vSnd ctr i).2 t := by
  induction hk : lim - i using Nat.strong_induction_on generalizing i T vSnd ctr with
  | _ k ih =>
  subst hk
  rw [receiverProc, receiverLoop]
  by_cases h : i < lim
  · have hpos := processedOTs_pos h
    rw [if_pos h, if_pos h]
    dsimp only
    refine (Plan.bind (Plan.sendBytes t sock _) (Plan.map _ (ih _ (by omega) _ _ _ _ rfl))).congr
      (fun _ => rfl) fun s => ?_
    rw [stamped_append, toOnly_append]
  · rw [if_neg h, if_neg h]
    exact (Plan.ret [] le_rfl).congr (fun _ => rfl) fun s => (toOnly_nil sock s).symm

/-- What is copied from a stream is its first part. -/
theorem copy_take (dst : Buf Byte) (stream : List Byte) (n : Nat) :
    copy dst 0 (fun i => (stream.take n).getD i 0) 0 n
      = copy dst 0 (fun i => stream.getD i 0) 0 n := by
  funext i
  rw [copy_apply, copy_apply]
  split
  · next h =>
      have hi : 0 + (i - 0) < n := by omega
      simp only [List.getD_eq_getElem?_getD, List.getElem?_take_of_lt hi]
  · rfl

/-- A sender whose loop returns on a stream waits for just this stream. -/
theorem senderProc_plan {keySeeds : Buf Key} {U : Buf Byte} {M : ServerMasking} {lim : Nat}
    {Q vRcv : Buf Byte} {ctr i τ t : Nat} (hτ : τ < t) {stream : List Byte}
    {calls : List MaskCall}
    (hloop : senderLoop P keySeeds U M lim Q vRcv ctr i stream = some calls)
    (hlen : stream.length = batchBytes lim i) :
    Plan t (senderProc (Γ := Γ) P keySeeds U M lim Q vRcv ctr i sock)
      (toOnly sock (stamped τ stream)) (fun _ => []) calls t := by
  induction hk : lim - i using Nat.strong_induction_on
    generalizing i Q vRcv ctr stream calls with
  | _ k ih =>
  subst hk
  rw [senderLoop] at hloop
  rw [batchBytes] at hlen
  rw [senderProc]
  by_cases h : i < lim
  · have hpos := processedOTs_pos h
    rw [if_pos h] at hloop hlen ⊢
    dsimp only at hloop ⊢
    rw [receiveBytes, if_pos (by omega), Option.bind_some] at hloop
    obtain ⟨rest, hrest, rfl⟩ := Option.map_eq_some_iff.mp hloop
    have hdrop := ih _ (by omega) hrest (by rw [List.length_drop]; omega) rfl
    have hcopy := copy_take vRcv stream
      (processedOTBlocks lim i * codeWordBits * codeWordBytes)
    have hrecv := Plan.receiveBytes (Γ := Γ) hτ sock
      (stream.take (processedOTBlocks lim i * codeWordBits * codeWordBytes))
      (List.length_take_of_le (by omega))
    dsimp only at hdrop
    rw [← hcopy] at hdrop
    have hstream : stamped τ stream
        = (stamped τ (stream.take (processedOTBlocks lim i * codeWordBits * codeWordBytes))
          ++ stamped τ (stream.drop (processedOTBlocks lim i * codeWordBits * codeWordBytes)) :
            List (ℕ × (Byte ⊕ Γ))) := by
      rw [← stamped_append, List.take_append_drop]
    rw [hstream]
    refine Plan.bind_toOnly hrecv ?_
    rw [← hcopy]
    exact Plan.map _ hdrop
  · rw [if_neg h] at hloop hlen ⊢
    cases hloop
    rw [List.length_eq_zero_iff.mp hlen]
    exact (Plan.ret [] le_rfl).congr (fun s => (toOnly_nil sock s).symm) fun _ => rfl

end Loops

/-! ## A thread for each socket -/

section Threads

variable {Key : Type*} (P : OtCrypto Key) {S Γ : Type}

/-- `receive`, thread `id` using `sock id`. -/
def receiveThreads (keySeedMtx : Buf Key) (choices : CBitVector) (M : ClientMasking)
    (numOTs numThreads : Nat) (sock : Nat → S) : Thread S (Byte ⊕ Γ) (List (List MaskCall)) :=
  if numOTs = 0 then .ret []
  else
    let my := myNumOTs numOTs numThreads
    (Thread.all numThreads fun id => (receiverProc P keySeedMtx choices M
      (threadLim numOTs my id) (fun _ => 0) (fun _ => 0) (id * my) (id * my) (sock id)).thread).bind
    fun threads => .ret (List.ofFn threads)

/-- `send`, thread `id` using `sock id`. -/
def sendThreads (keySeeds : Buf Key) (U : Buf Byte) (M : ServerMasking)
    (numOTs numThreads : Nat) (sock : Nat → S) : Thread S (Byte ⊕ Γ) (List (List MaskCall)) :=
  if numOTs = 0 then .ret []
  else
    let my := myNumOTs numOTs numThreads
    (Thread.all numThreads fun id => (senderProc P keySeeds U M (threadLim numOTs my id)
      (fun _ => 0) (fun _ => 0) (id * my) (id * my) (sock id)).thread).bind
    fun threads => .ret (List.ofFn threads)

variable {P} [DecidableEq S] {sock : Nat → S}

/-- What threads `0` to `n - 1` have on their sockets. -/
def onSockets (sock : Nat → S) (n : Nat) (items : Nat → List (ℕ × (Byte ⊕ Γ))) :
    Traffic S (Byte ⊕ Γ) :=
  fun s => (List.finRange n).flatMap fun id : Fin n => toOnly (sock id) (items id) s

theorem apart_toOnly (hsock : Function.Injective sock) {n : Nat}
    (items : Nat → List (ℕ × (Byte ⊕ Γ))) :
    Traffic.Apart fun id : Fin n => toOnly (sock id) (items id) := by
  intro i j s hij
  by_cases hi : s = sock i
  · exact .inr (toOnly_ne _ fun hj => hij (Fin.ext (hsock (hi.symm.trans hj))))
  · exact .inl (toOnly_ne _ hi)

omit [DecidableEq S] in
theorem apart_nil {n : Nat} : Traffic.Apart fun (_ : Fin n) (_ : S) =>
    ([] : List (ℕ × (Byte ⊕ Γ))) := fun _ _ _ _ => .inl rfl

theorem onSockets_nil {n : Nat} {items : Nat → List (ℕ × (Byte ⊕ Γ))}
    (h : ∀ id < n, items id = []) (s : S) : onSockets sock n items s = [] := by
  refine List.flatMap_eq_nil_iff.mpr fun id _ => ?_
  rw [h id id.isLt, toOnly_nil]

theorem streamOf_receive {keySeedMtx : Buf Key} {choices : CBitVector} {M : ClientMasking}
    {numOTs numThreads id : Nat} (h0 : numOTs ≠ 0) (hid : id < numThreads) :
    streamOf (receive P keySeedMtx choices M numOTs numThreads) id
      = (otReceiverRoutine P keySeedMtx choices M numOTs (myNumOTs numOTs numThreads) id).1 := by
  rw [receive, if_neg h0, streamOf, List.map_map, List.getD_eq_getElem?_getD, List.getElem?_map,
    List.getElem?_range hid]
  rfl

theorem streamOf_receive_zero {keySeedMtx : Buf Key} {choices : CBitVector} {M : ClientMasking}
    (numThreads id : Nat) : streamOf (receive P keySeedMtx choices M 0 numThreads) id = [] := by
  rw [receive, if_pos rfl]
  rfl

/-- The receiver's threads send their streams. -/
theorem receiveThreads_course (hsock : Function.Injective sock) (keySeedMtx : Buf Key)
    (choices : CBitVector) (M : ClientMasking) (numOTs numThreads t : Nat) :
    ∃ k, Course t (receiveThreads (Γ := Γ) P keySeedMtx choices M numOTs numThreads sock)
      (fun _ => [])
      (onSockets sock numThreads fun id => stamped t
        (streamOf (receive P keySeedMtx choices M numOTs numThreads) id))
      ((receive P keySeedMtx choices M numOTs numThreads).map Prod.snd) t k := by
  by_cases h0 : numOTs = 0
  · subst h0
    refine ⟨0, ?_⟩
    rw [receiveThreads, if_pos rfl, receive, if_pos rfl]
    exact (Course.ret _ le_rfl).congr (fun _ => rfl) fun s =>
      (onSockets_nil (fun id _ => rfl) s).symm
  · rw [receiveThreads, if_neg h0]
    dsimp only
    obtain ⟨k, hall⟩ := Course.all (n := numThreads) le_rfl (fun id : Fin numThreads =>
        (receiverProc_plan (P := P) (Γ := Γ) (sock id) keySeedMtx choices M
          (threadLim numOTs (myNumOTs numOTs numThreads) id) (fun _ => 0) (fun _ => 0)
          (id * myNumOTs numOTs numThreads) (id * myNumOTs numOTs numThreads) t).course)
      apart_nil (apart_toOnly hsock fun id => stamped t
        (otReceiverRoutine P keySeedMtx choices M numOTs (myNumOTs numOTs numThreads) id).1)
    have hcalls : (receive P keySeedMtx choices M numOTs numThreads).map Prod.snd
        = List.ofFn fun id : Fin numThreads =>
          (otReceiverRoutine P keySeedMtx choices M numOTs (myNumOTs numOTs numThreads) id).2 := by
      rw [receive, if_neg h0, List.map_map, List.ofFn_eq_map, ← List.map_coe_finRange_eq_range,
        List.map_map]
      rfl
    rw [hcalls]
    refine ⟨k, (hall.map List.ofFn).congr (fun s => ?_) fun s => ?_⟩
    · exact List.flatMap_eq_nil_iff.mpr fun _ _ => rfl
    · refine List.flatMap_congr fun id _ => ?_
      dsimp only
      rw [streamOf_receive h0 id.isLt]
      rfl

theorem forall₂_of_mapM {α β : Type*} {f : α → Option β} {l : List α} {r : List β}
    (h : l.mapM f = some r) : List.Forall₂ (fun a b => f a = some b) l r := by
  induction l generalizing r with
  | nil =>
      cases h
      exact .nil
  | cons a l ih =>
      rw [List.mapM_cons] at h
      cases ha : f a with
      | none =>
          rw [ha] at h
          cases h
      | some b =>
          rw [ha] at h
          cases hl : l.mapM f with
          | none =>
              rw [hl] at h
              cases h
          | some bs =>
              rw [hl] at h
              cases h
              exact .cons ha (ih hl)

/-- The sender's threads wait for these streams. -/
theorem sendThreads_course (hsock : Function.Injective sock) {keySeedMtx keySeeds : Buf Key}
    {choices : CBitVector} {MC : ClientMasking} {U : Buf Byte} {MS : ServerMasking}
    {numOTs numThreads τ t : Nat} (hτ : τ < t) {threads : List (List MaskCall)}
    (h : send P keySeeds U MS numOTs numThreads
      (streamOf (receive P keySeedMtx choices MC numOTs numThreads)) = some threads) :
    ∃ k, Course t (sendThreads (Γ := Γ) P keySeeds U MS numOTs numThreads sock)
      (onSockets sock numThreads fun id => stamped τ
        (streamOf (receive P keySeedMtx choices MC numOTs numThreads) id))
      (fun _ => []) threads t k := by
  by_cases h0 : numOTs = 0
  · subst h0
    rw [send, if_pos rfl] at h
    cases h
    refine ⟨0, ?_⟩
    rw [sendThreads, if_pos rfl]
    refine (Course.ret _ le_rfl).congr (fun s => (onSockets_nil (fun id _ => ?_) s).symm)
      fun _ => rfl
    rw [streamOf_receive_zero]
    rfl
  · rw [send, if_neg h0] at h
    have hforall := forall₂_of_mapM h
    have hlen : threads.length = numThreads := by
      rw [← hforall.length_eq, List.length_range]
    rw [sendThreads, if_neg h0]
    dsimp only
    have hthread : ∀ id : Fin numThreads, ∃ k, Course t (senderProc (Γ := Γ) P keySeeds U MS
        (threadLim numOTs (myNumOTs numOTs numThreads) id) (fun _ => 0) (fun _ => 0)
        (id * myNumOTs numOTs numThreads) (id * myNumOTs numOTs numThreads) (sock id)).thread
        (toOnly (sock id) (stamped τ (streamOf (receive P keySeedMtx choices MC numOTs numThreads)
          id))) (fun _ => []) (threads.get ⟨id, by rw [hlen]; exact id.isLt⟩) t k := by
      intro id
      have hget := hforall.get (i := id) (by rw [List.length_range]; exact id.isLt)
        (by rw [hlen]; exact id.isLt)
      rw [List.get_eq_getElem, List.getElem_range] at hget
      refine (senderProc_plan hτ hget ?_).course
      rw [streamOf_receive h0 id.isLt]
      exact length_receiverLoop ..
    obtain ⟨k, hall⟩ := Course.all le_rfl hthread
      (apart_toOnly hsock fun id => stamped τ
        (streamOf (receive P keySeedMtx choices MC numOTs numThreads) id)) apart_nil
    have hthreads : threads = List.ofFn fun id : Fin numThreads =>
        threads.get ⟨id, by rw [hlen]; exact id.isLt⟩ := by
      subst hlen
      exact (List.ofFn_get threads).symm
    refine ⟨k, ?_⟩
    rw [hthreads]
    exact (hall.map List.ofFn).congr (fun _ => rfl) fun s =>
      List.flatMap_eq_nil_iff.mpr fun _ _ => rfl

end Threads

end MultiPartyPSI
